/-
# Incremental parsers

A parser that is called again on a longer buffer whenever the bytes run out,
until it has an answer. It reads a list from the front and counts its
position; running out of input is an outcome of its own, different from an
error. A parser is `Stable` if an answer it gives does not change when more
input is appended, and `Tracks` if it returns the rest of its input at the
position it has counted. Both are kept by `bind`, so a parser built from the
primitives has them.

Key definitions: `Parser`, `Stable`, `Tracks`.

Key theorems: `Stable.bind`, `Tracks.bind`, `Stable.incomplete_of_short`.
-/
import Mathlib.Tactic

namespace Incremental

open List

/-- What a parser says about its input. -/
inductive Res (α : Type) where
  | ok (a : α)
  | error
  | incomplete
  deriving DecidableEq, Repr

/-- A parser from a list of `σ`, at a position: its value, the rest of the
list and the position there. -/
def Parser (σ α : Type) := List σ → ℕ → Res (α × List σ × ℕ)

variable {σ α β : Type} {m n : ℕ} {r s : List σ}

/-- The outcome on the input with `t` appended. -/
def Res.append (t : List σ) : Res (α × List σ × ℕ) → Res (α × List σ × ℕ)
  | .ok (a, r, n) => .ok (a, r ++ t, n)
  | .error => .error
  | .incomplete => .incomplete

namespace Parser

def pure (a : α) : Parser σ α := fun s n => .ok (a, s, n)

def bind (p : Parser σ α) (f : α → Parser σ β) : Parser σ β := fun s n =>
  match p s n with
  | .ok (a, r, m) => f a r m
  | .error => .error
  | .incomplete => .incomplete

instance : Monad (Parser σ) where
  pure := pure
  bind := bind

/-- Gives up. -/
def fail : Parser σ α := fun _ _ => .error

/-- The current position. -/
def pos : Parser σ ℕ := fun s n => .ok (n, s, n)

/-- The current element, which stays. -/
def peek : Parser σ σ
  | [], _ => .incomplete
  | c :: s, n => .ok (c, c :: s, n)

/-- The current element, which is consumed. -/
def next : Parser σ σ
  | [], _ => .incomplete
  | c :: s, n => .ok (c, s, n + 1)

/-- Waits for `k` elements. -/
def need (k : ℕ) : Parser σ Unit := fun s n => if s.length < k then .incomplete else .ok ((), s, n)

/-- The elements before the first that satisfies `stop`, none of them `bad`. -/
def span (stop bad : σ → Bool) : Parser σ (List σ)
  | [], _ => .incomplete
  | c :: s, n =>
    if stop c then .ok ([], c :: s, n)
    else if bad c then .error
    else
      match span stop bad s (n + 1) with
      | .ok (cs, r, m) => .ok (c :: cs, r, m)
      | .error => .error
      | .incomplete => .incomplete

end Parser

theorem pure_def (a : α) : (Pure.pure a : Parser σ α) = Parser.pure a := rfl

theorem bind_def (p : Parser σ α) (f : α → Parser σ β) : (p >>= f) = Parser.bind p f := rfl

/-- More input does not change an answer. -/
def Stable (p : Parser σ α) : Prop :=
  ∀ s n t, p s n ≠ .incomplete → p (s ++ t) n = (p s n).append t

theorem Stable.pure (a : α) : Stable (Pure.pure a : Parser σ α) := fun _ _ _ _ => rfl

theorem Stable.fail : Stable (Parser.fail : Parser σ α) := fun _ _ _ _ => rfl

theorem Stable.pos : Stable (Parser.pos : Parser σ ℕ) := fun _ _ _ _ => rfl

theorem Stable.peek : Stable (Parser.peek : Parser σ σ) := by
  intro s n t h
  cases s with
  | nil => exact absurd rfl h
  | cons c s => rfl

theorem Stable.next : Stable (Parser.next : Parser σ σ) := by
  intro s n t h
  cases s with
  | nil => exact absurd rfl h
  | cons c s => rfl

theorem Stable.need (k : ℕ) : Stable (Parser.need k : Parser σ Unit) := by
  intro s n t h
  by_cases hk : s.length < k
  · exact absurd (if_pos hk) h
  · have hk' : ¬(s ++ t).length < k := by
      rw [length_append]
      omega
    simp only [Parser.need, if_neg hk, if_neg hk']
    rfl

theorem Stable.span (stop bad : σ → Bool) : Stable (Parser.span stop bad) := by
  intro s n t h
  induction s generalizing n with
  | nil => exact absurd rfl h
  | cons c s ih =>
    simp only [Parser.span, cons_append] at h ⊢
    split_ifs at h ⊢ with h1 h2
    · rfl
    · rfl
    · have hs : Parser.span stop bad s (n + 1) ≠ .incomplete := by
        intro h0
        simp [h0] at h
      rw [ih (n + 1) hs]
      rcases Parser.span stop bad s (n + 1) with ⟨cs, r, m⟩ | _ | _ <;> rfl

variable {p : Parser σ α} {f : α → Parser σ β}

theorem Stable.bind (hp : Stable p) (hf : ∀ a, Stable (f a)) : Stable (p >>= f) := by
  intro s n t h
  rw [bind_def] at h ⊢
  unfold Parser.bind at h ⊢
  rcases hr : p s n with ⟨a, r, m⟩ | _ | _
  · rw [hr] at h
    rw [hp s n t (by simp [hr]), hr]
    exact hf a r m t h
  · rw [hp s n t (by simp [hr]), hr]
    rfl
  · simp [hr] at h

variable {c : Prop} {q : Parser σ α}

theorem Stable.ite [Decidable c] (hp : Stable p) (hq : Stable q) : Stable (if c then p else q) := by
  split
  · exact hp
  · exact hq

/-! ### Positions -/

/-- The rest is a suffix of the input, at the position that is returned. -/
def Tracks (p : Parser σ α) : Prop :=
  ∀ s n a r m, p s n = .ok (a, r, m) → ∃ h, s = h ++ r ∧ m = n + h.length

theorem Tracks.pure (a : α) : Tracks (Pure.pure a : Parser σ α) := by
  intro s n b r m h
  obtain ⟨_, rfl, rfl⟩ : a = b ∧ s = r ∧ n = m := by simpa [pure_def, Parser.pure] using h
  exact ⟨[], rfl, rfl⟩

theorem Tracks.fail : Tracks (Parser.fail : Parser σ α) := by
  intro s n a r m h
  simp [Parser.fail] at h

theorem Tracks.pos : Tracks (Parser.pos : Parser σ ℕ) := by
  intro s n a r m h
  obtain ⟨_, rfl, rfl⟩ : n = a ∧ s = r ∧ n = m := by simpa [Parser.pos] using h
  exact ⟨[], rfl, rfl⟩

theorem Tracks.peek : Tracks (Parser.peek : Parser σ σ) := by
  intro s n a r m h
  cases s with
  | nil => simp [Parser.peek] at h
  | cons c s =>
    obtain ⟨_, rfl, rfl⟩ : c = a ∧ c :: s = r ∧ n = m := by simpa [Parser.peek] using h
    exact ⟨[], rfl, rfl⟩

theorem Tracks.next : Tracks (Parser.next : Parser σ σ) := by
  intro s n a r m h
  cases s with
  | nil => simp [Parser.next] at h
  | cons c s =>
    obtain ⟨_, rfl, rfl⟩ : c = a ∧ s = r ∧ n + 1 = m := by simpa [Parser.next] using h
    exact ⟨[c], rfl, rfl⟩

theorem Tracks.need (k : ℕ) : Tracks (Parser.need k : Parser σ Unit) := by
  intro s n a r m h
  unfold Parser.need at h
  split at h
  · simp at h
  · obtain ⟨_, rfl, rfl⟩ : () = a ∧ s = r ∧ n = m := by simpa using h
    exact ⟨[], rfl, rfl⟩

/-- What `span` returns is what it has consumed, and where it stops. -/
theorem span_eq_ok {stop bad : σ → Bool} {cs : List σ} : Parser.span stop bad s n = .ok (cs, r, m) ↔
      s = cs ++ r ∧ m = n + cs.length ∧ (∀ c ∈ cs, stop c = false ∧ bad c = false) ∧
        ∃ c ∈ r.head?, stop c = true := by
  induction s generalizing n cs with
  | nil =>
    simp only [Parser.span, reduceCtorEq, false_iff]
    rintro ⟨h, -, -, c, hc, -⟩
    obtain ⟨-, rfl⟩ := append_eq_nil_iff.mp h.symm
    simp at hc
  | cons c s ih =>
    rw [Parser.span]
    constructor
    · intro h
      split_ifs at h with h1 h2
      · obtain ⟨rfl, rfl, rfl⟩ : [] = cs ∧ c :: s = r ∧ n = m := by simpa using h
        exact ⟨rfl, rfl, by simp, c, rfl, h1⟩
      · rcases hr : Parser.span stop bad s (n + 1) with ⟨ds, r', m'⟩ | _ | _
        · simp only [hr, Res.ok.injEq, Prod.mk.injEq] at h
          obtain ⟨rfl, rfl, rfl⟩ := h
          obtain ⟨rfl, rfl, hcs, hstop⟩ := ih.mp hr
          refine ⟨rfl, by simp; omega, ?_, hstop⟩
          intro d hd
          rcases mem_cons.mp hd with rfl | hd
          · exact ⟨by simpa using h1, by simpa using h2⟩
          · exact hcs d hd
        · simp [hr] at h
        · simp [hr] at h
    · rintro ⟨hs, hm, hcs, d, hd, hstop⟩
      cases cs with
      | nil =>
        obtain rfl : c :: s = r := hs
        obtain rfl : c = d := by simpa using hd
        simp [hstop, hm]
      | cons e es =>
        obtain ⟨rfl, rfl⟩ : c = e ∧ s = es ++ r := by simpa using hs
        have he := hcs c mem_cons_self
        have : Parser.span stop bad (es ++ r) (n + 1) = .ok (es, r, m) := ih.mpr
          ⟨rfl, by rw [hm, length_cons]; omega, (forall_mem_cons.mp hcs).2, d,
            hd, hstop⟩
        simp only [he.1, he.2, this, Bool.false_eq_true, if_false]

theorem Tracks.span (stop bad : σ → Bool) : Tracks (Parser.span stop bad) := by
  intro s n a r m h
  obtain ⟨hs, hm, _⟩ := span_eq_ok.mp h
  exact ⟨a, hs, hm⟩

/-- What a sequence of two parsers has done. -/
theorem bind_eq_ok {b : β} : (p >>= f) s n = .ok (b, r, m) ↔
      ∃ a r' m', p s n = .ok (a, r', m') ∧ f a r' m' = .ok (b, r, m) := by
  rw [bind_def]
  unfold Parser.bind
  rcases hr : p s n with ⟨a, r', m'⟩ | _ | _ <;> simp

theorem pure_eq_ok {a b : α} : (Pure.pure a : Parser σ α) s n = .ok (b, r, m) ↔ a = b ∧ s = r ∧
    n = m := by
  simp [pure_def, Parser.pure]

theorem pos_eq_ok {a : ℕ} : (Parser.pos : Parser σ ℕ) s n = .ok (a, r, m) ↔ n = a ∧ s = r ∧ n = m := by
  simp [Parser.pos]

theorem next_eq_ok {c : σ} : Parser.next s n = .ok (c, r, m) ↔ s = c :: r ∧ m = n + 1 := by
  cases s with
  | nil => simp [Parser.next]
  | cons d s =>
    simp only [Parser.next, Res.ok.injEq, Prod.mk.injEq, List.cons.injEq]
    exact ⟨fun ⟨h1, h2, h3⟩ => ⟨⟨h1, h2⟩, h3.symm⟩, fun ⟨⟨h1, h2⟩, h3⟩ => ⟨h1, h2, h3.symm⟩⟩

theorem peek_eq_ok {c : σ} : Parser.peek s n = .ok (c, r, m) ↔ s.head? = some c ∧ s = r ∧ n = m := by
  cases s with
  | nil | cons d s => simp [Parser.peek]

theorem need_eq_ok {k : ℕ} {u : Unit} :
    Parser.need k s n = .ok (u, r, m) ↔ k ≤ s.length ∧ s = r ∧ n = m := by
  unfold Parser.need
  split_ifs with h
  · simp; omega
  · simp; omega

theorem Tracks.bind (hp : Tracks p) (hf : ∀ a, Tracks (f a)) : Tracks (p >>= f) := by
  intro s n b r m h
  obtain ⟨a, r', m', h1, h2⟩ := bind_eq_ok.mp h
  obtain ⟨u, rfl, rfl⟩ := hp s n a r' m' h1
  obtain ⟨v, rfl, rfl⟩ := hf a r' _ b r m h2
  exact ⟨u ++ v, by simp, by simp; omega⟩

theorem Tracks.ite [Decidable c] (hp : Tracks p) (hq : Tracks q) : Tracks (if c then p else q) := by
  split
  · exact hp
  · exact hq

/-- **A parser waits for its whole message.** On a proper prefix of what it
consumes it has no answer yet. -/
theorem Stable.incomplete_of_short (hp : Stable p) (ht : Tracks p)
    {a : α} (h : p s n = .ok (a, r, m)) {u : List σ} (hu : u <+: s)
    (hlt : n + u.length < m) : p u n = .incomplete := by
  by_contra hne
  obtain ⟨v, rfl⟩ := hu
  have hs := hp u n v hne
  rw [h] at hs
  rcases hr : p u n with ⟨b, r', m'⟩ | _ | _
  · obtain ⟨w, rfl, rfl⟩ := ht u n b r' m' hr
    rw [hr] at hs
    obtain ⟨_, _, rfl⟩ : a = b ∧ r = r' ++ v ∧ m = n + w.length := by simpa [Res.append] using hs
    simp at hlt
  · simp [hr, Res.append] at hs
  · exact hne hr

end Incremental
