/-
# Open addressing

A table in which a key is looked for along its own order of slots, up to the
first that is free (`probe`), and from which nothing is ever removed. Seen from
one key it is a map: to put an entry of the key where the key was looked for
changes what the table holds for it (`get_put_self`), and an entry of another
key, put where the key is not, changes nothing (`get_put_other`). For the latter
every entry of the key has to be one that the key leads to (`Findable`).

Key definitions: `probe`, `get`, `Findable`.

Key theorems: `probe_put_other`, `get_put_self`, `get_put_other`,
`Findable.put_self`, `Findable.put_other`.
-/
import Mathlib.Tactic
import Mathlib.Logic.Function.Basic

namespace Probing

variable {S B K : Type*} [DecidableEq S] [DecidableEq K] (keyOf : B → K) {order : List S} {s : S} {b : B}

/-- The first slot in the order that is free or has an entry of the key. -/
def probe (t : S → Option B) (k : K) : List S → Option S
  | [] => none
  | s :: order =>
    match t s with
    | none => some s
    | some b => if keyOf b = k then some s else probe t k order

/-- What the table holds for the key. -/
def get (t : S → Option B) (k : K) (order : List S) : Option B := (probe keyOf t k order).bind t

/-- The key leads to every entry it has. -/
def Findable (t : S → Option B) (k : K) (order : List S) : Prop :=
  ∀ s b, t s = some b → keyOf b = k → probe keyOf t k order = some s

variable {keyOf} {t : S → Option B} {k : K}

omit [DecidableEq S]

theorem probe_free (h : t s = none) : probe keyOf t k (s :: order) = some s := by
  rw [probe, h]

theorem probe_hit (h : t s = some b) (hk : keyOf b = k) : probe keyOf t k (s :: order) = some s := by
  rw [probe, h]
  exact if_pos hk

theorem probe_miss (h : t s = some b) (hk : keyOf b ≠ k) :
    probe keyOf t k (s :: order) = probe keyOf t k order := by
  rw [probe, h]
  exact if_neg hk

theorem mem_of_probe : ∀ {order : List S}, probe keyOf t k order = some s → s ∈ order
  | [], h => by cases h
  | s' :: order, h => by
    cases hs : t s' with
    | none =>
      rw [probe_free hs] at h
      cases h
      exact List.mem_cons_self
    | some b =>
      by_cases hk : keyOf b = k
      · rw [probe_hit hs hk] at h
        cases h
        exact List.mem_cons_self
      · rw [probe_miss hs hk] at h
        exact List.mem_cons_of_mem _ (mem_of_probe h)

/-- An entry where the key leads to is one of the key. -/
theorem probe_key : ∀ {order : List S}, probe keyOf t k order = some s → t s = some b → keyOf b = k
  | [], h, _ => by cases h
  | s' :: order, h, hb => by
    cases hs : t s' with
    | none =>
      rw [probe_free hs] at h
      cases h
      rw [hs] at hb
      cases hb
    | some b' =>
      by_cases hk : keyOf b' = k
      · rw [probe_hit hs hk] at h
        cases h
        rw [hs] at hb
        cases hb
        exact hk
      · rw [probe_miss hs hk] at h
        exact probe_key h hb

/-- A key finds a place if there is a free slot. -/
theorem probe_isSome_of_free (hs : t s = none) : ∀ {order : List S}, s ∈ order →
    (probe keyOf t k order).isSome = true
  | s' :: order, hmem => by
    cases hs' : t s' with
    | none =>
      rw [probe_free hs']
      rfl
    | some b =>
      by_cases hk : keyOf b = k
      · rw [probe_hit hs' hk]
        rfl
      · rw [probe_miss hs' hk]
        refine probe_isSome_of_free hs ((List.mem_cons.mp hmem).resolve_left ?_)
        rintro rfl
        rw [hs] at hs'
        cases hs'

theorem get_eq_some :
    get keyOf t k order = some b ↔ ∃ s, probe keyOf t k order = some s ∧ t s = some b :=
  Option.bind_eq_some_iff

/-- Without an entry the key has none anywhere. -/
theorem Findable.absent (h : Findable keyOf t k order) (hnone : get keyOf t k order = none)
    (hs : t s = some b) : keyOf b ≠ k := by
  intro hk
  have hsome : get keyOf t k order = some b := get_eq_some.mpr ⟨s, h s b hs hk, hs⟩
  rw [hnone] at hsome
  cases hsome

variable [DecidableEq S]

/-- The key leads to an entry that was put where it was looked for. -/
theorem probe_put_self (hb : keyOf b = k) : ∀ {order : List S}, probe keyOf t k order = some s →
    probe keyOf (Function.update t s (some b)) k order = some s
  | s' :: order, h => by
    by_cases hs : s' = s
    · rw [hs, probe_hit (Function.update_self ..) hb]
    · cases ht : t s' with
      | none =>
        rw [probe_free ht] at h
        exact absurd (Option.some.inj h) hs
      | some b' =>
        have ht' : Function.update t s (some b) s' = some b' := by rw [Function.update_of_ne hs, ht]
        by_cases hk : keyOf b' = k
        · rw [probe_hit ht hk] at h
          exact absurd (Option.some.inj h) hs
        · rw [probe_miss ht hk] at h
          rw [probe_miss ht' hk]
          exact probe_put_self hb h

/-- The entry of a key stays where it is when one of another key is put elsewhere. -/
theorem probe_put_other {r : S} {c : B} (hb : keyOf b ≠ k) (hs : ∀ b', t s = some b' →
    keyOf b' ≠ k) :
    ∀ {order : List S}, probe keyOf t k order = some r → t r = some c →
    probe keyOf (Function.update t s (some b)) k order = some r
  | [], h, _ => by cases h
  | s' :: order, h, hr => by
    cases ht : t s' with
    | none =>
      rw [probe_free ht] at h
      cases h
      rw [ht] at hr
      cases hr
    | some b' =>
      by_cases hk : keyOf b' = k
      · have hne : s' ≠ s := fun he => hs b' (he ▸ ht) hk
        have ht' : Function.update t s (some b) s' = some b' := by rw [Function.update_of_ne hne, ht]
        rw [probe_hit ht hk] at h
        rw [probe_hit ht' hk, h]
      · obtain ⟨b'', ht', hk'⟩ : ∃ b'', Function.update t s (some b) s' = some b'' ∧ keyOf b'' ≠ k := by
          by_cases hne : s' = s
          · exact ⟨b, by rw [hne, Function.update_self], hb⟩
          · exact ⟨b', by rw [Function.update_of_ne hne, ht], hk⟩
        rw [probe_miss ht hk] at h
        rw [probe_miss ht' hk']
        exact probe_put_other hb hs h hr

theorem get_put_self (hb : keyOf b = k) (h : probe keyOf t k order = some s) :
    get keyOf (Function.update t s (some b)) k order = some b :=
  get_eq_some.mpr ⟨s, probe_put_self hb h, Function.update_self ..⟩

/-- **Other entries do not matter to a key.** -/
theorem get_put_other (h : Findable keyOf t k order) (hb : keyOf b ≠ k)
    (hs : ∀ b', t s = some b' → keyOf b' ≠ k) :
    get keyOf (Function.update t s (some b)) k order = get keyOf t k order := by
  cases hget : get keyOf t k order with
  | some c =>
    obtain ⟨r, hr, hc⟩ := get_eq_some.mp hget
    have hne : r ≠ s := fun he => hs c (he ▸ hc) (probe_key hr hc)
    exact get_eq_some.mpr ⟨r, probe_put_other hb hs hr hc, by rw [Function.update_of_ne hne, hc]⟩
  | none =>
    refine Option.eq_none_iff_forall_ne_some.mpr fun c hc => ?_
    obtain ⟨r, hr, hc⟩ := get_eq_some.mp hc
    have hkey := probe_key hr hc
    by_cases hrs : r = s
    · rw [hrs, Function.update_self] at hc
      cases hc
      exact hb hkey
    · rw [Function.update_of_ne hrs] at hc
      exact h.absent hget hc hkey

/-- An entry that was put where the key leads to is the only one of the key. -/
theorem Findable.put_self (h : Findable keyOf t k order) (hb : keyOf b = k)
    (hs : probe keyOf t k order = some s) : Findable keyOf (Function.update t s (some b)) k order := by
  intro r c hc hk
  rw [probe_put_self hb hs]
  by_cases hrs : r = s
  · rw [hrs]
  · rw [Function.update_of_ne hrs] at hc
    rw [← hs, h r c hc hk]

theorem Findable.put_other (h : Findable keyOf t k order) (hb : keyOf b ≠ k)
    (hs : ∀ b', t s = some b' → keyOf b' ≠ k) :
    Findable keyOf (Function.update t s (some b)) k order := by
  intro r c hc hk
  by_cases hrs : r = s
  · rw [hrs, Function.update_self] at hc
    cases hc
    exact absurd hk hb
  · rw [Function.update_of_ne hrs] at hc
    exact probe_put_other hb hs (h r c hc hk) hc

end Probing
