/-
# Lines

A text of bytes is read line by line up to its first empty line. A line ends
with CR LF, or, for a reader that is less strict, with LF, where a CR before
it is not part of the line. Lines that hold no end of a line are read back as
they were written (`head_flatten`), and a reader never gives others
(`free_of_mem_head`).

Key definitions: `LineEnd`, `LineEnd.head`, `LineEnd.Free`.

Key theorems: `LineEnd.head_flatten`, `LineEnd.free_of_mem_head`.
-/
import Mathlib.Tactic

namespace Lines

open List

inductive LineEnd where
  | crlf
  | lf
  deriving DecidableEq, Repr

/-- The lines up to the first empty one, and what is behind it; `cur` are the
bytes of the line so far. A line ends with CR LF. -/
def crlfHead : List UInt8 → List UInt8 → Option (List (List UInt8) × List UInt8)
  | cur, 13 :: 10 :: rest =>
    if cur = [] then some ([], rest) else (crlfHead [] rest).map fun r => (cur :: r.1, r.2)
  | cur, c :: rest => crlfHead (cur ++ [c]) rest
  | _, [] => none

def stripCr (line : List UInt8) : List UInt8 := if line.getLast? = some 13 then line.dropLast else line

/-- The same, for lines that end with LF. -/
def lfHead : List UInt8 → List UInt8 → Option (List (List UInt8) × List UInt8)
  | cur, 10 :: rest =>
    if stripCr cur = [] then some ([], rest) else (lfHead [] rest).map fun r => (stripCr cur :: r.1, r.2)
  | cur, c :: rest => lfHead (cur ++ [c]) rest
  | _, [] => none

/-- The lines of a text up to the first empty one, and what is behind it. -/
def LineEnd.head : LineEnd → List UInt8 → Option (List (List UInt8) × List UInt8)
  | .crlf => crlfHead []
  | .lf => lfHead []

def LineEnd.Free : LineEnd → List UInt8 → Prop
  | .crlf, s => ¬[13, 10] <:+: s
  | .lf, s => 10 ∉ s

instance (e : LineEnd) (s : List UInt8) : Decidable (e.Free s) := by
  cases e
  · exact inferInstanceAs (Decidable (¬[13, 10] <:+: s))
  · exact inferInstanceAs (Decidable (10 ∉ s))

variable {cur rest s t text : List UInt8} {lines : List (List UInt8)}

theorem crlfHead_cons {c : UInt8} (h : ¬(c = 13 ∧ rest.head? = some 10)) :
    crlfHead cur (c :: rest) = crlfHead (cur ++ [c]) rest := by
  rw [crlfHead]
  rintro rest' rfl rfl
  exact h ⟨rfl, rfl⟩

/-- A line without an end in it, up to its own end. -/
theorem crlfHead_line : ∀ {line : List UInt8}, LineEnd.crlf.Free line →
    ∀ cur : List UInt8, crlfHead cur (line ++ 13 :: 10 :: rest) = crlfHead (cur ++ line)
    (13 :: 10 :: rest)
  | [], _, cur => by simp
  | c :: line, h, cur => by
    have hrest : LineEnd.crlf.Free line := fun hi => h (hi.trans (suffix_cons c line).isInfix)
    rw [cons_append, crlfHead_cons, crlfHead_line hrest, append_assoc]
    · rfl
    · rintro ⟨rfl, hh⟩
      cases line with
      | nil => simp at hh
      | cons d line =>
        simp only [cons_append, head?_cons, Option.some.injEq] at hh
        subst hh
        exact h ⟨[], line, rfl⟩

theorem lfHead_cons {c : UInt8} (h : c ≠ 10) :
    lfHead cur (c :: rest) = lfHead (cur ++ [c]) rest := by
  rw [lfHead]
  exact h

theorem lfHead_line : ∀ {line : List UInt8}, LineEnd.lf.Free line →
    ∀ cur : List UInt8, lfHead cur (line ++ 10 :: rest) = lfHead (cur ++ line) (10 :: rest)
  | [], _, cur => by simp
  | c :: line, h, cur => by
    have hc : c ≠ 10 := fun he => h (he ▸ mem_cons_self)
    rw [cons_append, lfHead_cons hc, lfHead_line (fun hm => h (mem_cons_of_mem c hm)),
      append_assoc]
    rfl

theorem stripCr_append (line : List UInt8) : stripCr (line ++ [13]) = line := by simp [stripCr]

/-- One line and its CR LF. -/
theorem LineEnd.head_line (e : LineEnd) {line : List UInt8} (h : e.Free line) (rest : List UInt8) :
    e.head (line ++ 13 :: 10 :: rest) =
      if line = [] then some ([], rest) else (e.head rest).map fun r => (line :: r.1, r.2) := by
  cases e with
  | crlf =>
    rw [LineEnd.head, crlfHead_line h, nil_append, crlfHead]
  | lf =>
    have hline : LineEnd.lf.Free (line ++ [13]) := by
      simp only [LineEnd.Free, mem_append, mem_singleton, not_or] at h ⊢
      exact ⟨h, by decide⟩
    rw [LineEnd.head, show line ++ 13 :: 10 :: rest = (line ++ [13]) ++ 10 :: rest by simp,
      lfHead_line hline, nil_append, lfHead, stripCr_append]

/-- **Lines are read back as they were written**, each with its CR LF, and an
empty line behind them. -/
theorem LineEnd.head_flatten (e : LineEnd) (rest : List UInt8) : ∀ lines : List (List UInt8),
    (∀ l ∈ lines, l ≠ [] ∧ e.Free l) →
      e.head ((lines.map (· ++ [13, 10])).flatten ++ 13 :: 10 :: rest) = some (lines, rest)
  | [], _ => by
    have hnil : e.Free [] := by cases e <;> simp [LineEnd.Free]
    simpa using e.head_line hnil rest
  | l :: lines, h => by
    obtain ⟨hne, hfree⟩ := h l mem_cons_self
    rw [map_cons, flatten_cons,
      show l ++ [13, 10] ++ (lines.map (· ++ [13, 10])).flatten ++ 13 :: 10 :: rest =
        l ++ 13 :: 10 :: ((lines.map (· ++ [13, 10])).flatten ++ 13 :: 10 :: rest) by simp,
      e.head_line hfree, if_neg hne,
      e.head_flatten rest lines (forall_mem_cons.mp h).2]
    rfl

/-- The line so far holds no end, and is not half way in one. -/
theorem free_of_mem_crlfHead : ∀ {text cur : List UInt8} {lines : List (List UInt8)} {rest : List UInt8},
    LineEnd.crlf.Free cur → (cur.getLast? = some 13 → text.head? ≠ some 10) →
      crlfHead cur text = some (lines, rest) → ∀ l ∈ lines, LineEnd.crlf.Free l := by
  intro text cur
  induction cur, text using crlfHead.induct with
  | case1 text =>
    intro lines rest _ _ h l hl
    cases h
    cases hl
  | case2 cur text hne ih =>
    intro lines rest hfree _ h l hl
    rw [crlfHead, if_neg hne] at h
    obtain ⟨r, hr, he⟩ := Option.map_eq_some_iff.mp h
    cases he
    rcases mem_cons.mp hl with rfl | hl
    · exact hfree
    · exact ih (by simp [LineEnd.Free]) (by simp) hr l hl
  | case3 cur c text hno ih =>
    intro lines rest hfree hlast h
    have hstep : ¬(c = 13 ∧ text.head? = some 10) := by
      rintro ⟨rfl, hh⟩
      cases text with
      | nil => cases hh
      | cons d text =>
        cases hh
        exact hno text rfl rfl
    rw [crlfHead_cons hstep] at h
    refine ih ?_ ?_ h
    · intro hi
      rcases infix_concat_iff.mp hi with hs | hi
      · rcases suffix_concat_iff.mp hs with hnil | ⟨t, ht, hcur⟩
        · cases hnil
        · -- the line so far ends with CR, and the byte behind it is LF
          obtain ⟨rfl, hc⟩ : t = [13] ∧ [c] = [10] := append_inj' ht.symm rfl
          cases hc
          obtain ⟨front, rfl⟩ := hcur
          exact hlast (by simp) rfl
      · exact hfree hi
    · simp only [getLast?_append, getLast?_singleton, Option.some_or, Option.some.injEq]
      rintro rfl hh
      exact hstep ⟨rfl, hh⟩
  | case4 cur =>
    intro lines rest _ _ h
    cases h

theorem free_of_mem_lfHead : ∀ {text cur : List UInt8} {lines : List (List UInt8)} {rest : List UInt8},
    LineEnd.lf.Free cur → lfHead cur text = some (lines, rest) → ∀ l ∈ lines, LineEnd.lf.Free l := by
  intro text cur
  have hstrip : ∀ {l : List UInt8}, LineEnd.lf.Free l → LineEnd.lf.Free (stripCr l) := by
    intro l h hm
    unfold stripCr at hm
    split_ifs at hm
    · exact h (mem_of_mem_dropLast hm)
    · exact h hm
  induction cur, text using lfHead.induct with
  | case1 cur text hnil =>
    intro lines rest _ h l hl
    rw [lfHead, if_pos hnil] at h
    cases h
    cases hl
  | case2 cur text hne ih =>
    intro lines rest hfree h l hl
    rw [lfHead, if_neg hne] at h
    obtain ⟨r, hr, he⟩ := Option.map_eq_some_iff.mp h
    cases he
    rcases mem_cons.mp hl with rfl | hl
    · exact hstrip hfree
    · exact ih (by simp [LineEnd.Free]) hr l hl
  | case3 cur c text hno ih =>
    intro lines rest hfree h
    rw [lfHead_cons hno] at h
    refine ih ?_ h
    simp only [LineEnd.Free, mem_append, mem_singleton, not_or] at hfree ⊢
    exact ⟨hfree, fun he => hno he.symm⟩
  | case4 cur =>
    intro lines rest _ h
    cases h

variable {e : LineEnd}

/-- **No line that a reader gives holds the end of a line.** -/
theorem LineEnd.free_of_mem_head
    (h : e.head text = some (lines, rest)) : ∀ l ∈ lines, e.Free l := by
  cases e with
  | crlf => exact free_of_mem_crlfHead (by simp [LineEnd.Free]) (by simp) h
  | lf => exact free_of_mem_lfHead (by simp [LineEnd.Free]) h

/-- A text without LF. -/
theorem LineEnd.free_of_notMem (h : 10 ∉ s) : e.Free s := by
  cases e with
  | crlf => exact fun hi => h (hi.subset (by simp))
  | lf => exact h

/-- Texts side by side: each of them is free of ends of lines if both are. -/
theorem LineEnd.Free.of_append (h : e.Free (s ++ t)) : e.Free s ∧ e.Free t := by
  cases e with
  | crlf =>
    exact ⟨fun hi => h (hi.trans (prefix_append s t).isInfix),
      fun hi => h (hi.trans (suffix_append s t).isInfix)⟩
  | lf =>
    simp only [LineEnd.Free, mem_append, not_or] at h ⊢
    exact h

/-- Conversely, if they do not meet between CR and LF. -/
theorem LineEnd.Free.append (hs : e.Free s) (ht : e.Free t)
    (hh : s.getLast? = some 13 → t.head? ≠ some 10) : e.Free (s ++ t) := by
  cases e with
  | lf =>
    simp only [LineEnd.Free, mem_append, not_or] at hs ht ⊢
    exact ⟨hs, ht⟩
  | crlf =>
    intro hi
    rcases infix_append_iff.mp hi with h | h | ⟨p, q, hpq, hp, hq⟩
    · exact hs h
    · exact ht h
    · rcases p with _ | ⟨a, _ | ⟨b, p⟩⟩
      · exact ht (hpq ▸ hq.isInfix)
      · -- CR is the last byte of the one, LF the first of the other
        obtain ⟨rfl, rfl⟩ : 13 = a ∧ [10] = q := by simpa using hpq
        obtain ⟨s', rfl⟩ := hp
        obtain ⟨t', rfl⟩ := hq
        exact hh (by simp) rfl
      · obtain ⟨rfl, rfl, rfl, rfl⟩ : 13 = a ∧ 10 = b ∧ p = [] ∧ q = [] := by simpa using hpq
        exact hs hp.isInfix

end Lines
