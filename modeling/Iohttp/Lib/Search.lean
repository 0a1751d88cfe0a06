/-
# Searching a text

The first place of a text from which on a condition holds, and the first place
where a word stands. A word does not reach over a letter that it does not have
(`prefix_of_notMem`), so in a text with a separator the search can be followed
from one separator to the next.

Key definitions: `firstAt`, `find`.

Key theorems: `firstAt_cons`, `firstAt_eq_some_iff`, `find_append`.
-/
import Iohttp.Lib.Lines

namespace Search

open List

variable {α : Type*}

/-- The first place from which on the text satisfies `p`. -/
def firstAt (p : List α → Bool) (text : List α) : Option ℕ := text.tails.findIdx? p

theorem firstAt_nil (p : List α → Bool) : firstAt p [] = if p [] then some 0 else none := by
  simp [firstAt, findIdx?_cons]

theorem firstAt_cons (p : List α → Bool) (c : α) (text : List α) :
    firstAt p (c :: text) = if p (c :: text) then some 0 else (firstAt p text).map (· + 1) := by
  simp [firstAt, findIdx?_cons]

variable {p : List α → Bool} {text word : List α} {line rest : List UInt8}

/-- **The first place**: the condition holds there, and nowhere before. -/
theorem firstAt_eq_some_iff : ∀ {text : List α} {i : ℕ},
    firstAt p text = some i ↔ i ≤ text.length ∧ p (text.drop i) = true ∧ ∀ j < i, p (text.drop j) = false
  | [], i => by
    rw [firstAt_nil]
    split_ifs with h
    · constructor
      · rintro he
        cases he
        exact ⟨le_rfl, h, by simp⟩
      · rintro ⟨hi, -, -⟩
        rw [Nat.le_zero.mp hi]
    · refine iff_of_false nofun ?_
      rintro ⟨hi, hp, -⟩
      rw [drop_nil] at hp
      exact h hp
  | c :: text, i => by
    rw [firstAt_cons]
    split_ifs with h
    · constructor
      · rintro he
        cases he
        exact ⟨Nat.zero_le _, h, by simp⟩
      · rintro ⟨-, -, hbefore⟩
        by_contra hi
        have := hbefore 0 (Nat.pos_of_ne_zero fun h0 => hi (by rw [h0]))
        rw [drop_zero, h] at this
        cases this
    · rw [Option.map_eq_some_iff]
      constructor
      · rintro ⟨k, hk, rfl⟩
        obtain ⟨hlen, hp, hbefore⟩ := firstAt_eq_some_iff.mp hk
        refine ⟨Nat.succ_le_succ hlen, hp, ?_⟩
        rintro (_ | j) hj
        · simpa using h
        · exact hbefore j (Nat.lt_of_succ_lt_succ hj)
      · rintro ⟨hlen, hp, hbefore⟩
        rcases i with _ | k
        · exact absurd hp h
        · exact ⟨k, firstAt_eq_some_iff.mpr ⟨Nat.le_of_succ_le_succ hlen, hp,
            fun j hj => hbefore (j + 1) (Nat.succ_lt_succ hj)⟩, rfl⟩

theorem firstAt_eq_none_iff :
    firstAt p text = none ↔ ∀ i ≤ text.length, p (text.drop i) = false := by
  simp only [firstAt, findIdx?_eq_none_iff, mem_tails]
  constructor
  · exact fun h i _ => h _ (drop_suffix i text)
  · rintro h t ⟨s, rfl⟩
    have := h s.length (by simp)
    rwa [drop_left] at this

/-- Where the condition holds, the search ends there or before. -/
theorem exists_firstAt_le {i : ℕ} (hi : i ≤ text.length)
    (h : p (text.drop i) = true) : ∃ k ≤ i, firstAt p text = some k := by
  cases hf : firstAt p text with
  | none =>
    rw [firstAt_eq_none_iff.mp hf i hi] at h
    cases h
  | some k =>
    refine ⟨k, ?_, rfl⟩
    by_contra hlt
    rw [(firstAt_eq_some_iff.mp hf).2.2 i (not_le.mp hlt)] at h
    cases h

/-! ### Words -/

/-- A word does not reach over a letter that it does not have. -/
theorem prefix_of_notMem {c : α} (hc : c ∉ word) : ∀ {s t : List α},
    word <+: s ++ c :: t → word <+: s := by
  induction word with
  | nil => exact fun _ => nil_prefix
  | cons w word ih =>
    rw [mem_cons, not_or] at hc
    intro s t h
    cases s with
    | nil =>
      rw [nil_append, cons_prefix_cons] at h
      exact absurd h.1.symm hc.1
    | cons d s =>
      rw [cons_append, cons_prefix_cons] at h
      rw [cons_prefix_cons]
      exact ⟨h.1, ih hc.2 h.2⟩

/-- What stands behind the letters that are taken. -/
theorem drop_takeWhile (p : α → Bool) (l : List α) : l.drop (l.takeWhile p).length = l.dropWhile p := by
  have h : (l.takeWhile p ++ l.dropWhile p).drop (l.takeWhile p).length = l.dropWhile p := drop_left
  rwa [takeWhile_append_dropWhile] at h

theorem take_takeWhile (p : α → Bool) (l : List α) : l.take (l.takeWhile p).length = l.takeWhile p :=
  prefix_iff_eq_take.mp (by exact takeWhile_prefix p) |>.symm

variable [DecidableEq α]

def find (word text : List α) : Option ℕ := firstAt (fun rest => word.isPrefixOf rest) text

theorem find_cons (word : List α) (c : α) (text : List α) :
    find word (c :: text) = if word.isPrefixOf (c :: text) then some 0 else (find word text).map
    (· + 1) :=
  firstAt_cons _ c text

/-- A text that starts with the word. -/
theorem find_start (word text : List α) : find word (word ++ text) = some 0 := by
  have h : word.isPrefixOf (word ++ text) = true := isPrefixOf_iff_prefix.mpr (prefix_append word text)
  exact firstAt_eq_some_iff.mpr ⟨Nat.zero_le _, h, by simp⟩

/-- A word that stands somewhere is found there or before. -/
theorem exists_find_le {i : ℕ} (hi : i ≤ text.length) (h : word <+: text.drop i) :
    ∃ k ≤ i, find word text = some k :=
  exists_firstAt_le hi <| isPrefixOf_iff_prefix.mpr h

/-- **A word that is not in a text is found behind it**, if a letter that it does
not have stands in between. -/
theorem find_append (hne : word ≠ []) {c : α} (hc : c ∉ word) (t : List α) :
    ∀ {s : List α}, ¬word <:+: s → find word (s ++ c :: t) = (find word t).map (· + (s.length + 1))
  | [], _ => by
    have hno : ¬word.isPrefixOf (c :: t) = true := by
      refine mt isPrefixOf_iff_prefix.mp ?_
      intro h
      exact hne (prefix_nil.mp (prefix_of_notMem hc (s := []) h))
    rw [nil_append, find_cons, if_neg hno]
    rfl
  | d :: s, h => by
    have hno : ¬word.isPrefixOf (d :: (s ++ c :: t)) = true := by
      refine mt isPrefixOf_iff_prefix.mp ?_
      rw [← cons_append]
      exact fun hp => h (prefix_of_notMem hc hp).isInfix
    have hs : ¬word <:+: s := fun hi => h (hi.trans (suffix_cons d s).isInfix)
    rw [cons_append, find_cons, if_neg hno, find_append hne hc t hs, Option.map_map]
    congr 1

open Lines (LineEnd)

theorem crlf_not_start {c : UInt8} (h : LineEnd.crlf.Free (c :: line)) :
    ¬[13, 10] <+: c :: (line ++ 13 :: rest) := by
  rintro hp
  cases line with
  | nil => simp [cons_prefix_cons] at hp
  | cons d line =>
    simp only [cons_append, cons_prefix_cons] at hp
    obtain ⟨rfl, rfl, -⟩ := hp
    exact h ⟨[], line, rfl⟩

/-- The end of a line. -/
theorem find_crlf (rest : List UInt8) : ∀ {line : List UInt8}, LineEnd.crlf.Free line →
    find [13, 10] (line ++ 13 :: 10 :: rest) = some line.length
  | [], _ => find_start [13, 10] rest
  | c :: line, h => by
    have hfree : LineEnd.crlf.Free line := fun hi => h (hi.trans (suffix_cons c line).isInfix)
    rw [cons_append, find_cons, if_neg, find_crlf rest hfree]
    · rfl
    · exact mt isPrefixOf_iff_prefix.mp <| crlf_not_start h

/-- In a text without an end of a line none is found. -/
theorem find_crlf_none (h : LineEnd.crlf.Free line) : find [13, 10] line = none := by
  refine firstAt_eq_none_iff.mpr fun i _ => ?_
  rw [Bool.eq_false_iff, ne_eq, isPrefixOf_iff_prefix]
  exact fun hp => h (hp.isInfix.trans (drop_suffix i line).isInfix)

/-- The empty line behind a line that has no end in it. -/
theorem find_empty_line (rest : List UInt8) : ∀ {line : List UInt8}, LineEnd.crlf.Free line →
    find [13, 10, 13, 10] (line ++ 13 :: 10 :: 13 :: 10 :: rest) = some line.length
  | [], _ => find_start [13, 10, 13, 10] rest
  | c :: line, h => by
    have hfree : LineEnd.crlf.Free line := fun hi => h (hi.trans (suffix_cons c line).isInfix)
    rw [cons_append, find_cons, if_neg, find_empty_line rest hfree]
    · rfl
    · refine mt isPrefixOf_iff_prefix.mp ?_
      exact fun hp => crlf_not_start h (List.IsPrefix.trans ⟨[13, 10], rfl⟩ hp)

/-- A line with its end is skipped, if the next one is not empty. -/
theorem find_empty_line_skip (hrest : ¬[13, 10] <+: rest) : ∀ {line : List UInt8},
    LineEnd.crlf.Free line →
      find [13, 10, 13, 10] (line ++ 13 :: 10 :: rest) =
        (find [13, 10, 13, 10] rest).map (· + (line.length + 2))
  | [], _ => by
    have h0 : ¬[13, 10, 13, 10].isPrefixOf (13 :: 10 :: rest) = true := by
      refine mt isPrefixOf_iff_prefix.mp ?_
      rw [cons_prefix_cons, cons_prefix_cons]
      exact fun hp => hrest hp.2.2
    have h1 : ¬[13, 10, 13, 10].isPrefixOf (10 :: rest) = true := by
      refine mt isPrefixOf_iff_prefix.mp ?_
      rw [cons_prefix_cons]
      exact fun hp => absurd hp.1 (by decide)
    rw [nil_append, find_cons, if_neg h0, find_cons, if_neg h1, Option.map_map]
    congr 1
  | c :: line, h => by
    have hfree : LineEnd.crlf.Free line := fun hi => h (hi.trans (suffix_cons c line).isInfix)
    rw [cons_append, find_cons, if_neg, find_empty_line_skip hrest hfree, Option.map_map]
    · congr 1
    · refine mt isPrefixOf_iff_prefix.mp ?_
      exact fun hp => crlf_not_start h (List.IsPrefix.trans ⟨[13, 10], rfl⟩ hp)

end Search
