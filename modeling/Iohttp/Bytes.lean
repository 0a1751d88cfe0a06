/-
# Byte strings

The C sources work on byte buffers and NUL-terminated strings. Both are lists
of bytes here; a buffer and a length become the list of its first bytes, a
pointer into a buffer becomes the rest of the list from there on. Memory that
a list does not cover reads as NUL.
-/
import Mathlib.Tactic
import Mathlib.Data.List.TakeWhile

namespace Iohttp

open List

/-- A buffer's bytes. -/
abbrev Bytes := List UInt8

/-- An opaque pointer: its address, 0 for `nullptr`. -/
abbrev Ptr := ℕ

/-- The bytes of an ASCII literal. -/
def bytes (s : String) : Bytes := s.toList.map fun c => c.toNat.toUInt8

/-! ### Error codes

The values of `errno.h`; the sources return them negated. -/

abbrev ENOENT : ℤ := 2
abbrev EIO : ℤ := 5
abbrev E2BIG : ℤ := 7
abbrev EAGAIN : ℤ := 11
abbrev ENOMEM : ℤ := 12
abbrev EACCES : ℤ := 13
abbrev EBUSY : ℤ := 16
abbrev EEXIST : ℤ := 17
abbrev EINVAL : ℤ := 22
abbrev ENOSPC : ℤ := 28
abbrev ENAMETOOLONG : ℤ := 36
abbrev ETIME : ℤ := 62
abbrev ECANCELED : ℤ := 125

/-! ### Strings -/

/-- `strndup`: the string at a pointer, of at most `n` bytes. -/
def strn (n : ℕ) (p : Bytes) : Bytes := (p.take n).takeWhile (· ≠ 0)

theorem strn_append {n : ℕ} {v u : Bytes} (hv : 0 ∉ v) (hn : v.length ≤ n) :
    strn n (v ++ u) = v ++ strn (n - v.length) u := by
  unfold strn
  rw [take_append, take_of_length_le hn, takeWhile_append_of_pos]
  intro c hc
  simpa using fun h : c = 0 => hv (h ▸ hc)

/-- `tolower` in the C locale. -/
def lower (c : UInt8) : UInt8 := if 65 ≤ c ∧ c ≤ 90 then c + 32 else c

theorem eq_of_lower_eq {c d : UInt8} (hd : d < 97 ∨ 122 < d) (h : lower c = d) : c = d := by
  unfold lower at h
  split at h
  next hc =>
    subst h
    simp only [UInt8.le_iff_toNat_le, UInt8.lt_iff_toNat_lt, UInt8.toNat_add, UInt8.reduceToNat] at hc hd
    omega
  next => exact h

/-- `strncasecmp` on two strings of one length, none of which has a NUL. -/
def eqIgnoreCase (a b : Bytes) : Bool := a.map lower == b.map lower

abbrev slash : UInt8 := 47
abbrev colon : UInt8 := 58
abbrev star : UInt8 := 42

theorem mem_dropWhile {p : UInt8 → Bool} {c : UInt8} {l : Bytes} (h : c ∈ l) (hp : p c = false) :
    c ∈ l.dropWhile p := by
  rw [← takeWhile_append_dropWhile (p := p) (l := l), mem_append] at h
  rcases h with h | h
  · simp [mem_takeWhile_imp h] at hp
  · exact h

theorem notMem_of_mem_splitOn {sep : UInt8} : ∀ (l : Bytes), ∀ s ∈ l.splitOn sep, sep ∉ s
  | [], s, hs => by simp_all
  | c :: l, s, hs => by
    rw [splitOn_cons_eq_if_modifyHead] at hs
    have ih : ∀ s ∈ l.splitOn sep, sep ∉ s := notMem_of_mem_splitOn l
    split at hs
    · rcases mem_cons.mp hs with rfl | hs
      · simp
      · exact ih s hs
    · rename_i hc
      cases hl : l.splitOn sep with
      | nil => exact absurd hl (splitOn_ne_nil _ _)
      | cons t ts =>
        rw [hl] at ih hs
        rcases mem_cons.mp hs with rfl | hs
        · have ht := ih t mem_cons_self
          simp only [beq_iff_eq] at hc
          simp only [mem_cons, not_or]
          exact ⟨fun h => hc h.symm, ht⟩
        · exact ih s (mem_cons_of_mem _ hs)

end Iohttp
