/-
# Canonical paths

What `ioh_path_normalize` of `src/router/ioh_router.c` gives: the segments on
its stack, each behind a slash. None of them is empty, a dot segment or has a
slash in it, so that only the root ends in one.
-/
import Iohttp.Router.Pattern
import Iohttp.Router.Router

namespace Iohttp

open List

variable {size : ℕ}

/-! ### The stack -/

/-- A segment that may stand on the stack. -/
def IsSegment (seg : Bytes) : Prop := seg ≠ [] ∧ slash ∉ seg

theorem normalizeSegments_forall {P : Bytes → Prop} : ∀ {segs stack out : List Bytes},
    (∀ s ∈ segs, s ≠ [] → s ≠ bytes "." → s ≠ bytes ".." → P s) → (∀ s ∈ stack, P s) →
    normalizeSegments stack segs = some out → ∀ s ∈ out, P s
  | [], stack, out, _, hstack, h => by
    cases h
    intro s hs
    exact hstack s (mem_reverse.mp hs)
  | seg :: segs, stack, out, hsegs, hstack, h => by
    have ih := @normalizeSegments_forall P segs
    have hrest := (forall_mem_cons.mp hsegs).2
    unfold normalizeSegments at h
    split_ifs at h with hskip hup hfull
    · exact ih hrest hstack h
    · cases stack with
      | nil => cases h
      | cons top stack => exact ih hrest (forall_mem_cons.mp hstack).2 h
    · refine ih hrest (fun s hs => ?_) h
      rcases mem_cons.mp hs with rfl | hs
      · exact hsegs s mem_cons_self (fun he => hskip (.inl he)) (fun hd => hskip (.inr hd)) hup
      · exact hstack s hs

theorem normalizeSegments_length : ∀ {segs stack out : List Bytes}, stack.length ≤ 256 →
    normalizeSegments stack segs = some out → out.length ≤ 256
  | [], stack, out, hstack, h => by
    cases h
    rwa [length_reverse]
  | seg :: segs, stack, out, hstack, h => by
    unfold normalizeSegments at h
    split_ifs at h with hskip hup hfull
    · exact normalizeSegments_length hstack h
    · cases stack with
      | nil => cases h
      | cons top stack => exact normalizeSegments_length (Nat.le_of_succ_le hstack) h
    · have hroom : (seg :: stack).length ≤ 256 := Nat.lt_of_not_ge hfull
      exact normalizeSegments_length hroom h

/-- A segment that normalization keeps. -/
def Kept (seg : Bytes) : Prop := IsSegment seg ∧ seg ≠ bytes "." ∧ seg ≠ bytes ".."

variable {norm path : Bytes}

theorem normalizeSegments_kept {out : List Bytes}
    (h : normalizeSegments [] (path.splitOn slash) = some out) : ∀ s ∈ out, Kept s := by
  refine normalizeSegments_forall (fun s hs hne hdot hup => ?_) (by simp) h
  exact ⟨⟨hne, notMem_of_mem_splitOn path s hs⟩, hdot, hup⟩

theorem normalizeSegments_of_kept : ∀ {segs stack : List Bytes}, (∀ s ∈ segs, Kept s) →
    stack.length + segs.length ≤ 256 → normalizeSegments stack segs = some (stack.reverse ++ segs)
  | [], stack, _, _ => by rw [normalizeSegments, append_nil]
  | seg :: segs, stack, hkept, hlen => by
    obtain ⟨⟨hne, _⟩, hdot, hup⟩ := hkept seg mem_cons_self
    rw [length_cons] at hlen
    unfold normalizeSegments
    rw [if_neg (not_or.mpr ⟨hne, hdot⟩), if_neg hup, if_neg (by omega),
      normalizeSegments_of_kept (forall_mem_cons.mp hkept).2
      (by rw [length_cons]; omega)]
    simp

theorem joinSegments_iff : ∀ {segs : List Bytes} {out r : Bytes}, joinSegments size out segs = some r ↔
      r = out ++ segs.flatMap (slash :: ·) ∧ (segs = [] ∨ r.length < size)
  | [], out, r => by
    simp [joinSegments, eq_comm]
  | seg :: segs, out, r => by
    have hflat : out ++ (seg :: segs).flatMap (slash :: ·) =
        out ++ slash :: seg ++ segs.flatMap (slash :: ·) := by simp
    have hlen : (out ++ slash :: seg).length = out.length + 1 + seg.length := by
      rw [length_append, length_cons]
      omega
    rw [joinSegments, hflat]
    by_cases hfull : out.length + 1 + seg.length ≥ size
    · rw [if_pos hfull]
      refine iff_of_false nofun ?_
      rintro ⟨rfl, hnil | hlt⟩
      · cases hnil
      · rw [length_append, hlen] at hlt
        omega
    · rw [if_neg hfull, joinSegments_iff]
      refine and_congr_right ?_
      rintro rfl
      constructor
      · rintro (rfl | hlt)
        · right
          rw [flatMap_nil, append_nil, hlen]
          omega
        · exact .inr hlt
      · rintro (hnil | hlt)
        · cases hnil
        · exact .inr hlt

/-- The path of some segments. -/
def spell (segs : List Bytes) : Bytes := if segs = [] then [slash] else segs.flatMap (slash :: ·)

/-- **What `ioh_path_normalize` does**: the path is clean, and the segments that
are left on the stack fit into the buffer with the NUL behind them. -/
theorem pathNormalize_iff : pathNormalize path size = some norm ↔
      ¬(path.head? ≠ some slash ∨ 0 ∈ path) ∧
      ∃ segs, normalizeSegments [] (path.splitOn slash) = some segs ∧ norm = spell segs ∧
      norm.length < size := by
  unfold pathNormalize
  by_cases hbad : path.head? ≠ some slash ∨ 0 ∈ path
  · rw [if_pos hbad]
    exact iff_of_false nofun fun h => h.1 hbad
  · rw [if_neg hbad, and_iff_right hbad]
    cases hsegs : normalizeSegments [] (path.splitOn slash) with
    | none => exact iff_of_false nofun fun ⟨segs, h, _⟩ => by cases h
    | some segs =>
      cases segs with
      | nil =>
        simp only [Option.ite_none_left_eq_some, Option.some.injEq, exists_eq_left', spell, if_true]
        constructor
        · rintro ⟨hsize, rfl⟩
          exact ⟨rfl, not_lt.mp hsize⟩
        · rintro ⟨rfl, hlen⟩
          exact ⟨not_lt.mpr hlen, rfl⟩
      | cons seg segs =>
        simp only [Option.some.injEq, exists_eq_left', joinSegments_iff, nil_append, reduceCtorEq,
          false_or, spell, if_false]

/-- **A canonical path is the root or its segments**, each behind a slash. -/
theorem pathNormalize_eq (h : pathNormalize path size = some norm) :
    norm = [slash] ∨ ∃ segs, segs ≠ [] ∧ (∀ s ∈ segs, IsSegment s) ∧
    norm = segs.flatMap (slash :: ·) := by
  obtain ⟨_, segs, hsegs, hnorm, _⟩ := pathNormalize_iff.mp h
  by_cases hnil : segs = []
  · exact .inl (hnorm.trans (if_pos hnil))
  · exact .inr ⟨segs, hnil, fun s hs => (normalizeSegments_kept hsegs s hs).1, hnorm.trans (if_neg hnil)⟩

/-- Only the root ends in a slash. -/
theorem pathNormalize_last (h : pathNormalize path size = some norm)
    (hlast : norm.getLast? = some slash) : norm = [slash] := by
  rcases pathNormalize_eq h with hroot | ⟨segs, hne, hsegs, rfl⟩
  · exact hroot
  · exfalso
    obtain ⟨front, seg, rfl⟩ := (eq_nil_or_concat' segs).resolve_left hne
    obtain ⟨hempty, hslash⟩ := hsegs seg (by simp)
    simp [getLast?_cons, getLast?_eq_some_getLast hempty] at hlast
    exact hslash (hlast ▸ getLast_mem hempty)

end Iohttp
