/-
# Path normalization in its buffers

`ioh_path_normalize` of `src/router/ioh_router.c` as it runs: a scan over the
path that keeps the start and the length of the open segments in two arrays of
256, and a loop that copies them into the caller's buffer. It is compared with
what a path means: a `..` closes the last segment that is still open, and what
stays open is the canonical path.

The caller's buffer has `out.length` bytes; an access outside of it or of the path
has no result.
-/
import Iohttp.Router.Canonical
import Iohttp.Lib.Memory
import Iohttp.Lib.Nesting
import Iohttp.Lib.Search

namespace Iohttp

open List

variable {path : Bytes}

open Memory (fetch store overwrite)

/-- The loop of `ioh_path_normalize` at `pos`: the starts and the lengths of the
open segments, the last one first. No result is `-EINVAL`. -/
def resolveLoop (path : Bytes) : ℕ → ℕ → List (ℕ × ℕ) → Option (List (ℕ × ℕ))
  | 0, _, stack => some stack
  | fuel + 1, pos, stack =>
    if pos ≥ path.length then some stack
    else
      let start := pos + ((path.drop pos).takeWhile (· == slash)).length
      if start ≥ path.length then some stack
      else
        let len := ((path.drop start).takeWhile (· != slash)).length
        if len = 1 ∧ path[start]? = some 46 then resolveLoop path fuel (start + len) stack
        else if len = 2 ∧ path[start]? = some 46 ∧ path[start + 1]? = some 46 then
          match stack with
          | [] => none
          | _ :: stack => resolveLoop path fuel (start + len) stack
        else if stack.length ≥ 256 then none
        else resolveLoop path fuel (start + len) ((start, len) :: stack)

/-- How the copy ends: the result, what is in the buffer, and how much of it was
written. -/
structure Copied where
  rc : ℤ
  out : Bytes
  written : ℕ

/-- The loop that writes the segments behind `written` bytes. -/
def copySegments (path : Bytes) : List (ℕ × ℕ) → Bytes → ℕ → Option Copied
  | [], out, written => some ⟨0, out, written⟩
  | (start, len) :: segs, out, written =>
    if written + 1 + len ≥ out.length then some ⟨-EINVAL, out, written⟩
    else
      (store out written [slash]).bind fun out =>
        (fetch path start len).bind fun seg =>
          (store out (written + 1) seg).bind fun out => copySegments path segs out (written + 1 + len)

/-- What `ioh_path_normalize` leaves: the buffer, and `*out_len` if it was set. -/
structure Normalized where
  rc : ℤ
  out : Bytes
  outLen : Option ℕ

/-- The last lines of `ioh_path_normalize`. -/
def finishPath (c : Copied) : Option Normalized :=
  if c.rc ≠ 0 then some ⟨c.rc, c.out, none⟩
  else (store c.out c.written [0]).map fun out => ⟨0, out, some c.written⟩

/-- `ioh_path_normalize`. -/
def pathNormalizeInto (path out : Bytes) : Option Normalized :=
  if out.length = 0 then some ⟨-EINVAL, out, none⟩
  else if path.head? ≠ some slash then some ⟨-EINVAL, out, none⟩
  else if 0 ∈ path then some ⟨-EINVAL, out, none⟩
  else
    match resolveLoop path path.length 0 [] with
    | none => some ⟨-EINVAL, out, none⟩
    | some [] =>
      if out.length < 2 then some ⟨-EINVAL, out, none⟩
      else (store out 0 [slash]).bind fun out => finishPath ⟨0, out, 1⟩
    | some stack => (copySegments path stack.reverse out 0).bind finishPath

/-- A `..` closes a segment, a `.` does nothing, and any other one opens. -/
def segmentKind (seg : Bytes) : Nesting.Kind :=
  if seg = bytes "." then .neither else if seg = bytes ".." then .closes else .opens

def segmentsOf (path : Bytes) : List Bytes := (path.splitOn slash).filter (· ≠ [])

/-- How many segments are open behind these. -/
def openSegments (segs : List Bytes) : ℤ := Nesting.depth segmentKind segs

/-- The segments of a path that are not closed, with a slash before each. -/
def canonicalPath (path : Bytes) : Bytes :=
  slash :: [slash].intercalate (Nesting.kept segmentKind (segmentsOf path))

/-! ### The scan takes the segments -/

theorem normalizeSegments_run : ∀ (segs stack : List Bytes),
    normalizeSegments stack segs = Nesting.run segmentKind 256 stack (segs.filter (· ≠ []))
  | [], _ => rfl
  | seg :: segs, stack => by
    by_cases hnil : seg = []
    · rw [filter_cons_of_neg (by simp [hnil]), ← normalizeSegments_run segs stack, hnil]
      unfold normalizeSegments
      cases segs <;> rfl
    rw [filter_cons_of_pos (by simp [hnil])]
    unfold normalizeSegments Nesting.run
    by_cases hdot : seg = bytes "."
    · rw [if_pos (.inr hdot), segmentKind, if_pos hdot]
      exact normalizeSegments_run segs stack
    rw [if_neg (not_or.mpr ⟨hnil, hdot⟩), segmentKind, if_neg hdot]
    by_cases hup : seg = bytes ".."
    · rw [if_pos hup, if_pos hup]
      cases stack with
      | nil => rfl
      | cons top stack => exact normalizeSegments_run segs stack
    · rw [if_neg hup, if_neg hup]
      rw [normalizeSegments_run segs (seg :: stack)]

theorem segmentsOf_slash (rest : Bytes) : segmentsOf (slash :: rest) = segmentsOf rest := by
  rfl

theorem segmentsOf_dropWhile : ∀ rest : Bytes, segmentsOf (rest.dropWhile (· == slash)) = segmentsOf rest
  | [] => rfl
  | c :: rest => by
    by_cases hc : c = slash
    · rw [dropWhile_cons_of_pos (by simp [hc]), segmentsOf_dropWhile rest, hc, segmentsOf_slash]
    · rw [dropWhile_cons_of_neg (by simp [hc])]

theorem segmentsOf_segment {rest : Bytes} (hne : rest.takeWhile (· != slash) ≠ []) :
    segmentsOf rest = rest.takeWhile (· != slash) :: segmentsOf (rest.dropWhile (· != slash)) := by
  have hfree : slash ∉ rest.takeWhile (· != slash) := fun h => by simpa using mem_takeWhile_imp h
  have hrest := takeWhile_append_dropWhile (p := (· != slash)) (l := rest)
  cases hback : rest.dropWhile (· != slash) with
  | nil =>
    rw [hback, append_nil] at hrest
    rw [hrest] at hfree hne ⊢
    rw [segmentsOf, splitOn_eq_singleton hfree]
    simp [hne, segmentsOf]
  | cons c back =>
    have hc : c = slash := by
      have := head?_dropWhile_not (· != slash) rest
      rw [hback] at this
      simpa using this
    rw [hback, hc] at hrest
    nth_rewrite 1 [← hrest]
    rw [segmentsOf, splitOn_append_cons_self_of_not_mem hfree, filter_cons_of_pos
      (by simpa using hne), hc,
      segmentsOf_slash]
    rfl

def segmentAt (path : Bytes) (x : ℕ × ℕ) : Bytes := (path.drop x.1).take x.2

theorem eq_dot_iff {start len : ℕ} (h : (segmentAt path (start, len)).length = len) :
    (len = 1 ∧ path[start]? = some 46) ↔ segmentAt path (start, len) = bytes "." := by
  have h₀ : path[start]? = (path.drop start)[0]? := by rw [getElem?_drop]; rfl
  have hbytes : bytes "." = [46] := rfl
  unfold segmentAt at h ⊢
  rw [h₀, hbytes]
  constructor
  · rintro ⟨rfl, hc⟩
    cases hr : path.drop start with
    | nil => simp [hr] at hc
    | cons c rest => simpa [hr] using hc
  · intro hs
    obtain rfl : 1 = len := by rw [hs] at h; exact h
    cases hr : path.drop start with
    | nil => simp [hr] at hs
    | cons c rest => simpa [hr] using hs

theorem eq_dots_iff {start len : ℕ} (h : (segmentAt path (start, len)).length = len) :
    (len = 2 ∧ path[start]? = some 46 ∧ path[start + 1]? = some 46) ↔ segmentAt path (start, len) =
    bytes ".." := by
  have h₀ : path[start]? = (path.drop start)[0]? := by rw [getElem?_drop]; rfl
  have h₁ : path[start + 1]? = (path.drop start)[1]? := by rw [getElem?_drop]
  have hbytes : bytes ".." = [46, 46] := rfl
  unfold segmentAt at h ⊢
  rw [h₀, h₁, hbytes]
  constructor
  · rintro ⟨rfl, hc, hd⟩
    rcases hr : path.drop start with _ | ⟨c, _ | ⟨d, rest⟩⟩
    · simp [hr] at hc
    · simp [hr] at hd
    · rw [hr] at hc hd
      obtain rfl := Option.some.inj hc
      obtain rfl := Option.some.inj hd
      rfl
  · intro hs
    obtain rfl : 2 = len := by rw [hs] at h; exact h
    rcases hr : path.drop start with _ | ⟨c, _ | ⟨d, rest⟩⟩
    · simp [hr] at hs
    · simp [hr] at hs
    · simpa [hr] using hs

/-- **The scan is a stack** of the segments that are open. -/
theorem resolveLoop_eq : ∀ {fuel pos : ℕ} {stack : List (ℕ × ℕ)}, path.length - pos ≤ fuel →
    (resolveLoop path fuel pos stack).map (fun st => (st.map (segmentAt path)).reverse) =
      Nesting.run segmentKind 256 (stack.map (segmentAt path)) (segmentsOf (path.drop pos))
  | 0, pos, stack, hf => by
    rw [drop_of_length_le (by omega)]
    rfl
  | fuel + 1, pos, stack, hf => by
    rw [resolveLoop.eq_def]
    dsimp only
    by_cases hend : pos ≥ path.length
    · rw [if_pos hend, drop_of_length_le hend]
      rfl
    rw [if_neg hend]
    set start := pos + ((path.drop pos).takeWhile (· == slash)).length with hstart
    have hskip : path.drop start = (path.drop pos).dropWhile (· == slash) := by
      rw [hstart, ← drop_drop, Search.drop_takeWhile]
    rw [← segmentsOf_dropWhile, ← hskip]
    by_cases hlast : start ≥ path.length
    · rw [if_pos hlast, drop_of_length_le hlast]
      rfl
    rw [if_neg hlast]
    set len := ((path.drop start).takeWhile (· != slash)).length with hlen
    have hseg : segmentAt path (start, len) = (path.drop start).takeWhile (· != slash) :=
      Search.take_takeWhile _ _
    have hback : path.drop (start + len) = (path.drop start).dropWhile (· != slash) := by
      rw [hlen, ← drop_drop, Search.drop_takeWhile]
    have hne : (path.drop start).takeWhile (· != slash) ≠ [] := by
      obtain ⟨c, rest, hrest⟩ := exists_cons_of_ne_nil (drop_eq_nil_iff.not.mpr hlast)
      have hc := head?_dropWhile_not (· == slash) (path.drop pos)
      rw [← hskip, hrest] at hc
      rw [hrest, takeWhile_cons_of_pos (by simpa using hc)]
      exact cons_ne_nil _ _
    have hlength : (segmentAt path (start, len)).length = len := by rw [hseg]
    have hpos : 0 < len := length_pos_iff.mpr hne
    have hfuel : path.length - (start + len) ≤ fuel := by omega
    rw [segmentsOf_segment hne, ← hseg, ← hback, Nesting.run.eq_def]
    simp only [eq_dot_iff hlength, eq_dots_iff hlength, segmentKind]
    by_cases hdot : segmentAt path (start, len) = bytes "."
    · rw [if_pos hdot, if_pos hdot]
      exact resolveLoop_eq hfuel
    rw [if_neg hdot, if_neg hdot]
    by_cases hup : segmentAt path (start, len) = bytes ".."
    · rw [if_pos hup, if_pos hup]
      cases stack with
      | nil => rfl
      | cons top stack => exact resolveLoop_eq hfuel
    rw [if_neg hup, if_neg hup]
    rw [length_map]
    by_cases hfull : stack.length ≥ 256
    · rw [if_pos hfull, if_pos hfull]
      rfl
    · rw [if_neg hfull, if_neg hfull]
      exact resolveLoop_eq hfuel

theorem resolveLoop_within : ∀ {fuel pos : ℕ} {stack result : List (ℕ × ℕ)},
    (∀ x ∈ stack, x.1 + x.2 ≤ path.length) → resolveLoop path fuel pos stack = some result →
      ∀ x ∈ result, x.1 + x.2 ≤ path.length
  | 0, _, _, _, hstack, h => Option.some.inj h ▸ hstack
  | fuel + 1, pos, stack, result, hstack, h => by
    rw [resolveLoop.eq_def] at h
    dsimp only at h
    split_ifs at h with hend hlast hdot hup hfull
    · exact Option.some.inj h ▸ hstack
    · exact Option.some.inj h ▸ hstack
    · exact resolveLoop_within hstack h
    · cases stack with
      | nil => cases h
      | cons top stack => exact resolveLoop_within (forall_mem_cons.mp hstack).2 h
    · refine resolveLoop_within (fun x hx => ?_) h
      rcases mem_cons.mp hx with rfl | hx
      · have htake := (takeWhile_sublist (l := path.drop (pos +
          ((path.drop pos).takeWhile (· == slash)).length)) (· != slash)).length_le
        rw [length_drop] at htake
        omega
      · exact hstack x hx

theorem segmentAt_length {x : ℕ × ℕ} (h : x.1 + x.2 ≤ path.length) :
    (segmentAt path x).length = x.2 := by
  rw [segmentAt, length_take, length_drop]
  omega

/-- **The copy** writes the segments with a slash before each, if one more byte
fits behind the last. -/
theorem copySegments_eq : ∀ {segs : List (ℕ × ℕ)} {out pre : Bytes},
    (∀ x ∈ segs, x.1 + x.2 ≤ path.length) → pre.length ≤ out.length →
    ∃ c, copySegments path segs (overwrite out 0 pre) pre.length = some c ∧
      match joinSegments out.length pre (segs.map (segmentAt path)) with
      | some r => c = ⟨0, overwrite out 0 r, r.length⟩ | none => c.rc = -EINVAL
  | [], out, pre, _, _ => ⟨_, rfl, rfl⟩
  | (start, len) :: segs, out, pre, hsegs, hpre => by
    have hin : start + len ≤ path.length := hsegs _ mem_cons_self
    have hlen : (segmentAt path (start, len)).length = len := segmentAt_length hin
    have hsize : (overwrite out 0 pre).length = out.length := Memory.length_overwrite (by omega)
    rw [copySegments, hsize, map_cons, joinSegments, hlen]
    by_cases hfull : pre.length + 1 + len ≥ out.length
    · rw [if_pos hfull, if_pos hfull]
      exact ⟨_, rfl, rfl⟩
    -- the slash, and then the segment behind it
    have hslash : store (overwrite out 0 pre) pre.length [slash] = some
        (overwrite out 0 (pre ++ [slash])) := by
      have happ : overwrite (overwrite out 0 pre) (0 + pre.length) [slash] = overwrite out 0
          (pre ++ [slash]) :=
        Memory.overwrite_append (by rw [length_singleton]; omega)
      rw [Memory.store_eq (by rw [hsize, length_singleton]; omega), ← happ, Nat.zero_add]
    have hseg : store (overwrite out 0 (pre ++ [slash])) (pre.length + 1) (segmentAt path (start, len)) =
        some (overwrite out 0 (pre ++ slash :: segmentAt path (start, len))) := by
      have hroom : 0 + (pre ++ [slash]).length + (segmentAt path (start, len)).length ≤ out.length := by
        rw [hlen, length_append, length_singleton]
        omega
      have happ := Memory.overwrite_append hroom
      rw [Nat.zero_add, length_append, length_singleton, append_assoc, singleton_append] at happ
      rw [Memory.store_eq (by rw [Memory.length_overwrite (by simp; omega), hlen]; omega), happ]
    have hfetch : fetch path start len = some (segmentAt path (start, len)) := Memory.fetch_eq hin
    have hnext : (pre ++ slash :: segmentAt path (start, len)).length = pre.length + 1 + len := by
      rw [length_append, length_cons, hlen]
      omega
    rw [if_neg hfull, if_neg hfull, hslash, Option.bind_some, hfetch, Option.bind_some, hseg,
      Option.bind_some, ← hnext]
    exact copySegments_eq (forall_mem_cons.mp hsegs).2 (by omega)

theorem finishPath_eq {out r : Bytes} (h : r.length < out.length) :
    finishPath ⟨0, overwrite out 0 r, r.length⟩ = some
    ⟨0, overwrite out 0 (r ++ [0]), some r.length⟩ := by
  have happ : overwrite (overwrite out 0 r) (0 + r.length) [0] = overwrite out 0 (r ++ [0]) :=
    Memory.overwrite_append (by rw [length_singleton]; omega)
  have hsize : (overwrite out 0 r).length = out.length := Memory.length_overwrite (by omega)
  have hstore : store (overwrite out 0 r) r.length [0] = some (overwrite out 0 (r ++ [0])) := by
    rw [Memory.store_eq (by rw [hsize, length_singleton]; omega), ← happ, Nat.zero_add]
  rw [finishPath, if_neg (fun h => h rfl), hstore]
  rfl

theorem copyPath_eq (out : Bytes) {stack : List (ℕ × ℕ)} (hne : stack ≠ [])
    (hwithin : ∀ x ∈ stack, x.1 + x.2 ≤ path.length) :
    ∃ r, (copySegments path stack.reverse out 0).bind finishPath = some r ∧
      match joinSegments out.length [] (stack.map (segmentAt path)).reverse with
      | some norm =>
      r = ⟨0, overwrite out 0 (norm ++ [0]), some norm.length⟩ | none => r.rc = -EINVAL := by
  obtain ⟨c, hcopy, hc⟩ := @copySegments_eq path stack.reverse out []
    (fun x hx => hwithin x (mem_reverse.mp hx)) (Nat.zero_le _)
  rw [Memory.overwrite_nil, length_nil] at hcopy
  rw [hcopy, Option.bind_some, ← map_reverse]
  cases hjoin : joinSegments out.length [] (stack.reverse.map (segmentAt path)) with
  | none =>
    rw [hjoin] at hc
    have hrc : c.rc = -EINVAL := hc
    rw [finishPath, if_pos (by rw [hrc]; decide)]
    exact ⟨_, rfl, hrc⟩
  | some norm =>
    rw [hjoin] at hc
    have hlen : norm.length < out.length := by
      rcases (joinSegments_iff.mp hjoin).2 with hnil | hlt
      · exact absurd (by simpa using hnil) hne
      · exact hlt
    rw [show c = _ from hc, finishPath_eq hlen]
    exact ⟨_, rfl, rfl⟩

/-- **The buffers give what `pathNormalize` says**: its path with a NUL behind it,
or an error. No access is outside of the path or the caller's buffer. -/
theorem pathNormalizeInto_eq (path out : Bytes) :
    ∃ r, pathNormalizeInto path out = some r ∧
      match pathNormalize path out.length with
      | some norm => r = ⟨0, overwrite out 0 (norm ++ [0]), some norm.length⟩
      | none => r.rc = -EINVAL := by
  by_cases hempty : out.length = 0
  · have hnone : pathNormalize path out.length = none := by
      refine Option.eq_none_iff_forall_ne_some.mpr fun norm hnorm => ?_
      obtain ⟨-, -, -, -, hlen⟩ := pathNormalize_iff.mp hnorm
      omega
    rw [hnone, pathNormalizeInto, if_pos hempty]
    exact ⟨_, rfl, rfl⟩
  rw [pathNormalizeInto, if_neg hempty, pathNormalize]
  by_cases hhead : path.head? ≠ some slash
  · rw [if_pos hhead, if_pos (.inl hhead)]
    exact ⟨_, rfl, rfl⟩
  by_cases hnul : 0 ∈ path
  · rw [if_neg hhead, if_pos hnul, if_pos (.inr hnul)]
    exact ⟨_, rfl, rfl⟩
  rw [if_neg hhead, if_neg hnul, if_neg (not_or.mpr ⟨hhead, hnul⟩), normalizeSegments_run]
  have hscan : (resolveLoop path path.length 0 []).map (fun st => (st.map (segmentAt path)).reverse) =
      Nesting.run segmentKind 256 [] (segmentsOf (path.drop 0)) := resolveLoop_eq le_rfl
  rw [drop_zero, segmentsOf] at hscan
  rw [← hscan]
  cases hloop : resolveLoop path path.length 0 [] with
  | none => exact ⟨_, rfl, rfl⟩
  | some stack =>
    cases stack with
    | nil =>
      by_cases hsmall : out.length < 2
      · rw [if_pos hsmall, if_pos hsmall]
        exact ⟨_, rfl, rfl⟩
      · have hslash : store out 0 [slash] = some (overwrite out 0 [slash]) :=
          Memory.store_eq (by rw [length_singleton]; omega)
        have hroot : finishPath ⟨0, overwrite out 0 [slash], 1⟩ =
            some ⟨0, overwrite out 0 ([slash] ++ [0]), some 1⟩ :=
          finishPath_eq (r := [slash]) (by rw [length_singleton]; omega)
        rw [if_neg hsmall, if_neg hsmall, hslash, Option.bind_some, hroot]
        exact ⟨_, rfl, rfl⟩
    | cons x stack =>
      have hwithin := resolveLoop_within (by simp) hloop
      obtain ⟨seg, segs, hsegs⟩ :
          ∃ seg segs, ((x :: stack).map (segmentAt path)).reverse = seg :: segs :=
        exists_cons_of_ne_nil (by simp)
      simp only [Option.map_some, hsegs]
      rw [← hsegs]
      exact copyPath_eq out (cons_ne_nil x stack) hwithin

theorem spell_eq (segs : List Bytes) : spell segs = slash :: [slash].intercalate segs := by
  cases segs with
  | nil => rfl
  | cons seg segs =>
    rw [spell, if_neg (cons_ne_nil _ _), flatMap_cons, cons_append, ← segmentTail_flatMap,
      Radix.segmentTail_eq]

theorem normalizeSegments_iff {segs : List Bytes} :
    normalizeSegments [] (path.splitOn slash) = some segs ↔
      ((∀ p, p <+: segmentsOf path → 0 ≤ openSegments p) ∧ ∀ p, p <+: segmentsOf path →
        openSegments p ≤ 256) ∧
        segs = Nesting.kept segmentKind (segmentsOf path) := by
  have hrun := @Nesting.run_iff _ segmentKind 256 (segmentsOf path) [] segs (Nat.zero_le _)
  rw [normalizeSegments_run]
  refine hrun.trans (and_congr ?_ ?_)
  · simp only [mem_inits, length_nil, Nat.cast_zero, zero_add, Nat.cast_ofNat]
    exact ⟨fun h => ⟨fun p hp => (h p hp).1, fun p hp => (h p hp).2⟩, fun h p hp => ⟨h.1 p hp, h.2 p hp⟩⟩
  · rw [drop_nil, reverse_nil, nil_append]

theorem pathNormalize_canonical {norm : Bytes} {size : ℕ} :
    pathNormalize path size = some norm ↔
      (path.head? = some slash ∧ 0 ∉ path ∧ (∀ p, p <+: segmentsOf path → 0 ≤ openSegments p) ∧
        (∀ p, p <+: segmentsOf path → openSegments p ≤ 256) ∧ (canonicalPath path).length + 1 ≤ size) ∧
      norm = canonicalPath path := by
  rw [pathNormalize_iff]
  simp only [normalizeSegments_iff, not_or, not_not]
  constructor
  · rintro ⟨⟨hhead, hnul⟩, segs, ⟨⟨hlow, hhigh⟩, rfl⟩, rfl, hlen⟩
    rw [spell_eq] at hlen ⊢
    exact ⟨⟨hhead, hnul, hlow, hhigh, hlen⟩, rfl⟩
  · rintro ⟨⟨hhead, hnul, hlow, hhigh, hlen⟩, rfl⟩
    refine ⟨⟨hhead, hnul⟩, _, ⟨⟨hlow, hhigh⟩, rfl⟩, ?_, hlen⟩
    rw [spell_eq]
    rfl

/-- **Path normalization is exact.** It succeeds if and only if the path starts with
a slash and has no NUL in it, never closes more segments than are open nor has
more than 256 of them open, and the canonical path fits into the buffer with a
NUL behind it. Then the canonical path and the NUL are in the buffer, and
`*out_len` is its length. -/
theorem path_normalize_exact (path out : Bytes) :
    ∃ r, pathNormalizeInto path out = some r ∧
      (r.rc = 0 ↔ path.head? = some slash ∧ 0 ∉ path ∧
        (∀ p, p <+: segmentsOf path → 0 ≤ openSegments p) ∧
        (∀ p, p <+: segmentsOf path → openSegments p ≤ 256) ∧
        (canonicalPath path).length + 1 ≤ out.length) ∧
      (r.rc = 0 → r.out = overwrite out 0 (canonicalPath path ++ [0]) ∧
        r.outLen = some (canonicalPath path).length) := by
  obtain ⟨r, hr, hnorm⟩ := pathNormalizeInto_eq path out
  refine ⟨r, hr, ?_⟩
  cases hp : pathNormalize path out.length with
  | none =>
    rw [hp] at hnorm
    have hrc : r.rc ≠ 0 := by
      rw [show r.rc = -EINVAL from hnorm]
      decide
    refine ⟨iff_of_false hrc fun hok => ?_, fun h => absurd h hrc⟩
    rw [pathNormalize_canonical.mpr ⟨hok, rfl⟩] at hp
    cases hp
  | some norm =>
    rw [hp] at hnorm
    obtain ⟨hok, rfl⟩ := pathNormalize_canonical.mp hp
    rw [show r = _ from hnorm]
    exact ⟨iff_of_true rfl hok, fun _ => ⟨rfl, rfl⟩⟩

end Iohttp
