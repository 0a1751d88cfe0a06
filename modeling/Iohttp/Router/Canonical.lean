/-
# Routing by the canonical path

A path that `ioh_router_dispatch` answers with a redirect is one hop away from
its answer, and all spellings of a path that has no slash to remove get the
same answer. For both, the canonical path is its own canonical path: its
segments are kept, and an encoded NUL in it would lie within one of them, so in
the path it comes from.
-/
import Iohttp.Router.Classify

namespace Iohttp

open List

variable {size : ℕ} {norm path : Bytes}

theorem infix_of_mem_splitOn : ∀ {l s : Bytes}, s ∈ l.splitOn slash → s <:+: l
  | [], s, hs => by
    rw [splitOn_nil, mem_singleton] at hs
    rw [hs]
  | c :: l, s, hs => by
    rw [splitOn_cons_eq_if_modifyHead] at hs
    cases hl : l.splitOn slash with
    | nil => exact absurd hl (splitOn_ne_nil _ _)
    | cons t ts =>
      have hrest : ∀ s ∈ t :: ts, s <:+: l := fun s hs => infix_of_mem_splitOn (hl ▸ hs)
      rw [hl] at hs
      split_ifs at hs with hc
      · rcases mem_cons.mp hs with rfl | hs
        · exact nil_infix
        · exact (hrest s hs).trans (suffix_cons c l).isInfix
      · rcases mem_cons.mp hs with rfl | hs
        · -- the first segment starts where the path does
          have hjoin : [slash].intercalate (l.splitOn slash) = l := intercalate_splitOn slash
          have hpre : t <+: l := by
            rw [← hjoin, hl, ← Radix.segmentTail_eq]
            exact prefix_append _ _
          exact ((prefix_cons_inj c).mpr hpre).isInfix
        · exact (hrest s (mem_cons_of_mem _ hs)).trans (suffix_cons c l).isInfix

theorem infix_append_slash {w a b : Bytes} (hw : slash ∉ w) (h : w <:+: a ++ slash :: b) :
    w <:+: a ∨ w <:+: b := by
  obtain ⟨p, q, h⟩ := h
  rcases append_eq_append_iff.mp h with ⟨c, ha, _⟩ | ⟨c, hpw, hb⟩
  · exact .inl ⟨p, c, ha.symm⟩
  · cases c with
    | nil => exact .inl ⟨p, [], by rw [append_nil, hpw, append_nil]⟩
    | cons x c =>
      obtain ⟨rfl, hbc⟩ := cons_eq_cons.mp hb
      rcases append_eq_append_iff.mp hpw with ⟨d, _, hwd⟩ | ⟨d, _, hd⟩
      · exact absurd (hwd ▸ by simp) hw
      · cases d with
        | nil => exact absurd (hd ▸ mem_cons_self : slash ∈ [] ++ w) hw
        | cons y d =>
          obtain ⟨_, hc⟩ := cons_eq_cons.mp hd
          exact .inr ⟨d, q, by rw [hbc, hc]; rfl⟩

theorem infix_segment {w : Bytes} (hw : slash ∉ w) : ∀ {segs : List Bytes} {seg : Bytes},
    w <:+: seg ++ segs.flatMap (slash :: ·) → ∃ s ∈ seg :: segs, w <:+: s
  | [], seg, h => ⟨seg, mem_cons_self, by rwa [flatMap_nil, append_nil] at h⟩
  | t :: segs, seg, h => by
    rcases infix_append_slash hw h with h | h
    · exact ⟨seg, mem_cons_self, h⟩
    · obtain ⟨s, hs, hin⟩ := infix_segment hw h
      exact ⟨s, mem_cons_of_mem _ hs, hin⟩

theorem segmentTail_flatMap : ∀ segs : List Bytes, Radix.segmentTail segs = segs.flatMap (slash :: ·)
  | [] => rfl
  | seg :: segs => by rw [flatMap_cons, ← segmentTail_flatMap segs, Radix.segmentTail]

variable {segs : List Bytes} {method : Method}

theorem splitOn_flatMap (h : ∀ s ∈ segs, Kept s) :
    (segs.flatMap (slash :: ·)).splitOn slash = [] :: segs := by
  have hflat : segs.flatMap (slash :: ·) = [slash].intercalate ([] :: segs) := by
    rw [← Radix.segmentTail_eq, nil_append, segmentTail_flatMap]
  rw [hflat, splitOn_intercalate slash _ (cons_ne_nil _ _)]
  rintro s (_ | ⟨_, hs⟩)
  · exact not_mem_nil
  · exact (h s hs).1.2

/-! ### Canonical paths -/

theorem normalizeSegments_spell (h : ∀ s ∈ segs, Kept s) (hlen : segs.length ≤ 256) :
    normalizeSegments [] ((spell segs).splitOn slash) = some segs := by
  by_cases hnil : segs = []
  · rw [hnil]
    decide
  · rw [spell, if_neg hnil, splitOn_flatMap h, normalizeSegments, if_pos (.inl rfl),
      normalizeSegments_of_kept h (by rwa [length_nil, Nat.zero_add])]
    rfl

theorem spell_head (segs : List Bytes) : (spell segs).head? = some slash := by
  cases segs with
  | nil | cons seg segs => rfl

section

variable (h : pathNormalize path size = some norm)

include h

theorem infix_of_canonical {w : Bytes}
    (hw : slash ∉ w) (hne : w ≠ []) (hin : w <:+: norm) : w <:+: path := by
  obtain ⟨_, segs, hsegs, rfl, _⟩ := pathNormalize_iff.mp h
  have hpath : ∀ s ∈ segs, s ∈ path.splitOn slash :=
    normalizeSegments_forall (fun s hs _ _ _ => hs) (by simp) hsegs
  have hflat : w <:+: [] ++ (if segs = [] then [[]] else segs).flatMap (slash :: ·) := by
    unfold spell at hin
    split_ifs at hin ⊢
    · exact hin
    · exact hin
  obtain ⟨s, hs, hin⟩ := infix_segment hw hflat
  have hmem : s = [] ∨ s ∈ segs := by
    split_ifs at hs
    · exact .inl (by simpa using hs)
    · exact mem_cons.mp hs
  rcases hmem with rfl | hs
  · exact absurd (infix_nil.mp hin) hne
  · exact hin.trans (infix_of_mem_splitOn (hpath s hs))

/-- **The canonical path is its own canonical path.** -/
theorem pathNormalize_idem : pathNormalize norm size = some norm := by
  obtain ⟨hclean, segs, hsegs, rfl, hlen⟩ := pathNormalize_iff.mp h
  refine pathNormalize_iff.mpr ⟨?_, segs, normalizeSegments_spell (normalizeSegments_kept hsegs)
    (normalizeSegments_length (Nat.zero_le _) hsegs), rfl, hlen⟩
  rintro (hhead | hnul)
  · exact hhead (spell_head segs)
  · have hin := infix_of_canonical h (by decide) (by decide) ((singleton_infix_iff 0 _).mpr hnul)
    exact hclean (.inr ((singleton_infix_iff 0 _).mp hin))

theorem pathNormalize_resize (size' : ℕ) :
    pathNormalize path size' = if norm.length < size' then some norm else none := by
  obtain ⟨hclean, segs, hsegs, rfl, hlen⟩ := pathNormalize_iff.mp h
  split_ifs with hfit
  · exact pathNormalize_iff.mpr ⟨hclean, segs, hsegs, rfl, hfit⟩
  · refine Option.eq_none_iff_forall_ne_some.mpr fun other hother => hfit ?_
    obtain ⟨_, segs', hsegs', rfl, hlen'⟩ := pathNormalize_iff.mp hother
    rw [hsegs] at hsegs'
    cases hsegs'
    exact hlen'

theorem pathNormalize_tail :
    ∃ rest, norm = slash :: rest ∧ (rest = [] ∨ ∀ s ∈ rest.splitOn slash, Kept s) := by
  obtain ⟨_, segs, hsegs, rfl, _⟩ := pathNormalize_iff.mp h
  have hkept := normalizeSegments_kept hsegs
  cases segs with
  | nil => exact ⟨[], rfl, .inl rfl⟩
  | cons seg segs =>
    have hsplit := splitOn_flatMap hkept
    rw [flatMap_cons, cons_append, splitOn_cons_eq_if_modifyHead, if_pos (by simp)] at hsplit
    refine ⟨seg ++ segs.flatMap (slash :: ·), rfl, .inr ?_⟩
    rw [(cons_eq_cons.mp hsplit).2]
    exact hkept

theorem canonical_ne_redirect
    (r : Router) (method : Method) : (routerDispatch r method norm).status ≠ .redirect := by
  rcases routerDispatch_cases r norm with hno | ⟨norm', _, ⟨hslash, _⟩ | hsearch⟩
  · rw [hno]
    exact nofun
  · obtain ⟨hlen, hlast, _⟩ := hslash
    rw [pathNormalize_last h hlast] at hlen
    exact absurd hlen (by decide)
  · rw [hsearch]
    exact searchMethods_ne_redirect r method norm'

end

/-- **A redirect is one hop and stays on the site.** Its path is a slash and
segments none of which is empty or a dot segment, ends in a slash only at the
root, has a route in the trie of some method, and is not redirected again. -/
theorem redirect_one_hop {r : Router} {method : Method} {path : Bytes}
    (h : (routerDispatch r method path).status = .redirect) :
    ∃ rest, (routerDispatch r method path).redirectPath = slash :: rest ∧ rest.head? ≠ some slash ∧
      (rest = [] ∨ ∀ s ∈ rest.splitOn slash, s ≠ [] ∧ s ≠ bytes "." ∧ s ≠ bytes "..") ∧
      ((slash :: rest).getLast? = some slash → rest = []) ∧
      (∃ other tree, r.trees other = some tree ∧ (Radix.radixLookup tree (slash :: rest)).1 = 0) ∧
      ∀ other, (routerDispatch r other (slash :: rest)).status ≠ .redirect := by
  rcases routerDispatch_cases r path with hno | ⟨norm, hnorm, ⟨hslash, hredirect⟩ | hsearch⟩
  · rw [hno] at h
    cases h
  · obtain ⟨rest, rfl, hrest⟩ := pathNormalize_tail hnorm
    refine ⟨rest, by rw [hredirect], ?_, ?_, ?_, ?_, canonical_ne_redirect hnorm r⟩
    · intro hhead
      obtain ⟨tail, rfl⟩ := head?_eq_some_iff.mp hhead
      refine (hrest.resolve_left (cons_ne_nil _ _) [] ?_).1.1 rfl
      exact mem_cons_self
    · exact hrest.imp_right fun hkept s hs => ⟨(hkept s hs).1.1, (hkept s hs).2⟩
    · intro hlast
      exact (cons_eq_cons.mp (pathNormalize_last hnorm hlast)).2
    · obtain ⟨m, _, hroute⟩ := any_eq_true.mp hslash.2.2.2
      obtain ⟨found, hfound⟩ := Option.isSome_iff_exists.mp hroute
      obtain ⟨tree, htree, hlookup⟩ := Option.bind_eq_some_iff.mp hfound
      exact ⟨m.1, tree, htree, (Option.ite_none_right_eq_some.mp hlookup).1⟩
  · rw [hsearch] at h
    exact absurd h (searchMethods_ne_redirect r method norm)

theorem redirect_one_hop_dots :
    (routerDispatch (routerHandle routerCreate .get (bytes "/a") 1).1 .post
      (bytes "//b/.././a//")).redirectPath =
      bytes "/a" ∧
    (routerDispatch (routerHandle routerCreate .get (bytes "/a") 1).1 .post (bytes "/a")).status ≠
    .redirect := by
  have hredirect : (routerDispatch (routerHandle routerCreate .get (bytes "/a") 1).1 .post
      (bytes "//b/.././a//")).status = .redirect := by decide +kernel
  have hpath : (routerDispatch (routerHandle routerCreate .get (bytes "/a") 1).1 .post
      (bytes "//b/.././a//")).redirectPath = bytes "/a" := by decide +kernel
  obtain ⟨rest, hrest, _, _, _, _, hhop⟩ := redirect_one_hop hredirect
  have hhop := hhop .post
  rw [hrest.symm.trans hpath] at hhop
  exact ⟨hpath, hhop⟩

/-- A spelling without an encoded NUL or a slash to remove is dispatched by its
canonical path alone. -/
theorem dispatch_by_canonical {r : Router}
    (henc : ¬bytes "%00" <:+: path) (hslash : path.getLast? = some slash → path = [slash])
    (hnorm : pathNormalize path size = some norm) : routerDispatch r method path =
      if norm.length < maxUriSize then searchMethods r method norm
      else ⟨.notFound, Radix.Entry.none, [], [], []⟩ := by
  have hsize := pathNormalize_resize hnorm maxUriSize
  split_ifs with hfit
  · rw [if_pos hfit] at hsize
    exact routerDispatch_search henc hsize hslash
  · rw [if_neg hfit] at hsize
    exact routerDispatch_none hsize method

/-- **Routing sees only the canonical path.** Two spellings of it without an
encoded NUL or a slash to remove get the same match, which is the match of the
canonical path itself. -/
theorem dispatch_spelling (r : Router) (method : Method) {p₁ p₂ norm : Bytes} {size : ℕ}
    (henc₁ : ¬bytes "%00" <:+: p₁) (henc₂ : ¬bytes "%00" <:+: p₂)
    (hslash₁ : p₁.getLast? = some slash → p₁ = [slash]) (hslash₂ : p₂.getLast? = some slash →
      p₂ = [slash])
    (hnorm₁ : pathNormalize p₁ size = some norm) (hnorm₂ : pathNormalize p₂ size = some norm) :
    routerDispatch r method p₁ = routerDispatch r method p₂ ∧
    routerDispatch r method p₁ = routerDispatch r method norm := by
  have henc : ¬bytes "%00" <:+: norm := fun hin =>
    henc₁ (infix_of_canonical hnorm₁ (by decide) (by decide) hin)
  rw [dispatch_by_canonical henc₁ hslash₁ hnorm₁, dispatch_by_canonical henc₂ hslash₂ hnorm₂,
    dispatch_by_canonical henc (pathNormalize_last hnorm₁) (pathNormalize_idem hnorm₁)]
  exact ⟨rfl, rfl⟩

theorem dispatch_spelling_dots :
    (routerDispatch (routerHandle routerCreate .get (bytes "/a/:x") 1).1 .get
      (bytes "/a/c")).status = .found ∧
    routerDispatch (routerHandle routerCreate .get (bytes "/a/:x") 1).1 .get (bytes "//a/b/../c") =
      routerDispatch (routerHandle routerCreate .get (bytes "/a/:x") 1).1 .get (bytes "/a/./c") ∧
    routerDispatch (routerHandle routerCreate .get (bytes "/a/:x") 1).1 .get (bytes "//a/b/../c") =
      routerDispatch (routerHandle routerCreate .get (bytes "/a/:x") 1).1 .get (bytes "/a/c") := by
  have hnorm₁ : pathNormalize (bytes "//a/b/../c") maxUriSize = some (bytes "/a/c") := by decide +kernel
  have hnorm₂ : pathNormalize (bytes "/a/./c") maxUriSize = some (bytes "/a/c") := by decide +kernel
  exact ⟨by decide +kernel, dispatch_spelling _ _ (by decide) (by decide) (by decide)
    (by decide) hnorm₁ hnorm₂⟩

end Iohttp
