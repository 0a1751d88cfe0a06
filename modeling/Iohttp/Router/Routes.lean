/-
# The routes of a tree

What a sequence of `ioh_radix_insert` calls leaves behind. A call that returns
0 makes a route, and the route stays (`Routed`): every path that it takes is
found from then on, and a lookup prefers nothing worse to it
(`lookup_complete`). Two calls that return 0 may be made in either order
(`callView_swap`), and so may any number of them (`insert_order_irrelevant`).
-/
import Iohttp.Router.Search

namespace Iohttp
namespace Radix

open Trie List

/-! ### Calls that succeed -/

/-- The tokens of the segments of a pattern, up to an empty one. -/
def pieces (segs : List Bytes) : List (List Tok) :=
  (segs.takeWhile (· ≠ [])).map fun seg => (label seg).toks

/-- No parameter or wildcard is without a name, and no wildcard is followed by
anything. -/
def WellNamed : List Bytes → Prop
  | [] => True
  | seg :: segs => seg = [] ∨
      if seg.head? = some star then segs = [] ∧ seg.tail ≠ []
      else (seg.head? = some colon → seg.tail ≠ []) ∧ WellNamed segs

def handlerAt (v : View Tok Entry) (K : List Tok) : Ptr := ((v K).getD Entry.none).handler

/-- On the way to `T` there is no other name. -/
def NoClash (v : View Tok Entry) (T : List Tok) : Prop :=
  ∀ K type name, K ++ [namedTok type name] <+: T → ¬Clash (sub v K) type name

variable {seg : Bytes}

theorem pieces_end (segs : List Bytes) (h : seg = []) : pieces (seg :: segs) = [] := by
  simp [pieces, h]

theorem pieces_cons (segs : List Bytes) (h : seg ≠ []) :
    pieces (seg :: segs) = (label seg).toks :: pieces segs := by
  simp [pieces, h]

theorem toks_wild (h : seg.head? = some star) : (label seg).toks = [.wild seg.tail] := by
  simp [label, h, Label.toks]

theorem toks_par (h : seg.head? = some colon) : (label seg).toks = [.par seg.tail] := by
  rw [label, if_neg (by rw [h]; decide), if_pos h]
  rfl

theorem toks_lit (h : seg.head? ≠ some star) (h' : seg.head? ≠ some colon) :
    (label seg).toks = seg.map .ch := by
  simp [label, h, h', Label.toks]

theorem namedTok_ne_ch (type : NodeType) (name : Bytes) (c : UInt8) : namedTok type name ≠ .ch c := by
  unfold namedTok
  split_ifs <;> simp

variable {type : NodeType} {name path : Bytes} {root : Node}

theorem clash_congr {v : View Tok Entry} {type' : NodeType} {name' : Bytes}
    (h : namedTok type name = namedTok type' name') : Clash v type name ↔ Clash v type' name' := by
  obtain ⟨rfl, ht⟩ : name = name' ∧ ∀ n, namedTok type n = namedTok type' n := by
    unfold namedTok at h ⊢
    cases type <;> cases type' <;> simp_all
  simp only [Clash, ht]

theorem named_prefix_lit : ∀ {s : Bytes} {K T : List Tok},
    K ++ [namedTok type name] <+: s.map .ch ++ T ↔
      ∃ K', K = s.map .ch ++ K' ∧ K' ++ [namedTok type name] <+: T
  | [], K, T => by simp
  | c :: s, [], T => by simp [namedTok_ne_ch]
  | c :: s, k :: K, T => by
    rw [map_cons, cons_append, cons_append, cons_prefix_cons, named_prefix_lit]
    constructor
    · rintro ⟨rfl, K', rfl, h⟩
      exact ⟨K', by simp, h⟩
    · rintro ⟨K', hK, h⟩
      simp only [cons_append, List.cons.injEq] at hK
      exact ⟨hK.1, K', hK.2, h⟩

theorem noClash_nil (v : View Tok Entry) : NoClash v [] := by
  intro K type name h
  simp at h

theorem noClash_lit (v : View Tok Entry) (s : Bytes) (T : List Tok) :
    NoClash v (s.map .ch ++ T) ↔ NoClash (sub v (s.map .ch)) T := by
  constructor
  · intro h K type name hK
    rw [sub_sub]
    exact h _ type name (named_prefix_lit.mpr ⟨K, rfl, hK⟩)
  · intro h K type name hK
    obtain ⟨K', rfl, hK'⟩ := named_prefix_lit.mp hK
    rw [← sub_sub]
    exact h K' type name hK'

theorem noClash_named (v : View Tok Entry) (type : NodeType) (name : Bytes) (T : List Tok) :
    NoClash v (namedTok type name :: T) ↔
      ¬Clash v type name ∧ NoClash (sub v [namedTok type name]) T := by
  constructor
  · intro h
    refine ⟨?_, fun K type' name' hK => ?_⟩
    · have := h [] type name (by simp)
      rwa [sub_nil] at this
    · rw [sub_sub]
      exact h _ type' name' (by simpa using hK)
  · rintro ⟨h, ht⟩ K type' name' hK
    cases K with
    | nil =>
      rw [nil_append, cons_prefix_cons] at hK
      rwa [sub_nil, clash_congr hK.1]
    | cons k K =>
      rw [cons_append, cons_prefix_cons] at hK
      rw [hK.1]
      have := ht K type' name' hK.2
      rwa [sub_sub] at this

theorem atEnd_eq_zero {v : View Tok Entry} : atEnd v = 0 ↔ topHandler v = 0 := by
  unfold atEnd
  split_ifs with h
  · simp [h, EEXIST]
  · simpa using h

theorem verdict_zero_iff : ∀ (segs : List Bytes) (v : View Tok Entry),
    ((verdict segs v).2 = 0 ↔
      WellNamed segs ∧ handlerAt v (pieces segs).flatten = 0 ∧ NoClash v (pieces segs).flatten) ∧
      ((verdict segs v).2 = 0 → (verdict segs v).1 = pieces segs)
  | [], v => by
    refine ⟨?_, fun _ => rfl⟩
    show atEnd v = 0 ↔ True ∧ topHandler v = 0 ∧ NoClash v []
    simp [atEnd_eq_zero, noClash_nil]
  | seg :: segs, v => by
    by_cases hne : seg = []
    · rw [pieces_end segs hne, show verdict (seg :: segs) v = ([], atEnd v) by rw [verdict, if_pos hne]]
      refine ⟨?_, fun _ => rfl⟩
      show atEnd v = 0 ↔ WellNamed (seg :: segs) ∧ topHandler v = 0 ∧ NoClash v []
      simp [atEnd_eq_zero, noClash_nil, WellNamed, hne]
    rw [pieces_cons segs hne, flatten_cons]
    by_cases hstar : seg.head? = some star
    · have hclash := noClash_named v .wildcard seg.tail (pieces segs).flatten
      rw [show namedTok .wildcard seg.tail = .wild seg.tail from rfl] at hclash
      rw [verdict_wild segs v hstar, toks_wild hstar, WellNamed, if_pos hstar, singleton_append, hclash]
      simp only [hne, false_or]
      split_ifs with hbad hcl
      · simp only [EINVAL, Int.reduceNeg, Int.reduceEq, false_iff, false_implies, and_true]
        rintro ⟨h, _⟩
        rcases hbad with hbad | hbad
        · exact hbad h.1
        · exact h.2 hbad
      · simp [EEXIST, hcl]
      · rw [not_or, not_not] at hbad
        obtain rfl := hbad.1
        refine ⟨?_, fun _ => rfl⟩
        rw [atEnd_eq_zero]
        simp only [hbad.2, hcl, not_false_eq_true, true_and, noClash_nil, pieces, and_true, ne_eq,
          takeWhile_nil, map_nil, flatten_nil]
        rfl
    by_cases hcolon : seg.head? = some colon
    · obtain ⟨ih, ihp⟩ := verdict_zero_iff segs (sub v [.par seg.tail])
      have hclash := noClash_named v .param seg.tail (pieces segs).flatten
      rw [show namedTok .param seg.tail = .par seg.tail from rfl] at hclash
      rw [verdict_par segs v hcolon, toks_par hcolon, WellNamed, if_neg hstar, singleton_append, hclash]
      simp only [hne, hcolon, false_or, true_implies]
      split_ifs with hbad hcl
      · simp [EINVAL, hbad]
      · simp [EEXIST, hcl]
      · refine ⟨ih.trans ?_, fun h => by rw [ihp h]⟩
        simp only [hbad, hcl, ne_eq, not_false_eq_true, true_and]
        rfl
    · obtain ⟨ih, ihp⟩ := verdict_zero_iff segs (sub v (seg.map .ch))
      rw [verdict_lit segs v hne hstar hcolon, toks_lit hstar hcolon, noClash_lit]
      refine ⟨ih.trans ?_, fun h => by rw [ihp h]⟩
      rw [WellNamed, if_neg hstar]
      simp only [hne, hcolon, false_or, false_implies, true_and]
      rfl

/-! ### One call -/

def Insert.segs (i : Insert) : List Bytes := i.pattern.tail.splitOn slash

def Insert.Given (i : Insert) : Prop := i.entry.handler ≠ 0 ∧ i.pattern.head? = some slash
  deriving Decidable

noncomputable def callView (v : View Tok Entry) (i : Insert) : View Tok Entry × ℤ :=
  if i.Given then insertView i.entry i.segs v else (v, -EINVAL)

theorem insertOne_view (h : Wf root) (i : Insert) :
    Wf (insertOne root i).1 ∧ view (insertOne root i).1 = (callView (view root) i).1 ∧
      (insertOne root i).2 = (callView (view root) i).2 := by
  unfold insertOne radixInsert callView
  by_cases hh : i.entry.handler = 0
  · rw [if_pos hh, if_neg fun hg => hg.1 hh]
    exact ⟨h, rfl, rfl⟩
  rw [if_neg hh]
  by_cases hs : i.pattern.head? = some slash
  · rw [if_neg (not_not.mpr hs), if_pos ⟨hh, hs⟩]
    obtain ⟨hw, _, hview⟩ := insertRecursive_view i.entry i.segs (notMem_of_mem_splitOn _) h
    exact ⟨hw, congrArg Prod.fst hview, congrArg Prod.snd hview⟩
  · rw [if_pos hs, if_neg fun hg => hs hg.2]
    exact ⟨h, rfl, rfl⟩

variable {v : View Tok Entry} {segs : List Bytes} {e : Entry} {K : List Tok} {i j : Insert}

theorem insertView_node (h : v K ≠ none) : (insertView e segs v).1 K ≠ none := by
  obtain ⟨b, hb⟩ := Option.ne_none_iff_exists'.mp h
  have hg : grow Entry.none v (verdict segs v).1.flatten (marks (verdict segs v).1) K = some b :=
    grow_of_some hb
  simp only [insertView]
  split_ifs
  · by_cases hK : K = (verdict segs v).1.flatten
    · rw [hK, Function.update_self]
      simp
    · rw [Function.update_of_ne hK, hg]
      simp
  · rw [hg]
    simp

theorem insertView_route {e' : Entry} (h : v K = some e') (he : e'.handler ≠ 0) :
    (insertView e segs v).1 K = some e' := by
  have hg : grow Entry.none v (verdict segs v).1.flatten (marks (verdict segs v).1) K = some e' :=
    grow_of_some h
  simp only [insertView]
  split_ifs with hz
  · have hfree := ((verdict_zero_iff segs v).1.mp hz).2.1
    rw [Function.update_of_ne, hg]
    rintro rfl
    rw [(verdict_zero_iff segs v).2 hz] at h
    rw [handlerAt, h] at hfree
    exact he hfree
  · exact hg

/-- There are nodes where the labels end, and the last of them has the entry. -/
structure Routed (v : View Tok Entry) (ls : List Label) (e : Entry) : Prop where
  nodes : ∀ j, v (key (ls.take j)) ≠ none
  entry : v (key ls) = some e

theorem Routed.leads : ∀ {ls : List Label} {v : View Tok Entry}, Routed v ls e → Leads v ls e
  | [], _, h => h.entry
  | l :: ls, v, h => by
    refine ⟨by simpa using h.nodes 1, Routed.leads ⟨fun j => ?_, ?_⟩⟩
    · have := h.nodes (j + 1)
      rwa [take_succ_cons, key_cons] at this
    · have := h.entry
      rwa [key_cons] at this

theorem flatten_toks (ls : List Label) : (ls.map Label.toks).flatten = key ls := by
  rw [key, flatMap_def]

theorem pieces_labels (hne : NoEmptySegment i.pattern) :
    pieces i.segs = (labels i.pattern).map Label.toks := by
  unfold pieces Insert.segs labels
  rcases hne with hp | hne
  · rw [hp]
    decide
  · rw [segments_of_noEmpty hne, takeWhile_eq_self_iff.mpr (by simpa using hne), map_map]
    rfl

/-- Where the route of a call is. -/
def Insert.place (i : Insert) : List Tok := (pieces i.segs).flatten

theorem place_eq (h : NoEmptySegment i.pattern) : i.place = key (labels i.pattern) := by
  rw [Insert.place, pieces_labels h, flatten_toks]

theorem routed_of_marks (hne : NoEmptySegment i.pattern)
    (hroot : v [] ≠ none) (hnodes : ∀ K ∈ marks (pieces i.segs), v K ≠ none)
    (hentry : v i.place = some i.entry) : Routed v (labels i.pattern) i.entry := by
  refine ⟨fun j => ?_, by rw [← place_eq hne]; exact hentry⟩
  cases j with
  | zero => exact hroot
  | succ j =>
    by_cases hlt : j < (labels i.pattern).length
    · refine hnodes _ ?_
      rw [pieces_labels hne, mem_marks]
      refine ⟨j, by rwa [length_map], ?_⟩
      rw [← map_take, flatten_toks]
    · rw [take_of_length_le (by omega), ← place_eq hne, hentry]
      simp

theorem callView_zero : (callView v i).2 = 0 ↔
    i.Given ∧ WellNamed i.segs ∧ handlerAt v i.place = 0 ∧ NoClash v i.place := by
  unfold callView
  split_ifs with hg
  · simp only [hg, true_and]
    exact (verdict_zero_iff i.segs v).1
  · simp only [hg, false_and, iff_false]
    decide

theorem callView_put (h : (callView v i).2 = 0) :
    (callView v i).1 = Trie.put Entry.none v (pieces i.segs) i.entry := by
  have hg := (callView_zero.mp h).1
  unfold callView at h ⊢
  rw [if_pos hg] at h ⊢
  have hz : (verdict i.segs v).2 = 0 := h
  simp only [insertView, hz, if_true, (verdict_zero_iff i.segs v).2 hz]
  rfl

theorem callView_node (h : v K ≠ none) : (callView v i).1 K ≠ none := by
  unfold callView
  split_ifs
  · exact insertView_node h
  · exact h

theorem callView_route (h : v K = some e) (he : e.handler ≠ 0) : (callView v i).1 K = some e := by
  unfold callView
  split_ifs
  · exact insertView_route h he
  · exact h

theorem callView_entry (h : (callView v i).1 K = some e) (he : e.handler ≠ 0) :
    v K = some e ∨ (callView v i).2 = 0 ∧ K = i.place ∧ e = i.entry := by
  have hgrow : ∀ T ms, grow Entry.none v T ms K = some e → v K = some e := by
    intro T ms hg
    cases hv : v K with
    | some b => rwa [grow_of_some hv] at hg
    | none =>
      by_cases hn : K ∈ ms ∨ Fork v T K
      · rw [grow_of_none hv hn] at hg
        cases hg
        exact absurd rfl he
      · rw [not_or] at hn
        rw [grow_eq_none.mpr ⟨hv, hn⟩] at hg
        cases hg
  by_cases hz : (callView v i).2 = 0
  · rw [callView_put hz] at h
    by_cases hK : K = i.place
    · rw [hK, Insert.place, put_self] at h
      exact .inr ⟨hz, hK, (Option.some.inj h).symm⟩
    · rw [put_of_ne hK] at h
      exact .inl (hgrow _ _ h)
  · refine .inl ?_
    unfold callView at h hz
    split_ifs at h hz with hg
    · simp only [insertView] at h hz
      rw [if_neg hz] at h
      exact hgrow _ _ h
    · exact h

theorem callView_routed (hz : (callView v i).2 = 0) (hroot : v [] ≠ none)
    (hne : NoEmptySegment i.pattern) : Routed (callView v i).1 (labels i.pattern) i.entry := by
  refine routed_of_marks hne (callView_node hroot) (fun K hK => ?_) ?_
  · rw [callView_put hz]
    exact put_mark hK
  · rw [callView_put hz]
    exact put_self

theorem edge_concat_named {c : Node}
    (h : edge c = K ++ [namedTok type name]) : K = [] := by
  by_cases hst : c.type = .static
  · rw [edge_static hst] at h
    have hm : namedTok type name ∈ c.pfx.map Tok.ch := by simp [h]
    obtain ⟨b, _, hb⟩ := mem_map.mp hm
    exact absurd hb.symm (namedTok_ne_ch type name b)
  · rw [edge_named hst] at h
    exact append_eq_singleton_iff.mp h.symm |>.elim (fun h => h.1) fun h => absurd h.2 (by simp)

theorem named_view : ∀ n : Node, Wf n → Named (view n) :=
  Node.induct fun n ih h K type name name' h₁ h₂ => by
    cases K with
    | nil =>
      -- `.static` stands for `.param` in a named token
      obtain ⟨type, ht, hty⟩ : ∃ ty : NodeType, ty ≠ .static ∧ ∀ x, namedTok type x = namedTok ty x := by
        cases type with
        | static | param => exact ⟨.param, by simp, fun _ => rfl⟩
        | wildcard => exact ⟨.wildcard, by simp, fun _ => rfl⟩
      rw [nil_append, hty] at h₁ h₂
      obtain ⟨c, hc, hct, hname⟩ := (view_named h ht name).mp h₁
      obtain ⟨c', hc', hct', hname'⟩ := (view_named h ht name').mp h₂
      rw [← hname, ← hname', unique_named h ht hc hct hc' hct']
    | cons k K =>
      by_cases hex : ∃ c ∈ n.children, c.branch = some k.branch
      · obtain ⟨c, hc, hk⟩ := hex
        have hview : ∀ x, view n (k :: K ++ [namedTok type x]) =
            under (edge c) (view c) (k :: K ++ [namedTok type x]) := fun x => by
          rw [cons_append, view_cons, viewIn_of_branch h.proper h.apart hc hk]
        rw [hview] at h₁ h₂
        have hpre : edge c <+: k :: K ++ [namedTok type name] :=
          Decidable.not_not.mp fun hn => h₁ (under_of_not hn)
        rcases prefix_concat_iff.mp hpre with he | ⟨K', hK⟩
        · exact absurd (edge_concat_named he) (by simp)
        · rw [← hK, append_assoc, under_append] at h₁ h₂
          exact ih c hc (h.kids c hc) K' type name name' h₁ h₂
      · push Not at hex
        exact absurd (by rw [cons_append, view_cons, viewIn_eq_none h.proper hex]) h₁

theorem wf_create : Wf radixCreate := wf_of_no_children rfl

theorem foldl_routed : ∀ (is : List Insert) (t : Node × List Insert),
    (∀ i ∈ is, i.pattern.head? = some slash → NoEmptySegment i.pattern) →
    (Wf t.1 ∧ ∀ i ∈ t.2, Routed (view t.1) (labels i.pattern) i.entry ∧ i.entry.handler ≠ 0) →
    Wf (is.foldl insertStep t).1 ∧ ∀ i ∈ (is.foldl insertStep t).2,
      Routed (view (is.foldl insertStep t).1) (labels i.pattern) i.entry ∧ i.entry.handler ≠ 0
  | [], _, _, h => h
  | i :: is, t, hne, ⟨hw, hr⟩ => by
    refine foldl_routed is _ (forall_mem_cons.mp hne).2 ?_
    obtain ⟨hw', hv, hrc⟩ := insertOne_view hw i
    refine ⟨hw', fun j hj => ?_⟩
    have hold : j ∈ t.2 → Routed (view (insertOne t.1 i).1) (labels j.pattern) j.entry ∧
        j.entry.handler ≠ 0 := by
      intro hj
      obtain ⟨hroute, hh⟩ := hr j hj
      rw [hv]
      exact ⟨⟨fun k => callView_node (hroute.nodes k), callView_route hroute.entry hh⟩, hh⟩
    unfold insertStep at hj ⊢
    simp only at hj ⊢
    split_ifs at hj with hz
    · rcases mem_cons.mp hj with rfl | hj
      · rw [hrc] at hz
        obtain ⟨hgiven, _⟩ := callView_zero.mp hz
        rw [hv]
        exact ⟨callView_routed hz (by simp) (hne j mem_cons_self hgiven.2), hgiven.1⟩
      · exact hold hj
    · exact hold hj

variable {is is' : List Insert}

theorem insertAll_routed (hne : ∀ i ∈ is, i.pattern.head? = some slash → NoEmptySegment i.pattern) :
    Wf (insertAll is).1 ∧ ∀ i ∈ (insertAll is).2,
      Routed (view (insertAll is).1) (labels i.pattern) i.entry ∧ i.entry.handler ≠ 0 :=
  foldl_routed is (radixCreate, []) hne ⟨wf_create, by simp⟩

theorem radixLookup_segments (hw : Wf root) (hp : path.head? = some slash)
    (hpne : NoEmptySegment path) :
    radixLookup root path = result ⟨Entry.none, []⟩ (find (view root) (segments path) 0) := by
  obtain ⟨p, rfl⟩ : ∃ p, path = slash :: p := head?_eq_some_iff.mp hp
  have hsegs :
      find (view root) (segsOf (slash :: p)) 0 = find (view root) (segments (slash :: p)) 0 := by
    rcases hpne with hslash | hseg
    · rw [hslash]
      exact find_nil _ 0
    · rw [segments_of_noEmpty hseg]
      rfl
  rw [radixLookup_find hw, if_neg (cons_ne_nil slash p), hsegs]

/-- **Completeness of the router.** A path that a pattern with at most 8
captures takes is found, and the lookup takes its segments no worse than the
pattern does. -/
theorem lookup_complete {is : List Insert}
    (hne : ∀ i ∈ is, i.pattern.head? = some slash → NoEmptySegment i.pattern) {path : Bytes}
    (hp : path.head? = some slash) (hpne : NoEmptySegment path) {i : Insert} (hi : i ∈ (insertAll is).2)
    (hc : captures (labels i.pattern) ≤ maxPathParams) {caps : List Param}
    (hm : matchLabels (labels i.pattern) (segments path) = some caps) :
    ∃ hit : Hit, radixLookup (insertAll is).1 path = (0, ⟨hit.entry, hit.params⟩) ∧
      find (view (insertAll is).1) (segments path) 0 = some hit ∧
      Takes (view (insertAll is).1) (segments path) hit ∧
      NoWorse hit.kinds (kindsOf (labels i.pattern) (segments path)) := by
  obtain ⟨hw, hr⟩ := insertAll_routed hne
  obtain ⟨hroute, he⟩ := hr i hi
  have hts : ∀ t ∈ segments path, t ≠ [] := fun t ht => segments_ne_nil ht
  obtain ⟨hit, hf, hle⟩ := find_complete he (named_view _ hw) hroute.leads hts hm
    (show 0 + captures (labels i.pattern) ≤ maxPathParams by omega)
  refine ⟨hit, ?_, hf, find_takes hts hf, hle⟩
  rw [radixLookup_segments hw hp hpne, hf]
  rfl

/-- `/users/me` is taken by both of these patterns. -/
theorem lookup_complete_users :
    let is : List Insert := [⟨bytes "/users/:id", ⟨1, 0, 0⟩⟩, ⟨bytes "/users/me", ⟨2, 0, 0⟩⟩]
    ∃ hit : Hit, radixLookup (insertAll is).1 (bytes "/users/me") = (0, ⟨hit.entry, hit.params⟩) ∧
      find (view (insertAll is).1) (segments (bytes "/users/me")) 0 = some hit ∧
      Takes (view (insertAll is).1) (segments (bytes "/users/me")) hit ∧
      NoWorse hit.kinds (kindsOf (labels (bytes "/users/:id")) (segments (bytes "/users/me"))) :=
  lookup_complete (i := ⟨bytes "/users/:id", ⟨1, 0, 0⟩⟩) (by decide +kernel) (by decide +kernel)
    (by decide +kernel) (by decide +kernel) (by decide +kernel)
    (show matchLabels (labels (bytes "/users/:id")) (segments (bytes "/users/me")) =
      some [⟨bytes "id", bytes "me"⟩] by decide +kernel)

/-! ### The order of the calls -/

/-- Every call returns 0. -/
def AllSucceed : Node → List Insert → Prop
  | _, [] => True
  | root, i :: is => (insertOne root i).2 = 0 ∧ AllSucceed (insertOne root i).1 is

instance : ∀ (root : Node) (is : List Insert), Decidable (AllSucceed root is)
  | _, [] => isTrue trivial
  | root, i :: is =>
    have := instDecidableAllSucceed (insertOne root i).1 is
    inferInstanceAs (Decidable (_ ∧ _))

theorem named_mem_marks : ∀ {segs : List Bytes} {K : List Tok},
    K ++ [namedTok type name] <+: (pieces segs).flatten → K ++ [namedTok type name] ∈ marks (pieces segs)
  | [], K, h => by simp [pieces] at h
  | seg :: segs, K, h => by
    by_cases hne : seg = []
    · simp [pieces_end segs hne] at h
    rw [pieces_cons segs hne, flatten_cons] at h
    rw [pieces_cons segs hne, marks, mem_cons, mem_map]
    by_cases hl : (label seg).isLit
    · -- behind the bytes of the segment
      obtain ⟨s, hs⟩ : ∃ s : Bytes, (label seg).toks = s.map .ch := by
        cases hlab : label seg with
        | lit s => exact ⟨s, rfl⟩
        | par n | wild n => simp [hlab, Label.isLit] at hl
      rw [hs] at h ⊢
      obtain ⟨K', rfl, hK'⟩ := named_prefix_lit.mp h
      exact .inr ⟨_, named_mem_marks hK', by simp⟩
    · obtain ⟨t, ht⟩ : ∃ t, (label seg).toks = [t] := by
        cases hlab : label seg with
        | lit s => simp [hlab, Label.isLit] at hl
        | par n | wild n => exact ⟨_, rfl⟩
      rw [ht] at h ⊢
      cases K with
      | nil =>
        rw [nil_append, singleton_append, cons_prefix_cons] at h
        exact .inl (by rw [nil_append, h.1])
      | cons k K =>
        rw [cons_append, singleton_append, cons_prefix_cons] at h
        exact .inr ⟨_, named_mem_marks h.2, by rw [h.1]; rfl⟩

theorem handlerAt_put (h : K ≠ (pieces i.segs).flatten) :
    handlerAt (Trie.put Entry.none v (pieces i.segs) i.entry) K = handlerAt v K := by
  rw [handlerAt, put_of_ne h, handlerAt]
  cases hv : v K with
  | some e => rw [grow_of_some hv]
  | none =>
    by_cases hn : K ∈ marks (pieces i.segs) ∨ Fork v (pieces i.segs).flatten K
    · rw [grow_of_none hv hn]
      rfl
    · rw [not_or] at hn
      rw [grow_eq_none.mpr ⟨hv, hn⟩]

/-- **Two calls that succeed may be made in either order.** -/
theorem callView_swap (hi : (callView v i).2 = 0) (hj : (callView (callView v i).1 j).2 = 0) :
    (callView v j).2 = 0 ∧ (callView (callView v j).1 i).2 = 0 ∧
      (callView (callView v j).1 i).1 = (callView (callView v i).1 j).1 := by
  have hput := callView_put hj
  rw [callView_put hi] at hj hput
  obtain ⟨hgi, hwi, hhi, hci⟩ := callView_zero.mp hi
  obtain ⟨hgj, hwj, hhj, hcj⟩ := callView_zero.mp hj
  have hne : j.place ≠ i.place := by
    intro he
    rw [handlerAt, he, Insert.place, put_self] at hhj
    exact hgi.1 hhj
  have hj' : (callView v j).2 = 0 := by
    refine callView_zero.mpr ⟨hgj, hwj, by rwa [handlerAt_put hne] at hhj, fun K type name hK hcl => ?_⟩
    obtain ⟨name', hn, hv⟩ := hcl
    exact hcj K type name hK ⟨name', hn, put_ne_none hv⟩
  have hi' : (callView (callView v j).1 i).2 = 0 := by
    rw [callView_put hj']
    refine callView_zero.mpr ⟨hgi, hwi, by rwa [handlerAt_put hne.symm], fun K type name hK hcl => ?_⟩
    obtain ⟨name', hn, hv⟩ := hcl
    -- the other name is on the way of `j`, so that `j` met this one
    rcases prefix_of_put hv with hv | hpre
    · exact hci K type name hK ⟨name', hn, hv⟩
    · exact hcj K type name' hpre ⟨name, hn.symm, put_mark (named_mem_marks hK)⟩
  refine ⟨hj', hi', ?_⟩
  rw [callView_put hi', callView_put hj', callView_put hi, hput]
  exact put_comm hne

def AllSucceedView : View Tok Entry → List Insert → Prop
  | _, [] => True
  | v, i :: is => (callView v i).2 = 0 ∧ AllSucceedView (callView v i).1 is

theorem allSucceed_view : ∀ {is : List Insert} {root : Node}, Wf root →
    (AllSucceed root is ↔ AllSucceedView (view root) is)
  | [], _, _ => Iff.rfl
  | i :: is, root, h => by
    obtain ⟨hw, hv, hrc⟩ := insertOne_view h i
    rw [AllSucceed, AllSucceedView, allSucceed_view hw, hv, hrc]

theorem foldl_view : ∀ (is : List Insert) {t : Node × List Insert}, Wf t.1 →
    Wf (is.foldl insertStep t).1 ∧
      view (is.foldl insertStep t).1 = is.foldl (fun v i => (callView v i).1) (view t.1)
  | [], _, h => ⟨h, rfl⟩
  | i :: is, t, h => by
    obtain ⟨hw, hv, _⟩ := insertOne_view h i
    have hrest := foldl_view is (t := insertStep t i) hw
    rw [foldl_cons, foldl_cons, hrest.2, ← hv]
    exact ⟨hrest.1, rfl⟩

theorem perm_view (hperm : is.Perm is') : ∀ {v : View Tok Entry},
    AllSucceedView v is → AllSucceedView v is' ∧
      is'.foldl (fun v i => (callView v i).1) v = is.foldl (fun v i => (callView v i).1) v := by
  induction hperm with
  | nil => exact fun h => ⟨h, rfl⟩
  | cons i _ ih =>
    rintro v ⟨hz, hs⟩
    obtain ⟨hs', he⟩ := ih hs
    exact ⟨⟨hz, hs'⟩, he⟩
  | swap i j is =>
    rintro v ⟨hj, hi, hs⟩
    obtain ⟨hi', hj', he⟩ := callView_swap hj hi
    refine ⟨⟨hi', hj', ?_⟩, ?_⟩
    · rwa [he]
    · simp only [foldl_cons, he]
  | trans _ _ ih₁ ih₂ =>
    intro v hs
    obtain ⟨hs₁, he₁⟩ := ih₁ hs
    obtain ⟨hs₂, he₂⟩ := ih₂ hs₁
    exact ⟨hs₂, he₂.trans he₁⟩

/-- **The order of the registrations does not matter.** If all calls succeed in
one order, they do in every order, and the trees answer every lookup alike. -/
theorem insert_order_irrelevant {is is' : List Insert} (hperm : is.Perm is')
    (h : AllSucceed radixCreate is) : AllSucceed radixCreate is' ∧
      ∀ path, radixLookup (insertAll is').1 path = radixLookup (insertAll is).1 path := by
  rw [allSucceed_view wf_create] at h
  obtain ⟨hs, he⟩ := perm_view hperm h
  refine ⟨(allSucceed_view wf_create).mpr hs, fun path => ?_⟩
  obtain ⟨hw, hv⟩ := foldl_view is (t := (radixCreate, [])) wf_create
  obtain ⟨hw', hv'⟩ := foldl_view is' (t := (radixCreate, [])) wf_create
  unfold insertAll
  rw [radixLookup_find hw, radixLookup_find hw', hv', hv]
  simp only [he]

/-- The second of these routes splits the node of the first. -/
theorem insert_order_irrelevant_users :
    let is : List Insert := [⟨bytes "/users/:id", ⟨1, 0, 0⟩⟩, ⟨bytes "/usage", ⟨2, 0, 0⟩⟩]
    AllSucceed radixCreate is.reverse ∧
      ∀ path, radixLookup (insertAll is.reverse).1 path = radixLookup (insertAll is).1 path :=
  insert_order_irrelevant (reverse_perm _).symm (by decide +kernel)

end Radix
end Iohttp
