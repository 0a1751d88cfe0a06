/-
# Metadata of a route

`ioh_router_set_meta` of `src/router/ioh_route_inspect.c`. It looks for a pattern
with a search of its own: every segment has to be the whole edge of a child, while
a registration may have cut the segment into several edges. So it finds a route
exactly if no node lies inside one of its segments (`findAndSetMeta_spec`).

If it does, one entry has changed, and no node has come or gone. Lookups then end
where they did before (`SameShape.find`), and only those that end at this place
return something else.
-/
import Iohttp.Router.Registered

namespace Iohttp
namespace Radix

open Trie List

/-! ### Where a lookup ends -/

/-- The place that a search has come to, by how it took the segments. -/
def placeOf : List NodeType → List Param → List Bytes → List Tok
  | .static :: ks, ps, t :: ts => t.map .ch ++ placeOf ks ps ts
  | .param :: ks, p :: ps, _ :: ts => .par p.name :: placeOf ks ps ts
  | .wildcard :: _, p :: _, _ => [.wild p.name]
  | _, _, _ => []

def Hit.place (hit : Hit) (ts : List Bytes) : List Tok := placeOf hit.kinds hit.params ts

def entryAt (v : View Tok Entry) (K : List Tok) : Entry := (v K).getD Entry.none

/-- The same nodes, and routes at the same ones. -/
def SameShape (v w : View Tok Entry) : Prop :=
  ∀ K, (w K).map (fun e => decide (e.handler ≠ 0)) = (v K).map fun e => decide (e.handler ≠ 0)

section

variable {v w : View Tok Entry} (h : SameShape v w)

include h

theorem SameShape.sub (s : List Tok) : SameShape (sub v s) (sub w s) := fun K => h (s ++ K)

theorem SameShape.node (K : List Tok) : w K = none ↔ v K = none := by
  rw [← Option.map_eq_none_iff, h K, Option.map_eq_none_iff]

theorem SameShape.nameAt (type : NodeType) : nameAt w type = nameAt v type := by
  have hpred : (fun name => w [namedTok type name] ≠ none) = fun name => v [namedTok type name] ≠ none :=
    funext fun name => propext (not_congr (h.node _))
  exact congrArg (fun P : Bytes → Prop =>
    open Classical in if hex : ∃ name, P name then some hex.choose else none) hpred

theorem SameShape.done : done w = (done v).map fun hit => { hit with entry := entryAt w [] } := by
  have hnil := h []
  unfold Radix.done
  cases hv : v [] with
  | none => rw [(h.node []).mpr hv]; rfl
  | some e =>
    cases hw : w [] with
    | none => rw [(h.node []).mp hw] at hv; cases hv
    | some e' =>
      rw [hv, hw] at hnil
      have hroute : e'.handler ≠ 0 ↔ e.handler ≠ 0 := not_congr (by simpa using hnil)
      rw [Option.bind_some, Option.bind_some]
      by_cases he : e.handler ≠ 0
      · rw [if_pos he, if_pos (hroute.mpr he), Option.map_some, entryAt, hw]
        rfl
      · rw [if_neg he, if_neg (mt hroute.mp he)]
        rfl

end

/-- The hit, with the entry that `w` has where it ends. -/
def Hit.reread (w : View Tok Entry) (ts : List Bytes) (hit : Hit) : Hit :=
  { hit with entry := entryAt w (hit.place ts) }

section

variable {v w : View Tok Entry} (h : SameShape v w) {t : Bytes} {ts : List Bytes} {c : ℕ}

include h

theorem SameShape.findLit
    (ih : Radix.find (Trie.sub w (t.map .ch)) ts c =
      (Radix.find (Trie.sub v (t.map .ch)) ts c).map (Hit.reread (Trie.sub w (t.map .ch)) ts)) :
    findLit w t ts c = (findLit v t ts c).map (Hit.reread w (t :: ts)) := by
  unfold Radix.findLit
  have hnode := or_congr_right (a := t = []) (h.node (t.map .ch))
  by_cases hno : t = [] ∨ v (t.map .ch) = none
  · rw [if_pos hno, if_pos (hnode.mpr hno)]
    rfl
  · rw [if_neg hno, if_neg (mt hnode.mp hno), ih, Option.map_map, Option.map_map]
    rfl

theorem SameShape.findPar
    (ih : ∀ name, Radix.find (Trie.sub w [.par name]) ts (c + 1) =
      (Radix.find (Trie.sub v [.par name]) ts (c + 1)).map (Hit.reread (Trie.sub w [.par name]) ts)) :
    findPar w t ts c = (findPar v t ts c).map (Hit.reread w (t :: ts)) := by
  unfold Radix.findPar
  rw [h.nameAt]
  cases Radix.nameAt v .param with
  | none => rfl
  | some name =>
    rw [Option.bind_some, Option.bind_some]
    by_cases hfull : c ≥ maxPathParams
    · rw [if_pos hfull, if_pos hfull]
      rfl
    · rw [if_neg hfull, if_neg hfull, ih, Option.map_map, Option.map_map]
      rfl

theorem SameShape.findWild : findWild w t ts c = (findWild v t ts c).map (Hit.reread w (t :: ts)) := by
  unfold Radix.findWild
  rw [h.nameAt]
  cases Radix.nameAt v .wildcard with
  | none => rfl
  | some name =>
    rw [Option.bind_some, Option.bind_some]
    by_cases hfull : c ≥ maxPathParams
    · rw [if_pos hfull, if_pos hfull]
      rfl
    · rw [if_neg hfull, if_neg hfull, (h.sub [.wild name]).done, Option.map_map, Option.map_map]
      rfl

theorem SameShape.done_reread : Radix.done w = (Radix.done v).map (Hit.reread w ts) := by
  rw [h.done]
  cases hd : Radix.done v with
  | none => rfl
  | some hit =>
    obtain ⟨hk, _⟩ := done_eq_some hd
    simp only [Option.map_some, Hit.reread, Hit.place, hk, placeOf]

end

/-- **Lookups end where they did before.** Of two views of the same shape, a search
comes to the same place, and returns the entry there. -/
theorem SameShape.find : ∀ {ts : List Bytes} {v w : View Tok Entry} {c : ℕ}, SameShape v w →
    find w ts c = (find v ts c).map (Hit.reread w ts)
  | [], v, w, c, h => h.done_reread
  | t :: ts, v, w, c, h => by
    by_cases hlast : t = [] ∧ ts = []
    · rw [Radix.find, Radix.find, if_pos hlast, if_pos hlast]
      exact h.done_reread
    · rw [find_cons hlast, find_cons hlast, h.findLit (SameShape.find (h.sub _)),
        h.findPar fun name => SameShape.find (h.sub _), h.findWild, Option.map_or, Option.map_or]

/-! ### The search for a pattern -/

/-- An entry with other metadata. -/
def Entry.withMeta (x : Ptr) (e : Entry) : Entry := { e with routeMeta := x }

/-- The node takes the metadata, if a route ends there. -/
def setNodeMeta (x : Ptr) (n : Node) : Node × ℤ :=
  if n.entry.handler = 0 then (n, -ENOENT) else ({ n with entry := n.entry.withMeta x }, 0)

mutual

/-- `find_and_set_meta`; `rest` is the pattern from `pos` on. -/
def findAndSetMeta (x : Ptr) : Node → Bytes → Node × ℤ
  | ⟨pfx, type, paramName, entry, children⟩, rest =>
    match skipSlash rest with
    | [] => setNodeMeta x ⟨pfx, type, paramName, entry, children⟩
    | c :: cs =>
      let seg := (c :: cs).takeWhile (· ≠ slash)
      let next := (c :: cs).dropWhile (· ≠ slash)
      if seg = [] then setNodeMeta x ⟨pfx, type, paramName, entry, children⟩
      else
        let r :=
          -- behind a wildcard nothing is looked at
          if seg.head? = some star then findMetaIn x (.wild seg.tail) children []
          else if seg.head? = some colon then findMetaIn x (.par seg.tail) children next
          else findMetaIn x (.lit seg) children next
        (⟨pfx, type, paramName, entry, r.1⟩, r.2)

/-- The loops over the children: the first one whose whole edge is `sought`. -/
def findMetaIn (x : Ptr) (sought : Label) : List Node → Bytes → List Node × ℤ
  | [], _ => ([], -ENOENT)
  | child :: children, next =>
    if nodeLabel child = sought then
      let r := findAndSetMeta x child next
      (r.1 :: children, r.2)
    else
      let r := findMetaIn x sought children next
      (child :: r.1, r.2)

end

theorem findAndSetMeta_end (x : Ptr) (n : Node) {rest : Bytes} (h : skipSlash rest = []) :
    findAndSetMeta x n rest = setNodeMeta x n := by
  obtain ⟨pfx, type, paramName, entry, children⟩ := n
  rw [findAndSetMeta, h]

variable {seg : Bytes} {segs : List Bytes} {e : Entry} {K : List Tok}

theorem findAndSetMeta_segment (x : Ptr) (n : Node) (hne : seg ≠ [])
    (hs : slash ∉ seg) (hnamed : WellNamed (seg :: segs)) :
    findAndSetMeta x n (segmentTail (seg :: segs)) =
      ({ n with children := (findMetaIn x (label seg) n.children (segmentTail segs)).1 },
        (findMetaIn x (label seg) n.children (segmentTail segs)).2) := by
  obtain ⟨htake, hdrop⟩ := takeWhile_segment hs segs
  obtain ⟨pfx, type, paramName, entry, children⟩ := n
  have hskip : skipSlash (segmentTail (seg :: segs)) = seg ++ segmentTail segs := by
    rw [segmentTail, cons_append, skipSlash, if_pos rfl]
  obtain ⟨c, cs, hcs⟩ := exists_cons_of_ne_nil hne
  have hcons : seg ++ segmentTail segs = c :: (cs ++ segmentTail segs) := by rw [hcs, cons_append]
  rw [hcons] at htake hdrop
  rw [findAndSetMeta, hskip, hcons]
  simp only [htake, hdrop, if_neg hne]
  rw [WellNamed] at hnamed
  unfold label
  by_cases hstar : seg.head? = some star
  · rw [if_pos hstar] at hnamed
    simp only [if_pos hstar, (hnamed.resolve_left hne).1, segmentTail]
  · by_cases hcolon : seg.head? = some colon
    · simp only [if_neg hstar, if_pos hcolon]
    · simp only [if_neg hstar, if_neg hcolon]

theorem findAndSetMeta_sameEdge (x : Ptr) (n : Node) (rest : Bytes) :
    SameEdge (findAndSetMeta x n rest).1 n := by
  obtain ⟨pfx, type, paramName, entry, children⟩ := n
  have hset : SameEdge (setNodeMeta x ⟨pfx, type, paramName, entry, children⟩).1
      ⟨pfx, type, paramName, entry, children⟩ := by
    unfold setNodeMeta
    split_ifs <;> exact ⟨rfl, rfl, rfl⟩
  rw [findAndSetMeta]
  split
  · exact hset
  · simp only
    split_ifs
    · exact hset
    all_goals exact ⟨rfl, rfl, rfl⟩

theorem findMetaIn_none (x : Ptr) {sought : Label} (next : Bytes) : ∀ {cs : List Node},
    (∀ c ∈ cs, nodeLabel c ≠ sought) → findMetaIn x sought cs next = (cs, -ENOENT)
  | [], _ => by rw [findMetaIn]
  | c :: cs, h => by
    rw [findMetaIn, if_neg (h c mem_cons_self),
      findMetaIn_none x next (forall_mem_cons.mp h).2]

section

variable (x : Ptr) (next : Bytes) {c : Node}

/-- No two children have the same edge. -/
theorem eq_of_nodeLabel {d : Node} {cs : List Node} (hn : ((d :: cs).map Node.branch).Nodup)
    (hc : c ∈ d :: cs) (hd : nodeLabel d = nodeLabel c) : d = c :=
  inj_on_of_nodup_map hn mem_cons_self hc (by rw [Node.branch, Node.branch, edge, edge, hd])

theorem findMetaIn_some : ∀ {cs : List Node}, c ∈ cs → (cs.map Node.branch).Nodup →
    Puts cs (findAndSetMeta x c next).1 (findMetaIn x (nodeLabel c) cs next).1 ∧
      (findMetaIn x (nodeLabel c) cs next).2 = (findAndSetMeta x c next).2
  | d :: cs, hc, hn => by
    have hsame := (findAndSetMeta_sameEdge x c next).branch
    rw [findMetaIn]
    by_cases hd : nodeLabel d = nodeLabel c
    · obtain rfl := eq_of_nodeLabel hn hc hd
      rw [if_pos hd]
      exact ⟨puts_head hsame.symm hn, rfl⟩
    · have hne : c ≠ d := fun he => hd (by rw [he])
      have hc' := (mem_cons.mp hc).resolve_left hne
      rw [map_cons, nodup_cons] at hn
      obtain ⟨hputs, hrc⟩ := findMetaIn_some hc' hn.2
      rw [if_neg hd]
      refine ⟨hputs.cons ?_, hrc⟩
      rw [hsame]
      exact fun he => hn.1 (mem_map.mpr ⟨c, hc', he.symm⟩)

theorem findMetaIn_fail (hfail : findAndSetMeta x c next = (c, -ENOENT)) : ∀ {cs : List Node}, c ∈ cs →
    (cs.map Node.branch).Nodup → findMetaIn x (nodeLabel c) cs next = (cs, -ENOENT)
  | d :: cs, hc, hn => by
    rw [findMetaIn]
    by_cases hd : nodeLabel d = nodeLabel c
    · obtain rfl := eq_of_nodeLabel hn hc hd
      rw [if_pos hd, hfail]
    · have hne : c ≠ d := fun he => hd (by rw [he])
      rw [map_cons, nodup_cons] at hn
      rw [if_neg hd, findMetaIn_fail hfail ((mem_cons.mp hc).resolve_left hne) hn.2]

end

theorem view_replace {n c c' : Node} (h : Wf n) (hc : c ∈ n.children) (hsame : SameEdge c' c)
    (hw : Wf c') {cs' : List Node} (hputs : Puts n.children c' cs') {K₀ : List Tok}
    (hview : view c' = Function.update (view c) K₀ (some e)) :
    Wf { n with children := cs' } ∧
      view { n with children := cs' } = Function.update (view n) (edge c ++ K₀) (some e) := by
  have hproper : ProperEdge c' := ProperEdge.congr hsame (h.proper c hc)
  have hedge_ne := (h.proper c hc).edge_ne
  refine ⟨.mk (hputs.proper h.proper hproper) (hputs.apart h.apart) fun y hy => ?_, funext fun K => ?_⟩
  · rcases hputs.mem.mp hy with rfl | ⟨hy, _⟩
    · exact hw
    · exact h.kids y hy
  by_cases hpre : edge c <+: K
  · -- below the child
    obtain ⟨K', rfl⟩ := hpre
    have hnew : view { n with children := cs' } (edge c ++ K') = view c' K' := by
      obtain ⟨k, s, he⟩ := exists_cons_of_ne_nil hedge_ne
      have hk : c'.branch = some k.branch := by rw [hsame.branch, Node.branch, he]; rfl
      rw [he, cons_append, view_cons, hputs.viewIn h.proper h.apart hproper, if_pos hk,
        ← cons_append, ← he, hsame.edge, under_append]
    rw [hnew, hview]
    by_cases hK : K' = K₀
    · rw [hK, Function.update_self, Function.update_self]
    · rw [Function.update_of_ne hK, Function.update_of_ne (fun he => hK (append_cancel_left he)),
        view_edge h hc]
  · have hK : K ≠ edge c ++ K₀ := by
      rintro rfl
      exact hpre (prefix_append _ _)
    rw [Function.update_of_ne hK]
    cases K with
    | nil => rw [view_nil, view_nil]
    | cons k K =>
      rw [view_cons, view_cons, hputs.viewIn h.proper h.apart hproper]
      split_ifs with hk
      · rw [hsame.edge, under_of_not hpre, viewIn_of_branch h.proper h.apart hc (hsame.branch ▸ hk),
          under_of_not hpre]
      · rfl

theorem setNodeMeta_view (x : Ptr) {n : Node} (h : Wf n) (hh : n.entry.handler ≠ 0) :
    (setNodeMeta x n).2 = 0 ∧ Wf (setNodeMeta x n).1 ∧
      view (setNodeMeta x n).1 = Function.update (view n) [] (some (n.entry.withMeta x)) := by
  unfold setNodeMeta
  rw [if_neg hh]
  refine ⟨rfl, .mk h.proper h.apart h.kids, funext fun K => ?_⟩
  cases K with
  | nil => rw [Function.update_self, view_nil]
  | cons k K => rw [Function.update_of_ne (by simp), view_cons, view_cons]

theorem mem_listNode_of_child {n c : Node} (h : Wf n) (hc : c ∈ n.children) {ls : List Label}
    (he : (nodeLabel c :: ls, e) ∈ listNode n) : (ls, e) ∈ listNode c := by
  rcases listNode_cases he with he | ⟨d, hd, y, hy, he⟩
  · cases he
  · obtain ⟨hls, hentry⟩ := Prod.mk.inj he
    obtain ⟨hlabel, hrest⟩ := List.cons.inj hls
    have hbranch : d.branch = c.branch := by rw [Node.branch, Node.branch, edge, edge, hlabel]
    rw [← h.unique hd hc hbranch, hrest, hentry]
    exact hy

theorem WellNamed.tail (hne : seg ≠ []) (h : WellNamed (seg :: segs)) : WellNamed segs := by
  have htail := h.resolve_left hne
  split_ifs at htail
  · rw [htail.1]
    trivial
  · exact htail.2

/-- **What `find_and_set_meta` does.** If the segments of the pattern are the edges
to a route, its metadata is set; otherwise nothing is. -/
theorem findAndSetMeta_spec (x : Ptr) : ∀ {segs : List Bytes}, PathSegments segs → WellNamed segs →
    ∀ {n : Node}, Wf n →
    (∃ e, (segs.map label, e) ∈ listNode n ∧ (findAndSetMeta x n (segmentTail segs)).2 = 0 ∧
      Wf (findAndSetMeta x n (segmentTail segs)).1 ∧
      view (findAndSetMeta x n (segmentTail segs)).1 =
        Function.update (view n) (key (segs.map label)) (some (e.withMeta x))) ∨
    (∀ e, (segs.map label, e) ∈ listNode n → e.handler = 0) ∧
      findAndSetMeta x n (segmentTail segs) = (n, -ENOENT)
  | [], _, _, n, h => by
    have htop : ∀ e, ([], e) ∈ listNode n ↔ e = n.entry := fun e => by
      rw [listNode_eq, mem_cons, mem_listIn]
      simp
    rw [segmentTail, findAndSetMeta_end x n rfl]
    by_cases hh : n.entry.handler = 0
    · exact .inr ⟨fun e he => by rw [(htop e).mp he, hh], if_pos hh⟩
    · exact .inl ⟨n.entry, (htop _).mpr rfl, setNodeMeta_view x h hh⟩
  | seg :: segs, hsegs, hnamed, n, h => by
    obtain ⟨hne, hslash⟩ := hsegs seg mem_cons_self
    have hself : Node.mk n.pfx n.type n.paramName n.entry n.children = n := by cases n; rfl
    rw [findAndSetMeta_segment x n hne hslash hnamed, map_cons]
    by_cases hex : ∃ c ∈ n.children, nodeLabel c = label seg
    · obtain ⟨c, hc, hlabel⟩ := hex
      rw [← hlabel]
      rcases findAndSetMeta_spec x (forall_mem_cons.mp hsegs).2 (hnamed.tail hne)
        (h.kids c hc) with ⟨e, he, hrc, hw, hview⟩ | ⟨hno, hfail⟩
      · obtain ⟨hputs, hrc'⟩ := findMetaIn_some x (segmentTail segs) hc h.apart
        obtain ⟨hw', hview'⟩ := view_replace h hc (findAndSetMeta_sameEdge x c _) hw hputs hview
        exact .inl ⟨e, mem_listNode_child hc he, hrc'.trans hrc, hw', hview'⟩
      · rw [findMetaIn_fail x _ hfail hc h.apart]
        exact .inr ⟨fun e he => hno e (mem_listNode_of_child h hc he), Prod.ext hself rfl⟩
    · push Not at hex
      rw [findMetaIn_none x _ hex]
      refine .inr ⟨fun e he => ?_, Prod.ext hself rfl⟩
      rcases listNode_cases he with he | ⟨d, hd, y, _, he⟩
      · cases he
      · exact absurd (List.cons.inj (Prod.mk.inj he).1).1.symm (hex d hd)

end Radix

open Trie Radix

variable {path : Bytes} {m method : Method} {K : List Tok} {e : Entry}

/-- `ioh_router_set_meta`. -/
def routerSetMeta (r : Router) (method : Method) (pattern : Bytes) (x : Ptr) : Router × ℤ :=
  match r.trees method with
  | none => (r, -ENOENT)
  | some root =>
    let t := findAndSetMeta x root pattern
    ({ r with trees := fun m => if m = method then some t.1 else r.trees m }, t.2)

/-! ### Where a dispatch ends -/

/-- The place of the route that a trie finds for a path. -/
noncomputable def foundAt (root : Node) (path : Bytes) : Option (List Tok) :=
  (find (view root) (segsOf path) 0).map fun hit => hit.place (segsOf path)

/-- The same for the tries that serve a method: its own, and for `HEAD` the one of
`GET`. -/
noncomputable def pickedAt (r : Router) (method : Method) (norm : Bytes) : Option (Method × List Tok) :=
  ((foundAt (r.tree method) norm).map (method, ·)).or
    (if method = .head then (foundAt (r.tree .get) norm).map (.get, ·) else none)

open Classical in
/-- The method and the place of the route that a dispatch comes to. -/
noncomputable def resolved (r : Router) (method : Method) (path : Bytes) : Option (Method × List Tok) :=
  if path = [] ∨ 0 ∈ path ∨ pathHasEncodedNull path = true then none
  else
    (pathNormalize path maxUriSize).bind fun norm =>
      if SlashRemoved r path norm then none else pickedAt r method norm

theorem norm_ne_nil {norm : Bytes} {size : ℕ} (h : pathNormalize path size = some norm) :
    norm ≠ [] := by
  rcases pathNormalize_eq h with hroot | ⟨segs, hne, _, rfl⟩
  · rw [hroot]
    exact List.cons_ne_nil _ _
  · obtain ⟨s, ss, rfl⟩ := List.exists_cons_of_ne_nil hne
    exact List.cons_ne_nil _ _

theorem lookupMethod_find {r : Router} (hw : Wf (r.tree m)) {norm : Bytes} (hne : norm ≠ []) :
    lookupMethod r m norm = (find (view (r.tree m)) (segsOf norm) 0).map fun hit =>
    ⟨hit.entry, hit.params⟩ := by
  have hlookup := radixLookup_find hw norm
  rw [if_neg hne] at hlookup
  have htree : lookupMethod r m norm =
      if (radixLookup (r.tree m) norm).1 = 0 then some (radixLookup (r.tree m) norm).2 else none := by
    unfold lookupMethod Router.tree
    cases r.trees m with
    | some root => rfl
    | none =>
      rw [Option.bind_none, Option.getD_none, if_neg]
      unfold radixLookup radixCreate nodeCreate
      rw [if_neg hne, lookupRecursive]
      cases skipSlash norm with
      | nil => decide
      | cons c cs => simp [lookupStaticIn, lookupParamIn, lookupWildcardIn, ENOENT]
  rw [htree, hlookup]
  cases find (view (r.tree m)) (segsOf norm) 0 with
  | none | some hit => rfl

theorem foundMatch_entry (mt : Match) (e : Entry) :
    foundMatch { mt with entry := e } = { foundMatch mt with entry := e } := by
  unfold foundMatch
  split_ifs <;> rfl

/-- Two routers whose tries have the same shape. -/
structure SameRoutes (r r' : Router) : Prop where
  wf : ∀ m, Wf (r.tree m)
  wf' : ∀ m, Wf (r'.tree m)
  shape : ∀ m, SameShape (view (r.tree m)) (view (r'.tree m))

section

variable {r r' : Router} (h : SameRoutes r r') {norm : Bytes} (hne : norm ≠ [])

include h hne

theorem SameRoutes.lookupMethod_none (hf : foundAt (r.tree m) norm = none) :
    lookupMethod r m norm = none ∧ lookupMethod r' m norm = none := by
  have hfind := Option.map_eq_none_iff.mp hf
  rw [lookupMethod_find (h.wf m) hne, lookupMethod_find (h.wf' m) hne, (h.shape m).find, hfind]
  exact ⟨rfl, rfl⟩

theorem SameRoutes.lookupMethod_some (hf : foundAt (r.tree m) norm = some K) :
    ∃ mt : Match, lookupMethod r m norm = some mt ∧
      lookupMethod r' m norm = some { mt with entry := entryAt (view (r'.tree m)) K } := by
  obtain ⟨hit, hfind, rfl⟩ := Option.map_eq_some_iff.mp hf
  rw [lookupMethod_find (h.wf m) hne, lookupMethod_find (h.wf' m) hne, (h.shape m).find, hfind]
  exact ⟨_, rfl, rfl⟩

theorem SameRoutes.isSome (m : Method) :
    (lookupMethod r' m norm).isSome = (lookupMethod r m norm).isSome := by
  cases hf : foundAt (r.tree m) norm with
  | none =>
    obtain ⟨hnone, hnone'⟩ := h.lookupMethod_none hne hf
    rw [hnone, hnone']
  | some K =>
    obtain ⟨mt, hsome, hsome'⟩ := h.lookupMethod_some hne hf
    rw [hsome, hsome']
    rfl

theorem SameRoutes.picked_none (hp : pickedAt r method norm = none) :
    picked r method norm = none ∧ picked r' method norm = none := by
  unfold pickedAt at hp
  rw [Option.or_eq_none_iff, Option.map_eq_none_iff] at hp
  obtain ⟨hnone, hnone'⟩ := h.lookupMethod_none hne hp.1
  unfold picked
  rw [hnone, hnone', Option.none_or, Option.none_or]
  by_cases hm : method = .head
  · rw [if_pos hm, Option.map_eq_none_iff] at hp
    rw [if_pos hm, if_pos hm]
    exact h.lookupMethod_none hne hp.2
  · rw [if_neg hm, if_neg hm]
    exact ⟨rfl, rfl⟩

theorem SameRoutes.picked_some {p : Method × List Tok} (hp : pickedAt r method norm = some p) :
    ∃ mt : Match, picked r method norm = some mt ∧
      picked r' method norm = some { mt with entry := entryAt (view (r'.tree p.1)) p.2 } := by
  unfold pickedAt at hp
  unfold picked
  cases hown : foundAt (r.tree method) norm with
  | some K =>
    rw [hown, Option.map_some, Option.some_or, Option.some.injEq] at hp
    obtain ⟨mt, hsome, hsome'⟩ := h.lookupMethod_some hne hown
    rw [hsome, hsome', ← hp]
    exact ⟨mt, rfl, rfl⟩
  | none =>
    obtain ⟨hnone, hnone'⟩ := h.lookupMethod_none hne hown
    rw [hown, Option.map_none, Option.none_or] at hp
    rw [hnone, hnone', Option.none_or, Option.none_or]
    split_ifs at hp with hm
    obtain ⟨K, hK, rfl⟩ := Option.map_eq_some_iff.mp hp
    rw [if_pos hm, if_pos hm]
    exact h.lookupMethod_some hne hK

theorem SameRoutes.searchMethods (method : Method) :
    searchMethods r' method norm =
      match pickedAt r method norm with
      | none => searchMethods r method norm
      | some p => { searchMethods r method norm with entry := entryAt (view (r'.tree p.1)) p.2 } := by
  cases hp : pickedAt r method norm with
  | none =>
    obtain ⟨hnone, hnone'⟩ := h.picked_none hne hp
    have hothers : otherMethods r' method norm = otherMethods r method norm := by
      unfold otherMethods
      simp only [h.isSome hne]
    rw [searchMethods_none hnone, searchMethods_none hnone', hothers]
  | some p =>
    obtain ⟨mt, hsome, hsome'⟩ := h.picked_some hne hp
    rw [searchMethods_some hsome, searchMethods_some hsome', foundMatch_entry]

end

/-- **A dispatch ends at the same route**, and returns the entry that is there. -/
theorem SameRoutes.routerDispatch {r r' : Router} (h : SameRoutes r r') (method : Method)
    (path : Bytes) :
    routerDispatch r' method path =
      match resolved r method path with
      | none => routerDispatch r method path
      | some p => { routerDispatch r method path with entry := entryAt (view (r'.tree p.1)) p.2 } := by
  unfold resolved
  by_cases hbad : path = [] ∨ 0 ∈ path ∨ pathHasEncodedNull path = true
  · rw [if_pos hbad, routerDispatch_bad hbad, routerDispatch_bad hbad]
  rw [if_neg hbad]
  cases hnorm : pathNormalize path maxUriSize with
  | none => rw [Option.bind_none, routerDispatch_none hnorm, routerDispatch_none hnorm]
  | some norm =>
    have hne := norm_ne_nil hnorm
    have hslash : SlashRemoved r' path norm ↔ SlashRemoved r path norm := by
      unfold SlashRemoved
      simp only [h.isSome hne]
    rw [Option.bind_some]
    by_cases hrem : SlashRemoved r path norm
    · rw [if_pos hrem, routerDispatch_redirect hbad hnorm hrem,
        routerDispatch_redirect hbad hnorm (hslash.mpr hrem)]
    · rw [if_neg hrem, routerDispatch_kept hbad hnorm hrem, routerDispatch_kept hbad hnorm
        (mt hslash.mp hrem)]
      exact h.searchMethods hne method

theorem resolved_entry {r : Router} (hw : ∀ m, Wf (r.tree m))
    (hres : resolved r method path = some (m, K)) :
    (routerDispatch r method path).entry = entryAt (view (r.tree m)) K := by
  have hself := SameRoutes.routerDispatch ⟨hw, hw, fun _ _ => rfl⟩ method path
  rw [hres] at hself
  exact congrArg RouteMatch.entry hself

/-! ### The metadata of a registered route -/

theorem sameShape_update {v : View Tok Entry} {e' : Entry} (hv : v K = some e)
    (he : e'.handler = e.handler) : SameShape v (Function.update v K (some e')) := by
  intro L
  by_cases hL : L = K
  · rw [hL, Function.update_self, hv, Option.map_some, Option.map_some, he]
  · rw [Function.update_of_ne hL]

section

variable {g : RouteCall} (hgiven : g.Given) (hne : NoEmptySegment g.pattern)

include hgiven hne

theorem findAndSetMeta_pattern (x : Ptr) (n : Node) :
    findAndSetMeta x n g.pattern = findAndSetMeta x n (segmentTail (segments g.pattern)) := by
  rcases eq_segmentTail hgiven.2 hne with ⟨hroot, hnil⟩ | hsegs
  · rw [hroot, findAndSetMeta_end x n rfl, ← hroot, hnil, segmentTail, findAndSetMeta_end x n rfl]
  · rw [← hsegs]

omit hgiven in
theorem wellNamed_segments (hnamed : WellNamed g.segs) : WellNamed (segments g.pattern) := by
  rcases hne with hroot | hsegs
  · rw [hroot, show segments [slash] = [] by decide]
    trivial
  · rw [segments_of_noEmpty hsegs]
    exact hnamed

end

section

variable {r : Router} {S : List RouteCall} (h : Registered r S) {g : RouteCall} (hg : g ∈ S)

include h hg

theorem Registered.trees_some : ∃ root, r.trees g.method = some root := by
  cases htree : r.trees g.method with
  | some root => exact ⟨root, rfl⟩
  | none =>
    have hentry := h.entry g hg
    rw [Router.tree, htree] at hentry
    obtain ⟨_, hmem, _⟩ := registered_create.source (m := g.method) hentry (h.given g hg).1
    cases hmem

theorem Registered.tree_setMeta (pattern : Bytes) (x : Ptr) :
    (routerSetMeta r g.method pattern x).1.tree =
        Function.update r.tree g.method (findAndSetMeta x (r.tree g.method) pattern).1 ∧
      (routerSetMeta r g.method pattern x).2 = (findAndSetMeta x (r.tree g.method) pattern).2 := by
  obtain ⟨root, hroot⟩ := h.trees_some hg
  have htree : r.tree g.method = root := by rw [Router.tree, hroot]; rfl
  unfold routerSetMeta
  rw [hroot, htree]
  refine ⟨funext fun m => ?_, rfl⟩
  by_cases hm : m = g.method
  · rw [hm, Function.update_self, Router.tree]
    simp only [if_true, Option.getD_some]
  · rw [Function.update_of_ne hm, Router.tree]
    simp only [if_neg hm]
    rfl

section

variable {r' : Router} {n : Node} {x : Ptr} (htree : r'.tree = Function.update r.tree g.method n)
  (hview : view n = Function.update (view (r.tree g.method)) g.place (some (g.entry.withMeta x)))

include htree hview

omit h hg in
theorem entryAt_setMeta (m : Method) (K : List Tok) : entryAt (view (r'.tree m)) K =
    if m = g.method ∧ K = g.place then g.entry.withMeta x else entryAt (view (r.tree m)) K := by
  rw [htree]
  by_cases hm : m = g.method
  · rw [hm, Function.update_self, hview, entryAt]
    by_cases hK : K = g.place
    · rw [hK, Function.update_self, if_pos ⟨rfl, rfl⟩]
      rfl
    · rw [Function.update_of_ne hK, if_neg fun hand => hK hand.2]
      rfl
  · rw [Function.update_of_ne hm, if_neg fun hand => hm hand.1]

theorem Registered.sameRoutes_setMeta (hw : Wf n) : SameRoutes r r' := by
  refine ⟨h.wf, fun m => ?_, fun m => ?_⟩
  · rw [htree]
    by_cases hm : m = g.method
    · rwa [hm, Function.update_self]
    · rw [Function.update_of_ne hm]
      exact h.wf m
  · rw [htree]
    by_cases hm : m = g.method
    · rw [hm, Function.update_self, hview]
      exact sameShape_update (h.entry g hg) rfl
    · rw [Function.update_of_ne hm]
      exact fun K => rfl

theorem Registered.dispatch_setMeta (hw : Wf n) (method : Method) (path : Bytes) :
    routerDispatch r' method path =
      if resolved r method path = some (g.method, g.place) then
        { routerDispatch r method path with entry := g.entry.withMeta x }
      else routerDispatch r method path := by
  rw [(h.sameRoutes_setMeta hg htree hview hw).routerDispatch]
  cases hres : resolved r method path with
  | none => rw [if_neg (by simp)]
  | some p =>
    obtain ⟨m, K⟩ := p
    simp only [entryAt_setMeta htree hview, Option.some.injEq, Prod.mk.injEq]
    by_cases hp : m = g.method ∧ K = g.place
    · rw [if_pos hp, if_pos hp]
    · rw [if_neg hp, if_neg hp, ← resolved_entry h.wf hres]

end

end

/-- **When metadata can be bound to a route.** After any registrations,
`ioh_router_set_meta` for a pattern without empty segments that was registered
returns 0, and every dispatch that ends at this route returns the metadata, and
every other dispatch what it did before, exactly if no node of the trie lies inside
a segment of the pattern. -/
theorem set_meta_iff {gs : List RouteCall} {g : RouteCall} (hg : g ∈ (addRoutes gs).2)
    (hne : NoEmptySegment g.pattern) (x : Ptr) :
    ((routerSetMeta (addRoutes gs).1 g.method g.pattern x).2 = 0 ∧
      ∀ method path, routerDispatch (routerSetMeta (addRoutes gs).1 g.method g.pattern x).1 method path =
        if resolved (addRoutes gs).1 method path = some (g.method, g.place) then
          { routerDispatch (addRoutes gs).1 method path with entry := g.entry.withMeta x }
        else routerDispatch (addRoutes gs).1 method path) ↔
    Uncut ((addRoutes gs).1.tree g.method) (labels g.pattern) := by
  have h := addRoutes_registered gs
  have hgiven := h.given g hg
  have hw := h.wf g.method
  have hr := h.routed hg hne
  obtain ⟨htree, hrc⟩ := h.tree_setMeta hg g.pattern x
  rw [findAndSetMeta_pattern hgiven hne] at htree hrc
  have hsegs : PathSegments (segments g.pattern) :=
    fun s hs => ⟨segments_ne_nil hs, slash_notMem_segments hs⟩
  rw [hrc, ← chainTo_eq_iff hw hr]
  rcases findAndSetMeta_spec x hsegs (wellNamed_segments hne (h.named g hg)) hw with
    ⟨e, hmem, hz, hw', hview⟩ | ⟨hno, hfail⟩
  · obtain ⟨hv, hchain⟩ := (mem_listNode hw).mp hmem
    obtain rfl : e = g.entry := Option.some.inj (hv.symm.trans hr.entry)
    have hview' : view (findAndSetMeta x ((addRoutes gs).1.tree g.method)
      (segmentTail (segments g.pattern))).1 =
        Function.update (view ((addRoutes gs).1.tree g.method)) g.place (some (g.entry.withMeta x)) := by
      rw [place_eq hne]
      exact hview
    exact iff_of_true ⟨hz, h.dispatch_setMeta hg htree hview' hw'⟩ hchain
  · refine iff_of_false (fun hall => ?_) fun hchain => ?_
    · rw [hfail] at hall
      exact absurd hall.1 (by simp [ENOENT])
    · exact hgiven.1 (hno g.entry ((mem_listNode hw).mpr ⟨hr.entry, hchain⟩))

theorem set_meta_users :
    let r := (addRoutes userCalls).1
    let r' := (routerSetMeta r .get (bytes "/users/:id") 9).1
    (routerSetMeta r .get (bytes "/users/:id") 9).2 = 0 ∧
      ∀ method path, routerDispatch r' method path =
        if resolved r method path = some (.get, (bytes "users").map .ch ++ [.par (bytes "id")]) then
          { routerDispatch r method path with entry := ⟨1, 0, 9⟩ }
        else routerDispatch r method path :=
  (set_meta_iff (g := ⟨⟨bytes "/users/:id", ⟨1, 0, 0⟩⟩, .get⟩) (by decide +kernel)
    (by decide +kernel) 9).mpr
    (by decide +kernel)

/-- The route `/ab`, whose segment is cut behind its first byte, is not found. -/
theorem set_meta_cut :
    let g : RouteCall := ⟨⟨bytes "/ab", ⟨1, 0, 0⟩⟩, .get⟩
    g ∈ (addRoutes cutCalls).2 ∧ NoEmptySegment g.pattern ∧
      (routerSetMeta (addRoutes cutCalls).1 g.method g.pattern 9).2 = -ENOENT := by
  decide +kernel

end Iohttp
