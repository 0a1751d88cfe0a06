/-
# Walking the routes

`ioh_router_walk` of `src/router/ioh_route_inspect.c`. The tries do not keep the
patterns: the walk spells them from the edges, a slash before each one. So it
visits the nodes of every trie one after the other (`routerWalk_visit`), and a
route comes out as it was registered exactly if no node lies inside one of its
segments. A node whose spelling takes 2048 bytes ends the walk, also for the
routes behind it; one that is longer than its patterns is due to such cuts, or
was left by a registration that failed.
-/
import Iohttp.Router.Registered

namespace Iohttp

open Trie Radix List

/-- `MAX_PATTERN_LEN`. -/
abbrev maxPatternLen : ℕ := 2048

/-- `ioh_route_info_t`. -/
structure RouteInfo where
  method : Method
  pattern : Bytes
  handler : Ptr
  opts : Ptr
  routeMeta : Ptr
  deriving DecidableEq, Repr

/-- What an edge adds to the pattern. -/
def Radix.Label.text : Label → Bytes
  | .lit s => slash :: s
  | .par name => slash :: colon :: name
  | .wild name => slash :: star :: name

/-- The info of a node at the end of `pattern`; nothing is the root. -/
def routeInfo (method : Method) (pattern : Bytes) (e : Entry) : RouteInfo :=
  ⟨method, if pattern = [] then [slash] else pattern, e.handler, e.metadata, e.routeMeta⟩

section

variable {σ : Type} (fn : RouteInfo → σ → ℤ × σ)

mutual

/-- `walk_node`, with the callback `fn` and its context. -/
def walkNode (method : Method) : Node → Bytes → σ → ℤ × σ
  | ⟨_, _, _, entry, children⟩, pattern, ctx =>
    let r := if entry.handler ≠ 0 then fn (routeInfo method pattern entry) ctx else (0, ctx)
    if r.1 ≠ 0 then r else walkChildren method children pattern r.2

/-- The loop of `walk_node` over the children. -/
def walkChildren (method : Method) : List Node → Bytes → σ → ℤ × σ
  | [], _, ctx => (0, ctx)
  | child :: children, pattern, ctx =>
    let next := pattern ++ (nodeLabel child).text
    if next.length ≥ maxPatternLen then (-ENOMEM, ctx)
    else
      let r := walkNode method child next ctx
      if r.1 ≠ 0 then r else walkChildren method children pattern r.2

end

/-- The loop of `ioh_router_walk` over the methods. -/
def walkMethods (r : Router) : List (Method × Bytes) → σ → ℤ × σ
  | [], ctx => (0, ctx)
  | m :: ms, ctx =>
    match r.trees m.1 with
    | none => walkMethods r ms ctx
    | some root =>
      let rc := walkNode fn m.1 root [] ctx
      if rc.1 ≠ 0 then rc else walkMethods r ms rc.2

/-- `ioh_router_walk`. -/
def routerWalk (r : Router) (ctx : σ) : ℤ × σ := walkMethods fn r methodTable ctx

end

/-- What the walk reports to a callback that always continues. -/
def reported (r : Router) : List RouteInfo :=
  (routerWalk (fun info infos => (0, infos ++ [info])) r []).2

/-! ### The nodes that it visits -/

def edgesText (ls : List Label) : Bytes := ls.flatMap Label.text

/-- A node as the walk comes to it: the trie, the edges to the node, its entry. -/
structure Stop where
  method : Method
  chain : List Label
  entry : Entry

/-- A node below the edges `ls`. -/
def Stop.below (method : Method) (ls : List Label) (x : List Label × Entry) : Stop :=
  ⟨method, ls ++ x.1, x.2⟩

def Stop.info (x : Stop) : RouteInfo := routeInfo x.method (edgesText x.chain) x.entry

def Stop.Short (x : Stop) : Prop := (edgesText x.chain).length < maxPatternLen
  deriving Decidable

/-- A route ends here. -/
def Stop.IsRoute (x : Stop) : Prop := x.entry.handler ≠ 0
  deriving Decidable

/-- The nodes of a router in the order of the walk. -/
def Router.stops (r : Router) : List Stop :=
  methodTable.flatMap fun m => (listNode (r.tree m.1)).map (Stop.below m.1 [])

section

variable {σ : Type} (fn : RouteInfo → σ → ℤ × σ)

/-- The walk over a list of nodes. -/
def visit : List Stop → σ → ℤ × σ
  | [], ctx => (0, ctx)
  | x :: xs, ctx =>
    if ¬x.Short then (-ENOMEM, ctx)
    else
      let r := if x.IsRoute then fn x.info ctx else (0, ctx)
      if r.1 ≠ 0 then r else visit xs r.2

theorem visit_append (ys : List Stop) : ∀ (xs : List Stop) (ctx : σ),
    visit fn (xs ++ ys) ctx =
      if (visit fn xs ctx).1 ≠ 0 then visit fn xs ctx else visit fn ys (visit fn xs ctx).2
  | [], ctx => by rw [nil_append, visit, if_neg (by simp)]
  | x :: xs, ctx => by
    rw [cons_append, visit, visit]
    by_cases hs : x.Short
    · rw [if_neg (not_not.mpr hs), if_neg (not_not.mpr hs)]
      simp only
      by_cases hr : (if x.IsRoute then fn x.info ctx else (0, ctx)).1 ≠ 0
      · simp only [if_pos hr]
      · simp only [if_neg hr]
        exact visit_append ys xs _
    · rw [if_pos hs, if_pos hs, if_pos (by simp [ENOMEM])]

theorem edgesText_append (ls : List Label) (l : Label) :
    edgesText (ls ++ [l]) = edgesText ls ++ l.text := by
  simp [edgesText]

theorem below_cons (method : Method) (ls : List Label) (l : Label) (x : List Label × Entry) :
    Stop.below method ls (l :: x.1, x.2) = Stop.below method (ls ++ [l]) x := by
  simp [Stop.below]

theorem walkChildren_visit (method : Method) (ls : List Label) : ∀ {cs : List Node},
    (∀ c ∈ cs, ∀ ls ctx, (edgesText ls).length < maxPatternLen →
      walkNode fn method c (edgesText ls) ctx = visit fn ((listNode c).map (Stop.below method ls)) ctx) →
    ∀ ctx, walkChildren fn method cs (edgesText ls) ctx = visit fn
    ((listIn cs).map (Stop.below method ls)) ctx
  | [], _, ctx => by rw [walkChildren, listIn, map_nil, visit]
  | c :: cs, h, ctx => by
    have hrest := walkChildren_visit method ls (forall_mem_cons.mp h).2
    have hlist : ((listNode c).map fun x => (nodeLabel c :: x.1, x.2)).map (Stop.below method ls) =
        (listNode c).map (Stop.below method (ls ++ [nodeLabel c])) := by
      rw [map_map]
      exact map_congr_left fun x _ => below_cons method ls (nodeLabel c) x
    rw [walkChildren, listIn, map_append, hlist, visit_append]
    simp only [← edgesText_append]
    by_cases hlen : (edgesText (ls ++ [nodeLabel c])).length ≥ maxPatternLen
    · -- the node itself is the first below its edge
      have hlong : visit fn ((listNode c).map (Stop.below method (ls ++ [nodeLabel c]))) ctx =
          (-ENOMEM, ctx) := by
        rw [listNode_eq, map_cons, visit, if_pos]
        simpa [Stop.Short, Stop.below] using hlen
      rw [if_pos hlen, hlong, if_pos (by simp [ENOMEM])]
    · rw [if_neg hlen, h c mem_cons_self _ ctx (by omega), hrest]

theorem walkNode_visit (method : Method) : ∀ (n : Node) (ls : List Label) (ctx : σ),
    (edgesText ls).length < maxPatternLen →
      walkNode fn method n (edgesText ls) ctx = visit fn ((listNode n).map (Stop.below method ls)) ctx :=
  Node.induct fun n ih ls ctx hlen => by
    have hkids : ∀ ctx, walkChildren fn method n.children (edgesText ls) ctx =
        visit fn ((listIn n.children).map (Stop.below method ls)) ctx :=
        walkChildren_visit fn method ls ih
    obtain ⟨pfx, type, name, entry, children⟩ := n
    have hshort : (Stop.below method ls ([], entry)).Short := by
      simpa [Stop.Short, Stop.below] using hlen
    have hinfo : (Stop.below method ls ([], entry)).info = routeInfo method (edgesText ls) entry := by
      simp [Stop.info, Stop.below]
    rw [walkNode, listNode_eq, map_cons, visit, if_neg (not_not.mpr hshort), hinfo]
    simp only [hkids]
    rfl

/-- **The walk visits the nodes one after the other.** -/
theorem routerWalk_visit (r : Router) (ctx : σ) : routerWalk fn r ctx = visit fn r.stops ctx := by
  unfold routerWalk Router.stops
  generalize methodTable = ms
  induction ms generalizing ctx with
  | nil => rfl
  | cons m ms ih =>
    have hroot := fun root => walkNode_visit fn m.1 root [] ctx (by decide)
    rw [flatMap_cons, visit_append, walkMethods]
    cases htree : r.trees m.1 with
    | none =>
      -- an empty trie has a root without a handler
      have hempty : visit fn ((listNode (r.tree m.1)).map (Stop.below m.1 [])) ctx = (0, ctx) := by
        rw [← hroot, Router.tree, htree]
        rfl
      rw [hempty, if_neg (by simp), ih]
    | some root =>
      have htree' : r.tree m.1 = root := by rw [Router.tree, htree]; rfl
      rw [htree', ← hroot]
      simp only [ih]
      rfl

end

/-- The routes that a callback which always continues is told of. -/
def told (xs : List Stop) : List RouteInfo :=
  ((xs.takeWhile Stop.Short).filter Stop.IsRoute).map Stop.info

theorem visit_told {σ : Type} {fn : RouteInfo → σ → ℤ × σ} (hfn : ∀ info ctx, (fn info ctx).1 = 0) :
    ∀ (xs : List Stop) (ctx : σ), (visit fn xs ctx).2 = (told xs).foldl
    (fun ctx info => (fn info ctx).2) ctx
  | [], ctx => rfl
  | x :: xs, ctx => by
    rw [visit, told]
    by_cases hs : x.Short
    · rw [if_neg (not_not.mpr hs), takeWhile_cons_of_pos (by simpa using hs)]
      by_cases hr : x.IsRoute
      · rw [filter_cons_of_pos (by simpa using hr), map_cons, foldl_cons]
        simp only [if_pos hr, hfn, ne_eq, not_true_eq_false, if_false]
        exact visit_told hfn xs _
      · rw [filter_cons_of_neg (by simpa using hr)]
        simp only [if_neg hr, ne_eq, not_true_eq_false, if_false]
        exact visit_told hfn xs ctx
    · rw [if_pos hs, takeWhile_cons_of_neg (by simpa using hs)]
      rfl

theorem reported_eq (r : Router) : reported r = told r.stops := by
  have happend : ∀ (xs ys : List RouteInfo), xs.foldl (fun infos info => infos ++ [info]) ys = ys ++
      xs := by
    intro xs
    induction xs with
    | nil => simp
    | cons x xs ih => simp [ih]
  rw [reported, routerWalk_visit, visit_told fun _ _ => rfl, happend, nil_append]

theorem routerWalk_reported {σ : Type} {fn : RouteInfo → σ → ℤ × σ}
    (hfn : ∀ info ctx, (fn info ctx).1 = 0) (r : Router) (ctx : σ) :
    (routerWalk fn r ctx).2 = (reported r).foldl (fun ctx info => (fn info ctx).2) ctx := by
  rw [routerWalk_visit, visit_told hfn, reported_eq]

/-! ### The length of a pattern -/

/-- The bytes that a token takes in a pattern. -/
def Radix.Tok.size : Tok → ℕ
  | .ch _ => 1
  | .par name | .wild name => name.length + 1

theorem text_length (l : Label) : l.text.length = (l.toks.map Tok.size).sum + 1 := by
  cases l with
  | lit s =>
    have hone : (Tok.size ∘ Tok.ch) = fun _ : UInt8 => 1 := rfl
    simp [Label.text, Label.toks, hone]
  | par n | wild n => simp [Label.text, Label.toks, Tok.size]

theorem edgesText_length (ls : List Label) :
    (edgesText ls).length = ((key ls).map Tok.size).sum + ls.length := by
  induction ls with
  | nil => rfl
  | cons l ls ih =>
    rw [edgesText, flatMap_cons, length_append, text_length, key_cons, map_append,
      sum_append, length_cons]
    rw [edgesText] at ih
    omega

def patternOf (ls : List Label) : Bytes := if edgesText ls = [] then [slash] else edgesText ls

theorem text_label {seg : Bytes} (h : seg ≠ []) : (label seg).text = slash :: seg := by
  obtain ⟨c, s, rfl⟩ := exists_cons_of_ne_nil h
  unfold label
  rw [head?_cons, tail_cons]
  by_cases hstar : c = star
  · rw [hstar, if_pos rfl]
    rfl
  by_cases hcolon : c = colon
  · rw [hcolon, if_neg (by decide), if_pos rfl]
    rfl
  · rw [if_neg (by simpa using hstar), if_neg (by simpa using hcolon)]
    rfl

theorem edgesText_labels : ∀ {segs : List Bytes}, (∀ s ∈ segs, s ≠ []) →
    edgesText (segs.map label) = segmentTail segs
  | [], _ => rfl
  | seg :: segs, h => by
    have ih := edgesText_labels (forall_mem_cons.mp h).2
    unfold edgesText at ih ⊢
    rw [map_cons, flatMap_cons, ih, text_label (h seg mem_cons_self), segmentTail]

theorem patternOf_labels {p : Bytes} (hp : p.head? = some slash) (hne : NoEmptySegment p) :
    patternOf (labels p) = p := by
  have htext : edgesText (labels p) = segmentTail (segments p) :=
    edgesText_labels fun s hs => segments_ne_nil hs
  unfold patternOf
  rw [htext]
  rcases eq_segmentTail hp hne with ⟨hroot, hnil⟩ | hsegs
  · rw [hnil, hroot]
    rfl
  · rw [← hsegs, if_neg]
    rintro rfl
    cases hp

theorem patternOf_length {ls : List Label} (h : ls ≠ []) :
    (patternOf ls).length = ((key ls).map Tok.size).sum + ls.length := by
  have hpos := length_pos_of_ne_nil h
  have hlen := edgesText_length ls
  rw [patternOf, if_neg, hlen]
  intro hnil
  rw [hnil, length_nil] at hlen
  omega

theorem mem_stops {r : Router} {x : Stop} :
    x ∈ r.stops ↔ x.method ≠ .unknown ∧ (x.chain, x.entry) ∈ listNode (r.tree x.method) := by
  have hknown : ∀ m ∈ methodTable, m.1 ≠ Method.unknown := by decide
  unfold Router.stops
  rw [mem_flatMap]
  constructor
  · rintro ⟨m, hm, hx⟩
    obtain ⟨y, hy, rfl⟩ := mem_map.mp hx
    exact ⟨hknown m hm, hy⟩
  · rintro ⟨hne, hx⟩
    obtain ⟨name, hm⟩ := mem_methodTable hne
    exact ⟨(x.method, name), hm, mem_map.mpr ⟨_, hx, rfl⟩⟩

theorem stops_nodup {r : Router} (hw : ∀ m, Wf (r.tree m)) : r.stops.Nodup := by
  unfold Router.stops
  rw [nodup_flatMap]
  refine ⟨fun m _ => (listNode_nodup _ (hw m.1)).map fun x y hxy => ?_, ?_⟩
  · obtain ⟨_, hchain, hentry⟩ := Stop.mk.inj hxy
    exact Prod.ext hchain hentry
  · have hmethods : methodTable.Pairwise fun m m' => m.1 ≠ m'.1 := by decide
    refine hmethods.imp fun {m m'} hne x hx hx' => hne ?_
    obtain ⟨_, _, rfl⟩ := mem_map.mp hx
    obtain ⟨_, _, he⟩ := mem_map.mp hx'
    exact (Stop.mk.inj he).1.symm

def RouteCall.stop (r : Router) (g : RouteCall) : Stop :=
  ⟨g.method, chainTo (r.tree g.method) g.place, g.entry⟩

section

variable {r : Router} {S : List RouteCall} (h : Registered r S)

include h

theorem Registered.routes_perm : (r.stops.filter Stop.IsRoute).Perm (S.map (RouteCall.stop r)) := by
  refine (perm_ext_iff_of_nodup ((stops_nodup h.wf).filter _) ?_).mpr fun x => ?_
  · -- the edges to two places differ
    refine List.Nodup.of_map (fun x : Stop => (x.method, key x.chain)) ?_
    rw [map_map]
    refine (map_congr_left fun g hg => ?_ : S.map (fun g => (g.method, g.place)) = _) ▸ h.apart
    show (g.method, g.place) = (g.method, key (chainTo (r.tree g.method) g.place))
    rw [(mem_chainTo (h.wf g.method) (h.entry g hg)).2]
  · rw [mem_filter, mem_stops, mem_map]
    constructor
    · rintro ⟨⟨_, hx⟩, hroute⟩
      rw [mem_listNode (h.wf x.method)] at hx
      obtain ⟨g, hg, hmethod, hplace, hentry⟩ := h.source hx.1 (of_decide_eq_true hroute)
      refine ⟨g, hg, ?_⟩
      rw [RouteCall.stop, hmethod, hplace, hentry, hx.2]
    · rintro ⟨g, hg, rfl⟩
      exact ⟨⟨h.known g hg, (mem_chainTo (h.wf g.method) (h.entry g hg)).1⟩, decide_eq_true
        (h.given g hg).1⟩

variable (hne : ∀ g ∈ S, NoEmptySegment g.pattern)

include hne

theorem Registered.patternOf_uncut {g : RouteCall} (hg : g ∈ S)
    (hcut : Uncut (r.tree g.method) (labels g.pattern)) : patternOf (g.stop r).chain = g.pattern := by
  have hchain := (chainTo_eq_iff (h.wf g.method) (h.routed hg (hne g hg))).mpr hcut
  rw [RouteCall.stop, place_eq (hne g hg), hchain]
  exact patternOf_labels (h.given g hg).2 (hne g hg)

theorem Registered.length_lt_of_cut {g : RouteCall} (hg : g ∈ S)
    (hcut : ¬Uncut (r.tree g.method) (labels g.pattern)) :
    g.pattern.length < (patternOf (g.stop r).chain).length := by
  have hw := h.wf g.method
  have hr := h.routed hg (hne g hg)
  obtain ⟨hmem, hkey⟩ := mem_chainTo hw hr.entry
  have hlen :
      (labels g.pattern).length < (chainTo (r.tree g.method) (key (labels g.pattern))).length := by
    by_contra hle
    exact hcut ((chainTo_eq_iff hw hr).mp (chainTo_eq_of_length hw hr (by omega)))
  have hchain_ne : chainTo (r.tree g.method) (key (labels g.pattern)) ≠ [] := by
    intro hnil
    rw [hnil, length_nil] at hlen
    omega
  have hlabels_ne : labels g.pattern ≠ [] := by
    intro hnil
    obtain ⟨l, ls, hls⟩ := exists_cons_of_ne_nil hchain_ne
    rw [hls, key_cons, hnil, key_nil, append_eq_nil_iff] at hkey
    exact toks_ne_nil _ hw _ hmem _ (by rw [hls]; exact mem_cons_self) hkey.1
  have hown := patternOf_length hlabels_ne
  rw [patternOf_labels (h.given g hg).2 (hne g hg)] at hown
  rw [RouteCall.stop, place_eq (hne g hg), patternOf_length hchain_ne, hkey, hown]
  omega

end

/-! ### What is reported -/

/-- The method, the pattern, the handler and the options. -/
def RouteInfo.tuple (info : RouteInfo) : Method × Bytes × Ptr × Ptr :=
  (info.method, info.pattern, info.handler, info.opts)

def RouteCall.tuple (g : RouteCall) : Method × Bytes × Ptr × Ptr :=
  (g.method, g.pattern, g.entry.handler, g.entry.metadata)

/-- No route is at or behind the first node whose pattern does not fit. -/
def AllWalked (r : Router) : Prop := ∀ x ∈ r.stops.dropWhile Stop.Short, ¬x.IsRoute
  deriving Decidable

theorem allWalked_iff {r : Router} :
    AllWalked r ↔ (r.stops.dropWhile Stop.Short).filter Stop.IsRoute = [] := by
  rw [filter_eq_nil_iff, AllWalked]
  refine forall₂_congr fun x _ => ?_
  rw [decide_eq_true_iff]

theorem filter_stops (r : Router) : r.stops.filter Stop.IsRoute =
    (r.stops.takeWhile Stop.Short).filter Stop.IsRoute ++ (r.stops.dropWhile Stop.Short).filter
    Stop.IsRoute := by
  rw [← filter_append, takeWhile_append_dropWhile]

section

variable {r : Router} {S : List RouteCall} (h : Registered r S)

include h

theorem allWalked_of_length (hlen : (reported r).length = S.length) : AllWalked r := by
  have hall := h.routes_perm.length_eq
  rw [length_map, filter_stops, length_append] at hall
  rw [reported_eq, told, length_map] at hlen
  exact allWalked_iff.mpr (length_eq_zero_iff.mp (by omega))

theorem reported_perm (hall : AllWalked r) : ((reported r).map RouteInfo.tuple).Perm
    (S.map fun g => (g.method, patternOf (g.stop r).chain, g.entry.handler, g.entry.metadata)) := by
  have hperm := h.routes_perm.map fun x => x.info.tuple
  rw [filter_stops, allWalked_iff.mp hall, append_nil, map_map] at hperm
  rw [reported_eq, told, map_map]
  exact hperm

end

/-- **When the walk reports the registered routes.** After any registrations of
patterns without empty segments, every callback that always continues is told the
same routes. They are the ones whose registration succeeded, with their patterns,
exactly if no trie has a node inside a segment of one of them, and none of them is
behind a node whose pattern takes 2048 bytes. -/
theorem walk_reports_iff {gs : List RouteCall}
    (hne : ∀ g ∈ gs, g.pattern.head? = some slash → NoEmptySegment g.pattern) :
    (∀ (σ : Type) (fn : RouteInfo → σ → ℤ × σ) (ctx : σ), (∀ info ctx, (fn info ctx).1 = 0) →
      (routerWalk fn (addRoutes gs).1 ctx).2 =
        (reported (addRoutes gs).1).foldl (fun ctx info => (fn info ctx).2) ctx) ∧
    (((reported (addRoutes gs).1).map RouteInfo.tuple).Perm ((addRoutes gs).2.map RouteCall.tuple) ↔
      (∀ g ∈ (addRoutes gs).2, Uncut ((addRoutes gs).1.tree g.method) (labels g.pattern)) ∧
        AllWalked (addRoutes gs).1) := by
  refine ⟨fun σ fn ctx hfn => routerWalk_reported hfn _ ctx, ?_⟩
  have hreg := addRoutes_registered gs
  have hne' : ∀ g ∈ (addRoutes gs).2, NoEmptySegment g.pattern := fun g hg =>
    hne g (mem_addRoutes hg) (hreg.given g hg).2
  generalize (addRoutes gs).1 = r at *
  generalize (addRoutes gs).2 = S at *
  constructor
  · intro hperm
    have hall : AllWalked r := allWalked_of_length hreg (by simpa using hperm.length_eq)
    refine ⟨fun g hg => ?_, hall⟩
    -- a cut adds a slash, and nothing makes up for it
    by_contra hcut
    have hsum := (((reported_perm hreg hall).symm.trans hperm).map fun x => x.2.1.length).sum_eq
    rw [map_map, map_map] at hsum
    refine absurd hsum (Nat.ne_of_gt (sum_lt_sum _ _ (fun g' hg' => ?_) ⟨g, hg, ?_⟩))
    · by_cases hcut' : Uncut (r.tree g'.method) (labels g'.pattern)
      · exact (congrArg List.length (hreg.patternOf_uncut hne' hg' hcut')).ge
      · exact (hreg.length_lt_of_cut hne' hg' hcut').le
    · exact hreg.length_lt_of_cut hne' hg hcut
  · rintro ⟨hcut, hall⟩
    refine (reported_perm hreg hall).trans (List.Perm.of_eq (map_congr_left fun g hg => ?_))
    rw [RouteCall.tuple, hreg.patternOf_uncut hne' hg (hcut g hg)]

theorem walk_reports_users : (addRoutes userCalls).2.length = 4 ∧
    ((reported (addRoutes userCalls).1).map RouteInfo.tuple).Perm
    ((addRoutes userCalls).2.map RouteCall.tuple) :=
  ⟨by decide +kernel, (@walk_reports_iff userCalls (by decide +kernel)).2.mpr
    ⟨by decide +kernel, by decide +kernel⟩⟩

/-- The common edge `a` of the two routes is taken for a segment. -/
theorem walk_cut_segments :
    (∀ g ∈ cutCalls, NoEmptySegment g.pattern ∧ g.pattern.length ≤ 2000) ∧
    (addRoutes cutCalls).2.length = 2 ∧
      (reported (addRoutes cutCalls).1).map RouteInfo.pattern = [bytes "/a/b", bytes "/a/c"] ∧
      ¬((reported (addRoutes cutCalls).1).map RouteInfo.tuple).Perm
      ((addRoutes cutCalls).2.map RouteCall.tuple) := by
  decide +kernel

end Iohttp
