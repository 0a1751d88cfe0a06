/-
# What registrations leave in a router

A sequence of `router_add_route` calls (`addRoutes`), and the calls among them
that returned 0. The tries have the entry of each of these at its place, and
nodes where its segments end; they have no other handler, and no two of the calls
share a place (`Registered`). A call that failed has left nodes at most.
-/
import Iohttp.Router.Chains
import Iohttp.Router.Classify

namespace Iohttp

open Trie Radix List

/-- The arguments of one `router_add_route` call. -/
structure RouteCall extends Insert where
  method : Method
  deriving DecidableEq, Repr

/-- One call, with the calls that have returned 0 so far, the last first. -/
def addRoute (t : Router × List RouteCall) (g : RouteCall) : Router × List RouteCall :=
  let r := routerAddRoute t.1 g.method g.pattern g.entry.handler g.entry.metadata g.entry.routeMeta
  (r.1, if r.2 = 0 then g :: t.2 else t.2)

/-- The router after the calls, one after the other, and the calls among them
that returned 0. -/
def addRoutes (gs : List RouteCall) : Router × List RouteCall := gs.foldl addRoute (routerCreate, [])

/-- The trie of a method, which is empty before its first route. -/
def Router.tree (r : Router) (method : Method) : Node := (r.trees method).getD radixCreate

theorem addRoute_cases (t : Router × List RouteCall) (g : RouteCall) :
    addRoute t g = t ∨
      g.method ≠ .unknown ∧
        (addRoute t g).1.tree =
          Function.update t.1.tree g.method (insertOne (t.1.tree g.method) g.toInsert).1 ∧
        (addRoute t g).2 = if (insertOne (t.1.tree g.method) g.toInsert).2 = 0 then g :: t.2
        else t.2 := by
  unfold addRoute routerAddRoute
  by_cases h0 : g.entry.handler = 0
  · rw [if_pos h0]
    exact .inl rfl
  by_cases hm : g.method = .unknown
  · rw [if_neg h0, if_pos hm]
    exact .inl rfl
  rw [if_neg h0, if_neg hm]
  refine .inr ⟨hm, funext fun m => ?_, rfl⟩
  by_cases he : m = g.method
  · rw [he, Function.update_self, Router.tree]
    simp only [if_true]
    rfl
  · rw [Function.update_of_ne he, Router.tree]
    simp only [if_neg he]
    rfl

/-- The tries hold the routes of the calls `S`, and no others. -/
structure Registered (r : Router) (S : List RouteCall) : Prop where
  wf : ∀ m, Wf (r.tree m)
  known : ∀ g ∈ S, g.method ≠ .unknown
  given : ∀ g ∈ S, g.Given
  named : ∀ g ∈ S, WellNamed g.segs
  nodes : ∀ g ∈ S, ∀ K ∈ marks (pieces g.segs), view (r.tree g.method) K ≠ none
  entry : ∀ g ∈ S, view (r.tree g.method) g.place = some g.entry
  source : ∀ {m K e}, view (r.tree m) K = some e → e.handler ≠ 0 →
    ∃ g ∈ S, g.method = m ∧ g.place = K ∧ g.entry = e
  apart : (S.map fun g => (g.method, g.place)).Nodup

theorem registered_create : Registered routerCreate [] where
  wf _ := wf_create
  known := by simp
  given := by simp
  named := by simp
  nodes := by simp
  entry := by simp
  source {m K e} hv he := by
    rw [show routerCreate.tree m = radixCreate from rfl, view_of_no_children rfl] at hv
    cases K with
    | nil =>
      rw [ensure, Option.getD_none, Option.some.injEq] at hv
      exact absurd (by rw [← hv]; rfl) he
    | cons k K => cases hv
  apart := by simp

section

variable {t : Router × List RouteCall} {g : RouteCall} (h : Registered t.1 t.2)

include h

theorem Registered.view_addRoute : (∀ m, Wf ((addRoute t g).1.tree m)) ∧ ∀ m K,
    (view (t.1.tree m) K ≠ none → view ((addRoute t g).1.tree m) K ≠ none) ∧
    (∀ e : Entry, e.handler ≠ 0 → view (t.1.tree m) K = some e → view ((addRoute t g).1.tree m) K =
      some e) ∧
    ∀ e : Entry, e.handler ≠ 0 → view ((addRoute t g).1.tree m) K = some e →
      view (t.1.tree m) K = some e ∨ g ∈ (addRoute t g).2 ∧ m = g.method ∧ K = g.place ∧
      e = g.entry := by
  rcases addRoute_cases t g with heq | ⟨_, htree, hlist⟩
  · rw [heq]
    exact ⟨h.wf, fun m K => ⟨id, fun e _ he => he, fun e _ he => .inl he⟩⟩
  obtain ⟨hw, hv, hrc⟩ := insertOne_view (h.wf g.method) g.toInsert
  rw [htree]
  refine ⟨fun m => ?_, fun m K => ?_⟩
  · by_cases hm : m = g.method
    · rw [hm, Function.update_self]
      exact hw
    · rw [Function.update_of_ne hm]
      exact h.wf m
  · by_cases hm : m = g.method
    · rw [hm, Function.update_self, hv]
      refine ⟨callView_node, fun e he hK => callView_route hK he, fun e he hK => ?_⟩
      rcases callView_entry hK he with hold | ⟨hz, hplace, hentry⟩
      · exact .inl hold
      · rw [hlist, if_pos (hrc.trans hz)]
        exact .inr ⟨mem_cons_self, rfl, hplace, hentry⟩
    · rw [Function.update_of_ne hm]
      exact ⟨id, fun e _ he => he, fun e _ he => .inl he⟩

/-- The trie of a call that succeeds has its nodes and its entry, and the place
was free. -/
theorem Registered.put (htree : (addRoute t g).1.tree =
      Function.update t.1.tree g.method (insertOne (t.1.tree g.method) g.toInsert).1)
    (hz : (insertOne (t.1.tree g.method) g.toInsert).2 = 0) :
    g.Given ∧ WellNamed g.segs ∧ handlerAt (view (t.1.tree g.method)) g.place = 0 ∧
      (∀ K ∈ marks (pieces g.segs), view ((addRoute t g).1.tree g.method) K ≠ none) ∧
      view ((addRoute t g).1.tree g.method) g.place = some g.entry := by
  obtain ⟨_, hv, hrc⟩ := insertOne_view (h.wf g.method) g.toInsert
  rw [hrc] at hz
  obtain ⟨hgiven, hnamed, hfree, _⟩ := callView_zero.mp hz
  rw [htree, Function.update_self, hv, callView_put hz]
  exact ⟨hgiven, hnamed, hfree, fun K hK => put_mark hK, put_self⟩

/-- **A call keeps the routes that there are, and adds its own if it succeeds.** -/
theorem Registered.addRoute : Registered (addRoute t g).1 (addRoute t g).2 := by
  obtain ⟨hwf, hview⟩ := h.view_addRoute (g := g)
  have hnodes : ∀ g' ∈ t.2, ∀ K ∈ marks (pieces g'.segs),
      view ((Iohttp.addRoute t g).1.tree g'.method) K ≠ none := fun g' hg' K hK =>
    (hview g'.method K).1 (h.nodes g' hg' K hK)
  have hentry : ∀ g' ∈ t.2, view ((Iohttp.addRoute t g).1.tree g'.method) g'.place = some g'.entry :=
    fun g' hg' => (hview g'.method g'.place).2.1 g'.entry (h.given g' hg').1 (h.entry g' hg')
  have hsub : ∀ g' ∈ t.2, g' ∈ (Iohttp.addRoute t g).2 := fun g' hg' => by
    unfold Iohttp.addRoute
    simp only
    split_ifs
    · exact mem_cons_of_mem g hg'
    · exact hg'
  have hsource : ∀ {m K e}, view ((Iohttp.addRoute t g).1.tree m) K = some e → e.handler ≠ 0 →
      ∃ g' ∈ (Iohttp.addRoute t g).2, g'.method = m ∧ g'.place = K ∧ g'.entry = e := by
    intro m K e hv he
    rcases (hview m K).2.2 e he hv with hold | ⟨hg, rfl, rfl, rfl⟩
    · obtain ⟨g', hg', hrest⟩ := h.source hold he
      exact ⟨g', hsub g' hg', hrest⟩
    · exact ⟨g, hg, rfl, rfl, rfl⟩
  rcases addRoute_cases t g with heq | ⟨hknown, htree, hlist⟩
  · rw [heq]
    exact h
  by_cases hz : (insertOne (t.1.tree g.method) g.toInsert).2 = 0
  · rw [if_pos hz] at hlist
    rw [hlist] at hsource ⊢
    obtain ⟨hgiven, hnamed, hfree, hput⟩ := h.put htree hz
    refine ⟨hwf, forall_mem_cons.mpr ⟨hknown, h.known⟩, forall_mem_cons.mpr ⟨hgiven, h.given⟩,
      forall_mem_cons.mpr ⟨hnamed, h.named⟩, forall_mem_cons.mpr ⟨hput.1, hnodes⟩,
      forall_mem_cons.mpr ⟨hput.2, hentry⟩, hsource, ?_⟩
    rw [map_cons, nodup_cons]
    refine ⟨fun hm => ?_, h.apart⟩
    obtain ⟨g', hg', he⟩ := mem_map.mp hm
    obtain ⟨hmethod, hplace⟩ := Prod.mk.inj he
    rw [← hmethod, ← hplace, handlerAt, h.entry g' hg'] at hfree
    exact (h.given g' hg').1 hfree
  · rw [if_neg hz] at hlist
    rw [hlist] at hsource ⊢
    exact ⟨hwf, h.known, h.given, h.named, hnodes, hentry, hsource, h.apart⟩

end

/-- **The router after any calls.** -/
theorem addRoutes_registered (gs : List RouteCall) : Registered (addRoutes gs).1 (addRoutes gs).2 := by
  unfold addRoutes
  suffices hrun : ∀ t : Router × List RouteCall, Registered t.1 t.2 →
      Registered (gs.foldl addRoute t).1 (gs.foldl addRoute t).2 from hrun _ registered_create
  induction gs with
  | nil => exact fun t h => h
  | cons g gs ih => exact fun t h => ih _ h.addRoute

theorem mem_addRoutes {gs : List RouteCall} {g : RouteCall} (h : g ∈ (addRoutes gs).2) : g ∈ gs := by
  suffices hrun : ∀ t : Router × List RouteCall, g ∈ (gs.foldl addRoute t).2 → g ∈ t.2 ∨ g ∈ gs from
    (hrun _ h).resolve_left (by simp)
  clear h
  induction gs with
  | nil => exact fun t h => .inl h
  | cons g' gs ih =>
    intro t h
    rcases ih _ h with h | h
    · unfold addRoute at h
      simp only at h
      split_ifs at h
      · rcases mem_cons.mp h with rfl | h
        · exact .inr mem_cons_self
        · exact .inl h
      · exact .inl h
    · exact .inr (mem_cons_of_mem g' h)

theorem Registered.routed {r : Router} {S : List RouteCall} (h : Registered r S) {g : RouteCall}
    (hg : g ∈ S)
    (hne : NoEmptySegment g.pattern) : Routed (view (r.tree g.method)) (labels g.pattern) g.entry :=
  routed_of_marks hne (by simp) (h.nodes g hg) (h.entry g hg)

/-- Routes that share whole segments only. -/
def userCalls : List RouteCall :=
  [⟨⟨bytes "/users/:id", ⟨1, 0, 0⟩⟩, .get⟩, ⟨⟨bytes "/users/:id/posts", ⟨2, 7, 0⟩⟩, .get⟩,
    ⟨⟨bytes "/", ⟨3, 0, 0⟩⟩, .get⟩, ⟨⟨bytes "/users", ⟨4, 0, 0⟩⟩, .post⟩,
    ⟨⟨bytes "/users/:id", ⟨5, 0, 0⟩⟩, .get⟩]

example : (addRoutes userCalls).2.length = 4 := by decide +kernel

/-- Two routes that part inside a segment. -/
def cutCalls : List RouteCall := [⟨⟨bytes "/ab", ⟨1, 0, 0⟩⟩, .get⟩, ⟨⟨bytes "/ac", ⟨2, 0, 0⟩⟩, .get⟩]

end Iohttp
