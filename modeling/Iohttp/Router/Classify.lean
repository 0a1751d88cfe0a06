/-
# The outcome of a dispatch

`ioh_router_dispatch` of `src/router/ioh_router.c` by the tries that have a match
for the canonical path: the one of the method, the one of `GET` for `HEAD`, or
those of other methods. The captured values are copied into 512 bytes of the
match. If they do not fit, the route was found and the answer is that there is
none.
-/
import Iohttp.Router.Path

namespace Iohttp

open List

variable {r : Router} {norm path : Bytes} {method : Method}

/-- The routers that registrations make. -/
inductive Router.Built : Router → Prop where
  | create : Built routerCreate
  | addRoute {r : Router} (h : Built r) (method : Method) (pattern : Bytes) (hd opts routeMeta : Ptr) :
      Built (routerAddRoute r method pattern hd opts routeMeta).1
  | use {r : Router} (h : Built r) (mw : Ptr) : Built (routerUse r mw).1
  | handlers {r : Router} (h : Built r) (error notFound methodNotAllowed : Ptr) :
      Built { r with
        errorHandler := error, notFoundHandler := notFound, methodNotAllowedHandler := methodNotAllowed }

theorem Router.Built.trees_unknown (h : r.Built) : r.trees .unknown = none := by
  induction h with
  | create => rfl
  | @addRoute r _ method pattern hd opts routeMeta ih =>
    unfold routerAddRoute
    split_ifs with h0 hm
    · exact ih
    · exact ih
    · exact (if_neg (Ne.symm hm)).trans ih
  | @use r _ mw ih =>
    unfold routerUse
    split_ifs
    · exact ih
    · exact ih
    · exact ih
  | handlers _ _ _ _ ih => exact ih

/-! ### The search -/

def HasRoute (router : Router) (norm : Bytes) (method : Method) : Prop :=
  (lookupMethod router method norm).isSome = true

theorem HasRoute.ne_unknown (hr : r.Built) (h : HasRoute r norm method) : method ≠ .unknown := by
  rintro rfl
  rw [HasRoute, lookupMethod, hr.trees_unknown] at h
  cases h

theorem mem_methodTable (h : method ≠ .unknown) : ∃ name, (method, name) ∈ methodTable := by
  cases method with
  | unknown => exact absurd rfl h
  | get => exact ⟨_, mem_cons_self⟩
  | post => exact ⟨bytes "POST", by decide⟩
  | put => exact ⟨bytes "PUT", by decide⟩
  | delete => exact ⟨bytes "DELETE", by decide⟩
  | patch => exact ⟨bytes "PATCH", by decide⟩
  | head => exact ⟨bytes "HEAD", by decide⟩
  | options => exact ⟨bytes "OPTIONS", by decide⟩
  | trace => exact ⟨bytes "TRACE", by decide⟩
  | connect => exact ⟨bytes "CONNECT", by decide⟩

/-- The part of `ioh_router_dispatch` behind the redirect: the method's trie,
the one of GET for HEAD, and those of the other methods. -/
def searchMethods (r : Router) (method : Method) (norm : Bytes) : RouteMatch :=
  match lookupMethod r method norm with
  | some m => foundMatch m
  | none =>
    match if method = .head then lookupMethod r .get norm else none with
    | some m => foundMatch m
    | none =>
      let others := methodTable.filter fun m => m.1 ≠ method ∧ (lookupMethod r m.1 norm).isSome
      if others = [] then ⟨.notFound, Radix.Entry.none, [], [], []⟩
      else ⟨.methodNotAllowed, Radix.Entry.none, [], (bytes ", ").intercalate (others.map (·.2)), []⟩

/-- The match that is taken: the method's own, or for `HEAD` the one of `GET`. -/
def picked (r : Router) (method : Method) (norm : Bytes) : Option Radix.Match :=
  (lookupMethod r method norm).or (if method = .head then lookupMethod r .get norm else none)

theorem picked_isSome :
    (picked r method norm).isSome = true ↔ HasRoute r norm method ∨ method = .head ∧
    HasRoute r norm .get := by
  unfold picked HasRoute
  rw [Option.isSome_or, Bool.or_eq_true]
  refine or_congr_right ?_
  by_cases hm : method = .head
  · rw [if_pos hm, and_iff_right hm]
  · rw [if_neg hm]
    exact iff_of_false (fun h => by cases h) fun h => hm h.1

theorem searchMethods_some {m : Radix.Match}
    (h : picked r method norm = some m) : searchMethods r method norm = foundMatch m := by
  unfold picked at h
  unfold searchMethods
  cases hown : lookupMethod r method norm with
  | some m' =>
    rw [hown] at h
    cases h
    rfl
  | none =>
    rw [hown, Option.none_or] at h
    rw [h]

/-- The other methods with a route, and their names. -/
def otherMethods (r : Router) (method : Method) (norm : Bytes) : List (Method × Bytes) :=
  methodTable.filter fun m => m.1 ≠ method ∧ (lookupMethod r m.1 norm).isSome

theorem mem_otherMethods {m : Method} {name : Bytes} :
    (m, name) ∈ otherMethods r method norm ↔ (m, name) ∈ methodTable ∧ m ≠ method ∧
    HasRoute r norm m := by
  rw [otherMethods, mem_filter, decide_eq_true_iff, HasRoute]

theorem searchMethods_none (h : picked r method norm = none) : searchMethods r method norm =
      if otherMethods r method norm = [] then ⟨.notFound, Radix.Entry.none, [], [], []⟩
      else ⟨.methodNotAllowed, Radix.Entry.none, [],
        (bytes ", ").intercalate ((otherMethods r method norm).map (·.2)), []⟩ := by
  obtain ⟨hown, hhead⟩ := Option.or_eq_none_iff.mp h
  unfold searchMethods
  rw [hown, hhead]
  rfl

theorem searchMethods_none_status (h : picked r method norm = none) :
    (searchMethods r method norm).status =
      if otherMethods r method norm = [] then .notFound else .methodNotAllowed := by
  rw [searchMethods_none h]
  split_ifs
  · rfl
  · rfl

theorem searchMethods_found (h : (searchMethods r method norm).status = .found) :
    ∃ m, picked r method norm = some m ∧ searchMethods r method norm = foundMatch m := by
  cases hp : picked r method norm with
  | none =>
    rw [searchMethods_none_status hp] at h
    split_ifs at h
  | some m => exact ⟨m, rfl, searchMethods_some hp⟩

/-! ### The dispatch -/

theorem pathHasEncodedNull_iff (path : Bytes) :
    pathHasEncodedNull path = true ↔ bytes "%00" <:+: path := by
  induction path with
  | nil => exact iff_of_false (by decide) (by decide)
  | cons c cs ih =>
    rw [pathHasEncodedNull, Bool.or_eq_true, ih, isPrefixOf_iff_prefix, infix_cons_iff]

/-- A slash at the end of the path that the canonical path does not have, which
some method has a route for. -/
def SlashRemoved (r : Router) (path norm : Bytes) : Prop :=
  path.length > 1 ∧ path.getLast? = some slash ∧ ¬(norm.length > 1 ∧ norm.getLast? = some slash) ∧
    methodTable.any (fun m => (lookupMethod r m.1 norm).isSome) = true

theorem routerDispatch_bad (h : path = [] ∨ 0 ∈ path ∨ pathHasEncodedNull path = true)
    (method : Method) : routerDispatch r method path = ⟨.notFound, Radix.Entry.none, [], [], []⟩ :=
  if_pos h

theorem routerDispatch_none (h : pathNormalize path maxUriSize = none)
    (method : Method) : routerDispatch r method path = ⟨.notFound, Radix.Entry.none, [], [], []⟩ := by
  unfold routerDispatch
  simp only [h, ite_self]

theorem routerDispatch_redirect (hok : ¬(path = [] ∨ 0 ∈ path ∨ pathHasEncodedNull path = true))
    (hnorm : pathNormalize path maxUriSize = some norm) (h : SlashRemoved r path norm)
    (method : Method) :
    routerDispatch r method path = ⟨.redirect, Radix.Entry.none, [], [], norm⟩ := by
  unfold routerDispatch
  simp only [if_neg hok, hnorm]
  exact if_pos h

theorem routerDispatch_kept (hok : ¬(path = [] ∨ 0 ∈ path ∨ pathHasEncodedNull path = true))
    (hnorm : pathNormalize path maxUriSize = some norm) (h : ¬SlashRemoved r path norm)
    (method : Method) : routerDispatch r method path = searchMethods r method norm := by
  unfold routerDispatch
  simp only [if_neg hok, hnorm]
  exact if_neg h

/-- **What a dispatch can do.** The method only matters in the search: else there
is no route, or the path is redirected to a canonical path that some method has a
route for. -/
theorem routerDispatch_cases (r : Router) (path : Bytes) :
    (∀ method, routerDispatch r method path = ⟨.notFound, Radix.Entry.none, [], [], []⟩) ∨
    ∃ norm, pathNormalize path maxUriSize = some norm ∧
      (SlashRemoved r path norm ∧
          (∀ method, routerDispatch r method path = ⟨.redirect, Radix.Entry.none, [], [], norm⟩) ∨
        ∀ method, routerDispatch r method path = searchMethods r method norm) := by
  by_cases hbad : path = [] ∨ 0 ∈ path ∨ pathHasEncodedNull path = true
  · exact .inl (routerDispatch_bad hbad)
  · cases hnorm : pathNormalize path maxUriSize with
    | none => exact .inl (routerDispatch_none hnorm)
    | some norm =>
      refine .inr ⟨norm, rfl, ?_⟩
      by_cases hslash : SlashRemoved r path norm
      · exact .inl ⟨hslash, routerDispatch_redirect hbad hnorm hslash⟩
      · exact .inr (routerDispatch_kept hbad hnorm hslash)

theorem searchMethods_ne_redirect (r : Router) (method : Method) (norm : Bytes) :
    (searchMethods r method norm).status ≠ .redirect := by
  cases h : picked r method norm with
  | none =>
    rw [searchMethods_none_status h]
    split_ifs
    · decide
    · decide
  | some m =>
    rw [searchMethods_some h, foundMatch]
    split_ifs
    · exact nofun
    · exact nofun

/-- Without a slash at the end that is to be removed, the dispatch is the search. -/
theorem routerDispatch_search (henc : ¬bytes "%00" <:+: path)
    (hnorm : pathNormalize path maxUriSize = some norm) (hslash : path.getLast? = some slash →
      path = [slash]) :
    routerDispatch r method path = searchMethods r method norm := by
  have hclean : ¬(path.head? ≠ some slash ∨ 0 ∈ path) := by
    intro hbad
    rw [pathNormalize, if_pos hbad] at hnorm
    cases hnorm
  have hok : ¬(path = [] ∨ 0 ∈ path ∨ pathHasEncodedNull path = true) := by
    rintro (rfl | h0 | hnull)
    · exact hclean (.inl (by decide))
    · exact hclean (.inr h0)
    · exact henc ((pathHasEncodedNull_iff path).mp hnull)
  have hkeep : ¬SlashRemoved r path norm := by
    rintro ⟨hlen, hlast, _⟩
    rw [hslash hlast] at hlen
    exact absurd hlen (by decide)
  exact routerDispatch_kept hok hnorm hkeep method

/-- What the tries say about a path, told by a match. -/
structure Classified (r : Router) (method : Method) (norm : Bytes) (m : RouteMatch) : Prop where
  found : m.status = .found ↔ HasRoute r norm method ∨ method = .head ∧ HasRoute r norm .get
  entry : m.status = .found → (picked r method norm).map (·.entry) = some m.entry
  methodNotAllowed : m.status = .methodNotAllowed ↔
    ¬(HasRoute r norm method ∨ method = .head ∧ HasRoute r norm .get) ∧ ∃ other, other ≠ method ∧
    HasRoute r norm other
  notFound : m.status = .notFound ↔ ∀ other, ¬HasRoute r norm other

theorem classified_found {m : Radix.Match} (h : picked r method norm = some m)
    (hfit : paramsFit m.params = true) : Classified r method norm (foundMatch m) := by
  have hany := picked_isSome.mp (by rw [h]; rfl : (picked r method norm).isSome = true)
  have heq : foundMatch m = ⟨.found, m.entry, m.params, [], []⟩ := if_pos hfit
  rw [heq]
  refine ⟨iff_of_true rfl hany,
    fun _ => by rw [h]; rfl, iff_of_false (fun hs => by cases hs) fun hs => hs.1 hany,
    iff_of_false (fun hs => by cases hs) fun hnone => ?_⟩
  obtain hown | ⟨_, hget⟩ := hany
  · exact hnone _ hown
  · exact hnone _ hget

theorem classified_other (hr : r.Built)
    (h : picked r method norm = none) : Classified r method norm (searchMethods r method norm) := by
  have hno : ¬(HasRoute r norm method ∨ method = .head ∧ HasRoute r norm .get) := by
    rw [← picked_isSome, h]
    exact fun hs => by cases hs
  have hothers : otherMethods r method norm = [] ↔ ∀ other, ¬HasRoute r norm other := by
    rw [eq_nil_iff_forall_not_mem]
    constructor
    · intro hall other hroute
      obtain ⟨name, hmem⟩ := mem_methodTable (hroute.ne_unknown hr)
      refine hall (other, name) (mem_otherMethods.mpr ⟨hmem, ?_, hroute⟩)
      rintro rfl
      exact hno (.inl hroute)
    · intro hall m hm
      exact hall m.1 (mem_otherMethods.mp hm).2.2
  have hstatus := searchMethods_none_status h
  by_cases hnil : otherMethods r method norm = []
  · rw [if_pos hnil] at hstatus
    have hnone := hothers.mp hnil
    refine ⟨iff_of_false (fun hs => ?_) hno, fun hs => ?_, iff_of_false (fun hs => ?_) ?_,
      iff_of_true hstatus hnone⟩
    · rw [hstatus] at hs
      cases hs
    · rw [hstatus] at hs
      cases hs
    · rw [hstatus] at hs
      cases hs
    · rintro ⟨_, other, _, hroute⟩
      exact hnone other hroute
  · rw [if_neg hnil] at hstatus
    rw [hothers, not_forall] at hnil
    obtain ⟨other, hroute⟩ := hnil
    rw [not_not] at hroute
    refine ⟨iff_of_false (fun hs => ?_) hno, fun hs => ?_, iff_of_true hstatus ⟨hno, other, ?_, hroute⟩,
      iff_of_false (fun hs => ?_) fun hnone => hnone other hroute⟩
    · rw [hstatus] at hs
      cases hs
    · rw [hstatus] at hs
      cases hs
    · rintro rfl
      exact hno (.inl hroute)
    · rw [hstatus] at hs
      cases hs

/-- **When a dispatch says what the tries say.** On a path that normalizes, without
an encoded NUL or a slash to remove, the status tells which methods have a route
and the method's own trie comes first, exactly if the values captured by the
match that is taken fit into its storage. -/
theorem dispatch_classified_iff {r : Router} (hr : r.Built) (method : Method) {path norm : Bytes}
    (henc : ¬bytes "%00" <:+: path) (hnorm : pathNormalize path maxUriSize = some norm)
    (hslash : path.getLast? = some slash → path = [slash]) :
    Classified r method norm (routerDispatch r method path) ↔
      ∀ m, picked r method norm = some m → paramsFit m.params = true := by
  rw [routerDispatch_search henc hnorm hslash]
  cases h : picked r method norm with
  | none => exact iff_of_true (classified_other hr h) fun m hm => by cases hm
  | some m =>
    rw [searchMethods_some h]
    constructor
    · intro hclass m' hm'
      cases hm'
      by_contra hfit
      have hany := picked_isSome.mp (by rw [h]; rfl : (picked r method norm).isSome = true)
      have hfound := hclass.found.mpr hany
      rw [foundMatch, if_neg hfit] at hfound
      cases hfound
    · intro hfit
      exact classified_found h (hfit m rfl)

def longPath : Bytes := slash :: List.replicate 512 97

theorem dispatch_long_param :
    HasRoute (routerHandle routerCreate .get (bytes "/:name") 1).1 longPath .get ∧
    pathNormalize longPath maxUriSize = some longPath ∧
    (routerDispatch (routerHandle routerCreate .get (bytes "/:name") 1).1 .get longPath).status =
    .notFound := by
  refine ⟨?_, ?_, ?_⟩
  · unfold HasRoute
    decide +kernel
  · decide +kernel
  · decide +kernel

theorem dispatch_classified_short :
    Classified (routerHandle routerCreate .get (bytes "/:name") 1).1 .head (bytes "/x")
      (routerDispatch (routerHandle routerCreate .get (bytes "/:name") 1).1 .head (bytes "/x")) := by
  refine (dispatch_classified_iff (.addRoute .create _ _ _ _ _) .head (by decide) (by decide +kernel)
    (by decide)).mpr fun m hm => ?_
  have hpick :
    (picked (routerAddRoute routerCreate .get (bytes "/:name") 1 0 0).1 .head (bytes "/x")).all
      (fun m => paramsFit m.params) = true := by decide +kernel
  rw [hm] at hpick
  exact hpick

end Iohttp
