/-
# Virtual hosts and the parameters of a match

`src/router/ioh_vhost.c`, and how `ioh_router_dispatch` hands over what a path
has captured. `stabilize_param_values` copies the values into the storage of
the match, which is a local variable there, and lets the parameters point to
the copies. The match is then returned by value, and its pointers with it: they
point into the local variable, which is dead.

A match is an object of the memory, whose contents here are its `param_storage`.
The other fields are copied with it and are a value.
-/
import Iohttp.Router.Classify
import Iohttp.Lib.Memory

namespace Iohttp

open List

open Memory (Mem overwrite)
open Radix (Param Entry)

/-- `ioh_param_t` of a match: its value is a pointer. -/
structure ParamAt where
  name : Bytes
  value : Memory.Ptr
  valueLen : ℕ
  deriving DecidableEq, Repr

/-- The loop of `stabilize_param_values` on the match in `obj`, from `offset` on.
What it copies is in the buffer of the path, which is alive then. `none` is
`-ENOMEM`. -/
def stabilize (obj : ℕ) : ℕ → List Param → Mem UInt8 → Option (Mem UInt8 × List ParamAt)
  | _, [], m => some (m, [])
  | offset, p :: ps, m =>
    if offset + p.value.length + 1 > maxParamStorage then none
    else
      let m := m.set obj (overwrite ((m obj).getD []) offset (p.value ++ [0]))
      (stabilize obj (offset + p.value.length + 1) ps m).map fun r =>
        (r.1, ⟨p.name, ⟨obj, offset⟩, p.value.length⟩ :: r.2)

/-- `ioh_route_match_t` with its pointers. -/
structure StoredMatch where
  status : MatchStatus
  entry : Entry
  params : List ParamAt
  allowedMethods : Bytes
  redirectPath : Bytes

/-- `ioh_router_dispatch` with its local variable `result` in `obj`. -/
def dispatchAt (r : Router) (method : Method) (path : Bytes) (obj : ℕ) (m : Mem UInt8) :
    Mem UInt8 × StoredMatch :=
  let found := routerDispatch r method path
  -- `memset`
  let m := m.set obj (List.replicate maxParamStorage 0)
  let stored := (stabilize obj 0 found.params m).getD (m, [])
  (stored.1, ⟨found.status, found.entry, stored.2, found.allowedMethods, found.redirectPath⟩)

/-- A match is returned by value: it is copied, and the local variable dies. -/
def returnInto (caller callee : ℕ) (m : Mem UInt8) : Mem UInt8 :=
  (m.set caller ((m callee).getD [])).kill callee

/-! ### Virtual hosts -/

/-- `ioh_vhost_entry_t`. -/
structure VhostEntry where
  host : Bytes
  isWildcard : Bool
  router : Router

/-- `struct ioh_vhost`. -/
structure Vhost where
  entries : List VhostEntry
  defaultRouter : Option Router

/-- `strip_port`. -/
def stripPort (host : Bytes) : Bytes :=
  if host.head? = some 91 then
    match host.findIdx? (· = 93) with
    | some i => host.take (i + 1)
    | none => host
  else if colon ∈ host then (host.rdropWhile (· ≠ colon)).dropLast
  else host

/-- `wildcard_match`: the host ends in the pattern without its star. -/
def wildcardMatch (pattern host : Bytes) : Bool :=
  let suffix := pattern.tail
  suffix.length < host.length && eqIgnoreCase (host.drop (host.length - suffix.length)) suffix

def vhostRouter (v : Vhost) (host : Option Bytes) : Option Router :=
  let matched := host.bind fun h =>
    let h := stripPort (strn 256 h)
    ((v.entries.find? fun e => !e.isWildcard && eqIgnoreCase e.host h).or
      (v.entries.find? fun e => e.isWildcard && wildcardMatch e.host h)).map (·.router)
  matched.or v.defaultRouter

/-- The match of `ioh_vhost_dispatch` without a router. -/
def noMatch : RouteMatch := ⟨.notFound, Entry.none, [], [], []⟩

/-- The objects of the match: the caller's, the one of `ioh_vhost_dispatch`, and
the one of `ioh_router_dispatch`. -/
abbrev callerObj : ℕ := 0
abbrev vhostObj : ℕ := 1
abbrev routerObj : ℕ := 2

/-- How a match is asked for. -/
inductive Caller where
  | direct (r : Router)
  | vhost (v : Vhost) (host : Option Bytes)

/-- What is found, and what the path has captured. -/
def Caller.route (c : Caller) (method : Method) (path : Bytes) : RouteMatch :=
  match c with
  | .direct r => routerDispatch r method path
  | .vhost v host => ((vhostRouter v host).map fun r => routerDispatch r method path).getD noMatch

/-- The match that the caller holds after the call, and the memory. -/
def Caller.dispatch (c : Caller) (method : Method) (path : Bytes) : Mem UInt8 × StoredMatch :=
  match c with
  | .direct r =>
    let d := dispatchAt r method path routerObj Mem.empty
    (returnInto callerObj routerObj d.1, d.2)
  | .vhost v host =>
    let m := Mem.empty.set vhostObj (List.replicate maxParamStorage 0)
    match vhostRouter v host with
    | some r =>
      let d := dispatchAt r method path routerObj m
      (returnInto callerObj vhostObj (returnInto vhostObj routerObj d.1), d.2)
    | none =>
      (returnInto callerObj vhostObj m,
        ⟨noMatch.status, noMatch.entry, [], noMatch.allowedMethods, noMatch.redirectPath⟩)

/-- Every parameter points into the storage of the match in `obj`, reads what was
captured and a NUL, and no two of them overlap. -/
structure Survives (m : Mem UInt8) (obj : ℕ) (params : List ParamAt) (captured : List Param) : Prop where
  reads : List.Forall₂ (fun p c => p.value.obj = obj ∧ p.valueLen = c.value.length ∧
    m.load p.value (c.value.length + 1) = some (c.value ++ [0])) params captured
  apart : params.Pairwise fun p q =>
    p.value.off + p.valueLen < q.value.off ∨ q.value.off + q.valueLen < p.value.off

theorem stabilize_obj {obj : ℕ} :
    ∀ {ps : List Param} {offset : ℕ} {m m' : Mem UInt8} {stored : List ParamAt},
    stabilize obj offset ps m = some (m', stored) → ∀ p ∈ stored, p.value.obj = obj
  | [], _, _, _, _, h => by
    cases h
    simp
  | p :: ps, offset, m, m', stored, h => by
    unfold stabilize at h
    split_ifs at h
    rw [Option.map_eq_some_iff] at h
    obtain ⟨⟨m₁, rest⟩, hrest, he⟩ := h
    cases he
    intro q hq
    rcases mem_cons.mp hq with rfl | hq
    · rfl
    · exact stabilize_obj hrest q hq

theorem dispatchAt_obj (r : Router) (method : Method) (path : Bytes) (obj : ℕ) (m : Mem UInt8) :
    ∀ p ∈ (dispatchAt r method path obj m).2.params, p.value.obj = obj := by
  unfold dispatchAt
  simp only
  cases hrun : stabilize obj 0 (routerDispatch r method path).params
      (m.set obj (List.replicate maxParamStorage 0)) with
  | none => simp
  | some d => exact stabilize_obj hrun

theorem Caller.dispatch_obj (c : Caller) (method : Method) (path : Bytes) :
    ∀ p ∈ (c.dispatch method path).2.params, p.value.obj = routerObj := by
  cases c with
  | direct r => exact dispatchAt_obj r method path routerObj Mem.empty
  | vhost v host =>
    unfold Caller.dispatch
    simp only
    split
    · next r _ => exact dispatchAt_obj r method path routerObj _
    · simp

theorem Caller.dispatch_nil {c : Caller} {method : Method} {path : Bytes}
    (h : (c.route method path).params = []) : (c.dispatch method path).2.params = [] := by
  cases c with
  | direct r =>
    have hnil : (routerDispatch r method path).params = [] := h
    simp [Caller.dispatch, dispatchAt, hnil, stabilize]
  | vhost v host =>
    simp only [Caller.route] at h
    cases hr : vhostRouter v host with
    | none => simp [Caller.dispatch, hr]
    | some r =>
      rw [hr, Option.map_some, Option.getD_some] at h
      simp [Caller.dispatch, hr, dispatchAt, h, stabilize]

/-- **Captured parameters survive a dispatch if and only if there are none.** -/
theorem captured_survive_iff (c : Caller) (method : Method) (path : Bytes) :
    Survives (c.dispatch method path).1 callerObj (c.dispatch method path).2.params
      (c.route method path).params ↔ (c.route method path).params = [] := by
  constructor
  · intro hs
    have hreads := hs.reads
    have hobj := c.dispatch_obj method path
    rcases hp : (c.dispatch method path).2.params with _ | ⟨p, ps⟩
    · rw [hp] at hreads
      exact forall₂_nil_left_iff.mp hreads
    · -- the first parameter is in the router's match
      rw [hp] at hreads hobj
      obtain ⟨q, _, hq, _, _⟩ := forall₂_cons_left_iff.mp hreads
      have hcaller : p.value.obj = callerObj := hq.1
      rw [hobj p mem_cons_self] at hcaller
      cases hcaller
  · intro hnil
    rw [Caller.dispatch_nil hnil, hnil]
    exact ⟨.nil, .nil⟩

/-- A route with two parameters. -/
def userRouter : Router := (routerHandle routerCreate .get (bytes "/users/:uid/posts/:pid") 7).1

/-- Its parameters do not survive. -/
theorem captured_lost :
    ¬∀ (c : Caller) (method : Method) (path : Bytes), (c.route method path).status = .found →
      Survives (c.dispatch method path).1 callerObj (c.dispatch method path).2.params
        (c.route method path).params := by
  intro h
  have hs := h (.direct userRouter) .get (bytes "/users/7/posts/99") (by decide +kernel)
  have hcaller :
    ∀ p ∈ ((Caller.direct userRouter).dispatch .get (bytes "/users/7/posts/99")).2.params.head?,
      p.value.obj ≠ callerObj := by decide +kernel
  have hsome : ((Caller.direct userRouter).dispatch .get (bytes "/users/7/posts/99")).2.params ≠ [] := by
    decide +kernel
  obtain ⟨p, ps, hp⟩ := exists_cons_of_ne_nil hsome
  have hreads := hs.reads
  rw [hp] at hreads hcaller
  obtain ⟨q, _, hq, _, _⟩ := forall₂_cons_left_iff.mp hreads
  exact hcaller p rfl hq.1

end Iohttp
