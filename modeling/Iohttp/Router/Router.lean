/-
# The router

`src/router/ioh_router.c`: a radix trie for each method, the global
middleware, and the dispatch of a path, with its normalization, the fallback
of `HEAD` to `GET` and the search for other methods.
-/
import Iohttp.Http.Request

namespace Iohttp

open Radix (Node Entry Param radixCreate radixInsert radixLookup)

/-- `IOH_MAX_GLOBAL_MIDDLEWARE`. -/
abbrev maxGlobalMiddleware : ℕ := 32

/-- `IOH_MAX_URI_SIZE`. -/
abbrev maxUriSize : ℕ := 4096

/-- `IOH_MAX_PARAM_STORAGE`. -/
abbrev maxParamStorage : ℕ := 512

/-- `struct ioh_router`, without the groups it owns. -/
structure Router where
  trees : Method → Option Node
  globalMw : List Ptr
  globalMw_le : globalMw.length ≤ maxGlobalMiddleware
  errorHandler : Ptr
  notFoundHandler : Ptr
  methodNotAllowedHandler : Ptr

/-- `ioh_router_create`. -/
def routerCreate : Router := ⟨fun _ => none, [], Nat.zero_le _, 0, 0, 0⟩

/-- `router_add_route`. The metadata of the options goes into the trie with
them. -/
def routerAddRoute (r : Router) (method : Method) (pattern : Bytes) (h opts routeMeta : Ptr) :
    Router × ℤ :=
  if h = 0 then (r, -EINVAL)
  else if method = .unknown then (r, -EINVAL)
  else
    let t := radixInsert ((r.trees method).getD radixCreate) pattern ⟨h, opts, routeMeta⟩
    ({ r with trees := fun m => if m = method then some t.1 else r.trees m }, t.2)

/-- `ioh_router_handle`. -/
def routerHandle (r : Router) (method : Method) (pattern : Bytes) (h : Ptr) : Router × ℤ :=
  routerAddRoute r method pattern h 0 0

/-- `ioh_router_use`. -/
def routerUse (r : Router) (mw : Ptr) : Router × ℤ :=
  if mw = 0 then (r, -EINVAL)
  else if h : r.globalMw.length ≥ maxGlobalMiddleware then (r, -ENOSPC)
  else ({ r with globalMw := r.globalMw ++ [mw], globalMw_le := by simp at h ⊢; omega }, 0)

/-- The segment stack of `ioh_path_normalize`, its top first. -/
def normalizeSegments : List Bytes → List Bytes → Option (List Bytes)
  | stack, [] => some stack.reverse
  | stack, seg :: segs =>
    if seg = [] ∨ seg = bytes "." then normalizeSegments stack segs
    else if seg = bytes ".." then
      match stack with
      | [] => none
      | _ :: stack => normalizeSegments stack segs
    else if stack.length ≥ 256 then none
    else normalizeSegments (seg :: stack) segs

/-- The segments written into a buffer of `size` bytes. -/
def joinSegments (size : ℕ) : Bytes → List Bytes → Option Bytes
  | out, [] => some out
  | out, seg :: segs =>
    if out.length + 1 + seg.length ≥ size then none
    else joinSegments size (out ++ slash :: seg) segs

/-- `ioh_path_normalize` into a buffer of `size` bytes; `none` is `-EINVAL`. -/
def pathNormalize (path : Bytes) (size : ℕ) : Option Bytes :=
  if path.head? ≠ some slash ∨ 0 ∈ path then none
  else
    match normalizeSegments [] (path.splitOn slash) with
    | none => none
    | some [] => if size < 2 then none else some [slash]
    | some segs => joinSegments size [] segs

/-- `path_has_encoded_null`. -/
def pathHasEncodedNull : Bytes → Bool
  | [] => false
  | c :: cs => (bytes "%00").isPrefixOf (c :: cs) || pathHasEncodedNull cs

/-! ### Dispatch -/

/-- `ioh_match_status_t`. -/
inductive MatchStatus where
  | found
  | notFound
  | methodNotAllowed
  | redirect
  deriving DecidableEq, Repr

/-- `ioh_route_match_t`. -/
structure RouteMatch where
  status : MatchStatus
  entry : Entry
  params : List Param
  allowedMethods : Bytes
  redirectPath : Bytes
  deriving DecidableEq, Repr

/-- The methods in the order of `ioh_method_t`, with their names. -/
def methodTable : List (Method × Bytes) :=
  [(.get, bytes "GET"), (.post, bytes "POST"), (.put, bytes "PUT"), (.delete, bytes "DELETE"),
    (.patch, bytes "PATCH"), (.head, bytes "HEAD"), (.options, bytes "OPTIONS"),
    (.trace, bytes "TRACE"), (.connect, bytes "CONNECT")]

def lookupMethod (r : Router) (method : Method) (path : Bytes) : Option Radix.Match :=
  (r.trees method).bind fun t =>
    let m := radixLookup t path
    if m.1 = 0 then some m.2 else none

/-- `stabilize_param_values`: the values fit into the storage of the match. -/
def paramsFit (params : List Param) : Bool :=
  (params.map fun p => p.value.length + 1).sum ≤ maxParamStorage

def foundMatch (m : Radix.Match) : RouteMatch :=
  if paramsFit m.params then ⟨.found, m.entry, m.params, [], []⟩ else ⟨.notFound, m.entry, [], [], []⟩

/-- `ioh_router_dispatch`. -/
def routerDispatch (r : Router) (method : Method) (path : Bytes) : RouteMatch :=
  let nothing : RouteMatch := ⟨.notFound, Entry.none, [], [], []⟩
  if path = [] ∨ 0 ∈ path ∨ pathHasEncodedNull path then nothing
  else
    match pathNormalize path maxUriSize with
    | none => nothing
    | some norm =>
      -- a trailing slash, which normalization has removed
      if path.length > 1 ∧ path.getLast? = some slash ∧
          ¬(norm.length > 1 ∧ norm.getLast? = some slash) ∧
          methodTable.any (fun m => (lookupMethod r m.1 norm).isSome) then
        { nothing with status := .redirect, redirectPath := norm }
      else
        match lookupMethod r method norm with
        | some m => foundMatch m
        | none =>
          match if method = .head then lookupMethod r .get norm else none with
          | some m => foundMatch m
          | none =>
            let others := methodTable.filter fun m => m.1 ≠ method ∧ (lookupMethod r m.1 norm).isSome
            if others = [] then nothing
            else
              { nothing with
                status := .methodNotAllowed
                allowedMethods := (bytes ", ").intercalate (others.map (·.2)) }

end Iohttp
