/-
# Answering a request

`dispatch_request` of `src/core/ioh_server.c` up to the response: the request
id, the route, its middleware and handler. What the application's functions
do is a parameter; `ω` is whatever they keep between requests.

A route that was registered through a group runs without the middleware of
the group: `dispatch_request` passes only the router's own middleware to the
chain.
-/
import Iohttp.Router.Group
import Iohttp.Http.Response

namespace Iohttp

/-- `ioh_route_opts_t`, as far as the server reads it. -/
structure RouteOpts where
  bodyTimeoutMs : ℕ
  keepaliveTimeoutMs : ℕ
  deriving DecidableEq, Repr

/-- `ioh_ctx_t`: the request with the memory its pointers point into, the
response, and the rest of the application's state. -/
structure Ctx (ω : Type) where
  mem : Bytes
  req : Request
  resp : Response
  world : ω

/-- The application: the functions behind the pointers, `on_request` if it is
set, and the route options. -/
structure App (ω : Type) where
  fns : Functions (Ctx ω)
  onRequest : Option (Ctx ω → Ctx ω × ℤ)
  opts : Ptr → RouteOpts

variable {ω : Type}

/-- `%08x`. -/
def hex8 (r : UInt32) : Bytes :=
  (List.range 8).reverse.map fun i =>
    let d := r.toNat / 16 ^ i % 16
    if d < 10 then (48 + d).toUInt8 else (87 + d).toUInt8

/-- The four calls of `arc4random`. -/
structure Random where
  r1 : UInt32
  r2 : UInt32
  r3 : UInt32
  r4 : UInt32
  deriving DecidableEq, Repr

/-- The id in the response: the pointer that the request's header gives, or a
new one. -/
def requestId (mem : Bytes) (req : Request) (rnd : Random) : Bytes :=
  match requestHeader mem req (bytes "X-Request-Id") with
  | some p => p
  | none => hex8 rnd.r1 ++ hex8 rnd.r2 ++ hex8 rnd.r3 ++ hex8 rnd.r4

/-- What a request has led to: the context with the response, the result, the
functions that were called and the options of the route. -/
structure Answer (ω : Type) where
  ctx : Ctx ω
  rc : ℤ
  trace : List Ptr
  opts : Option RouteOpts

/-- A handler that is called by itself, if it is set, or an error. -/
def handlerOr (app : App ω) (h : Ptr) (status : ℕ) (message : Bytes) (ctx : Ctx ω) :
    Ctx ω × ℤ × List Ptr :=
  if h ≠ 0 then
    let r := app.fns.handler h ctx
    (r.1, r.2, [h])
  else ({ ctx with resp := ctxError ctx.resp status message }, 0, [])

def answerRoute (app : App ω) (router : Router) (m : RouteMatch) (ctx : Ctx ω) : Ctx ω × ℤ × List Ptr :=
  if m.status = .found ∧ m.entry.handler ≠ 0 then
    let ctx := { ctx with req := { ctx.req with params := m.params } }
    -- no group middleware is passed to the chain
    chainExecute app.fns ctx router.globalMw [] m.entry.handler
  else if m.status = .methodNotAllowed then
    handlerOr app router.methodNotAllowedHandler 405 (bytes "Method Not Allowed") ctx
  else handlerOr app router.notFoundHandler 404 (bytes "Not Found") ctx

def matchOpts (app : App ω) (m : RouteMatch) : Option RouteOpts :=
  if m.status = .found ∧ m.entry.metadata ≠ 0 then some (app.opts m.entry.metadata) else none

/-- `dispatch_request`, up to the response. -/
def answerRequest (app : App ω) (router : Option Router) (mem : Bytes) (req : Request) (rnd : Random)
    (world : ω) : Answer ω :=
  let ctx : Ctx ω :=
    ⟨mem, req, responseSetHeader responseInit (bytes "X-Request-Id") (requestId mem req rnd), world⟩
  match router with
  | some router =>
    let m := routerDispatch router req.method req.path.bytes
    let r := answerRoute app router m ctx
    ⟨r.1, r.2.1, r.2.2, matchOpts app m⟩
  | none =>
    match app.onRequest with
    | some f =>
      let r := f ctx
      ⟨r.1, r.2, [], none⟩
    | none => ⟨{ ctx with resp := ctxError ctx.resp 503 (bytes "No handler configured") }, 0, [], none⟩

/-! ### The middleware of a group -/

def ResolvesTo (router : Router) (req : Request) (route : GroupRoute) : Prop :=
  let m := routerDispatch router req.method req.path.bytes
  m.status = .found ∧ m.entry.handler = route.handler

instance (router : Router) (req : Request) (route : GroupRoute) :
    Decidable (ResolvesTo router req route) := by
  unfold ResolvesTo
  infer_instance

/-- What runs for a request that resolves to a group's route: the router's
middleware and the handler. -/
theorem answerRequest_trace {app : App ω} {reg : Registry} (hreg : HasHandlers reg)
    (hmw : ∀ mw ∈ reg.router.globalMw, CallsNextOnce (app.fns.middleware mw)) {route : GroupRoute}
    (hr : route ∈ reg.routes) {req : Request} (hreq : ResolvesTo reg.router req route) (mem : Bytes)
    (rnd : Random) (world : ω) :
    (answerRequest app (some reg.router) mem req rnd world).trace =
      reg.router.globalMw ++ [route.handler] := by
  obtain ⟨hs, hh⟩ := hreq
  have hne : (routerDispatch reg.router req.method req.path.bytes).entry.handler ≠ 0 := by
    rw [hh]
    exact hreg route hr
  simp only [answerRequest, answerRoute, hs, ne_eq, hne, not_false_eq_true, and_self, if_true]
  rw [chainExecute_trace hne reg.router.globalMw_le (by simp) (by simpa using hmw), hh, List.append_nil]

/-- **Group middleware runs only where there is none.** After any
registrations, for a request that resolves to a route of a group, the
functions that run are those of the router, of the ancestors of the group
and of the group exactly if the group and its ancestors have no middleware. -/
theorem group_middleware_runs_iff (app : App ω) (ops : List RegOp)
    (hmw : ∀ mw ∈ (registerAll ops).router.globalMw, CallsNextOnce (app.fns.middleware mw))
    (route : GroupRoute) (hr : route ∈ (registerAll ops).routes) {req : Request}
    (hreq : ResolvesTo (registerAll ops).router req route) (mem : Bytes) (rnd : Random) (world : ω) :
    (answerRequest app (some (registerAll ops).router) mem req rnd world).trace =
        (registerAll ops).router.globalMw ++
          groupMiddleware (registerAll ops).groups route.group ++ [route.handler] ↔
      groupMiddleware (registerAll ops).groups route.group = [] := by
  rw [answerRequest_trace (registerAll_handlers ops) hmw hr hreq]
  constructor
  · intro h
    simpa using h.symm
  · intro h
    rw [h, List.append_nil]

/-- An application whose middleware only calls `next` and whose handlers do
nothing. -/
def plainApp : App Unit :=
  ⟨⟨fun _ ctx => .next ctx .ret, fun _ ctx => (ctx, 0)⟩, none, fun _ => ⟨0, 0⟩⟩

theorem plainApp_callsNextOnce (mw : Ptr) : CallsNextOnce (plainApp.fns.middleware mw) :=
  fun ctx => ⟨ctx, .ret, rfl, fun c rc => ⟨c, rc, rfl⟩⟩

/-- A request for `/api/x`. -/
def apiRequest : Request :=
  ⟨.get, ⟨4, bytes "/api/x"⟩, none, [], [], [], 1, 1, true, 0, none, none⟩

/-- With a route in a subgroup and global middleware only, all of it runs. -/
theorem group_middleware_runs_api :
    let ops := [.routerUse 5, .routerGroup (bytes "/api"), .subgroup [0] (bytes "/x"),
      .groupGet [0, 0] [] 1]
    (answerRequest plainApp (some (registerAll ops).router) [] apiRequest ⟨0, 0, 0, 0⟩ ()).trace =
        (registerAll ops).router.globalMw ++
          groupMiddleware (registerAll ops).groups [0, 0] ++ [1] ↔
      groupMiddleware (registerAll ops).groups [0, 0] = [] :=
  group_middleware_runs_iff plainApp _ (fun mw _ => plainApp_callsNextOnce mw)
    ⟨[0, 0], .get, [], 1⟩ (by decide +kernel) (by decide +kernel) [] ⟨0, 0, 0, 0⟩ ()

/-- A group with one middleware and one route: a request for the route does
not run the middleware. -/
theorem group_middleware_skipped :
    ¬∀ (app : App Unit) (ops : List RegOp), (∀ mw, CallsNextOnce (app.fns.middleware mw)) →
      ∀ route ∈ (registerAll ops).routes, ∀ req : Request,
        ResolvesTo (registerAll ops).router req route → ∀ (mem : Bytes) (rnd : Random),
          (answerRequest app (some (registerAll ops).router) mem req rnd ()).trace =
            (registerAll ops).router.globalMw ++
              groupMiddleware (registerAll ops).groups route.group ++ [route.handler] := by
  intro h
  have := h plainApp
    [.routerGroup (bytes "/api"), .groupUse [0] 7, .groupGet [0] (bytes "/x") 1]
    plainApp_callsNextOnce ⟨[0], .get, bytes "/x", 1⟩ (by decide +kernel) apiRequest (by decide +kernel)
    [] ⟨0, 0, 0, 0⟩
  revert this
  decide +kernel

end Iohttp
