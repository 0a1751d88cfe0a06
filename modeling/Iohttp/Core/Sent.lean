/-
# The response that is sent

What `dispatch_request` of `src/core/ioh_server.c` gives to `arm_send`. It is
the response that the application's functions have left, and it goes out if
it fits into the buffer of 8192 bytes, TLS takes it and the ring has an entry.

The verdict of the router reaches the client only in part. A redirect is
answered with 404, as every other status of a match that is neither `found`
nor `methodNotAllowed`, and the methods that are allowed stay in the match.
-/
import Iohttp.Core.InFlight
import Iohttp.Router.Classify

namespace Iohttp

variable {ω τ : Type} {env : Env ω τ}

/-! ### Sending -/

/-- `arm_send` gets through: nothing is being sent, TLS takes the bytes and the
ring has an entry. -/
def CanSend (env : Env ω τ) (w : Work ω τ) (data : Bytes) : Prop :=
  w.conn.sendActive = false ∧ Takes env w data ∧ env.sqe w.ring.asked = true

/-- A step has put a send behind the operations that were prepared. -/
def StartsSend (w w' : Work ω τ) : Prop :=
  ∃ op ∈ w'.ring.prepared.drop w.ring.prepared.length, op.code = .send
  deriving Decidable

/-- The response that `dispatch_request` sends, if it sends one. -/
def sentResponse (env : Env ω τ) (w : Work ω τ) (req : Request) : Option Response :=
  if StartsSend w (dispatchRequest env w req).1 then some (w.answer env req).ctx.resp else none

variable {w w' : Work ω τ} {data : Bytes} {resp : Response}

theorem encrypt_congr (ht : w'.conn.tls = w.conn.tls) (hd : w'.conn.tlsDone = w.conn.tlsDone)
    (data : Bytes) : (encrypt env w' data).2 = (encrypt env w data).2 := by
  unfold encrypt
  rw [ht, hd]
  cases w.conn.tls with
  | none => rfl
  | some t =>
    simp only
    split_ifs <;> rfl

theorem startSend_prepared (w : Work ω τ) (data : Bytes) :
    (startSend env w data).1.ring.prepared =
      if env.sqe w.ring.asked then w.ring.prepared ++ [w.opFor .send 0 data.length false]
      else w.ring.prepared := by
  unfold startSend
  simp only
  split_ifs <;> rfl

theorem startSend_sendBuf (w : Work ω τ) (data : Bytes) :
    (startSend env w data).1.conn.sendBuf = data := by
  unfold startSend
  simp only
  split_ifs <;> rfl

/-- `arm_send` that gets through: the send is in the ring, with the bytes that
TLS has given. -/
theorem armSend_of_canSend (h : CanSend env w data) :
    ∃ out, (encrypt env w data).2 = .ok out ∧ (armSend env w data).2 = 0 ∧
      (armSend env w data).1.conn.sendBuf = out ∧
      ∃ op, op.code = .send ∧ (armSend env w data).1.ring.prepared = w.ring.prepared ++ [op] := by
  obtain ⟨ha, ⟨out, ho⟩, hs⟩ := h
  have hr := encrypt_ring env w data
  refine ⟨out, ho, ?_⟩
  unfold armSend
  rw [if_neg (by simp [ha])]
  rcases he : encrypt env w data with ⟨w₁, e | out'⟩
  · rw [he] at ho
    cases ho
  · rw [he] at ho hr
    cases ho
    simp only at hr ⊢
    rw [startSend_ret, startSend_sendBuf, startSend_prepared, hr, if_pos hs, if_pos hs]
    exact ⟨rfl, rfl, _, rfl, rfl⟩

theorem armSend_of_not_canSend (h : ¬CanSend env w data) :
    (armSend env w data).2 < 0 ∧ (armSend env w data).1.ring.prepared = w.ring.prepared := by
  have hr := encrypt_ring env w data
  unfold armSend
  by_cases ha : w.conn.sendActive = true
  · rw [if_pos ha]
    exact ⟨show -EBUSY < 0 by decide, rfl⟩
  · rw [if_neg ha]
    rcases he : encrypt env w data with ⟨w₁, e | out⟩
    · rw [he] at hr
      exact ⟨encrypt_error (congrArg Prod.snd he), congrArg Ring.prepared hr⟩
    · rw [he] at hr
      simp only at hr ⊢
      have hs : ¬env.sqe w.ring.asked = true :=
        fun hs => h ⟨by simpa using ha, ⟨out, by rw [he]⟩, hs⟩
      rw [startSend_ret, startSend_prepared, hr, if_neg hs, if_neg hs]
      exact ⟨by decide, rfl⟩

theorem armClose_prepared (w : Work ω τ) :
    ∀ op ∈ (armClose env w).ring.prepared.drop w.ring.prepared.length, op.code ≠ .send := by
  unfold armClose
  simp only
  split_ifs
  · simp [Work.prep, Work.ask, Work.setConn, Work.note, Ring.prepare, Ring.ask, Work.opFor]
  · simp [connFree, Work.ask, Work.note, Ring.ask]

theorem sendAnswer_starts_iff (w : Work ω τ) (ans : Answer ω) :
    StartsSend w (sendAnswer env w ans).1 ↔
      (responseBytes ans.ctx.resp).length ≤ 8192 ∧ CanSend env w (responseBytes ans.ctx.resp) := by
  unfold sendAnswer StartsSend
  rw [serializeResponse_eq (by decide)]
  by_cases hfit : (responseBytes ans.ctx.resp).length ≤ 8192
  · rw [if_pos hfit]
    simp only [hfit, true_and]
    by_cases hc : CanSend env w (responseBytes ans.ctx.resp)
    · obtain ⟨out, _, hret, _, op, hop, hp⟩ := armSend_of_canSend hc
      simp only [hret, lt_self_iff_false, if_false, iff_true, hc]
      exact ⟨op, by simp [Work.setKeepAlive, Work.setConn, hp], hop⟩
    · obtain ⟨hret, hp⟩ := armSend_of_not_canSend hc
      simp only [hret, if_true, iff_false, hc]
      rintro ⟨op, hop, hcode⟩
      exact armClose_prepared _ op (by rwa [hp]) hcode
  · rw [if_neg hfit]
    simp [hfit, Work.setKeepAlive, Work.setConn]

theorem canSend_congr (ht : w'.conn.tls = w.conn.tls)
    (hd : w'.conn.tlsDone = w.conn.tlsDone) (ha : w'.conn.sendActive = w.conn.sendActive)
    (hr : w'.ring = w.ring) (data : Bytes) : CanSend env w' data ↔ CanSend env w data := by
  unfold CanSend Takes
  rw [encrypt_congr ht hd, ha, hr]

/-- The connection when the response is sent: the route's timeouts are set. -/
def Work.answered (env : Env ω τ) (w : Work ω τ) (req : Request) : Work ω τ :=
  ((w.note (.dispatched w.conn.serial req)).setConn
    (routeTimeouts w.conn (w.answer env req).opts)).tick (w.answer env req).ctx.world

theorem dispatchRequest_eq (w : Work ω τ) (req : Request) :
    dispatchRequest env w req = sendAnswer env (w.answered env req) (w.answer env req) := rfl

theorem answered_canSend (w : Work ω τ) (req : Request) (data : Bytes) :
    CanSend env (w.answered env req) data ↔ CanSend env w data := by
  have hr : (w.answered env req).ring = w.ring := rfl
  refine canSend_congr ?_ ?_ ?_ hr data <;>
    · simp only [Work.answered, Work.tick, Work.setConn]
      cases (w.answer env req).opts <;> rfl

/-- **A response is sent if it fits and can be sent.** -/
theorem sentResponse_eq_some {req : Request} :
    sentResponse env w req = some resp ↔
      (w.answer env req).ctx.resp = resp ∧ (responseBytes resp).length ≤ 8192 ∧
        CanSend env w (responseBytes resp) := by
  have hstart : StartsSend w (dispatchRequest env w req).1 ↔
      (responseBytes (w.answer env req).ctx.resp).length ≤ 8192 ∧
        CanSend env w (responseBytes (w.answer env req).ctx.resp) := by
    rw [dispatchRequest_eq, ← answered_canSend w req]
    exact sendAnswer_starts_iff (w.answered env req) (w.answer env req)
  unfold sentResponse
  split_ifs with h
  · rw [hstart] at h
    constructor
    · intro he
      cases he
      exact ⟨rfl, h⟩
    · rintro ⟨rfl, _⟩
      rfl
  · rw [hstart] at h
    simp only [false_iff, not_and]
    rintro rfl hfit hc
    exact h ⟨hfit, hc⟩

/-! ### The verdict of the router -/

def HasHeader (resp : Response) (name value : Bytes) : Prop :=
  ∃ h ∈ resp.headers, eqIgnoreCase h.name name = true ∧ h.value = value
  deriving Decidable

/-- The response tells the client what the router has found. -/
def Honours (m : RouteMatch) (resp : Response) : Prop :=
  match m.status with
  | .found => True
  | .redirect =>
    300 ≤ resp.status ∧ resp.status < 400 ∧ HasHeader resp (bytes "Location") m.redirectPath
  | .methodNotAllowed => resp.status = 405 ∧ HasHeader resp (bytes "Allow") m.allowedMethods
  | .notFound => resp.status = 404

/-- There is nothing to tell but 404. If the path has a canonical form and
ends in a slash, no method has a route for it; otherwise the method has one,
or GET has one for HEAD, or no method has one. -/
def PlainVerdict (router : Router) (method : Method) (path : Bytes) : Prop :=
  pathHasEncodedNull path = false → ∀ norm, pathNormalize path maxUriSize = some norm →
    (∀ m ∈ methodTable, ¬HasRoute router norm m.1) ∨
      ((path.getLast? = some slash → path = [slash]) ∧
        (HasRoute router norm method ∨ method = .head ∧ HasRoute router norm .get))

/-- The verdict is `found` or `notFound`. -/
def RouteMatch.IsPlain (m : RouteMatch) : Prop := m.status = .found ∨ m.status = .notFound

theorem foundMatch_isPlain (m : Radix.Match) : (foundMatch m).IsPlain := by
  unfold foundMatch
  split_ifs
  · exact .inl rfl
  · exact .inr rfl

theorem searchMethods_isPlain_iff (r : Router) (method : Method) (norm : Bytes) :
    (searchMethods r method norm).IsPlain ↔
      (∀ m ∈ methodTable, ¬HasRoute r norm m.1) ∨ HasRoute r norm method ∨
        method = .head ∧ HasRoute r norm .get := by
  unfold searchMethods
  cases hm : lookupMethod r method norm with
  | some m => exact iff_of_true (foundMatch_isPlain m) (.inr (.inl (by simp [HasRoute, hm])))
  | none =>
    cases hh : if method = .head then lookupMethod r .get norm else none with
    | some m =>
      rw [Option.ite_none_right_eq_some] at hh
      exact iff_of_true (foundMatch_isPlain m) (.inr (.inr ⟨hh.1, by simp [HasRoute, hh.2]⟩))
    | none =>
      have hno : ¬(HasRoute r norm method ∨ method = .head ∧ HasRoute r norm .get) := by
        rintro (h | ⟨rfl, h⟩)
        · simp [HasRoute, hm] at h
        · rw [if_pos rfl] at hh
          simp [HasRoute, hh] at h
      have hothers : (methodTable.filter fun m => m.1 ≠ method ∧ (lookupMethod r m.1 norm).isSome) = [] ↔
          ∀ m ∈ methodTable, ¬HasRoute r norm m.1 := by
        rw [List.filter_eq_nil_iff]
        refine forall₂_congr fun m _ => ?_
        simp only [ne_eq, decide_eq_true_eq, not_and, HasRoute]
        refine ⟨fun h hs => ?_, fun h _ => h⟩
        refine h (fun he => ?_) hs
        rw [he, hm] at hs
        cases hs
      rw [or_iff_left hno, ← hothers]
      simp only
      split_ifs with h
      · exact iff_of_true (.inr rfl) h
      · refine iff_of_false ?_ h
        rintro (hf | hf) <;> cases hf

theorem plainVerdict_iff (router : Router) (method : Method) (path : Bytes) :
    PlainVerdict router method path ↔ (routerDispatch router method path).IsPlain := by
  have hbad : path = [] ∨ 0 ∈ path → pathNormalize path maxUriSize = none := by
    rintro (rfl | h0)
    · rfl
    · rw [pathNormalize, if_pos (.inr h0)]
  unfold routerDispatch PlainVerdict
  simp only
  by_cases hnull : path = [] ∨ 0 ∈ path ∨ pathHasEncodedNull path = true
  · rw [if_pos hnull]
    refine iff_of_true (fun henc norm hn => ?_) (.inr rfl)
    rcases hnull with h | h | h
    · rw [hbad (.inl h)] at hn
      cases hn
    · rw [hbad (.inr h)] at hn
      cases hn
    · rw [henc] at h
      cases h
  · rw [if_neg hnull]
    simp only [not_or, Bool.not_eq_true] at hnull
    cases hn : pathNormalize path maxUriSize with
    | none => exact iff_of_true (by simp) (.inr rfl)
    | some norm =>
      have hroot : ¬(norm.length > 1 ∧ norm.getLast? = some slash) := by
        rintro ⟨hlen, hlast⟩
        simp [pathNormalize_last hn hlast] at hlen
      have hany : methodTable.any (fun m => (lookupMethod router m.1 norm).isSome) = true ↔
          ¬∀ m ∈ methodTable, ¬HasRoute router norm m.1 := by
        rw [List.any_eq_true]
        push Not
        rfl
      simp only [hnull.2.2, true_implies, Option.some.injEq, forall_eq']
      by_cases hred : path.length > 1 ∧ path.getLast? = some slash ∧
          ¬(norm.length > 1 ∧ norm.getLast? = some slash) ∧
          methodTable.any (fun m => (lookupMethod router m.1 norm).isSome) = true
      · rw [if_pos hred]
        refine iff_of_false ?_ (by rintro (h | h) <;> cases h)
        rintro (h | ⟨hs, _⟩)
        · exact hany.mp hred.2.2.2 h
        · simp [hs hred.2.1] at hred
      · rw [if_neg hred]
        refine Iff.trans ?_ (searchMethods_isPlain_iff router method norm).symm
        refine or_congr_right' fun hsome => and_iff_right fun hs => ?_
        by_contra hne
        refine hred ⟨?_, hs, hroot, hany.mpr hsome⟩
        cases path with
        | nil => cases hs
        | cons c cs =>
          cases cs with
          | nil =>
            cases hs
            exact absurd rfl hne
          | cons d ds => simp

theorem ctxError_headers (id : Bytes) (status : ℕ) (message : Bytes) :
    (ctxError (responseSetHeader responseInit (bytes "X-Request-Id") id) status message).headers =
      [⟨bytes "X-Request-Id", strn maxHeaderSize id⟩,
        ⟨bytes "Content-Type", bytes "application/json"⟩] := by
  have hid : (responseSetHeader responseInit (bytes "X-Request-Id") id).headers =
      [⟨bytes "X-Request-Id", strn maxHeaderSize id⟩] := rfl
  have hct : strn maxHeaderSize (bytes "Content-Type") = bytes "Content-Type" := by decide +kernel
  have hjson : strn maxHeaderSize (bytes "application/json") = bytes "application/json" := by
    decide +kernel
  have hne : eqIgnoreCase (bytes "X-Request-Id") (bytes "Content-Type") = false := by decide +kernel
  have hset : ∀ resp : Response, resp.headers = [⟨bytes "X-Request-Id", strn maxHeaderSize id⟩] →
      (responseSetHeader resp (bytes "Content-Type") (bytes "application/json")).headers =
        [⟨bytes "X-Request-Id", strn maxHeaderSize id⟩,
          ⟨bytes "Content-Type", bytes "application/json"⟩] := by
    intro resp h
    rw [responseSetHeader, h, hct, hjson, replaceHeader, hne]
    simp [replaceHeader, responseAddHeader, h, hct, hjson]
  unfold ctxError respondJson respond
  simp only
  split_ifs <;> exact hset _ hid

theorem ctxError_status (resp : Response) (status : ℕ) (message : Bytes) :
    (ctxError resp status message).status = status := by
  have hset : ∀ (r : Response) (name value : Bytes), (responseSetHeader r name value).status =
      r.status := by
    intro r name value
    unfold responseSetHeader
    split <;> rfl
  unfold ctxError respondJson respond
  simp only
  split_ifs <;> exact hset _ _ _

/-- **Only 404 tells the client what the router has found.** Without handlers
of the application for 404 and 405, the response that is sent for a request
honours the verdict exactly if the verdict is neither a redirect nor a list
of allowed methods: no method has a route for the canonical path, or the path
has no trailing slash and the method has a route. -/
theorem verdict_honoured_iff (env : Env ω τ) (router : Router) (hr : env.router = some router)
    (h404 : router.notFoundHandler = 0) (h405 : router.methodNotAllowedHandler = 0) (w : Work ω τ)
    (req : Request) {resp : Response} (hs : sentResponse env w req = some resp) :
    Honours (routerDispatch router req.method req.path.bytes) resp ↔
      PlainVerdict router req.method req.path.bytes := by
  obtain ⟨hresp, _⟩ := sentResponse_eq_some.mp hs
  simp only [Work.answer, hr, answerRequest, answerRoute, handlerOr, h404, h405, ne_eq,
    not_true_eq_false,
    if_false] at hresp
  rw [plainVerdict_iff]
  unfold Honours RouteMatch.IsPlain
  cases hm : (routerDispatch router req.method req.path.bytes).status with
  | found => simp
  | notFound =>
    simp only [hm, reduceCtorEq, false_and, if_false] at hresp
    simp [← hresp, ctxError_status]
  | methodNotAllowed =>
    simp only [hm, reduceCtorEq, false_and, if_false, if_true] at hresp
    refine iff_of_false ?_ (by simp)
    have hid : eqIgnoreCase (bytes "X-Request-Id") (bytes "Allow") = false := by decide +kernel
    have hct : eqIgnoreCase (bytes "Content-Type") (bytes "Allow") = false := by decide +kernel
    rintro ⟨_, h, hmem, hname, _⟩
    rw [← hresp, ctxError_headers] at hmem
    simp only [List.mem_cons, List.not_mem_nil, or_false] at hmem
    rcases hmem with rfl | rfl
    · exact absurd hname (by simp [hid])
    · exact absurd hname (by simp [hct])
  | redirect =>
    simp only [hm, reduceCtorEq, false_and, if_false] at hresp
    refine iff_of_false ?_ (by simp)
    rintro ⟨_, hlt, _⟩
    rw [← hresp, ctxError_status] at hlt
    omega

/-- A server with one route, `GET /x`. -/
def oneRouteEnv : Env Unit Unit :=
  { plainEnv with router := some (routerHandle routerCreate .get (bytes "/x") 1).1 }

/-- A connection on which a request has come in. -/
def idleWork : Work Unit Unit :=
  ⟨{ freeConn with state := .httpActive, id := 1, fd := 5 }, ⟨4, [], []⟩, 1, 0, [], ()⟩

def getRequest (path : Bytes) : Request :=
  ⟨.get, ⟨4, path⟩, none, [], [], [], 1, 1, true, 0, none, none⟩

/-- A path without a route: 404. -/
theorem verdict_honoured_missing :
    ∃ resp, sentResponse oneRouteEnv idleWork (getRequest (bytes "/y")) = some resp ∧
      Honours (routerDispatch (routerHandle routerCreate .get (bytes "/x") 1).1 .get (bytes "/y"))
      resp := by
  have hs : (sentResponse oneRouteEnv idleWork (getRequest (bytes "/y"))).isSome = true := by
    decide +kernel
  obtain ⟨resp, h⟩ := Option.isSome_iff_exists.mp hs
  refine ⟨resp, h,
    (verdict_honoured_iff oneRouteEnv _ rfl rfl rfl idleWork (getRequest (bytes "/y")) h).mpr ?_⟩
  rw [plainVerdict_iff, RouteMatch.IsPlain]
  decide +kernel

/-- The router redirects `/x/` to `/x`, and the client gets 404. -/
theorem redirect_answered_404 :
    ¬∀ (env : Env Unit Unit) (router : Router), env.router = some router → router.notFoundHandler = 0 →
      router.methodNotAllowedHandler = 0 → ∀ (w : Work Unit Unit) (req : Request) (resp : Response),
        sentResponse env w req = some resp →
          Honours (routerDispatch router req.method req.path.bytes) resp := by
  intro h
  obtain ⟨resp, hs⟩ := Option.isSome_iff_exists.mp
    (show (sentResponse oneRouteEnv idleWork (getRequest (bytes "/x/"))).isSome = true by decide +kernel)
  have hm : (routerDispatch (routerHandle routerCreate .get (bytes "/x") 1).1 .get
      (bytes "/x/")).status = .redirect := by decide +kernel
  have hstatus : (sentResponse oneRouteEnv idleWork (getRequest (bytes "/x/"))).map (·.status) =
      some 404 := by
    decide +kernel
  have hh := h oneRouteEnv _ rfl rfl rfl idleWork (getRequest (bytes "/x/")) resp hs
  rw [hs] at hstatus
  simp only [Honours, getRequest, hm] at hh
  simp only [Option.map_some, Option.some.injEq] at hstatus
  omega

end Iohttp
