/-
# Failures of handlers

What the client sees of a negative result of a handler or of middleware. No
path calls the error handler of the router. `dispatch_request` sends the
response as it stands, which is a 200 unless the application has set another
status; the callbacks of HTTP/2 and HTTP/3 send nothing.
-/
import Iohttp.Core.Sent
import Iohttp.Http.Session

namespace Iohttp

variable {ω τ : Type}

/-- What happens for a request: a handler or middleware is called, the error
handler is called with a result, or a response is sent. -/
inductive Report where
  | called (fn : Ptr)
  | errorHandler (fn : Ptr) (error : ℤ)
  | sent (status : ℕ)
  deriving DecidableEq, Repr

def Report.isErrorHandler : Report → Bool
  | .errorHandler _ _ => true
  | _ => false

/-- A request on its path: `dispatch_request` with the connection it works on, a
frame of an HTTP/2 session, or the end of a stream of an HTTP/3 session. -/
inductive Dispatched (ω τ : Type) where
  | http1 (env : Env ω τ) (w : Work ω τ) (req : Request)
  | http2 (s : H2Session ω) (now : ℤ) (frame : H2Frame)
  | http3 (s : Session ω) (streamId : ℕ)

/-- The server of an HTTP/1 request, with the router. -/
def withRouter (env : Env ω τ) (router : Router) : Env ω τ := { env with router := some router }

/-- The result of the application's functions, if they are called. On HTTP/1 it
is what the router, its middleware and its handlers return; the function of
a session may use the router in any way. -/
def Dispatched.result (router : Router) : Dispatched ω τ → Option ℤ
  | .http1 env w req => some (w.answer (withRouter env router) req).rc
  | .http2 s _ f => if f.completes then (s.base.result f.streamId).map (·.rc) else none
  | .http3 s streamId => (s.result streamId).map (·.rc)

def Submission.status (m : Submission) : ℕ :=
  ((m.fields.head?.map (·.value)).getD []).foldl (fun n c => 10 * n + (c.toNat - 48)) 0

def newSubmissions (s s' : Session ω) : List Report :=
  (s'.submitted.drop s.submitted.length).map fun m => .sent m.status

/-- What happens for the request. -/
def Dispatched.events (router : Router) : Dispatched ω τ → List Report
  | .http1 env w req =>
    -- `dispatch_request` never asks for the router's error handler
    (w.answer (withRouter env router) req).trace.map .called ++
      ((sentResponse (withRouter env router) w req).map fun resp => .sent resp.status).toList
  | .http2 s now f => newSubmissions s.base (onFrameRecv s now f).base
  | .http3 s streamId => newSubmissions s (h3EndStream s streamId)

/-- The failure is reported: the error handler, if there is one, is called once
with the result, the client is sent a response, and every response it is
sent has a status of 400 or more. -/
structure Reported (router : Router) (error : ℤ) (events : List Report) : Prop where
  handler : router.errorHandler ≠ 0 →
    events.filter Report.isErrorHandler = [.errorHandler router.errorHandler error]
  answered : ∃ status, .sent status ∈ events
  status : ∀ status, .sent status ∈ events → 400 ≤ status

/-- The application has reported the failure itself: the request came by
HTTP/1, the router has no error handler, and what the functions have left in
the response is an error that fits and can be sent. -/
def Dispatched.SelfReported (router : Router) : Dispatched ω τ → Prop
  | .http1 env w req =>
    let resp := (w.answer (withRouter env router) req).ctx.resp
    router.errorHandler = 0 ∧ 400 ≤ resp.status ∧ (responseBytes resp).length ≤ 8192 ∧
      CanSend (withRouter env router) w (responseBytes resp)
  | .http2 _ _ _ | .http3 _ _ => False

theorem newSubmissions_of_failed {submit : ℕ → Response → Option Submission} {s : Session ω}
    {streamId : ℕ} {rc : ℤ} (hr : (s.result streamId).map (·.rc) = some rc) (hrc : rc < 0) :
    newSubmissions s (answerStream submit s streamId) = [] := by
  obtain ⟨r, hres, rfl⟩ := Option.map_eq_some_iff.mp hr
  rw [newSubmissions, answerStream_submitted hres hrc, List.drop_length, List.map_nil]

theorem not_reported_nil (router : Router) (rc : ℤ) : ¬Reported router rc [] := by
  rintro ⟨_, ⟨status, h⟩, _⟩
  cases h

/-- **A failure reaches the client only if the application reports it itself.**
On every path, for a request whose functions return a negative result, the
error handler is called and the client is sent an error exactly if the
request came by HTTP/1, the router has no error handler, and the functions
have left an error response that fits into 8192 bytes and can be sent. -/
theorem failure_reported_iff (router : Router) (d : Dispatched ω τ) {rc : ℤ}
    (hr : d.result router = some rc) (hrc : rc < 0) :
    Reported router rc (d.events router) ↔ d.SelfReported router := by
  cases d with
  | http1 env w req =>
    simp only [Dispatched.events, Dispatched.SelfReported]
    cases hs : sentResponse (withRouter env router) w req with
    | none =>
      refine iff_of_false ?_ ?_
      · rintro ⟨_, ⟨status, h⟩, _⟩
        simp at h
      · rintro ⟨_, _, hfit, hc⟩
        rw [sentResponse_eq_some.mpr ⟨rfl, hfit, hc⟩] at hs
        cases hs
    | some resp =>
      obtain ⟨rfl, hfit, hc⟩ := sentResponse_eq_some.mp hs
      have hnone : ((w.answer (withRouter env router) req).trace.map Report.called).filter
          Report.isErrorHandler = [] := by
        simp [List.filter_map, Function.comp_def, Report.isErrorHandler]
      constructor
      · rintro ⟨hh, _, hst⟩
        refine ⟨?_, hst _ (by simp), hfit, hc⟩
        by_contra hne
        have := hh hne
        rw [List.filter_append, hnone] at this
        simp [Report.isErrorHandler] at this
      · rintro ⟨hh, hst, _⟩
        refine ⟨fun hne => absurd hh hne, ⟨_, by simp; rfl⟩, fun status hmem => ?_⟩
        simp at hmem
        omega
  | http2 s now f =>
    refine iff_of_false ?_ (fun h => h)
    simp only [Dispatched.result] at hr
    split_ifs at hr with hf
    have hnot : f.type ≠ .rstStream := by
      intro ht
      simp [H2Frame.completes, ht] at hf
    simp only [Dispatched.events, onFrameRecv, hnot, if_false, hf, if_true]
    rw [newSubmissions_of_failed hr hrc]
    exact not_reported_nil router rc
  | http3 s streamId =>
    refine iff_of_false ?_ (fun h => h)
    simp only [Dispatched.events, h3EndStream]
    rw [newSubmissions_of_failed hr hrc]
    exact not_reported_nil router rc

/-- A server whose handlers set a status and return an error. -/
def failingEnv (status : ℕ) : Env Unit Unit :=
  { plainEnv with
    app.fns.handler := fun _ ctx => ({ ctx with resp := { ctx.resp with status := status } }, - EIO) }

/-- The router of `oneRouteEnv`. -/
def oneRoute : Router := (routerHandle routerCreate .get (bytes "/x") 1).1

/-- A handler that fails with a response of its own. -/
theorem failure_reported_500 :
    Reported oneRoute (- EIO)
      (Dispatched.events oneRoute (.http1 (failingEnv 500) idleWork (getRequest (bytes "/x")))) := by
  have hr : Dispatched.result oneRoute (.http1 (failingEnv 500) idleWork (getRequest (bytes "/x"))) =
      some (- EIO) := by decide +kernel
  refine (failure_reported_iff oneRoute _ hr (by decide)).mpr ?_
  exact ⟨rfl, by decide +kernel, by decide +kernel, rfl, ⟨_, rfl⟩, rfl⟩

/-- A handler that only returns an error: the client is sent a 200. -/
theorem failure_answered_200 :
    ¬∀ (router : Router) (d : Dispatched Unit Unit) (rc : ℤ), d.result router = some rc → rc < 0 →
      Reported router rc (d.events router) := by
  intro h
  obtain ⟨_, _, hst⟩ := h oneRoute (.http1 (failingEnv 200) idleWork (getRequest (bytes "/x"))) (- EIO)
    (by decide +kernel) (by decide)
  exact absurd (hst 200 (by decide +kernel)) (by decide)

end Iohttp
