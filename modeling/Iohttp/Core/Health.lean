/-
# The ready path

`src/core/ioh_health.c`: the handler of the ready path asks
`ioh_server_is_draining`, which is `srv->stopped`. The drain of
`ioh_server_shutdown` takes the flag back for each of its calls of
`ioh_server_run_once`, since that call returns at once when it is set. So in
every walk of the drain the server says that it is ready.

The handler reads the server that runs it: a step of the loop is that of a
server whose handler has the flag of this moment (`Machine.nextHealth`).
-/
import Iohttp.Core.Drain

namespace Iohttp

open Runs

variable {ω τ : Type} {env : Env ω τ} {m m' : Machine ω τ}

/-! ### The endpoints -/

/-- `ioh_health_config_t`, without its checkers. -/
structure HealthConfig where
  enabled : Bool
  healthPath : Bytes
  readyPath : Bytes
  livePath : Bytes
  deriving DecidableEq, Repr

/-- `ioh_health_config_init`. -/
def healthConfigInit : HealthConfig := ⟨true, bytes "/health", bytes "/ready", bytes "/live"⟩

/-- The handlers of `ioh_health.c`, as the router sees them. -/
structure HealthFns where
  health : Ptr
  ready : Ptr
  live : Ptr
  ready_ne : ready ≠ 0
  ready_own : health ≠ ready

/-- `ioh_health_register`; the return value is the first error. -/
def healthRegister (r : Router) (cfg : HealthConfig) (fns : HealthFns) : Router × ℤ :=
  if cfg.enabled then
    let a := routerHandle r .get cfg.healthPath fns.health
    if a.2 < 0 then a
    else
      let b := routerHandle a.1 .get cfg.readyPath fns.ready
      if b.2 < 0 then b
      else
        let c := routerHandle b.1 .get cfg.livePath fns.live
        if c.2 < 0 then c else (c.1, 0)
  else (r, 0)

/-- `ioh_server_is_draining`. -/
def serverIsDraining (s : Srv ω τ) : Bool := s.stopped

/-- `ioh_ctx_json`. -/
def ctxJson (ctx : Ctx ω) (status : ℕ) (json : Bytes) : Ctx ω × ℤ :=
  ({ ctx with resp := respondJson ctx.resp status json }, 0)

/-- `health_handler`. -/
def healthHandler (ctx : Ctx ω) : Ctx ω × ℤ := ctxJson ctx 200 (bytes "\x7b\"status\":\"ok\"\x7d")

/-- `ready_handler`. -/
def readyHandler (draining : Bool) (ctx : Ctx ω) : Ctx ω × ℤ :=
  if draining then ctxJson ctx 503 (bytes "\x7b\"status\":\"unavailable\"\x7d")
  else ctxJson ctx 200 (bytes "\x7b\"status\":\"ready\"\x7d")

/-- The server, whose handlers of the health and the ready path are these. -/
def withHealth (env : Env ω τ) (fns : HealthFns) (draining : Bool) : Env ω τ :=
  { env with
    app.fns.handler := fun h =>
      if h = fns.health then healthHandler
      else if h = fns.ready then readyHandler draining
      else env.app.fns.handler h }

/-- A step of the loop. The handler of the ready path reads the flag of the
server. -/
def Machine.nextHealth (env : Env ω τ) (fns : HealthFns) (m : Machine ω τ) (ev : Event) :
    Option (Machine ω τ) :=
  m.next (withHealth env fns (serverIsDraining m.srv)) ev

/-! ### Readiness -/

/-- The status of the answer to a request for which the router finds handler `h`,
with no middleware before it. -/
def Outcome.answeredBy (env : Env ω τ) (h : Ptr) : Outcome ω τ → Option ℕ
  | .dispatch w req _ =>
    env.router.bind fun router =>
      let m := routerDispatch router req.method req.path.bytes
      if router.globalMw = [] ∧ m.status = .found ∧ m.entry.handler = h then
        some (w.answer env req).ctx.resp.status
      else none
  | _ => none

/-- A request for the ready path that is dispatched now is answered 503. -/
def AnswersUnavailable (env : Env ω τ) (fns : HealthFns) (m : Machine ω τ) : Prop :=
  let env := withHealth env fns (serverIsDraining m.srv)
  ∀ (cqe : Cqe) (c : Conn τ) (status : ℕ), m.Handles .step cqe c → cqe.op.code = .recv →
    (recvOutcome env ((m.srv.retire cqe).focus c) cqe).answeredBy env fns.ready = some status →
    status = 503

/-- The server says that it is draining, to the application and to its clients: a
request for the ready path is answered 503, whatever completion brings it. -/
structure ReadinessOff (env : Env ω τ) (fns : HealthFns) (m : Machine ω τ) : Prop where
  draining : serverIsDraining m.srv = true
  answered : ∀ (w : Work ω τ) (cqe : Cqe) (status : ℕ),
    (recvOutcome (withHealth env fns (serverIsDraining m.srv)) w cqe).answeredBy
      (withHealth env fns (serverIsDraining m.srv)) fns.ready = some status → status = 503
  unavailable : AnswersUnavailable env fns m

theorem respondJson_status (resp : Response) (status : ℕ) (json : Bytes) :
    (respondJson resp status json).status = status := by
  have hset : ∀ (resp : Response) (name value : Bytes), (responseSetHeader resp name value).status =
      resp.status := by
    intro resp name value
    unfold responseSetHeader
    split <;> rfl
  unfold respondJson respond
  split_ifs
  · exact hset ..
  · exact hset ..

theorem chainExecute_nil {σ : Type} (fns : Functions σ) (ctx : σ) {h : Ptr} (hh : h ≠ 0) :
    (chainExecute fns ctx [] [] h).1 = (fns.handler h ctx).1 := by
  unfold chainExecute
  rw [if_neg hh]
  rfl

theorem ready_answer {fns : HealthFns} {draining : Bool} {o : Outcome ω τ} {status : ℕ}
    (h : o.answeredBy (withHealth env fns draining) fns.ready = some status) :
    status = if draining then 503 else 200 := by
  cases o with
  | done w | reject w status msg => cases h
  | dispatch w req total =>
    rw [Outcome.answeredBy, Option.bind_eq_some_iff] at h
    obtain ⟨router, hrouter, h⟩ := h
    simp only at h
    split_ifs at h with hroute
    obtain ⟨hmw, hfound, hh⟩ := hroute
    rw [← Option.some.inj h]
    simp only [Work.answer, answerRequest, hrouter, answerRoute, hfound, hh, hmw, ne_eq, fns.ready_ne,
      not_false_eq_true, and_self, if_true]
    rw [chainExecute_nil _ _ fns.ready_ne]
    simp only [withHealth, fns.ready_own.symm, if_false, if_true, readyHandler]
    cases draining with
    | true | false => exact respondJson_status ..

/-! ### Shutdowns that do not loop -/

/-- A drain begins only if there is no connection, or the timeout of it is 0:
its loop is not entered. -/
def NoDrainLoop (env : Env ω τ) (m : Machine ω τ) (ev : Event) : Prop :=
  m.drains ev = true → m.srv.pool.activeCount = 0 ∨ env.config.keepaliveTimeoutMs = 0
  deriving Decidable

/-- Where the calls stand: nowhere, in a walk that the application has called,
or in a shutdown that is about to return, to the application or to the walk. -/
inductive Calls (ms : ℕ) (m : Machine ω τ) : Prop where
  | idle (stack : m.stack = [])
  | walking (pos n : ℕ) (stack : m.stack = [.batch pos n])
  | stopping (e : ℕ) (stack : m.stack = [.drain e]) (calm : m.srv.pool.activeCount = 0 ∨ ms = 0)
  | stoppingWalk (e pos n : ℕ) (stack : m.stack = [.drain e, .batch pos n])
      (calm : m.srv.pool.activeCount = 0 ∨ ms = 0)

theorem not_draining (h : m.srv.pool.activeCount = 0 ∨ env.config.keepaliveTimeoutMs = 0) (e : ℕ) :
    ¬m.Draining env e := by
  rintro ⟨hactive, he⟩
  omega

theorem onAccept_stopped (s : Srv ω τ) (cqe : Cqe) : (onAccept env s cqe).stopped = s.stopped := by
  have hfd : (if 0 ≤ cqe.res then acceptFd env s cqe.res else s).stopped = s.stopped := by
    split_ifs
    · unfold acceptFd
      split <;> rfl
    · rfl
  have harm : ∀ s : Srv ω τ, (armMultishotAccept env s).stopped = s.stopped := by
    intro s
    unfold armMultishotAccept
    split_ifs <;> rfl
  unfold onAccept
  simp only
  generalize (if 0 ≤ cqe.res then acceptFd env s cqe.res else s) = s₁ at hfd
  split_ifs
  · exact hfd
  · exact (harm _).trans hfd
  · exact hfd

variable {s s' : Srv ω τ} {cqe : Cqe} {n pos : ℕ}

theorem onConn_stopped (h : onConn env s cqe = some s') : s'.stopped = s.stopped := by
  unfold onConn at h
  split at h
  · cases h
    rfl
  · rw [Option.bind_eq_some_iff] at h
    obtain ⟨c, _, h⟩ := h
    rw [Option.map_eq_some_iff] at h
    obtain ⟨w, _, rfl⟩ := h
    rfl

theorem handle_stopped (h : handle env s cqe = some s') : s'.stopped = s.stopped := by
  unfold handle at h
  split at h
  · cases h
    exact onAccept_stopped (s.retire cqe) cqe
  · cases h
    rfl
  · cases h
    rfl
  · have hconn := onConn_stopped h
    exact hconn

theorem rearmSignal_stopped (s : Srv ω τ) : (rearmSignal env s).stopped = s.stopped := by
  unfold rearmSignal
  split_ifs <;> rfl

theorem Calls.advance (ms : ℕ) (hs : m.stack = [.batch pos n]) : Calls ms m.advance := by
  unfold Machine.advance
  rw [hs]
  exact .walking _ _ rfl

theorem Calls.shutdownDone (ms : ℕ) (env : Env ω τ) (hs : m.stack = [.batch pos n]) :
    Calls ms (m.shutdownDone env) ∧ (m.shutdownDone env).srv.stopped = m.srv.stopped := by
  rw [shutdownDone_batch hs, advance_srv]
  exact ⟨.advance ms hs, rearmSignal_stopped m.srv⟩

/-- The flag is set by a shutdown, and stays set. -/
def KeepsFlag (m m' : Machine ω τ) (ev : Event) : Prop :=
  m.srv.stopped = true ∨ m.drains ev = true → m'.srv.stopped = true

theorem Calls.handleAt (hs : m.stack = [.batch pos n]) (hcur : m.current = some cqe)
    (hok : NoDrainLoop env m .step) (hm : m.handleAt env pos cqe = some m') :
    Calls env.config.keepaliveTimeoutMs m' ∧ KeepsFlag m m' .step := by
  unfold Machine.handleAt at hm
  by_cases hc : cqe.op.code = .signal
  · simp only [hc, if_true, Option.some.injEq] at hm
    subst hm
    unfold Machine.onSignal
    split_ifs with hq ht
    · obtain ⟨hcalls, hstop⟩ := Calls.shutdownDone env.config.keepaliveTimeoutMs env
        (m := { m with
          handled := m.handled ++ [pos]
          srv := shutdownImmediate env { m.srv with ring := m.srv.ring.retire cqe } }) hs
      exact ⟨hcalls, fun _ => hstop⟩
    · -- the drain that begins here does not loop
      have hdrains : m.drains .step = true := by simp [Machine.drains, hcur, hc, ht]
      exact ⟨.stoppingWalk 0 pos n (congrArg (Frame.drain 0 :: ·) hs) (hok hdrains), fun _ => rfl⟩
    · refine ⟨.advance _ hs, ?_⟩
      rintro (hstop | hdrains)
      · rw [advance_srv]
        exact (rearmSignal_stopped _).trans hstop
      · simp [Machine.drains, hcur, hc] at hdrains
        exact absurd hdrains ht
  · simp only [hc, if_false, Option.map_eq_some_iff] at hm
    obtain ⟨s, hh, rfl⟩ := hm
    refine ⟨.advance _ hs, ?_⟩
    rintro (hstop | hdrains)
    · rw [advance_srv]
      exact (handle_stopped hh).trans hstop
    · simp [Machine.drains, hcur, hc] at hdrains

section

variable (h : Calls env.config.keepaliveTimeoutMs m)

include h

theorem Calls.step (hok : NoDrainLoop env m .step) (hm : m.step env = some m') :
    Calls env.config.keepaliveTimeoutMs m' ∧ KeepsFlag m m' .step := by
  have hnone : m.current = none → m.drains .step = false := by
    intro hcur
    simp [Machine.drains, hcur]
  unfold Machine.step at hm
  cases h with
  | idle stack =>
    simp only [stack] at hm
    cases hm
  | walking pos n stack =>
    simp only [stack] at hm
    split_ifs at hm with hend
    · cases hm
      refine ⟨.idle rfl, ?_⟩
      rintro (hstop | hdrains)
      · exact hstop
      · rw [hnone (by simp [Machine.current, stack, hend])] at hdrains
        cases hdrains
    · rw [Option.bind_eq_some_iff] at hm
      obtain ⟨cqe, hc, hm⟩ := hm
      exact Calls.handleAt stack (by simp only [Machine.current, stack]; exact hc) hok hm
  | stopping e stack calm =>
    simp only [stack, if_neg (not_draining calm e)] at hm
    cases hm
    refine ⟨.idle rfl, ?_⟩
    rintro (hstop | hdrains)
    · exact hstop
    · rw [hnone (by simp [Machine.current, stack])] at hdrains
      cases hdrains
  | stoppingWalk e pos n stack calm =>
    simp only [stack, if_neg (not_draining calm e)] at hm
    cases hm
    obtain ⟨hcalls, hstop⟩ := Calls.shutdownDone env.config.keepaliveTimeoutMs env
      (m := { m with srv := forceClose m.srv, stack := [.batch pos n] }) rfl
    refine ⟨hcalls, ?_⟩
    rintro (hs | hdrains)
    · exact hstop.trans hs
    · rw [hnone (by simp [Machine.current, stack])] at hdrains
      cases hdrains

/-- A call of `ioh_server_run_once` comes from the application, and only if the
server is not stopped. -/
theorem Calls.call {r : CallResult} (hm : m.call env r = some m') :
    Calls env.config.keepaliveTimeoutMs m' ∧ m.srv.stopped = false := by
  unfold Machine.call at hm
  cases h with
  | idle stack =>
    simp only [stack] at hm
    split_ifs at hm with hstop
    refine ⟨?_, by simpa using hstop⟩
    cases r with
    | submitFails =>
      cases hm
      exact .idle (by simp only [Machine.ret, stack])
    | waitFails =>
      simp only [Machine.enter] at hm
      split_ifs at hm
      cases hm
      exact .idle (by simp only [Machine.ret, stack])
    | ready =>
      simp only [Machine.enter] at hm
      split_ifs at hm
      cases hm
      exact .walking _ _ (by rw [stack])
  | walking pos n stack => simp [stack] at hm
  | stopping e stack calm => simp [stack, not_draining calm e] at hm
  | stoppingWalk e pos n stack calm => simp [stack, not_draining calm e] at hm

/-- **The flag stays**, with every event. -/
theorem Calls.next {ev : Event} (hok : NoDrainLoop env m ev) (hm : m.next env ev = some m') :
    Calls env.config.keepaliveTimeoutMs m' ∧ KeepsFlag m m' ev := by
  cases ev with
  | post cqe =>
    simp only [Machine.next] at hm
    split_ifs at hm
    cases hm
    refine ⟨?_, fun hor => hor.resolve_right (by simp [Machine.drains])⟩
    cases h with
    | idle stack => exact .idle stack
    | walking pos n stack => exact .walking pos n stack
    | stopping e stack calm => exact .stopping e stack calm
    | stoppingWalk e pos n stack calm => exact .stoppingWalk e pos n stack calm
  | call r =>
    obtain ⟨hcalls, hrun⟩ := h.call hm
    refine ⟨hcalls, fun hor => ?_⟩
    have hstop := hor.resolve_right (by simp [Machine.drains])
    rw [hrun] at hstop
    cases hstop
  | shutdown mode =>
    simp only [Machine.next] at hm
    split_ifs at hm with hs
    rw [not_not] at hs
    cases mode with
    | immediate =>
      cases hm
      exact ⟨.idle hs, fun _ => rfl⟩
    | drain =>
      cases hm
      exact ⟨.stopping 0 rfl (hok rfl), fun _ => rfl⟩
  | step => exact h.step hok hm

end

section

variable {env : Env ω τ} {fns : HealthFns} {maxConns : ℕ} {listenFd signalFd : ℤ} {world : ω}
  {m m₀ m₁ : Machine ω τ} {ev : Event}

theorem Calls.nextHealth (h : Calls env.config.keepaliveTimeoutMs m) (hok : NoDrainLoop env m ev)
    (hm : m.nextHealth env fns ev = some m₁) : Calls env.config.keepaliveTimeoutMs m₁ ∧
    KeepsFlag m m₁ ev := by
  have hsame : Calls (withHealth env fns (serverIsDraining m.srv)).config.keepaliveTimeoutMs m := h
  exact hsame.next hok hm

/-- **Readiness turns off**, in every run in which no drain enters its loop:
from the shutdown on, the flag is set, and the ready path is answered 503. -/
theorem readiness_off
    (hrun : Reaches (Machine.nextHealth env fns) (NoDrainLoop env)
      (Machine.start maxConns listenFd signalFd world) m)
    (hev : m.drains ev = true) (hok : NoDrainLoop env m ev) (hbegin : m.nextHealth env fns ev = some m₀)
    (h : Reaches (Machine.nextHealth env fns) (NoDrainLoop env) m₀ m₁) : ReadinessOff env fns m₁ := by
  have hm : Calls env.config.keepaliveTimeoutMs m :=
    hrun.invariant (Calls env.config.keepaliveTimeoutMs) (.idle rfl) fun m ev m' hi hok hn =>
      (hi.nextHealth hok hn).1
  obtain ⟨hm₀, hflag⟩ := hm.nextHealth hok hbegin
  have hstop : serverIsDraining m₁.srv = true := by
    refine (h.invariant (fun m => Calls env.config.keepaliveTimeoutMs m ∧ m.srv.stopped = true)
      ⟨hm₀, hflag (.inr hev)⟩ fun m ev m' hi hok hn => ?_).2
    obtain ⟨hcalls, hkeeps⟩ := hi.1.nextHealth hok hn
    exact ⟨hcalls, hkeeps (.inl hi.2)⟩
  have hanswered : ∀ (w : Work ω τ) (cqe : Cqe) (status : ℕ),
      (recvOutcome (withHealth env fns (serverIsDraining m₁.srv)) w cqe).answeredBy
        (withHealth env fns (serverIsDraining m₁.srv)) fns.ready = some status → status = 503 := by
    intro w cqe status hanswer
    rw [ready_answer hanswer, hstop]
    rfl
  exact ⟨hstop, hanswered, fun cqe c status _ _ => hanswered _ cqe status⟩

end

/-- The three handlers. -/
def healthFns : HealthFns := ⟨1, 2, 3, by decide, by decide⟩

/-- A server with the health endpoints. -/
def healthEnv : Env Unit Unit :=
  { plainEnv with router := some (healthRegister routerCreate healthConfigInit healthFns).1 }

/-- The same server, whose drain does not wait. -/
def hastyEnv : Env Unit Unit := { healthEnv with config.keepaliveTimeoutMs := 0 }

def readyBytes : Bytes := bytes "GET /ready HTTP/1.1\r\nHost: a\r\n\r\n"

/-- It is shut down with a client connected, and the shutdown returns. The request
that the client has sent for the ready path would be answered 503. -/
theorem readiness_off_returned :
    ∃ (m m₀ m₁ : Machine Unit Unit) (c : Conn Unit),
      Reaches (Machine.nextHealth hastyEnv healthFns) (NoDrainLoop hastyEnv) (Machine.start 4 3 9 ()) m ∧
      m.srv.pool.activeCount = 1 ∧ m.srv.pool.conns[0]? = some c ∧
      m.nextHealth hastyEnv healthFns (.shutdown .drain) = some m₀ ∧
      Reaches (Machine.nextHealth hastyEnv healthFns) (NoDrainLoop hastyEnv) m₀ m₁ ∧ m₁.stack = [] ∧
      (recvOutcome (withHealth hastyEnv healthFns (serverIsDraining m₁.srv)) (m.srv.focus c)
        (recvCqe 2 readyBytes)).answeredBy (withHealth hastyEnv healthFns (serverIsDraining m₁.srv))
          healthFns.ready = some 503 ∧
      ReadinessOff hastyEnv healthFns m₁ := by
  obtain ⟨m, hm, hone, c, hc, m₀, hbegin, hrun⟩ := exists_reaches
    (Machine.nextHealth hastyEnv healthFns) (NoDrainLoop hastyEnv) (Machine.start 4 3 9 ())
    connectEvents
    (fun m => m.srv.pool.activeCount = 1 ∧ ∃ c ∈ m.srv.pool.conns[0]?,
      ∃ m₀ ∈ m.nextHealth hastyEnv healthFns (.shutdown .drain),
        RunsTo (Machine.nextHealth hastyEnv healthFns) (NoDrainLoop hastyEnv) (fun m₁ => m₁.stack = [] ∧
          ((recvOutcome (withHealth hastyEnv healthFns (serverIsDraining m₁.srv)) (m.srv.focus c)
            (recvCqe 2 readyBytes)).answeredBy (withHealth hastyEnv healthFns (serverIsDraining m₁.srv))
              healthFns.ready).isSome) m₀ [.step])
    (by decide +kernel)
  obtain ⟨m₁, hend, hstack, hsome⟩ := exists_reaches _ _ _ _ _ hrun
  obtain ⟨status, hanswer⟩ := Option.isSome_iff_exists.mp hsome
  have hoff := readiness_off hm rfl (fun _ => .inr rfl) hbegin hend
  rw [hoff.answered _ _ _ hanswer] at hanswer
  exact ⟨m, m₀, m₁, c, hm, hone, hc, hbegin, hend, hstack, hanswer, hoff⟩

/-- The receive is about to be handled for the first connection, and is answered
200 by the ready path. -/
def SaysReady (env : Env ω τ) (fns : HealthFns) (m : Machine ω τ) (cqe : Cqe) : Prop :=
  let env := withHealth env fns (serverIsDraining m.srv)
  m.current = some cqe ∧ findConnById m.srv.pool cqe.op.id = some 0 ∧ ∃ c ∈ m.srv.pool.conns[0]?,
    (recvOutcome env ((m.srv.retire cqe).focus c) cqe).answeredBy env fns.ready = some 200

instance (env : Env ω τ) (fns : HealthFns) (m : Machine ω τ) (cqe : Cqe) :
    Decidable (SaysReady env fns m cqe) := by
  unfold SaysReady
  infer_instance

/-- **A server that drains says that it is ready**, to a client that asks in the
drain. -/
theorem ready_while_draining :
    ¬∀ (env : Env Unit Unit) (fns : HealthFns) (maxConns : ℕ) (listenFd signalFd : ℤ)
      (m m₀ m₁ : Machine Unit Unit) (ev : Event),
      Reaches (Machine.nextHealth env fns) (fun _ _ => True)
      (Machine.start maxConns listenFd signalFd ()) m →
      m.drains ev = true → m.nextHealth env fns ev = some m₀ →
      Reaches (Machine.nextHealth env fns) (fun _ _ => True) m₀ m₁ → AnswersUnavailable env fns m₁ := by
  intro h
  obtain ⟨m, hm, m₀, hbegin, hrun⟩ := exists_reaches (Machine.nextHealth healthEnv healthFns)
    (fun _ _ => True) (Machine.start 4 3 9 ()) connectEvents
    (fun m => ∃ m₀ ∈ m.nextHealth healthEnv healthFns (.shutdown .drain),
      RunsTo (Machine.nextHealth healthEnv healthFns) (fun _ _ => True)
        (SaysReady healthEnv healthFns · (recvCqe 2 readyBytes)) m₀ (comes 2 readyBytes))
    (by decide +kernel)
  obtain ⟨m₁, h₁, hcur, hi, c, hc, hready⟩ := exists_reaches _ _ _ _ _ hrun
  have := h healthEnv healthFns 4 3 9 m m₀ m₁ _ hm rfl hbegin h₁ _ c 200 ⟨rfl, hcur, 0, hi, hc⟩
    rfl hready
  cases this

end Iohttp
