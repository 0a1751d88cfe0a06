/-
# Timers on the loop of a server

`ioh_server_loop` gives the application the loop that `ioh_server_run_once`
drives, and `ioh_loop_add_timer` puts the timeouts of timers into its ring. A
timeout of a connection has the id of the connection as its user data, and a
timeout of a timer has its slot; the operation is `IOH_OP_TIMEOUT` for both.
`ioh_server_run_once` takes every timeout for one of a connection: it knows
nothing of timers. So no callback is ever called, and a timer that expires closes
the connection in use whose id is its slot, if there is one.
-/
import Iohttp.Core.Timers
import Iohttp.Core.Queue

namespace Iohttp

open Runs List

variable {ω τ : Type}

/-! ### The server and its timers -/

/-- What `ioh_server_run_once` has done with a completion: the connection in use
with the id that the completion carries, the connections that were closed, and the
timers whose callback was called. -/
structure Handling where
  cqe : Cqe
  found : Option ℕ
  closed : List ℕ
  called : List Timer
  deriving DecidableEq, Repr

/-- The server, the timers of its loop, the timeouts that were prepared for them,
and what has been done with completions. The entries are in the ring of the
server. -/
structure LoopServer (ω τ : Type) where
  machine : Machine ω τ
  loop : TimerLoop
  timeouts : List (Op × Timer)
  handlings : List Handling

/-- The server runs, or the application calls the loop. -/
inductive LoopServerEvent where
  | server (ev : Event)
  | addTimer (ms : ℕ) (cb data : Ptr)
  | cancelTimer (id : ℤ)
  deriving DecidableEq, Repr

/-- The connections that are closed between two traces. -/
def closedIn (before after : List Act) : List ℕ :=
  (after.drop before.length).filterMap fun
    | .closed k _ => some k
    | _ => none

/-- The timers whose callback is called between two logs. -/
def calledIn (before after : List TimerAct) : List Timer :=
  (after.drop before.length).filterMap fun
    | .fired _ u => some u
    | _ => none

/-- The connection in use with this id. -/
def Srv.namesake (s : Srv ω τ) (id : ℕ) : Option ℕ :=
  (findConnById s.pool id).bind fun i => (s.pool.conns[i]?).map Conn.serial

/-- What was done with a completion between two states. -/
def LoopServer.handling (s s' : LoopServer ω τ) (cqe : Cqe) : Handling where
  cqe := cqe
  found := s.machine.srv.namesake cqe.op.id
  closed := closedIn s.machine.srv.trace s'.machine.srv.trace
  called := calledIn s.loop.log s'.loop.log

/-- The server has gone on. The timers are not touched. -/
def LoopServer.run (s : LoopServer ω τ) (ev : Event) (m : Machine ω τ) : LoopServer ω τ :=
  let s' := { s with machine := m }
  match ev, s.machine.current with
  | .step, some cqe => { s' with handlings := s.handlings ++ [s.handling s' cqe] }
  | _, _ => s'

/-- An entry of a timer in the ring: `IOH_ENCODE_USERDATA(slot, IOH_OP_TIMEOUT)`
or `IOH_ENCODE_USERDATA(slot, IOH_OP_CANCEL)`. -/
def TimerSqe.op (L : TimerLoop) (seq : ℕ) : TimerSqe → Op
  | .timeout t => ⟨.timeout, t.slot, seq, t.serial, 0, (L.timers t.slot).timer.ms, false⟩
  | .cancel i => ⟨.cancel, i, seq, 0, 0, 0, false⟩

/-- The timeout of an entry, and the timer that it was prepared for. -/
def TimerSqe.owned (L : TimerLoop) (seq : ℕ) (e : TimerSqe) : Option (Op × Timer) :=
  e.timeout?.map fun t => (e.op L seq, (L.timers t.slot).timer)

/-- The result says that `io_uring_get_sqe` was called. -/
def Asks (rc : ℤ) : Prop := 0 ≤ rc ∨ rc = -ENOSPC
  deriving Decidable

/-- A call of the loop has returned: what it has prepared is in the ring of the
server. -/
def LoopServer.called (s : LoopServer ω τ) (r : TimerLoop × ℤ) : LoopServer ω τ :=
  let ring := s.machine.srv.ring
  let seq := ring.asked
  let ring := if Asks r.2 then ring.ask else ring
  { s with
    machine.srv.ring := (r.1.prepared.map (TimerSqe.op r.1 seq)).foldl Ring.prepare ring
    loop := { r.1 with prepared := [] }
    timeouts := s.timeouts ++ r.1.prepared.filterMap (TimerSqe.owned r.1 seq) }

/-- The application may call the loop at any time: between the calls of
`ioh_server_run_once`, or from a handler. Nothing is asked of the kernel about
timeouts. -/
def LoopServer.next (env : Env ω τ) (s : LoopServer ω τ) : LoopServerEvent → Option (LoopServer ω τ)
  | .server ev => (s.machine.next env ev).map (s.run ev)
  | .addTimer ms cb data =>
    some (s.called (loopAddTimer s.loop ms cb data (env.sqe s.machine.srv.ring.asked)))
  | .cancelTimer id => some (s.called (loopCancelTimer s.loop id (env.sqe s.machine.srv.ring.asked)))

/-- The server before its first call. -/
def LoopServer.start (maxConns : ℕ) (listenFd signalFd : ℤ) (world : ω) : LoopServer ω τ :=
  ⟨.start maxConns listenFd signalFd world, loopCreate, [], []⟩

def Cqe.Expired (cqe : Cqe) : Prop := cqe.res = -ETIME ∨ cqe.res = 0
  deriving Decidable

def Handling.Expires (h : Handling) (s : LoopServer ω τ) (u : Timer) : Prop :=
  (h.cqe.op, u) ∈ s.timeouts ∧ h.cqe.Expired
  deriving Decidable

/-- Timers and connections do not interfere: the expiry of a timer closes no
connection and calls the callback of the timer, and the timeout of a connection
calls none. -/
structure NoInterference (s : LoopServer ω τ) : Prop where
  expiry : ∀ h ∈ s.handlings, ∀ u, h.Expires s u → h.closed = [] ∧ h.called = [u]
  linked : ∀ h ∈ s.handlings, h.cqe.op.code = .timeout → (∀ u, (h.cqe.op, u) ∉ s.timeouts) →
    h.called = []

theorem closedIn_self (trace : List Act) : closedIn trace trace = [] := by
  rw [closedIn, drop_length]
  rfl

theorem closedIn_closed (trace : List Act) (k : ℕ) (fd : ℤ) :
    closedIn trace (trace ++ [.closed k fd]) = [k] := by
  rw [closedIn, drop_left]
  rfl

theorem calledIn_self (log : List TimerAct) : calledIn log log = [] := by
  rw [calledIn, drop_length]
  rfl

theorem armClose_trace (env : Env ω τ) (w : Work ω τ) :
    (armClose env w).trace = w.trace ++ [.closed w.conn.serial w.conn.fd] := by
  unfold armClose
  split_ifs <;> rfl

/-- **A timeout that was not cancelled closes the connection with its id**, whoever
has submitted it. -/
theorem handle_timeout {env : Env ω τ} {s s' : Srv ω τ} {cqe : Cqe} (hc : cqe.op.code = .timeout)
    (hres : cqe.res ≠ -ECANCELED) (h : handle env s cqe = some s') :
    closedIn s.trace s'.trace = (s.namesake cqe.op.id).toList := by
  simp only [handle, hc, onConn] at h
  unfold Srv.namesake
  cases hf : findConnById s.pool cqe.op.id with
  | none =>
    rw [hf] at h
    cases h
    exact closedIn_self s.trace
  | some i =>
    obtain ⟨c, hi, _⟩ := findConnById_some hf
    rw [hf] at h
    simp only [hi, Option.bind_some, completeConn, hc, onTimeout, if_neg hres, Option.map_some,
      Option.some.injEq] at h ⊢
    rw [← h]
    change closedIn s.trace (armClose env _).trace = [c.serial]
    rw [armClose_trace]
    exact closedIn_closed s.trace c.serial c.fd

/-! ### The run -/

/-- What holds between two events: no callback has been called, and every timeout
that was not cancelled has closed the connection with its id. -/
structure Unheard (s : LoopServer ω τ) : Prop where
  called : ∀ h ∈ s.handlings, h.called = []
  closed : ∀ h ∈ s.handlings, h.cqe.op.code = .timeout → h.cqe.res ≠ -ECANCELED →
    h.closed = h.found.toList
  codes : ∀ p ∈ s.timeouts, p.1.code = .timeout

theorem Unheard.called_loop {s : LoopServer ω τ} (h : Unheard s) (r : TimerLoop × ℤ) :
    Unheard (s.called r) := by
  refine ⟨h.called, h.closed, fun p hp => ?_⟩
  obtain hp | hp := mem_append.mp hp
  · exact h.codes p hp
  · obtain ⟨e, _, he⟩ := mem_filterMap.mp hp
    obtain ⟨t, ht, rfl⟩ := Option.map_eq_some_iff.mp he
    cases e with
    | timeout t' => rfl
    | cancel i => cases ht

theorem Unheard.run {env : Env ω τ} {s : LoopServer ω τ} (h : Unheard s) {ev : Event} {m : Machine ω τ}
    (hm : s.machine.next env ev = some m) : Unheard (s.run ev m) := by
  unfold LoopServer.run
  split
  · next cqe hcur =>
    refine ⟨fun x hx => ?_, fun x hx hc hres => ?_, h.codes⟩
    · obtain hx | hx := mem_append.mp hx
      · exact h.called x hx
      · rw [mem_singleton.mp hx]
        exact calledIn_self s.loop.log
    · obtain hx | hx := mem_append.mp hx
      · exact h.closed x hx hc hres
      · rw [mem_singleton.mp hx] at hc hres ⊢
        have hc' : cqe.op.code = .timeout := hc
        exact handle_timeout hc hres (step_handle hcur (by simp [hc']) hm)
  · exact ⟨h.called, h.closed, h.codes⟩

/-- **One event.** -/
theorem Unheard.next {env : Env ω τ} {s s' : LoopServer ω τ} {e : LoopServerEvent} (h : Unheard s)
    (hn : s.next env e = some s') : Unheard s' := by
  cases e with
  | server ev =>
    obtain ⟨m, hm, rfl⟩ := Option.map_eq_some_iff.mp hn
    exact h.run hm
  | addTimer ms cb data =>
    cases hn
    exact h.called_loop _
  | cancelTimer id =>
    cases hn
    exact h.called_loop _

section

variable {env : Env ω τ} {maxConns : ℕ} {listenFd signalFd : ℤ} {world : ω} {s : LoopServer ω τ}

theorem unheard_of_run (h : Reaches (LoopServer.next env) (fun _ _ => True)
    (LoopServer.start maxConns listenFd signalFd world) s) : Unheard s :=
  h.invariant Unheard
  ⟨by simp [LoopServer.start], by simp [LoopServer.start], by simp [LoopServer.start]⟩
    fun _ _ _ hi _ hn => hi.next hn

/-- **Timers and connections interfere as soon as a timer expires.** In every run in
which `ioh_server_run_once` drives the loop, timers and connections do not interfere
if and only if no expiry of a timer has been handled: the callback is not called. -/
theorem no_interference_iff (h : Reaches (LoopServer.next env) (fun _ _ => True)
    (LoopServer.start maxConns listenFd signalFd world) s) :
    NoInterference s ↔ ∀ x ∈ s.handlings, ∀ u, ¬x.Expires s u := by
  have hs := unheard_of_run h
  constructor
  · intro hno x hx u he
    have hcalled := (hno.expiry x hx u he).2
    rw [hs.called x hx] at hcalled
    cases hcalled
  · intro hnone
    exact ⟨fun x hx u he => absurd he (hnone x hx u), fun x hx _ _ => hs.called x hx⟩

end

/-- A client connects, as connection 1. The application adds two timers, in slots
0 and 1, and the entries are submitted. -/
def timerEvents : List LoopServerEvent :=
  connectEvents.map .server ++ [.addTimer 1000 7 0, .addTimer 2000 7 0, .server (.call .waitFails)]

/-- A completion is posted and handled. -/
def completionEvents (cqe : Cqe) : List LoopServerEvent :=
  [.server (.post cqe), .server (.call .ready), .server .step]

/-- The timeout of the connection, with two timers in the ring. -/
theorem no_interference_linked : ∃ s : LoopServer Unit Unit,
    Reaches (LoopServer.next plainEnv) (fun _ _ => True) (LoopServer.start 4 3 4 ()) s ∧
    s.timeouts.length = 2 ∧
      s.handlings.map Handling.closed = [[], [0]] ∧ NoInterference s := by
  obtain ⟨s, hs, htwo, hclosed, hnone⟩ := exists_reaches (LoopServer.next plainEnv) (fun _ _ => True)
    (LoopServer.start 4 3 4 ())
    (timerEvents ++ completionEvents ⟨firstTimeout, -ETIME, [], false, 0⟩)
    (fun s => s.timeouts.length = 2 ∧ s.handlings.map Handling.closed = [[], [0]] ∧
      ∀ x ∈ s.handlings, ∀ p ∈ s.timeouts, x.cqe.op ≠ p.1)
    (by decide +kernel)
  exact ⟨s, hs, htwo, hclosed, (no_interference_iff hs).mpr fun x hx u he => hnone x hx _ he.1 rfl⟩

/-- **A timer closes a connection.** The timer in slot 1 expires while connection 1
waits for a request: the connection is closed, and the callback is not called. -/
theorem timer_closes_connection : ∃ s : LoopServer Unit Unit,
    Reaches (LoopServer.next plainEnv) (fun _ _ => True) (LoopServer.start 4 3 4 ()) s ∧
      (∃ x ∈ s.handlings, ∃ u, x.Expires s u ∧ x.closed = [0] ∧ x.called = []) ∧ ¬NoInterference s := by
  obtain ⟨s, hs, x, hx, p, _, he, hclosed, hcalled⟩ := exists_reaches (LoopServer.next plainEnv)
    (fun _ _ => True) (LoopServer.start 4 3 4 ())
    (timerEvents ++ completionEvents ⟨⟨.timeout, 1, 5, 1, 0, 2000, false⟩, -ETIME, [], false, 0⟩)
    (fun s => ∃ x ∈ s.handlings, ∃ p ∈ s.timeouts, x.Expires s p.2 ∧ x.closed = [0] ∧ x.called = [])
    (by decide +kernel)
  refine ⟨s, hs, ⟨x, hx, p.2, he, hclosed, hcalled⟩, fun hno => ?_⟩
  rw [(hno.expiry x hx p.2 he).1] at hclosed
  cases hclosed

end Iohttp
