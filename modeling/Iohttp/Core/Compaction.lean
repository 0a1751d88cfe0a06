/-
# The compaction behind a request

Behind `dispatch_request`, `ioh_server_run_once` subtracts the length of the
request from `recv_len` of the connection and moves the rest to the front of the
buffer. `dispatch_request` calls `arm_close` if the response cannot be sent, and
`arm_close` frees the connection at once if there is no entry for the close. Then
the difference is taken from zero.
-/
import Iohttp.Core.Limits
import Iohttp.Core.Drain

namespace Iohttp

open Runs

variable {ω τ : Type} {env : Env ω τ} {w : Work ω τ} {req : Request} {total : ℕ}

/-- The loop is about to dispatch the request `req` of `total` bytes. -/
def Machine.Dispatches (env : Env ω τ) (m : Machine ω τ) (w : Work ω τ) (req : Request)
    (total : ℕ) : Prop :=
  ∃ cqe c, m.Handles .step cqe c ∧ cqe.op.code = .recv ∧
    recvOutcome env ((m.srv.retire cqe).focus c) cqe = .dispatch w req total

/-- **There is a response that cannot be sent, and no entry for the close.** Either a
send is active or TLS does not take the response, and the next entry of the ring is
missing, or `arm_send` asks for an entry, and both this and the next are missing. -/
def Stranded (env : Env ω τ) (w : Work ω τ) (req : Request) : Prop :=
  let out := responseBytes (w.answer env req).ctx.resp
  out.length ≤ 8192 ∧ env.sqe w.ring.asked = false ∧
    (w.conn.sendActive = false → Takes env w out → env.sqe (w.ring.asked + 1) = false)

/-- The connection is in use, as it was before, and has the bytes of the request. -/
structure Conn.Covers (c : Conn τ) (serial total : ℕ) : Prop where
  live : c.Live
  same : c.serial = serial
  bytes : total ≤ c.recvLen

theorem encrypt_recvLen (env : Env ω τ) (w : Work ω τ) (data : Bytes) :
    (encrypt env w data).1.conn.recvLen = w.conn.recvLen := by
  unfold encrypt
  split
  · dsimp only
    split_ifs <;> rfl
  · rfl

theorem armSend_recvLen (env : Env ω τ) (w : Work ω τ) (data : Bytes) :
    (armSend env w data).1.conn.recvLen = w.conn.recvLen := by
  have henc := encrypt_recvLen env w data
  unfold armSend
  split_ifs
  · rfl
  · split
    · next w₁ e he =>
      rw [he] at henc
      exact henc
    · next w₁ out he =>
      rw [he] at henc
      unfold startSend
      split_ifs
      · exact henc
      · exact henc

theorem answered_recvLen (env : Env ω τ) (w : Work ω τ) (req : Request) :
    (w.answered env req).conn.recvLen = w.conn.recvLen := by
  unfold Work.answered routeTimeouts
  cases (w.answer env req).opts <;> rfl

theorem keeps_answered (env : Env ω τ) (w : Work ω τ) (req : Request) :
    Keeps w (w.answered env req) := by
  have hnoted : Keeps w (w.note (.dispatched w.conn.serial req)) := keeps_note w rfl fun _ => rfl
  exact (hnoted.trans (keeps_advances _ (edits_routeTimeouts _ _).advances)).trans (keeps_tick _ _)

theorem armClose_entry (hsqe : env.sqe w.ring.asked = true) (hl : w.conn.Live) :
    (armClose env w).conn.Live ∧ (armClose env w).conn.serial = w.conn.serial ∧
      (armClose env w).conn.recvLen = w.conn.recvLen := by
  have hconn : (armClose env w).conn = (connTransition { w.conn with tls := none } .closing).1 := by
    rw [armClose, if_pos hsqe]
    rfl
  rw [hconn]
  unfold connTransition
  split_ifs
  · exact ⟨nofun, rfl, rfl⟩
  · exact ⟨hl, rfl, rfl⟩

theorem armClose_no_entry (hsqe : env.sqe w.ring.asked = false) : (armClose env w).conn = freeConn := by
  rw [armClose, if_neg (by simp [hsqe])]
  rfl

/-- `arm_send` asks for an entry, unless a send is active or TLS does not take the data. -/
theorem armSend_asked (env : Env ω τ) (w : Work ω τ) (data : Bytes) :
    (w.conn.sendActive = false ∧ Takes env w data ∧ (armSend env w data).1.ring.asked =
      w.ring.asked + 1) ∨
      (¬(w.conn.sendActive = false ∧ Takes env w data) ∧ (armSend env w data).1.ring.asked =
        w.ring.asked) := by
  have hring := encrypt_ring env w data
  unfold armSend
  by_cases ha : w.conn.sendActive = true
  · rw [if_pos ha]
    exact .inr ⟨fun h => by simp [ha] at h, rfl⟩
  · rw [if_neg ha]
    rcases he : encrypt env w data with ⟨w₁, e | out⟩
    · rw [he] at hring
      exact .inr ⟨fun ⟨_, out, ho⟩ => by simp [he] at ho, congrArg Ring.asked hring⟩
    · rw [he] at hring
      refine .inl ⟨by simpa using ha, ⟨out, by rw [he]⟩, ?_⟩
      simp only [startSend, ← hring]
      split_ifs <;> rfl

theorem answered_takes (w : Work ω τ) (req : Request) (data : Bytes) :
    (w.answered env req).conn.sendActive = w.conn.sendActive ∧
      (Takes env (w.answered env req) data ↔ Takes env w data) := by
  have hkept : (w.answered env req).conn.tls = w.conn.tls ∧
      (w.answered env req).conn.tlsDone = w.conn.tlsDone ∧
      (w.answered env req).conn.sendActive = w.conn.sendActive := by
    simp only [Work.answered, Work.tick, Work.setConn]
    cases (w.answer env req).opts <;> simp [routeTimeouts]
  unfold Takes
  rw [encrypt_congr hkept.1 hkept.2.1]
  exact ⟨hkept.2.2, .rfl⟩

/-- In terms of what `arm_send` returns and leaves. -/
theorem stranded_iff :
    Stranded env w req ↔ ∃ out, serializeResponse (w.answer env req).ctx.resp 8192 = some out ∧
      (armSend env (w.answered env req) out).2 < 0 ∧
      env.sqe (armSend env (w.answered env req) out).1.ring.asked = false := by
  rw [serializeResponse_eq (by decide), Stranded]
  generalize responseBytes (w.answer env req).ctx.resp = out
  obtain ⟨hactive, htakes⟩ := answered_takes w req out
  have hring : (w.answered env req).ring.asked = w.ring.asked := rfl
  have hfails : (armSend env (w.answered env req) out).2 < 0 ↔ ¬CanSend env w out := by
    rw [← answered_canSend w req]
    refine ⟨fun hneg hcan => ?_, fun hno => (armSend_of_not_canSend hno).1⟩
    obtain ⟨_, -, hzero, -⟩ := armSend_of_canSend hcan
    omega
  have hasked := armSend_asked env (w.answered env req) out
  rw [hactive, htakes, hring] at hasked
  simp only [Option.ite_none_right_eq_some, Option.some.injEq, and_assoc, exists_and_left,
    exists_eq_left', hfails]
  refine and_congr_right fun _ => ?_
  rcases hasked with ⟨ha, ht, he⟩ | ⟨hno, he⟩
  · simp [he, CanSend, ha, ht]
  · rw [he]
    exact ⟨fun h => ⟨fun hcan => hno ⟨hcan.1, hcan.2.1⟩, h.1⟩, fun h =>
      ⟨h.2, fun ha ht => absurd ⟨ha, ht⟩ hno⟩⟩

/-! ### Dispatch -/

theorem dispatchRequest_stranded (h : Stranded env w req) :
    (dispatchRequest env w req).1.conn = freeConn := by
  obtain ⟨out, hout, hsend, hsqe⟩ := stranded_iff.mp h
  rw [dispatchRequest_eq, sendAnswer, hout]
  simp only [if_pos hsend]
  exact armClose_no_entry hsqe

/-- **Otherwise the connection is kept**, and its buffer is as it was. -/
theorem dispatchRequest_kept (hl : w.conn.Live) (h : ¬Stranded env w req) :
    (dispatchRequest env w req).1.conn.Live ∧ (dispatchRequest env w req).1.conn.serial = w.conn.serial ∧
      (dispatchRequest env w req).1.conn.recvLen = w.conn.recvLen := by
  have hans := keeps_answered env w req
  have hlen := answered_recvLen env w req
  rw [dispatchRequest_eq, sendAnswer]
  cases hout : serializeResponse (w.answer env req).ctx.resp 8192 with
  | none => exact ⟨hans.live hl, hans.serial, hlen⟩
  | some out =>
    have hkeep := hans.trans (keeps_armSend env (w.answered env req) out)
    have hsame := (armSend_recvLen env (w.answered env req) out).trans hlen
    by_cases hsend : (armSend env (w.answered env req) out).2 < 0
    · simp only [if_pos hsend]
      have hsqe : env.sqe (armSend env (w.answered env req) out).1.ring.asked = true := by
        by_contra hno
        exact h (stranded_iff.mpr ⟨out, hout, hsend, Bool.eq_false_iff.mpr hno⟩)
      obtain ⟨hlive, hserial, hrecv⟩ := armClose_entry hsqe (hkeep.live hl)
      exact ⟨hlive, hserial.trans hkeep.serial, hrecv.trans hsame⟩
    · simp only [if_neg hsend]
      exact ⟨hkeep.live hl, hkeep.serial, hsame⟩

variable {w' : Work ω τ} {cqe : Cqe}

theorem onHttp_parsed (h : onHttp env w = .dispatch w' req total) :
    w'.conn = w.conn ∧ ∃ parsed hdrLen, http1ParseRequest w.conn.buf = .ok (parsed, hdrLen) ∧
      total = hdrLen + parsed.contentLength ∧ total ≤ w.conn.recvLen := by
  refine ⟨onHttp_conn.2 req total h, ?_⟩
  cases hp : http1ParseRequest w.conn.buf with
  | ok x =>
    obtain ⟨parsed, hdrLen⟩ := x
    exact ⟨parsed, hdrLen, rfl, onHttp_dispatch hp h⟩
  | error e =>
    unfold onHttp at h
    split_ifs at h
    simp only [hp] at h
    split_ifs at h

theorem recvOutcome_parsed (h : recvOutcome env w cqe = .dispatch w' req total) :
    ∃ parsed hdrLen, http1ParseRequest w'.conn.buf = .ok (parsed, hdrLen) ∧
      total = hdrLen + parsed.contentLength ∧ total ≤ w'.conn.recvLen := by
  unfold recvOutcome at h
  split_ifs at h
  split at h
  · cases h
  · split at h
    · cases h
    · obtain ⟨hconn, hparsed⟩ := onHttp_parsed h
      rw [hconn]
      exact hparsed

variable {m : Machine ω τ}

theorem Machine.Dispatches.parsed (h : m.Dispatches env w req total) :
    w.conn.Live ∧ ∃ parsed hdrLen, http1ParseRequest w.conn.buf = .ok (parsed, hdrLen) ∧
      total = hdrLen + parsed.contentLength ∧ total ≤ w.conn.recvLen := by
  obtain ⟨cqe, c, ⟨-, -, i, hi, hc⟩, -, hout⟩ := h
  obtain ⟨d, hd, hl, -⟩ := findConnById_some hi
  obtain rfl : c = d := Option.some.inj (hc.symm.trans hd)
  have hkeeps : Keeps ((m.srv.retire cqe).focus c) w := by
    have heffect := effect_recvOutcome env ((m.srv.retire cqe).focus c) cqe
    rwa [hout] at heffect
  exact ⟨hkeeps.live hl, recvOutcome_parsed hout⟩

/-- **The compaction never underflows**, unless the connection is stranded: in
whatever state the loop is when it dispatches a request, so in every run, the
connection behind `dispatch_request` is the one that was parsed and its `recv_len`
is at least the length of the head and the body, if and only if the response can
be submitted, or there is none, or else the close can. -/
theorem compaction_safe_iff {m : Machine ω τ} {w : Work ω τ} {req : Request} {total : ℕ}
    (h : m.Dispatches env w req total) :
    ∃ parsed hdrLen, http1ParseRequest w.conn.buf = .ok (parsed, hdrLen) ∧
    total = hdrLen + parsed.contentLength ∧
      ((dispatchRequest env w req).1.conn.Covers w.conn.serial (hdrLen + parsed.contentLength) ↔
        ¬Stranded env w req) := by
  obtain ⟨hl, parsed, hdrLen, hparse, htotal, hle⟩ := h.parsed
  refine ⟨parsed, hdrLen, hparse, htotal, fun hholds hstranded => ?_, fun hsafe => ?_⟩
  · rw [dispatchRequest_stranded hstranded] at hholds
    exact hholds.live rfl
  · obtain ⟨hlive, hserial, hrecv⟩ := dispatchRequest_kept hl hsafe
    exact ⟨hlive, hserial, by rw [hrecv]; omega⟩

/-- **The loop goes on behind the request** exactly if the connection is not
stranded: otherwise the rest of the buffer is copied from a null pointer. -/
theorem step_of_dispatch_iff
    (h : m.Dispatches env w req total) : (m.next env .step).isSome = true ↔ ¬Stranded env w req := by
  obtain ⟨hl, parsed, hdrLen, hparse, htotal, hle⟩ := h.parsed
  obtain ⟨cqe, c, ⟨-, hcur, i, hi, hc⟩, hcode, hout⟩ := h
  have hi' : findConnById (m.srv.retire cqe).pool cqe.op.id = some i := hi
  have hc' : (m.srv.retire cqe).pool.conns[i]? = some c := hc
  have hhandle : handle env m.srv cqe =
      (compact (dispatchRequest env w req).1 total).map ((m.srv.retire cqe).restore i) := by
    have hconn : handle env m.srv cqe = onConn env (m.srv.retire cqe) cqe := by
      unfold handle
      rw [hcode]
      rfl
    rw [hconn, onConn, hi']
    simp only [hc', Option.bind_some, completeConn, hcode, onRecv, hout, finish]
  rw [step_isSome hcur (by rw [hcode]; decide), hhandle, Option.isSome_map, compact]
  constructor
  · intro hsome hstranded
    have hpos := http1ParseRequest_pos hparse
    have hzero : (freeConn : Conn τ).recvLen < total := by
      change 0 < total
      omega
    rw [dispatchRequest_stranded hstranded, if_pos hzero] at hsome
    cases hsome
  · intro hsafe
    obtain ⟨-, -, hrecv⟩ := dispatchRequest_kept hl hsafe
    rw [if_neg (by omega)]
    rfl

theorem dispatches_of_about {session : Bool} (h : AboutToDispatch env m cqe session)
    (hcode : cqe.op.code = .recv) : ∃ w req total, m.Dispatches env w req total := by
  obtain ⟨hcur, hi, c, hc, -, hd⟩ := h
  cases ho : recvOutcome env ((m.srv.retire cqe).focus c) cqe with
  | done w | reject w status msg => simp [ho, Outcome.dispatches] at hd
  | dispatch w req total => exact ⟨w, req, total, cqe, c, ⟨rfl, hcur, 0, hi, hc⟩, hcode, ho⟩

/-- A request comes, and there is an entry for its response. -/
theorem compaction_safe_get :
    ∃ (m : Machine Unit Unit) (w : Work Unit Unit) (req : Request) (total : ℕ),
      Reaches (Machine.next plainEnv) (fun _ _ => True) (Machine.start 4 3 9 ()) m ∧
        m.Dispatches plainEnv w req total ∧ (dispatchRequest plainEnv w req).1.conn.Covers
        w.conn.serial total := by
  obtain ⟨m, hm, hp⟩ := exists_reaches (Machine.next plainEnv) (fun _ _ => True)
    (Machine.start 4 3 9 ()) (connectEvents ++ comes 2 getBytes)
    (AboutToDispatch plainEnv · (recvCqe 2 getBytes) false) (by decide +kernel)
  obtain ⟨w, req, total, hd⟩ := dispatches_of_about hp rfl
  obtain ⟨parsed, hdrLen, -, htotal, hiff⟩ := compaction_safe_iff hd
  refine ⟨m, w, req, total, hm, hd, ?_⟩
  rw [htotal]
  exact hiff.mpr fun ⟨_, hsqe, _⟩ => by cases hsqe

/-- A server whose ring has no entry left behind the first receive. -/
def strandedEnv : Env Unit Unit := { plainEnv with sqe := fun n => n < 4 }

/-- **A request that comes when the ring is full** frees its connection, and what is
left in the buffer is computed from zero. -/
theorem compaction_underflows :
    ¬∀ (env : Env Unit Unit) (maxConns : ℕ) (listenFd signalFd : ℤ) (m : Machine Unit Unit)
    (w : Work Unit Unit)
      (req : Request) (total : ℕ),
      Reaches (Machine.next env) (fun _ _ => True) (Machine.start maxConns listenFd signalFd ()) m →
      m.Dispatches env w req total → (dispatchRequest env w req).1.conn.Covers w.conn.serial total := by
  intro h
  obtain ⟨m, hm, habout, hcrash⟩ := exists_reaches (Machine.next strandedEnv) (fun _ _ => True)
    (Machine.start 4 3 9 ()) (connectEvents ++ comes 2 getBytes)
    (fun m => AboutToDispatch strandedEnv m (recvCqe 2 getBytes) false ∧
      (m.next strandedEnv .step).isSome = false)
    (by decide +kernel)
  obtain ⟨w, req, total, hd⟩ := dispatches_of_about habout rfl
  have hholds := h strandedEnv 4 3 9 m w req total hm hd
  have hstranded : Stranded strandedEnv w req := by
    by_contra hsafe
    rw [(step_of_dispatch_iff hd).mpr hsafe] at hcrash
    cases hcrash
  rw [dispatchRequest_stranded hstranded] at hholds
  exact hholds.live rfl

end Iohttp
