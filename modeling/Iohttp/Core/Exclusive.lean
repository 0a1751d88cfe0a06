/-
# One data operation at a time

The receive and the send buffer of a connection are safe to use again only if at
most one receive or send of it is on its way, and `send_active` has to tell
whether that is a send. Every part of the work on a completion keeps the flag and
the ring in step, whatever else it does: the parts that arm something do, and the
others leave both alone (`sendTold_rule`). The completion of a send clears the flag
before anything is armed.

That is while ids tell the connections apart: when they come again, the completion
of a send that has outlived its connection arms a second receive of another one.
-/
import Iohttp.Core.Drain
import Iohttp.Core.Wrap

namespace Iohttp

open Runs

variable {ω τ : Type} {env : Env ω τ} {P : Work ω τ → Prop} {w w' : Work ω τ} {cqe : Cqe}

/-! ### The flag and the ring -/

section

variable {k : ℕ}

theorem mem_data_prep {op o : Op} :
    o ∈ (w.prep op).ring.data k ↔ o ∈ w.ring.data k ∨ (o = op ∧ op.isData k = true) := by
  simp only [Ring.data, List.mem_filter, mem_ops_prep, or_and_right]
  exact or_congr_right (and_congr_right fun he => by rw [he])

/-- Connection `k` has a send in the ring. -/
def Ring.sends (r : Ring) (k : ℕ) : Prop := ∃ op ∈ r.data k, op.code = .send
  deriving Decidable

theorem sends_prep {op : Op} (h : op.code ≠ .send) : (w.prep op).ring.sends k ↔ w.ring.sends k := by
  constructor
  · rintro ⟨o, ho, hc⟩
    obtain ho | ⟨rfl, _⟩ := mem_data_prep.mp ho
    · exact ⟨o, ho, hc⟩
    · exact absurd hc h
  · rintro ⟨o, ho, hc⟩
    exact ⟨o, mem_data_prep.mpr (.inl ho), hc⟩

theorem sends_armRecv (w : Work ω τ) : (armRecv env w).1.ring.sends k ↔ w.ring.sends k := by
  have hrecv : ∀ linked, (w.recvOp linked).code ≠ .send := fun _ hc => by cases hc
  unfold armRecv
  simp only
  split_ifs
  · exact (sends_prep (fun hc => by cases hc)).trans (sends_prep (w := w.ask.ask) (hrecv true))
  · exact sends_prep (w := w.ask.ask) (hrecv false)
  · exact sends_prep (w := w.ask) (hrecv false)
  · exact Iff.rfl

/-- While connection `k` is in use, its flag says whether it has a send in the
ring. -/
def SendTold (k : ℕ) (w : Work ω τ) : Prop :=
  w.conn.Live → w.conn.serial = k ∧ (w.conn.sendActive = true ↔ w.ring.sends k)

section

variable (h : SendTold k w)

include h

theorem SendTold.startSend (ha : w.conn.sendActive = false) (data : Bytes) :
    SendTold k (startSend env w data).1 := by
  unfold Iohttp.startSend
  split_ifs
  · intro hl
    obtain ⟨hserial, _⟩ := h hl
    refine ⟨hserial, iff_of_true rfl ⟨w.opFor .send 0 data.length false, mem_data_prep.mpr
      (.inr ⟨rfl, ?_⟩), rfl⟩⟩
    simp [Op.isData, Work.opFor, hserial]
  · intro hl
    obtain ⟨hserial, hiff⟩ := h hl
    refine ⟨hserial, iff_of_false (fun hact => by cases hact) fun hsend => ?_⟩
    rw [hiff.mpr hsend] at ha
    cases ha

theorem SendTold.of_ring (hr : w'.ring = w.ring) (hc : w'.conn = w.conn) :
    SendTold k w' := by
  unfold SendTold
  rw [hr, hc]
  exact h

theorem SendTold.armSend (data : Bytes) : SendTold k (armSend env w data).1 := by
  have hring := encrypt_ring env w data
  have hactive := encrypt_sendActive env w data
  have hlayers := layers_encrypt env w data
  unfold Iohttp.armSend
  split_ifs with ha
  · exact h
  · have henc : SendTold k (encrypt env w data).1 := by
      intro hl
      obtain ⟨hserial, hiff⟩ := h fun hfree => hl (hlayers.state.trans hfree)
      rw [hring, hactive, hlayers.serial]
      exact ⟨hserial, hiff⟩
    rw [Bool.not_eq_true] at ha
    rw [ha] at hactive
    rcases he : encrypt env w data with ⟨w₁, e | out⟩
    · rw [he] at henc
      exact henc
    · rw [he] at henc hactive
      exact henc.startSend hactive out

theorem SendTold.armClose : SendTold k (Iohttp.armClose env w) := by
  have hsends : (Iohttp.armClose env w).ring.sends k ↔ w.ring.sends k := by
    unfold Ring.sends
    rw [data_armClose]
  unfold SendTold
  rw [hsends]
  unfold Iohttp.armClose
  split_ifs
  · unfold connTransition
    split_ifs with hv
    · intro _
      refine h fun hfree => ?_
      have hv' : ConnState.closing ∈ validTransitions w.conn.state := hv
      rw [hfree] at hv'
      exact absurd hv' (by decide)
    · exact h
  · exact fun hl => absurd rfl hl

theorem SendTold.advances {c : Conn τ} (ha : Advances w.conn c) :
    SendTold k (w.setConn c) := by
  intro hl
  obtain ⟨hserial, hiff⟩ := h (ha.live hl)
  refine ⟨ha.serial.trans hserial, ?_⟩
  rw [show (w.setConn c).conn.sendActive = w.conn.sendActive from ha.sendActive]
  exact hiff

end

/-- **The flag and the ring stay in step.** -/
theorem sendTold_rule (env : Env ω τ) (k : ℕ) :
    RingRule env (fun _ => True) (SendTold k) (SendTold k) (SendTold k : Work ω τ → Prop) where
  conn h ha := h.advances ha
  note h _ _ := h.of_ring rfl rfl
  tick h := h.of_ring rfl rfl
  recv {w} h := by
    unfold SendTold
    rw [sends_armRecv, armRecv_conn]
    exact h
  send {w} data h := by
    rcases lt_or_ge (armSend env w data).2 0 with hret | hret
    · exact .inr ⟨hret, h.armSend data⟩
    · exact .inl ⟨hret, h.armSend data, armSend_active hret⟩
  sending h _ := h
  kept h ha := h.advances ha
  armed h := h
  close h := h.armClose
  fail _ _ h := h.armClose
  compacted h hc := by
    rw [compact_eq_some hc]
    exact h.advances ⟨rfl, rfl, rfl, .inl rfl⟩

/-! ### The run of a connection -/

theorem sends_retire {r : Ring} (h : cqe.op.code ≠ .send) : (r.retire cqe).sends k ↔ r.sends k := by
  constructor
  · rintro ⟨op, hop, hc⟩
    exact ⟨op, (data_retire_sublist r cqe k).subset hop, hc⟩
  · rintro ⟨op, hop, hc⟩
    refine ⟨op, ?_, hc⟩
    obtain ⟨hm, hd⟩ := List.mem_filter.mp hop
    refine List.mem_filter.mpr ⟨mem_retire hm ?_, hd⟩
    rintro rfl
    exact h hc

theorem SendTold.retire (h : SendTold k w) (hc : cqe.op.code ≠ .send) : SendTold k (w.retire cqe) := by
  intro hl
  obtain ⟨hserial, hiff⟩ := h hl
  exact ⟨hserial, hiff.trans (sends_retire hc).symm⟩

theorem SendTold.resend (h : SendTold k w) : SendTold k (Iohttp.resend env w) := by
  unfold Iohttp.resend
  split_ifs
  · intro hl
    obtain ⟨hserial, _⟩ := h hl
    refine ⟨hserial, iff_of_true rfl ⟨_, mem_data_prep.mpr (.inr ⟨rfl, ?_⟩), rfl⟩⟩
    simp [Op.isData, Work.opFor, hserial]
  · exact SendTold.armClose (w := w.ask) h

theorem SendTold.onSend (hs : w.conn.Live → w.conn.serial = k) (hv : ¬w.ring.sends k) (cqe : Cqe) :
    SendTold k (Iohttp.onSend env w cqe) := by
  have hidle : SendTold k (w.setConn { w.conn with sendActive := false }) := fun hl =>
    ⟨hs hl, iff_of_false (fun ha => by cases ha) hv⟩
  exact (sendTold_rule env k).stages.onSend (fun hv _ => hv.resend) hidle cqe

/-- Connection `k` has at most one receive or send in the ring, and its flag says
whether that is a send. -/
structure OneAtATime (k : ℕ) (w : Work ω τ) : Prop where
  numbers : w.conn.Numbers k
  one : AtMostOne (fun _ => True) k w
  told : SendTold k w

theorem OneAtATime.vacant (h : OneAtATime k w) (hop : cqe.op ∈ w.ring.own k) (hwf : cqe.WellFormed)
    (hl : w.conn.Live) (hc : cqe.op.code = .recv ∨ cqe.op.code = .send) : Vacant k (w.retire cqe) :=
  h.one.vacant (h.numbers hl) (mem_data.mpr ⟨hop, hc⟩) (ofConn_not_more hwf (mem_own.mp hop).2.2)

theorem OneAtATime.told_complete (h : OneAtATime k w) (hop : cqe.op ∈ w.ring.own k)
    (hwf : cqe.WellFormed) (hl : w.conn.Live) (hw : completeConn env (w.retire cqe) cqe = some w') :
    SendTold k w' := by
  by_cases hs : cqe.op.code = .send
  · -- the one operation was this send
    rw [completeConn, hs] at hw
    cases hw
    refine SendTold.onSend (w := w.retire cqe) h.numbers ?_ cqe
    rintro ⟨op, hmem, _⟩
    rw [(h.vacant hop hwf hl (.inr hs)).data] at hmem
    cases hmem
  have hold := h.told.retire hs
  unfold completeConn at hw
  split at hw
  · exact (sendTold_rule env k).onRecv id hold (fun _ _ _ _ _ _ => trivial) hw
  · next hc => exact absurd hc hs
  · cases hw
    exact fun hl => absurd rfl hl
  · cases hw
    unfold onTimeout
    split_ifs
    · exact hold
    · exact hold.armClose
  · cases hw
    exact hold

/-- **One event of a connection's run.** -/
theorem OneAtATime.next {ev : LaneEvent ω τ} (h : OneAtATime k w)
    (hn : Lane.next env k w ev = some w') : OneAtATime k w' := by
  obtain ⟨hnum, hone⟩ := atMostOne_next ⟨h.numbers, h.one⟩ hn
  refine ⟨hnum, hone, ?_⟩
  cases Lane.next_spec hn with
  | handled hop hwf hl hw => exact h.told_complete hop hwf hl hw
  | lost _ _ hl => exact fun hl' => absurd hl' hl
  | others hb =>
    intro hl
    obtain ⟨hserial, hiff⟩ := h.told hl
    refine ⟨hserial, hiff.trans ?_⟩
    exact exists_congr fun op => and_congr_left fun _ => hb.data.mem_iff.symm
  | drain =>
    obtain ⟨_, hserial, hactive⟩ := drainConn_same w.conn
    intro hl
    obtain ⟨hk, hiff⟩ := h.told (drainConn_live hl).1
    exact ⟨hserial.trans hk, hactive ▸ hiff⟩
  | force => exact fun hl => absurd rfl hl

theorem oneAtATime_start {C : LaneCond ω τ} (h : Lane.Start env k C w) : OneAtATime k w := by
  obtain ⟨hnum, hone⟩ := atMostOne_start h
  refine ⟨hnum, hone, ?_⟩
  obtain ⟨w₁, id, fd, rfl, hconn, hown, _⟩ := h
  have hnone : ¬w₁.ring.sends k := by
    rintro ⟨op, hop, _⟩
    rw [data_of_own hown] at hop
    cases hop
  have hnew : SendTold k w₁ := fun _ => by
    rw [hconn]
    exact ⟨rfl, iff_of_false (fun ha => by cases ha) hnone⟩
  have hfirst := hnew.advances (advances_firstState env w₁.conn fd)
  unfold accepted
  simp only
  split_ifs
  · exact fun hl => absurd rfl hl
  · exact (sendTold_rule env k).recv hfirst

end

/-- Each connection has at most one receive or send in the ring, and while it is in
use `send_active` says whether that is a send. -/
def Machine.OneDataOp (m : Machine ω τ) : Prop :=
  (∀ k, (m.srv.ring.data k).length ≤ 1) ∧
    ∀ c ∈ m.srv.pool.conns, c.Live → (c.sendActive = true ↔ m.srv.ring.sends c.serial)

/-- **One data operation at a time.** In every run in which no completion is handled
twice and fewer than `2 ^ 32` connections are accepted, whatever the kernel does
with the timeouts, each connection has at most one receive or send in the ring,
and `send_active` says whether that is a send. -/
theorem one_data_operation (env : Env ω τ) (maxConns : ℕ) (listenFd signalFd : ℤ) (world : ω)
    {m : Machine ω τ}
    (h : Reaches (Machine.next env) (BeforeDrain env)
      (Machine.start maxConns listenFd signalFd world) m) :
    m.OneDataOp := by
  have hlane : ∀ k, Orderly env m ∧ LaneRuns env k anyRun m.srv := fun k =>
    lanes_of_run (h.mono fun _ _ hs => hs.laneStep k)
  have hone : ∀ k, k < m.srv.pool.serial → OneAtATime k (m.srv.lane k) := by
    intro k hk
    obtain ⟨w₀, hstart, hrun⟩ := (hlane k).2 hk
    exact hrun.invariant (OneAtATime k) (oneAtATime_start hstart) fun _ _ _ hi _ hn => hi.next hn
  have hnum := (hlane 0).1.numbered
  refine ⟨fun k => ?_, fun c hc hl => ?_⟩
  · by_cases hk : k < m.srv.pool.serial
    · exact (hone k hk).one.few
    · rw [data_of_own (hnum.own_nil (not_lt.mp hk)).1]
      exact Nat.zero_le 1
  · have htold := (hone c.serial (hnum.live c hc hl).1).told
    rw [lane_live hnum.distinct hc hl] at htold
    exact (htold hl).2

/-- A request has been answered, and the response is on its way. -/
theorem one_data_operation_send :
    ∃ m : Machine Unit Unit, Reaches (Machine.next plainEnv) (BeforeDrain plainEnv)
    (Machine.start 4 3 9 ()) m ∧
      m.srv.pool.conns.map Conn.sendActive = [true, false, false, false] ∧ m.OneDataOp := by
  obtain ⟨m, hm, hp⟩ := exists_reaches (Machine.next plainEnv) (BeforeDrain plainEnv)
    (Machine.start 4 3 9 ())
    (connectEvents ++ [.call .waitFails,
      .post ⟨firstRecv, 27, bytes "GET / HTTP/1.1\r\nHost: a\r\n\r\n", false, 0⟩, .call .ready,
      .step, .step])
    (fun m => m.srv.pool.conns.map Conn.sendActive = [true, false, false, false]) (by decide +kernel)
  exact ⟨m, hm, hp, one_data_operation plainEnv 4 3 9 () hm⟩

/-! ### Ids that come again -/

/-- A TLS library that ends every handshake with an alert. -/
def alertWolf : Wolf Unit where
  new := fun _ => some ()
  accept := fun _ _ _ => ⟨(), 0, [2, 40], .failure⟩
  read := fun _ _ _ _ => ⟨(), 0, [], .failure⟩
  write := fun _ _ _ _ => ⟨(), 0, [], .failure⟩

/-- A TLS server whose ring is full while the other ids are used up. -/
def alertEnv : Env Unit Unit :=
  { plainEnv with tls := true, wolf := alertWolf, sqe := fun n => n < 6 ∨ 2 ^ 32 + 5 ≤ n }

def alertSend : Op := ⟨.send, 1, 4, 0, 0, 2, false⟩

/-- The first client fails the handshake, and its close completes before the send of
the alert. -/
def alertEvents : List Event :=
  connectEvents ++
    [.call .waitFails, .post ⟨firstRecv, 1, [0], false, 0⟩,
      .post ⟨firstTimeout, -ECANCELED, [], false, 0⟩,
      .call .ready, .step, .step, .step, .call .waitFails,
      .post ⟨⟨.close, 1, 5, 0, 0, 0, false⟩, 0, [], false, 0⟩, .call .ready, .step, .step]

def alertPosted : List Cqe :=
  [acceptCqe, ⟨firstRecv, 1, [0], false, 0⟩, ⟨firstTimeout, -ECANCELED, [], false, 0⟩,
    ⟨⟨.close, 1, 5, 0, 0, 0, false⟩, 0, [], false, 0⟩]

theorem alert_left :
    ∃ m : Machine Unit Unit, Reaches (Machine.next alertEnv) Undisturbed (Machine.start 1 3 9 ()) m ∧
      m.Left 6 [acceptOp, signalOp, alertSend] alertPosted := by
  exact exists_reaches _ _ _ alertEvents _ (by decide +kernel)

/-- The connection that gets the id of the first one. -/
def sameIdConn : Conn Unit :=
  { (allocConn 1 (2 ^ 32) [] : Conn Unit) with
    fd := 5, timeoutPhase := .header, state := .tlsHandshake, tls := some ⟨(), [], [], false⟩ }

/-- The receive of that connection, and its timeout. -/
def sameIdOps : List Op :=
  [⟨.recv, 1, 2 ^ 32 + 5, 2 ^ 32, 0, 8192, true⟩, ⟨.timeout, 1, 2 ^ 32 + 6, 2 ^ 32, 0, 30000, false⟩]

theorem handle_sameId {s : Srv Unit Unit} (hpool : s.pool = ⟨[freeConn], 0, 1, 2 ^ 32⟩)
    (hring : s.ring = ⟨2 ^ 32 + 5, [], [acceptOp, signalOp, alertSend]⟩) :
    ∃ s', handle alertEnv s acceptCqe = some s' ∧ s'.stopped = s.stopped ∧ s'.pool.conns = [sameIdConn] ∧
      s'.ring = ⟨2 ^ 32 + 7, sameIdOps, [acceptOp, signalOp, alertSend]⟩ := by
  obtain ⟨pool, ring, clock, trace, world, l, a, st, lfd, sfd⟩ := s
  cases hpool
  cases hring
  exact ⟨_, rfl, rfl, rfl, rfl⟩

def alertSent : Cqe := ⟨alertSend, 2, [], false, 0⟩

/-- It is taken for the output of the other connection's handshake, which gets a
second receive. -/
theorem handle_alertSent {s : Srv Unit Unit} (hconns : s.pool.conns = [sameIdConn])
    (hring : s.ring = ⟨2 ^ 32 + 7, [], [acceptOp, signalOp, alertSend] ++ sameIdOps⟩) :
    ∃ s', handle alertEnv s alertSent = some s' ∧ (s'.ring.data (2 ^ 32)).length = 2 := by
  obtain ⟨⟨conns, active, nextId, serial⟩, ring, clock, trace, world, l, a, st, lfd, sfd⟩ := s
  cases hconns
  cases hring
  exact ⟨_, rfl, rfl⟩

/-- **A connection with two receives.** The send of an alert outlives its connection
until the id comes again, and its completion arms a receive for a connection that
has one. -/
theorem two_receives :
    ¬∀ (env : Env Unit Unit) (maxConns : ℕ) (listenFd signalFd : ℤ) (m : Machine Unit Unit),
      Reaches (Machine.next env) Undisturbed (Machine.start maxConns listenFd signalFd ()) m →
      m.OneDataOp := by
  intro h
  obtain ⟨m₁, hrun₁, hleft⟩ := alert_left
  obtain ⟨m₂, hrun₂, hidle₂, hpool₂, hring₂, hposted₂⟩ :=
    hleft.wraps alertEnv (by decide) (by decide) fun n hle hlt => by
    simp only [alertEnv, decide_eq_false_iff_not, not_or, not_lt, not_le]
    exact ⟨hle, by omega⟩
  -- the next client
  obtain ⟨s₃, hs₃, hstop₃, hconns₃, hring₃⟩ := handle_sameId hpool₂ hring₂
  have hrun₃ := hidle₂.accepts hs₃
  have hrests₃ := hidle₂.toRests.deliver acceptCqe (hstop₃.trans hidle₂.running)
  -- the alert has been sent
  have hring₄ :
      s₃.submit.submit.ring = ⟨2 ^ 32 + 7, [], [acceptOp, signalOp, alertSend] ++ sameIdOps⟩ := by
    simp [Srv.submit, hring₃]
  obtain ⟨s₄, hs₄, htwo⟩ := handle_alertSent (s := s₃.submit.submit) hconns₃ hring₄
  have hagree : ∀ c ∈ acceptCqe :: alertPosted,
      (c.op = alertSent.op → c.more = true) ∧ LinkAgrees c alertSent ∧
      LinkAgrees alertSent c := by decide
  have hlinked : Linked (m₂.deliver acceptCqe s₃) (.post alertSent) := by
    rintro cqe ⟨⟩ c hc
    exact (hagree c (hposted₂ c hc)).2
  have hrun₄ : Reaches (Machine.next alertEnv) Undisturbed (m₂.deliver acceptCqe s₃)
      ((m₂.deliver acceptCqe s₃).deliver alertSent s₄) := by
    refine reaches_deliver hrests₃ (by decide)
      ⟨?_, by decide, fun c hc => (hagree c (hposted₂ c hc)).1⟩ hlinked hs₄
    show alertSend ∈ s₃.submit.ring.submitted
    simp [Srv.submit, hring₃]
  have hone := h alertEnv 1 3 9 _ (((hrun₁.trans hrun₂).trans hrun₃).trans hrun₄)
  have hle : (s₄.ring.data (2 ^ 32)).length ≤ 1 := hone.1 (2 ^ 32)
  omega

end Iohttp
