/-
# Messages in pieces

The runs of a plaintext connection to which a client sends a list of messages.
If every completion brings bytes of one message only, the requests are
dispatched in their order. A completion with the end of one request and the
start of the next loses the latter, and a chunked body is in step only if it
comes with the last byte of its head.
-/
import Iohttp.Core.Stream

namespace Iohttp

open Runs List

variable {ω τ : Type} {lim good : Prop} {ms : List Message} {k : ℕ} {env : Env ω τ}
  {w w' : Work ω τ} {e : LaneEvent ω τ} {C : LaneCond ω τ} {maxConns n : ℕ} {listenFd signalFd : ℤ}
  {world : ω} {m : Machine ω τ} {acts : List Act} {cur : Bytes}

theorem Reads.drain (h : Reads lim good ms k w) (bad : ¬good) :
    Reads lim good ms k (w.setConn (drainConn w.conn)) := by
  by_cases hs : w.conn.state = .httpActive
  · have hc : drainConn w.conn = { w.conn with state := .draining, keepAlive := false } := by
      unfold drainConn connTransition
      rw [if_pos hs]
      simp [hs, validTransitions]
    have hl : w.conn.Live := by simp [Conn.Live, hs]
    obtain ⟨n, cur, hp, hphase⟩ := h.phase
    rw [hc]
    refine ⟨fun _ => h.serial hl, h.opened, n, cur, hp, ?_⟩
    cases hphase with
    | reading op plain active idle len buf data code off room short =>
      exact .reading op ⟨plain.1, .inr (.inl rfl)⟩ (fun hg => absurd hg bad) idle len buf data code off
        room short
    | sending op plain active none data code =>
      exact .sending op ⟨plain.1, .inr (.inl rfl)⟩ (fun hg => absurd hg bad) none data code
    | ended _ ends =>
      exact .ended bad fun _ => ⟨⟨(ends hl).1.1, .inr (.inl rfl)⟩, (ends hl).2.1, .inl rfl⟩
  · have hc : drainConn w.conn = w.conn := by
      unfold drainConn
      rw [if_neg hs]
    rw [hc]
    exact h

theorem Reads.others (h : Reads lim good ms k w) (hb : Beside k w w') :
    Reads lim good ms k (w'.setConn w.conn) := by
  obtain ⟨n, cur, hp, hphase⟩ := h.phase
  refine ⟨h.serial, fun hg op hop => h.opened hg op (hb.ops.mem_iff.mp hop), n, cur, ?_, ?_⟩
  · show Settled lim ms (ownActs k w'.trace) n cur
    rw [hb.acts]
    exact hp
  · show Phase good ms n cur w.conn (w'.ring.data k)
    have hperm := hb.data
    cases hphase with
    | reading op plain active idle len buf data code off room short =>
      rw [data, perm_singleton] at hperm
      exact .reading op plain active idle len buf hperm code off room short
    | sending op plain active none data code =>
      rw [data, perm_singleton] at hperm
      exact .sending op plain active none hperm code
    | ended bad ends =>
      refine .ended bad fun hl =>
        ⟨(ends hl).1, fun op hop => (ends hl).2.1 op (hperm.mem_iff.mp hop), ?_⟩
      rcases (ends hl).2.2 with he | he | he
      · exact .inl he
      · exact .inr (.inl he)
      · rw [he, perm_nil] at hperm
        exact .inr (.inr hperm)

theorem Reads.retire_free (h : Reads lim good ms k w) (hl : ¬w.conn.Live) (cqe : Cqe) :
    Reads lim good ms k (w.retire cqe) := by
  obtain ⟨n, cur, hp, hphase⟩ := h.phase
  refine ⟨h.serial, fun hg op hop => h.opened hg op (mem_own_retire hop), n, cur, hp, ?_⟩
  cases hphase with
  | reading _ plain | sending _ plain => exact absurd plain.live hl
  | ended bad _ => exact .ended bad fun hl' => absurd hl' hl

/-- What is asked of the completions of a connection that is to go on: the ring
has an entry, nothing fails, and the answers keep the connection open. -/
def GoodStep (env : Env ω τ) (w : Work ω τ) (cqe : Cqe) : Prop :=
  (cqe.op.code = .recv → 0 < cqe.res ∧ env.sqe w.ring.asked = true ∧
    GoodAnswer env (recvOutcome env (w.retire cqe) cqe)) ∧
  (cqe.op.code = .send → 0 ≤ cqe.res ∧ env.sqe w.ring.asked = true) ∧
  (cqe.op.code = .timeout → cqe.res = -ECANCELED)

def StepsWith (ms : List Message) (k : ℕ) (w : Work ω τ) (cqe : Cqe) : Prop :=
  cqe.op.code = .recv → 0 < cqe.res → InStep ms (ownActs k w.trace) cqe.data

theorem Reads.complete (h : Reads lim good ms k w) {cqe : Cqe} (hm : cqe.op ∈ w.ring.own k)
    (hwf : cqe.WellFormed) (hstep : StepsWith ms k w cqe) (hlim : lim → WithinLimits env ms)
    (hgl : good → lim) (hok : good → GoodStep env w cqe) (hl : w.conn.Live)
    (hw : completeConn env (w.retire cqe) cqe = some w') : Reads lim good ms k w' := by
  unfold completeConn at hw
  cases hc : cqe.op.code with
  | recv =>
    simp only [hc] at hw
    exact h.onRecv hl hm hc hwf (hstep hc) hlim hgl (fun hg => (hok hg).1 hc) hw
  | send =>
    simp only [hc, Option.some.injEq] at hw
    subst hw
    exact h.onSend hl hm hc hwf fun hg => (hok hg).2.1 hc
  | close =>
    simp only [hc, Option.some.injEq] at hw
    subst hw
    exact h.freed (fun hg => h.opened hg _ hm hc) rfl rfl
  | timeout =>
    simp only [hc, Option.some.injEq] at hw
    subst hw
    exact h.onTimeout hl hc fun hg => (hok hg).2.2 hc
  | accept | signal | cancel => simp [mem_own, hc, OpCode.ofConn] at hm

theorem Reads.next (h : Reads lim good ms k w) (hlim : lim → WithinLimits env ms) (hgl : good → lim)
    (hC : ∀ w cqe, C.complete w cqe → StepsWith ms k w cqe ∧ (good → GoodStep env w cqe))
    (hend : C.shutdown → ¬good) (hok : C.ok w e) (hn : Lane.next env k w e = some w') :
    Reads lim good ms k w' := by
  cases Lane.next_spec hn with
  | handled hm hwf hl hw => exact h.complete hm hwf (hC w _ hok).1 hlim hgl (hC w _ hok).2 hl hw
  | lost _ _ hl => exact h.retire_free hl _
  | others hb => exact h.others hb
  | drain => exact h.drain (hend hok)
  | force => exact h.freed (hend hok) rfl rfl

theorem Reads.start (htls : env.tls = false) (hproxy : env.config.proxyProtocol = false)
    (h : Lane.Start env k C w)
    (hC : ∀ n, C.start n → good → env.sqe n = true) : Reads lim good ms k w := by
  obtain ⟨w₁, id, fd, rfl, hc, hown, hacts, hstart⟩ := h
  have hfirst : firstState env w₁.conn fd =
      { (allocConn id k (env.memory k) : Conn τ) with fd := fd, timeoutPhase := .header, state :=
        .httpActive } := by
    rw [hc]
    simp [firstState, hproxy, nextLayer, htls, connTransition, allocConn, validTransitions]
  have hb : Between good k (w₁.setConn (firstState env w₁.conn fd)) := by
    rw [hfirst]
    refine ⟨rfl, fun _ op hop => ?_, ⟨rfl, .inl rfl⟩, fun _ => rfl, rfl, data_of_own hown⟩
    change op ∈ w₁.ring.own k at hop
    rw [hown] at hop
    cases hop
  have hp : Progress ms (ownActs k w₁.trace) 0 [] := by
    rw [hacts]
    exact ⟨rfl, rfl, by simp [parseSpans]⟩
  have hr : Reads lim good ms k (armRecv env (w₁.setConn (firstState env w₁.conn fd))).1 :=
    hb.armRecv (fun hg => hC _ hstart hg) hp (by rw [hfirst]; rfl) (by simp) (.inl rfl)
  unfold accepted
  simp only
  split_ifs with hneg
  · refine hr.freed (fun hg => ?_) rfl (ownActs_closed ..)
    -- with an entry in the ring the first receive is armed
    have := armRecv_zero (w := w₁.setConn (firstState env w₁.conn fd)) (hC _ hstart hg)
    omega
  · exact hr

theorem reads_of_run (htls : env.tls = false) (hproxy : env.config.proxyProtocol = false)
    (hlim : lim → WithinLimits env ms) (hgl : good → lim)
    (hstart : ∀ n, C.start n → good → env.sqe n = true)
    (hC : ∀ w cqe, C.complete w cqe → StepsWith ms k w cqe ∧ (good → GoodStep env w cqe))
    (hend : C.shutdown → ¬good)
    (h : Reaches (Machine.next env) (LaneStep env k C)
      (Machine.start maxConns listenFd signalFd world) m)
    (hk : k < m.srv.pool.serial) : Reads lim good ms k (m.srv.lane k) := by
  obtain ⟨w₀, h₀, hr⟩ := lane_of_run h hk
  exact hr.invariant (Reads lim good ms k) (Reads.start htls hproxy h₀ hstart) fun w e w' hi hok hn =>
    hi.next hlim hgl hC hend hok hn

theorem Settled.complete (h : Settled lim ms acts n cur) (hl : lim) {i : ℕ} (hi : i ≤ ms.length)
    (hr : (stream (ms.take i)).length ≤ (received acts).length) : i ≤ (dispatched acts).length := by
  rw [h.dispatched, length_map, length_take]
  by_contra hlt
  have hn : n < ms.length := by omega
  have hnext := stream_take_le ms (show n + 1 ≤ i by omega)
  rw [stream_take_succ (getElem?_eq_getElem hn), length_append] at hnext
  rw [h.received, length_append] at hr
  -- what was received of the next message is not all of it
  have hcur : cur.length < ms[n].bytes.length := by
    rcases h.short hl with rfl | ⟨m, hm, _, hlt⟩
    · exact lt_of_lt_of_le ms[n].hdrLen_pos ms[n].hdrLen_le
    · rw [getElem?_eq_getElem hn] at hm
      cases hm
      exact lt_of_lt_of_le hlt (ms[n].total_le)
  omega

theorem Progress.inOrder (h : Progress ms acts n cur) :
    Iohttp.dispatched acts <+: ms.map Message.request := by
  rw [h.dispatched]
  exact take_prefix n ms |>.map _

/-- The requests of a client are dispatched in their order, and all that have
arrived when no response is on its way; and the connection goes on as long as they
have not all arrived, or if there is `more` behind them. -/
structure Served (ms : List Message) (more : Prop) (k : ℕ) (w : Work ω τ) : Prop where
  inOrder : dispatched (ownActs k w.trace) <+: ms.map Message.request
  complete : (∀ op ∈ w.ring.own k, op.code ≠ .send) → ∀ i ≤ ms.length,
    (stream (ms.take i)).length ≤ (received (ownActs k w.trace)).length →
      i ≤ (dispatched (ownActs k w.trace)).length
  goesOn : more ∨ received (ownActs k w.trace) ≠ stream ms →
    ∃ op ∈ w.ring.own k, op.code = .recv ∨ op.code = .send

/-- A keep-alive request within the limits of the server that is not
chunked. -/
def Message.Fits (env : Env ω τ) (m : Message) : Prop :=
  transferEncodings m.req = [] ∧ m.req.keepAlive = true ∧ m.hdrLen ≤ env.config.maxHeaderSize ∧
    m.req.contentLength ≤ env.config.maxBodySize ∧ m.bytes.length ≤ recvBufSize
  deriving Decidable

/-- The kernel hands on what the client sends, in pieces of any length, and
neither a receive nor a send fails or times out. -/
def Delivers (ms : List Message) (k : ℕ) (w : Work ω τ) (cqe : Cqe) : Prop :=
  (cqe.op.code = .recv → 0 < cqe.res ∧ received (ownActs k w.trace) ++ cqe.data <+: stream ms) ∧
  (cqe.op.code = .send → 0 ≤ cqe.res) ∧ (cqe.op.code = .timeout → cqe.res = -ECANCELED)
  deriving Decidable

/-- The runs in which the client is not disturbed. -/
def delivery (ms : List Message) (k : ℕ) : LaneCond ω τ := ⟨fun _ => True, Delivers ms k, False⟩

/-- Such runs in which no receive brings the end of one request and the start of
the next, and in which the ring has an entry when it is asked and the answers
keep the connection open; if there is no `more` behind the messages, the answer
to the last of them is free. -/
def oneByOne (env : Env ω τ) (ms : List Message) (more : Prop) (k : ℕ) : LaneCond ω τ where
  start n := env.sqe n = true
  complete w cqe := Delivers ms k w cqe ∧
    (cqe.op.code = .recv → Apart ms (ownActs k w.trace) cqe.data ∧ env.sqe w.ring.asked = true ∧
      (more ∨ received (ownActs k w.trace) ++ cqe.data ≠ stream ms →
        GoodAnswer env (recvOutcome env (w.retire cqe) cqe))) ∧
    (cqe.op.code = .send → env.sqe w.ring.asked = true)
  shutdown := False

theorem InStep.of_apart {data : Bytes} (hte : ∀ m ∈ ms, transferEncodings m.req = [])
    (hf : received acts ++ data <+: stream ms) (ha : Apart ms acts data) : InStep ms acts data where
  follows := hf
  apart := ha
  whole i m hm _ h := by rwa [m.total_eq (hte m (mem_of_getElem? hm))] at h

theorem Reads.received_starts (h : Reads True good ms k w) :
    received (ownActs k w.trace) <+: stream ms := by
  obtain ⟨n, cur, hp, -⟩ := h.phase
  rw [hp.received, stream_take_append_drop ms n, prefix_append_right_inj]
  obtain rfl | ⟨m, hm, hpre, -⟩ := hp.short trivial
  · exact nil_prefix
  · rw [stream_drop hm]
    exact hpre.trans (prefix_append _ _)

variable {more : Prop}

/-- The connection is to go on as long as there is something to come. -/
theorem Reads.next_oneByOne
    (h : Reads True (more ∨ received (ownActs k w.trace) ≠ stream ms) ms k w)
    (hlim : WithinLimits env ms) (hte : ∀ m ∈ ms, transferEncodings m.req = [])
    (hok : (oneByOne env ms more k).ok w e) (hn : Lane.next env k w e = some w') :
    Reads True (more ∨ received (ownActs k w'.trace) ≠ stream ms) ms k w' := by
  have hsteps : ∀ w cqe, (oneByOne env ms more k).complete w cqe → StepsWith ms k w cqe :=
    fun _ _ ⟨⟨hrecv, _⟩, hgood, _⟩ hc _ => .of_apart hte (hrecv hc).2 (hgood hc).1
  have hpre : received (ownActs k w'.trace) <+: stream ms :=
    ((h.mono False.elim).next (fun _ => hlim) False.elim
      (fun w cqe hc => ⟨hsteps w cqe hc, False.elim⟩) (fun _ => id) hok hn).received_starts
  -- what comes to the end of the messages stays there
  have hmono : ∀ {b : Bytes}, b <+: received (ownActs k w'.trace) →
      more ∨ received (ownActs k w'.trace) ≠ stream ms → more ∨ b ≠ stream ms := fun hb hg =>
    hg.imp_right fun hne he => hne (hpre.eq_of_length_le (he ▸ hb.length_le))
  obtain ⟨acts, hacts⟩ := Lane.next_acts hn
  have h' := h.mono (hmono (by rw [hacts, received_append]; exact prefix_append _ _))
  cases Lane.next_spec hn with
  | @handled cqe _ hm hwf hl hw =>
    obtain ⟨⟨hrecv, hsend, htime⟩, hgood, hsqe⟩ := id hok
    have hstep := hsteps w cqe hok
    refine h'.complete hm hwf hstep (fun _ => hlim) (fun _ => trivial) (fun hg =>
      ⟨fun hc => ⟨(hrecv hc).1, (hgood hc).2.1, (hgood hc).2.2 (hmono ?_ hg)⟩,
        fun hc => ⟨hsend hc, hsqe hc⟩, htime⟩) hl hw
    simp only [completeConn, hc] at hw
    exact h'.received_onRecv hl hm hc hwf (hrecv hc).1 (hstep hc (hrecv hc).1) hw
  | lost _ _ hl => exact h'.retire_free hl _
  | others hb => exact h'.others hb
  | drain | force => exact hok.elim

/-- **Requests that come apart are dispatched in their order.** -/
theorem requests_dispatched_in_order {env : Env ω τ} (htls : env.tls = false)
    (hproxy : env.config.proxyProtocol = false) (hfits : ∀ m ∈ ms, m.Fits env)
    (hlen : ∀ m ∈ ms, m.bytes.length ≤ env.config.maxHeaderSize) {maxConns : ℕ} {listenFd signalFd : ℤ}
    {world : ω} {m : Machine ω τ}
    (h : Reaches (Machine.next env) (LaneStep env k (oneByOne env ms more k))
      (Machine.start maxConns listenFd signalFd world) m) (hk : k < m.srv.pool.serial) :
    Served ms more k (m.srv.lane k) := by
  have hlim : WithinLimits env ms := fun m hm => ⟨hlen m hm, (hfits m hm).2.2.2.1⟩
  obtain ⟨w₀, h₀, hr⟩ := lane_of_run h hk
  obtain ⟨n, cur, hp, hphase⟩ := (hr.invariant
    (fun w => Reads True (more ∨ received (ownActs k w.trace) ≠ stream ms) ms k w)
    (Reads.start htls hproxy h₀ fun _ hn _ => hn) fun w e w' hi hok hn =>
      hi.next_oneByOne hlim (fun m hm => (hfits m hm).1) hok hn).phase
  refine ⟨hp.inOrder, fun _ i hi hr => hp.complete trivial hi hr, fun hmore => ?_⟩
  cases hphase with
  | reading op _ _ _ _ _ data code =>
    exact ⟨op, (mem_data.mp (data ▸ mem_singleton_self op)).1, .inl code⟩
  | sending op _ _ _ data code => exact ⟨op, (mem_data.mp (data ▸ mem_singleton_self op)).1, .inr code⟩
  | ended bad => exact absurd hmore bad

/-! ### Runs of one client -/

instance instDecidableAllAt {α : Type} (l : List α) (P : ℕ → α → Prop) [∀ i a, Decidable (P i a)] :
    Decidable (∀ i a, l[i]? = some a → P i a) :=
  decidable_of_iff (∀ i : Fin l.length, P i l[i])
    ⟨fun h i a ha => by
      obtain ⟨hi, rfl⟩ := List.getElem?_eq_some_iff.mp ha
      exact h ⟨i, hi⟩,
    fun h i => h i _ (List.getElem?_eq_getElem i.2)⟩

instance (env : Env ω τ) (k : ℕ) (C : LaneCond ω τ) [∀ n, Decidable (C.start n)]
    [∀ w cqe, Decidable (C.complete w cqe)] [Decidable C.shutdown] (m : Machine ω τ) (ev : Event) :
    Decidable (LaneStep env k C m ev) := by
  unfold LaneStep
  infer_instance

instance (env : Env ω τ) (o : Outcome ω τ) : Decidable (GoodAnswer env o) :=
  match o with
  | .dispatch _ _ _ => inferInstanceAs (Decidable (_ ∧ _))
  | .reject _ _ _ | .done _ => inferInstanceAs (Decidable True)

instance (ms : List Message) (acts : List Act) (data : Bytes) : Decidable (Apart ms acts data) := by
  unfold Apart
  infer_instance

/-- The message that is made of these bytes, if its body is as long as its head
says. -/
def Message.ofBytes (b : Bytes) : Option Message :=
  match h : http1ParseRequest b with
  | .ok (req, n) =>
    if hl : transferEncodings req = [] ∧ (b.drop n).length = req.contentLength then
      some ⟨b, req, n, h, .length hl.1 hl.2⟩
    else none
  | .error _ => none

/-- Two requests. -/
def firstGet : Bytes := bytes "GET /1 HTTP/1.1\r\nHost: a\r\n\r\n"

def secondGet : Bytes := bytes "GET /2 HTTP/1.1\r\nHost: a\r\n\r\n"

def twoGets : List Message := (Message.ofBytes firstGet).toList ++ (Message.ofBytes secondGet).toList

/-- The first response is sent, and its completion is handled. -/
def sentEvents (len : ℕ) : List Event :=
  [.step, .step, .call .waitFails, .post ⟨⟨.send, 1, 4, 0, 0, len, false⟩, len, [], false, 0⟩,
    .call .ready,
    .step, .step]

/-- The bytes of the receive that is armed then. -/
def nextRecvEvents (data : Bytes) : List Event :=
  [.call .waitFails, .post ⟨⟨.recv, 1, 5, 0, 0, 8192, true⟩, data.length, data, false, 0⟩,
    .call .ready, .step]

/-- One request after the other. -/
theorem requests_dispatched_in_order_two :
    ∃ m : Machine Unit Unit, (dispatched (ownActs 0 m.srv.trace)).length = 2 ∧
      Served twoGets False 0 (m.srv.lane 0) := by
  obtain ⟨m, hm, hlen, hk⟩ := exists_reaches (Machine.next plainEnv)
    (LaneStep plainEnv 0 (oneByOne plainEnv twoGets False 0)) (Machine.start 4 3 9 ())
    (connectEvents ++ recvEvents firstGet ++ sentEvents 67 ++ nextRecvEvents secondGet)
    (fun m => (dispatched (ownActs 0 m.srv.trace)).length = 2 ∧ 0 < m.srv.pool.serial)
    (by unfold oneByOne; decide +kernel)
  exact ⟨m, hlen, requests_dispatched_in_order rfl rfl (by decide +kernel) (by decide +kernel) hm hk⟩

/-- Two requests in one receive: the second one is lost when the response to the
first has been sent. -/
theorem second_request_lost :
    ¬∀ (env : Env Unit Unit) (ms : List Message) (k maxConns : ℕ) (listenFd signalFd : ℤ)
      (m : Machine Unit Unit), env.tls = false → env.config.proxyProtocol = false →
      (∀ m ∈ ms, m.Fits env) →
      Reaches (Machine.next env) (LaneStep env k (delivery ms k))
      (Machine.start maxConns listenFd signalFd ())
        m → k < m.srv.pool.serial → Served ms False k (m.srv.lane k) := by
  intro h
  obtain ⟨m, hm, hlen, hk, hrec, hno⟩ := exists_reaches (Machine.next plainEnv)
    (LaneStep plainEnv 0 (delivery twoGets 0)) (Machine.start 4 3 9 ())
    (connectEvents ++ recvEvents (firstGet ++ secondGet) ++ sentEvents 67)
    (fun m => (dispatched (ownActs 0 m.srv.trace)).length = 1 ∧ 0 < m.srv.pool.serial ∧
      received (ownActs 0 m.srv.trace) = stream twoGets ∧
      ∀ op ∈ (m.srv.lane 0).ring.own 0, op.code ≠ .send)
    (by unfold delivery; decide +kernel)
  have hs := h plainEnv twoGets 0 4 3 9 m rfl rfl (by decide +kernel) hm hk
  have := hs.complete hno 2 (by decide +kernel) (by
    show _ ≤ (received (ownActs 0 m.srv.trace)).length
    rw [hrec]
    decide +kernel)
  change 2 ≤ (dispatched (ownActs 0 m.srv.trace)).length at this
  omega

/-! ### Chunked bodies -/

/-- The parser gets nothing but what starts where a message starts, and what is
dispatched are the requests of the client. -/
def InSync (ms : List Message) (k : ℕ) (w : Work ω τ) : Prop :=
  (∀ p ∈ parseSpans 0 (ownActs k w.trace), ∃ i < ms.length, p.1 = (stream (ms.take i)).length) ∧
    dispatched (ownActs k w.trace) <+: ms.map Message.request

/-- The runs in which the kernel hands on what the client sends. -/
def anyPieces (ms : List Message) (k : ℕ) : LaneCond ω τ where
  start _ := True
  complete w cqe :=
    cqe.op.code = .recv → 0 < cqe.res → received (ownActs k w.trace) ++ cqe.data <+: stream ms
  shutdown := True

def inStep (ms : List Message) (k : ℕ) : LaneCond ω τ := ⟨fun _ => True, StepsWith ms k, True⟩

/-- **Chunked bodies that come with the end of their head keep the stream in
sync.** -/
theorem chunked_in_sync {env : Env ω τ} (htls : env.tls = false)
    (hproxy : env.config.proxyProtocol = false)
    {maxConns : ℕ} {listenFd signalFd : ℤ} {world : ω} {m : Machine ω τ}
    (h : Reaches (Machine.next env) (LaneStep env k (inStep ms k))
      (Machine.start maxConns listenFd signalFd world) m) (hk : k < m.srv.pool.serial) :
    InSync ms k (m.srv.lane k) := by
  have hreads : Reads False False ms k (m.srv.lane k) :=
    reads_of_run htls hproxy False.elim id (fun _ _ => False.elim) (fun w cqe hc => ⟨hc, False.elim⟩)
      (fun _ => id) h hk
  obtain ⟨n, cur, hp, _⟩ := hreads.phase
  refine ⟨fun p hm => ?_, hp.inOrder⟩
  obtain ⟨i, m, hi, hs, _⟩ := hp.spans p hm
  exact ⟨i, (List.getElem?_eq_some_iff.mp hi).1, hs⟩

instance (ms : List Message) (acts : List Act) (data : Bytes) : Decidable (InStep ms acts data) :=
  decidable_of_iff' _ (inStep_iff ms acts data)

instance (ms : List Message) (k : ℕ) (w : Work ω τ) (cqe : Cqe) : Decidable (StepsWith ms k w cqe) := by
  unfold StepsWith
  infer_instance

instance (req : Request) : Decidable (ChunkedOnly req) :=
  decidable_of_iff
    ((transferEncodings req).length = 1 ∧
      (∀ value ∈ transferEncodings req, eqIgnoreCase value (bytes "chunked") = true) ∧
      ∀ h ∈ req.headers, eqIgnoreCase h.name.bytes (bytes "Content-Length") = false) (by
    constructor
    · rintro ⟨h₁, h₂, h₃⟩
      obtain ⟨value, hv⟩ := List.length_eq_one_iff.mp h₁
      exact ⟨⟨value, hv, h₂ value (hv ▸ List.mem_singleton_self value)⟩, h₃⟩
    · rintro ⟨⟨value, hv, he⟩, h₃⟩
      rw [hv]
      exact ⟨rfl, by simpa using he, h₃⟩)

def Message.ofChunked (head : Bytes) {code : Bytes} (hc : ∃ b, Chunked b code) : Option Message :=
  match h : http1ParseRequest (head ++ code) with
  | .ok (req, n) =>
    if hl : ChunkedOnly req ∧ n = head.length then
      some ⟨_, req, n, h, .chunked hl.1 (by rw [hl.2, List.drop_left]; exact hc)⟩
    else none
  | .error _ => none

/-- A chunked request, whose only chunk looks like a request. -/
def chunkedHead : Bytes := bytes "POST / HTTP/1.1\r\nHost: a\r\nTransfer-Encoding: chunked\r\n\r\n"

def chunkData : Bytes := bytes "GET /admin HTTP/1.1\r\nHost: a\r\n\r\n"

def lastChunk : Bytes := bytes "0\r\n\r\n"

def chunkedBody : Bytes := bytes "20\r\n" ++ chunkData ++ bytes "\r\n" ++ lastChunk

theorem chunkedBody_chunked : ∃ b, Chunked b chunkedBody := by
  have hext : ChunkExt [] := ⟨.inl rfl, by simp [NoEol]⟩
  have last : Chunked [] (bytes "0" ++ [] ++ [13, 10] ++ ([] : List Bytes).flatMap (· ++ [13, 10]) ++
      [13, 10]) := .last (by decide +kernel) hext (by simp)
  have chunk : Chunked (chunkData ++ []) (bytes "20" ++ [] ++ [13, 10] ++ chunkData ++ [13, 10] ++ _) :=
    .chunk (by decide +kernel) (by decide +kernel) hext last
  exact ⟨_, chunk⟩

/-- A chunked request and another one behind it. -/
def chunkedThenGet : List Message :=
  (Message.ofChunked chunkedHead chunkedBody_chunked).toList ++ (Message.ofBytes secondGet).toList

/-- The chunked body comes with its head. -/
theorem chunked_in_sync_whole :
    ∃ m : Machine Unit Unit, (dispatched (ownActs 0 m.srv.trace)).length = 2 ∧
      InSync chunkedThenGet 0 (m.srv.lane 0) := by
  obtain ⟨m, hm, hlen, hk⟩ := exists_reaches (Machine.next plainEnv)
    (LaneStep plainEnv 0 (inStep chunkedThenGet 0)) (Machine.start 4 3 9 ())
    (connectEvents ++ recvEvents (chunkedHead ++ chunkedBody) ++ sentEvents 67 ++
      nextRecvEvents secondGet)
    (fun m => (dispatched (ownActs 0 m.srv.trace)).length = 2 ∧ 0 < m.srv.pool.serial)
    (by unfold inStep; decide +kernel)
  exact ⟨m, hlen, chunked_in_sync rfl rfl hm hk⟩

/-- The head comes with the size of the first chunk, and the chunk in the next
receive: it is dispatched as a request. -/
theorem chunk_dispatched :
    ¬∀ (env : Env Unit Unit) (ms : List Message) (k maxConns : ℕ) (listenFd signalFd : ℤ)
      (m : Machine Unit Unit), env.tls = false → env.config.proxyProtocol = false →
      Reaches (Machine.next env) (LaneStep env k (anyPieces ms k))
      (Machine.start maxConns listenFd signalFd ())
        m → k < m.srv.pool.serial → InSync ms k (m.srv.lane k) := by
  intro h
  obtain ⟨m, hm, hk, hno⟩ := exists_reaches (Machine.next plainEnv)
    (LaneStep plainEnv 0 (anyPieces chunkedThenGet 0)) (Machine.start 4 3 9 ())
    (connectEvents ++ recvEvents (chunkedHead ++ bytes "20\r\n") ++ sentEvents 67 ++
      nextRecvEvents (chunkData ++ bytes "\r\n"))
    (fun m => 0 < m.srv.pool.serial ∧
      ¬dispatched (ownActs 0 m.srv.trace) <+: chunkedThenGet.map Message.request)
    (by unfold anyPieces; decide +kernel)
  exact hno (h plainEnv chunkedThenGet 0 4 3 9 m rfl rfl hm hk).2

end Iohttp
