/-
# A response on its way

`arm_send` copies a response to the send buffer of the connection and submits a
send of all of it. The kernel accepts a part; `IOH_OP_SEND` adds it to
`send_offset` and submits a send of the rest, until nothing is left.
`Lane.nextTaken` is the run of a connection with the bytes that were accepted.
On a plaintext connection they are the response, from its first byte to its
last, and what follows the response is armed behind the last one.
-/
import Iohttp.Core.Exclusive

namespace Iohttp

open Runs List

variable {ω τ : Type}

/-- The bytes that the kernel has accepted, as a completion tells: a send takes
them from the send buffer. -/
def Work.taken (w : Work ω τ) : LaneEvent ω τ → Bytes
  | .complete cqe =>
    if cqe.op.code = .send then (w.conn.sendBuf.drop cqe.op.off).take cqe.res.toNat else []
  | .others _ | .drain | .force => []

/-- The run of connection `k`, with the bytes that the kernel has accepted. -/
def Lane.nextTaken (env : Env ω τ) (k : ℕ) (s : Work ω τ × Bytes) (ev : LaneEvent ω τ) :
    Option (Work ω τ × Bytes) :=
  (Lane.next env k s.1 ev).map fun w => (w, s.2 ++ s.1.taken ev)

/-- No send fails: the kernel accepts some of it, and there is an entry for the
rest. -/
def NoSendFails (env : Env ω τ) (w : Work ω τ) : LaneEvent ω τ → Prop
  | .complete cqe => cqe.op.code = .send → 0 ≤ cqe.res ∧ env.sqe w.ring.asked = true
  | .others _ | .drain | .force => True

instance (env : Env ω τ) (w : Work ω τ) : ∀ ev, Decidable (NoSendFails env w ev)
  | .complete cqe =>
    inferInstanceAs (Decidable (cqe.op.code = .send → 0 ≤ cqe.res ∧ env.sqe w.ring.asked = true))
  | .others _ | .drain | .force => isTrue trivial

/-- Nothing closes the connection: the timeout that was linked to the receive has
been cancelled, no close completes, and the server is not shut down at once. The
other connections may do anything, and the server may drain. -/
def StaysOpen : LaneEvent ω τ → Prop
  | .complete cqe => (cqe.op.code = .timeout → cqe.res = -ECANCELED) ∧ cqe.op.code ≠ .close
  | .others _ | .drain => True
  | .force => False

instance : ∀ ev : LaneEvent ω τ, Decidable (StaysOpen ev)
  | .complete cqe =>
    inferInstanceAs (Decidable ((cqe.op.code = .timeout → cqe.res = -ECANCELED) ∧ cqe.op.code ≠ .close))
  | .others _ | .drain => isTrue trivial
  | .force => isFalse id

/-- A step of a run in which a send is in the ring and does not fail. -/
def SendsWell (env : Env ω τ) (k : ℕ) (s : Work ω τ × Bytes) (ev : LaneEvent ω τ) : Prop :=
  s.1.ring.sends k ∧ NoSendFails env s.1 ev
  deriving Decidable

/-- How far the response `payload` has got since `w₁`, where it was given to
`arm_send`: the bytes accepted are the first of it, the send in the ring is of
the others, and no receive and no new close is armed before the last. -/
structure Transmitted (k : ℕ) (payload : Bytes) (w₁ : Work ω τ) (s : Work ω τ × Bytes) : Prop where
  inOrder : s.2 <+: payload
  rest : s.1.ring.sends k → s.1.conn.sendBuf = payload ∧ ∃ op :
    Op, s.1.ring.data k = [op] ∧ op.code = .send ∧
    op.off = s.2.length ∧ op.len = payload.length - s.2.length
  all : ¬s.1.ring.sends k → s.2 = payload
  waits : s.2 ≠ payload → ∀ op ∈ s.1.ring.own k, op.code ≠ .recv ∧
    (op.code = .close → op ∈ w₁.ring.own k)

variable {sent : Bytes} {w w' : Work ω τ} {ev : LaneEvent ω τ} {s' : Work ω τ × Bytes}

section

variable {env : Env ω τ} {k : ℕ} {payload : Bytes} {w₁ : Work ω τ}

/-- A part of the response has been accepted, and the rest is in the ring. -/
structure Sending (k : ℕ) (payload : Bytes) (w₁ : Work ω τ) (s : Work ω τ × Bytes) : Prop where
  live : s.1.conn.Live
  serial : s.1.conn.serial = k
  buf : s.1.conn.sendBuf = payload
  offset : s.1.conn.sendOffset = s.2.length
  inOrder : s.2 <+: payload
  data : ∃ op : Op, s.1.ring.data k = [op] ∧ op.code = .send ∧ op.off = s.2.length ∧
    op.len = payload.length - s.2.length
  opened : ∀ op ∈ s.1.ring.own k, op.code = .close → op ∈ w₁.ring.own k

/-- The rest is in the ring, or nothing is left. -/
def Transmits (k : ℕ) (payload : Bytes) (w₁ : Work ω τ) (s : Work ω τ × Bytes) : Prop :=
  Sending k payload w₁ s ∨ (¬s.1.ring.sends k ∧ s.2 = payload)

variable {s : Work ω τ × Bytes}

theorem Sending.sends (h : Sending k payload w₁ s) : s.1.ring.sends k := by
  obtain ⟨op, hdata, hcode, _⟩ := h.data
  exact ⟨op, hdata ▸ mem_singleton_self op, hcode⟩

theorem Sending.only (h : Sending k payload w₁ s) {op : Op} (hop : op ∈ s.1.ring.own k)
    (hc : op.code = .recv ∨ op.code = .send) :
    s.1.ring.data k = [op] ∧ op.code = .send ∧ op.off = s.2.length ∧
    op.len = payload.length - s.2.length := by
  obtain ⟨o, hdata, hcode, hoff, hlen⟩ := h.data
  have hmem := mem_data.mpr ⟨hop, hc⟩
  rw [hdata, mem_singleton] at hmem
  rw [hmem]
  exact ⟨hdata, hcode, hoff, hlen⟩

theorem Sending.code (h : Sending k payload w₁ s) {op : Op} (hop : op ∈ s.1.ring.own k) :
    op.code ≠ .recv := by
  intro hc
  have hsend := (h.only hop (.inl hc)).2.1
  rw [hc] at hsend
  cases hsend

theorem Transmits.transmitted (h : Transmits k payload w₁ s) : Transmitted k payload w₁ s := by
  rcases h with h | ⟨hno, hall⟩
  · exact ⟨h.inOrder, fun _ => ⟨h.buf, h.data⟩, fun hno => absurd h.sends hno,
      fun _ op hop => ⟨h.code hop, h.opened op hop⟩⟩
  · exact ⟨hall ▸ prefix_rfl, fun hs => absurd hs hno, fun _ => hall, fun hne => absurd hall hne⟩

theorem Sending.of_less (h : Sending k payload w₁ s) (hs : s'.1.conn.Live)
    (hserial : s'.1.conn.serial = s.1.conn.serial) (hbuf : s'.1.conn.sendBuf = s.1.conn.sendBuf)
    (hoff : s'.1.conn.sendOffset = s.1.conn.sendOffset) (hsent : s'.2 = s.2)
    (hdata : s'.1.ring.data k = s.1.ring.data k) (hown : ∀ op ∈ s'.1.ring.own k, op ∈ s.1.ring.own k) :
    Sending k payload w₁ s' := by
  refine ⟨hs, hserial.trans h.serial, hbuf.trans h.buf, ?_, ?_, ?_, fun op hop =>
    h.opened op (hown op hop)⟩
  · rw [hoff, hsent, h.offset]
  · rw [hsent]
    exact h.inOrder
  · rw [hdata, hsent]
    exact h.data

/-! ### A send completes -/

theorem take_next (h : sent <+: payload) (n : ℕ) :
    sent ++ (payload.drop sent.length).take n = payload.take (sent.length + n) := by
  rw [take_add, prefix_iff_eq_take.mp h, length_take, min_eq_left h.length_le]

theorem length_take_next (h : sent <+: payload) {n : ℕ} (hn : n ≤ payload.length - sent.length) :
    (payload.take (sent.length + n)).length = sent.length + n := by
  have := h.length_le
  rw [length_take, min_eq_left (by omega)]

theorem sendDone_sends (h : Vacant k w) : ¬(sendDone env w).ring.sends k := by
  have hno : ∀ {w' : Work ω τ}, w'.ring = w.ring → ¬w'.ring.sends k := by
    rintro w' hr ⟨op, hop, _⟩
    rw [hr, h.data] at hop
    cases hop
  unfold sendDone awaitNext
  simp only
  split_ifs
  · rw [sends_armRecv]
    exact hno rfl
  · rw [Work.setConn, sends_armRecv]
    exact hno rfl
  · unfold Ring.sends
    rw [data_armClose]
    exact hno rfl

/-- The connection behind a send that has taken `n` bytes. -/
def Conn.counted (c : Conn τ) (n : ℕ) : Conn τ :=
  { c with sendActive := false, sendOffset := c.sendOffset + n }

variable {cqe : Cqe}

theorem onSend_counted (h : 0 ≤ cqe.res) : onSend env w cqe =
    if (w.conn.counted cqe.res.toNat).sendOffset < (w.conn.counted cqe.res.toNat).sendBuf.length then
      resend env (w.setConn (w.conn.counted cqe.res.toNat))
    else sendDone env (w.setConn (w.conn.counted cqe.res.toNat)) := by
  exact if_neg (not_lt.mpr h)

theorem Sending.resend (hv : Vacant k w) (hl : w.conn.Live)
    (hbuf : w.conn.sendBuf = payload) (hoff : w.conn.sendOffset = sent.length) (hsent : sent <+: payload)
    (hsqe : env.sqe w.ring.asked = true)
    (hopened : ∀ op ∈ w.ring.own k, op.code = .close → op ∈ w₁.ring.own k) :
    Sending k payload w₁ (Iohttp.resend env w, sent) := by
  have hadd := adds_send hv.data hv.serial { w.conn with sendActive := true } w.conn.sendOffset
    (w.conn.sendBuf.length - w.conn.sendOffset)
  unfold Iohttp.resend
  rw [if_pos hsqe]
  refine ⟨hl, hv.serial, hbuf, hoff, hsent, ⟨_, hadd.data, rfl, hoff, ?_⟩, fun op hop hc => ?_⟩
  · rw [← hoff, ← hbuf]
    rfl
  · obtain hold | hno := hadd.opened op hop
    · exact hopened op hold hc
    · exact absurd hc hno

section

variable (h : Sending k payload w₁ s)

include h

/-- **A send completes.** The bytes accepted are the next of the response. The
rest is sent, or what follows the response is armed. -/
theorem Sending.send (hop : cqe.op ∈ s.1.ring.own k)
    (hwf : cqe.WellFormed) (hc : cqe.op.code = .send) (hres : 0 ≤ cqe.res)
    (hsqe : env.sqe s.1.ring.asked = true) :
    Transmits k payload w₁ (onSend env (s.1.retire cqe) cqe, s.2 ++ s.1.taken (.complete cqe)) := by
  obtain ⟨hdata, _, hoff, hlen⟩ := h.only hop (.inr hc)
  have hn : cqe.res.toNat ≤ payload.length - s.2.length := by
    have hle := hwf.2.2 hc
    omega
  have hsent : s.2 ++ s.1.taken (.complete cqe) = payload.take (s.2.length + cqe.res.toNat) := by
    rw [Work.taken, if_pos hc, h.buf, hoff]
    exact take_next h.inOrder _
  have hcount : Vacant k ((s.1.retire cqe).setConn ((s.1.retire cqe).conn.counted cqe.res.toNat)) :=
    ⟨h.serial, data_retire hdata rfl (ofConn_not_more hwf (mem_own.mp hop).2.2)⟩
  have hoffset : ((s.1.retire cqe).conn.counted cqe.res.toNat).sendOffset = s.2.length +
      cqe.res.toNat := by
    rw [← h.offset]
    rfl
  have hbuf : ((s.1.retire cqe).conn.counted cqe.res.toNat).sendBuf = payload := h.buf
  rw [hsent, onSend_counted hres, hoffset, hbuf]
  split_ifs with hmore
  · left
    refine Sending.resend hcount h.live hbuf ?_ (by exact take_prefix _ _) ?_ fun o ho =>
      h.opened o (mem_own_retire ho)
    · rw [length_take_next h.inOrder hn]
      exact hoffset
    · rw [← retire_asked s.1.ring cqe] at hsqe
      exact hsqe
  · exact .inr ⟨sendDone_sends hcount, take_of_length_le (not_lt.mp hmore)⟩

theorem Sending.retire
    (hrecv : cqe.op.code ≠ .recv) (hsend : cqe.op.code ≠ .send) :
    Sending k payload w₁ (s.1.retire cqe, s.2 ++ s.1.taken (.complete cqe)) := by
  refine h.of_less h.live rfl rfl rfl ?_ (data_retire_other ?_) fun _ ho => mem_own_retire ho
  · rw [Work.taken, if_neg hsend, append_nil]
  · simp [Op.isData, hrecv, hsend]

theorem Sending.complete
    (hsend : NoSendFails env s.1 (.complete cqe)) (hopen : StaysOpen
      (.complete cqe : LaneEvent ω τ)) (hop : cqe.op ∈ s.1.ring.own k) (hwf : cqe.WellFormed)
    (hn : completeConn env (s.1.retire cqe) cqe = some w') :
    Transmits k payload w₁ (w', s.2 ++ s.1.taken (.complete cqe)) := by
  obtain ⟨htimeout, hclose⟩ := hopen
  unfold completeConn at hn
  split at hn
  · next hc => exact absurd hc (h.code hop)
  · next hc =>
    cases hn
    obtain ⟨hres, hsqe⟩ := hsend hc
    exact h.send hop hwf hc hres hsqe
  · next hc => exact absurd hc hclose
  · next hc =>
    rw [onTimeout, if_pos (htimeout hc)] at hn
    cases hn
    exact .inl (h.retire (by simp [hc]) (by simp [hc]))
  · next hrecv hsend' _ _ =>
    cases hn
    exact .inl (h.retire hrecv hsend')

end

theorem drainConn_send (c : Conn τ) :
    (c.Live → (drainConn c).Live) ∧ (drainConn c).sendBuf = c.sendBuf ∧ (drainConn c).sendOffset =
    c.sendOffset := by
  unfold drainConn connTransition
  split_ifs <;> refine ⟨fun hl => ?_, rfl, rfl⟩
  · exact fun hfree => by cases hfree
  · exact hl
  · exact hl

/-- **One event while the response is on its way.** -/
theorem Sending.next (h : Sending k payload w₁ s) (hok : SendsWell env k s ev ∧ StaysOpen ev)
    (hn : Lane.nextTaken env k s ev = some s') : Transmits k payload w₁ s' := by
  obtain ⟨w', hw, rfl⟩ := Option.map_eq_some_iff.mp hn
  cases Lane.next_spec hw with
  | handled hop hwf _ hw => exact h.complete hok.1.2 hok.2 hop hwf hw
  | lost _ _ hdead => exact absurd h.live hdead
  | others hb =>
    refine .inl (h.of_less h.live rfl rfl rfl (append_nil _) ?_ fun op hop => hb.ops.mem_iff.mp hop)
    obtain ⟨op, hdata, _⟩ := h.data
    have hperm := hb.data
    rw [hdata] at hperm ⊢
    exact perm_singleton.mp hperm
  | drain =>
    obtain ⟨hlive, hbuf, hoff⟩ := drainConn_send s.1.conn
    exact .inl (h.of_less (hlive h.live) (drainConn_same s.1.conn).2.1 hbuf hoff (append_nil _) rfl
      fun _ hop => hop)
  | force => exact absurd hok.2 id

theorem Transmits.next (h : Transmits k payload w₁ s) (hok : SendsWell env k s ev ∧ StaysOpen ev)
    (hn : Lane.nextTaken env k s ev = some s') : Transmits k payload w₁ s' := by
  rcases h with h | ⟨hno, _⟩
  · exact h.next hok hn
  · exact absurd hok.1.1 hno

/-- On a plaintext connection with nothing to send, the response goes into the
send buffer and all of it into the ring. -/
theorem finish_responds {o : Outcome ω τ} (hr : respondsWith env o = some (w, payload))
    (hidle : w.conn.sendActive = false) (htls : w.conn.tls = none) (hsqe : env.sqe w.ring.asked = true)
    (hf : finish env o = some w') :
    ∃ c : Conn τ, w' = (w.setConn c).ask.prep (w.opFor .send 0 payload.length false) ∧
      c.state = w.conn.state ∧ c.serial = w.conn.serial ∧ c.sendBuf = payload ∧ c.sendOffset = 0 := by
  have hsend : armSend env w payload =
      ((w.setConn { w.conn with sendBuf := payload, sendOffset := 0, sendActive := true }).ask.prep
        (w.opFor .send 0 payload.length false), 0) := by
    rw [armSend_plain hidle htls]
    obtain ⟨_, h⟩ | ⟨hno, _⟩ := startSend_cases w payload
    · exact h
    · rw [hsqe] at hno
      cases hno
  cases o with
  | done v => cases hr
  | reject v status msg =>
    obtain ⟨out, hout, heq⟩ := Option.map_eq_some_iff.mp hr
    cases heq
    rw [finish, sendErrorResponse, hout] at hf
    simp only [hsend] at hf
    cases hf
    exact ⟨_, rfl, rfl, rfl, rfl, rfl⟩
  | dispatch v req total =>
    obtain ⟨out, hout, heq⟩ := Option.map_eq_some_iff.mp hr
    cases heq
    obtain rfl := compact_eq_some hf
    rw [dispatchRequest_eq, sendAnswer, hout]
    simp only [hsend]
    exact ⟨_, rfl, rfl, rfl, rfl, rfl⟩

/-- A response is given to `arm_send` when nothing of the connection is in the
ring: it is not refused as `EBUSY`. -/
theorem idle_of_responds (hv : Vacant k w) (hl : w.conn.Live) (ht : SendTold k w)
    (hr : respondsWith env (recvOutcome env w cqe) = some (w', payload)) :
    Vacant k w' ∧ w'.conn.Live ∧ w'.conn.sendActive = false := by
  have hvac := hv.recvOutcome env cqe
  have htold := (sendTold_rule env k).stages.recvOutcome ht cqe fun _ _ _ _ _ _ => trivial
  have hkeep := effect_recvOutcome env w cqe
  have hidle : ∀ v : Work ω τ, Vacant k v → SendTold k v → Keeps w v → v.conn.Live ∧
      v.conn.sendActive = false := by
    intro v hv' ht' hk'
    have hl' := hk'.live hl
    refine ⟨hl', Bool.eq_false_iff.mpr fun hactive => ?_⟩
    obtain ⟨op, hop, _⟩ := (ht' hl').2.mp hactive
    rw [hv'.data] at hop
    cases hop
  generalize recvOutcome env w cqe = o at hr hvac htold hkeep
  cases o with
  | done v => cases hr
  | reject v status msg =>
    obtain ⟨out, _, heq⟩ := Option.map_eq_some_iff.mp hr
    cases heq
    exact ⟨hvac.1, hidle _ hvac.1 htold.1 hkeep.1⟩
  | dispatch v req total =>
    obtain ⟨out, _, heq⟩ := Option.map_eq_some_iff.mp hr
    cases heq
    obtain ⟨hl', hactive⟩ := hidle v hvac htold hkeep
    have hedit := edits_routeTimeouts v.conn (v.answer env req).opts
    exact ⟨hvac.of_ring hedit.serial rfl, fun hfree => hl' (hedit.state.symm.trans hfree),
      hedit.sendActive.trans hactive⟩

/-- **Responses are transmitted exactly.** In the run of a connection a receive
completes and leads to a response, on a plaintext connection. Behind it, as long
as no send fails, there are entries and nothing closes the connection, the bytes
that the kernel accepts are the response in order, and the next receive or close of
the connection is armed behind the last of them. -/
theorem response_transmitted {w₀ w w' : Work ω τ} {cqe : Cqe} {s : Work ω τ × Bytes}
    (h₀ : Lane.Start env k anyRun w₀) (h : Reaches (Lane.next env k) anyRun.ok w₀ w) (hl : w.conn.Live)
    (hc : cqe.op.code = .recv) (hn : Lane.next env k w (.complete cqe) = some w₁)
    (hr : respondsWith env (recvOutcome env (w.retire cqe) cqe) = some (w', payload))
    (htls : w'.conn.tls = none) (hsqe : env.sqe w'.ring.asked = true)
    (hs : Reaches (Lane.nextTaken env k) (fun s ev => SendsWell env k s ev ∧ StaysOpen ev) (w₁, []) s) :
    Transmitted k payload w₁ s := by
  have hone : OneAtATime k w :=
    h.invariant (OneAtATime k) (oneAtATime_start h₀) fun _ _ _ hi _ hn => hi.next hn
  have hsending : Sending k payload w₁ (w₁, []) := by
    simp only [Lane.next, if_pos hl] at hn
    split_ifs at hn with hop
    have hvac := hone.one.vacant (hone.numbers hl) (mem_data.mpr ⟨hop.1, .inl hc⟩)
      (ofConn_not_more hop.2 (mem_own.mp hop.1).2.2)
    rw [completeConn, hc] at hn
    obtain ⟨hidle, hlive, hactive⟩ := idle_of_responds hvac hl (hone.told.retire (by simp [hc])) hr
    obtain ⟨c, rfl, hstate, hserial, hbuf, hoff⟩ := finish_responds hr hactive htls hsqe hn
    have hadd := adds_send hidle.data hidle.serial c 0 payload.length
    exact ⟨fun hfree => hlive (hstate.symm.trans hfree), hserial.trans hidle.serial, hbuf, hoff,
      nil_prefix,
      ⟨_, hadd.data, rfl, rfl, rfl⟩, fun _ hop _ => hop⟩
  have hend : Transmits k payload w₁ s :=
    hs.invariant (Transmits k payload w₁) (.inl hsending) fun _ _ _ hi hok hn => hi.next hok hn
  exact hend.transmitted

end

/-- A connection that has been accepted, with its first receive in the ring. -/
def acceptedWork : Work Unit Unit := accepted plainEnv ⟨allocConn 1 0 [], ⟨2, [], []⟩, 1, 0, [], ()⟩ 5

/-- Of the 67 bytes of a response, 10 are accepted, then none, then 20. -/
def shortSends : List (LaneEvent Unit Unit) :=
  [.complete ⟨⟨.send, 1, 4, 0, 0, 67, false⟩, 10, [], false, 0⟩,
    .complete ⟨⟨.timeout, 1, 3, 0, 0, 30000, false⟩, -ECANCELED, [], false, 0⟩,
    .complete ⟨⟨.send, 1, 5, 0, 10, 57, false⟩, 0, [], false, 0⟩,
    .complete ⟨⟨.send, 1, 6, 0, 10, 57, false⟩, 20, [], false, 0⟩]

/-- The response to a `GET`, in short sends. -/
theorem response_transmitted_short :
    ∃ (w₁ w' : Work Unit Unit) (payload : Bytes) (s : Work Unit Unit × Bytes),
    respondsWith plainEnv (recvOutcome plainEnv (acceptedWork.retire (recvCqe 2 getBytes))
      (recvCqe 2 getBytes)) =
      some (w', payload) ∧
    Reaches (Lane.nextTaken plainEnv 0) (fun s ev => SendsWell plainEnv 0 s ev ∧ StaysOpen ev)
    (w₁, []) s ∧
    s.2.length = 30 ∧
    Transmitted 0 payload w₁ s := by
  have hready : ∃ r ∈ respondsWith plainEnv (recvOutcome plainEnv
      (acceptedWork.retire (recvCqe 2 getBytes)) (recvCqe 2 getBytes)), r.1.conn.tls = none := by
    decide +kernel
  have hsends : ∃ w ∈ Lane.next plainEnv 0 acceptedWork (.complete (recvCqe 2 getBytes)),
      RunsTo (Lane.nextTaken plainEnv 0) (fun s ev => SendsWell plainEnv 0 s ev ∧ StaysOpen ev)
        (fun s => s.2.length = 30) (w, []) shortSends := by
    decide +kernel
  obtain ⟨⟨w', payload⟩, hr, htls⟩ := hready
  obtain ⟨w₁, hn, hsent⟩ := hsends
  obtain ⟨s, hs, hlen⟩ := exists_reaches _ _ _ shortSends _ hsent
  have hstart : Lane.Start plainEnv 0 anyRun acceptedWork := ⟨_, 1, 5, rfl, rfl, rfl, rfl, trivial⟩
  exact ⟨w₁, w', payload, s, hr, hs, hlen,
    response_transmitted hstart .start (by decide) rfl hn hr htls rfl hs⟩

/-- The timeout of the receive that has completed fires late. -/
def lateTimeout : Cqe := ⟨⟨.timeout, 1, 3, 0, 0, 30000, false⟩, -ETIME, [], false, 0⟩

/-- A timeout that fires late arms the close while the response is in the ring. -/
theorem close_before_response_sent :
    ¬∀ (env : Env Unit Unit) (k : ℕ) (payload : Bytes) (w₀ w w₁ w' : Work Unit Unit) (cqe : Cqe)
      (s : Work Unit Unit × Bytes), Lane.Start env k anyRun w₀ →
      Reaches (Lane.next env k) anyRun.ok w₀ w →
      w.conn.Live → cqe.op.code = .recv → Lane.next env k w (.complete cqe) = some w₁ →
      respondsWith env (recvOutcome env (w.retire cqe) cqe) = some (w', payload) →
      w'.conn.tls = none → env.sqe w'.ring.asked = true →
      Reaches (Lane.nextTaken env k) (SendsWell env k) (w₁, []) s → Transmitted k payload w₁ s := by
  intro h
  have hready : ∃ r ∈ respondsWith plainEnv (recvOutcome plainEnv
      (acceptedWork.retire (recvCqe 2 getBytes)) (recvCqe 2 getBytes)),
      r.1.conn.tls = none ∧ r.2 ≠ [] := by
    decide +kernel
  have hlate : ∃ w ∈ Lane.next plainEnv 0 acceptedWork (.complete (recvCqe 2 getBytes)),
      RunsTo (Lane.nextTaken plainEnv 0) (SendsWell plainEnv 0) (fun s => s.2 = [] ∧
          ∃ op ∈ s.1.ring.own 0, op.code = .close ∧ op ∉ w.ring.own 0)
        (w, []) [.complete lateTimeout] := by
    decide +kernel
  obtain ⟨⟨w', payload⟩, hr, htls, hsome⟩ := hready
  obtain ⟨w₁, hn, hrun⟩ := hlate
  obtain ⟨s, hs, hnone, op, hop, hcode, hnew⟩ := exists_reaches _ _ _ _ _ hrun
  have hstart : Lane.Start plainEnv 0 anyRun acceptedWork := ⟨_, 1, 5, rfl, rfl, rfl, rfl, trivial⟩
  have hsent := h plainEnv 0 payload acceptedWork acceptedWork w₁ w' _ s hstart .start
    (by decide) rfl hn hr htls
    rfl hs
  exact hnew ((hsent.waits (fun heq => hsome (heq.symm.trans hnone)) op hop).2 hcode)

end Iohttp
