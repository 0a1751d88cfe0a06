/-
# Draining

`ioh_server_shutdown` in the mode that drains, called from outside of the loop.
It tells the connections in state `httpActive` to close behind their response
and then runs the ordinary loop. A connection that was still in its PROXY
header or its handshake becomes `httpActive` there, and so does one whose accept
was in the queue: these are kept alive behind their response.

Between two completions a connection has at most one receive or send in the
ring (`AtMostOne`), so that a connection which is closed behind its response
has no second request to answer.
-/
import Iohttp.Core.Buffers
import Iohttp.Core.Sealed

namespace Iohttp

open Runs List

variable {ω τ : Type} {k : ℕ} {p : OpCode → Prop} {w w' : Work ω τ} {env : Env ω τ} {cqe : Cqe}
  {c : Conn τ} {m m' : Machine ω τ} {ev : Event}

/-! ### One operation at a time -/

/-- Connection `k` has at most one receive or send in the ring, and it is of
this kind. -/
structure AtMostOne (p : OpCode → Prop) (k : ℕ) (w : Work ω τ) : Prop where
  few : (w.ring.data k).length ≤ 1
  kind : ∀ op ∈ w.ring.data k, p op.code

/-- The operation of connection `k` has completed, and the next one is not armed
yet. -/
structure Vacant (k : ℕ) (w : Work ω τ) : Prop where
  serial : w.conn.serial = k
  data : w.ring.data k = []

theorem atMostOne_nil (h : w.ring.data k = []) : AtMostOne p k w :=
  ⟨by rw [h]; exact Nat.zero_le 1, by rw [h]; exact fun op hop => absurd hop not_mem_nil⟩

theorem atMostOne_single {op : Op} (h : w.ring.data k = [op]) (hp : p op.code) : AtMostOne p k w := by
  refine ⟨by rw [h]; exact le_rfl, fun o ho => ?_⟩
  rw [h, mem_singleton] at ho
  rw [ho]
  exact hp

theorem Vacant.atMostOne (h : Vacant k w) : AtMostOne p k w := atMostOne_nil h.data

theorem AtMostOne.of_ring (h : AtMostOne p k w) (hr : w'.ring = w.ring) : AtMostOne p k w' :=
  ⟨by rw [hr]; exact h.few, by rw [hr]; exact h.kind⟩

theorem AtMostOne.setConn (h : AtMostOne p k w) (c : Conn τ) : AtMostOne p k (w.setConn c) :=
  h.of_ring rfl

theorem AtMostOne.mono {q : OpCode → Prop} (h : AtMostOne p k w) (hpq : ∀ c, p c → q c) :
    AtMostOne q k w :=
  ⟨h.few, fun op hop => hpq _ (h.kind op hop)⟩

theorem Vacant.of_ring (h : Vacant k w) (hs : w'.conn.serial = w.conn.serial)
    (hr : w'.ring = w.ring) : Vacant k w' :=
  ⟨hs.trans h.serial, by rw [hr]; exact h.data⟩

theorem AtMostOne.armClose (env : Env ω τ) (h : AtMostOne p k w) : AtMostOne p k (armClose env w) :=
  ⟨by rw [data_armClose]; exact h.few, by rw [data_armClose]; exact h.kind⟩

theorem Vacant.armRecv (h : Vacant k w) : AtMostOne (fun _ => True) k (armRecv env w).1 := by
  rcases adds_armRecv h.data h.serial with ⟨_, op, _, _, _, hadds⟩ | ⟨_, hadds⟩
  · exact atMostOne_single hadds.data trivial
  · exact atMostOne_nil hadds.data

theorem Vacant.armSend (env : Env ω τ) (h : Vacant k w) (data : Bytes) :
    AtMostOne (· = .send) k (armSend env w data).1 ∧
      ((armSend env w data).1.conn.sendActive = true ∨ (armSend env w data).1.ring.data k = []) := by
  rcases adds_armSend h.data h.serial data with ⟨op, hc, hadds, hactive, _⟩ | ⟨hadds, _⟩
  · exact ⟨atMostOne_single hadds.data hc, .inl hactive⟩
  · exact ⟨atMostOne_nil hadds.data, .inr hadds.data⟩

theorem Vacant.sendErrorResponse (env : Env ω τ) (h : Vacant k w) (status : ℕ) (msg : Bytes) :
    AtMostOne (· = .send) k (sendErrorResponse env w status msg) := by
  unfold Iohttp.sendErrorResponse
  split
  · exact (h.armSend env _).1.of_ring rfl
  · exact h.atMostOne.of_ring rfl

theorem Vacant.sendAnswer (h : Vacant k w) (ans : Answer ω) :
    AtMostOne (· = .send) k (sendAnswer env w ans).1 := by
  unfold Iohttp.sendAnswer
  split
  · next out _ =>
    have hsend := (h.armSend env out).1
    simp only
    split_ifs
    · exact hsend.armClose env
    · exact hsend.of_ring rfl
  · exact h.atMostOne.of_ring rfl

theorem vacant_rule (k : ℕ) :
    RingRule env (fun _ => True) (Vacant k) (AtMostOne (fun _ => True) k)
      (AtMostOne (fun _ => True) k : Work ω τ → Prop) where
  conn h ha := h.of_ring ha.serial rfl
  note h _ _ := h.of_ring rfl rfl
  tick h := h.of_ring rfl rfl
  recv h := h.armRecv
  send {w} data h := by
    rcases adds_armSend h.data h.serial data with ⟨op, _, ha, hactive, hret⟩ | ⟨ha, hret⟩
    · exact .inl ⟨hret.ge, atMostOne_single ha.data trivial, hactive⟩
    · exact .inr ⟨hret, (keeps_armSend env w data).serial.trans h.serial, ha.data⟩
  sending h _ := h.atMostOne
  kept h _ := h.setConn _
  armed h := h
  close h := h.atMostOne.armClose env
  fail _ _ h := h.armClose env
  compacted h hc := by
    rw [compact_eq_some hc]
    exact h.setConn _

/-- A receive ends with at most one operation, or with a response to come and
none. -/
theorem Vacant.recvOutcome (env : Env ω τ) (h : Vacant k w) (cqe : Cqe) :
    OutcomeStaged (Vacant k) (AtMostOne (fun _ => True) k) (recvOutcome env w cqe) :=
  (vacant_rule k).stages.recvOutcome h cqe fun _ _ _ _ _ _ => trivial

theorem atMostOne_finish {o : Outcome ω τ} (h : OutcomeStaged (Vacant k) (AtMostOne (fun _ => True) k) o)
    (hf : finish env o = some w') :
    AtMostOne (fun _ => True) k w' ∧ ((∀ w, o ≠ .done w) → AtMostOne (· = .send) k w') := by
  cases o with
  | done w =>
    cases hf
    exact ⟨h, fun hno => absurd rfl (hno _)⟩
  | reject w status msg =>
    cases hf
    have hsend := h.1.sendErrorResponse env status msg
    exact ⟨hsend.mono fun _ _ => trivial, fun _ => hsend⟩
  | dispatch w req total =>
    obtain rfl := compact_eq_some hf
    have hanswered : Vacant k (w.answered env req) :=
      Vacant.of_ring h (edits_routeTimeouts ..).serial rfl
    have hsend : AtMostOne (· = .send) k (dispatchRequest env w req).1 := by
      exact hanswered.sendAnswer _
    exact ⟨(hsend.mono fun _ _ => trivial).setConn _, fun _ => hsend.setConn _⟩

theorem Vacant.resend (h : Vacant k w) : AtMostOne (· = .send) k (resend env w) := by
  unfold Iohttp.resend
  split_ifs
  · exact atMostOne_single (adds_send h.data h.serial _ _ _).data rfl
  · exact AtMostOne.armClose env (atMostOne_nil h.data)

theorem Vacant.sendDone (h : Vacant k w) (hshake : w.conn.state ≠ .tlsHandshake)
    (hkeep : w.conn.state ≠ .httpActive) : AtMostOne (· = .send) k (sendDone env w) := by
  have hsent : Vacant k (w.setConn w.conn.sentAll) := h.of_ring rfl rfl
  unfold Iohttp.sendDone
  simp only
  split_ifs with hs hk
  · exact absurd hs hshake
  · exact absurd hk.2 hkeep
  · exact hsent.atMostOne.armClose env

theorem Vacant.onSend (h : Vacant k w) (cqe : Cqe) :
    AtMostOne (fun _ => True) k (onSend env w cqe) ∧
      (w.conn.state ≠ .tlsHandshake → w.conn.state ≠ .httpActive →
        AtMostOne (· = .send) k (onSend env w cqe)) := by
  have hidle : Vacant k (w.setConn { w.conn with sendActive := false }) := h.of_ring rfl rfl
  refine ⟨(vacant_rule k).stages.onSend (fun hv _ => (hv.resend).mono fun _ _ => trivial)
    hidle cqe,
    fun hshake hkeep => ?_⟩
  have hcount : Vacant k ((w.setConn { w.conn with sendActive := false }).setConn { w.conn with
      sendActive := false, sendOffset := w.conn.sendOffset + cqe.res.toNat }) := h.of_ring rfl rfl
  unfold Iohttp.onSend
  simp only
  split_ifs
  · exact hidle.atMostOne.armClose env
  · exact hcount.resend
  · exact hcount.sendDone hshake hkeep

/-! ### The run of a connection -/

section

variable (h : AtMostOne p k w)

include h

theorem AtMostOne.retire (cqe : Cqe) : AtMostOne p k (w.retire cqe) := by
  have hsub := data_retire_sublist w.ring cqe k
  exact ⟨hsub.length_le.trans h.few, fun op hop => h.kind op (hsub.subset hop)⟩

theorem AtMostOne.single {op : Op} (hop : op ∈ w.ring.data k) : w.ring.data k = [op] := by
  obtain ⟨o, hone⟩ := length_eq_one_iff.mp (le_antisymm h.few (length_pos_of_mem hop))
  rw [hone] at hop ⊢
  rw [mem_singleton.mp hop]

theorem AtMostOne.vacant (hs : w.conn.serial = k)
    (hop : cqe.op ∈ w.ring.data k) (hm : cqe.more = false) : Vacant k (w.retire cqe) :=
  ⟨hs, data_retire (h.single hop) rfl hm⟩

theorem AtMostOne.others (hb : Beside k w w') (c : Conn τ) : AtMostOne p k (w'.setConn c) :=
  ⟨hb.data.length_eq.le.trans h.few, fun op hop => h.kind op (hb.data.mem_iff.mp hop)⟩

theorem AtMostOne.complete_other (hr : cqe.op.code ≠ .recv)
    (hs : cqe.op.code ≠ .send) (hw : completeConn env w cqe = some w') : AtMostOne p k w' := by
  unfold completeConn at hw
  split at hw
  · next hc => exact absurd hc hr
  · next hc => exact absurd hc hs
  · cases hw
    exact h.of_ring rfl
  · cases hw
    unfold onTimeout
    split_ifs
    · exact h
    · exact h.armClose env
  · cases hw
    exact h

end

/-- A connection keeps its number for as long as it is there. -/
def Conn.Numbers (k : ℕ) (c : Conn τ) : Prop := c.Live → c.serial = k

theorem Conn.Numbers.complete (h : w.conn.Numbers k)
    (hl : w.conn.Live) (hw : completeConn env w cqe = some w') : w'.conn.Numbers k := by
  intro hl'
  exact ((completeConn_worked hl hw).of_live hl').2.trans (h hl)

theorem Conn.Numbers.next {ev : LaneEvent ω τ} (h : w.conn.Numbers k)
    (hn : Lane.next env k w ev = some w') : w'.conn.Numbers k := by
  cases Lane.next_spec hn with
  | handled _ _ hl hw => exact Conn.Numbers.complete (w := w.retire _) h hl hw
  | lost | others => exact h
  | drain =>
    intro hl
    obtain ⟨hl', hs⟩ := drainConn_live hl
    exact hs.trans (h hl')
  | force => exact fun hl => absurd rfl hl

/-- Only the completion of a receive or a send can bring another one. -/
theorem AtMostOne.next {ev : LaneEvent ω τ} (hnum : w.conn.Numbers k) (h : AtMostOne p k w)
    (hdata : ∀ cqe, cqe.op ∈ w.ring.data k → Vacant k (w.retire cqe) →
      completeConn env (w.retire cqe) cqe = some w' → AtMostOne p k w')
    (hn : Lane.next env k w ev = some w') : AtMostOne p k w' := by
  cases Lane.next_spec hn with
  | @handled cqe _ hop hwf hl hw =>
    by_cases hc : cqe.op.code = .recv ∨ cqe.op.code = .send
    · have hmem : cqe.op ∈ w.ring.data k := mem_data.mpr ⟨hop, hc⟩
      exact hdata cqe hmem (h.vacant (hnum hl) hmem (ofConn_not_more hwf (mem_own.mp hop).2.2)) hw
    · rw [not_or] at hc
      exact (h.retire cqe).complete_other hc.1 hc.2 hw
  | lost => exact h.retire _
  | others hb => exact h.others hb _
  | drain | force => exact h.of_ring rfl

/-- **A connection has at most one receive or send in the ring.** -/
theorem atMostOne_next {ev : LaneEvent ω τ} (h : w.conn.Numbers k ∧ AtMostOne (fun _ => True) k w)
    (hn : Lane.next env k w ev = some w') : w'.conn.Numbers k ∧ AtMostOne (fun _ => True) k w' := by
  refine ⟨h.1.next hn, h.2.next h.1 (fun cqe hop hvac hw => ?_) hn⟩
  rcases (mem_data.mp hop).2 with hr | hs
  · rw [completeConn, hr] at hw
    exact (atMostOne_finish (hvac.recvOutcome env cqe) hw).1
  · rw [completeConn, hs] at hw
    cases hw
    exact (hvac.onSend cqe).1

theorem atMostOne_start {C : LaneCond ω τ} (h : Lane.Start env k C w) :
    w.conn.Numbers k ∧ AtMostOne (fun _ => True) k w := by
  obtain ⟨w₁, id, fd, rfl, hconn, hown, _⟩ := h
  have hvac : Vacant k (w₁.setConn (firstState env w₁.conn fd)) := by
    refine ⟨(advances_firstState env w₁.conn fd).serial.trans ?_, data_of_own hown⟩
    rw [hconn]
    rfl
  unfold accepted
  simp only
  split_ifs
  · exact ⟨fun hl => absurd rfl hl, (hvac.armRecv).of_ring rfl⟩
  · refine ⟨fun _ => ?_, hvac.armRecv⟩
    rw [armRecv_conn]
    exact hvac.serial

/-! ### Connections that are told to close -/

/-- The connection is closed behind its response, or is over. -/
def Conn.Quits (c : Conn τ) : Prop := c.state = .draining ∨ c.state = .closing ∨ c.state = .free

variable {st : ConnState} {n pos : ℕ} {fs : List Frame}

theorem Conn.Quits.transition (h : c.Quits)
    (hst : st = .httpActive ∨ st = .closing) : (connTransition c st).1.Quits := by
  unfold connTransition
  split_ifs with hv
  · rcases hst with rfl | rfl
    · rcases h with h | h | h <;> simp [h, validTransitions] at hv
    · exact .inr (.inl rfl)
  · exact h

theorem quits_rule (env : Env ω τ) : LayerRule env (Conn.Quits : Conn τ → Prop) where
  same {c c'} h hs := by
    unfold Conn.Quits
    rw [hs.state]
    exact h
  layer {c} hs h := by
    rcases h with h | h | h <;> rw [h] at hs <;> cases hs
  secure {c t} _ _ _ h :=
    Conn.Quits.transition (c := { c with tls := some t, tlsDone := true, timeoutPhase := .header })
    h (.inl rfl)
  shut {c} h := Conn.Quits.transition (c := { c with tls := none }) h (.inr rfl)
  free := .inr (.inr rfl)

theorem quits_drainConn (h : c.Quits) : (drainConn c).Quits := by
  unfold drainConn
  rw [if_neg]
  · exact h
  · intro hs
    rcases h with h | h | h <;> rw [h] at hs <;> cases hs

/-- **A connection that is told to close receives nothing behind its
response.** -/
theorem quits_next {ev : LaneEvent ω τ}
    (h : w.conn.Numbers k ∧ w.conn.Quits ∧ AtMostOne (· = .send) k w)
    (hn : Lane.next env k w ev = some w') :
    w'.conn.Numbers k ∧ w'.conn.Quits ∧ AtMostOne (· = .send) k w' := by
  obtain ⟨hnum, hquits, hone⟩ := h
  refine ⟨hnum.next hn, ?_, hone.next hnum (fun cqe hop hvac hw => ?_) hn⟩
  · cases Lane.next_spec hn with
    | handled _ _ _ hw => exact LayerRule.completeConn (w := w.retire _) (quits_rule env) hquits hw
    | lost | others => exact hquits
    | drain => exact quits_drainConn hquits
    | force => exact (quits_rule env).free
  · -- there is no receive that could complete
    rw [completeConn, hone.kind cqe.op hop] at hw
    cases hw
    refine (hvac.onSend cqe).2 ?_ ?_ <;>
      rcases hquits with h | h | h <;> exact fun hst => absurd (h.symm.trans hst) (by decide)

/-- The states that a connection of the server gets to. -/
def Conn.Usual (c : Conn τ) : Prop :=
  c.state ≠ .accepting ∧ c.state ≠ .websocket ∧ c.state ≠ .sse ∧ c.state ≠ .quic

theorem Conn.Usual.transition (h : c.Usual)
    (hst : st ∈ [ConnState.proxyHeader, .tlsHandshake, .httpActive, .draining, .closing]) :
    (connTransition c st).1.Usual := by
  unfold Conn.Usual
  rw [connTransition_state]
  split_ifs
  · fin_cases hst <;> decide
  · exact h

theorem usual_rule (env : Env ω τ) : LayerRule env (Conn.Usual : Conn τ → Prop) where
  same {c c'} h hs := by
    unfold Conn.Usual
    rw [hs.state]
    exact h
  layer {c} hs h := by
    unfold nextLayer
    split_ifs
    · exact Conn.Usual.transition (c := { c with tls := _, tlsDone := false }) h (by simp)
    · exact h.transition (by simp)
  secure {c t} _ _ _ h :=
    Conn.Usual.transition (c := { c with tls := some t, tlsDone := true, timeoutPhase := .header })
    h (by simp)
  shut {c} h := Conn.Usual.transition (c := { c with tls := none }) h (by simp)
  free := by simp [Conn.Usual, freeConn]

theorem usual_firstState (c : Conn τ) (fd : ℤ) (hs : c.state = .accepting) :
    (firstState env c fd).Usual := by
  unfold firstState nextLayer connTransition
  split_ifs <;> simp_all [Conn.Usual, validTransitions]

theorem usual_drainConn (h : c.Usual) : (drainConn c).Usual := by
  unfold drainConn
  split_ifs
  · exact Conn.Usual.transition h (by simp)
  · exact h

/-- When the drain begins, every connection that is past its PROXY header and
its handshake is told to close. -/
theorem quits_of_usual (h : c.Usual) (hp : c.state ≠ .proxyHeader) (ht : c.state ≠ .tlsHandshake) :
    (drainConn c).Quits := by
  obtain ⟨h₁, h₂, h₃, h₄⟩ := h
  unfold drainConn
  split_ifs with hs
  · left
    simp [connTransition, hs, validTransitions]
  · unfold Conn.Quits
    cases hc : c.state <;> simp_all

/-! ### The drain -/

/-- The step handles a completion of connection `c`. -/
def Machine.Handles (m : Machine ω τ) (ev : Event) (cqe : Cqe) (c : Conn τ) : Prop :=
  ev = .step ∧ m.current = some cqe ∧
    ∃ i, findConnById m.srv.pool cqe.op.id = some i ∧ m.srv.pool.conns[i]? = some c

/-- The step gives connection `k` a response: a request on it is answered or
refused. -/
def Responds (env : Env ω τ) (m : Machine ω τ) (ev : Event) (k : ℕ) : Prop :=
  ∃ cqe c, m.Handles ev cqe c ∧ c.serial = k ∧ cqe.op.code = .recv ∧
    (respondsWith env (recvOutcome env ((m.srv.retire cqe).focus c) cqe)).isSome = true

/-- The step is the end of a response behind which a connection is kept alive
for another request. -/
def KeepsAlive (m : Machine ω τ) (ev : Event) : Prop :=
  ∃ cqe c, m.Handles ev cqe c ∧ cqe.op.code = .send ∧ 0 ≤ cqe.res ∧
    c.sendBuf.length ≤ c.sendOffset + cqe.res.toNat ∧ c.state = .httpActive ∧ c.keepAlive = true

/-- Connections are finished: none is kept alive, one that is given a response
receives nothing any more and is given no other, and when the shutdown has
returned there is none left. -/
structure Finishing (env : Env ω τ) (ok : Machine ω τ → Event → Prop) (m : Machine ω τ) : Prop where
  kept : ∀ ev, ¬KeepsAlive m ev
  once : ∀ (ev : Event) (k : ℕ) (m₁ m₂ : Machine ω τ), Responds env m ev k → m.next env ev = some m₁ →
    Reaches (Machine.next env) ok m₁ m₂ →
    (∀ op ∈ m₂.srv.ring.ops, op.serial = k → op.code ≠ .recv) ∧ ∀ ev, ¬Responds env m₂ ev k
  closed : m.stack = [] → ∀ c ∈ m.srv.pool.conns, ¬c.Live

/-- Before the drain: a SIGTERM comes only while no connection is active, and
fewer than `2 ^ 32` connections are accepted. -/
def BeforeDrain (env : Env ω τ) (m : Machine ω τ) (ev : Event) : Prop :=
  CalmTerm env m ev ∧ (ev = .step → ∀ cqe ∈ m.current, cqe.op.code = .accept → 0 ≤ cqe.res →
    m.srv.pool.serial + 1 < 2 ^ 32)
  deriving Decidable

/-- In the drain: no connection is accepted any more. -/
def InDrain (env : Env ω τ) (m : Machine ω τ) (ev : Event) : Prop :=
  CalmTerm env m ev ∧ (ev = .step → ∀ cqe ∈ m.current, cqe.op.code = .accept → cqe.res < 0)
  deriving Decidable

/-- The lane of a connection, whatever happens to it. -/
def anyRun : LaneCond ω τ := ⟨fun _ => True, fun _ _ => True, True⟩

theorem BeforeDrain.laneStep (h : BeforeDrain env m ev) (k : ℕ) : LaneStep env k anyRun m ev :=
  ⟨h.1, fun _ => trivial, fun he cqe hc =>
    ⟨fun hcode hres => ⟨h.2 he cqe hc hcode hres, fun _ => trivial⟩, fun _ _ => trivial⟩⟩

theorem InDrain.before (h : InDrain env m ev) : BeforeDrain env m ev :=
  ⟨h.1, fun he cqe hc hcode hres => absurd (h.2 he cqe hc hcode) (not_lt.mpr hres)⟩

theorem inDrain_conn (hcur : m.current = some cqe)
    (hc : cqe.op.code.ofConn = true) : InDrain env m ev := by
  have hsame : ∀ cqe' ∈ m.current, cqe' = cqe := fun cqe' h => Option.some.inj (Eq.trans h.symm hcur)
  refine ⟨fun _ cqe' h hcode => ?_, fun _ cqe' h hcode => ?_⟩
  · rw [hsame cqe' h] at hcode
    rw [hcode] at hc
    cases hc
  · rw [hsame cqe' h] at hcode
    rw [hcode] at hc
    cases hc

/-- In a queue that is in order, the completion is that of an operation of the
connection. -/
theorem Orderly.handles (h : Orderly env m) (hh : m.Handles ev cqe c)
    (hcode : cqe.op.code.ofConn = true) :
    c.Live ∧ c ∈ m.srv.pool.conns ∧ cqe.op ∈ m.srv.ring.own c.serial ∧ cqe.WellFormed ∧
      m.srv.lane c.serial = m.srv.focus c := by
  obtain ⟨_, hcur, i, hi, hc⟩ := hh
  obtain ⟨d, hd, hl, hid⟩ := findConnById_some hi
  obtain rfl : c = d := Option.some.inj (hc.symm.trans hd)
  have hm := mem_of_getElem? hc
  have hfirst := h.aligned.current hcur
  have hop : cqe.op ∈ m.srv.ring.ops :=
    mem_append_right _ (h.queued.pending _ cqe le_rfl hfirst hcode)
  have hser : c.serial = cqe.op.serial :=
    IdOf.inj h.numbered.few (h.numbered.live c hm hl)
      (by rw [hid]; exact h.numbered.ops _ (mem_connOps.mpr ⟨hop, hcode⟩))
  exact ⟨hl, hm, mem_own.mpr ⟨hop, hser.symm, hcode⟩, h.queued.wellFormed cqe (mem_of_getElem? hfirst),
    lane_live h.numbered.distinct hm hl⟩

/-! ### The end of the drain -/

/-- The outermost call is a shutdown. -/
inductive Based : List Frame → Prop where
  | shutdown (e : ℕ) : Based [.drain e]
  | call (f : Frame) {fs : List Frame} : Based fs → Based (f :: fs)

/-- Where the calls stand once the shutdown has been called: the drain waits,
with the server stopped; it walks the queue; or it has returned, and no
connection is left. -/
inductive Shutting (m : Machine ω τ) : Prop where
  | waiting {e : ℕ} {fs : List Frame} (stack : m.stack = .drain e :: fs) (base : Based (.drain e :: fs))
      (stopped : m.srv.stopped = true)
  | walking {pos n : ℕ} {fs : List Frame} (stack : m.stack = .batch pos n :: fs) (base : Based fs)
  | returned (stack : m.stack = []) (stopped : m.srv.stopped = true)
    (closed : ∀ c ∈ m.srv.pool.conns, ¬c.Live)

theorem Shutting.ret (h : Based m.stack) : Shutting m.ret := by
  unfold Machine.ret
  split
  · next e fs hs =>
    rw [hs] at h
    refine .waiting rfl ?_ rfl
    cases h with
    | shutdown => exact .shutdown _
    | call _ h => exact .call _ h
  · next hno =>
    rcases hs : m.stack with _ | ⟨f, fs⟩
    · rw [hs] at h
      cases h
    · cases f with
      | drain e => exact absurd hs (hno e fs)
      | batch pos n =>
        rw [hs] at h
        cases h with
        | call _ h => exact .walking hs h

theorem Shutting.enter (h : Based m.stack) {r : CallResult} (hm : m.enter r = some m') :
    Shutting m' := by
  cases r with
  | submitFails =>
    cases hm
    exact .ret h
  | waitFails =>
    simp only [Machine.enter] at hm
    split_ifs at hm
    cases hm
    exact .ret h
  | ready =>
    simp only [Machine.enter] at hm
    split_ifs at hm
    cases hm
    exact .walking rfl h

theorem Shutting.advance (hs : m.stack = .batch pos n :: fs)
    (h : Based fs) : Shutting m.advance := by
  unfold Machine.advance
  rw [hs]
  exact .walking rfl h

theorem Shutting.shutdownDone (env : Env ω τ)
    (hs : m.stack = .batch pos n :: fs) (h : Based fs) : Shutting (m.shutdownDone env) := by
  rw [shutdownDone_batch hs]
  exact .advance hs h

theorem forceClose_closed (s : Srv ω τ) : ∀ c ∈ (forceClose s).pool.conns, ¬c.Live := by
  intro c hc hl
  obtain ⟨d, _, rfl⟩ := mem_map.mp hc
  split_ifs at hl with hd
  · exact hl hd
  · exact hl rfl

theorem Shutting.handleAt (hs : m.stack = .batch pos n :: fs) (h : Based fs)
    (hm : m.handleAt env pos cqe = some m') : Shutting m' := by
  unfold Machine.handleAt at hm
  by_cases hc : cqe.op.code = .signal
  · simp only [hc, if_true, Option.some.injEq] at hm
    subst hm
    unfold Machine.onSignal
    split_ifs
    · exact .shutdownDone env hs h
    · exact .waiting (congrArg (Frame.drain 0 :: ·) hs) (.call _ (.call _ h)) rfl
    · exact .advance hs h
  · simp only [hc, if_false, Option.map_eq_some_iff] at hm
    obtain ⟨s, _, rfl⟩ := hm
    exact .advance hs h

theorem Shutting.step (h : Shutting m) (hm : m.step env = some m') : Shutting m' := by
  unfold Machine.step at hm
  cases h with
  | @waiting e fs stack base stopped =>
    simp only [stack] at hm
    split_ifs at hm
    cases hm
    cases base with
    | shutdown => exact .returned rfl stopped (forceClose_closed m.srv)
    | call _ base =>
      -- the shutdown was called from a walk, or by another drain
      rcases fs with _ | ⟨f, fs⟩
      · cases base
      · cases f with
        | drain e' => exact .waiting rfl base stopped
        | batch pos n =>
          cases base with
          | call _ base => exact .shutdownDone env rfl base
  | @walking pos n fs stack base =>
    simp only [stack] at hm
    split_ifs at hm
    · cases hm
      exact .ret base
    · rw [Option.bind_eq_some_iff] at hm
      obtain ⟨cqe, _, hm⟩ := hm
      exact .handleAt stack base hm
  | returned stack =>
    simp only [stack] at hm
    cases hm

theorem Shutting.next (h : Shutting m) (hm : m.next env ev = some m') : Shutting m' := by
  cases ev with
  | post cqe =>
    simp only [Machine.next] at hm
    split_ifs at hm
    cases hm
    cases h with
    | waiting stack base stopped => exact .waiting stack base stopped
    | walking stack base => exact .walking stack base
    | returned stack stopped closed => exact .returned stack stopped closed
  | call r =>
    simp only [Machine.next, Machine.call] at hm
    cases h with
    | waiting stack base stopped =>
      simp only [stack] at hm
      split_ifs at hm
      exact .enter base hm
    | walking stack base => simp [stack] at hm
    | returned stack stopped closed => simp [stack, stopped] at hm
  | shutdown mode =>
    simp only [Machine.next] at hm
    split_ifs at hm with hs
    rw [not_not] at hs
    cases mode with
    | immediate =>
      cases hm
      exact .returned hs rfl (forceClose_closed _)
    | drain =>
      cases hm
      exact .waiting rfl (.shutdown 0) rfl
  | step => exact h.step hm

/-! ### The whole run -/

theorem handles_next (hh : m.Handles ev cqe c) (hc : cqe.op.code = .recv)
    (hn : m.next env ev = some m') :
    ∃ w, finish env (recvOutcome env ((m.srv.retire cqe).focus c) cqe) = some w ∧ m'.srv.ring = w.ring ∧
      m'.srv.pool.serial = m.srv.pool.serial := by
  obtain ⟨rfl, hcur, i, hi, hconn⟩ := hh
  have hhandle := step_handle hcur (by rw [hc]; decide) hn
  simp only [handle, hc, onConn] at hhandle
  rw [hi] at hhandle
  simp only [hconn, Option.bind_some, Option.map_eq_some_iff, completeConn, hc] at hhandle
  obtain ⟨w, hw, he⟩ := hhandle
  exact ⟨w, hw, by rw [← he]; rfl, by rw [← he]; rfl⟩

/-- The server from the start of the drain on: the queue is in order, every
connection has at most one receive or send in the ring, and is told to close. -/
structure Drains (env : Env ω τ) (m : Machine ω τ) : Prop where
  orderly : Orderly env m
  one : ∀ k < m.srv.pool.serial, AtMostOne (fun _ => True) k (m.srv.lane k)
  quits : EachConn Conn.Quits m.srv
  shutting : Shutting m

theorem Drains.silent (h : Drains env m)
    (hk : k < m.srv.pool.serial) (hone : AtMostOne (· = .send) k (m.srv.lane k))
    (hr : Reaches (Machine.next env) (InDrain env) m m') : AtMostOne (· = .send) k (m'.srv.lane k) := by
  have hlane := lane_of_reaches (C := anyRun) h.orderly hk (hr.mono fun _ _ hok => hok.before.laneStep k)
  refine (hlane.invariant (fun w => w.conn.Numbers k ∧ w.conn.Quits ∧ AtMostOne (· = .send) k w) ?_
    fun w ev w' hi _ hn => quits_next hi hn).2.2
  rcases lane_cases h.orderly.numbered.distinct k with ⟨c, hc, _, hs, he⟩ | ⟨_, he⟩
  · rw [he] at hone ⊢
    exact ⟨fun _ => hs, h.quits c hc, hone⟩
  · rw [he] at hone ⊢
    exact ⟨fun hl => absurd rfl hl, (quits_rule env).free, hone⟩

section

variable {env : Env ω τ} {maxConns : ℕ} {listenFd signalFd : ℤ} {world : ω} {m m₀ m₁ : Machine ω τ}

theorem usual_of_run
    (hrun : Reaches (Machine.next env) (BeforeDrain env)
      (Machine.start maxConns listenFd signalFd world) m) :
    EachConn Conn.Usual m.srv := by
  have hrule : SrvRule env (EachConn Conn.Usual) (fun _ _ => True) (fun _ _ => True) fun _ => True :=
    (usual_rule env).srvRule (fun s cqe _ => usual_firstState _ _ rfl) fun c hc => usual_drainConn hc
  refine hrule.holds (fun _ _ _ h => h) ?_ (hrun.mono fun m ev _ =>
    ⟨fun _ cqe _ => ?_, fun _ => trivial⟩)
  · intro c hc
    rw [eq_of_mem_replicate hc]
    exact (usual_rule env).free
  · unfold okCqe
    split
    · exact fun _ => trivial
    all_goals trivial

/-- **What holds in the drain.** -/
theorem drains_of_run
    (hrun : Reaches (Machine.next env) (BeforeDrain env)
      (Machine.start maxConns listenFd signalFd world) m)
    (hlayers : ∀ c ∈ m.srv.pool.conns, c.state ≠ .proxyHeader ∧ c.state ≠ .tlsHandshake)
    (hbegin : m.next env (.shutdown .drain) = some m₀)
    (h : Reaches (Machine.next env) (InDrain env) m₀ m₁) :
    Drains env m₁ := by
  have hstep : BeforeDrain env m (.shutdown .drain) :=
    ⟨fun hev => (by cases hev), fun hev => (by cases hev)⟩
  have hall : Reaches (Machine.next env) (BeforeDrain env)
      (Machine.start maxConns listenFd signalFd world) m₁ :=
    (Reaches.step _ hrun hstep hbegin).trans (h.mono fun _ _ hok => hok.before)
  have hlanes := fun k => lanes_of_run (C := anyRun) (hall.mono fun _ _ hok => hok.laneStep k)
  have hm₀ : m.stack = [] ∧ m₀ = { m with srv := drainBegin env m.srv, stack := [.drain 0] } := by
    simp only [Machine.next] at hbegin
    split_ifs at hbegin with hs
    exact ⟨not_not.mp hs, (Option.some.inj hbegin).symm⟩
  refine ⟨(hlanes 0).1, fun k hk => ?_, ?_, ?_⟩
  · obtain ⟨w₀, hstart, hreach⟩ := (hlanes k).2 hk
    exact (hreach.invariant (fun w => w.conn.Numbers k ∧ AtMostOne (fun _ => True) k w)
      (atMostOne_start hstart) fun w ev w' hi _ hn => atMostOne_next hi hn).2
  · -- who was told to close stays so, and nobody comes
    have hrule : SrvRule env (EachConn Conn.Quits) (fun _ _ => True) (fun _ _ => False) fun _ => True :=
      (quits_rule env).srvRule (fun s cqe hno => hno.elim) fun c hc => quits_drainConn hc
    refine hrule.holds (fun _ _ _ h => h) ?_ (h.mono fun m ev hok =>
      ⟨fun he cqe hc => ?_, fun _ => trivial⟩)
    · rw [hm₀.2]
      intro c hc
      obtain ⟨d, hd, rfl⟩ := mem_map.mp hc
      exact quits_of_usual (usual_of_run hrun d hd) (hlayers d hd).1 (hlayers d hd).2
    · unfold okCqe
      split
      · next hcode => exact fun hres => absurd (hok.2 he cqe hc hcode) (not_lt.mpr hres)
      all_goals trivial
  · refine h.invariant Shutting ?_ fun m ev m' hi _ hn => hi.next hn
    rw [hm₀.2]
    exact .waiting rfl (.shutdown 0) rfl

/-- **Draining finishes connections**, in every run in which no connection is in
its PROXY header or its handshake when the shutdown is called, and none is
accepted in the drain. -/
theorem drain_finishes
    (hrun : Reaches (Machine.next env) (BeforeDrain env)
      (Machine.start maxConns listenFd signalFd world) m)
    (hlayers : ∀ c ∈ m.srv.pool.conns, c.state ≠ .proxyHeader ∧ c.state ≠ .tlsHandshake)
    (hbegin : m.next env (.shutdown .drain) = some m₀)
    (h : Reaches (Machine.next env) (InDrain env) m₀ m₁) :
    Finishing env (InDrain env) m₁ := by
  have hdrains : ∀ {m' : Machine ω τ}, Reaches (Machine.next env) (InDrain env) m₀ m' → Drains env m' :=
    fun hr => drains_of_run hrun hlayers hbegin hr
  refine ⟨?_, ?_, ?_⟩
  · rintro ev ⟨cqe, c, hh, hcode, _, _, hstate, _⟩
    have hc := ((hdrains h).orderly.handles hh (by rw [hcode]; rfl)).2.1
    rcases (hdrains h).quits c hc with hq | hq | hq <;> exact absurd (hstate.symm.trans hq) (by decide)
  · rintro ev k m' m₂ ⟨cqe, c, hh, rfl, hcode, hresp⟩ hn h₂
    have hown : cqe.op.code.ofConn = true := by rw [hcode]; rfl
    obtain ⟨hl, hc, hop, hwf, hlane⟩ := (hdrains h).orderly.handles hh hown
    have hlt := ((hdrains h).orderly.numbered.live c hc hl).1
    -- the receive was the only operation, and a response leaves a send
    have hvac : Vacant c.serial ((m₁.srv.retire cqe).focus c) := by
      have hone := (hdrains h).one c.serial hlt
      rw [hlane] at hone
      exact hone.vacant (w := m₁.srv.focus c) rfl (mem_data.mpr ⟨hop, .inl hcode⟩)
        (ofConn_not_more hwf hown)
    obtain ⟨w, hw, hring, hserial⟩ := handles_next hh hcode hn
    have hsend := (atMostOne_finish (hvac.recvOutcome env cqe) hw).2 fun w' hdone => by
      rw [hdone] at hresp
      cases hresp
    have h' : Reaches (Machine.next env) (InDrain env) m₀ m' :=
      h.step ev (inDrain_conn hh.2.1 hown) hn
    have hsilent := (hdrains h').silent (by rw [hserial]; exact hlt)
      (AtMostOne.of_ring (w := w) hsend hring) h₂
    have hnone : ∀ op ∈ m₂.srv.ring.ops, op.serial = c.serial → op.code ≠ .recv := by
      intro op hm hs hr
      have := hsilent.kind op (mem_filter.mpr ⟨hm, by simp [Op.isData, hs, hr]⟩)
      rw [hr] at this
      cases this
    refine ⟨hnone, ?_⟩
    rintro ev' ⟨cqe', c', hh', hs', hcode', _⟩
    have hop' := ((hdrains (h'.trans h₂)).orderly.handles hh' (by rw [hcode']; rfl)).2.2.1
    obtain ⟨hm', hser', _⟩ := mem_own.mp hop'
    exact hnone cqe'.op hm' (hser'.trans hs') hcode'
  · intro hstack
    cases (hdrains h).shutting with
    | waiting stack | walking stack => rw [hstack] at stack; cases stack
    | returned _ _ closed => exact closed

end

/-- A client that is connected sends its request in the drain. -/
theorem drain_finishes_get :
    ∃ m m₀ m₁ : Machine Unit Unit, m.next plainEnv (.shutdown .drain) = some m₀ ∧
      Reaches (Machine.next plainEnv) (InDrain plainEnv) m₀ m₁ ∧
      (∃ c ∈ m₁.srv.pool.conns, c.sendActive = true) ∧ Finishing plainEnv (InDrain plainEnv) m₁ := by
  obtain ⟨m, hm, hlayers, m₀, hbegin, hrun⟩ := exists_reaches (Machine.next plainEnv)
    (BeforeDrain plainEnv) (Machine.start 4 3 9 ()) connectEvents
    (fun m => (∀ c ∈ m.srv.pool.conns, c.state ≠ .proxyHeader ∧ c.state ≠ .tlsHandshake) ∧
      ∃ m₀ ∈ m.next plainEnv (.shutdown .drain),
        RunsTo (Machine.next plainEnv) (InDrain plainEnv)
          (fun m₁ => ∃ c ∈ m₁.srv.pool.conns, c.sendActive = true) m₀ (comes 2 getBytes ++ [.step]))
    (by decide +kernel)
  obtain ⟨m₁, h₁, hsend⟩ := exists_reaches _ _ _ _ _ hrun
  exact ⟨m, m₀, m₁, hbegin, h₁, hsend, drain_finishes hm hlayers hbegin h₁⟩

/-- A server behind a proxy. -/
def proxyEnv : Env Unit Unit :=
  { plainEnv with
    config := { configInit with proxyProtocol := true }
    proxyDecode := proxyDecode .never }

/-- The end of the first response of the first connection. -/
def responseSent : Cqe := ⟨⟨.send, 1, 5, 0, 0, 67, false⟩, 67, [], false, 0⟩

/-- The first connection comes in with its PROXY header and a request, and all
of the response has been sent. -/
def proxiedEvents : List Event :=
  comes 2 (bytes "PROXY UNKNOWN\r\n" ++ getBytes) ++ [.step, .step, .step] ++
    [.call .waitFails, .post responseSent, .call .ready]

/-- **A connection that was in its PROXY header** when the shutdown was called
is kept alive behind the response to its first request. -/
theorem drain_keeps_alive :
    ¬∀ (env : Env Unit Unit) (maxConns : ℕ) (listenFd signalFd : ℤ) (m m₀ m₁ : Machine Unit Unit),
      Reaches (Machine.next env) (fun _ _ => True) (Machine.start maxConns listenFd signalFd ()) m →
      m.next env (.shutdown .drain) = some m₀ → Reaches (Machine.next env) (fun _ _ => True) m₀ m₁ →
      Finishing env (fun _ _ => True) m₁ := by
  intro h
  obtain ⟨m, hm, m₀, hbegin, hrun⟩ := exists_reaches (Machine.next proxyEnv) (fun _ _ => True)
    (Machine.start 4 3 9 ()) connectEvents
    (fun m => ∃ m₀ ∈ m.next proxyEnv (.shutdown .drain),
      RunsTo (Machine.next proxyEnv) (fun _ _ => True) (fun m₁ =>
        m₁.current = some responseSent ∧ findConnById m₁.srv.pool responseSent.op.id = some 0 ∧
          ∃ c ∈ m₁.srv.pool.conns[0]?, c.sendBuf.length ≤ c.sendOffset + 67 ∧
            c.state = .httpActive ∧ c.keepAlive = true) m₀ proxiedEvents)
    (by decide +kernel)
  obtain ⟨m₁, h₁, hcur, hi, c, hc, hsent, hstate, hkeep⟩ := exists_reaches _ _ _ _ _ hrun
  exact (h proxyEnv 4 3 9 m m₀ m₁ hm hbegin h₁).kept .step
    ⟨responseSent, c, ⟨rfl, hcur, 0, hi, hc⟩, rfl, by decide, hsent, hstate, hkeep⟩

end Iohttp
