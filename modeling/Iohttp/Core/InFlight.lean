/-
# A connection always waits for something

A connection that is in use should have a receive, a send or a close in the
ring: nothing else ever comes back to it. `ioh_server_run_once` drops the
result of `arm_recv`, `send_error_response` drops that of `arm_send`, and
`dispatch_request` sends nothing if the response does not fit into its buffer,
so a connection can be left without any. It never is if the ring has an entry
when a receive or a send is handled, responses fit, TLS takes what is written
and no id is given to two connections.
-/
import Iohttp.Core.Invariant

namespace Iohttp

open Runs List

variable {ω τ : Type} {w w' : Work ω τ} {c : Conn τ} {env : Env ω τ} {cqe : Cqe} {s : Srv ω τ} {r : Ring}

/-- A send of the connection is in the ring, if it is said to be active. -/
def SendKept (r : Ring) (c : Conn τ) : Prop :=
  c.sendActive = true → ∃ op ∈ r.ops, op.code = .send ∧ op.Of c

/-- If the connection is in use, a receive, a send or a close of it is in the
ring. -/
def Armed (r : Ring) (c : Conn τ) : Prop :=
  c.Live → (∃ op ∈ r.ops, op.code.IsData ∧ op.Of c) ∧ SendKept r c

/-- Every connection in use has an operation in the ring, under an id of its
own. -/
structure AllArmed (s : Srv ω τ) : Prop where
  distinct : LiveDistinct Conn.id s.pool.conns
  armed : ∀ c ∈ s.pool.conns, Armed s.ring c

/-! ### Arming -/

variable {op : Op} {c' : Conn τ} {data : Bytes}

theorem Grows.mem_ops (h : Grows w w') (hm : op ∈ w.ring.ops) : op ∈ w'.ring.ops := by
  obtain ⟨ops, hp, _⟩ := h.prepared
  unfold Ring.ops at hm ⊢
  rw [hp, h.submitted]
  rcases mem_append.mp hm with hm | hm
  · exact mem_append_left _ (mem_append_left _ hm)
  · exact mem_append_right _ hm

/-- Two states of one connection, with the same send. -/
def Same (c c' : Conn τ) : Prop := c'.id = c.id ∧ c'.serial = c.serial ∧ c'.sendActive = c.sendActive

theorem Op.Of.same (h : op.Of c) (hc : Same c c') : op.Of c' :=
  ⟨h.1.trans hc.1.symm, h.2.trans hc.2.1.symm⟩

theorem SendKept.same (h : SendKept r c) (hc : Same c c') : SendKept r c' := by
  intro ha
  obtain ⟨op, hop, hcode, ho⟩ := h (hc.2.2 ▸ ha)
  exact ⟨op, hop, hcode, ho.same hc⟩

theorem SendKept.grows (h : SendKept w.ring w.conn) (hg : Grows w w')
    (hc : Same w.conn w'.conn) : SendKept w'.ring w'.conn := by
  intro ha
  obtain ⟨op, hop, hcode, ho⟩ := h (hc.2.2 ▸ ha)
  exact ⟨op, hg.mem_ops hop, hcode, ho.same hc⟩

theorem armed_of_sending (h : SendKept r c) (ha : c.sendActive = true) : Armed r c := by
  intro _
  obtain ⟨op, hop, hc, hi⟩ := h ha
  exact ⟨⟨op, hop, by simp [hc, OpCode.IsData], hi⟩, h⟩

@[simp]
theorem armRecv_conn (w : Work ω τ) : (armRecv env w).1.conn = w.conn := by
  unfold armRecv
  simp only
  split_ifs <;> rfl

theorem armRecv_mem (hs : env.sqe w.ring.asked = true) :
    ∃ linked, w.recvOp linked ∈ (armRecv env w).1.ring.prepared := by
  unfold armRecv
  simp only [hs, if_true]
  split_ifs
  · exact ⟨true, by simp [Work.prep, Ring.prepare]⟩
  · exact ⟨false, by simp [Work.prep, Ring.prepare]⟩
  · exact ⟨false, by simp [Work.prep, Ring.prepare]⟩

theorem armed_armRecv (hk : SendKept w.ring w.conn)
    (hs : env.sqe w.ring.asked = true) : Armed (armRecv env w).1.ring (armRecv env w).1.conn := by
  intro _
  obtain ⟨linked, hm⟩ := armRecv_mem hs
  rw [armRecv_conn]
  exact ⟨⟨_, mem_append_left _ hm, trivial, rfl, rfl⟩,
    fun ha => let ⟨op, hop, ho⟩ := hk ha; ⟨op, (keeps_armRecv env w).toGrows.mem_ops hop, ho⟩⟩

theorem encrypt_ring (env : Env ω τ) (w : Work ω τ) (data : Bytes) :
    (encrypt env w data).1.ring = w.ring := by
  unfold encrypt
  split
  · simp only
    split_ifs <;> rfl
  · rfl

theorem startSend_kept (w : Work ω τ) (data : Bytes) :
    SendKept (startSend env w data).1.ring (startSend env w data).1.conn := by
  unfold startSend
  split_ifs
  · intro _
    exact ⟨w.opFor .send 0 data.length false,
      mem_append_left _ (mem_append_right _ (mem_singleton_self _)), rfl, rfl, rfl⟩
  · exact fun h => absurd h (by simp [Work.ask, Work.setConn])

theorem encrypt_sendActive (env : Env ω τ) (w : Work ω τ) (data : Bytes) :
    (encrypt env w data).1.conn.sendActive = w.conn.sendActive := by
  unfold encrypt
  split
  · simp only
    split_ifs <;> rfl
  · rfl

theorem armSend_kept (env : Env ω τ) (hk : SendKept w.ring w.conn) (data : Bytes) :
    SendKept (armSend env w data).1.ring (armSend env w data).1.conn := by
  have hact := encrypt_sendActive env w data
  unfold armSend
  split_ifs with ha
  · exact hk
  · rcases henc : encrypt env w data with ⟨w₁, e | out⟩
    · rw [henc] at hact
      intro h
      exact absurd (hact.symm.trans h) ha
    · exact startSend_kept w₁ out

/-- TLS, if the connection uses it, takes what is sent. -/
def Takes (env : Env ω τ) (w : Work ω τ) (data : Bytes) : Prop := ∃ out, (encrypt env w data).2 = .ok out

/-- With an entry in the ring, `arm_send` leaves an active send: a new one, or
the one there was. -/
theorem armSend_of_sqe (ht : Takes env w data)
    (hs : env.sqe w.ring.asked = true) : (armSend env w data).1.conn.sendActive = true := by
  by_cases ha : w.conn.sendActive = true
  · unfold armSend
    rw [if_pos ha]
    exact ha
  · refine armSend_active ?_
    obtain ⟨out, ho⟩ := ht
    have hr := encrypt_ring env w data
    unfold armSend
    rw [if_neg ha]
    rcases he : encrypt env w data with ⟨w₁, e | out'⟩
    · rw [he] at ho
      cases ho
    · rw [he] at hr
      simp only at hr
      simp only [startSend_ret, hr, hs, if_true, le_refl]

theorem sendKept_idle (h : c.sendActive = false) : SendKept r c := by
  intro ha
  rw [h] at ha
  cases ha

def Ready (env : Env ω τ) (w : Work ω τ) : Prop := SendKept w.ring w.conn ∧ env.sqe w.ring.asked = true

/-- A connection that has been handled. -/
def Rearmed (w : Work ω τ) : Prop := Armed w.ring w.conn ∧ SendKept w.ring w.conn

theorem armClose_same (w : Work ω τ) :
    (¬(armClose env w).conn.Live ∧ (armClose env w).conn.sendActive = false) ∨
      Same w.conn (armClose env w).conn := by
  unfold armClose connTransition
  split_ifs
  · exact .inr ⟨rfl, rfl, rfl⟩
  · exact .inr ⟨rfl, rfl, rfl⟩
  · exact .inl ⟨not_not.mpr rfl, rfl⟩

theorem rearmed_armClose (hk : SendKept w.ring w.conn) : Rearmed (armClose env w) := by
  rcases armClose_same w with ⟨hdead, hidle⟩ | hsame
  · exact ⟨fun hl => absurd hl hdead, sendKept_idle hidle⟩
  · have hkept := hk.grows (shuts_armClose w).toGrows hsame
    refine ⟨fun hl => ⟨?_, hkept⟩, hkept⟩
    rcases (shuts_armClose w).conn with ⟨hf, _⟩ | ⟨_, _, _, _, _, op, hop, hc, ho⟩
    · rw [hf] at hl
      exact absurd rfl hl
    · exact ⟨op, mem_append_left _ hop, by simp [hc, OpCode.IsData], ho.same hsame⟩

theorem armSend_ring (hs : env.sqe w.ring.asked = true)
    (hret : (armSend env w data).2 < 0) : (armSend env w data).1.ring = w.ring := by
  have hr := encrypt_ring env w data
  unfold armSend at hret ⊢
  split_ifs at hret ⊢
  · rfl
  · rcases he : encrypt env w data with ⟨w₁, e | out⟩
    · rw [he] at hr
      exact hr
    · rw [he] at hr hret
      simp only [startSend_ret, show w₁.ring = w.ring from hr, hs, if_true] at hret
      exact absurd hret (lt_irrefl _)

theorem Advances.live (h : Advances c c') (hl : c'.Live) : c.Live := by
  intro hfree
  rcases h.state with hs | ⟨hfrom, _⟩
  · exact hl (hs.trans hfree)
  · simp [hfree] at hfrom

theorem Rearmed.advances (h : Rearmed w) (ha : Advances w.conn c) : Rearmed (w.setConn c) := by
  have hsame : Same w.conn c := ⟨ha.id, ha.serial, ha.sendActive⟩
  refine ⟨fun hl => ?_, h.2.same hsame⟩
  obtain ⟨⟨op, hop, hd, ho⟩, hk⟩ := h.1 (ha.live hl)
  exact ⟨⟨op, hop, hd, ho.same hsame⟩, hk.same hsame⟩

theorem armed_rule : RingRule env (fun _ => True) (Ready env) Rearmed Rearmed where
  conn h ha := ⟨h.1.same ⟨ha.id, ha.serial, ha.sendActive⟩, h.2⟩
  note h _ _ := h
  tick h := h
  recv {w} h := by
    refine ⟨armed_armRecv h.1 h.2, h.1.grows (keeps_armRecv env w).toGrows ?_⟩
    rw [armRecv_conn]
    exact ⟨rfl, rfl, rfl⟩
  send {w} data h := by
    have hk := armSend_kept env h.1 data
    rcases lt_or_ge (armSend env w data).2 0 with hret | hret
    · refine .inr ⟨hret, hk, ?_⟩
      rw [armSend_ring h.2 hret]
      exact h.2
    · have hactive := armSend_active hret
      exact .inl ⟨hret, ⟨armed_of_sending hk hactive, hk⟩, hactive⟩
  sending h ha := ⟨armed_of_sending h.1 ha, h.1⟩
  kept h ha := h.advances ha
  armed h := h
  close h := rearmed_armClose h.1
  fail _ _ h := rearmed_armClose h.2
  compacted h hc := by
    cases compact_eq_some hc
    exact h

theorem errorResponse_fits :
    ∀ e ∈ errorReplies, (serializeResponse (errorResponse e.1 e.2) 512).isSome = true := by
  decide +kernel

theorem armed_sendErrorResponse (h : Ready env w) {status : ℕ} {msg out : Bytes}
    (ho : serializeResponse (errorResponse status msg) 512 = some out) (ht : Takes env w out) :
    Armed (sendErrorResponse env w status msg).ring (sendErrorResponse env w status msg).conn := by
  simp only [sendErrorResponse, ho]
  exact armed_of_sending (armSend_kept env h.1 out) (armSend_of_sqe ht h.2)

theorem armed_sendAnswer (hk : SendKept w.ring w.conn) {ans : Answer ω}
    (hf : (serializeResponse ans.ctx.resp 8192).isSome) :
    Armed (sendAnswer env w ans).1.ring (sendAnswer env w ans).1.conn := by
  obtain ⟨out, ho⟩ := Option.isSome_iff_exists.mp hf
  simp only [sendAnswer, ho]
  split_ifs with hr
  · exact (rearmed_armClose (armSend_kept env hk out)).1
  · exact armed_of_sending (armSend_kept env hk out) (armSend_active (not_lt.mp hr))

/-- The response can be sent: an error response if TLS takes it, one of the
application if it fits into the buffer of `dispatch_request`. -/
def Answerable (env : Env ω τ) : Outcome ω τ → Prop
  | .done _ => True
  | .reject w status msg =>
    ∀ out ∈ serializeResponse (errorResponse status msg) 512, Takes env w out
  | .dispatch w req _ => (serializeResponse (w.answer env req).ctx.resp 8192).isSome

theorem armed_finish {o : Outcome ω τ} (h : OutcomeStaged (Ready env) Rearmed o) (ha : Answerable env o)
    (hf : finish env o = some w') : Armed w'.ring w'.conn := by
  cases o with
  | done w =>
    cases hf
    exact h.1
  | reject w status msg =>
    cases hf
    obtain ⟨out, ho⟩ := Option.isSome_iff_exists.mp (errorResponse_fits _ h.2)
    exact armed_sendErrorResponse h.1 ho (ha out ho)
  | dispatch w req total =>
    have hedit := edits_routeTimeouts w.conn (w.answer env req).opts
    have hk : SendKept w.ring (routeTimeouts w.conn (w.answer env req).opts) :=
      h.1.same ⟨hedit.id, hedit.serial, hedit.sendActive⟩
    have hsent : Armed (dispatchRequest env w req).1.ring (dispatchRequest env w req).1.conn :=
      armed_sendAnswer hk ha
    obtain rfl := compact_eq_some hf
    generalize dispatchRequest env w req = sent at hsent ⊢
    exact hsent

theorem armed_resend (hi : w.conn.sendActive = false) : Rearmed (resend env w) := by
  unfold resend
  split_ifs
  · have hsent : SendKept (w.ring.ask.prepare
        (w.opFor .send w.conn.sendOffset (w.conn.sendBuf.length - w.conn.sendOffset) false))
        { w.conn with sendActive := true } := fun _ =>
      ⟨_, mem_append_left _ (mem_append_right _ (mem_singleton_self _)), rfl, rfl, rfl⟩
    exact ⟨armed_of_sending hsent rfl, hsent⟩
  · exact rearmed_armClose (w := w.ask) (sendKept_idle hi)

theorem armed_onSend (hs : 0 ≤ cqe.res → env.sqe w.ring.asked = true) :
    Armed (onSend env w cqe).ring (onSend env w cqe).conn := by
  by_cases hres : cqe.res < 0
  · unfold onSend
    simp only [if_pos hres]
    exact (rearmed_armClose (sendKept_idle rfl)).1
  · have hready : Ready env (w.setConn { w.conn with sendActive := false }) :=
      ⟨sendKept_idle rfl, hs (not_lt.mp hres)⟩
    exact ((armed_rule).stages.onSend (fun _ hi => armed_resend hi) hready cqe).1

/-! ### The server -/

theorem Armed.of_mem {r' : Ring} (h : Armed r c)
    (hm : ∀ op ∈ r.ops, op.code.IsData → op.Of c → op ∈ r'.ops) : Armed r' c := by
  intro hl
  obtain ⟨⟨op, hop, hd, hi⟩, hs⟩ := h hl
  refine ⟨⟨op, hm op hop hd hi, hd, hi⟩, fun ha => ?_⟩
  obtain ⟨op', hop', hc', hi'⟩ := hs ha
  exact ⟨op', hm op' hop' (by simp [hc', OpCode.IsData]) hi', hc', hi'⟩

theorem sendKept_retire (h : SendKept r c) (hc : cqe.op.code ≠ .send) : SendKept (r.retire cqe) c := by
  intro ha
  obtain ⟨op, hop, hcode, hi⟩ := h ha
  refine ⟨op, mem_retire hop ?_, hcode, hi⟩
  rintro rfl
  exact hc hcode

/-- When a receive that has brought bytes, or a send that has not failed, is
handled for a connection, the ring has an entry, and a response can be sent. -/
def CanGoOn (env : Env ω τ) (s : Srv ω τ) (cqe : Cqe) : Prop :=
  ∀ c ∈ s.pool.conns, c.Live → c.id = cqe.op.id →
    (cqe.op.code = .recv → 0 < cqe.res → env.sqe s.ring.asked = true ∧
      Answerable env (recvOutcome env ((s.retire cqe).focus c) cqe)) ∧
    (cqe.op.code = .send → 0 ≤ cqe.res → env.sqe s.ring.asked = true)

/-- The id that the next connection gets is not in use. -/
def IdUnused (s : Srv ω τ) (_ : Cqe) : Prop := ∀ c ∈ s.pool.conns, c.Live → c.id ≠ s.pool.nextId
  deriving Decidable

theorem armed_completeConn (hm : c ∈ s.pool.conns) (ha : Armed s.ring c) (hl : c.Live)
    (hid : c.id = cqe.op.id) (hok : CanGoOn env s cqe)
    (h : completeConn env ((s.retire cqe).focus c) cqe = some w') : Armed w'.ring w'.conn := by
  obtain ⟨hrecv, hsend⟩ := hok c hm hl hid
  have keep : cqe.op.code ≠ .send → SendKept (s.retire cqe).ring c := sendKept_retire (ha hl).2
  have same : ¬cqe.op.code.IsData → Armed (s.retire cqe).ring c := by
    intro hc
    refine ha.of_mem fun op hop hd _ => mem_retire hop ?_
    rintro rfl
    exact hc hd
  have hasked : ((s.retire cqe).focus c).ring.asked = s.ring.asked := retire_asked ..
  unfold completeConn at h
  cases hc : cqe.op.code <;> simp only [hc] at h
  case recv =>
    by_cases hr : 0 < cqe.res
    · obtain ⟨hs, hans⟩ := hrecv hc hr
      rw [← hasked] at hs
      have hready : Ready env ((s.retire cqe).focus c) := ⟨keep (by simp [hc]), hs⟩
      exact armed_finish ((armed_rule).stages.recvOutcome hready cqe fun _ _ _ _ _ _ =>
        trivial) hans h
    · -- nothing was received: the connection is closed
      simp only [onRecv, recvOutcome, if_pos (not_lt.mp hr), finish, Option.some.injEq] at h
      subst h
      exact (rearmed_armClose (keep (by simp [hc]))).1
  case send =>
    cases h
    refine armed_onSend fun hr => ?_
    rw [hasked]
    exact hsend hc hr
  case close =>
    cases h
    exact fun hl' => absurd rfl hl'
  case timeout =>
    cases h
    unfold onTimeout
    split_ifs
    · exact same (by simp [hc, OpCode.IsData])
    · exact (rearmed_armClose (keep (by simp [hc]))).1
  all_goals
    cases h
    exact same (by simp [hc, OpCode.IsData])

theorem completeConn_other {d : Conn τ} (hd : Armed s.ring d) (hne : d.id ≠ cqe.op.id)
    (h : completeConn env ((s.retire cqe).focus c) cqe = some w') : Armed w'.ring d := by
  refine hd.of_mem fun op hop _ hi => ?_
  have hm : op ∈ (s.retire cqe).ring.ops :=
    mem_retire hop fun he => hne (hi.1.symm.trans (congrArg Op.id he))
  rcases completeConn_effect h with (he | he) | ⟨_, rfl⟩
  · exact he.toGrows.mem_ops hm
  · exact he.toGrows.mem_ops hm
  · exact hm

theorem AllArmed.conn (h : AllArmed s) (hok : CanGoOn env s cqe) {i : ℕ}
    (hfind : findConnById s.pool cqe.op.id = some i) (hc : s.pool.conns[i]? = some c)
    (hw' : completeConn env ((s.retire cqe).focus c) cqe = some w') :
    AllArmed ((s.retire cqe).restore i w') := by
  obtain ⟨c', hc', hl, hid⟩ := findConnById_some hfind
  obtain rfl : c' = c := Option.some.inj (hc'.symm.trans hc)
  refine ⟨?_, fun d hd => ?_⟩
  · exact h.distinct.replace hc hl fun hl' => ((completeConn_worked hl hw').of_live hl').1
  · obtain ⟨j, hj⟩ := getElem?_of_mem hd
    rcases getElem?_set_cases hj with ⟨_, rfl⟩ | ⟨hji, hj⟩
    · have hm := mem_of_getElem? hc
      exact armed_completeConn hm (h.armed c' hm) hl hid hok hw'
    · have hdm := h.armed d (mem_of_getElem? hj)
      by_cases hdl : d.Live
      · refine completeConn_other hdm ?_ hw'
        rw [← hid]
        exact fun he => hji (h.distinct j i d c' hj hc hdl hl he)
      · exact fun hl' => absurd hl' hdl

theorem AllArmed.lost (h : AllArmed s)
    (hfind : findConnById s.pool cqe.op.id = none) : AllArmed (s.retire cqe) := by
  refine ⟨h.distinct, fun c hc hl => ?_⟩
  refine (h.armed c hc).of_mem (fun op hop _ hi => mem_retire hop ?_) hl
  rintro rfl
  exact findConnById_none hfind hc hl hi.1.symm

theorem AllArmed.quiet {s' : Srv ω τ} (hq : Quiet s s') (h : AllArmed s) : AllArmed s' := by
  refine ⟨by rw [hq.pool]; exact h.distinct, fun c hc => ?_⟩
  rw [hq.pool] at hc
  exact (h.armed c hc).of_mem fun op hop hd _ => hq.mem_ops hd hop

theorem armed_accepted (hi : w.conn.sendActive = false) (fd : ℤ) :
    Armed (accepted env w fd).ring (accepted env w fd).conn := by
  have hf : (firstState env w.conn fd).sendActive = false :=
    (advances_firstState env w.conn fd).sendActive.trans hi
  unfold accepted
  simp only
  split_ifs with hr
  · exact fun hl => absurd rfl hl
  · refine armed_armRecv (sendKept_idle hf) ?_
    by_contra hs
    refine hr ?_
    unfold armRecv
    rw [if_neg hs]
    show -ENOSPC < 0
    decide

theorem AllArmed.accept (h : AllArmed s) (hid : IdUnused s cqe) : AllArmed (acceptFd env s cqe.res) := by
  rcases acceptFd_cases env s cqe.res with he | ⟨i, c, _, _, he⟩
  · rw [he]
    exact h
  · have hw := (effect_accepted env (s.count.focus (s.newConn env)) cqe.res).worked
      (fun hf => by cases hf)
    rw [he]
    refine ⟨?_, fun d hd => ?_⟩
    · refine h.distinct.set fun hl j d _ hd hdl => ?_
      rw [(hw.of_live hl).1]
      exact hid d (mem_of_getElem? hd) hdl
    · obtain ⟨j, hj⟩ := getElem?_of_mem hd
      rcases getElem?_set_cases hj with ⟨_, rfl⟩ | ⟨_, hj⟩
      · exact armed_accepted rfl cqe.res
      · exact (h.armed d (mem_of_getElem? hj)).of_mem fun op hop _ _ => hw.toGrows.mem_ops hop

theorem drainConn_same (c : Conn τ) : Same c (drainConn c) := by
  unfold drainConn connTransition
  split_ifs <;> exact ⟨rfl, rfl, rfl⟩

theorem AllArmed.drain (h : AllArmed s) : AllArmed s.drainAll := by
  refine ⟨h.distinct.map fun c hl => ⟨(drainConn_live hl).1, (drainConn_same c).1⟩, fun d hd => ?_⟩
  obtain ⟨c, hc, rfl⟩ := mem_map.mp hd
  intro hl
  obtain ⟨⟨op, hop, hdata, ho⟩, hs⟩ := h.armed c hc (drainConn_live hl).1
  exact ⟨⟨op, hop, hdata, ho.same (drainConn_same c)⟩, hs.same (drainConn_same c)⟩

theorem AllArmed.of_free (h : ∀ c ∈ s.pool.conns, ¬c.Live) : AllArmed s :=
  ⟨fun _ _ c _ hc _ hl => absurd hl (h c (mem_of_getElem? hc)), fun c hc hl => absurd hl (h c hc)⟩

theorem AllArmed.force (s : Srv ω τ) : AllArmed (forceClose s) := by
  refine AllArmed.of_free fun d hd => ?_
  obtain ⟨c, _, rfl⟩ := mem_map.mp hd
  split_ifs with hc
  · exact not_not.mpr hc
  · exact not_not.mpr rfl

/-! ### Over the loop -/

theorem allArmed_rule : SrvRule env AllArmed (CanGoOn env) IdUnused fun _ => True where
  quiet _ _ hq h := h.quiet hq
  conn _ _ _ _ _ h hok hfind hc hw' := h.conn hok hfind hc hw'
  lost _ _ h _ hfind := h.lost hfind
  accept _ _ h hid := h.accept hid
  drain _ h := h.drain
  force s _ _ := AllArmed.force s

/-- Every connection in use has a receive, a send or a close in the ring. -/
def NoneStuck (s : Srv ω τ) : Prop :=
  ∀ c ∈ s.pool.conns, c.Live → ∃ op ∈ s.ring.ops, op.code.IsData ∧ op.Of c

/-- The ring has an entry for the receives and sends that are handled, their
responses can be sent, and a connection gets an id that is not in use. -/
def GoesOn (env : Env ω τ) (m : Machine ω τ) (ev : Event) : Prop :=
  srvOk (CanGoOn env) IdUnused (fun _ => True) m ev

/-- **No connection is left without an operation** in every run in which, for
every receive with bytes and every send that is handled, the ring has an
entry, the application's response fits into 8192 bytes and TLS takes an error
response, and in which no id is given to two connections at a time. -/
theorem connections_armed (env : Env ω τ) (maxConns : ℕ) (listenFd signalFd : ℤ) (world : ω)
    {m : Machine ω τ}
    (h : Reaches (Machine.next env) (GoesOn env) (Machine.start maxConns listenFd signalFd world) m) :
    NoneStuck m.srv := by
  have start : AllArmed (serverStart maxConns listenFd signalFd world : Srv ω τ) := by
    refine AllArmed.of_free fun c hc => ?_
    obtain rfl := eq_of_mem_replicate hc
    exact not_not.mpr rfl
  have inv : AllArmed m.srv := (allArmed_rule).holds (fun _ _ _ h => h) start h
  exact fun c hc hl => (inv.armed c hc hl).1

instance (c : OpCode) : Decidable c.IsData := by
  unfold OpCode.IsData
  split <;> infer_instance

instance (s : Srv ω τ) : Decidable (NoneStuck s) := by
  unfold NoneStuck
  infer_instance

instance (env : Env ω τ) (w : Work ω τ) (data : Bytes) : Decidable (Takes env w data) :=
  match h : (encrypt env w data).2 with
  | .ok out => isTrue ⟨out, h⟩
  | .error e => isFalse fun ⟨out, ho⟩ => by rw [h] at ho; cases ho

instance (env : Env ω τ) (o : Outcome ω τ) : Decidable (Answerable env o) := by
  unfold Answerable
  split <;> infer_instance

instance (env : Env ω τ) (s : Srv ω τ) (cqe : Cqe) : Decidable (CanGoOn env s cqe) := by
  unfold CanGoOn
  infer_instance

instance {okConn okAccept : Srv ω τ → Cqe → Prop} (s : Srv ω τ) (cqe : Cqe) [Decidable (okConn s cqe)]
    [Decidable (okAccept (s.retire cqe) cqe)] : Decidable (okCqe okConn okAccept s cqe) :=
  decidable_of_iff ((cqe.op.code = .accept → 0 ≤ cqe.res → okAccept (s.retire cqe) cqe) ∧
      (cqe.op.code ≠ .accept ∧ cqe.op.code ≠ .signal ∧ cqe.op.code ≠ .cancel → okConn s cqe)) (by
    unfold okCqe
    cases cqe.op.code <;> simp)

instance (env : Env ω τ) (m : Machine ω τ) (ev : Event) : Decidable (GoesOn env m ev) := by
  unfold GoesOn srvOk
  infer_instance

/-- The bytes of a receive on the first connection, which comes before its
timeout. -/
def recvEvents (data : Bytes) : List Event :=
  [.call .waitFails, .post ⟨firstRecv, data.length, data, false, 0⟩,
    .post ⟨firstTimeout, -ECANCELED, [], false, 0⟩, .call .ready, .step]

/-- A client sends a request, and the response is on its way. -/
theorem connections_armed_get :
    ∃ m : Machine Unit Unit,
      Reaches (Machine.next plainEnv) (GoesOn plainEnv) (Machine.start 4 3 9 ()) m ∧
        (∃ c ∈ m.srv.pool.conns, c.sendActive = true) ∧ NoneStuck m.srv := by
  obtain ⟨m, hm, hp⟩ := exists_reaches (Machine.next plainEnv) (GoesOn plainEnv) (Machine.start 4 3 9 ())
    (connectEvents ++ recvEvents (bytes "GET / HTTP/1.1\r\nHost: a\r\n\r\n"))
    (fun m => ∃ c ∈ m.srv.pool.conns, c.sendActive = true) (by decide +kernel)
  exact ⟨m, hm, hp, connections_armed plainEnv 4 3 9 () hm⟩

/-- A server whose ring has no entry left when the second receive is armed. -/
def crowdedEnv : Env Unit Unit := { plainEnv with sqe := fun n => n ≠ 4 }

/-- The first byte of a request has come, there is no entry for the next
receive, and nothing comes back to the connection. -/
theorem connection_stuck :
    ¬∀ (env : Env Unit Unit) (maxConns : ℕ) (listenFd signalFd : ℤ) (m : Machine Unit Unit),
      Reaches (Machine.next env) (fun _ _ => True) (Machine.start maxConns listenFd signalFd ()) m →
        NoneStuck m.srv := by
  intro h
  obtain ⟨m, hm, hp⟩ := exists_reaches (Machine.next crowdedEnv) (fun _ _ => True)
    (Machine.start 4 3 9 ()) (connectEvents ++ recvEvents (bytes "G")) (fun m => ¬NoneStuck m.srv)
    (by decide +kernel)
  exact hp (h crowdedEnv 4 3 9 m hm)

end Iohttp
