/-
# From the handshake to the first request

After `ioh_tls_handshake` has returned 0, `ioh_server_run_once` arms a receive,
unless a send is on its way, whose completion is to arm it. That completion
looks at the state of the connection, which is `IOH_CONN_HTTP_ACTIVE` by then,
and at its keep-alive flag, which no request has set yet: it closes the
connection. And what `ioh_tls_read` returns must be a whole request: the first
part of one is given to TLS again with what comes next. So a connection gets to
its first request if the last round of its handshake has left no output and the
request comes in one read.

Key definitions: `AwaitsRequest`, `GotRequest`, `SilentEnd`, `WholeRequest`.

Key theorem: `handshake_leads_to_request`.
-/
import Iohttp.Core.Exclusive
import Iohttp.Core.Segments

namespace Iohttp

open Runs

variable {ω τ : Type} {k : ℕ} {w w' : Work ω τ} {cqe : Cqe} {env : Env ω τ} {c : Conn τ}

/-- Connection `k` has a session and is not being closed, and it has one operation
in the ring, besides timeouts: a send while one is active, and a receive
otherwise. -/
structure AwaitsRequest (k : ℕ) (w : Work ω τ) : Prop where
  serial : w.conn.serial = k
  opened : ∀ op ∈ w.ring.own k, op.code ≠ .close
  one : ∃ op, w.ring.data k = [op] ∧ op.code = if w.conn.sendActive then .send else .recv
  state : w.conn.state = .httpActive
  session : w.conn.tls.isSome = true

/-- The handshake is done, all its output has been sent, and a receive is armed. -/
structure Waiting (k : ℕ) (w : Work ω τ) : Prop extends AwaitsRequest k w where
  done : w.conn.tlsDone = true
  idle : w.conn.sendActive = false

/-- A request of connection `k` has been dispatched. -/
def GotRequest (k : ℕ) (w : Work ω τ) : Prop := dispatched (ownActs k w.trace) ≠ []
  deriving Decidable

/-- The connection waits for its first request, or has had it. -/
def Attends (k : ℕ) (w : Work ω τ) : Prop := Waiting k w ∨ GotRequest k w

/-- What has been dispatched stays so. -/
theorem GotRequest.of_acts (h : GotRequest k w) {acts : List Act}
    (ha : ownActs k w'.trace = ownActs k w.trace ++ acts) : GotRequest k w' := by
  unfold GotRequest at h ⊢
  rw [ha, dispatched_append]
  exact List.append_ne_nil_of_left_ne_nil h _

theorem gotRequest_dispatch (hs : w.conn.serial = k) (req : Request) :
    GotRequest k (dispatchRequest env w req).1 := by
  have hnoted : GotRequest k (w.note (.dispatched w.conn.serial req)) := by
    rw [GotRequest, ownActs_note w (a := .dispatched w.conn.serial req) hs rfl, dispatched_append]
    exact List.append_ne_nil_of_right_ne_nil _ (by simp [dispatched])
  unfold dispatchRequest
  set w₁ := ((w.note (.dispatched w.conn.serial req)).setConn
    (routeTimeouts w.conn (w.answer env req).opts)).tick (w.answer env req).ctx.world
  have hsent : Effect w₁ (sendAnswer env w₁ (w.answer env req)).1 :=
    (keeps_rule env w₁).sendAnswer .inl (Keeps.refl w₁) _
  obtain ⟨acts, ht, _⟩ := (hsent.elim (·.toGrows) (·.toGrows) : Grows w₁ _).trace
  exact GotRequest.of_acts (w := w₁) hnoted (by rw [ht]; exact List.filter_append ..)

variable {ev : LaneEvent ω τ}

theorem GotRequest.next (h : GotRequest k w)
    (hn : Lane.next env k w ev = some w') : GotRequest k w' := by
  obtain ⟨acts, ha⟩ := Lane.next_acts hn
  exact h.of_acts ha

/-! ### Layers -/

/-- There is no session, and none to come. -/
def Conn.Lost (c : Conn τ) : Prop := c.tls = none ∧ c.state ≠ .proxyHeader

theorem lost_free : (freeConn : Conn τ).Lost := ⟨rfl, by simp [freeConn]⟩

theorem lost_rule (env : Env ω τ) : LayerRule env (Conn.Lost : Conn τ → Prop) where
  same {c c'} h hs := by
    have hnone := hs.session
    rw [h.1, Option.map_none, Option.map_eq_none_iff] at hnone
    exact ⟨hnone, by rw [hs.state]; exact h.2⟩
  layer hs h := absurd hs h.2
  secure hsome _ _ h := by
    rw [h.1] at hsome
    cases hsome
  shut {c} h := by
    unfold connTransition
    split_ifs
    · exact ⟨rfl, by simp⟩
    · exact ⟨rfl, h.2⟩
  free := lost_free

/-- A connection with a session is not closing, and in its handshake until that is
done. -/
def Conn.InLayer (c : Conn τ) : Prop :=
  c.tls.isSome = true → c.state ≠ .closing ∧ (c.tlsDone = false → c.state = .tlsHandshake)

theorem inLayer_nextLayer (h : c.InLayer)
    (hs : c.state = .accepting ∨ c.state = .proxyHeader) : (nextLayer env c).InLayer := by
  have hdone : c.tls.isSome = true → c.tlsDone = true := fun ht => by
    by_contra hd
    have := (h ht).2 (by simpa using hd)
    rcases hs with hs | hs <;> simp [hs] at this
  unfold nextLayer connTransition Conn.InLayer
  rcases hs with hs | hs <;> split_ifs <;> simp_all [validTransitions]

theorem inLayer_rule (env : Env ω τ) : LayerRule env (Conn.InLayer : Conn τ → Prop) where
  same {c c'} h hs ht := by
    have hsome := congrArg Option.isSome hs.session
    rw [Option.isSome_map, Option.isSome_map] at hsome
    rw [hs.state, hs.tlsDone]
    exact h (hsome ▸ ht)
  layer hs h := inLayer_nextLayer h (.inr hs)
  secure {c t} hsome hd _ h _ := by
    have hst := (h hsome).2 hd
    simp [handshakeDone, connTransition, hst, validTransitions]
  shut {c} _ ht := by
    unfold connTransition at ht
    split_ifs at ht <;> cases ht
  free ht := by cases ht

/-- A close is in the ring only of a connection that has no session. -/
def CloseTold (k : ℕ) (w : Work ω τ) : Prop := ∀ op ∈ w.ring.own k, op.code = .close → w.conn.Lost

theorem CloseTold.opened (h : CloseTold k w) (ht : w.conn.tls.isSome = true) :
    ∀ op ∈ w.ring.own k, op.code ≠ .close := fun op hop hc => by
  rw [(h op hop hc).1] at ht
  cases ht

/-- Only `arm_close` puts a close into the ring. -/
theorem Effect.closeTold (he : Effect w w') (hl : w.conn.Live) (hq : w.conn.state ≠ .quic)
    (hlayer : w'.conn.InLayer) (h : ∀ op ∈ w.ring.own k, op.code = .close → w'.conn.Lost) :
    CloseTold k w' := by
  intro op hop hc
  rcases he with hk | hs
  · obtain ⟨hm, hown⟩ := mem_own.mp hop
    refine h op (mem_own.mpr ⟨?_, hown⟩) hc
    rcases List.mem_append.mp hm with hm | hm
    · exact List.mem_append_left _ (hk.opened op hm hc)
    · exact List.mem_append_right _ (hk.submitted ▸ hm)
  · rcases hs.conn with ⟨hf, _⟩ | ⟨_, _, _, _, hclosing, _⟩
    · rw [hf]
      exact lost_free
    · have hst := hclosing hl hq
      refine ⟨?_, by simp [hst]⟩
      by_contra ht
      exact (hlayer (Option.isSome_iff_ne_none.mpr ht)).1 hst

/-! ### The end of the handshake -/

/-- The operation of a connection has completed, and its next receive will be
armed; it is done with its handshake. -/
structure Secured (env : Env ω τ) (k : ℕ) (w : Work ω τ) : Prop extends Vacant k w where
  sqe : env.sqe w.ring.asked = true
  opened : ∀ op ∈ w.ring.own k, op.code ≠ .close
  idle : w.conn.sendActive = false
  state : w.conn.state = .httpActive
  session : w.conn.tls.isSome = true
  done : w.conn.tlsDone = true

theorem Secured.armRecv (h : Secured env k w) : Waiting k (armRecv env w).1 := by
  rcases adds_armRecv h.data h.serial with ⟨_, op, hc, _, _, hadds⟩ | ⟨hno, _⟩
  · have hopened : ∀ o ∈ (Iohttp.armRecv env w).1.ring.own k, o.code ≠ .close := fun o ho =>
      (hadds.opened o ho).elim (h.opened o) id
    refine ⟨⟨?_, hopened, ⟨op, hadds.data, ?_⟩, ?_, ?_⟩, ?_, ?_⟩ <;> rw [armRecv_conn]
    exacts [h.serial, by rw [h.idle, hc]; rfl, h.state, h.session, h.done, h.idle]
  · rw [h.sqe] at hno
    cases hno

/-- The operation of a connection has completed, and the handshake is not done. -/
structure Pending (env : Env ω τ) (k : ℕ) (w : Work ω τ) : Prop extends Vacant k w where
  sqe : env.sqe w.ring.asked = true
  told : CloseTold k w
  layer : w.conn.InLayer
  idle : w.conn.sendActive = false
  going : w.conn.tlsDone = false

/-- If the handshake is done by now, then a receive is armed. -/
def Ends (k : ℕ) (w : Work ω τ) : Prop := w.conn.tlsDone = true → Waiting k w

theorem ends_of_false (h : w.conn.tlsDone = false) : Ends k w := fun hd => by
  rw [h] at hd
  cases hd

theorem armClose_going (env : Env ω τ) (h : w.conn.tlsDone = false) :
    (armClose env w).conn.tlsDone = false := by
  unfold armClose connTransition
  split_ifs
  · exact h
  · exact h
  · rfl

theorem sendAnswer_going (h : w.conn.tlsDone = false) (ans : Answer ω) :
    (sendAnswer env w ans).1.conn.tlsDone = false := by
  have hsend : ∀ out, (armSend env w out).1.conn.tlsDone = false := fun out =>
    (layers_armSend env w out).tlsDone.trans h
  unfold sendAnswer
  split
  · simp only
    split_ifs
    · exact armClose_going env (hsend _)
    · exact hsend _
  · exact h

/-- The handshake has left no output, if it is done. -/
def QuietEnd (env : Env ω τ) (t : TlsConn τ) : Prop :=
  (tlsHandshake env.wolf t).2 = 0 → (tlsHandshake env.wolf t).1.cipherOut = []
  deriving Decidable

theorem Pending.onHandshake (h : Pending env k w) {t : TlsConn τ} (ht : w.conn.tls = some t)
    (hok : QuietEnd env t) : Ends k (onHandshake env w t) := by
  have hsome : w.conn.tls.isSome = true := by rw [ht]; rfl
  set t' := (tlsHandshake env.wolf t).1 with ht'
  by_cases hz : (tlsHandshake env.wolf t).2 = 0
  · -- there is nothing to send, so that a receive is armed at once
    have hflush : flushHandshake env w t' = w.setTls t' := if_neg (not_not.mpr (hok hz))
    have hconn : handshakeDone (w.setTls t').conn =
        { (w.setTls t').conn with tlsDone := true, timeoutPhase := .header, state := .httpActive } := by
      have hst : (w.setTls t').conn.state = .tlsHandshake := (h.layer hsome).2 h.going
      rw [handshakeDone, connTransition, if_pos (by simp [hst, validTransitions])]
    have hidle : ¬((w.setTls t').setConn (handshakeDone (w.setTls t').conn)).conn.sendActive = true := by
      rw [hconn]
      simp [Work.setConn, Work.setTls, h.idle]
    intro _
    rw [Iohttp.onHandshake, ← ht', hflush, if_pos hz, recvUnlessSending, if_neg hidle, hconn]
    exact Secured.armRecv ⟨⟨h.serial, h.data⟩, h.sqe, h.told.opened hsome, h.idle, rfl, rfl, rfl⟩
  · refine ends_of_false ?_
    have hflush := (layers_flushHandshake env w t').tlsDone.trans h.going
    rw [Iohttp.onHandshake, if_neg hz]
    split_ifs
    · rw [layers_recvUnlessSending]
      exact hflush
    · exact armClose_going env hflush

theorem pending_rule (env : Env ω τ) (k : ℕ) :
    StageRule env (QuietEnd env) (Pending env k) (fun w => w.conn.tlsDone = false)
      (Ends k : Work ω τ → Prop) where
  edit h he :=
    ⟨⟨he.serial.trans h.serial, h.data⟩, h.sqe,
      fun op hop hc => (lost_rule env).same (h.told op hop hc) he.toSameLayers,
      (inLayer_rule env).same h.layer he.toSameLayers, he.sendActive.trans h.idle,
      he.tlsDone.trans h.going⟩
  note h _ _ := ⟨⟨h.serial, h.data⟩, h.sqe, h.told, h.layer, h.idle, h.going⟩
  tick h := ⟨⟨h.serial, h.data⟩, h.sqe, h.told, h.layer, h.idle, h.going⟩
  layer {w} h hs := by
    have hadv := advances_nextLayer env w.conn
    refine ⟨⟨hadv.serial.trans h.serial, h.data⟩, h.sqe, fun op hop hc => ?_,
      (inLayer_rule env).layer hs h.layer, hadv.sendActive.trans h.idle, ?_⟩
    · exact absurd hs (h.told op hop hc).2
    · show (nextLayer env w.conn).tlsDone = false
      unfold nextLayer connTransition
      split_ifs <;> first | rfl | exact h.going
  shake h ht _ hok := h.onHandshake ht hok
  recv h := by
    rw [armRecv_conn]
    exact h.going
  kept h he := he.tlsDone.trans h
  armed h := ends_of_false h
  close h := ends_of_false (armClose_going env h.going)
  compacted {w w' n} h hc hd := by
    rw [compact_eq_some hc] at hd ⊢
    obtain ⟨⟨hserial, hopened, hone, hstate, hsession⟩, hdone, hidle⟩ := h hd
    exact ⟨⟨hserial, hopened, hone, hstate, hsession⟩, hdone, hidle⟩

def handshakeRound (env : Env ω τ) (w : Work ω τ) (cqe : Cqe) : Option (TlsConn τ) :=
  match onProxy env (receive w cqe) with
  | .ok w => if w.conn.tlsDone then none else w.conn.tls.map fun t => (tlsFeedInput t w.conn.buf).1
  | .error _ => none

/-- The round in which `ioh_tls_handshake` returns 0 leaves no output. -/
def SilentEnd (env : Env ω τ) (w : Work ω τ) (cqe : Cqe) : Prop :=
  ∀ t ∈ handshakeRound env w cqe, QuietEnd env t
  deriving Decidable

theorem Pending.onRecv (h : Pending env k w) (hsilent : SilentEnd env w cqe)
    (hw : onRecv env w cqe = some w') : Ends k w' := by
  have R := pending_rule env k
  refine R.finish (fun hp => ?_) (fun hp => ends_of_false (sendAnswer_going hp.going _))
    (R.recvOutcome h cqe fun _ w₁ h₁ t ht hd => ?_) hw
  · exact ends_of_false ((layers_sendErrorResponse ..).tlsDone.trans hp.going)
  · exact hsilent _ (by simp [handshakeRound, h₁, ht, hd])

theorem Pending.onSend (h : Pending env k (w.setConn { w.conn with sendActive := false })) (cqe : Cqe) :
    Ends k (onSend env w cqe) := by
  refine (pending_rule env k).onSend (fun hp _ => ends_of_false ?_) h cqe
  unfold resend
  split_ifs
  · exact hp.going
  · exact armClose_going env hp.going

/-! ### The first request -/

/-- A head with its body, within the limits. -/
def Whole (cfg : Config) (plain : Bytes) : Prop :=
  plain.length ≤ cfg.maxHeaderSize ∧ ∃ r ∈ (http1ParseRequest plain).toOption,
    r.1.contentLength ≤ cfg.maxBodySize ∧ r.2 + r.1.contentLength ≤ plain.length
  deriving Decidable

/-- `ioh_tls_read`, after the handshake, returns no plaintext or a whole request. -/
def WholeRequest (env : Env ω τ) (w : Work ω τ) (cqe : Cqe) : Prop :=
  ∀ t ∈ w.conn.tls, w.conn.tlsDone = true →
    (tlsRead env.wolf (tlsFeedInput t (receive w cqe).conn.buf).1 8192).2 = .error (-EAGAIN) ∨
      ∃ plain ∈ (tlsRead env.wolf (tlsFeedInput t (receive w cqe).conn.buf).1 8192).2.toOption,
        Whole env.config plain
  deriving Decidable

/-- A whole request is dispatched. -/
theorem gotRequest_onHttp (hw : finish env (onHttp env w) = some w') (hs : w.conn.serial = k)
    {plain : Bytes} (hbuf : w.conn.buf = plain) (hlen : w.conn.recvLen = plain.length)
    (hwhole : Whole env.config plain) : GotRequest k w' := by
  obtain ⟨hhead, r, hr, hbody, htotal⟩ := hwhole
  have hparse : http1ParseRequest w.conn.buf = .ok r := by
    rw [hbuf]
    cases hp : http1ParseRequest plain <;> simp_all [Except.toOption]
  have houtcome : ∃ w₁ req total, onHttp env w = .dispatch w₁ req total ∧ w₁.conn.serial = k := by
    rw [onHttp, if_neg (by omega)]
    simp only [hparse, onRequest]
    rw [if_neg (by omega), if_neg (by simp only [Work.note]; omega)]
    exact ⟨_, _, _, rfl, hs⟩
  obtain ⟨w₁, req, total, he, hserial⟩ := houtcome
  rw [he] at hw
  rw [compact_eq_some hw]
  exact gotRequest_dispatch hserial req

theorem Secured.onRecv (h : Secured env k w) (hres : 0 < cqe.res) (hread : WholeRequest env w cqe)
    (hw : onRecv env w cqe = some w') : Attends k w' := by
  obtain ⟨t, ht⟩ := Option.isSome_iff_exists.mp h.session
  have hproxy : onProxy env (receive w cqe) = .ok (receive w cqe) := by
    have hst : (receive w cqe).conn.state = .httpActive := h.state
    rw [onProxy, if_neg (by rw [hst]; decide)]
  set read := tlsRead env.wolf (tlsFeedInput t (receive w cqe).conn.buf).1 8192 with hreads
  have htls : onTls env (receive w cqe) =
      onDecrypt env (feed (receive w cqe) t) (tlsFeedInput t (receive w cqe).conn.buf).1 := by
    have htr : (receive w cqe).conn.tls = some t := ht
    have hdr : (receive w cqe).conn.tlsDone = true := h.done
    simp only [onTls, htr, hdr, if_true]
  have hfed : Secured env k ((feed (receive w cqe) t).setTls read.1) :=
    ⟨⟨h.serial, h.data⟩, h.sqe, h.opened, h.idle, h.state, rfl, h.done⟩
  rw [Iohttp.onRecv, recvOutcome, if_neg (not_le.mpr hres), hproxy] at hw
  obtain hagain | ⟨plain, hplain, hwhole⟩ := hread t ht h.done
  · left
    simp only [htls, onDecrypt, ← hreads, hreads ▸ hagain, if_true, finish, Option.some.injEq] at hw
    rw [← hw]
    exact hfed.armRecv
  · right
    have hok : read.2 = .ok plain := by
      cases hr : read.2 <;> simp_all [Except.toOption]
    simp only [htls, onDecrypt, ← hreads, hok] at hw
    refine gotRequest_onHttp hw hfed.serial ?_ rfl hwhole
    simp [Conn.setPlain, Conn.buf, Work.setConn]

/-! ### Along the lane -/

/-- Until a request of connection `k` is dispatched, the peer does not close, no
operation fails, no timeout fires, and receives are as `ok` says. -/
def undisturbed (env : Env ω τ) (k : ℕ) (ok : Work ω τ → Cqe → Prop) : LaneCond ω τ where
  start _ := True
  complete w cqe := ¬GotRequest k w →
    (cqe.op.code = .recv → 0 < cqe.res ∧ env.sqe w.ring.asked = true ∧ ok (w.retire cqe) cqe) ∧
    (cqe.op.code = .send → 0 ≤ cqe.res ∧ env.sqe w.ring.asked = true) ∧
    (cqe.op.code = .timeout → cqe.res = -ECANCELED)
  shutdown := False

/-- The round that ends the handshake leaves no output, and plaintext is a whole
request. -/
def Silent (env : Env ω τ) (w : Work ω τ) (cqe : Cqe) : Prop :=
  SilentEnd env w cqe ∧ WholeRequest env w cqe
  deriving Decidable

theorem Waiting.others (h : Waiting k w) (hb : Beside k w w') : Waiting k (w'.setConn w.conn) := by
  obtain ⟨op, hd, hc⟩ := h.one
  have hperm := hb.data
  rw [hd, List.perm_singleton] at hperm
  exact ⟨⟨h.serial, fun op hop => h.opened op (hb.ops.mem_iff.mp hop), ⟨op, hperm, hc⟩, h.state,
    h.session⟩, h.done, h.idle⟩

theorem Waiting.retire_other (h : Waiting k w) (hc : cqe.op.isData k = false) :
    Waiting k (w.retire cqe) := by
  have hdata : (w.retire cqe).ring.data k = w.ring.data k := data_retire_other hc
  exact ⟨⟨h.serial, fun op hop => h.opened op (mem_own_retire hop), hdata ▸ h.one, h.state, h.session⟩,
    h.done, h.idle⟩

theorem Waiting.complete (h : Waiting k w) (hvac : cqe.op.code = .recv → Vacant k (w.retire cqe))
    (hm : cqe.op ∈ w.ring.own k) (hgot : ¬GotRequest k w)
    (hok : (undisturbed env k (Silent env)).complete w cqe)
    (hn : completeConn env (w.retire cqe) cqe = some w') : Attends k w' := by
  obtain ⟨hrecv, _, htime⟩ := hok hgot
  unfold completeConn at hn
  cases hc : cqe.op.code with
  | recv =>
    simp only [hc] at hn
    obtain ⟨hres, hs, hsilent⟩ := hrecv hc
    refine Secured.onRecv ⟨hvac hc, ?_, ?_, h.idle, h.state, h.session, h.done⟩ hres hsilent.2 hn
    · rw [Work.retire, retire_asked]
      exact hs
    · exact fun op hop => h.opened op (mem_own_retire hop)
  | send =>
    -- nothing is being sent
    obtain ⟨op, hd, hcode⟩ := h.one
    have hmem : cqe.op ∈ w.ring.data k := mem_data.mpr ⟨hm, .inr hc⟩
    rw [hd, List.mem_singleton] at hmem
    rw [← hmem, hc, h.idle] at hcode
    cases hcode
  | close => exact absurd hc (h.opened _ hm)
  | timeout =>
    simp only [hc, onTimeout, htime hc, if_true, Option.some.injEq] at hn
    exact .inl (hn ▸ h.retire_other (by simp [Op.isData, hc]))
  | accept | signal | cancel => simp [mem_own, hc, OpCode.ofConn] at hm

theorem Attends.next (h : Attends k w) (hone : OneAtATime k w)
    (hok : (undisturbed env k (Silent env)).ok w ev) (hn : Lane.next env k w ev = some w') :
    Attends k w' := by
  by_cases hgot : GotRequest k w
  · exact .inr (hgot.next hn)
  have hwait := h.resolve_right hgot
  cases Lane.next_spec hn with
  | handled hm hwf hl hw =>
    exact hwait.complete (fun hc => hone.vacant hm hwf hl (.inl hc)) hm hgot hok hw
  | lost _ _ hdead => exact absurd (show w.conn.Live by simp [Conn.Live, hwait.state]) hdead
  | others hb => exact .inl (hwait.others hb)
  | drain | force => exact hok.elim

/-- What holds of connection `k` before and after the end of its handshake. -/
structure Stage (k : ℕ) (w : Work ω τ) : Prop where
  one : OneAtATime k w
  usual : w.conn.Usual
  layer : w.conn.InLayer
  told : CloseTold k w
  attends : w.conn.tlsDone = true → Attends k w

theorem Stage.pending (h : Stage k w) (hl : w.conn.Live) (hgoing : w.conn.tlsDone = false)
    (hvac : Vacant k (w.retire cqe)) (hs : env.sqe w.ring.asked = true) :
    Pending env k ((w.retire cqe).setConn { w.conn with sendActive := false }) := by
  refine ⟨⟨h.one.numbers hl, hvac.data⟩, ?_, fun op hop => h.told op (mem_own_retire hop), h.layer, rfl,
    hgoing⟩
  show env.sqe (w.ring.retire cqe).asked = true
  rw [retire_asked]
  exact hs

theorem Stage.ends (h : Stage k w) (hm : cqe.op ∈ w.ring.own k) (hwf : cqe.WellFormed)
    (hl : w.conn.Live) (hgoing : w.conn.tlsDone = false) (hgot : ¬GotRequest k w)
    (hok : (undisturbed env k (Silent env)).complete w cqe)
    (hn : completeConn env (w.retire cqe) cqe = some w') : Ends k w' := by
  obtain ⟨hrecv, hsend, _⟩ := hok hgot
  have hvac := h.one.vacant hm hwf hl
  unfold completeConn at hn
  split at hn
  · next hc =>
    obtain ⟨_, hs, hsilent⟩ := hrecv hc
    have hidle : (w.retire cqe).conn.sendActive = false := by
      by_contra ha
      have htold := (h.one.told.retire (show cqe.op.code ≠ .send by simp [hc]) hl).2
      obtain ⟨op, hop, _⟩ := htold.mp (by simpa using ha)
      rw [(hvac (.inl hc)).data] at hop
      cases hop
    have hp := h.pending hl hgoing (hvac (.inl hc)) hs
    rw [← hidle] at hp
    exact Pending.onRecv hp hsilent.1 hn
  · next hc =>
    cases hn
    exact Pending.onSend (h.pending hl hgoing (hvac (.inr hc)) (hsend hc).2) cqe
  · cases hn
    exact ends_of_false rfl
  · cases hn
    unfold onTimeout
    split_ifs
    · exact ends_of_false hgoing
    · exact ends_of_false (armClose_going (w := w.retire cqe) env hgoing)
  · cases hn
    exact ends_of_false hgoing

theorem Stage.told_complete (h : Stage k w) (hl : w.conn.Live)
    (hw : completeConn env (w.retire cqe) cqe = some w') : CloseTold k w' := by
  rcases completeConn_effect hw with he | ⟨_, rfl⟩
  · refine Effect.closeTold he hl h.usual.2.2.2
      ((inLayer_rule env).completeConn (w := w.retire cqe) h.layer hw) fun op hop hc => ?_
    exact (lost_rule env).completeConn (w := w.retire cqe) (h.told op (mem_own_retire hop) hc) hw
  · exact fun _ _ _ => lost_free

theorem Stage.next (h : Stage k w) (hok : (undisturbed env k (Silent env)).ok w ev)
    (hn : Lane.next env k w ev = some w') : Stage k w' := by
  have hone := h.one.next hn
  have hdone : w.conn.tlsDone = true → Attends k w' := fun hd => (h.attends hd).next h.one hok hn
  cases Lane.next_spec hn with
  | @handled cqe _ hm hwf hl hw =>
    refine ⟨hone, (usual_rule env).completeConn (w := w.retire cqe) h.usual hw,
      (inLayer_rule env).completeConn (w := w.retire cqe) h.layer hw, h.told_complete hl hw,
      fun hd => ?_⟩
    by_cases hgot : GotRequest k w
    · exact .inr (hgot.next hn)
    by_cases hgoing : w.conn.tlsDone = false
    · exact .inl (h.ends hm hwf hl hgoing hgot hok hw hd)
    · exact hdone (by simpa using hgoing)
  | lost => exact ⟨hone, h.usual, h.layer, fun op hop => h.told op (mem_own_retire hop), hdone⟩
  | others hb =>
    exact ⟨hone, h.usual, h.layer, fun op hop => h.told op (hb.ops.mem_iff.mp hop), hdone⟩
  | drain | force => exact hok.elim

theorem Stage.start {C : LaneCond ω τ} (h : Lane.Start env k C w) : Stage k w := by
  have hone := oneAtATime_start h
  obtain ⟨w₁, id, fd, rfl, hconn, hown, _⟩ := h
  have hacc : w₁.conn.state = .accepting := by rw [hconn]; rfl
  have hlayer : (firstState env w₁.conn fd).InLayer := by
    have hnone : Conn.InLayer { w₁.conn with fd := fd, timeoutPhase := .header } := by
      rw [hconn]
      exact fun ht => by cases ht
    unfold firstState
    split_ifs
    · rw [hconn]
      exact fun ht => by cases ht
    · exact inLayer_nextLayer hnone (.inl hacc)
  have hgoing : (firstState env w₁.conn fd).tlsDone = false := by
    rw [hconn]
    unfold firstState nextLayer
    simp only
    split_ifs <;> rfl
  have hlive : w₁.conn.Live := by simp [Conn.Live, hacc]
  refine ⟨hone, (usual_rule env).accepted (usual_firstState _ fd hacc),
    (inLayer_rule env).accepted hlayer, ?_, fun hd => .inl (ends_of_false ?_ hd)⟩
  · refine (effect_accepted env w₁ fd).closeTold hlive (by simp [hacc])
      ((inLayer_rule env).accepted hlayer) fun op hop => ?_
    rw [hown] at hop
    cases hop
  · unfold accepted
    simp only
    split_ifs
    · rfl
    · rw [armRecv_conn]
      exact hgoing

/-! ### Runs -/

theorem lt_of_tlsDone {s : Srv ω τ} (h : Numbered s) (hd : (s.lane k).conn.tlsDone = true) :
    k < s.pool.serial := by
  rcases lane_cases h.distinct k with ⟨c, hc, hl, rfl, _⟩ | ⟨_, he⟩
  · exact (h.live c hc hl).1
  · rw [he] at hd
    cases hd

/-- **A completed handshake leads to a request.** In every run in which the round
that ends the handshake of connection `k` leaves no output and the first plaintext
is a whole request: once its handshake is done, and unless the peer closes, an
operation fails or a timeout fires, the connection is open and sends or receives,
until its first request is dispatched. -/
theorem handshake_leads_to_request {maxConns : ℕ} {listenFd signalFd : ℤ} {world : ω}
    {m₀ m : Machine ω τ}
    (h₀ : Reaches (Machine.next env) (LaneStep env k (undisturbed env k (Silent env)))
      (Machine.start maxConns listenFd signalFd world) m₀)
    (hdone : (m₀.srv.lane k).conn.tlsDone = true)
    (h : Reaches (Machine.next env) (LaneStep env k (undisturbed env k (Silent env))) m₀ m) :
    AwaitsRequest k (m.srv.lane k) ∨ GotRequest k (m.srv.lane k) := by
  have hk := lt_of_tlsDone (lanes_of_run h₀).1.numbered hdone
  obtain ⟨w₀, hstart, hlane⟩ := lane_of_run h₀ hk
  have hstage : Stage k (m₀.srv.lane k) :=
    hlane.invariant (Stage k) (Stage.start hstart) fun w ev w' hi hok hn => hi.next hok hn
  -- from there on, the connection does not leave its last stage
  have hlater : OneAtATime k (m.srv.lane k) ∧ Attends k (m.srv.lane k) :=
    (lane_of_reaches (lanes_of_run h₀).1 hk h).invariant (fun w => OneAtATime k w ∧ Attends k w)
      ⟨hstage.one, hstage.attends hdone⟩ fun w ev w' hi hok hn =>
        ⟨hi.1.next hn, hi.2.next hi.1 hok hn⟩
  exact hlater.2.imp (·.toAwaitsRequest) id

section

variable (env : Env ω τ) (k : ℕ) (ok : Work ω τ → Cqe → Prop)

instance (n : ℕ) : Decidable ((undisturbed env k ok).start n) := isTrue trivial

instance : Decidable (undisturbed env k ok).shutdown := isFalse id

instance [∀ w cqe, Decidable (ok w cqe)] (w : Work ω τ) (cqe : Cqe) :
    Decidable ((undisturbed env k ok).complete w cqe) := by
  unfold undisturbed
  infer_instance

instance (w : Work ω τ) : Decidable (AwaitsRequest k w) :=
  decidable_of_iff (w.conn.serial = k ∧ (∀ op ∈ w.ring.own k, op.code ≠ .close) ∧
      (w.ring.data k).map Op.code = [if w.conn.sendActive then .send else .recv] ∧
      w.conn.state = .httpActive ∧ w.conn.tls.isSome = true) (by
    constructor
    · rintro ⟨h₁, h₂, h₃, h₄, h₅⟩
      obtain ⟨op, hd, hc⟩ := List.map_eq_singleton_iff.mp h₃
      exact ⟨h₁, h₂, ⟨op, hd, hc⟩, h₄, h₅⟩
    · rintro ⟨h₁, h₂, ⟨op, hd, hc⟩, h₄, h₅⟩
      exact ⟨h₁, h₂, by rw [hd, List.map_singleton, hc], h₄, h₅⟩)

end

def shakeEvents : List Event := connectEvents ++ comes 2 [22] ++ [.step, .step, .step]

/-- An engine as `frameWolf`, which wants more after the first byte of a record. -/
def recordEnv : Env Unit Unit :=
  { frameEnv [] with
    wolf := { frameWolf [] with
      read := fun _ input _ _ => ⟨(), input.length, [], if input.length < 2 then .want else .success input⟩ } }

/-- A record comes in two receives. -/
def recordEvents : List Event := comes 4 [23] ++ [.step, .step, .step] ++ comes 6 getBytes

/-- The last round leaves no output: the server waits for the request, also when
the first byte of its record has come, and is about to dispatch it. -/
theorem handshake_leads_to_request_silent :
    ∃ m₀ m : Machine Unit Unit,
      Reaches (Machine.next recordEnv)
        (LaneStep recordEnv 0 (undisturbed recordEnv 0 (Silent recordEnv)))
        (Machine.start 4 3 9 ()) m₀ ∧ (m₀.srv.lane 0).conn.tlsDone = true ∧
      Reaches (Machine.next recordEnv)
        (LaneStep recordEnv 0 (undisturbed recordEnv 0 (Silent recordEnv))) m₀ m ∧
      AwaitsRequest 0 (m.srv.lane 0) ∧ AboutToDispatch recordEnv m (recvCqe 6 getBytes) true := by
  obtain ⟨m₀, h₀, hdone, hrun⟩ := exists_reaches (Machine.next recordEnv)
    (LaneStep recordEnv 0 (undisturbed recordEnv 0 (Silent recordEnv))) (Machine.start 4 3 9 ())
    shakeEvents
    (fun m => (m.srv.lane 0).conn.tlsDone = true ∧
      RunsTo (Machine.next recordEnv)
        (LaneStep recordEnv 0 (undisturbed recordEnv 0 (Silent recordEnv)))
        (fun m => ¬GotRequest 0 (m.srv.lane 0) ∧
          AboutToDispatch recordEnv m (recvCqe 6 getBytes) true) m recordEvents)
    (by decide +kernel)
  obtain ⟨m, hm, hnone, hnow⟩ := exists_reaches _ _ _ _ _ hrun
  exact ⟨m₀, m, h₀, hdone, hm, (handshake_leads_to_request h₀ hdone hm).resolve_right hnone, hnow⟩

/-- The output of the last round has been sent. -/
def flushedEvents : List Event :=
  [.call .waitFails, .post ⟨⟨.send, 1, 4, 0, 0, 1, false⟩, 1, [], false, 0⟩, .call .ready, .step]

/-- The last round leaves a byte of output; when it is sent, the connection is
closed. -/
theorem handshake_closes :
    ¬∀ (env : Env Unit Unit) (k maxConns : ℕ) (listenFd signalFd : ℤ) (m₀ m : Machine Unit Unit),
      Reaches (Machine.next env) (LaneStep env k (undisturbed env k fun _ _ => True))
        (Machine.start maxConns listenFd signalFd ()) m₀ →
      (m₀.srv.lane k).conn.tlsDone = true →
      Reaches (Machine.next env) (LaneStep env k (undisturbed env k fun _ _ => True)) m₀ m →
        AwaitsRequest k (m.srv.lane k) ∨ GotRequest k (m.srv.lane k) := by
  intro h
  obtain ⟨m₀, h₀, hdone, hrun⟩ := exists_reaches (Machine.next (frameEnv [1]))
    (LaneStep (frameEnv [1]) 0 (undisturbed (frameEnv [1]) 0 fun _ _ => True))
    (Machine.start 4 3 9 ()) shakeEvents
    (fun m => (m.srv.lane 0).conn.tlsDone = true ∧
      RunsTo (Machine.next (frameEnv [1]))
        (LaneStep (frameEnv [1]) 0 (undisturbed (frameEnv [1]) 0 fun _ _ => True))
        (fun m => ¬(AwaitsRequest 0 (m.srv.lane 0) ∨ GotRequest 0 (m.srv.lane 0))) m flushedEvents)
    (by decide +kernel)
  obtain ⟨m, hm, hnot⟩ := exists_reaches _ _ _ _ _ hrun
  exact hnot (h (frameEnv [1]) 0 4 3 9 m₀ m h₀ hdone hm)

end Iohttp
