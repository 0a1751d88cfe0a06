/-
# The layers of a connection

A connection goes from its PROXY header to TLS and from there to HTTP, and its
state, its session and the flag of the handshake say how far it is. Nearly all
of the work on a completion leaves these alone (`SameLayers`). What does not is
the end of the PROXY header, the end of the handshake and a close, so that a
property of the layers that these three keep is an invariant of the server
(`LayerRule`).
-/
import Iohttp.Core.Sent

namespace Iohttp

variable {ω τ : Type} {w w' : Work ω τ}

theorem SameLayers.refl (c : Conn τ) : SameLayers c c := ⟨rfl, rfl, rfl, rfl⟩

variable {c c' : Conn τ}

theorem SameLayers.trans {c₁ c₂ : Conn τ} (h : SameLayers c c₁) (h' : SameLayers c₁ c₂) :
    SameLayers c c₂ :=
  ⟨h'.state.trans h.state, h'.serial.trans h.serial, h'.tlsDone.trans h.tlsDone,
    h'.session.trans h.session⟩

theorem sameLayers_tls {t t' : TlsConn τ} (hs : c'.state = c.state) (hk : c'.serial = c.serial)
    (hd : c'.tlsDone = c.tlsDone) (ht : c.tls = some t) (ht' : c'.tls = some t')
    (hh : t'.handshakeDone = t.handshakeDone) : SameLayers c c' :=
  ⟨hs, hk, hd, by rw [ht, ht', Option.map_some, Option.map_some, hh]⟩

theorem SameLayers.transition (h : SameLayers c c') (st : ConnState) :
    SameLayers (connTransition c st).1 (connTransition c' st).1 := by
  unfold connTransition
  rw [h.state]
  split_ifs
  · exact ⟨rfl, h.serial, h.tlsDone, h.session⟩
  · exact h

theorem SameLayers.handshakeDone (h : SameLayers c c') :
    SameLayers (handshakeDone c) (handshakeDone c') := by
  refine SameLayers.transition ?_ .httpActive
  exact ⟨h.state, h.serial, rfl, h.session⟩

@[simp]
theorem tlsWrite_done (E : Wolf τ) (t : TlsConn τ) (data : Bytes) :
    (tlsWrite E t data).1.handshakeDone = t.handshakeDone := by
  unfold tlsWrite
  simp only
  split <;> rfl

theorem tlsHandshake_done (E : Wolf τ) (t : TlsConn τ) :
    ((tlsHandshake E t).2 = 0 ∧ (tlsHandshake E t).1.handshakeDone = true) ∨
      ((tlsHandshake E t).2 ≠ 0 ∧ (tlsHandshake E t).1.handshakeDone = t.handshakeDone) := by
  unfold tlsHandshake
  split_ifs with hd
  · exact .inl ⟨rfl, hd⟩
  · simp only
    split
    · exact .inl ⟨rfl, rfl⟩
    · exact .inr ⟨show -EAGAIN ≠ 0 by decide, rfl⟩
    · exact .inr ⟨show - EIO ≠ 0 by decide, rfl⟩

theorem layers_encrypt (env : Env ω τ) (w : Work ω τ) (data : Bytes) :
    SameLayers w.conn (encrypt env w data).1.conn := by
  unfold encrypt
  split
  · next t ht =>
    simp only
    split_ifs
    · exact sameLayers_tls rfl rfl rfl ht rfl (tlsWrite_done ..)
    · exact sameLayers_tls rfl rfl rfl ht rfl (tlsWrite_done ..)
    · exact sameLayers_tls rfl rfl rfl ht rfl (tlsWrite_done ..)
    · exact .refl _
  · exact .refl _

theorem layers_startSend (env : Env ω τ) (w : Work ω τ) (data : Bytes) :
    SameLayers w.conn (startSend env w data).1.conn := by
  unfold startSend
  split_ifs <;> exact ⟨rfl, rfl, rfl, rfl⟩

theorem layers_armSend (env : Env ω τ) (w : Work ω τ) (data : Bytes) :
    SameLayers w.conn (armSend env w data).1.conn := by
  have he := layers_encrypt env w data
  unfold armSend
  split_ifs
  · exact .refl _
  · rcases henc : encrypt env w data with ⟨w₁, e | out⟩
    · rw [henc] at he
      exact he
    · rw [henc] at he
      exact he.trans (layers_startSend env w₁ out)

theorem layers_sendErrorResponse (env : Env ω τ) (w : Work ω τ) (status : ℕ) (msg : Bytes) :
    SameLayers w.conn (sendErrorResponse env w status msg).conn := by
  unfold sendErrorResponse
  split
  · exact (layers_armSend env w _).trans ⟨rfl, rfl, rfl, rfl⟩
  · exact ⟨rfl, rfl, rfl, rfl⟩

theorem layers_flushHandshake (env : Env ω τ) (w : Work ω τ) (t : TlsConn τ) :
    SameLayers { w.conn with tls := some t } (flushHandshake env w t).conn := by
  unfold flushHandshake
  split_ifs
  · have hsend := layers_armSend env (w.setTls t) t.cipherOut
    refine ⟨hsend.state, hsend.serial, hsend.tlsDone, rfl⟩
  · exact .refl _

theorem layers_recvUnlessSending (env : Env ω τ) (w : Work ω τ) :
    (recvUnlessSending env w).conn = w.conn := by
  unfold recvUnlessSending
  split_ifs
  · rfl
  · exact armRecv_conn w

/-! ### The rule -/

/-- A property of connections that no work breaks: that which leaves the layers
alone, the end of the PROXY header, the end of the handshake, a close and the
end of it. -/
structure LayerRule (env : Env ω τ) (P : Conn τ → Prop) : Prop where
  same : ∀ {c c' : Conn τ}, P c → SameLayers c c' → P c'
  layer : ∀ {c : Conn τ}, c.state = .proxyHeader → P c → P (nextLayer env c)
  secure : ∀ {c : Conn τ} {t : TlsConn τ}, c.tls.isSome = true → c.tlsDone = false →
    t.handshakeDone = true →
    P c → P (handshakeDone { c with tls := some t })
  shut : ∀ {c : Conn τ}, P c → P (connTransition { c with tls := none } .closing).1
  free : P freeConn

variable {env : Env ω τ} {P : Conn τ → Prop}

section

variable (R : LayerRule env P)

include R

theorem LayerRule.armClose (h : P w.conn) : P (armClose env w).conn := by
  unfold Iohttp.armClose
  split_ifs
  · exact R.shut h
  · exact R.free

theorem LayerRule.sendAnswer (h : P w.conn) (ans : Answer ω) : P (sendAnswer env w ans).1.conn := by
  unfold Iohttp.sendAnswer
  split
  · simp only
    split_ifs
    · exact R.armClose (R.same h (layers_armSend env w _))
    · exact R.same h ((layers_armSend env w _).trans ⟨rfl, rfl, rfl, rfl⟩)
  · exact R.same h ⟨rfl, rfl, rfl, rfl⟩

theorem LayerRule.onHandshake {t : TlsConn τ} (ht : w.conn.tls = some t)
    (hd : w.conn.tlsDone = false) (h : P w.conn) : P (onHandshake env w t).conn := by
  have hflush := layers_flushHandshake env w (tlsHandshake env.wolf t).1
  unfold Iohttp.onHandshake
  rcases tlsHandshake_done env.wolf t with ⟨hz, hdone⟩ | ⟨hnz, hsame⟩
  · rw [if_pos hz, layers_recvUnlessSending]
    -- the end of the handshake, seen from the session before the output was sent
    have hend := R.secure (by rw [ht]; rfl) hd hdone h
    exact R.same hend hflush.handshakeDone
  · rw [if_neg hnz]
    have hkept : P (flushHandshake env w (tlsHandshake env.wolf t).1).conn := by
      refine R.same (R.same h ?_) hflush
      exact sameLayers_tls rfl rfl rfl ht rfl hsame
    split_ifs
    · rw [layers_recvUnlessSending]
      exact hkept
    · exact R.armClose hkept

theorem LayerRule.stages :
    StageRule env (fun _ => True) (fun w => P w.conn) (fun w => P w.conn) fun w => P w.conn where
  edit h he := R.same h he.toSameLayers
  note h _ _ := h
  tick h := h
  layer h hs := R.layer hs h
  shake h ht hd _ := R.onHandshake ht hd h
  recv h := by rwa [armRecv_conn]
  kept h he := R.same h he.toSameLayers
  armed h := h
  close h := R.armClose h
  compacted h hc := by
    rw [compact_eq_some hc]
    exact R.same h ⟨rfl, rfl, rfl, rfl⟩

theorem LayerRule.finish {o : Outcome ω τ}
    (h : OutcomeStaged (fun w => P w.conn) (fun w => P w.conn) o) (hf : finish env o = some w') :
    P w'.conn :=
  R.stages.finish (fun h => R.same h (layers_sendErrorResponse ..)) (fun h => R.sendAnswer h _) h hf

theorem LayerRule.onSend (h : P w.conn) (cqe : Cqe) : P (onSend env w cqe).conn := by
  refine R.stages.onSend (fun {v} hv _ => ?_) (R.same h ⟨rfl, rfl, rfl, rfl⟩) cqe
  unfold resend
  split_ifs
  · exact R.same hv ⟨rfl, rfl, rfl, rfl⟩
  · exact R.armClose hv

/-- **A completion keeps the property of its connection.** -/
theorem LayerRule.completeConn {cqe : Cqe} (h : P w.conn)
    (hw : completeConn env w cqe = some w') : P w'.conn := by
  unfold Iohttp.completeConn at hw
  split at hw
  · exact R.finish (R.stages.recvOutcome h cqe fun _ _ _ _ _ _ => trivial) hw
  · cases hw
    exact R.onSend h cqe
  · cases hw
    exact R.free
  · cases hw
    unfold onTimeout
    split_ifs
    · exact h
    · exact R.armClose h
  · cases hw
    exact h

end

/-- Every connection has the property. -/
def EachConn (P : Conn τ → Prop) (s : Srv ω τ) : Prop := ∀ c ∈ s.pool.conns, P c

theorem EachConn.restore {s : Srv ω τ} (h : EachConn P s) {i : ℕ} (hw : P w.conn) :
    EachConn P (s.restore i w) := by
  intro c hc
  rcases List.mem_or_eq_of_mem_set hc with hc | rfl
  · exact h c hc
  · exact hw

theorem LayerRule.accepted (R : LayerRule env P) {fd : ℤ} (h : P (firstState env w.conn fd)) :
    P (accepted env w fd).conn := by
  unfold Iohttp.accepted
  simp only
  split_ifs
  · exact R.free
  · rw [armRecv_conn]
    exact h

/-- **A property of the layers is an invariant of the server**, if it holds of
connections when they are accepted and is kept when they are told to drain. -/
theorem LayerRule.srvRule (R : LayerRule env P) {okAccept : Srv ω τ → Cqe → Prop}
    (accept : ∀ (s : Srv ω τ) (cqe : Cqe), okAccept s cqe → P (firstState env (s.newConn env) cqe.res))
    (drain : ∀ c : Conn τ, P c → P (drainConn c)) :
    SrvRule env (EachConn P) (fun _ _ => True) okAccept fun _ => True where
  quiet s s' hq h := by
    intro c hc
    rw [hq.pool] at hc
    exact h c hc
  conn s cqe i c w' h _ _ hc hw :=
    EachConn.restore (s := s.retire cqe) h (R.completeConn (h c (List.mem_of_getElem? hc)) hw)
  lost s cqe h _ _ := h
  accept s cqe h hok := by
    rcases acceptFd_cases env s cqe.res with he | ⟨i, c, _, _, he⟩
    · rw [he]
      exact h
    · rw [he]
      exact EachConn.restore (s := s.count) h (R.accepted (accept s cqe hok))
  drain s h := by
    intro c hc
    obtain ⟨d, hd, rfl⟩ := List.mem_map.mp hc
    exact drain d (h d hd)
  force s h _ := by
    intro c hc
    obtain ⟨d, hd, rfl⟩ := List.mem_map.mp hc
    split_ifs
    · exact h d hd
    · exact R.free

end Iohttp
