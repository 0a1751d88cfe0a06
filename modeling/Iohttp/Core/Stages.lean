/-
# The work on a completion, in stages

The work on a receive or a send goes through three stages. First the connection
is at work: its fields change, and nothing is in the ring for it. Then a receive
or a send is armed, behind which only a few fields change. Or the connection is
closed. What an invariant has to say about each of the stages, and about the
steps between them, is a `StageRule`; that it holds behind every receive and every
response that has been sent follows from it.

An invariant of the ring and of the numbers of a connection does not look into the
layers either, so that what it says about a handshake follows from what it says
about a send (`RingRule`).

Key definitions: `SameLayers`, `Edits`, `StageRule`, `Advances`, `RingRule`.

Key theorems: `StageRule.recvOutcome`, `StageRule.finish`, `StageRule.onSend`, `RingRule.stages`.
-/
import Iohttp.Core.Server

namespace Iohttp

variable {ω τ : Type} {env : Env ω τ} {ok : TlsConn τ → Prop} {P A Q : Work ω τ → Prop} {w w' : Work ω τ}

def Act.serial : Act → ℕ
  | .received k _ | .fed k _ | .parsed k _ | .dispatched k _ | .closed k _ => k

/-- The act closes the descriptor of connection `k`. -/
def Act.closes (k : ℕ) : Act → Bool
  | .closed j _ => j = k
  | _ => false

/-- The connection has the state it had, and a session if it had one, whose
handshake is done if it was. -/
structure SameLayers (c c' : Conn τ) : Prop where
  state : c'.state = c.state
  serial : c'.serial = c.serial
  tlsDone : c'.tlsDone = c.tlsDone
  session : c'.tls.map TlsConn.handshakeDone = c.tls.map TlsConn.handshakeDone

/-- A change of the connection that leaves its numbers, its layers and its send
alone. -/
structure Edits (c c' : Conn τ) : Prop extends SameLayers c c' where
  id : c'.id = c.id
  sendActive : c'.sendActive = c.sendActive

theorem edits_routeTimeouts (c : Conn τ) (o : Option RouteOpts) : Edits c (routeTimeouts c o) := by
  cases o <;> exact ⟨⟨rfl, rfl, rfl, rfl⟩, rfl, rfl⟩

theorem edits_bodyTimeout (c : Conn τ) (req : Request) : Edits c (bodyTimeout env c req) := by
  unfold bodyTimeout
  split <;> exact ⟨⟨rfl, rfl, rfl, rfl⟩, rfl, rfl⟩

@[simp]
theorem tlsFeedInput_done (t : TlsConn τ) (data : Bytes) :
    (tlsFeedInput t data).1.handshakeDone = t.handshakeDone := by
  unfold tlsFeedInput
  split_ifs <;> rfl

@[simp]
theorem tlsRead_done (E : Wolf τ) (t : TlsConn τ) (len : ℕ) :
    (tlsRead E t len).1.handshakeDone = t.handshakeDone := by
  unfold tlsRead
  simp only
  split <;> rfl

theorem compact_eq_some {n : ℕ} (h : compact w n = some w') : w' = w.setConn (w.conn.discard n) := by
  unfold compact at h
  split_ifs at h
  exact (Option.some.inj h).symm

/-! ### The rule -/

/-- What holds of a connection at work (`P`), when something is armed for it (`A`)
and when the completion has been handled (`Q`). A handshake is gone on with only
if it is `ok`. -/
structure StageRule (env : Env ω τ) (ok : TlsConn τ → Prop) (P A Q : Work ω τ → Prop) : Prop where
  edit : ∀ {w : Work ω τ} {c : Conn τ}, P w → Edits w.conn c → P (w.setConn c)
  note : ∀ {w : Work ω τ} {a : Act}, P w → a.serial = w.conn.serial → (∀ k, a.closes k = false) →
    P (w.note a)
  tick : ∀ {w : Work ω τ} {world : ω}, P w → P (w.tick world)
  layer : ∀ {w : Work ω τ}, P w → w.conn.state = .proxyHeader → P (w.setConn (nextLayer env w.conn))
  shake : ∀ {w : Work ω τ} {t : TlsConn τ}, P w → w.conn.tls = some t → w.conn.tlsDone = false → ok t →
    Q (onHandshake env w t)
  recv : ∀ {w : Work ω τ}, P w → A (armRecv env w).1
  kept : ∀ {w : Work ω τ} {c : Conn τ}, A w → Edits w.conn c → A (w.setConn c)
  armed : ∀ {w : Work ω τ}, A w → Q w
  close : ∀ {w : Work ω τ}, P w → Q (armClose env w)
  compacted : ∀ {w w' : Work ω τ} {n : ℕ}, Q w → compact w n = some w' → Q w'

/-- The error responses of a receive. -/
def errorReplies : List (ℕ × Bytes) :=
  [(431, bytes "Request Header Fields Too Large"), (413, bytes "Content Too Large"),
    (400, bytes "Bad Request")]

/-- How a receive ends: it has been handled, or a response is to come. -/
def OutcomeStaged (P Q : Work ω τ → Prop) : Outcome ω τ → Prop
  | .done w => Q w
  | .reject w status msg => P w ∧ (status, msg) ∈ errorReplies
  | .dispatch w _ _ => P w

/-- A part of a receive ends it, or falls through. -/
def PartStaged (P Q : Work ω τ → Prop) : Except (Work ω τ) (Work ω τ) → Prop
  | .error w => Q w
  | .ok w => P w

section

variable (R : StageRule env ok P A Q)

include R

theorem StageRule.onHttp (h : P w) : OutcomeStaged P Q (onHttp env w) := by
  unfold Iohttp.onHttp
  split_ifs
  · exact ⟨h, by simp [errorReplies]⟩
  · have hparsed : P (w.note (.parsed w.conn.serial w.conn.buf)) := R.note h rfl fun _ => rfl
    simp only
    split
    · next req _ _ =>
      unfold onRequest
      split_ifs
      · exact ⟨hparsed, by simp [errorReplies]⟩
      · exact R.armed (R.recv (R.edit hparsed (edits_bodyTimeout _ req)))
      · exact hparsed
    · split_ifs
      · exact R.armed (R.recv hparsed)
      · exact ⟨hparsed, by simp [errorReplies]⟩

theorem StageRule.onProxy (h : P w) : PartStaged P Q (onProxy env w) := by
  unfold Iohttp.onProxy
  split_ifs with hs
  · split
    · next consumed result _ =>
      have hbehind : P (w.setConn (w.conn.behindHeader consumed result)) :=
        R.edit h ⟨⟨rfl, rfl, rfl, rfl⟩, rfl, rfl⟩
      have hnext : P (w.setConn (nextLayer env (w.conn.behindHeader consumed result))) :=
        R.layer hbehind hs
      simp only
      split_ifs
      · exact R.armed (R.recv hnext)
      · exact hnext
    · split_ifs
      · exact R.armed (R.recv h)
      · exact R.close h
  · exact h

theorem StageRule.onTls (h : P w) (hok : ∀ t, w.conn.tls = some t → w.conn.tlsDone = false →
    ok (tlsFeedInput t w.conn.buf).1) : PartStaged P Q (onTls env w) := by
  unfold Iohttp.onTls
  split
  · next t ht =>
    have hfed : P (feed w t) := by
      refine R.edit (R.note h rfl fun _ => rfl) ⟨⟨rfl, rfl, rfl, ?_⟩, rfl, rfl⟩
      simp [Work.note, ht]
    split_ifs with hd
    · have hread : P ((feed w t).setTls (tlsRead env.wolf (tlsFeedInput t w.conn.buf).1 8192).1) :=
        R.edit hfed ⟨⟨rfl, rfl, rfl, by simp [feed, Work.setConn]⟩, rfl, rfl⟩
      unfold onDecrypt
      simp only
      split
      · exact R.edit hread ⟨⟨rfl, rfl, rfl, rfl⟩, rfl, rfl⟩
      · split_ifs
        · exact R.armed (R.recv hread)
        · exact R.close hread
    · rw [Bool.not_eq_true] at hd
      exact R.shake hfed rfl hd (hok t ht hd)
  · exact h

/-- **A receive is handled, or comes to a response.** -/
theorem StageRule.recvOutcome (h : P w) (cqe : Cqe)
    (hok : 0 < cqe.res → ∀ w₁, Iohttp.onProxy env (receive w cqe) = .ok w₁ → ∀ t, w₁.conn.tls = some t →
      w₁.conn.tlsDone = false → ok (tlsFeedInput t w₁.conn.buf).1) :
    OutcomeStaged P Q (recvOutcome env w cqe) := by
  unfold Iohttp.recvOutcome
  split_ifs with hres
  · exact R.close h
  · have hreceived : P (receive w cqe) :=
      R.edit (R.note h rfl fun _ => rfl) ⟨⟨rfl, rfl, rfl, rfl⟩, rfl, rfl⟩
    have hproxy := R.onProxy hreceived
    split
    · next w₁ h₁ =>
      rw [h₁] at hproxy
      exact hproxy
    · next w₁ h₁ =>
      rw [h₁] at hproxy
      have htls := R.onTls hproxy (hok (not_le.mp hres) w₁ h₁)
      split
      · next w₂ h₂ =>
        rw [h₂] at htls
        exact htls
      · next w₂ h₂ =>
        rw [h₂] at htls
        exact R.onHttp htls

theorem StageRule.dispatchRequest (answer : ∀ {w : Work ω τ} {ans : Answer ω}, P w →
    Q (sendAnswer env w ans).1)
    (h : P w) (req : Request) : Q (dispatchRequest env w req).1 :=
  answer (R.tick (R.edit (R.note h rfl fun _ => rfl) (edits_routeTimeouts _ _)))

/-- **A receive is handled behind its response as well.** -/
theorem StageRule.finish
    (reject : ∀ {w : Work ω τ} {status : ℕ} {msg : Bytes}, P w → Q (sendErrorResponse env w status msg))
    (answer : ∀ {w : Work ω τ} {ans : Answer ω}, P w → Q (sendAnswer env w ans).1) {o : Outcome ω τ}
    (h : OutcomeStaged P Q o) (hf : finish env o = some w') : Q w' := by
  cases o with
  | done w =>
    cases hf
    exact h
  | reject w status msg =>
    cases hf
    exact reject h.1
  | dispatch w req total => exact R.compacted (R.dispatchRequest answer h req) hf

theorem StageRule.sendDone (h : P w) : Q (sendDone env w) := by
  have hsent : P (w.setConn w.conn.sentAll) := R.edit h ⟨⟨rfl, rfl, rfl, rfl⟩, rfl, rfl⟩
  unfold Iohttp.sendDone
  simp only
  split_ifs
  · exact R.armed (R.recv hsent)
  · have hnext : P ((w.setConn w.conn.sentAll).setConn (nextRequest w.conn.sentAll)) :=
      R.edit hsent ⟨⟨rfl, rfl, rfl, rfl⟩, rfl, rfl⟩
    exact R.armed (R.kept (R.recv hnext) (edits_routeTimeouts _ _))
  · exact R.close hsent

/-- **A send is handled**, if that is so where the rest of a response is sent. -/
theorem StageRule.onSend (again : ∀ {w : Work ω τ}, P w → w.conn.sendActive = false → Q (resend env w))
    (h : P (w.setConn { w.conn with sendActive := false })) (cqe : Cqe) : Q (onSend env w cqe) := by
  unfold Iohttp.onSend
  simp only
  split_ifs
  · exact R.close h
  · exact again (R.edit h ⟨⟨rfl, rfl, rfl, rfl⟩, rfl, rfl⟩) rfl
  · exact R.sendDone (R.edit h ⟨⟨rfl, rfl, rfl, rfl⟩, rfl, rfl⟩)

end

/-! ### Invariants of the ring -/

/-- The connection keeps its numbers and its send, and is in its next layer at
most. -/
structure Advances (c c' : Conn τ) : Prop where
  id : c'.id = c.id
  serial : c'.serial = c.serial
  sendActive : c'.sendActive = c.sendActive
  state : c'.state = c.state ∨ (c.state ∈ [ConnState.accepting, .proxyHeader, .tlsHandshake] ∧
    c'.state ∈ [ConnState.proxyHeader, .tlsHandshake, .httpActive])

theorem Edits.advances {c c' : Conn τ} (h : Edits c c') : Advances c c' :=
  ⟨h.id, h.serial, h.sendActive, .inl h.state⟩

theorem setUp_of_valid {s st : ConnState} (hv : st ∈ validTransitions s)
    (hst : st ∈ [ConnState.proxyHeader, .tlsHandshake, .httpActive]) :
    s ∈ [ConnState.accepting, .proxyHeader, .tlsHandshake] := by
  revert hv hst
  cases s <;> cases st <;> decide

theorem advances_transition {c c' : Conn τ} (h : Advances c c') (hs : c'.state = c.state)
    (st : ConnState) (hst : st ∈ [ConnState.proxyHeader, .tlsHandshake, .httpActive]) :
    Advances c (connTransition c' st).1 := by
  unfold connTransition
  split_ifs with hv
  · exact ⟨h.id, h.serial, h.sendActive, .inr ⟨setUp_of_valid (hs ▸ hv) hst, hst⟩⟩
  · exact h

theorem advances_nextLayer (env : Env ω τ) (c : Conn τ) : Advances c (nextLayer env c) := by
  unfold nextLayer
  split_ifs
  · refine advances_transition ?_ ?_ .tlsHandshake (by simp)
    · exact ⟨rfl, rfl, rfl, .inl rfl⟩
    · rfl
  · exact advances_transition ⟨rfl, rfl, rfl, .inl rfl⟩ rfl .httpActive (by simp)

theorem advances_handshakeDone (c : Conn τ) : Advances c (handshakeDone c) := by
  refine advances_transition ?_ ?_ .httpActive (by simp)
  · exact ⟨rfl, rfl, rfl, .inl rfl⟩
  · rfl

theorem Advances.trans {c c₁ c₂ : Conn τ} (h : Advances c c₁) (h' : Advances c₁ c₂) : Advances c c₂ := by
  refine ⟨h'.id.trans h.id, h'.serial.trans h.serial, h'.sendActive.trans h.sendActive, ?_⟩
  rcases h'.state with hs | ⟨hfrom, hto⟩
  · rw [hs]
    exact h.state
  · rcases h.state with hs | ⟨hfrom', _⟩
    · rw [hs] at hfrom
      exact .inr ⟨hfrom, hto⟩
    · exact .inr ⟨hfrom', hto⟩

theorem advances_firstState (env : Env ω τ) (c : Conn τ) (fd : ℤ) :
    Advances c (firstState env c fd) := by
  unfold firstState
  split_ifs
  · refine advances_transition ?_ ?_ .proxyHeader (by simp)
    · exact ⟨rfl, rfl, rfl, .inl rfl⟩
    · rfl
  · refine Advances.trans ?_ (advances_nextLayer env _)
    exact ⟨rfl, rfl, rfl, .inl rfl⟩

/-- A handshake that fails leaves nothing to send. -/
def FailsQuietly (env : Env ω τ) (t : TlsConn τ) : Prop :=
  (tlsHandshake env.wolf t).2 ≠ 0 → (tlsHandshake env.wolf t).2 ≠ -EAGAIN →
    (tlsHandshake env.wolf t).1.cipherOut = []
  deriving Decidable

/-- The stages of an invariant that does not look into the layers. A send that
cannot be armed leaves the connection at work; one that is armed is `fail`ed by a
handshake that has not failed quietly. -/
structure RingRule (env : Env ω τ) (ok : TlsConn τ → Prop) (P A Q : Work ω τ → Prop) : Prop where
  conn : ∀ {w : Work ω τ} {c : Conn τ}, P w → Advances w.conn c → P (w.setConn c)
  note : ∀ {w : Work ω τ} {a : Act}, P w → a.serial = w.conn.serial → (∀ k, a.closes k = false) →
    P (w.note a)
  tick : ∀ {w : Work ω τ} {world : ω}, P w → P (w.tick world)
  recv : ∀ {w : Work ω τ}, P w → A (armRecv env w).1
  send : ∀ {w : Work ω τ} (data : Bytes), P w →
    (0 ≤ (armSend env w data).2 ∧ A (armSend env w data).1 ∧
      (armSend env w data).1.conn.sendActive = true) ∨
      ((armSend env w data).2 < 0 ∧ P (armSend env w data).1)
  sending : ∀ {w : Work ω τ}, P w → w.conn.sendActive = true → A w
  kept : ∀ {w : Work ω τ} {c : Conn τ}, A w → Advances w.conn c → A (w.setConn c)
  armed : ∀ {w : Work ω τ}, A w → Q w
  close : ∀ {w : Work ω τ}, P w → Q (armClose env w)
  fail : ∀ {w : Work ω τ} {t : TlsConn τ}, ok t → ¬FailsQuietly env t → A w → Q (armClose env w)
  compacted : ∀ {w w' : Work ω τ} {n : ℕ}, Q w → compact w n = some w' → Q w'

section

variable (R : RingRule env ok P A Q)

include R

theorem RingRule.flushHandshake (h : P w) (t : TlsConn τ) :
    P (flushHandshake env w t) ∨
      (A (flushHandshake env w t) ∧ (flushHandshake env w t).conn.sendActive = true ∧
        t.cipherOut ≠ []) := by
  have hset : P (w.setTls t) := R.conn h ⟨rfl, rfl, rfl, .inl rfl⟩
  unfold Iohttp.flushHandshake
  split_ifs with hout
  · rcases R.send t.cipherOut hset with ⟨_, harmed, hactive⟩ | ⟨_, hfailed⟩
    · exact .inr ⟨R.kept harmed ⟨rfl, rfl, rfl, .inl rfl⟩, hactive, hout⟩
    · exact .inl (R.conn hfailed ⟨rfl, rfl, rfl, .inl rfl⟩)
  · exact .inl hset

theorem RingRule.recvUnlessSending (h : P w ∨ (A w ∧ w.conn.sendActive = true)) :
    Q (recvUnlessSending env w) := by
  unfold Iohttp.recvUnlessSending
  split_ifs with ha
  · rcases h with h | ⟨h, _⟩
    · exact R.armed (R.sending h ha)
    · exact R.armed h
  · rcases h with h | ⟨_, hs⟩
    · exact R.armed (R.recv h)
    · exact absurd hs ha

theorem RingRule.onHandshake (h : P w) {t : TlsConn τ} (hok : ok t) : Q (onHandshake env w t) := by
  have hflush := R.flushHandshake h (tlsHandshake env.wolf t).1
  unfold Iohttp.onHandshake
  simp only
  split_ifs with h0 hagain
  · refine R.recvUnlessSending (hflush.imp (fun hp => R.conn hp (advances_handshakeDone _)) ?_)
    rintro ⟨ha, hs, _⟩
    exact ⟨R.kept ha (advances_handshakeDone _), (advances_handshakeDone _).sendActive.trans hs⟩
  · exact R.recvUnlessSending (hflush.imp id fun ⟨ha, hs, _⟩ => ⟨ha, hs⟩)
  · rcases hflush with hp | ⟨ha, _, hout⟩
    · exact R.close hp
    · exact R.fail hok (fun hq => hout (hq h0 hagain)) ha

theorem RingRule.stages : StageRule env ok P A Q where
  edit h he := R.conn h he.advances
  note h hs hc := R.note h hs hc
  tick h := R.tick h
  layer h _ := R.conn h (advances_nextLayer env _)
  shake h _ _ hok := R.onHandshake h hok
  recv h := R.recv h
  kept h he := R.kept h he.advances
  armed h := R.armed h
  close h := R.close h
  compacted h hc := R.compacted h hc

variable (rest : ∀ {w : Work ω τ}, P w → Q w)

include rest

theorem RingRule.sendErrorResponse (h : P w) (status : ℕ) (msg : Bytes) :
    Q (sendErrorResponse env w status msg) := by
  unfold Iohttp.sendErrorResponse
  split
  · next out _ =>
    rcases R.send out h with ⟨_, harmed, _⟩ | ⟨_, hfailed⟩
    · exact R.armed (R.kept harmed ⟨rfl, rfl, rfl, .inl rfl⟩)
    · exact rest (R.conn hfailed ⟨rfl, rfl, rfl, .inl rfl⟩)
  · exact rest (R.conn h ⟨rfl, rfl, rfl, .inl rfl⟩)

theorem RingRule.sendAnswer (h : P w) (ans : Answer ω) : Q (sendAnswer env w ans).1 := by
  unfold Iohttp.sendAnswer
  split
  · next out _ =>
    rcases R.send out h with ⟨hret, harmed, _⟩ | ⟨hret, hfailed⟩
    · rw [if_neg (not_lt.mpr hret)]
      exact R.armed (R.kept harmed ⟨rfl, rfl, rfl, .inl rfl⟩)
    · rw [if_pos hret]
      exact R.close hfailed
  · exact rest (R.conn h ⟨rfl, rfl, rfl, .inl rfl⟩)

theorem RingRule.onRecv (h : P w) {cqe : Cqe}
    (hok : 0 < cqe.res → ∀ w₁, onProxy env (receive w cqe) = .ok w₁ → ∀ t, w₁.conn.tls = some t →
      w₁.conn.tlsDone = false → ok (tlsFeedInput t w₁.conn.buf).1)
    (hw : onRecv env w cqe = some w') : Q w' :=
  R.stages.finish (fun h => R.sendErrorResponse rest h _ _) (fun h => R.sendAnswer rest h _)
    (R.stages.recvOutcome h cqe hok) hw

end

end Iohttp
