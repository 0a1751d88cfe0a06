/-
# Nothing in the clear

On a server with a TLS context a request should come from what `ioh_tls_read`
has returned, and a response should go through `ioh_tls_write`. Whether a
connection is encrypted is decided anew at each receive and at each send from
its session and a flag. The session is missing if `ioh_tls_conn_create` has
failed, which nothing looks at, and after `arm_close` has destroyed it while the
connection is still found by its id; then what is received is parsed, and
answered, as it came.
-/
import Iohttp.Core.Layers
import Iohttp.Core.Closing

namespace Iohttp

open Runs List

variable {ω τ : Type} {env : Env ω τ} {c : Conn τ} {w w₀ : Work ω τ}

/-- A connection that can still do something has a session, whose handshake has
been done when the connection says so, or will get one. -/
def Conn.Sealed (env : Env ω τ) (c : Conn τ) : Prop :=
  match c.state with
  | .free | .closing => True
  | .proxyHeader => (env.wolf.new c.serial).isSome = true
  | .quic => False
  | _ => (c.tls.map TlsConn.handshakeDone).isSome = true ∧
      (c.tlsDone = true → c.tls.map TlsConn.handshakeDone = some true)

theorem sealed_congr {c' : Conn τ} (hc : c.Sealed env) (h : SameLayers c c') : c'.Sealed env := by
  unfold Conn.Sealed at hc ⊢
  rw [h.state, h.serial, h.tlsDone, h.session]
  exact hc

theorem sealed_nextLayer (htls : env.tls = true)
    (hs : ConnState.tlsHandshake ∈ validTransitions c.state)
    (hn : (env.wolf.new c.serial).isSome = true) : (nextLayer env c).Sealed env := by
  obtain ⟨ssl, hssl⟩ := Option.isSome_iff_exists.mp hn
  have hlayer : nextLayer env c =
      { c with tls := some ⟨ssl, [], [], false⟩, tlsDone := false, state := .tlsHandshake } := by
    simp [nextLayer, htls, connTransition, hs, tlsConnCreate, hssl]
  rw [hlayer]
  simp [Conn.Sealed]

theorem sealed_rule (htls : env.tls = true) : LayerRule env (Conn.Sealed env) where
  same := sealed_congr
  layer {c} hs hc := by
    refine sealed_nextLayer htls (by simp [hs, validTransitions]) ?_
    simpa [Conn.Sealed, hs] using hc
  secure {c t} hsome hd ht hc := by
    unfold Conn.Sealed at hc ⊢
    simp only [handshakeDone, connTransition]
    cases hs : c.state <;> simp_all [validTransitions]
  shut {c} hc := by
    unfold Conn.Sealed at hc ⊢
    rw [connTransition_state]
    cases hs : c.state <;> simp_all [validTransitions]
  free := trivial

theorem sealed_drainConn (hc : c.Sealed env) : (drainConn c).Sealed env := by
  unfold drainConn
  split_ifs with hs
  · simpa [Conn.Sealed, connTransition, hs, validTransitions] using hc
  · exact hc

/-- `ioh_tls_conn_create` will give the connection that is accepted a session. -/
def GetsSession (env : Env ω τ) (s : Srv ω τ) (_ : Cqe) : Prop :=
  (env.wolf.new s.pool.serial).isSome = true

variable {cqe : Cqe} {t : TlsConn τ} {data : Bytes}

theorem sealed_firstState (htls : env.tls = true) {s : Srv ω τ}
    (h : GetsSession env s cqe) : (firstState env (s.newConn env) cqe.res).Sealed env := by
  unfold firstState
  split_ifs
  · unfold GetsSession at h
    simpa [Conn.Sealed, connTransition, Srv.newConn, allocConn, validTransitions] using h
  · refine sealed_nextLayer htls ?_ h
    simp [Srv.newConn, allocConn, validTransitions]

theorem sealed_srvRule (htls : env.tls = true) :
    SrvRule env (EachConn (Conn.Sealed env)) (fun _ _ => True) (GetsSession env) fun _ => True :=
  (sealed_rule htls).srvRule (fun _ _ => sealed_firstState htls) fun _ => sealed_drainConn

/-! ### What comes in and what goes out -/

/-- The response that a receive leads to, and the connection that it is sent
on: an error, or the application's answer. -/
def respondsWith (env : Env ω τ) : Outcome ω τ → Option (Work ω τ × Bytes)
  | .done _ => none
  | .reject w status msg => (serializeResponse (errorResponse status msg) 512).map fun out => (w, out)
  | .dispatch w req _ =>
    (serializeResponse (w.answer env req).ctx.resp 8192).map fun out => (w.answered env req, out)

/-- What a completion does is behind TLS. The bytes of a request that is
dispatched are what `ioh_tls_read` has returned for this receive, in a session
whose handshake is done. What is submitted of a response is what
`ioh_tls_write` has made of it. A send that is continued sends what it was
sending. -/
structure Shielded (env : Env ω τ) (w : Work ω τ) (cqe : Cqe) : Prop where
  dispatch : cqe.op.code = .recv → ∀ w' req total, recvOutcome env w cqe = .dispatch w' req total →
    ∃ t, w.conn.tls = some t ∧ t.handshakeDone = true ∧
      (tlsRead env.wolf (tlsFeedInput t (receive w cqe).conn.buf).1 8192).2 = .ok w'.conn.buf
  response : cqe.op.code = .recv → ∀ w' data, respondsWith env (recvOutcome env w cqe) = some
    (w', data) →
    StartsSend w' (armSend env w' data).1 →
    ∃ t, w'.conn.tls = some t ∧ t.handshakeDone = true ∧ 0 ≤ (tlsWrite env.wolf t data).2 ∧
      (armSend env w' data).1.conn.sendBuf = (tlsWrite env.wolf t data).1.cipherOut
  again : cqe.op.code = .send → StartsSend w (onSend env w cqe) →
    (onSend env w cqe).conn.sendBuf = w.conn.sendBuf

/-- A write that succeeds leaves output. -/
def WritesOut (E : Wolf τ) : Prop :=
  ∀ (t : TlsConn τ) (data : Bytes), 0 ≤ (tlsWrite E t data).2 → (tlsWrite E t data).1.cipherOut ≠ []

/-- The session is still the connection's, and its handshake is done. -/
structure Secure (w : Work ω τ) (t : TlsConn τ) : Prop where
  session : w.conn.tls = some t
  done : w.conn.tlsDone = true
  handshake : t.handshakeDone = true

theorem armSend_secure (hout : WritesOut env.wolf)
    (h : Secure w t) (hs : StartsSend w (armSend env w data).1) :
    0 ≤ (tlsWrite env.wolf t data).2 ∧
      (armSend env w data).1.conn.sendBuf = (tlsWrite env.wolf t data).1.cipherOut := by
  have hcan : CanSend env w data := by
    by_contra hno
    obtain ⟨op, hop, hcode⟩ := hs
    rw [(armSend_of_not_canSend hno).2, drop_length] at hop
    cases hop
  obtain ⟨out, henc, _, hbuf, _⟩ := armSend_of_canSend hcan
  rw [hbuf]
  simp only [encrypt, h.session, h.done, if_true] at henc
  split_ifs at henc with hneg hne
  · rw [not_lt] at hneg
    cases henc
    exact ⟨hneg, rfl⟩
  · exact absurd (hout t data (not_lt.mp hneg)) hne

theorem onProxy_ok (h : onProxy env w = .ok w₀) : (w.conn.state ≠ .proxyHeader ∧ w₀ = w) ∨
      (w.conn.state = .proxyHeader ∧ ∃ c : Conn τ, c.state = .proxyHeader ∧
        w₀.conn = nextLayer env c) := by
  unfold onProxy at h
  split_ifs at h with hs
  · split at h
    · next consumed result _ =>
      simp only at h
      split_ifs at h
      cases h
      exact .inr ⟨hs, w.conn.behindHeader consumed result, hs, rfl⟩
    · split_ifs at h
  · cases h
    exact .inl ⟨hs, rfl⟩

theorem Conn.Sealed.session (h : c.Sealed env) (hl : c.Live)
    (hc : c.state ≠ .closing) (hp : c.state ≠ .proxyHeader) :
    ∃ t, c.tls = some t ∧ (c.tlsDone = true → t.handshakeDone = true) := by
  unfold Conn.Sealed at h
  have hsession : (c.tls.map TlsConn.handshakeDone).isSome = true ∧
      (c.tlsDone = true → c.tls.map TlsConn.handshakeDone = some true) := by
    cases hs : c.state <;> simp_all [Conn.Live]
  cases ht : c.tls with
  | none => simp [ht] at hsession
  | some t =>
    rw [ht] at hsession
    exact ⟨t, rfl, fun hd => by simpa using hsession.2 hd⟩

theorem nextLayer_done (htls : env.tls = true) (hs : c.state = .proxyHeader) :
    (nextLayer env c).tlsDone = false ∧ (nextLayer env c).state = .tlsHandshake := by
  simp [nextLayer, htls, connTransition, hs, validTransitions]

/-- A receive on a connection with a session: it ends without a request and
without a response, or the plaintext of the session goes to the parser. -/
theorem recvOutcome_sealed (htls : env.tls = true)
    (hs : w.conn.Sealed env) (hl : w.conn.Live) (hc : 0 < cqe.res → w.conn.state ≠ .closing) :
    (∃ w', recvOutcome env w cqe = .done w') ∨ ∃ t w₁, w.conn.tls = some t ∧ t.handshakeDone = true ∧
        (tlsRead env.wolf (tlsFeedInput t (receive w cqe).conn.buf).1 8192).2 = .ok w₁.conn.buf ∧
        (∃ t', Secure w₁ t') ∧ recvOutcome env w cqe = onHttp env w₁ := by
  unfold recvOutcome
  split_ifs with hres
  · exact .inl ⟨_, rfl⟩
  have hproxy :=
    (sealed_rule htls).stages.onProxy (w := receive w cqe) (sealed_congr hs ⟨rfl, rfl, rfl, rfl⟩)
  rcases hp : onProxy env (receive w cqe) with w₀ | w₀
  · exact .inl ⟨w₀, rfl⟩
  rw [hp] at hproxy
  simp only
  rcases onProxy_ok hp with ⟨hstate, rfl⟩ | ⟨_, c, hstate, hconn⟩
  · obtain ⟨t, ht, hdone⟩ := hs.session hl (hc (not_le.mp hres)) hstate
    have htr : (receive w cqe).conn.tls = some t := ht
    unfold onTls
    rw [htr]
    split_ifs with hd
    · -- the handshake was done before
      unfold onDecrypt
      simp only
      set w₂ := (feed (receive w cqe) t).setTls
        (tlsRead env.wolf (tlsFeedInput t (receive w cqe).conn.buf).1 8192).1 with hw₂
      cases hr : (tlsRead env.wolf (tlsFeedInput t (receive w cqe).conn.buf).1 8192).2 with
      | error e =>
        simp only
        split_ifs <;> exact .inl ⟨_, rfl⟩
      | ok plain =>
        refine .inr ⟨t, w₂.setConn (w₂.conn.setPlain plain), ht, hdone hd, ?_, ⟨_, rfl, hd, ?_⟩, rfl⟩
        · rw [hr]
          simp [Conn.buf, Conn.setPlain, Work.setConn]
        · rw [tlsRead_done, tlsFeedInput_done]
          exact hdone hd
    · exact .inl ⟨_, rfl⟩
  · -- the header has ended, and the handshake begins
    obtain ⟨hd, hst⟩ := nextLayer_done htls hstate
    have hw : w₀.conn.Sealed env := hproxy
    obtain ⟨t, ht, _⟩ := hw.session (by simp [Conn.Live, hconn, hst]) (by simp [hconn, hst])
      (by simp [hconn, hst])
    unfold onTls
    rw [ht]
    simp only
    rw [if_neg (by rw [hconn, hd]; decide)]
    exact .inl ⟨_, rfl⟩

variable {w' : Work ω τ}

theorem onHttp_conn :
    (∀ status msg, onHttp env w = .reject w' status msg → w'.conn = w.conn) ∧
      ∀ req total, onHttp env w = .dispatch w' req total → w'.conn = w.conn := by
  constructor
  · intro status msg h
    unfold onHttp at h
    split_ifs at h
    · cases h
      rfl
    · simp only at h
      split at h
      · unfold onRequest at h
        split_ifs at h
        cases h
        rfl
      · split_ifs at h
        cases h
        rfl
  · intro req total h
    unfold onHttp at h
    split_ifs at h
    simp only at h
    split at h
    · unfold onRequest at h
      split_ifs at h
      cases h
      rfl
    · split_ifs at h

theorem Secure.of_conn (h : Secure w t) (ht : w'.conn.tls = w.conn.tls)
    (hd : w'.conn.tlsDone = w.conn.tlsDone) : Secure w' t :=
  ⟨ht.trans h.session, hd.trans h.done, h.handshake⟩

theorem answered_tls (w : Work ω τ) (req : Request) :
    (w.answered env req).conn.tls = w.conn.tls ∧ (w.answered env req).conn.tlsDone = w.conn.tlsDone := by
  simp only [Work.answered, Work.tick, Work.setConn]
  cases (w.answer env req).opts <;> exact ⟨rfl, rfl⟩

theorem respondsWith_secure (h : Secure w t)
    (hr : respondsWith env (onHttp env w) = some (w', data)) : Secure w' t := by
  cases ho : onHttp env w with
  | done w₁ =>
    rw [ho] at hr
    cases hr
  | reject w₁ status msg =>
    rw [ho, respondsWith, Option.map_eq_some_iff] at hr
    obtain ⟨out, _, he⟩ := hr
    cases he
    have hconn := onHttp_conn.1 status msg ho
    exact h.of_conn (by rw [hconn]) (by rw [hconn])
  | dispatch w₁ req total =>
    rw [ho, respondsWith, Option.map_eq_some_iff] at hr
    obtain ⟨out, _, he⟩ := hr
    cases he
    have hconn := onHttp_conn.2 req total ho
    obtain ⟨ht, hd⟩ := answered_tls w₁ req
    exact h.of_conn (by rw [ht, hconn]) (by rw [hd, hconn])

theorem armRecv_prepared (w : Work ω τ) (op : Op)
    (h : op ∈ (armRecv env w).1.ring.prepared.drop w.ring.prepared.length) : op.code ≠ .send := by
  unfold armRecv at h
  simp only at h
  split_ifs at h
  · simp only [Work.prep, Work.ask, Ring.prepare, Ring.ask, append_assoc, drop_left,
      mem_append, mem_singleton] at h
    rcases h with rfl | rfl <;> simp [Work.recvOp, Work.opFor]
  · simp only [Work.prep, Work.ask, Ring.prepare, Ring.ask, drop_left, mem_singleton] at h
    rw [h]
    simp [Work.recvOp, Work.opFor]
  · simp only [Work.prep, Work.ask, Ring.prepare, Ring.ask, drop_left, mem_singleton] at h
    rw [h]
    simp [Work.recvOp, Work.opFor]
  · simp [Work.ask, Ring.ask] at h

theorem not_startsSend_armClose (h : w₀.ring.prepared = w.ring.prepared) :
    ¬StartsSend w₀ (armClose env w) := by
  rintro ⟨op, hop, hcode⟩
  rw [h] at hop
  exact armClose_prepared w op hop hcode

theorem not_startsSend_sendDone (h : w₀.ring.prepared = w.ring.prepared) :
    ¬StartsSend w₀ (sendDone env w) := by
  have hrecv : ∀ w' : Work ω τ, w'.ring = w.ring → ∀ w'' : Work ω τ, w''.ring = (armRecv env w').1.ring →
      ¬StartsSend w₀ w'' := by
    rintro w' hw w'' hw'' ⟨op, hop, hcode⟩
    rw [h, ← hw, hw''] at hop
    exact armRecv_prepared w' op hop hcode
  unfold sendDone
  simp only
  split_ifs
  · exact hrecv (w.setConn w.conn.sentAll) rfl _ rfl
  · exact hrecv ((w.setConn w.conn.sentAll).setConn (nextRequest w.conn.sentAll)) rfl _ rfl
  · exact not_startsSend_armClose h

theorem resend_sendBuf (h : w₀.ring.prepared = w.ring.prepared)
    (hs : StartsSend w₀ (resend env w)) : (resend env w).conn.sendBuf = w.conn.sendBuf := by
  unfold resend at hs ⊢
  split_ifs at hs ⊢
  · rfl
  · exact absurd hs (not_startsSend_armClose h)

theorem onSend_sendBuf (w : Work ω τ) (cqe : Cqe)
    (hs : StartsSend w (onSend env w cqe)) : (onSend env w cqe).conn.sendBuf = w.conn.sendBuf := by
  unfold onSend at hs ⊢
  simp only at hs ⊢
  split_ifs at hs ⊢
  · exact absurd hs (not_startsSend_armClose rfl)
  · exact resend_sendBuf rfl hs
  · exact absurd hs (not_startsSend_sendDone rfl)

/-- **A completion on a connection with a session is shielded.** -/
theorem shielded_of_sealed (htls : env.tls = true) (hout : WritesOut env.wolf)
    (hs : w.conn.Sealed env) (hl : w.conn.Live)
    (hc : cqe.op.code = .recv → 0 < cqe.res → w.conn.state ≠ .closing) : Shielded env w cqe := by
  constructor
  · intro hrecv w' req total hd
    rcases recvOutcome_sealed htls hs hl (hc hrecv) with ⟨w₁, he⟩ | ⟨t, w₁, ht, hdone, hread, _, he⟩
    · rw [he] at hd
      cases hd
    · rw [he] at hd
      refine ⟨t, ht, hdone, ?_⟩
      rw [hread, onHttp_conn.2 req total hd]
  · intro hrecv w' data hr hsend
    rcases recvOutcome_sealed htls hs hl (hc hrecv) with ⟨w₁, he⟩ | ⟨t, w₁, _, _, _, ⟨t', ht'⟩, he⟩
    · rw [he] at hr
      cases hr
    · rw [he] at hr
      have hsec := respondsWith_secure ht' hr
      exact ⟨t', hsec.session, hsec.handshake, armSend_secure hout hsec hsend⟩
  · exact fun _ hsend => onSend_sendBuf w cqe hsend

/-! ### Runs -/

/-- `ioh_tls_conn_create` gives every connection that is accepted a session, and
no bytes are received on a connection that is closing. -/
@[mk_iff]
structure InSession (env : Env ω τ) (m : Machine ω τ) (ev : Event) : Prop where
  created : ev = .step → ∀ cqe ∈ m.current, cqe.op.code = .accept → 0 ≤ cqe.res →
    (env.wolf.new m.srv.pool.serial).isSome = true
  opened : ev = .step → ∀ cqe ∈ m.current, cqe.op.code = .recv → 0 < cqe.res →
    ∀ i ∈ findConnById m.srv.pool cqe.op.id, ∀ c ∈ m.srv.pool.conns[i]?, c.state ≠ .closing

/-- **No plaintext on a TLS server.** With or without the PROXY protocol, in
every run in which `ioh_tls_conn_create` succeeds for every connection and no
bytes are received on a connection that is closing, every completion that is
handled for a connection is shielded. -/
theorem no_plaintext {env : Env ω τ} (htls : env.tls = true) (hout : WritesOut env.wolf) {maxConns : ℕ}
    {listenFd signalFd : ℤ} {world : ω} {m : Machine ω τ}
    (h : Reaches (Machine.next env) (InSession env) (Machine.start maxConns listenFd signalFd world) m)
    (hstep : InSession env m .step) {cqe : Cqe} (hcur : m.current = some cqe) {i : ℕ} {c : Conn τ}
    (hi : findConnById m.srv.pool cqe.op.id = some i) (hc : m.srv.pool.conns[i]? = some c) :
    Shielded env ((m.srv.retire cqe).focus c) cqe := by
  have hstart : EachConn (Conn.Sealed env) (serverStart maxConns listenFd signalFd world : Srv ω τ) := by
    intro c hc
    rw [eq_of_mem_replicate hc]
    trivial
  have hrun : Reaches (Machine.next env)
      (srvOk (fun _ _ => True) (GetsSession env) fun _ => True)
      (Machine.start maxConns listenFd signalFd world) m := by
    refine h.mono fun m ev hok => ⟨fun he cqe hcqe => ?_, fun _ => trivial⟩
    unfold okCqe
    cases hcode : cqe.op.code <;> simp only
    exact hok.created he cqe hcqe hcode
  have inv := (sealed_srvRule htls).holds (fun _ _ _ h => h) hstart hrun
  obtain ⟨d, hd, hlive, _⟩ := findConnById_some hi
  obtain rfl : c = d := Option.some.inj (hc.symm.trans hd)
  refine shielded_of_sealed htls hout (inv c (mem_of_getElem? hc)) hlive fun hrecv hres => ?_
  exact hstep.opened rfl cqe hcur hrecv hres i hi c hc

instance (env : Env ω τ) (m : Machine ω τ) (ev : Event) : Decidable (InSession env m ev) :=
  decidable_of_iff' _ (inSession_iff env m ev)

/-- An engine whose handshake is one round with the output `hello`. It reads
what there is, and writes a byte in front of the plaintext. -/
def frameWolf (hello : Bytes) : Wolf Unit where
  new := fun _ => some ()
  accept := fun _ input _ => ⟨(), input.length, hello, .success ()⟩
  read := fun _ input _ _ => ⟨(), input.length, [], if input = [] then .want else .success input⟩
  write := fun _ _ _ data => ⟨(), 0, 23 :: data, .success data.length⟩

theorem frameWolf_writesOut (hello : Bytes) : WritesOut (frameWolf hello) := by
  intro t data hret
  have hout : (tlsWrite (frameWolf hello) t data).1.cipherOut = t.cipherOut ++ (23 :: data).take
      t.space := by
    unfold tlsWrite
    simp only
    split <;> rfl
  rw [hout]
  intro he
  obtain ⟨hnil, htake⟩ := append_eq_nil_iff.mp he
  simp [TlsConn.space, hnil, tlsCipherBufSize] at htake

/-- The default configuration with TLS. -/
def frameEnv (hello : Bytes) : Env Unit Unit := { plainEnv with tls := true, wolf := frameWolf hello }

/-- The bytes come in a receive that is about to be handled. -/
def comes (seq : ℕ) (data : Bytes) : List Event :=
  [.call .waitFails, .post ⟨⟨.recv, 1, seq, 0, 0, 8192, true⟩, data.length, data, false, 0⟩,
    .post ⟨⟨.timeout, 1, seq + 1, 0, 0, 30000, false⟩, -ECANCELED, [], false, 0⟩, .call .ready]

def getBytes : Bytes := bytes "GET / HTTP/1.1\r\nHost: a\r\n\r\n"

/-- The receive with these bytes. -/
def recvCqe (seq : ℕ) (data : Bytes) : Cqe :=
  ⟨⟨.recv, 1, seq, 0, 0, 8192, true⟩, data.length, data, false, 0⟩

/-- The outcome is a request for the application. -/
def Outcome.dispatches : Outcome ω τ → Bool
  | .dispatch _ _ _ => true
  | _ => false

/-- The receive is about to be handled, and dispatches a request of the first
connection, which has a session or not. -/
def AboutToDispatch (env : Env ω τ) (m : Machine ω τ) (cqe : Cqe) (session : Bool) : Prop :=
  m.current = some cqe ∧ findConnById m.srv.pool cqe.op.id = some 0 ∧
    ∃ c ∈ m.srv.pool.conns[0]?, c.tls.isSome = session ∧
      (recvOutcome env ((m.srv.retire cqe).focus c) cqe).dispatches = true

instance (env : Env ω τ) (m : Machine ω τ) (cqe : Cqe) (session : Bool) :
    Decidable (AboutToDispatch env m cqe session) := by
  unfold AboutToDispatch
  infer_instance

/-- A client shakes hands and sends a request. -/
theorem no_plaintext_get :
    ∃ (m : Machine Unit Unit) (c : Conn Unit),
      Reaches (Machine.next (frameEnv [])) (InSession (frameEnv [])) (Machine.start 4 3 9 ()) m ∧
        AboutToDispatch (frameEnv []) m (recvCqe 4 getBytes) true ∧
        m.srv.pool.conns[0]? = some c ∧
        Shielded (frameEnv []) ((m.srv.retire (recvCqe 4 getBytes)).focus c) (recvCqe 4 getBytes) := by
  obtain ⟨m, hm, hnow, hok⟩ := exists_reaches (Machine.next (frameEnv [])) (InSession (frameEnv []))
    (Machine.start 4 3 9 ())
    (connectEvents ++ comes 2 [22] ++ [.step, .step, .step] ++ comes 4 getBytes)
    (fun m => AboutToDispatch (frameEnv []) m (recvCqe 4 getBytes) true ∧
      InSession (frameEnv []) m .step)
    (by decide +kernel)
  obtain ⟨hcur, hi, c, hc, _⟩ := id hnow
  exact ⟨m, c, hm, hnow, hc, no_plaintext rfl (frameWolf_writesOut []) hm hok hcur hi hc⟩

/-- The same server, where `ioh_tls_conn_create` fails. -/
def noSessionEnv : Env Unit Unit :=
  { frameEnv [] with wolf := { frameWolf [] with new := fun _ => none } }

/-- A request in the clear is dispatched by it. -/
theorem plaintext_dispatched :
    ¬∀ (env : Env Unit Unit) (maxConns : ℕ) (listenFd signalFd : ℤ) (m : Machine Unit Unit),
    env.tls = true →
      Reaches (Machine.next env) (fun _ _ => True) (Machine.start maxConns listenFd signalFd ()) m →
      ∀ (cqe : Cqe) (i : ℕ) (c : Conn Unit), m.current = some cqe →
        findConnById m.srv.pool cqe.op.id = some i → m.srv.pool.conns[i]? = some c →
        Shielded env ((m.srv.retire cqe).focus c) cqe := by
  intro h
  obtain ⟨m, hm, hcur, hi, c, hc, hnone, hd⟩ := exists_reaches (Machine.next noSessionEnv)
    (fun _ _ => True) (Machine.start 4 3 9 ()) (connectEvents ++ comes 2 getBytes)
    (AboutToDispatch noSessionEnv · (recvCqe 2 getBytes) false) (by decide +kernel)
  have hshield := h noSessionEnv 4 3 9 m rfl hm _ 0 c hcur hi hc
  cases ho : recvOutcome noSessionEnv ((m.srv.retire (recvCqe 2 getBytes)).focus c)
    (recvCqe 2 getBytes) with
  | done w | reject w status msg => simp [ho, Outcome.dispatches] at hd
  | dispatch w req total =>
    obtain ⟨t, ht, _⟩ := hshield.dispatch rfl w req total ho
    have hs : c.tls = some t := ht
    rw [hs] at hnone
    cases hnone

end Iohttp
