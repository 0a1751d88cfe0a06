/-
# Buffers and the operations on them

A receive or a send that has been armed uses a buffer of its connection until
it completes. `ioh_conn_free` frees the buffers and looks at no operation. A
forced close frees connections in the middle of their receives; so does a
timeout that is handled before the receive it has cancelled, and a failed TLS
handshake, whose last output is sent while the descriptor is closed.

Where none of this happens, a connection has at most one receive or send in
the ring, and none once it is closing (`Guarded`).
-/
import Iohttp.Core.Sent
import Iohttp.Core.Stream

namespace Iohttp

open Runs List

variable {ω τ : Type} {k : ℕ} {w w' : Work ω τ} {env : Env ω τ} {cqe : Cqe} {s : Srv ω τ}

/-! ### At most one receive or send -/

/-- The connection is closing or has been freed. -/
def Over (w : Work ω τ) : Prop := ¬w.conn.Live ∨ w.conn.state = .closing

/-- Connection `k` has at most one receive or send in the ring, none if it is
closing or freed, and a close only if it is closing. -/
structure Guarded (k : ℕ) (w : Work ω τ) : Prop where
  serial : w.conn.Live → w.conn.serial = k
  known : w.conn.Live → w.conn.state ≠ .quic
  one : (w.ring.data k).length ≤ 1
  ended : Over w → w.ring.data k = []
  close : w.conn.Live → ∀ op ∈ w.ring.own k, op.code = .close → w.conn.state = .closing

/-- The connection has neither a receive, a send nor a close in the ring: its
completion is being handled. -/
structure Idle (k : ℕ) (w : Work ω τ) : Prop where
  serial : w.conn.serial = k
  live : w.conn.Live
  known : w.conn.state ≠ .quic
  going : w.conn.state ≠ .closing
  data : w.ring.data k = []
  opened : ∀ op ∈ w.ring.own k, op.code ≠ .close

theorem Idle.keep (h : Idle k w) (hk : Keeps w w') (hr : w'.ring = w.ring) : Idle k w' :=
  ⟨hk.serial.trans h.serial, hk.live h.live, hk.state_ne h.known (.inr rfl),
    hk.state_ne h.going (.inl rfl), by rw [hr]; exact h.data, by rw [hr]; exact h.opened⟩

theorem Idle.armed {ops : List Op} (h : Idle k w) (hk : Keeps w w')
    (ha : Adds k w w' ops) (hone : ops.length ≤ 1) : Guarded k w' := by
  have hgoing : w'.conn.state ≠ .closing := hk.state_ne h.going (.inl rfl)
  refine ⟨fun _ => hk.serial.trans h.serial, fun _ => hk.state_ne h.known (.inr rfl),
    by rw [ha.data]; exact hone, ?_, fun _ op hop hc => ?_⟩
  · rintro (hl | hs)
    · exact absurd (hk.live h.live) hl
    · exact absurd hs hgoing
  · rcases ha.opened op hop with hop | hne
    · exact absurd hc (h.opened op hop)
    · exact absurd hc hne

theorem Idle.adds (h : Idle k w) : Adds k w w [] := ⟨h.data, rfl, fun _ hop => .inl hop⟩

theorem Idle.guarded (h : Idle k w) : Guarded k w :=
  h.armed (Keeps.refl w) h.adds (Nat.zero_le _)

variable {c : Conn τ}

theorem Guarded.setConn (h : Guarded k w) (hs : c.serial = w.conn.serial)
    (hst : c.state = w.conn.state) : Guarded k (w.setConn c) := by
  have hl : c.Live → w.conn.Live := fun hl hf => hl (hst.trans hf)
  refine ⟨fun hc => hs.trans (h.serial (hl hc)), fun hc => hst ▸ h.known (hl hc), h.one, ?_,
    fun hc op hop hcl => hst.trans (h.close (hl hc) op hop hcl)⟩
  rintro (hd | hd)
  · exact h.ended (.inl fun hlw => hd fun hf => hlw (hst.symm.trans hf))
  · exact h.ended (.inr (hst.symm.trans hd))

theorem Guarded.keep (h : Guarded k w) (hl : w.conn.Live) (hg : w.conn.state ≠ .closing)
    (hk : Keeps w w') (hr : w'.ring = w.ring) : Guarded k w' := by
  refine ⟨fun _ => hk.serial.trans (h.serial hl), fun _ => hk.state_ne (h.known hl) (.inr rfl),
    by rw [hr]; exact h.one, ?_, fun _ op hop hc => ?_⟩
  · rintro (hd | hd)
    · exact absurd (hk.live hl) hd
    · exact absurd hd (hk.state_ne hg (.inl rfl))
  · rw [hr] at hop
    exact absurd (h.close hl op hop hc) hg

theorem guarded_freed (hc : w.conn = freeConn) (hd : w.ring.data k = []) : Guarded k w := by
  have hfree : ¬w.conn.Live := by
    rw [hc]
    exact not_not.mpr rfl
  exact ⟨fun hl => absurd hl hfree, fun hl => absurd hl hfree, by simp [hd], fun _ => hd,
    fun hl => absurd hl hfree⟩

theorem Idle.armRecv (h : Idle k w) : Guarded k (armRecv env w).1 := by
  rcases adds_armRecv h.data h.serial with ⟨_, op, _, _, _, ha⟩ | ⟨_, ha⟩
  · exact h.armed (keeps_armRecv env w) ha le_rfl
  · exact h.armed (keeps_armRecv env w) ha (Nat.zero_le _)

theorem encrypt_trace (env : Env ω τ) (w : Work ω τ) (data : Bytes) :
    (encrypt env w data).1.trace = w.trace := by
  unfold encrypt
  split
  · simp only
    split_ifs <;> rfl
  · rfl

theorem adds_armSend (hd : w.ring.data k = []) (hk : w.conn.serial = k) (data : Bytes) :
    (∃ op, op.code = .send ∧ Adds k w (armSend env w data).1 [op] ∧
        (armSend env w data).1.conn.sendActive = true ∧ (armSend env w data).2 = 0) ∨
      (Adds k w (armSend env w data).1 [] ∧ (armSend env w data).2 < 0) := by
  have hr := encrypt_ring env w data
  have ht := encrypt_trace env w data
  have hs := (keeps_encrypt env w data).serial
  unfold armSend
  split_ifs
  · exact .inr ⟨⟨hd, rfl, fun _ hop => .inl hop⟩, show -EBUSY < 0 by decide⟩
  · rcases he : encrypt env w data with ⟨w₁, e | out⟩
    · rw [he] at hr ht
      refine .inr ⟨⟨by rw [hr]; exact hd, by rw [ht], fun _ hop => .inl (by rwa [hr] at hop)⟩, ?_⟩
      exact encrypt_error (congrArg Prod.snd he)
    · rw [he] at hr ht hs
      simp only at hr ht hs ⊢
      have hd₁ : w₁.ring.data k = [] := by rw [hr]; exact hd
      rcases startSend_cases w₁ out with ⟨_, hstart⟩ | ⟨_, hstart⟩
      · obtain ⟨h₁, h₂, h₃⟩ := adds_send hd₁ (hs.trans hk)
          { w₁.conn with sendBuf := out, sendOffset := 0, sendActive := true } 0 out.length
        rw [hstart]
        exact .inl ⟨_, rfl, ⟨h₁, by rw [h₂, ht], fun op hop => by rw [← hr]; exact h₃ op hop⟩, rfl, rfl⟩
      · rw [hstart]
        refine .inr ⟨⟨hd₁, congrArg (ownActs k) ht, fun op hop => .inl ?_⟩, show -ENOSPC < 0 by decide⟩
        rw [← hr]
        exact hop

theorem Idle.added_nil (h : Idle k w) (hk : Keeps w w') (ha : Adds k w w' []) : Idle k w' := by
  refine ⟨hk.serial.trans h.serial, hk.live h.live, hk.state_ne h.known (.inr rfl),
    hk.state_ne h.going (.inl rfl), ha.data, fun op hop => ?_⟩
  exact (ha.opened op hop).elim (h.opened op) fun hne => hne

theorem Guarded.armClose (env : Env ω τ) (h : Guarded k w) (hl : w.conn.Live)
    (hd : w.ring.data k = []) : Guarded k (armClose env w) ∧ Over (armClose env w) := by
  have hdata := data_armClose (k := k) env w
  rw [hd] at hdata
  have hover : Over (Iohttp.armClose env w) := by
    rcases (shuts_armClose w).conn with ⟨hf, _⟩ | ⟨_, _, _, _, hc, _⟩
    · exact .inl fun hl' => hl' (hf ▸ rfl)
    · exact .inr (hc hl (h.known hl))
  refine ⟨⟨fun hl' => ?_, fun hl' => ?_, by simp [hdata], fun _ => hdata, fun hl' _ _ _ => ?_⟩, hover⟩
  · rcases (shuts_armClose w).conn with ⟨hf, _⟩ | ⟨_, hs, _⟩
    · exact absurd (hf ▸ rfl) hl'
    · exact hs.trans (h.serial hl)
  · rw [hover.resolve_left (not_not.mpr hl')]
    simp
  · exact hover.resolve_left (not_not.mpr hl')

theorem Idle.armClose (env : Env ω τ) (h : Idle k w) : Guarded k (armClose env w) :=
  (h.guarded.armClose env h.live h.data).1

theorem Guarded.advances (h : Guarded k w) (ha : Advances w.conn c) : Guarded k (w.setConn c) := by
  rcases ha.state with hs | ⟨hfrom, _⟩
  · exact h.setConn ha.serial hs
  · refine h.keep ?_ ?_ (keeps_advances w ha) rfl
    · intro hfree
      simp [hfree] at hfrom
    · intro hclosing
      simp [hclosing] at hfrom

theorem idle_rule (k : ℕ) :
    RingRule env (FailsQuietly env) (Idle k) (Guarded k) (Guarded k : Work ω τ → Prop) where
  conn h ha := h.keep (keeps_advances _ ha) rfl
  note h hs hc := h.keep (keeps_note _ hs hc) rfl
  tick h := h.keep (keeps_tick _ _) rfl
  recv h := h.armRecv
  send {w} data h := by
    have hk := keeps_armSend env w data
    rcases adds_armSend h.data h.serial data with ⟨op, _, ha, hactive, hret⟩ | ⟨ha, hret⟩
    · exact .inl ⟨hret.ge, h.armed hk ha le_rfl, hactive⟩
    · exact .inr ⟨hret, h.added_nil hk ha⟩
  sending h _ := h.guarded
  kept h ha := h.advances ha
  armed h := h
  close h := h.armClose env
  fail hok hnot _ := absurd hok hnot
  compacted h hc := by
    rw [compact_eq_some hc]
    exact h.setConn rfl rfl

/-- The handshake that a receive goes on with, if it fails, leaves nothing to
send. -/
def HandshakeQuiet (env : Env ω τ) (w : Work ω τ) : Prop :=
  match w.conn.tls with
  | some t => w.conn.tlsDone = false → FailsQuietly env (tlsFeedInput t w.conn.buf).1
  | none => True

instance (env : Env ω τ) (w : Work ω τ) : Decidable (HandshakeQuiet env w) := by
  unfold HandshakeQuiet
  split <;> infer_instance

/-- A receive with bytes in it does not fail in its handshake, or quietly. -/
def ReceiveQuiet (env : Env ω τ) (w : Work ω τ) (cqe : Cqe) : Prop :=
  match onProxy env (receive w cqe) with
  | .ok w₁ => HandshakeQuiet env w₁
  | .error _ => True

instance (env : Env ω τ) (w : Work ω τ) (cqe : Cqe) : Decidable (ReceiveQuiet env w cqe) := by
  unfold ReceiveQuiet
  split <;> infer_instance

theorem Idle.onRecv (h : Idle k w)
    (hq : 0 < cqe.res → ReceiveQuiet env w cqe) (hw : onRecv env w cqe = some w') : Guarded k w' := by
  refine (idle_rule k).onRecv Idle.guarded h (fun hres w₁ h₁ t ht hd => ?_) hw
  have hquiet := hq hres
  simp only [ReceiveQuiet, h₁, HandshakeQuiet, ht] at hquiet
  exact hquiet hd

theorem Idle.resend (h : Idle k w) : Guarded k (resend env w) := by
  unfold Iohttp.resend
  split_ifs
  · have hk : Keeps w ((w.setConn { w.conn with sendActive := true }).ask.prep
        (w.opFor .send w.conn.sendOffset (w.conn.sendBuf.length - w.conn.sendOffset) false)) := by
      refine Keeps.trans (Keeps.trans ?_ (keeps_ask _)) (keeps_prep _ _ ⟨rfl, rfl⟩ nofun)
      exact keeps_setConn w rfl rfl (.inl rfl)
    exact h.armed hk (adds_send h.data h.serial _ _ _) le_rfl
  · have ha : Idle k w.ask := ⟨h.serial, h.live, h.known, h.going, h.data, h.opened⟩
    exact ha.armClose env

theorem Idle.onSend (h : Idle k w) (cqe : Cqe) : Guarded k (onSend env w cqe) :=
  (idle_rule k).stages.onSend (fun hv _ => hv.resend)
  (h.keep (keeps_setConn w rfl rfl (.inl rfl)) rfl)
    cqe

/-- The condition on the completions of connection `k`: a timeout that has
fired is handled when it is over, and a handshake fails quietly. -/
def bufferCond (env : Env ω τ) : LaneCond ω τ where
  start _ := True
  complete w cqe := (cqe.op.code = .timeout → cqe.res ≠ -ECANCELED → Over w) ∧
    (cqe.op.code = .recv → 0 < cqe.res → ReceiveQuiet env (w.retire cqe) cqe)
  shutdown := False

theorem data_retire_sublist (r : Ring) (cqe : Cqe) (k : ℕ) :
    ((r.retire cqe).data k).Sublist (r.data k) := by
  unfold Ring.retire
  split_ifs
  · exact List.Sublist.refl _
  · exact ((erase_sublist ..).append (erase_sublist ..)).filter _

section

variable (h : Guarded k w)

include h

theorem Guarded.retire (cqe : Cqe) : Guarded k (w.retire cqe) := by
  have hsub := data_retire_sublist w.ring cqe k
  refine ⟨h.serial, h.known, hsub.length_le.trans h.one, fun ho => ?_,
    fun hl op hop => h.close hl op (mem_own_retire hop)⟩
  have := hsub
  rw [h.ended ho] at this
  exact sublist_nil.mp this

theorem Guarded.completes (hl : w.conn.Live)
    (hop : cqe.op ∈ w.ring.data k) (hm : cqe.more = false) : Idle k (w.retire cqe) := by
  have hnot : ¬Over w := by
    intro ho
    rw [h.ended ho] at hop
    cases hop
  have hgoing : w.conn.state ≠ .closing := fun hc => hnot (.inr hc)
  have hdata : w.ring.data k = [cqe.op] := by
    obtain ⟨op, hone⟩ := length_eq_one_iff.mp (le_antisymm h.one (length_pos_of_mem hop))
    rw [hone] at hop ⊢
    rw [mem_singleton.mp hop]
  exact ⟨h.serial hl, hl, h.known hl, hgoing, data_retire hdata rfl hm,
    fun op hop hc => hgoing (h.close hl op (mem_own_retire hop) hc)⟩

theorem Guarded.complete (hl : w.conn.Live)
    (hop : cqe.op ∈ w.ring.own k) (hwf : cqe.WellFormed) (hok : (bufferCond env).complete w cqe)
    (hw : completeConn env (w.retire cqe) cqe = some w') : Guarded k w' ∧ (Over w → Over w') := by
  have hcode := (mem_own.mp hop).2.2
  have idle : cqe.op.code = .recv ∨ cqe.op.code = .send → Idle k (w.retire cqe) ∧ ¬Over w := by
    intro hc
    have hd := mem_data.mpr ⟨hop, hc⟩
    refine ⟨h.completes hl hd (ofConn_not_more hwf hcode), fun ho => ?_⟩
    rw [h.ended ho] at hd
    cases hd
  unfold completeConn at hw
  split at hw
  · next hc =>
    obtain ⟨hi, hno⟩ := idle (.inl hc)
    exact ⟨hi.onRecv (hok.2 hc) hw, fun ho => absurd ho hno⟩
  · next hc =>
    obtain ⟨hi, hno⟩ := idle (.inr hc)
    cases hw
    exact ⟨hi.onSend cqe, fun ho => absurd ho hno⟩
  · next hc =>
    -- a close is there only if the connection is closing
    cases hw
    have hdata := (h.retire cqe).ended (.inr (h.close hl cqe.op hop hc))
    exact ⟨guarded_freed rfl hdata, fun _ => .inl (not_not.mpr rfl)⟩
  · next hc =>
    cases hw
    unfold onTimeout
    split_ifs with hres
    · exact ⟨h.retire cqe, fun ho => ho⟩
    · have := (h.retire cqe).armClose env hl ((h.retire cqe).ended (hok.1 hc hres))
      exact ⟨this.1, fun _ => this.2⟩
  · next h₁ h₂ h₃ h₄ =>
    exfalso
    cases hc : cqe.op.code <;> simp_all [OpCode.ofConn]

theorem Guarded.next {ev : LaneEvent ω τ} (hok : (bufferCond env).ok w ev)
    (hn : Lane.next env k w ev = some w') : Guarded k w' ∧ (Over w → Over w') := by
  cases Lane.next_spec hn with
  | handled hop hwf hl hw => exact h.complete hl hop hwf hok hw
  | lost => exact ⟨h.retire _, fun ho => ho⟩
  | others hb =>
    have hdata := hb.data
    refine ⟨⟨h.serial, h.known, hdata.length_eq.le.trans h.one, fun ho => ?_,
      fun hl op hop => h.close hl op (hb.ops.mem_iff.mp hop)⟩, fun ho => ho⟩
    rw [h.ended ho] at hdata
    exact hdata.eq_nil
  | drain | force => exact hok.elim

theorem Guarded.reaches
    (hr : Reaches (Lane.next env k) (bufferCond env).ok w w') : Guarded k w' ∧ (Over w → Over w') := by
  refine hr.invariant (fun v => Guarded k v ∧ (Over w → Over v)) ⟨h, id⟩ ?_
  rintro v ev v' ⟨hv, ho⟩ hok hn
  obtain ⟨hv', ho'⟩ := hv.next hok hn
  exact ⟨hv', ho' ∘ ho⟩

end

theorem guarded_start (h : Lane.Start env k (bufferCond env) w) : Guarded k w := by
  obtain ⟨w₁, id, fd, rfl, hconn, hown, _⟩ := h
  have hi : Idle k w₁ := by
    refine ⟨by rw [hconn]; rfl, ?_, ?_, ?_, data_of_own hown, fun op hop => ?_⟩
    · rw [hconn]
      exact fun hf => by cases hf
    · rw [hconn]
      exact fun hf => by cases hf
    · rw [hconn]
      exact fun hf => by cases hf
    · rw [hown] at hop
      cases hop
  have hf := hi.keep (keeps_advances w₁ (advances_firstState env w₁.conn fd)) rfl
  unfold accepted
  simp only
  split_ifs with hneg
  · rcases adds_armRecv hf.data hf.serial with ⟨hs, _⟩ | ⟨_, ha⟩
    · rw [armRecv_zero hs] at hneg
      exact absurd hneg (lt_irrefl _)
    · exact guarded_freed rfl ha.data
  · exact hf.armRecv

/-! ### All connections -/

/-- Every connection is guarded, and those in `O` are over. -/
structure AllGuarded (O : ℕ → Prop) (s : Srv ω τ) : Prop extends Numbered s where
  guarded : ∀ k < s.pool.serial, Guarded k (s.lane k)
  ended : ∀ k, O k → k < s.pool.serial ∧ Over (s.lane k)

variable {O : ℕ → Prop} {s' : Srv ω τ} {ev : Event}

theorem AllGuarded.reaches (env : Env ω τ) (h : AllGuarded O s) (hn : Numbered s')
    (hs : s'.pool.serial = s.pool.serial)
    (hr : ∀ k, Reaches (Lane.next env k) (bufferCond env).ok (s.lane k) (s'.lane k)) :
    AllGuarded O s' := by
  refine ⟨hn, fun k hk => ((h.guarded k (hs ▸ hk)).reaches (hr k)).1, fun k hk => ?_⟩
  obtain ⟨hlt, ho⟩ := h.ended k hk
  exact ⟨hs ▸ hlt, ((h.guarded k hlt).reaches (hr k)).2 ho⟩

theorem AllGuarded.accept (env : Env ω τ) (h : AllGuarded O s)
    (hfew : FewConns s cqe) (fd : ℤ) : AllGuarded O (acceptFd env s fd) := by
  have hserial : (acceptFd env s fd).pool.serial = s.pool.serial ∨
      (acceptFd env s fd).pool.serial = s.pool.serial + 1 := by
    rcases acceptFd_cases env s fd with he | ⟨i, c, _, _, he⟩
    · exact .inl (by rw [he])
    · exact .inr (by rw [he]; rfl)
  have old : ∀ k < s.pool.serial, Guarded k ((acceptFd env s fd).lane k) ∧
      (Over (s.lane k) → Over ((acceptFd env s fd).lane k)) := fun k hk =>
    (h.guarded k hk).reaches (lane_accept h.toNumbered hfew hk.ne fd)
  refine ⟨h.toNumbered.accept env hfew fd, fun k hk => ?_, fun k hk => ?_⟩
  · by_cases hlt : k < s.pool.serial
    · exact (old k hlt).1
    · -- the new connection
      have hrun : LaneRuns env k (bufferCond env) s := fun hk => absurd hk hlt
      obtain ⟨w₀, h₀, hr⟩ := hrun.accept h.toNumbered hfew (fun _ => trivial) fd hk
      exact ((guarded_start h₀).reaches hr).1
  · obtain ⟨hlt, ho⟩ := h.ended k hk
    exact ⟨by omega, (old k hlt).2 ho⟩

/-- The completion answers an operation in the ring, and meets the condition of
its connection. -/
def BufferCqe (env : Env ω τ) (s : Srv ω τ) (cqe : Cqe) : Prop :=
  cqe.op ∈ s.ring.connOps ∧ cqe.WellFormed ∧ (bufferCond env).complete (s.lane cqe.op.serial) cqe

theorem guarded_rule (env : Env ω τ) (O : ℕ → Prop) :
    HandleRule env (AllGuarded O) (BufferCqe env) FewConns where
  quiet _ _ hq h := h.reaches env (h.toNumbered.quiet hq) (by rw [hq.pool]) fun _ => lane_quiet hq
  conn s cqe i c w' h hok hf hc hw := by
    obtain ⟨c', hc', hl, _⟩ := findConnById_some hf
    obtain rfl := Option.some.inj (hc'.symm.trans hc)
    obtain ⟨hop, hcode⟩ := mem_connOps.mp hok.1
    exact h.reaches env (h.toNumbered.conn hc hl hw) rfl fun k =>
      lane_conn h.toNumbered hop hcode hok.2.1 (fun he => he ▸ hok.2.2) hf hc hw
  lost s cqe h hok hf := by
    obtain ⟨hop, hcode⟩ := mem_connOps.mp hok.1
    exact h.reaches env (h.toNumbered.retire cqe) rfl fun k =>
      lane_lost h.toNumbered hop hcode hok.2.1 (fun he => he ▸ hok.2.2) hf
  accept _ cqe h hfew := h.accept env hfew cqe.res

theorem drainConn_serial (c : Conn τ) : (drainConn c).serial = c.serial := by
  unfold drainConn
  split_ifs
  · exact connTransition_serial ..
  · rfl

theorem Guarded.drain (h : Guarded k w) : Guarded k (w.setConn (drainConn w.conn)) := by
  rcases drainConn_state w.conn with he | ⟨hs, he⟩
  · exact h.setConn (drainConn_serial _) he
  · have hl : w.conn.Live := by simp [Conn.Live, hs]
    refine ⟨fun _ => (drainConn_serial _).trans (h.serial hl), fun _ => ?_, h.one, ?_,
      fun _ op hop hc => ?_⟩
    · show (drainConn w.conn).state ≠ .quic
      simp [he]
    · rintro (hd | hd)
      · exact absurd hd (by simp [Conn.Live, Work.setConn, he])
      · exact absurd hd (by simp [Work.setConn, he])
    · exact absurd (h.close hl op hop hc) (by simp [hs])

theorem over_drain (h : Over w) : Over (w.setConn (drainConn w.conn)) := by
  have hs : w.conn.state ≠ .httpActive := by
    rcases h with hl | hc
    · simp [not_not.mp hl]
    · simp [hc]
  have : drainConn w.conn = w.conn := by rw [drainConn, if_neg hs]
  rw [this]
  exact h

theorem AllGuarded.drain (h : AllGuarded O s) : AllGuarded O s.drainAll := by
  refine ⟨h.toNumbered.drain, fun k hk => ?_, fun k hk => ?_⟩
  · rw [lane_drainAll h.toNumbered]
    exact (h.guarded k hk).drain
  · obtain ⟨hlt, ho⟩ := h.ended k hk
    refine ⟨hlt, ?_⟩
    rw [lane_drainAll h.toNumbered]
    exact over_drain ho

/-- Every connection in use is closing. -/
def AllClosing (s : Srv ω τ) : Prop := ∀ c ∈ s.pool.conns, c.Live → c.state = .closing
  deriving Decidable

theorem AllGuarded.force (h : AllGuarded O s) (hc : AllClosing s) : AllGuarded O (forceClose s) := by
  have hover : ∀ k, Over (s.lane k) := by
    intro k
    rcases lane_cases h.distinct k with ⟨c, hm, hl, _, he⟩ | ⟨_, he⟩
    · rw [he]
      exact .inr (hc c hm hl)
    · rw [he]
      exact .inl (not_not.mpr rfl)
  refine ⟨h.toNumbered.force, fun k hk => ?_, fun k hk => ⟨(h.ended k hk).1, ?_⟩⟩
  · rw [lane_forceClose]
    exact guarded_freed rfl ((h.guarded k hk).ended (hover k))
  · rw [lane_forceClose]
    exact .inl (not_not.mpr rfl)

/-- A receive that has failed, or with the end of the stream, ends its
connection. -/
theorem over_of_recv (h : AllGuarded O s) (hop : cqe.op ∈ s.ring.connOps)
    (hc : cqe.op.code = .recv) (hres : cqe.res ≤ 0) (hh : handle env s cqe = some s') :
    cqe.op.serial < s'.pool.serial ∧ Over (s'.lane cqe.op.serial) := by
  have hid := h.ops _ hop
  simp only [handle, hc] at hh
  change onConn env (s.retire cqe) cqe = some s' at hh
  unfold onConn at hh
  split at hh
  · next hf =>
    cases hh
    refine ⟨hid.1, .inl ?_⟩
    rw [lane_free (s := s.retire cqe)]
    · exact not_not.mpr rfl
    · intro c hm hl hs
      refine findConnById_none hf hm hl ?_
      rw [(h.live c hm hl).2, hid.2, hs]
  · next i hf =>
    rw [Option.bind_eq_some_iff] at hh
    obtain ⟨c, hci, hh⟩ := hh
    rw [Option.map_eq_some_iff] at hh
    obtain ⟨w', hw, rfl⟩ := hh
    obtain ⟨c', hc', hl, hcid⟩ := findConnById_some hf
    obtain rfl := Option.some.inj (hc'.symm.trans hci)
    have hm := mem_of_getElem? hci
    have hser : c'.serial = cqe.op.serial := IdOf.inj h.few (h.live c' hm hl) (by rw [hcid]; exact hid)
    have hlane := lane_restore (s := s.retire cqe) h.distinct hci hl (completeConn_worked hl hw)
    rw [hser] at hlane
    refine ⟨hid.1, ?_⟩
    rw [hlane]
    have hknown : c'.state ≠ .quic := by
      have := (h.guarded _ (h.live c' hm hl).1).known
      rw [lane_live h.distinct hm hl] at this
      exact this hl
    simp only [completeConn, hc, onRecv, recvOutcome, if_pos hres, finish, Option.some.injEq] at hw
    rw [← hw]
    rcases (shuts_armClose ((s.retire cqe).focus c')).conn with ⟨hfree, _⟩ | ⟨_, _, _, _, hcl, _⟩
    · refine .inl ?_
      rw [hfree]
      exact not_not.mpr rfl
    · exact .inr (hcl hl hknown)

/-! ### The loop -/

/-- The receives and sends of connection `k` that were submitted and have not
completed. -/
def Machine.outstanding (m : Machine ω τ) (k : ℕ) : List Op :=
  m.srv.ring.submitted.filter fun op => op.isData k = true ∧ ∀ c ∈ m.posted, c.op ≠ op

/-- A connection with an outstanding receive or send has not been freed. -/
def Machine.BuffersLive (m : Machine ω τ) : Prop :=
  ∀ k, m.outstanding k ≠ [] → ∃ c ∈ m.srv.pool.conns, c.Live ∧ c.serial = k

/-- A timeout that was not cancelled completes behind the receive that it was
linked to, and that has brought nothing. -/
def FiresLast (m : Machine ω τ) (cqe : Cqe) : Prop :=
  cqe.op.code = .timeout → cqe.res ≠ -ECANCELED →
    ∃ c ∈ m.posted, c.op.code = .recv ∧ c.op.linked = true ∧ cqe.op.seq = c.op.seq + 1 ∧
      c.op.serial = cqe.op.serial ∧ c.res ≤ 0
  deriving Decidable

/-- The steps that keep buffers until their operations have completed. -/
@[mk_iff]
structure BufferStep (env : Env ω τ) (m : Machine ω τ) (ev : Event) : Prop where
  calm : CalmTerm env m ev
  fires : ∀ cqe ∈ ev.posts, FiresLast m cqe
  forces : m.forces ev = true → AllClosing m.srv
  few : ev = .step → ∀ cqe ∈ m.current, cqe.op.code = .accept → 0 ≤ cqe.res →
    m.srv.pool.serial + 1 < 2 ^ 32
  quiet : ev = .step → ∀ cqe ∈ m.current, cqe.op.code = .recv → 0 < cqe.res →
    ReceiveQuiet env ((m.srv.lane cqe.op.serial).retire cqe) cqe

/-- A receive of connection `k` has failed or was the last one, and has been
handled. -/
def Quit (m : Machine ω τ) (k : ℕ) : Prop :=
  ∃ p < m.handled.length, ∃ cqe, m.posted[p]? = some cqe ∧ cqe.op.code = .recv ∧ cqe.res ≤ 0 ∧
    cqe.op.serial = k

/-- What holds in every state of the loop. -/
structure BufferInv (env : Env ω τ) (m : Machine ω τ) : Prop where
  aligned : Aligned env m
  queued : Queued m
  posted : m.handled.length ≤ m.posted.length
  guarded : AllGuarded (Quit m) m.srv
  fired : ∀ (p : ℕ) t, m.posted[p]? = some t → t.op.code = .timeout → t.res ≠ -ECANCELED →
    ∃ q < p, ∃ r, m.posted[q]? = some r ∧ r.op.code = .recv ∧ r.res ≤ 0 ∧ r.op.serial = t.op.serial

theorem AllGuarded.mono {O' : ℕ → Prop} (h : AllGuarded O s) (hO : ∀ k, O' k → O k) : AllGuarded O' s :=
  ⟨h.toNumbered, h.guarded, fun k hk => h.ended k (hO k hk)⟩

variable {m m' : Machine ω τ}

theorem BufferInv.post (h : BufferInv env m) (hlast : FiresLast m cqe)
    (he : m' = { m with posted := m.posted ++ [cqe] }) (hal : Aligned env m') (hq : Queued m') :
    BufferInv env m' := by
  subst he
  refine ⟨hal, hq, ?_, h.guarded.mono ?_, ?_⟩
  · show m.handled.length ≤ (m.posted ++ [cqe]).length
    rw [length_append]
    exact h.posted.trans (Nat.le_add_right _ _)
  · rintro k ⟨p, hp, c, hc, hrest⟩
    refine ⟨p, hp, c, ?_, hrest⟩
    rwa [getElem?_append_left (hp.trans_le h.posted)] at hc
  · intro p t ht hcode hres
    rcases lt_or_ge p m.posted.length with hp | hp
    · rw [getElem?_append_left hp] at ht
      obtain ⟨q, hqp, r, hr, hrest⟩ := h.fired p t ht hcode hres
      exact ⟨q, hqp, r, by rw [getElem?_append_left (hqp.trans hp)]; exact hr, hrest⟩
    · -- the new completion is of a timeout that has fired
      obtain rfl : t = cqe := by
        rw [getElem?_append_right hp] at ht
        exact (mem_singleton.mp (mem_of_getElem? ht))
      obtain ⟨r, hm, hr, _, _, hs, hnone⟩ := hlast hcode hres
      obtain ⟨q, hq⟩ := getElem?_of_mem hm
      have hqlt := (List.getElem?_eq_some_iff.mp hq).1
      exact ⟨q, hqlt.trans_le hp, r, by rw [getElem?_append_left hqlt]; exact hq, hr, hnone, hs⟩

theorem BufferInv.srv (h : BufferInv env m)
    (hok : BufferStep env m ev) (hn : m.next env ev = some m') : AllGuarded (Quit m) m'.srv := by
  have rule := guarded_rule env (Quit m)
  rcases srvStep_next hn with hq | ⟨cqe, he, hcur, hh, _⟩ | ⟨_, hq, he⟩ | ⟨hf, hq, hq'⟩
  · exact rule.quiet _ _ hq h.guarded
  · refine rule.handle h.guarded ?_ hh
    have hfirst := h.aligned.current hcur
    have legal : cqe.op.code.ofConn = true → BufferCqe env m.srv cqe := by
      intro hc
      refine ⟨mem_connOps.mpr ⟨mem_append_right _ (h.queued.pending _ cqe le_rfl hfirst hc), hc⟩,
        h.queued.wellFormed cqe (mem_of_getElem? hfirst), fun htime hres => ?_, hok.quiet he cqe hcur⟩
      obtain ⟨q, hq, r, hr, hcode, hneg, hs⟩ := h.fired _ cqe hfirst htime hres
      exact (h.guarded.ended _ ⟨q, hq, r, hr, hcode, hneg, hs⟩).2
    unfold okCqe
    split
    · next hc => exact hok.few he cqe hcur hc
    · trivial
    · trivial
    · refine legal ?_
      cases hc : cqe.op.code <;> simp_all [OpCode.ofConn]
  · rw [he]
    exact (rule.quiet _ _ hq h.guarded).drain
  · refine rule.quiet _ _ hq' ((rule.quiet _ _ hq h.guarded).force ?_)
    unfold AllClosing
    rw [hq.pool]
    exact hok.forces hf

theorem BufferInv.next (h : BufferInv env m)
    (hok : BufferStep env m ev) (hn : m.next env ev = some m') : BufferInv env m' := by
  obtain ⟨hal, hgrow⟩ := h.aligned.next hok.calm hn
  have hqueue := h.queued.next h.aligned hok.calm hn
  have hsrv := h.srv hok hn
  rcases next_queue hn with ⟨hp, hh⟩ | ⟨cqe, _, rfl, he⟩ | ⟨rfl, hp, pos, cqe, hpos, hcur, hh⟩
  · refine ⟨hal,
      hqueue, by rw [hp, hh]; exact h.posted, hsrv.mono fun k hk => ?_, by rw [hp]; exact h.fired⟩
    unfold Quit at hk ⊢
    rwa [hp, hh] at hk
  · exact h.post (hok.fires cqe rfl) he hal hqueue
  · have hlen : m'.handled.length = m.handled.length + 1 := by simp [hh]
    have hfirst := h.aligned.current hcur
    have hlt := (List.getElem?_eq_some_iff.mp hfirst).1
    refine ⟨hal, hqueue, by rw [hp, hlen]; exact hlt, ⟨hsrv.toNumbered, hsrv.guarded, ?_⟩,
      by rw [hp]; exact h.fired⟩
    rintro k ⟨p, hplt, r, hr, hcode, hres, rfl⟩
    rw [hp] at hr
    rcases Nat.lt_succ_iff_lt_or_eq.mp (hlen ▸ hplt) with hold | rfl
    · exact hsrv.ended _ ⟨p, hold, r, hr, hcode, hres, rfl⟩
    · -- the receive that is handled now
      obtain rfl := Option.some.inj (hfirst.symm.trans hr)
      have hsub := h.queued.pending _ cqe le_rfl hfirst (by rw [hcode]; rfl)
      exact over_of_recv h.guarded (mem_connOps.mpr ⟨mem_append_right _ hsub, by rw [hcode]; rfl⟩)
        hcode hres (step_handle hcur (by rw [hcode]; simp) hn)

theorem BufferInv.start (env : Env ω τ) (maxConns : ℕ) (listenFd signalFd : ℤ) (world : ω) :
    BufferInv env (Machine.start maxConns listenFd signalFd world : Machine ω τ) := by
  refine ⟨.idle (by simp [Machine.start]) rfl,
    ⟨by simp [Machine.start], by simp [Machine.start], by simp [Machine.start]⟩, le_rfl,
    ⟨Numbered.start ..,
      fun k hk => absurd hk (Nat.not_lt_zero k), ?_⟩, by simp [Machine.start]⟩
  rintro k ⟨p, hp, _⟩
  exact absurd hp (Nat.not_lt_zero p)

/-- **Buffers outlive their operations**, in every run in which a SIGTERM is
handled only without a connection, fewer than `2 ^ 32` connections are
accepted, a timeout that is not cancelled completes behind its receive, which has
brought nothing, connections are closed by force only when they are closing
already, and a TLS handshake that fails leaves nothing to send. -/
theorem buffers_outlive_operations (env : Env ω τ) (maxConns : ℕ) (listenFd signalFd : ℤ) (world : ω)
    {m : Machine ω τ}
    (h : Reaches (Machine.next env) (BufferStep env)
      (Machine.start maxConns listenFd signalFd world) m) :
    m.BuffersLive := by
  have inv := h.invariant (BufferInv env) (BufferInv.start env maxConns listenFd signalFd world)
    fun _ _ _ hi hok hn => hi.next hok hn
  intro k hk
  obtain ⟨op, hop⟩ := exists_mem_of_ne_nil _ hk
  obtain ⟨hsub, hd⟩ := mem_filter.mp hop
  have hdata : op.isData k = true := (of_decide_eq_true hd).1
  have hmem : op ∈ m.srv.ring.data k := mem_filter.mpr ⟨mem_append_right _ hsub, hdata⟩
  obtain ⟨hops, rfl, hcode⟩ := mem_own.mp (mem_data.mp hmem).1
  have hlt := (inv.guarded.ops op (mem_connOps.mpr ⟨hops, hcode⟩)).1
  rcases lane_cases inv.guarded.distinct op.serial with ⟨c, hc, hl, hs, _⟩ | ⟨_, he⟩
  · exact ⟨c, hc, hl, hs⟩
  · -- a connection that has been freed has nothing in the ring
    have hnil : m.srv.ring.data op.serial = [] :=
      (inv.guarded.guarded _ hlt).ended (.inl (by rw [he]; exact not_not.mpr rfl))
    rw [hnil] at hmem
    cases hmem

instance (env : Env ω τ) (m : Machine ω τ) (ev : Event) : Decidable (BufferStep env m ev) :=
  decidable_of_iff' _ (bufferStep_iff env m ev)

/-- The first receive times out, and the connection is freed. -/
theorem buffers_outlive_timeout :
    ∃ m : Machine Unit Unit,
      Reaches (Machine.next plainEnv) (BufferStep plainEnv) (Machine.start 4 3 9 ()) m ∧
        (m.srv.pool.serial = 1 ∧ m.srv.pool.activeCount = 0) ∧ m.BuffersLive := by
  obtain ⟨m, hm, hp⟩ := exists_reaches (Machine.next plainEnv) (BufferStep plainEnv)
    (Machine.start 4 3 9 ())
    (connectEvents ++
      [.call .waitFails, .post ⟨firstRecv, -ECANCELED, [], false, 0⟩,
        .post ⟨firstTimeout, -ETIME, [], false, 0⟩, .call .ready, .step, .step, .step, .call .waitFails,
        .post ⟨⟨.close, 1, 4, 0, 0, 0, false⟩, 0, [], false, 0⟩, .call .ready, .step, .step])
    (fun m => m.srv.pool.serial = 1 ∧ m.srv.pool.activeCount = 0) (by decide +kernel)
  exact ⟨m, hm, hp, buffers_outlive_operations plainEnv 4 3 9 () hm⟩

/-- A client is connected when the application shuts the server down at once:
its connection is freed, and the kernel has its receive. -/
theorem buffers_freed_early :
    ¬∀ (env : Env Unit Unit) (maxConns : ℕ) (listenFd signalFd : ℤ) (m : Machine Unit Unit),
      Reaches (Machine.next env) (fun _ _ => True) (Machine.start maxConns listenFd signalFd ()) m →
        m.BuffersLive := by
  intro h
  obtain ⟨m, hm, hout, hfree⟩ := exists_reaches (Machine.next plainEnv) (fun _ _ => True)
    (Machine.start 4 3 9 ()) (connectEvents ++ [.call .waitFails, .shutdown .immediate])
    (fun m => m.outstanding 0 ≠ [] ∧ ∀ c ∈ m.srv.pool.conns, c.state = .free) (by decide +kernel)
  obtain ⟨c, hc, hl, _⟩ := h plainEnv 4 3 9 m hm 0 hout
  exact hl (hfree c hc)

end Iohttp
