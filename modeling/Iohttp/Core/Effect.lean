/-
# What the work on a completion can do

Every function of `Core/Server.lean` that works on a connection adds operations
and acts of that connection and nothing else. It either keeps the connection
(`Keeps`) or closes its descriptor once (`Shuts`), by an operation or, if the
ring has no entry left, at once.
-/
import Iohttp.Core.Stages

namespace Iohttp

open List

variable {ω τ : Type} {w w' w₁ w₂ : Work ω τ} {c : Conn τ} {env : Env ω τ}

/-- How often the descriptor of connection `k` was closed. -/
def closesOf (k : ℕ) (trace : List Act) : ℕ := trace.countP (Act.closes k)

@[simp]
theorem closesOf_append (k : ℕ) (t u : List Act) : closesOf k (t ++ u) = closesOf k t + closesOf k u :=
  countP_append

theorem closesOf_eq_zero {k : ℕ} {t : List Act} (h : ∀ a ∈ t, a.serial ≠ k) : closesOf k t = 0 := by
  unfold closesOf
  rw [countP_eq_zero]
  intro a ha hc
  cases a with
  | closed j fd => exact h _ ha (by simpa [Act.closes, Act.serial] using hc)
  | received | fed | parsed | dispatched => cases hc

theorem mem_ops_prep {op o : Op} : o ∈ (w.prep op).ring.ops ↔ o ∈ w.ring.ops ∨ o = op := by
  simp only [Work.prep, Ring.prepare, Ring.ops, mem_append, mem_singleton]
  tauto

/-! ### Growth -/

/-- The work has only added operations and acts of its own connection. -/
structure Grows (w w' : Work ω τ) : Prop where
  asked : w.ring.asked ≤ w'.ring.asked
  submitted : w'.ring.submitted = w.ring.submitted
  prepared : ∃ ops, w'.ring.prepared = w.ring.prepared ++ ops ∧
    ∀ op ∈ ops, op.Of w.conn
  trace : ∃ acts, w'.trace = w.trace ++ acts ∧ ∀ a ∈ acts, a.serial = w.conn.serial

/-- The connection stays, and its descriptor is not closed. -/
structure Keeps (w w' : Work ω τ) : Prop extends Grows w w' where
  id : w'.conn.id = w.conn.id
  serial : w'.conn.serial = w.conn.serial
  active : w'.active = w.active
  state : w'.conn.state = w.conn.state ∨ w'.conn.state ∈ [.proxyHeader, .tlsHandshake, .httpActive]
  closes : ∀ k, closesOf k w'.trace = closesOf k w.trace
  opened : ∀ op ∈ w'.ring.prepared, op.code = .close → op ∈ w.ring.prepared

/-- The descriptor is closed: the connection is freed, or it is in state
`closing` and the close is in the ring. -/
structure Shuts (w w' : Work ω τ) : Prop extends Grows w w' where
  conn : (w'.conn = freeConn ∧ w'.active = w.active - 1) ∨
    (w'.conn.id = w.conn.id ∧ w'.conn.serial = w.conn.serial ∧ w'.active = w.active ∧
      (w.conn.Live → w'.conn.Live) ∧ (w.conn.Live → w.conn.state ≠ .quic → w'.conn.state = .closing) ∧
      ∃ op ∈ w'.ring.prepared, op.code = .close ∧ op.Of w.conn)
  closes : ∀ k, closesOf k w'.trace = closesOf k w.trace + if k = w.conn.serial then 1 else 0

theorem Grows.refl (w : Work ω τ) : Grows w w :=
  ⟨le_rfl, rfl, ⟨[], by simp, by simp⟩, ⟨[], by simp, by simp⟩⟩

theorem Grows.trans (h : Grows w w₁) (hid : w₁.conn.id = w.conn.id)
    (hs : w₁.conn.serial = w.conn.serial) (h' : Grows w₁ w₂) : Grows w w₂ := by
  obtain ⟨ops, hops, hop⟩ := h.prepared
  obtain ⟨ops', hops', hop'⟩ := h'.prepared
  obtain ⟨acts, hacts, hact⟩ := h.trace
  obtain ⟨acts', hacts', hact'⟩ := h'.trace
  refine ⟨h.asked.trans h'.asked, h'.submitted.trans h.submitted, ⟨ops ++ ops', ?_, ?_⟩,
    ⟨acts ++ acts', ?_, ?_⟩⟩
  · rw [hops', hops, append_assoc]
  · intro op hmem
    rcases mem_append.mp hmem with hm | hm
    · exact hop op hm
    · exact ⟨(hop' op hm).1.trans hid, (hop' op hm).2.trans hs⟩
  · rw [hacts', hacts, append_assoc]
  · intro a hmem
    rcases mem_append.mp hmem with hm | hm
    · exact hact a hm
    · rw [← hs]
      exact hact' a hm

theorem Keeps.refl (w : Work ω τ) : Keeps w w :=
  { Grows.refl w with
    id := rfl, serial := rfl, active := rfl, state := .inl rfl, closes := fun _ => rfl
    opened := fun _ hop _ => hop }

theorem Keeps.trans (h : Keeps w w₁) (h' : Keeps w₁ w₂) : Keeps w w₂ :=
  { h.toGrows.trans h.id h.serial h'.toGrows with
    id := h'.id.trans h.id
    serial := h'.serial.trans h.serial
    active := h'.active.trans h.active
    state := by
      rcases h'.state with hs | hs
      · rw [hs]
        exact h.state
      · exact .inr hs
    closes := fun k => (h'.closes k).trans (h.closes k)
    opened := fun op hop hc => h.opened op (h'.opened op hop hc) hc }

theorem Keeps.live (h : Keeps w w') (hl : w.conn.Live) : w'.conn.Live := by
  unfold Conn.Live at hl ⊢
  rcases h.state with hs | hs
  · rw [hs]
    exact hl
  · intro hf
    simp [hf] at hs

theorem Keeps.state_ne (h : Keeps w w') {st : ConnState} (hs : w.conn.state ≠ st)
    (hst : st = .closing ∨ st = .quic) : w'.conn.state ≠ st := by
  rcases h.state with he | he
  · rw [he]
    exact hs
  · intro hf
    rcases hst with rfl | rfl <;> simp [hf] at he

theorem Keeps.shuts (h : Keeps w w₁) (h' : Shuts w₁ w₂) : Shuts w w₂ :=
  { h.toGrows.trans h.id h.serial h'.toGrows with
    conn := by
      rcases h'.conn with ⟨hf, ha⟩ | ⟨hid, hs, ha, hl, hc, op, hop⟩
      · exact .inl ⟨hf, by rw [ha, h.active]⟩
      · exact .inr ⟨hid.trans h.id, hs.trans h.serial, ha.trans h.active, fun hw => hl (h.live hw),
          fun hw hq => hc (h.live hw) (h.state_ne hq (.inr rfl)), op, hop.1, hop.2.1,
          hop.2.2.1.trans h.id, hop.2.2.2.trans h.serial⟩
    closes := fun k => by rw [h'.closes, h.closes, h.serial] }

theorem keeps_setConn (w : Work ω τ) (hid : c.id = w.conn.id) (hs : c.serial = w.conn.serial)
    (hst : c.state = w.conn.state ∨ c.state ∈ [ConnState.proxyHeader, .tlsHandshake, .httpActive]) :
    Keeps w (w.setConn c) :=
  { Keeps.refl w with id := hid, serial := hs, state := hst }

theorem keeps_note (w : Work ω τ) {a : Act} (ha : a.serial = w.conn.serial)
    (hc : ∀ k, a.closes k = false) : Keeps w (w.note a) :=
  { Keeps.refl w with
    trace := ⟨[a], rfl, by simp [ha]⟩
    closes := fun k => by simp [Work.note, closesOf, hc] }

theorem keeps_ask (w : Work ω τ) : Keeps w w.ask := { Keeps.refl w with asked := Nat.le_succ _ }

theorem keeps_prep (w : Work ω τ) (op : Op) (h : op.Of w.conn) (hc : op.code ≠ .close) :
    Keeps w (w.prep op) :=
  { Keeps.refl w with
    prepared := ⟨[op], rfl, by simp [h]⟩
    opened := fun o ho hclose => (mem_append.mp ho).resolve_right fun he =>
      hc (mem_singleton.mp he ▸ hclose) }

theorem keeps_tick (w : Work ω τ) (world : ω) : Keeps w (w.tick world) := { Keeps.refl w with }

/-! ### Arming -/

theorem keeps_armRecv (env : Env ω τ) (w : Work ω τ) : Keeps w (armRecv env w).1 := by
  have h₁ := keeps_ask w
  have h₂ := h₁.trans (keeps_ask w.ask)
  unfold armRecv
  simp only
  split_ifs
  · have h₃ := h₂.trans (keeps_prep _ (w.recvOp true) ⟨rfl, rfl⟩ nofun)
    exact h₃.trans (keeps_prep _ _ ⟨rfl, rfl⟩ nofun)
  · exact h₂.trans (keeps_prep _ _ ⟨rfl, rfl⟩ nofun)
  · exact h₁.trans (keeps_prep _ _ ⟨rfl, rfl⟩ nofun)
  · exact h₁

theorem keeps_encrypt (env : Env ω τ) (w : Work ω τ) (data : Bytes) :
    Keeps w (encrypt env w data).1 := by
  unfold encrypt
  split
  · simp only
    split_ifs
    · exact keeps_setConn w rfl rfl (.inl rfl)
    · exact keeps_setConn w rfl rfl (.inl rfl)
    · exact keeps_setConn w rfl rfl (.inl rfl)
    · exact Keeps.refl w
  · exact Keeps.refl w

theorem keeps_startSend (w : Work ω τ) (data : Bytes) : Keeps w (startSend env w data).1 := by
  unfold startSend
  split_ifs
  · refine Keeps.trans (Keeps.trans ?_ (keeps_ask _)) (keeps_prep _ _ ⟨rfl, rfl⟩ nofun)
    exact keeps_setConn w rfl rfl (.inl rfl)
  · refine Keeps.trans ?_ (keeps_ask _)
    exact keeps_setConn w rfl rfl (.inl rfl)

theorem keeps_armSend (env : Env ω τ) (w : Work ω τ) (data : Bytes) :
    Keeps w (armSend env w data).1 := by
  have he := keeps_encrypt env w data
  unfold armSend
  split_ifs
  · exact Keeps.refl w
  · rcases henc : encrypt env w data with ⟨w₁, e | out⟩
    · rw [henc] at he
      exact he
    · rw [henc] at he
      exact he.trans (keeps_startSend w₁ out)

theorem startSend_ret (w : Work ω τ) (data : Bytes) :
    (startSend env w data).2 = if env.sqe w.ring.asked then 0 else -ENOSPC := by
  unfold startSend
  split_ifs <;> rfl

theorem startSend_active (w : Work ω τ) (data : Bytes) :
    (startSend env w data).1.conn.sendActive = env.sqe w.ring.asked := by
  unfold startSend
  split_ifs with h
  · exact h.symm
  · exact (Bool.eq_false_iff.mpr h).symm

theorem encrypt_error {data : Bytes} {e : ℤ} (h : (encrypt env w data).2 = .error e) : e < 0 := by
  unfold encrypt at h
  split at h
  · simp only at h
    split_ifs at h with _ hneg
    cases h
    exact hneg
  · cases h

theorem armSend_active {data : Bytes} (h : 0 ≤ (armSend env w data).2) :
    (armSend env w data).1.conn.sendActive = true := by
  unfold armSend at h ⊢
  by_cases ha : w.conn.sendActive = true
  · rw [if_pos ha]
    exact ha
  · rw [if_neg ha] at h ⊢
    rcases he : encrypt env w data with ⟨w₁, e | out⟩
    · rw [he] at h
      exact absurd (encrypt_error (congrArg Prod.snd he)) (not_lt.mpr h)
    · rw [he] at h
      simp only [startSend_ret] at h
      simp only [startSend_active]
      by_contra hs
      rw [if_neg hs] at h
      exact absurd h (by decide)

@[simp]
theorem connTransition_id (c : Conn τ) (st : ConnState) : (connTransition c st).1.id = c.id := by
  unfold connTransition
  split_ifs <;> rfl

@[simp]
theorem connTransition_serial (c : Conn τ) (st : ConnState) :
    (connTransition c st).1.serial = c.serial := by
  unfold connTransition
  split_ifs <;> rfl

theorem connTransition_state (c : Conn τ) (st : ConnState) :
    (connTransition c st).1.state = if st ∈ validTransitions c.state then st else c.state := by
  unfold connTransition
  split_ifs <;> rfl

theorem closing_of_live (hl : c.Live) (hq : c.state ≠ .quic) :
    (connTransition c .closing).1.state = .closing := by
  rw [connTransition_state]
  unfold Conn.Live at hl
  cases hs : c.state <;> simp_all [validTransitions]

theorem closesOf_closed (k : ℕ) (trace : List Act) (serial : ℕ) (fd : ℤ) :
    closesOf k (trace ++ [.closed serial fd]) = closesOf k trace + if k = serial then 1 else 0 := by
  simp [closesOf, Act.closes, countP_cons, eq_comm]

theorem shuts_armClose (w : Work ω τ) : Shuts w (armClose env w) := by
  unfold armClose
  split_ifs
  · refine { asked := Nat.le_succ _, submitted := rfl
             prepared := ⟨[w.opFor .close 0 0 false], rfl, by simp [Work.opFor, Op.Of]⟩
             trace := ⟨[.closed w.conn.serial w.conn.fd], rfl, by simp [Act.serial]⟩, conn := .inr ?_
             closes := fun k => closesOf_closed k .. }
    refine ⟨connTransition_id .., connTransition_serial .., rfl, ?_, fun hl hq => closing_of_live hl hq,
      w.opFor .close 0 0 false, mem_append_right _ (mem_singleton_self _), rfl, rfl, rfl⟩
    intro hl hf
    change (connTransition { w.conn with tls := none } .closing).1.state = .free at hf
    rw [connTransition_state] at hf
    split_ifs at hf
    exact hl hf
  · exact { asked := Nat.le_succ _, submitted := rfl, prepared := ⟨[], (append_nil _).symm, by simp⟩
            trace := ⟨[.closed w.conn.serial w.conn.fd], rfl, by simp [Act.serial]⟩
            conn := .inl ⟨rfl, rfl⟩, closes := fun k => closesOf_closed k .. }

/-! ### A completion -/

def Effect (w w' : Work ω τ) : Prop := Keeps w w' ∨ Shuts w w'

theorem Effect.compact (h : Effect w w₁) {total : ℕ}
    (hc : compact w₁ total = some w₂) : Effect w w₂ := by
  unfold Iohttp.compact at hc
  split_ifs at hc with hlt
  cases hc
  rcases h with h | h
  · exact .inl (h.trans (keeps_setConn w₁ rfl rfl (.inl rfl)))
  · refine .inr { h with conn := ?_ }
    rcases h.conn with ⟨hf, ha⟩ | hr
    · -- a connection that has been freed has no bytes to be moved
      left
      rw [hf] at hlt ⊢
      obtain rfl : total = 0 := Nat.le_zero.mp (not_lt.mp hlt)
      exact ⟨rfl, ha⟩
    · exact .inr hr

theorem keeps_advances (w : Work ω τ) (h : Advances w.conn c) : Keeps w (w.setConn c) :=
  keeps_setConn w h.id h.serial (h.state.imp id And.right)

theorem keeps_rule (env : Env ω τ) (w : Work ω τ) :
    RingRule env (fun _ => True) (Keeps w) (Keeps w) (Effect w) where
  conn h ha := h.trans (keeps_advances _ ha)
  note h hs hc := h.trans (keeps_note _ hs hc)
  tick h := h.trans (keeps_tick _ _)
  recv h := h.trans (keeps_armRecv env _)
  send {v} data h := by
    have hk := h.trans (keeps_armSend env v data)
    rcases lt_or_ge (armSend env v data).2 0 with hret | hret
    · exact .inr ⟨hret, hk⟩
    · exact .inl ⟨hret, hk, armSend_active hret⟩
  sending h _ := h
  kept h ha := h.trans (keeps_advances _ ha)
  armed := .inl
  close h := .inr (h.shuts (shuts_armClose _))
  fail _ _ h := .inr (h.shuts (shuts_armClose _))
  compacted h hc := h.compact hc

theorem effect_recvOutcome (env : Env ω τ) (w : Work ω τ) (cqe : Cqe) :
    OutcomeStaged (Keeps w) (Effect w) (recvOutcome env w cqe) :=
  (keeps_rule env w).stages.recvOutcome (Keeps.refl w) cqe fun _ _ _ _ _ _ => trivial

theorem effect_onSend (w : Work ω τ) (cqe : Cqe) : Effect w (onSend env w cqe) := by
  refine (keeps_rule env w).stages.onSend (fun {v} h _ => ?_) (keeps_setConn w rfl rfl (.inl rfl)) cqe
  unfold resend
  split_ifs
  · refine .inl (h.trans (Keeps.trans (Keeps.trans ?_ (keeps_ask _)) (keeps_prep _ _ ⟨rfl, rfl⟩ nofun)))
    exact keeps_setConn v rfl rfl (.inl rfl)
  · exact .inr ((h.trans (keeps_ask v)).shuts (shuts_armClose _))

/-- **A completion keeps the connection, closes its descriptor once, or is that
of the close and frees it.** -/
theorem completeConn_effect {cqe : Cqe} (h : completeConn env w cqe = some w') :
    Effect w w' ∨ (cqe.op.code = .close ∧ w' = connFree w) := by
  unfold completeConn at h
  split at h
  · exact .inl ((keeps_rule env w).onRecv .inl (Keeps.refl w) (fun _ _ _ _ _ _ => trivial) h)
  · cases h
    exact .inl (effect_onSend w cqe)
  · next hc =>
    cases h
    exact .inr ⟨hc, rfl⟩
  · cases h
    unfold onTimeout
    split_ifs
    · exact .inl (.inl (Keeps.refl w))
    · exact .inl (.inr (shuts_armClose w))
  · cases h
    exact .inl (.inl (Keeps.refl w))

/-- A connection is accepted: its first receive is armed, or its descriptor is
closed at once. -/
theorem effect_accepted (env : Env ω τ) (w : Work ω τ) (fd : ℤ) : Effect w (accepted env w fd) := by
  have ha := (keeps_advances w (advances_firstState env w.conn fd)).trans (keeps_armRecv env _)
  unfold accepted
  simp only
  split_ifs
  · refine .inr (ha.shuts ?_)
    exact { asked := le_rfl, submitted := rfl, prepared := ⟨[], (append_nil _).symm, by simp⟩
            trace := ⟨[_], rfl, by simp [Act.serial]⟩, conn := .inl ⟨rfl, rfl⟩
            closes := fun k => closesOf_closed k .. }
  · exact .inl ha

/-- Work on a connection in use: it adds operations and acts of the connection,
which stays or is freed. -/
structure Worked (w w' : Work ω τ) : Prop extends Grows w w' where
  conn : w'.conn = freeConn ∨
    (w'.conn.Live ∧ w'.conn.id = w.conn.id ∧ w'.conn.serial = w.conn.serial)

theorem Effect.worked (h : Effect w w') (hl : w.conn.Live) : Worked w w' := by
  rcases h with h | h
  · exact { h.toGrows with conn := .inr ⟨h.live hl, h.id, h.serial⟩ }
  · refine { h.toGrows with conn := ?_ }
    rcases h.conn with ⟨hf, _⟩ | ⟨hid, hs, _, hl', _⟩
    · exact .inl hf
    · exact .inr ⟨hl' hl, hid, hs⟩

theorem Worked.of_live (h : Worked w w') (hl : w'.conn.Live) :
    w'.conn.id = w.conn.id ∧ w'.conn.serial = w.conn.serial := by
  rcases h.conn with hf | ⟨_, hc⟩
  · rw [hf] at hl
    exact absurd rfl hl
  · exact hc

theorem completeConn_worked {cqe : Cqe} (hl : w.conn.Live)
    (h : completeConn env w cqe = some w') : Worked w w' := by
  rcases completeConn_effect h with he | ⟨_, rfl⟩
  · exact he.worked hl
  · exact { asked := le_rfl, submitted := rfl, prepared := (Grows.refl w).prepared
            trace := (Grows.refl w).trace, conn := .inl rfl }

end Iohttp
