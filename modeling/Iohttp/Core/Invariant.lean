/-
# Invariants of the server

The loop changes the server in few ways. It handles a completion of a
connection, whose id is in use or not; it accepts a connection; it tells the
connections to drain; it closes them all by force; and everything else leaves
the pool, what has happened and the operations of connections alone
(`Quiet`). An invariant that each of these keeps holds in every state that the
loop reaches, also inside of a drain and whatever is handled twice.
-/
import Iohttp.Core.Effect
import Iohttp.Core.Loop

namespace Iohttp

open Runs List

variable {ω τ : Type} {op : Op} {s s' : Srv ω τ} {cqe : Cqe} {m m' : Machine ω τ}

/-- The operations that keep a connection going. -/
def OpCode.IsData : OpCode → Prop
  | .recv | .send | .close => True
  | _ => False

/-- The operations of connections. -/
def OpCode.ofConn : OpCode → Bool
  | .recv | .send | .close | .timeout => true
  | _ => false

theorem OpCode.IsData.ofConn {c : OpCode} (h : c.IsData) : c.ofConn = true := by
  cases c <;> first | rfl | exact h.elim

/-- The operations of connections in the ring. -/
def Ring.connOps (r : Ring) : List Op := r.ops.filter fun op => op.code.ofConn

theorem mem_connOps {r : Ring} : op ∈ r.connOps ↔ op ∈ r.ops ∧ op.code.ofConn = true := by
  simp [Ring.connOps]

/-- The pool and what has happened are as before, and so are the operations of
connections in the ring. -/
structure Quiet (s s' : Srv ω τ) : Prop where
  pool : s'.pool = s.pool
  trace : s'.trace = s.trace
  asked : s.ring.asked ≤ s'.ring.asked
  ops : s'.ring.connOps.Perm s.ring.connOps
  submitted : ∀ op, op.code.ofConn = true → op ∈ s.ring.submitted → op ∈ s'.ring.submitted

theorem Quiet.trans {s₁ s₂ : Srv ω τ} (h : Quiet s s₁) (h' : Quiet s₁ s₂) : Quiet s s₂ :=
  ⟨h'.pool.trans h.pool, h'.trace.trans h.trace, h.asked.trans h'.asked, h'.ops.trans h.ops,
    fun op hc hm => h'.submitted op hc (h.submitted op hc hm)⟩

theorem quiet_of_ring (hp : s'.pool = s.pool) (ht : s'.trace = s.trace)
    (hr : s'.ring = s.ring) : Quiet s s' :=
  ⟨hp, ht, by rw [hr], by rw [hr], fun _ _ h => by rwa [hr]⟩

theorem Quiet.refl (s : Srv ω τ) : Quiet s s := quiet_of_ring rfl rfl rfl

theorem Quiet.mem_ops (h : Quiet s s') (hd : op.code.IsData) (hm : op ∈ s.ring.ops) : op ∈ s'.ring.ops :=
  (mem_connOps.mp (h.ops.mem_iff.mpr (mem_connOps.mpr ⟨hm, hd.ofConn⟩))).1

/-- The completion has been taken from the ring. -/
def Srv.retire (s : Srv ω τ) (cqe : Cqe) : Srv ω τ := { s with ring := s.ring.retire cqe }

theorem mem_retire {r : Ring} (h : op ∈ r.ops) (hne : op ≠ cqe.op) : op ∈ (r.retire cqe).ops := by
  unfold Ring.retire
  split_ifs
  · exact h
  · rcases mem_append.mp h with h | h
    · exact mem_append_left _ ((mem_erase_of_ne hne).mpr h)
    · exact mem_append_right _ ((mem_erase_of_ne hne).mpr h)

@[simp]
theorem retire_asked (r : Ring) (cqe : Cqe) : (r.retire cqe).asked = r.asked := by
  unfold Ring.retire
  split_ifs <;> rfl

theorem mem_submitted_retire {r : Ring} (h : op ∈ r.submitted) (hne : op ≠ cqe.op) :
    op ∈ (r.retire cqe).submitted := by
  unfold Ring.retire
  split_ifs
  · exact h
  · exact (mem_erase_of_ne hne).mpr h

theorem filter_erase_of_not {p : Op → Bool} (h : p op = false) (l : List Op) :
    (l.erase op).filter p = l.filter p := by
  rw [← erase_filter, erase_of_not_mem]
  simp [h]

theorem quiet_retire (s : Srv ω τ) (hc : cqe.op.code.ofConn = false) : Quiet s (s.retire cqe) := by
  refine ⟨rfl, rfl, (retire_asked ..).ge, ?_, fun op ho hm => mem_submitted_retire hm ?_⟩
  · unfold Srv.retire Ring.retire
    split_ifs
    · exact .refl _
    · simp only [Ring.connOps, Ring.ops, filter_append]
      rw [filter_erase_of_not hc, filter_erase_of_not hc]
  · rintro rfl
    rw [ho] at hc
    cases hc

theorem quiet_prepare (hp : s'.pool = s.pool) (ht : s'.trace = s.trace) {o : Op}
    (hr : s'.ring = s.ring.ask.prepare o) (hc : o.code.ofConn = false) : Quiet s s' := by
  refine ⟨hp, ht, ?_, ?_, fun _ _ h => by rwa [hr]⟩
  · rw [hr]
    exact Nat.le_succ _
  · rw [hr]
    simp [Ring.connOps, Ring.ops, Ring.prepare, Ring.ask, filter_append, hc]

theorem quiet_ask (hp : s'.pool = s.pool) (ht : s'.trace = s.trace)
    (hr : s'.ring = s.ring.ask) : Quiet s s' := by
  refine ⟨hp, ht, ?_, ?_, fun _ _ h => by rwa [hr]⟩
  · rw [hr]
    exact Nat.le_succ _
  · rw [hr]
    exact .refl _

theorem quiet_rearmSignal (env : Env ω τ) (s : Srv ω τ) : Quiet s (rearmSignal env s) := by
  unfold rearmSignal
  split_ifs
  · exact quiet_prepare rfl rfl rfl rfl
  · exact quiet_ask rfl rfl rfl
  · exact Quiet.refl s

theorem quiet_armMultishotAccept (env : Env ω τ) (s : Srv ω τ) : Quiet s (armMultishotAccept env s) := by
  unfold armMultishotAccept
  split_ifs
  · exact quiet_prepare rfl rfl rfl rfl
  · exact quiet_ask rfl rfl rfl

theorem quiet_stopAccepting (env : Env ω τ) (s : Srv ω τ) : Quiet s (stopAccepting env s) := by
  by_cases ha : s.accepting = true
  · by_cases hs : env.sqe s.ring.asked = true
    · refine quiet_prepare (o := ⟨.cancel, 0, s.ring.asked, 0, 0, 0, false⟩) rfl rfl ?_ rfl
      simp [stopAccepting, ha, hs]
    · exact quiet_ask rfl rfl (by simp [stopAccepting, ha, hs])
  · exact quiet_of_ring rfl rfl (by simp [stopAccepting, ha])

theorem quiet_submit (s : Srv ω τ) : Quiet s s.submit := by
  refine ⟨rfl, rfl, le_rfl, ?_, fun _ _ h => mem_append_left _ h⟩
  simp only [Srv.submit, Ring.connOps, Ring.ops, nil_append]
  exact perm_append_comm.filter _

/-! ### The rule -/

/-- The connections are told to drain. -/
def Srv.drainAll (s : Srv ω τ) : Srv ω τ := { s with pool.conns := s.pool.conns.map drainConn }

theorem drainConn_live {c : Conn τ} (h : (drainConn c).Live) :
    c.Live ∧ (drainConn c).serial = c.serial := by
  unfold drainConn at h ⊢
  split_ifs at h ⊢ with hs
  · refine ⟨?_, connTransition_serial ..⟩
    unfold Conn.Live
    simp [hs]
  · exact ⟨h, rfl⟩

theorem drainConn_state (c : Conn τ) :
    (drainConn c).state = c.state ∨ (c.state = .httpActive ∧ (drainConn c).state = .draining) := by
  unfold drainConn
  split_ifs with hs
  · right
    simp [connTransition, hs, validTransitions]
  · exact .inl rfl

/-- The pool counts one more connection. -/
def Srv.count (s : Srv ω τ) : Srv ω τ :=
  { s with
    pool.activeCount := s.pool.activeCount + 1
    pool.nextId := (s.pool.nextId + 1) % 2 ^ 32
    pool.serial := s.pool.serial + 1 }

/-- The connection that `ioh_conn_alloc` gives next. -/
def Srv.newConn (env : Env ω τ) (s : Srv ω τ) : Conn τ :=
  allocConn s.pool.nextId s.pool.serial (env.memory s.pool.serial)

theorem acceptFd_cases (env : Env ω τ) (s : Srv ω τ) (fd : ℤ) :
    acceptFd env s fd = s ∨ ∃ i c, s.pool.conns[i]? = some c ∧ ¬c.Live ∧
      acceptFd env s fd = s.count.restore i (accepted env (s.count.focus (s.newConn env)) fd) := by
  unfold acceptFd
  split
  · next pool i ha =>
    obtain ⟨⟨c, hc, hfree⟩, rfl⟩ := connAlloc_some ha
    refine .inr ⟨i, c, hc, hfree, ?_⟩
    -- the slot is set twice, by the allocation and by the work
    simp only [Srv.restore, set_set]
    rfl
  · exact .inl rfl

/-- An invariant that a round of the loop keeps. `okConn` and `okAccept` are
asked of the completion that is handled. -/
structure HandleRule (env : Env ω τ) (inv : Srv ω τ → Prop) (okConn okAccept : Srv ω τ → Cqe → Prop) :
    Prop where
  quiet : ∀ s s', Quiet s s' → inv s → inv s'
  /-- The completion is that of a connection in slot `i`. -/
  conn : ∀ s cqe i c w', inv s → okConn s cqe → findConnById s.pool cqe.op.id = some i →
    s.pool.conns[i]? = some c → completeConn env ((s.retire cqe).focus c) cqe = some w' →
    inv ((s.retire cqe).restore i w')
  /-- Its id is not in use any more. -/
  lost : ∀ s cqe, inv s → okConn s cqe → findConnById s.pool cqe.op.id = none → inv (s.retire cqe)
  accept : ∀ s cqe, inv s → okAccept s cqe → inv (acceptFd env s cqe.res)

/-- An invariant of the server. `okForce` is asked when the connections are
closed by force. -/
structure SrvRule (env : Env ω τ) (inv : Srv ω τ → Prop) (okConn okAccept : Srv ω τ → Cqe → Prop)
    (okForce : Srv ω τ → Prop) : Prop extends HandleRule env inv okConn okAccept where
  drain : ∀ s, inv s → inv s.drainAll
  force : ∀ s, inv s → okForce s → inv (forceClose s)

variable {env : Env ω τ} {inv : Srv ω τ → Prop} {okConn okAccept : Srv ω τ → Cqe → Prop}
  {okForce : Srv ω τ → Prop}

theorem HandleRule.onAccept (R : HandleRule env inv okConn okAccept)
    (hi : inv s) (ha : 0 ≤ cqe.res → okAccept s cqe) : inv (onAccept env s cqe) := by
  have h₁ : inv (if 0 ≤ cqe.res then acceptFd env s cqe.res else s) := by
    split_ifs with hr
    · exact R.accept s cqe hi (ha hr)
    · exact hi
  unfold Iohttp.onAccept
  simp only
  generalize (if 0 ≤ cqe.res then acceptFd env s cqe.res else s) = s₁ at h₁
  have hq : Quiet s₁ { s₁ with accepting := false } := quiet_of_ring rfl rfl rfl
  split_ifs
  · exact h₁
  · exact R.quiet _ _ (hq.trans (quiet_armMultishotAccept env _)) h₁
  · exact R.quiet _ _ hq h₁

/-- The condition on the completion that is handled, by its operation. -/
def okCqe (okConn okAccept : Srv ω τ → Cqe → Prop) (s : Srv ω τ) (cqe : Cqe) : Prop :=
  match cqe.op.code with
  | .accept => 0 ≤ cqe.res → okAccept (s.retire cqe) cqe
  | .signal | .cancel => True
  | _ => okConn s cqe

theorem HandleRule.handle (R : HandleRule env inv okConn okAccept)
    (hi : inv s) (hok : okCqe okConn okAccept s cqe) (h : handle env s cqe = some s') : inv s' := by
  have conn : okConn s cqe → Iohttp.onConn env (s.retire cqe) cqe = some s' → inv s' := by
    intro hok h
    unfold Iohttp.onConn at h
    split at h
    · next hf =>
      cases h
      exact R.lost s cqe hi hok hf
    · next i hf =>
      rw [Option.bind_eq_some_iff] at h
      obtain ⟨c, hc, h⟩ := h
      rw [Option.map_eq_some_iff] at h
      obtain ⟨w', hw, rfl⟩ := h
      exact R.conn s cqe i c w' hi hok hf hc hw
  unfold Iohttp.handle at h
  unfold okCqe at hok
  have quiet : cqe.op.code.ofConn = false → inv (s.retire cqe) := fun hc =>
    R.quiet _ _ (quiet_retire s hc) hi
  cases hc : cqe.op.code <;> simp only [hc] at h hok
  case accept =>
    cases h
    exact R.onAccept (quiet (by simp [hc, OpCode.ofConn])) hok
  case signal =>
    cases h
    exact quiet (by simp [hc, OpCode.ofConn])
  case cancel =>
    cases h
    exact quiet (by simp [hc, OpCode.ofConn])
  case recv => exact conn hok h
  case send => exact conn hok h
  case close => exact conn hok h
  case timeout => exact conn hok h

/-! ### The rule over the loop -/

def Machine.forces (m : Machine ω τ) : Event → Bool
  | .shutdown .immediate => true
  | .step =>
    match m.stack with
    | .drain _ :: _ => true
    | _ => m.current.any fun cqe => cqe.op.code = .signal ∧ 0 < cqe.res ∧ cqe.signo = SIGQUIT
  | _ => false

/-- The conditions of a rule, asked of an event of the loop. -/
def srvOk (okConn okAccept : Srv ω τ → Cqe → Prop) (okForce : Srv ω τ → Prop) (m : Machine ω τ)
    (ev : Event) : Prop :=
  (ev = .step → ∀ cqe ∈ m.current, okCqe okConn okAccept m.srv cqe) ∧
  (m.forces ev = true → okForce m.srv)

theorem quiet_ret (m : Machine ω τ) : Quiet m.srv m.ret.srv := by
  unfold Machine.ret
  split
  · exact quiet_of_ring rfl rfl rfl
  · exact Quiet.refl _

theorem advance_srv (m : Machine ω τ) : m.advance.srv = m.srv := by
  unfold Machine.advance
  split <;> rfl

theorem quiet_shutdownDone (m : Machine ω τ) : Quiet m.srv (m.shutdownDone env).srv := by
  unfold Machine.shutdownDone
  split
  · rw [advance_srv]
    exact quiet_rearmSignal env m.srv
  · exact Quiet.refl _

theorem quiet_enter {r : CallResult} (h : m.enter r = some m') : Quiet m.srv m'.srv := by
  cases r with
  | submitFails =>
    cases h
    exact quiet_ret m
  | waitFails =>
    simp only [Machine.enter] at h
    split_ifs at h
    cases h
    exact (quiet_submit m.srv).trans (quiet_ret { m with srv := m.srv.submit })
  | ready =>
    simp only [Machine.enter] at h
    split_ifs at h
    cases h
    exact quiet_submit m.srv

def Machine.drains (m : Machine ω τ) : Event → Bool
  | .shutdown .drain => true
  | .step => m.current.any fun cqe => cqe.op.code = .signal ∧ 0 < cqe.res ∧ cqe.signo = SIGTERM
  | _ => false

/-- What an event of the loop does to the server. -/
inductive SrvStep (env : Env ω τ) (m : Machine ω τ) (ev : Event) (m' : Machine ω τ) : Prop where
  | quiet : Quiet m.srv m'.srv → SrvStep env m ev m'
  | handle (cqe : Cqe) : ev = .step → m.current = some cqe → handle env m.srv cqe = some m'.srv →
      m'.handled.length = m.handled.length + 1 → SrvStep env m ev m'
  | drain {s : Srv ω τ} : m.drains ev = true → Quiet m.srv s → m'.srv = s.drainAll → SrvStep env m ev m'
  | force {s : Srv ω τ} : m.forces ev = true → Quiet m.srv s → Quiet (forceClose s) m'.srv →
      SrvStep env m ev m'

theorem srvStep_onSignal (hc : cqe.op.code = .signal)
    (hcur : m.current = some cqe) {pos n : ℕ} {fs : List Frame} (hstack : m.stack = .batch pos n :: fs)
    (handled : List ℕ) : SrvStep env m .step ({ m with handled := handled }.onSignal env cqe) := by
  have hr : Quiet m.srv (m.srv.retire cqe) := quiet_retire m.srv (by simp [hc, OpCode.ofConn])
  have hs := hr.trans (quiet_stopAccepting env (m.srv.retire cqe))
  unfold Machine.onSignal
  split_ifs with h₁ h₂
  · refine .force ?_ hs
      (quiet_shutdownDone { m with srv := shutdownImmediate env (m.srv.retire cqe), handled :=
        handled })
    simp [Machine.forces, hstack, hcur, hc, h₁]
  · exact .drain (by simp [Machine.drains, hcur, hc, h₂]) hs rfl
  · refine .quiet ?_
    rw [advance_srv]
    exact hr.trans (quiet_rearmSignal env _)

theorem advance_handled (m : Machine ω τ) : m.advance.handled = m.handled := by
  unfold Machine.advance
  split <;> rfl

theorem srvStep_step (h : m.step env = some m') : SrvStep env m .step m' := by
  unfold Machine.step at h
  rcases hs : m.stack with _ | ⟨⟨pos, n⟩ | ⟨e⟩, fs⟩
  · simp [hs] at h
  · simp only [hs] at h
    split_ifs at h
    · cases h
      exact .quiet (quiet_ret { m with head := m.head + n, stack := fs })
    · rw [Option.bind_eq_some_iff] at h
      obtain ⟨cqe, hc, h⟩ := h
      have hcur : m.current = some cqe := by
        simp only [Machine.current, hs]
        exact hc
      unfold Machine.handleAt at h
      split_ifs at h with hsig
      · cases h
        exact srvStep_onSignal hsig hcur hs _
      · rw [Option.map_eq_some_iff] at h
        obtain ⟨s, hh, rfl⟩ := h
        refine .handle cqe rfl hcur ?_ ?_
        · rw [advance_srv]
          exact hh
        · rw [advance_handled]
          exact length_append
  · simp only [hs] at h
    split_ifs at h
    cases h
    exact .force (by simp [Machine.forces, hs]) (Quiet.refl _)
      (quiet_shutdownDone { m with srv := forceClose m.srv, stack := fs })

/-- **What one event can do**, whatever it is. -/
theorem srvStep_next {ev : Event} (h : m.next env ev = some m') : SrvStep env m ev m' := by
  cases ev with
  | post cqe =>
    simp only [Machine.next] at h
    split_ifs at h
    cases h
    exact .quiet (Quiet.refl _)
  | call r =>
    simp only [Machine.next, Machine.call] at h
    split at h
    · split_ifs at h
      exact .quiet (quiet_enter h)
    · split_ifs at h
      have hw : Quiet m.srv { m.srv with stopped := false } := quiet_of_ring rfl rfl rfl
      exact .quiet (hw.trans (quiet_enter h))
    · cases h
  | shutdown mode =>
    have hs := quiet_stopAccepting env m.srv
    simp only [Machine.next] at h
    split_ifs at h
    cases mode with
    | immediate =>
      cases h
      exact .force rfl hs (Quiet.refl _)
    | drain =>
      cases h
      exact .drain rfl hs rfl
  | step => exact srvStep_step h

theorem SrvRule.step (R : SrvRule env inv okConn okAccept okForce)
    (hq : ∀ s s' : Srv ω τ, Quiet s s' → okForce s → okForce s') {ev : Event} (hi : inv m.srv)
    (hok : srvOk okConn okAccept okForce m ev) (h : SrvStep env m ev m') : inv m'.srv := by
  rcases h with hs | ⟨cqe, he, hc, hh, _⟩ | ⟨_, hs, he⟩ | ⟨hf, hs, hs'⟩
  · exact R.quiet _ _ hs hi
  · exact R.handle hi (hok.1 he cqe hc) hh
  · rw [he]
    exact R.drain _ (R.quiet _ _ hs hi)
  · exact R.quiet _ _ hs' (R.force _ (R.quiet _ _ hs hi) (hq _ _ hs (hok.2 hf)))

/-- **An invariant of the server holds over the loop**, in every run whose
steps meet its conditions. -/
theorem SrvRule.holds (R : SrvRule env inv okConn okAccept okForce)
    (hq : ∀ s s' : Srv ω τ, Quiet s s' → okForce s → okForce s') {m₀ : Machine ω τ}
    (start : inv m₀.srv)
    (h : Reaches (Machine.next env) (srvOk okConn okAccept okForce) m₀ m) : inv m.srv :=
  h.invariant (fun m => inv m.srv) start fun _ _ _ hi hok hn => R.step hq hi hok (srvStep_next hn)

end Iohttp
