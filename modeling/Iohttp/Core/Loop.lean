/-
# The loop

`ioh_server_run_once` and `ioh_server_shutdown` as a machine. The kernel posts
completions to the queue; a call of `ioh_server_run_once` walks from the
queue's head to its tail and advances the head by what it has processed, at
its end. A SIGTERM calls `ioh_server_shutdown` from inside of the walk, and
its drain calls `ioh_server_run_once` again, so the calls are a stack.

Inside of the drain the head is still where it was before the outer walk: the
completions of the outer walk are handled again, and the head is advanced for
them twice.

Key definitions: `Machine`, `Machine.next`.

Key theorem: `completions_handled_once`.
-/
import Iohttp.Core.Server
import Iohttp.Lib.Runs

namespace Iohttp

open Runs List

/-- A call that has not returned: `ioh_server_run_once` at position `pos` of
the queue, with `processed` completions behind it, or the drain of
`ioh_server_shutdown`. -/
inductive Frame where
  | batch (pos processed : ℕ)
  | drain (elapsed : ℕ)
  deriving DecidableEq, Repr

/-- The server, every completion posted so far, the head of the queue, the
positions that were handled, and the calls. -/
structure Machine (ω τ : Type) where
  srv : Srv ω τ
  posted : List Cqe
  head : ℕ
  handled : List ℕ
  stack : List Frame

/-- How `ioh_server_run_once` gets to its loop. -/
inductive CallResult where
  | submitFails
  | waitFails
  | ready
  deriving DecidableEq, Repr

inductive Event where
  | post (cqe : Cqe)
  | call (r : CallResult)
  | shutdown (mode : ShutdownMode)
  | step
  deriving DecidableEq, Repr

abbrev SIGQUIT : ℕ := 3
abbrev SIGTERM : ℕ := 15

variable {ω τ : Type}

/-- The result of an operation agrees with its data. -/
def Cqe.WellFormed (cqe : Cqe) : Prop :=
  (cqe.more → cqe.op.code = .accept) ∧
    (cqe.op.code = .recv → cqe.data.length = cqe.res.toNat ∧ cqe.data.length ≤ cqe.op.len) ∧
    (cqe.op.code = .send → cqe.res ≤ cqe.op.len)
  deriving Decidable

/-- The kernel answers a submitted operation, and each one once. Nothing is asked
about the timeouts. -/
def Machine.Answers (m : Machine ω τ) (cqe : Cqe) : Prop :=
  cqe.op ∈ m.srv.ring.submitted ∧ cqe.WellFormed ∧ ∀ c ∈ m.posted, c.op = cqe.op → c.more
  deriving Decidable

/-- A receive and the timeout linked to it: either the timeout fires and the
receive is cancelled, or the timeout is. -/
def LinkAgrees (recv timeout : Cqe) : Prop :=
  recv.op.code = .recv → recv.op.linked → timeout.op.code = .timeout →
    timeout.op.seq = recv.op.seq + 1 →
    (recv.res = -ECANCELED ∧ timeout.res = -ETIME) ∨ (recv.res ≠ -ECANCELED ∧ timeout.res = -ECANCELED)
  deriving Decidable

def Event.posts : Event → Option Cqe
  | .post cqe => some cqe
  | _ => none

/-- What the kernel posts agrees with what it has posted. The machine does not ask
for this. -/
def Linked (m : Machine ω τ) (ev : Event) : Prop :=
  ∀ cqe ∈ ev.posts, ∀ c ∈ m.posted, LinkAgrees c cqe ∧ LinkAgrees cqe c
  deriving Decidable

variable {m : Machine ω τ}

/-! ### The calls -/

/-- `io_uring_submit`. -/
def Srv.submit (s : Srv ω τ) : Srv ω τ :=
  { s with ring := ⟨s.ring.asked, [], s.ring.submitted ++ s.ring.prepared⟩ }

def Machine.Draining (env : Env ω τ) (m : Machine ω τ) (elapsed : ℕ) : Prop :=
  0 < m.srv.pool.activeCount ∧ elapsed < env.config.keepaliveTimeoutMs
  deriving Decidable

/-- `ioh_server_run_once` returns; a drain stops the server again. -/
def Machine.ret (m : Machine ω τ) : Machine ω τ :=
  match m.stack with
  | .drain e :: fs => { m with srv.stopped := true, stack := .drain ((e + 50) % 2 ^ 32) :: fs }
  | _ => m

/-- `ioh_server_run_once` up to its loop. -/
def Machine.enter (m : Machine ω τ) : CallResult → Option (Machine ω τ)
  | .submitFails => some m.ret
  | .waitFails => if m.head = m.posted.length then some { m with srv := m.srv.submit }.ret else none
  | .ready =>
    if m.head = m.posted.length then none
    else some { m with srv := m.srv.submit, stack := .batch m.head 0 :: m.stack }

/-- The application or a drain calls `ioh_server_run_once`. -/
def Machine.call (env : Env ω τ) (m : Machine ω τ) (r : CallResult) : Option (Machine ω τ) :=
  match m.stack with
  | [] => if m.srv.stopped then none else m.enter r
  | .drain e :: _ => if m.Draining env e then { m with srv.stopped := false }.enter r else none
  | .batch _ _ :: _ => none

/-- The next completion of the walk. -/
def Machine.advance (m : Machine ω τ) : Machine ω τ :=
  match m.stack with
  | .batch pos n :: fs => { m with stack := .batch (pos + 1) (n + 1) :: fs }
  | _ => m

/-- `ioh_server_shutdown` returns, to the walk that has called it or to the
application. -/
def Machine.shutdownDone (env : Env ω τ) (m : Machine ω τ) : Machine ω τ :=
  match m.stack with
  | .batch _ _ :: _ => { m with srv := rearmSignal env m.srv }.advance
  | _ => m

/-- `IOH_OP_SIGNAL`. -/
def Machine.onSignal (env : Env ω τ) (m : Machine ω τ) (cqe : Cqe) : Machine ω τ :=
  let s := { m.srv with ring := m.srv.ring.retire cqe }
  if 0 < cqe.res ∧ cqe.signo = SIGQUIT then
    { m with srv := shutdownImmediate env s }.shutdownDone env
  else if 0 < cqe.res ∧ cqe.signo = SIGTERM then
    { m with srv := drainBegin env s, stack := .drain 0 :: m.stack }
  else { m with srv := rearmSignal env s }.advance

/-- The completion at `pos` is handled. -/
def Machine.handleAt (env : Env ω τ) (m : Machine ω τ) (pos : ℕ) (cqe : Cqe) : Option (Machine ω τ) :=
  let m := { m with handled := m.handled ++ [pos] }
  if cqe.op.code = .signal then some (m.onSignal env cqe)
  else (handle env m.srv cqe).map fun s => { m with srv := s }.advance

/-- The innermost call goes on. -/
def Machine.step (env : Env ω τ) (m : Machine ω τ) : Option (Machine ω τ) :=
  match m.stack with
  | [] => none
  | .batch pos n :: fs =>
    if pos = m.posted.length then some { m with head := m.head + n, stack := fs }.ret
    else (m.posted[pos]?).bind fun cqe => m.handleAt env pos cqe
  | .drain e :: fs =>
    if m.Draining env e then none
    else some ({ m with srv := forceClose m.srv, stack := fs }.shutdownDone env)

/-- The machine. A shutdown by the application comes from outside of the
loop. -/
def Machine.next (env : Env ω τ) (m : Machine ω τ) : Event → Option (Machine ω τ)
  | .post cqe => if m.Answers cqe then some { m with posted := m.posted ++ [cqe] } else none
  | .call r => m.call env r
  | .shutdown mode =>
    if m.stack ≠ [] then none
    else
      match mode with
      | .immediate => some { m with srv := shutdownImmediate env m.srv }
      | .drain => some { m with srv := drainBegin env m.srv, stack := [.drain 0] }
  | .step => m.step env

variable {env : Env ω τ} {m' : Machine ω τ}

/-- The machine before its first call. -/
def Machine.start (maxConns : ℕ) (listenFd signalFd : ℤ) (world : ω) : Machine ω τ :=
  ⟨serverStart maxConns listenFd signalFd world, [], 0, [], []⟩

/-! ### Every completion once -/

/-- Every completion up to some position has been handled, in order and once,
and between the calls of `ioh_server_run_once` the head stands behind them. -/
def Machine.ExactlyOnce (m : Machine ω τ) : Prop :=
  m.handled = List.range m.handled.length ∧
    ((∀ f ∈ m.stack, ∃ e, f = .drain e) → m.head = m.handled.length)

/-- The completion that the innermost walk handles next. -/
def Machine.current (m : Machine ω τ) : Option Cqe :=
  match m.stack with
  | .batch pos _ :: _ => m.posted[pos]?
  | _ => none

/-- A SIGTERM is handled only if there is no connection, or the drain would not
wait for one. -/
def CalmTerm (env : Env ω τ) (m : Machine ω τ) (ev : Event) : Prop :=
  ev = .step → ∀ cqe ∈ m.current, cqe.op.code = .signal → 0 < cqe.res → cqe.signo = SIGTERM →
    m.srv.pool.activeCount = 0 ∨ env.config.keepaliveTimeoutMs = 0
  deriving Decidable

/-- Where the calls stand: outside of any walk, in one, or in a shutdown that a
walk has called and that does not wait. -/
inductive Aligned (env : Env ω τ) (m : Machine ω τ) : Prop where
  | idle (drains : ∀ f ∈ m.stack, ∃ e, f = .drain e) (head : m.head = m.handled.length)
  | walking {pos n : ℕ} {fs : List Frame} (stack : m.stack = .batch pos n :: fs)
      (drains : ∀ f ∈ fs, ∃ e, f = .drain e) (head : m.head + n = pos) (here : m.handled.length = pos)
  | stopping {e pos n : ℕ} {fs : List Frame} (stack : m.stack = .drain e :: .batch pos n :: fs)
      (drains : ∀ f ∈ fs, ∃ e, f = .drain e) (head : m.head + n = pos)
      (here : m.handled.length = pos + 1) (calm : ¬m.Draining env e)

theorem Aligned.ret (env : Env ω τ) (h : ∀ f ∈ m.stack, ∃ e, f = .drain e)
    (hh : m.head = m.handled.length) : Aligned env m.ret := by
  unfold Machine.ret
  split
  · next e fs hs =>
    refine .idle ?_ hh
    intro f hf
    rcases mem_cons.mp hf with rfl | hf
    · exact ⟨_, rfl⟩
    · exact h f (by rw [hs]; exact mem_cons_of_mem _ hf)
  · exact .idle h hh

theorem Aligned.enter (env : Env ω τ) (h : ∀ f ∈ m.stack, ∃ e, f = .drain e)
    (hh : m.head = m.handled.length) {r : CallResult} (hm : m.enter r = some m') :
    Aligned env m' ∧ m'.handled = m.handled := by
  have hret : ∀ k : Machine ω τ, k.ret.handled = k.handled := by
    intro k
    unfold Machine.ret
    split <;> rfl
  cases r with
  | submitFails =>
    cases hm
    exact ⟨Aligned.ret env h hh, hret m⟩
  | waitFails =>
    simp only [Machine.enter] at hm
    split_ifs at hm
    cases hm
    exact ⟨Aligned.ret env h hh, hret _⟩
  | ready =>
    simp only [Machine.enter] at hm
    split_ifs at hm
    cases hm
    exact ⟨.walking rfl h (by simp) hh.symm, rfl⟩

variable {n pos : ℕ} {fs : List Frame}

theorem Aligned.advance
    (hs : m.stack = .batch pos n :: fs) (hf : ∀ f ∈ fs, ∃ e, f = .drain e) (hh : m.head + n = pos)
    (hl : m.handled.length = pos + 1) : Aligned env m.advance ∧ m.advance.handled = m.handled := by
  unfold Machine.advance
  rw [hs]
  refine ⟨.walking rfl hf ?_ hl, rfl⟩
  show m.head + (n + 1) = pos + 1
  omega

theorem shutdownDone_batch (hs : m.stack = .batch pos n :: fs) :
    m.shutdownDone env = { m with srv := rearmSignal env m.srv }.advance := by
  unfold Machine.shutdownDone
  split
  · rfl
  · next h => exact absurd hs (h pos n fs)

theorem Aligned.shutdownDone (env : Env ω τ) (hs : m.stack = .batch pos n :: fs)
    (hf : ∀ f ∈ fs, ∃ e, f = .drain e) (hh : m.head + n = pos) (hl : m.handled.length = pos + 1) :
    Aligned env (m.shutdownDone env) ∧ (m.shutdownDone env).handled = m.handled := by
  rw [shutdownDone_batch hs]
  exact Aligned.advance hs hf hh hl

theorem Aligned.handleAt {cqe : Cqe}
    (hs : m.stack = .batch pos n :: fs) (hf : ∀ f ∈ fs, ∃ e, f = .drain e) (hh : m.head + n = pos)
    (hl : m.handled.length = pos) (calm : cqe.op.code = .signal → 0 < cqe.res → cqe.signo = SIGTERM →
      m.srv.pool.activeCount = 0 ∨ env.config.keepaliveTimeoutMs = 0)
    (hm : m.handleAt env pos cqe = some m') : Aligned env m' ∧ m'.handled = m.handled ++ [pos] := by
  have hl' : (m.handled ++ [pos]).length = pos + 1 := by simp [hl]
  unfold Machine.handleAt at hm
  by_cases hc : cqe.op.code = .signal
  · simp only [hc, if_true, Option.some.injEq] at hm
    subst hm
    unfold Machine.onSignal
    split_ifs with hq ht
    · exact Aligned.shutdownDone env hs hf hh hl'
    · -- the drain that starts here does not wait
      refine ⟨.stopping (congrArg (Frame.drain 0 :: ·) hs) hf hh hl' ?_, rfl⟩
      rintro ⟨ha, he⟩
      rcases calm hc ht.1 ht.2 with h | h
      · exact absurd h ha.ne'
      · exact absurd h he.ne'
    · exact Aligned.advance hs hf hh hl'
  · simp only [hc, if_false, Option.map_eq_some_iff] at hm
    obtain ⟨s, _, rfl⟩ := hm
    exact Aligned.advance hs hf hh hl'

theorem mem_tail_drain {f : Frame} (h : ∀ g ∈ f :: fs, ∃ e, g = .drain e) :
    ∀ g ∈ fs, ∃ e, g = .drain e := (forall_mem_cons.mp h).2

theorem not_drain_batch : ¬∀ g ∈ Frame.batch pos n :: fs, ∃ e, g = .drain e := by
  intro h
  obtain ⟨e, he⟩ := h _ (mem_cons_self ..)
  cases he

/-- The innermost call goes on: nothing is handled, or the completion behind
those that were. -/
theorem Aligned.step (h : Aligned env m) (calm : CalmTerm env m .step) (hm : m.step env = some m') :
    Aligned env m' ∧ (m'.handled = m.handled ∨ m'.handled = m.handled ++ [m.handled.length]) := by
  unfold Machine.step at hm
  cases h with
  | idle drains head =>
    rcases hs : m.stack with _ | ⟨f, fs⟩
    · simp [hs] at hm
    · rw [hs] at drains
      obtain ⟨e, rfl⟩ := drains f (mem_cons_self ..)
      simp only [hs] at hm
      split_ifs at hm
      cases hm
      -- no walk has called this shutdown
      have hd := mem_tail_drain drains
      rcases fs with _ | ⟨g, gs⟩
      · exact ⟨.idle hd head, .inl rfl⟩
      · obtain ⟨e', rfl⟩ := hd g (mem_cons_self ..)
        exact ⟨.idle hd head, .inl rfl⟩
  | @walking pos n fs stack drains head here =>
    simp only [stack] at hm
    split_ifs at hm with hp
    · cases hm
      have := Aligned.ret env (m := { m with head := m.head + n, stack := fs }) drains
        (by show m.head + n = m.handled.length; omega)
      refine ⟨this, .inl ?_⟩
      unfold Machine.ret
      split <;> rfl
    · rw [Option.bind_eq_some_iff] at hm
      obtain ⟨cqe, hc, hm⟩ := hm
      have := Aligned.handleAt stack drains head here
        (calm rfl cqe (by simp only [Machine.current, stack]; exact hc)) hm
      rw [here]
      exact ⟨this.1, .inr this.2⟩
  | @stopping e pos n fs stack drains head here hcalm =>
    simp only [stack, if_neg hcalm, Option.some.injEq] at hm
    subst hm
    have := Aligned.shutdownDone env
      (m := { m with srv := forceClose m.srv, stack := .batch pos n :: fs }) rfl drains head here
    exact ⟨this.1, .inl this.2⟩

theorem Aligned.next {ev : Event} (h : Aligned env m)
    (calm : CalmTerm env m ev) (hm : m.next env ev = some m') :
    Aligned env m' ∧ (m'.handled = m.handled ∨ m'.handled = m.handled ++ [m.handled.length]) := by
  cases ev with
  | post cqe =>
    simp only [Machine.next] at hm
    split_ifs at hm
    cases hm
    refine ⟨?_, .inl rfl⟩
    cases h with
    | idle drains head => exact .idle drains head
    | walking stack drains head here => exact .walking stack drains head here
    | stopping stack drains head here hcalm => exact .stopping stack drains head here hcalm
  | call r =>
    simp only [Machine.next, Machine.call] at hm
    split at hm
    · next hs =>
      split_ifs at hm
      have hd : ∀ f ∈ m.stack, ∃ e, f = .drain e := by simp [hs]
      cases h with
      | idle _ head =>
        have := Aligned.enter env hd head hm
        exact ⟨this.1, .inl this.2⟩
      | walking stack | stopping stack => simp [hs] at stack
    · next e fs hs =>
      split_ifs at hm with hd
      cases h with
      | idle drains head =>
        have := Aligned.enter env (m := { m with srv.stopped := false }) drains head hm
        exact ⟨this.1, .inl this.2⟩
      | walking stack => simp [hs] at stack
      | stopping stack drains head here hcalm =>
        rw [hs] at stack
        cases stack
        exact absurd hd hcalm
    · cases hm
  | shutdown mode =>
    simp only [Machine.next] at hm
    split_ifs at hm with hs
    rw [not_not] at hs
    cases h with
    | idle _ head =>
      cases mode with
      | immediate =>
        cases hm
        exact ⟨.idle (by simp [hs]) head, .inl rfl⟩
      | drain =>
        cases hm
        exact ⟨.idle (by simp) head, .inl rfl⟩
    | walking stack | stopping stack => simp [hs] at stack
  | step => exact h.step calm hm

/-- **Without a drain in the loop, every completion is handled once.** In every
run in which a SIGTERM is handled only while there is no connection, or with
a keep-alive timeout of 0, the completions are handled in their order, each
once, and the head of the queue advances by their number. -/
theorem completions_handled_once (env : Env ω τ) (maxConns : ℕ) (listenFd signalFd : ℤ) (world : ω)
    {m : Machine ω τ}
    (h : Reaches (Machine.next env) (CalmTerm env) (Machine.start maxConns listenFd signalFd world) m) :
    m.ExactlyOnce := by
  have inv : Aligned env m ∧ m.handled = List.range m.handled.length := by
    refine h.invariant (fun m => Aligned env m ∧ m.handled = List.range m.handled.length)
      ⟨.idle (by simp [Machine.start]) rfl, rfl⟩ ?_
    rintro s e s' ⟨ha, hr⟩ calm hn
    obtain ⟨ha', hh | hh⟩ := ha.next calm hn
    · exact ⟨ha', by rw [hh]; exact hr⟩
    · refine ⟨ha', ?_⟩
      rw [hh, length_append, length_singleton, range_succ, ← hr]
  refine ⟨inv.2, fun hd => ?_⟩
  cases inv.1 with
  | idle _ head => exact head
  | walking stack => exact absurd (stack ▸ hd) not_drain_batch
  | stopping stack => exact absurd (mem_tail_drain (stack ▸ hd)) not_drain_batch

/-- A TLS library that is never called. -/
def noWolf : Wolf Unit where
  new := fun _ => none
  accept := fun _ _ _ => ⟨(), 0, [], .failure⟩
  read := fun _ _ _ _ => ⟨(), 0, [], .failure⟩
  write := fun _ _ _ _ => ⟨(), 0, [], .failure⟩

/-- A plaintext server with the default configuration, whose handler leaves the
response as it is, and which always gets an entry in the ring. -/
def plainEnv : Env Unit Unit where
  config := configInit
  app := { plainApp with onRequest := some fun ctx => (ctx, 0) }
  router := none
  tls := false
  wolf := noWolf
  proxyDecode := fun _ => .error (-EINVAL)
  sqe := fun _ => true
  random := fun _ => ⟨0, 0, 0, 0⟩
  memory := fun _ => []

/-- The first accept and the first read of a signal. -/
def acceptOp : Op := ⟨.accept, 0, 0, 0, 0, 0, false⟩

def signalOp : Op := ⟨.signal, 0, 1, 0, 0, 0, false⟩

/-- A client connects, and its completion is handled. -/
def connectEvents : List Event :=
  [.call .waitFails, .post ⟨acceptOp, 5, [], true, 0⟩, .call .ready, .step, .step]

def termEvents : List Event := [.post ⟨signalOp, 128, [], false, SIGTERM⟩, .call .ready, .step]

/-- The first receive of the first connection, and the timeout linked to it. -/
def firstRecv : Op := ⟨.recv, 1, 2, 0, 0, 8192, true⟩

def firstTimeout : Op := ⟨.timeout, 1, 3, 0, 0, 30000, false⟩

instance (m : Machine ω τ) : Decidable m.ExactlyOnce := by
  unfold Machine.ExactlyOnce
  have : ∀ f : Frame, Decidable (∃ e, f = .drain e) := fun f =>
    match f with
    | .drain e => isTrue ⟨e, rfl⟩
    | .batch _ _ => isFalse fun ⟨_, h⟩ => by cases h
  infer_instance

/-- A server without connections stops on a SIGTERM. -/
theorem completions_handled_once_idle :
    ∃ m : Machine Unit Unit,
      Reaches (Machine.next plainEnv) (CalmTerm plainEnv) (Machine.start 4 3 9 ()) m ∧
        m.handled = [0] ∧ m.ExactlyOnce := by
  obtain ⟨m, hm, hp⟩ := exists_reaches (Machine.next plainEnv) (CalmTerm plainEnv)
    (Machine.start 4 3 9 ()) (.call .waitFails :: termEvents ++ [.step, .step])
    (fun m => m.handled = [0]) (by decide +kernel)
  exact ⟨m, hm, hp, completions_handled_once plainEnv 4 3 9 () hm⟩

/-- With one idle client, the drain that a SIGTERM starts finds the SIGTERM in
the queue and handles it again. -/
theorem completions_handled_twice :
    ¬∀ (env : Env Unit Unit) (maxConns : ℕ) (listenFd signalFd : ℤ) (m : Machine Unit Unit),
      Reaches (Machine.next env) (fun _ _ => True) (Machine.start maxConns listenFd signalFd ()) m →
        m.ExactlyOnce := by
  intro h
  obtain ⟨m, hm, hp⟩ := exists_reaches (Machine.next plainEnv) (fun _ _ => True)
    (Machine.start 4 3 9 ()) (connectEvents ++ termEvents ++ [.call .ready, .step])
    (fun m => ¬m.ExactlyOnce) (by decide +kernel)
  exact hp (h plainEnv 4 3 9 m hm)

end Iohttp
