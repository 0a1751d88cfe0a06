/-
# Ids that come again

`ioh_conn_alloc` counts the ids of the connections in 32 bits. A server whose ring
is full accepts a connection and closes it at once, and an id is used up each time:
after `2 ^ 32` connections the ids come again, while an operation of an earlier
connection may still be in the ring. Every server without a connection has a run of
any number of such accepts, in which nobody stops it.
-/
import Iohttp.Core.Loop

namespace Iohttp

open Runs List

variable {ω τ : Type} {env : Env ω τ} {m : Machine ω τ} {s : Srv ω τ}

/-- The application does not call `ioh_server_shutdown`, no completion of a signal
is handled, and a timeout agrees with the receive it is linked to. -/
def Undisturbed (m : Machine ω τ) (ev : Event) : Prop :=
  (∀ mode, ev ≠ .shutdown mode) ∧ (ev = .step → ∀ cqe ∈ m.current, cqe.op.code ≠ .signal) ∧ Linked m ev

instance (m : Machine ω τ) (ev : Event) : Decidable (Undisturbed m ev) := by
  unfold Undisturbed
  have : Decidable (∀ mode, ev ≠ .shutdown mode) :=
    decidable_of_iff (ev ≠ .shutdown .immediate ∧ ev ≠ .shutdown .drain)
      ⟨fun h mode => by cases mode <;> simp [h.1, h.2], fun h => ⟨h _, h _⟩⟩
  infer_instance

/-- The loop stands between two calls and has handled every completion. -/
@[mk_iff]
structure Machine.Rests (m : Machine ω τ) : Prop where
  stack : m.stack = []
  head : m.head = m.posted.length
  running : m.srv.stopped = false

/-- A completion has been handled, with the server `s` behind it. -/
def Machine.deliver (m : Machine ω τ) (cqe : Cqe) (s : Srv ω τ) : Machine ω τ :=
  ⟨s, m.posted ++ [cqe], m.head + 1, m.handled ++ [m.head], []⟩

/-- A completion has been posted, and a call walks to it. -/
def Machine.walk (m : Machine ω τ) (cqe : Cqe) : Machine ω τ :=
  ⟨m.srv.submit.submit, m.posted ++ [cqe], m.head, m.handled, [.batch m.head 0]⟩

theorem Machine.Rests.current (h : m.Rests) (cqe : Cqe) : (m.walk cqe).current = some cqe := by
  show (m.posted ++ [cqe])[m.head]? = some cqe
  rw [h.head]
  simp

theorem undisturbed_call (r : CallResult) : Undisturbed m (.call r) := by
  refine ⟨fun _ h => ?_, fun h => ?_, fun _ h => ?_⟩ <;> cases h

theorem undisturbed_post {cqe : Cqe} (h : Linked m (.post cqe)) : Undisturbed m (.post cqe) := by
  refine ⟨fun _ he => ?_, fun he => ?_, h⟩ <;> cases he

theorem undisturbed_step (h : ∀ cqe ∈ m.current, cqe.op.code ≠ .signal) : Undisturbed m .step := by
  refine ⟨fun _ he => ?_, fun _ => h, fun _ he => ?_⟩ <;> cases he

/-- A call that finds nothing submits, the kernel posts a completion, and the next
call finds it. -/
theorem reaches_walk (h : m.Rests) {cqe : Cqe} (ha : { m with srv := m.srv.submit }.Answers cqe)
    (hl : Linked m (.post cqe)) : Reaches (Machine.next env) Undisturbed m (m.walk cqe) := by
  obtain ⟨srv, posted, head, handled, stack⟩ := m
  obtain ⟨hstack, hhead, hrun⟩ := h
  simp only at hstack hhead hrun
  subst hstack hhead
  let m₁ : Machine ω τ := ⟨srv.submit, posted, posted.length, handled, []⟩
  let m₂ : Machine ω τ := ⟨srv.submit, posted ++ [cqe], posted.length, handled, []⟩
  have h₁ : Machine.next env ⟨srv, posted, posted.length, handled, []⟩ (.call .waitFails) = some m₁ := by
    simp [Machine.next, Machine.call, hrun, Machine.enter, Machine.ret, m₁]
  have h₂ : m₁.next env (.post cqe) = some m₂ := if_pos ha
  have h₃ : m₂.next env (.call .ready) = some
      (Machine.walk ⟨srv, posted, posted.length, handled, []⟩ cqe) := by
    have hsub : srv.submit.stopped = false := hrun
    simp [Machine.next, Machine.call, hsub, Machine.enter, m₂, Machine.walk]
  exact .step _ (.step _ (.step _ .start (undisturbed_call _) h₁) (undisturbed_post hl) h₂)
    (undisturbed_call _) h₃

/-- Then the completion is handled, and the call returns. -/
theorem reaches_deliver (h : m.Rests) {cqe : Cqe} (hcode : cqe.op.code ≠ .signal)
    (ha : { m with srv := m.srv.submit }.Answers cqe) (hl : Linked m (.post cqe))
    (hs : handle env m.srv.submit.submit cqe = some s) :
    Reaches (Machine.next env) Undisturbed m (m.deliver cqe s) := by
  have hcur : (m.posted ++ [cqe])[m.head]? = some cqe := h.current cqe
  have hlen : m.head + 1 = (m.posted ++ [cqe]).length := by
    rw [h.head]
    simp
  let m₁ : Machine ω τ := ⟨s, m.posted ++ [cqe], m.head, m.handled ++ [m.head], [.batch (m.head + 1) 1]⟩
  have h₁ : (m.walk cqe).next env .step = some m₁ := by
    have hne : m.head ≠ (m.posted ++ [cqe]).length := by omega
    simp only [Machine.next, Machine.step, Machine.walk, if_neg hne, hcur, Option.bind_some,
      Machine.handleAt,
      if_neg hcode, hs, Option.map_some]
    rfl
  have h₂ : m₁.next env .step = some (m.deliver cqe s) := by
    simp only [Machine.next, Machine.step, m₁, if_pos hlen]
    rfl
  refine .step .step (.step .step (reaches_walk h ha hl) (undisturbed_step ?_) h₁)
    (undisturbed_step ?_) h₂
  · intro c hc
    rw [h.current cqe] at hc
    cases hc
    exact hcode
  · intro c hc
    have hc' : (m.posted ++ [cqe])[m.head + 1]? = some c := hc
    rw [hlen, getElem?_length] at hc'
    cases hc'

theorem Machine.Rests.deliver (h : m.Rests) (cqe : Cqe) (hs : s.stopped = false) :
    (m.deliver cqe s).Rests :=
  ⟨rfl, by show m.head + 1 = (m.posted ++ [cqe]).length; rw [h.head]; simp, hs⟩

/-! ### Accepts without an entry in the ring -/

/-- A server with one slot, which is free, and with its multishot accept. -/
structure Machine.Idle (m : Machine ω τ) : Prop extends m.Rests where
  empty : m.srv.pool.conns = [freeConn]
  prepared : m.srv.ring.prepared = []
  accept : acceptOp ∈ m.srv.ring.submitted
  more : ∀ c ∈ m.posted, c.op = acceptOp → c.more = true

/-- The server after `n` connections that were closed at once. -/
def Srv.refuses (s : Srv ω τ) (n : ℕ) (acts : List Act) : Srv ω τ :=
  { s with
    pool.nextId := (s.pool.nextId + n) % 2 ^ 32, pool.serial := s.pool.serial + n
    ring.asked := s.ring.asked + n, trace := s.trace ++ acts }

theorem submit_eq (h : s.ring.prepared = []) : s.submit = s := by
  obtain ⟨pool, ⟨asked, prepared, submitted⟩, clock, trace, world, _, _, _, _, _⟩ := s
  cases h
  simp [Srv.submit]

/-- The kernel has accepted a connection. -/
def acceptCqe : Cqe := ⟨acceptOp, 5, [], true, 0⟩

theorem handle_refused (hempty : s.pool.conns = [freeConn]) (hsqe : env.sqe s.ring.asked = false) :
    ∃ act, handle env s acceptCqe = some (s.refuses 1 [act]) := by
  obtain ⟨⟨conns, active, nextId, serial⟩, ring, clock, trace, world, l, a, st, lfd, sfd⟩ := s
  cases hempty
  have hsqe' : env.sqe ring.asked = false := hsqe
  refine ⟨.closed (firstState env (allocConn nextId serial (env.memory serial)) 5).serial
    (firstState env (allocConn nextId serial (env.memory serial)) 5).fd, ?_⟩
  have hrecv : ∀ w : Work ω τ, w.ring = ring → armRecv env w = (w.ask, -ENOSPC) := by
    intro w hw
    unfold armRecv
    rw [hw, hsqe']
    rfl
  simp [handle, acceptCqe, acceptOp, Ring.retire, onAccept, acceptFd, connAlloc, freeConn, accepted,
    Srv.focus,
    Srv.restore, Srv.refuses, hrecv, Work.setConn, Work.note, Work.ask, Ring.ask, connFree, ENOSPC]

theorem Machine.Idle.answers (h : m.Idle) : { m with srv := m.srv.submit }.Answers acceptCqe := by
  rw [submit_eq h.prepared]
  exact ⟨h.accept, by decide, h.more⟩

theorem linked_accept (m : Machine ω τ) : Linked m (.post acceptCqe) := by
  rintro cqe ⟨⟩ c _
  exact ⟨fun _ _ hcode => (by cases hcode), fun hcode => (by cases hcode)⟩

theorem Machine.Idle.accepts (h : m.Idle) (hs : handle env m.srv acceptCqe = some s) :
    Reaches (Machine.next env) Undisturbed m (m.deliver acceptCqe s) := by
  refine reaches_deliver h.toRests (by decide) h.answers (linked_accept m) ?_
  rw [submit_eq h.prepared, submit_eq h.prepared]
  exact hs

theorem Machine.Idle.refuse (h : m.Idle) (hsqe : env.sqe m.srv.ring.asked = false) :
    ∃ act, Reaches (Machine.next env) Undisturbed m (m.deliver acceptCqe (m.srv.refuses 1 [act])) ∧
      (m.deliver acceptCqe (m.srv.refuses 1 [act])).Idle := by
  obtain ⟨act, hact⟩ := handle_refused h.empty hsqe
  refine ⟨act, h.accepts hact, h.toRests.deliver acceptCqe h.running, h.empty, h.prepared, h.accept,
    fun c hc hop => ?_⟩
  obtain hc | hc := mem_append.mp hc
  · exact h.more c hc hop
  · rw [mem_singleton.mp hc]
    rfl

theorem refuses_refuses (s : Srv ω τ) (n : ℕ) (acts acts' : List Act) :
    (s.refuses n acts).refuses 1 acts' = s.refuses (n + 1) (acts ++ acts') := by
  simp [Srv.refuses, Nat.add_assoc]

theorem refuses_zero (h : s.pool.nextId < 2 ^ 32) : s.refuses 0 [] = s := by
  unfold Srv.refuses
  rw [Nat.add_zero, Nat.add_zero, Nat.add_zero, append_nil, Nat.mod_eq_of_lt h]

/-- **Any number of connections that are closed at once.** While the ring has no
entry, an idle server goes on to the state behind the next `n` connections, and
the operations that it had in the ring are still there. -/
theorem refused_run (h : m.Idle) (hid : m.srv.pool.nextId < 2 ^ 32) :
    ∀ n, (∀ k, m.srv.ring.asked ≤ k → k < m.srv.ring.asked + n → env.sqe k = false) →
      ∃ m' acts, Reaches (Machine.next env) Undisturbed m m' ∧ m'.Idle ∧ m'.srv = m.srv.refuses n acts ∧
        ∀ c ∈ m'.posted, c ∈ m.posted ∨ c = acceptCqe
  | 0, _ => ⟨m, [], .start, h, (refuses_zero hid).symm, fun _ hc => .inl hc⟩
  | n + 1, hsqe => by
    obtain ⟨m', acts, hrun, hidle, hsrv, hposted⟩ :=
      refused_run h hid n fun k hle hlt => hsqe k hle (by omega)
    have hfull : env.sqe m'.srv.ring.asked = false := by
      rw [hsrv]
      exact hsqe _ (Nat.le_add_right _ _) (by simp [Srv.refuses])
    obtain ⟨act, hstep, hidle'⟩ := hidle.refuse hfull
    refine ⟨_, acts ++ [act], hrun.trans hstep, hidle', ?_, fun c hc => ?_⟩
    · rw [← refuses_refuses, ← hsrv]
      rfl
    · obtain hc | hc := mem_append.mp hc
      · exact hposted c hc
      · exact .inr (mem_singleton.mp hc)

/-- The first connection has come and gone, and some operations are still in the
ring. -/
@[mk_iff]
structure Machine.Left (m : Machine ω τ) (asked : ℕ) (ops : List Op) (posted : List Cqe) :
    Prop extends m.Rests where
  pool : m.srv.pool = ⟨[freeConn], 0, 2, 1⟩
  ring : m.srv.ring = ⟨asked, [], ops⟩
  posted : m.posted = posted

instance (m : Machine ω τ) : Decidable m.Rests := decidable_of_iff' _ m.rests_iff

instance [DecidableEq τ] (m : Machine ω τ) (asked : ℕ) (ops : List Op) (posted : List Cqe) :
    Decidable (m.Left asked ops posted) := decidable_of_iff' _ (m.left_iff asked ops posted)

/-- **The first id comes again.** While the ring is full all other ids are used up,
and the operations that were left are still in the ring. -/
theorem Machine.Left.wraps (env : Env ω τ) {asked : ℕ} {ops : List Op} {posted : List Cqe}
    (h : m.Left asked ops posted)
    (hops : acceptOp ∈ ops) (hmore : ∀ c ∈ posted, c.op = acceptOp → c.more = true)
    (hfull : ∀ n, asked ≤ n → n < asked + (2 ^ 32 - 1) → env.sqe n = false) :
    ∃ m', Reaches (Machine.next env) Undisturbed m m' ∧ m'.Idle ∧
    m'.srv.pool = ⟨[freeConn], 0, 1, 2 ^ 32⟩ ∧
      m'.srv.ring = ⟨asked + (2 ^ 32 - 1), [], ops⟩ ∧ ∀ c ∈ m'.posted ++ [acceptCqe],
      c ∈ acceptCqe :: posted := by
  have hidle : m.Idle :=
    ⟨h.toRests, by
      rw [h.pool], by rw [h.ring], by rw [h.ring]; exact hops, by rw [h.posted]; exact hmore⟩
  obtain ⟨m', acts, hrun, hidle', hsrv, hposted⟩ :=
    refused_run hidle (by rw [h.pool]; norm_num) (2 ^ 32 - 1) fun n hle hlt => by
      rw [h.ring] at hle hlt
      exact hfull n hle hlt
  refine ⟨m', hrun, hidle', ?_, ?_, fun c hc => ?_⟩
  · rw [hsrv, Srv.refuses, h.pool]
    norm_num
  · rw [hsrv, Srv.refuses, h.ring]
  · rw [h.posted] at hposted
    obtain hc | hc := mem_append.mp hc
    · exact mem_cons.mpr (hposted c hc).symm
    · exact mem_cons.mpr (.inl (mem_singleton.mp hc))

end Iohttp
