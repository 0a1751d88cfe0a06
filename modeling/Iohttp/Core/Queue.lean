/-
# Ids and the queue

The loop finds the connection of a completion by its 32-bit id. As long as
fewer than `2 ^ 32` connections were allocated, the id of an operation tells
its connection (`Numbered`). Unless a shutdown inside of the walk goes through
the queue again, a completion that is handled answers an operation that is
still in the ring (`Queued`).
-/
import Iohttp.Core.Invariant

namespace Iohttp

open Runs List

variable {ω τ : Type} {cqe : Cqe} {s : Srv ω τ} {env : Env ω τ} {m m' : Machine ω τ} {ev : Event}

/-! ### Ids and serial numbers -/

/-- No id has been given twice, and what is in the ring and has happened comes
from connections that were allocated. -/
structure Numbered (s : Srv ω τ) : Prop where
  few : s.pool.serial < 2 ^ 32
  nextId : s.pool.nextId = (s.pool.serial + 1) % 2 ^ 32
  distinct : LiveDistinct Conn.serial s.pool.conns
  live : ∀ c ∈ s.pool.conns, c.Live → IdOf s.pool.serial c.serial c.id
  free : ∀ c ∈ s.pool.conns, ¬c.Live → c = freeConn
  ops : ∀ op ∈ s.ring.connOps, IdOf s.pool.serial op.serial op.id
  acts : ∀ a ∈ s.trace, a.serial < s.pool.serial

theorem Numbered.quiet {s' : Srv ω τ} (hq : Quiet s s') (h : Numbered s) : Numbered s' := by
  obtain ⟨h₁, h₂, h₃, h₄, h₅, h₆, h₇⟩ := h
  refine ⟨by rwa [hq.pool], by rwa [hq.pool], by rwa [hq.pool], by rwa [hq.pool], by rwa [hq.pool],
    fun op hop => ?_, by rwa [hq.trace, hq.pool]⟩
  rw [hq.pool]
  exact h₆ op (hq.ops.mem_iff.mp hop)

variable {op : Op} {w w' : Work ω τ} {c : Conn τ}

theorem connOps_retire {r : Ring} (h : op ∈ (r.retire cqe).connOps) : op ∈ r.connOps := by
  rw [mem_connOps] at h ⊢
  refine ⟨?_, h.2⟩
  have hm := h.1
  unfold Ring.retire at hm
  split_ifs at hm
  · exact hm
  · rcases mem_append.mp hm with hm | hm
    · exact mem_append_left _ (mem_of_mem_erase hm)
    · exact mem_append_right _ (mem_of_mem_erase hm)

theorem Numbered.retire (h : Numbered s) (cqe : Cqe) : Numbered (s.retire cqe) :=
  { h with ops := fun op hop => h.ops op (connOps_retire hop) }

theorem Grows.connOps (h : Grows w w') (hop : op ∈ w'.ring.connOps) :
    op ∈ w.ring.connOps ∨ op.Of w.conn := by
  obtain ⟨ops, hp, ho⟩ := h.prepared
  rw [mem_connOps, Ring.ops, hp, h.submitted] at hop
  obtain ⟨hm, hc⟩ := hop
  rcases mem_append.mp hm with hm | hm
  · rcases mem_append.mp hm with hm | hm
    · exact .inl (mem_connOps.mpr ⟨mem_append_left _ hm, hc⟩)
    · exact .inr (ho op hm)
  · exact .inl (mem_connOps.mpr ⟨mem_append_right _ hm, hc⟩)

theorem Grows.acts (h : Grows w w') {a : Act} (ha : a ∈ w'.trace) :
    a ∈ w.trace ∨ a.serial = w.conn.serial := by
  obtain ⟨acts, ht, hs⟩ := h.trace
  rw [ht] at ha
  rcases mem_append.mp ha with ha | ha
  · exact .inl ha
  · exact .inr (hs a ha)

theorem Numbered.restore (h : Numbered s) {i : ℕ}
    (distinct : LiveDistinct Conn.serial (s.pool.conns.set i w'.conn))
    (hc : IdOf s.pool.serial c.serial c.id) (hw : Worked (s.focus c) w') :
    Numbered (s.restore i w') := by
  refine ⟨h.few, h.nextId, distinct, fun d hd hl => ?_, fun d hd hl => ?_, fun op hop =>
    ?_, fun a ha => ?_⟩
  · rcases mem_or_eq_of_mem_set hd with hd | rfl
    · exact h.live d hd hl
    · obtain ⟨hid, hs⟩ := hw.of_live hl
      rw [hid, hs]
      exact hc
  · rcases mem_or_eq_of_mem_set hd with hd | rfl
    · exact h.free d hd hl
    · exact hw.conn.resolve_right fun hl' => hl hl'.1
  · rcases hw.toGrows.connOps hop with hop | ⟨hid, hs⟩
    · exact h.ops op hop
    · rw [hid, hs]
      exact hc
  · rcases hw.toGrows.acts ha with ha | hs
    · exact h.acts a ha
    · rw [hs]
      exact hc.1

theorem Numbered.conn (h : Numbered s) {i : ℕ} (hc : s.pool.conns[i]? = some c) (hl : c.Live)
    (hw : completeConn env ((s.retire cqe).focus c) cqe = some w') :
    Numbered ((s.retire cqe).restore i w') := by
  have hwork := completeConn_worked hl hw
  refine (h.retire cqe).restore ?_ (h.live c (mem_of_getElem? hc) hl) hwork
  exact h.distinct.replace hc hl fun hl' => (hwork.of_live hl').2

/-- Fewer than `2 ^ 32` connections are allocated. -/
def FewConns (s : Srv ω τ) (_ : Cqe) : Prop := s.pool.serial + 1 < 2 ^ 32

theorem Numbered.count (h : Numbered s) (hf : FewConns s cqe) : Numbered s.count := by
  refine ⟨hf, ?_, h.distinct, fun d hd hl => (h.live d hd hl).mono (Nat.le_succ _), h.free,
    fun op hop => (h.ops op hop).mono (Nat.le_succ _), fun a ha => Nat.lt_succ_of_lt (h.acts a ha)⟩
  show (s.pool.nextId + 1) % 2 ^ 32 = (s.pool.serial + 1 + 1) % 2 ^ 32
  rw [h.nextId]
  omega

theorem Numbered.accept (env : Env ω τ) (h : Numbered s) (hf : FewConns s cqe)
    (fd : ℤ) : Numbered (acceptFd env s fd) := by
  rcases acceptFd_cases env s fd with he | ⟨i, c, hc, _, he⟩
  · rw [he]
    exact h
  · have hw := (effect_accepted env (s.count.focus (s.newConn env)) fd).worked (fun hf => by cases hf)
    rw [he]
    refine (h.count hf).restore ?_ ⟨Nat.lt_succ_self _, h.nextId⟩ hw
    refine h.distinct.set fun hl j d _ hd hdl he => ?_
    rw [(hw.of_live hl).2] at he
    exact absurd he (h.live d (mem_of_getElem? hd) hdl).1.ne

theorem drainConn_id (c : Conn τ) : (drainConn c).id = c.id := by
  unfold drainConn connTransition
  split_ifs <;> rfl

theorem drainConn_free (h : ¬(drainConn c).Live) : drainConn c = c := by
  unfold drainConn at h ⊢
  split_ifs at h ⊢ with hs
  · exfalso
    refine h ?_
    simp [Conn.Live, connTransition, hs, validTransitions]
  · rfl

theorem Numbered.drain (h : Numbered s) : Numbered s.drainAll := by
  refine { h with
    distinct := h.distinct.map fun c hl => drainConn_live hl
    live := fun d hd hl => ?_, free := fun d hd hl => ?_ }
  · obtain ⟨c, hc, rfl⟩ := mem_map.mp hd
    obtain ⟨hcl, hs⟩ := drainConn_live hl
    rw [hs, drainConn_id]
    exact h.live c hc hcl
  · obtain ⟨c, hc, rfl⟩ := mem_map.mp hd
    have hc' := drainConn_free hl
    rw [hc'] at hl
    rw [hc']
    exact h.free c hc hl

theorem Numbered.force (h : Numbered s) : Numbered (forceClose s) := by
  have hfree : ∀ d ∈ (forceClose s).pool.conns, d = freeConn := by
    intro d hd
    obtain ⟨c, hc, rfl⟩ := mem_map.mp hd
    split_ifs with hs
    · exact h.free c hc (not_not.mpr hs)
    · rfl
  have hdead : ∀ d ∈ (forceClose s).pool.conns, ¬d.Live := fun d hd hl => hl (hfree d hd ▸ rfl)
  refine ⟨h.few, h.nextId, fun i _ c _ hc _ hl => absurd hl (hdead c (mem_of_getElem? hc)),
    fun d hd hl => absurd hl (hdead d hd), fun d hd _ => hfree d hd, h.ops, fun a ha => ?_⟩
  rcases mem_append.mp ha with ha | ha
  · exact h.acts a ha
  · obtain ⟨c, hc, ha⟩ := mem_flatMap.mp ha
    unfold forceClosed at ha
    split_ifs at ha with hl
    · rw [mem_singleton.mp ha]
      exact (h.live c hc hl.1).1
    · cases ha

theorem Numbered.start (maxConns : ℕ) (listenFd signalFd : ℤ) (world : ω) :
    Numbered (serverStart maxConns listenFd signalFd world : Srv ω τ) := by
  have hfree : ∀ c ∈ List.replicate maxConns (freeConn : Conn τ), c = freeConn := fun c hc =>
    eq_of_mem_replicate hc
  have hdead : ∀ c ∈ List.replicate maxConns (freeConn : Conn τ), ¬c.Live :=
    fun c hc hl => hl (hfree c hc ▸ rfl)
  exact ⟨by simp [serverStart, connPoolCreate], rfl,
    fun i _ c _ hc _ hl => absurd hl (hdead c (mem_of_getElem? hc)),
    fun c hc hl => absurd hl (hdead c hc), fun c hc _ => hfree c hc, (fun op hop => by cases hop),
    (fun a ha => by cases ha)⟩

/-! ### The queue -/

/-- What is posted and has not been handled answers an operation that is still
in the ring. -/
structure Queued (m : Machine ω τ) : Prop where
  pending : ∀ (pos : ℕ) (cqe : Cqe), m.handled.length ≤ pos → m.posted[pos]? = some cqe →
    cqe.op.code.ofConn = true → cqe.op ∈ m.srv.ring.submitted
  wellFormed : ∀ cqe ∈ m.posted, cqe.WellFormed
  once : ∀ (p q : ℕ) (a b : Cqe), p < q → m.posted[p]? = some a → m.posted[q]? = some b → a.op = b.op →
    a.more = true

/-- The operations that are submitted, other than that of the completion, stay
so when it is handled. -/
theorem handle_submitted {s' : Srv ω τ} (h : handle env s cqe = some s')
    (hm : op ∈ s.ring.submitted) (hne : op ≠ cqe.op) (hc : op.code.ofConn = true) :
    op ∈ s'.ring.submitted := by
  have rule : HandleRule env (fun t : Srv ω τ => op ∈ t.ring.submitted) (fun _ c => c = cqe)
      fun _ _ => True := by
    refine ⟨fun t t' hq ht => hq.submitted op hc ht, ?_, ?_, ?_⟩
    · rintro t c i d w' ht rfl hf hd hw
      obtain ⟨d', hd', hl, _⟩ := findConnById_some hf
      obtain rfl := Option.some.inj (hd'.symm.trans hd)
      show op ∈ w'.ring.submitted
      rw [(completeConn_worked hl hw).submitted]
      exact mem_submitted_retire ht hne
    · rintro t c ht rfl _
      exact mem_submitted_retire ht hne
    · intro t c ht _
      rcases acceptFd_cases env t c.res with he | ⟨i, d, _, _, he⟩
      · rw [he]
        exact ht
      · rw [he]
        have hw :=
          (effect_accepted env (t.count.focus (t.newConn env)) c.res).worked (fun hf => by cases hf)
        show op ∈ (accepted env (t.count.focus (t.newConn env)) c.res).ring.submitted
        rw [hw.submitted]
        exact ht
  refine rule.handle hm ?_ h
  unfold okCqe
  split <;> simp

def SameQueue (m m' : Machine ω τ) : Prop := m'.posted = m.posted ∧ m'.handled = m.handled

theorem sameQueue_ret (m : Machine ω τ) : SameQueue m m.ret := by
  unfold Machine.ret
  split <;> exact ⟨rfl, rfl⟩

theorem sameQueue_advance (m : Machine ω τ) : SameQueue m m.advance := by
  unfold Machine.advance
  split <;> exact ⟨rfl, rfl⟩

theorem sameQueue_shutdownDone (m : Machine ω τ) : SameQueue m (m.shutdownDone env) := by
  unfold Machine.shutdownDone
  split
  · exact sameQueue_advance { m with srv := rearmSignal env m.srv }
  · exact ⟨rfl, rfl⟩

theorem sameQueue_onSignal (m : Machine ω τ) (cqe : Cqe) : SameQueue m (m.onSignal env cqe) := by
  unfold Machine.onSignal
  split_ifs
  · exact sameQueue_shutdownDone { m with srv := shutdownImmediate env _ }
  · exact ⟨rfl, rfl⟩
  · exact sameQueue_advance { m with srv := rearmSignal env _ }

theorem sameQueue_enter {r : CallResult} (h : m.enter r = some m') : SameQueue m m' := by
  cases r with
  | submitFails =>
    cases h
    exact sameQueue_ret m
  | waitFails =>
    simp only [Machine.enter] at h
    split_ifs at h
    cases h
    exact sameQueue_ret { m with srv := m.srv.submit }
  | ready =>
    simp only [Machine.enter] at h
    split_ifs at h
    cases h
    exact ⟨rfl, rfl⟩

theorem next_queue (h : m.next env ev = some m') :
    SameQueue m m' ∨
    (∃ cqe, m.Answers cqe ∧ ev = .post cqe ∧ m' = { m with posted := m.posted ++ [cqe] }) ∨
      (ev = .step ∧ m'.posted = m.posted ∧ ∃ pos cqe, m.posted[pos]? = some cqe ∧ m.current = some cqe ∧
        m'.handled = m.handled ++ [pos]) := by
  cases ev with
  | post cqe =>
    simp only [Machine.next] at h
    split_ifs at h with ha
    exact .inr (.inl ⟨cqe, ha, rfl, (Option.some.inj h).symm⟩)
  | call r =>
    left
    simp only [Machine.next, Machine.call] at h
    split at h
    · split_ifs at h
      exact sameQueue_enter h
    · split_ifs at h
      exact sameQueue_enter (m := { m with srv.stopped := false }) h
    · cases h
  | shutdown mode =>
    left
    simp only [Machine.next] at h
    split_ifs at h
    cases mode <;> cases h <;> exact ⟨rfl, rfl⟩
  | step =>
    simp only [Machine.next, Machine.step] at h
    split at h
    · cases h
    · next pos n fs hs =>
      split_ifs at h
      · cases h
        exact .inl (sameQueue_ret _)
      · rw [Option.bind_eq_some_iff] at h
        obtain ⟨cqe, hc, h⟩ := h
        have hcur : m.current = some cqe := by
          simp only [Machine.current, hs]
          exact hc
        unfold Machine.handleAt at h
        split_ifs at h
        · cases h
          obtain ⟨hp, hh⟩ := sameQueue_onSignal { m with handled := m.handled ++ [_] } cqe
          exact .inr (.inr ⟨rfl, hp, _, cqe, hc, hcur, hh⟩)
        · rw [Option.map_eq_some_iff] at h
          obtain ⟨s, _, rfl⟩ := h
          obtain ⟨hp, hh⟩ := sameQueue_advance { m with handled := m.handled ++ [_], srv := s }
          exact .inr (.inr ⟨rfl, hp, _, cqe, hc, hcur, hh⟩)
    · split_ifs at h
      cases h
      exact .inl (sameQueue_shutdownDone ..)

theorem step_handle (hcur : m.current = some cqe) (hc : cqe.op.code ≠ .signal)
    (h : m.next env .step = some m') : handle env m.srv cqe = some m'.srv := by
  unfold Machine.current at hcur
  simp only [Machine.next, Machine.step] at h
  split at h
  · next hs => simp [hs] at hcur
  · next pos n fs hs =>
    simp only [hs] at hcur
    have hlt := (List.getElem?_eq_some_iff.mp hcur).1
    simp only [hlt.ne, if_false, hcur, Option.bind_some, Machine.handleAt, hc,
      Option.map_eq_some_iff] at h
    obtain ⟨s, hh, rfl⟩ := h
    rw [advance_srv]
    exact hh
  · next hs => simp [hs] at hcur

theorem step_isSome (hcur : m.current = some cqe)
    (hc : cqe.op.code ≠ .signal) : (m.next env .step).isSome = (handle env m.srv cqe).isSome := by
  unfold Machine.current at hcur
  simp only [Machine.next, Machine.step]
  split
  · next hs => simp [hs] at hcur
  · next pos n fs hs =>
    simp only [hs] at hcur
    have hlt := (List.getElem?_eq_some_iff.mp hcur).1
    simp only [hlt.ne, if_false, hcur, Option.bind_some, Machine.handleAt, hc, Option.isSome_map]
  · next hs => simp [hs] at hcur

theorem current_posted (h : m.current = some cqe) : cqe ∈ m.posted := by
  unfold Machine.current at h
  split at h
  · exact mem_of_getElem? h
  · cases h

theorem next_posted (h : m.next env ev = some m') :
    m'.posted = m.posted ∨
      ∃ cqe, ev = .post cqe ∧ m.Answers cqe ∧ m' = { m with posted := m.posted ++ [cqe] } := by
  rcases next_queue h with hq | ⟨cqe, ha, hev, he⟩ | ⟨_, hp, _⟩
  · exact .inl hq.1
  · exact .inr ⟨cqe, hev, ha, he⟩
  · exact .inl hp

theorem Aligned.current (h : Aligned env m)
    (hc : m.current = some cqe) : m.posted[m.handled.length]? = some cqe := by
  unfold Machine.current at hc
  cases h with
  | idle drains =>
    split at hc
    · next hs => exact absurd (hs ▸ drains) not_drain_batch
    · cases hc
  | walking stack _ _ here =>
    rw [stack] at hc
    rw [here]
    exact hc
  | stopping stack =>
    rw [stack] at hc
    cases hc

theorem ofConn_not_more (hwf : cqe.WellFormed) (hc : cqe.op.code.ofConn = true) : cqe.more = false := by
  by_contra hm
  rw [hwf.1 (by simpa using hm)] at hc
  cases hc

theorem Queued.post (h : Queued m) (ha : m.Answers cqe) :
    Queued { m with posted := m.posted ++ [cqe] } := by
  obtain ⟨hsub, hwf, hall⟩ := ha
  have last : ∀ (q : ℕ) (b : Cqe), (m.posted ++ [cqe])[q]? = some b →
      m.posted[q]? = some b ∨ (q = m.posted.length ∧ b = cqe) := by
    intro q b hb
    rw [getElem?_append] at hb
    split_ifs at hb with hq
    · exact .inl hb
    · right
      have hlt := (List.getElem?_eq_some_iff.mp hb).1
      rw [length_singleton] at hlt
      obtain rfl : q = m.posted.length := by omega
      simp only [Nat.sub_self, getElem?_cons_zero, Option.some.injEq] at hb
      exact ⟨rfl, hb.symm⟩
  refine ⟨fun pos b hp hb hc => ?_, fun b hb => ?_, fun p q a b hpq ha hb he => ?_⟩
  · rcases last pos b hb with hb | ⟨_, rfl⟩
    · exact h.pending pos b hp hb hc
    · exact hsub
  · rcases mem_append.mp hb with hb | hb
    · exact h.wellFormed b hb
    · rw [mem_singleton.mp hb]
      exact hwf
  · rcases last q b hb with hb | ⟨rfl, rfl⟩
    · have hq := (List.getElem?_eq_some_iff.mp hb).1
      rcases last p a ha with ha | ⟨rfl, _⟩
      · exact h.once p q a b hpq ha hb he
      · omega
    · rcases last p a ha with ha | ⟨rfl, _⟩
      · exact hall a (mem_of_getElem? ha) he
      · omega

/-- One event keeps the queue in order. -/
theorem Queued.next (h : Queued m) (ha : Aligned env m)
    (calm : CalmTerm env m ev) (hn : m.next env ev = some m') : Queued m' := by
  rcases next_posted hn with hp | ⟨cqe, _, hans, rfl⟩
  · have hlen : m.handled.length ≤ m'.handled.length := by
      rcases (ha.next calm hn).2 with hh | hh <;> simp [hh]
    have keep : (∀ (pos : ℕ) (cqe : Cqe), m'.handled.length ≤ pos → m.posted[pos]? = some cqe →
        cqe.op.code.ofConn = true → cqe.op ∈ m.srv.ring.submitted → cqe.op ∈ m'.srv.ring.submitted) →
        Queued m' := by
      intro hk
      refine ⟨fun pos b hpos hb hc => ?_, by rw [hp]; exact h.wellFormed, by rw [hp]; exact h.once⟩
      rw [hp] at hb
      exact hk pos b hpos hb hc (h.pending pos b (hlen.trans hpos) hb hc)
    rcases srvStep_next hn with hq | ⟨cqe, _, hcur, hh, hl⟩ | ⟨_, hq, he⟩ | ⟨_, hq, hq'⟩
    · exact keep fun _ b _ _ hc hm => hq.submitted _ hc hm
    · refine keep fun pos b hpos hb hc hm => handle_submitted hh hm ?_ hc
      -- an operation of a connection is answered once
      intro he
      have hfirst := ha.current hcur
      have hmore := h.once _ pos cqe b (by omega) hfirst hb he.symm
      rw [ofConn_not_more (h.wellFormed _ (mem_of_getElem? hfirst)) (he ▸ hc)] at hmore
      cases hmore
    · refine keep fun _ b _ _ hc hm => ?_
      rw [he]
      exact hq.submitted _ hc hm
    · exact keep fun _ b _ _ hc hm => hq'.submitted _ hc (hq.submitted _ hc hm)
  · exact h.post hans

end Iohttp
