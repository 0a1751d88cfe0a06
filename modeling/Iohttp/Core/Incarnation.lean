/-
# The connection behind an id

`find_conn_by_id` of `src/core/ioh_server.c` takes a completion to a slot by the
32-bit id that the operation carries. Slots are freed and given out again while
operations of earlier connections are still in the ring or in the queue, and a
drain inside of a walk handles completions twice. While fewer than `2 ^ 32` ids
were given out, the slot that is found still has the connection that the
operation was prepared for. Nothing is asked of the kernel but that it answers
operations that were submitted, and a `malloc` may fail.
-/
import Iohttp.Core.Lane

namespace Iohttp

open Runs

variable {ω τ : Type} {env : Env ω τ} {m m' : Machine ω τ}

/-- `ioh_conn_alloc` finds a slot and `malloc` fails: the slot is free again and an
id has been used up. The id that stays in the free slot is not kept here, nothing
reads it before the slot is given out again. -/
def Srv.allocFails (s : Srv ω τ) : Srv ω τ :=
  if s.pool.conns.any fun c => c.state = .free then
    { s with pool.nextId := (s.pool.nextId + 1) % 2 ^ 32, pool.serial := s.pool.serial + 1 }
  else s

/-- An event of the loop, or the descriptor of an accept for which there is no
memory. -/
inductive RunEvent where
  | loop (ev : Event)
  | mallocFails

/-- The walk goes on with an accept whose connection gets no memory. The descriptor
is closed, and the rest is as for an accept that has failed. -/
def Machine.refuse (env : Env ω τ) (m : Machine ω τ) : Option (Machine ω τ) :=
  match m.stack, m.current with
  | .batch pos _ :: _, some cqe =>
    if cqe.op.code = .accept ∧ 0 ≤ cqe.res then
      some { m with
        handled := m.handled ++ [pos]
        srv := onAccept env (m.srv.retire cqe).allocFails { cqe with res := -ENOMEM } }.advance
    else none
  | _, _ => none

/-- The loop on any kernel and with any memory. -/
def Machine.nextRun (env : Env ω τ) (m : Machine ω τ) : RunEvent → Option (Machine ω τ)
  | .loop ev => m.next env ev
  | .mallocFails => m.refuse env

/-! ### Ids that are not used again -/

/-- The pool has given out at least `n` ids, and while they were few no id twice. -/
def Few (n : ℕ) (s : Srv ω τ) : Prop := n ≤ s.pool.serial ∧ (s.pool.serial < 2 ^ 32 → Numbered s)

theorem few_rule (env : Env ω τ) (n : ℕ) :
    SrvRule env (Few n) (fun _ _ => True) (fun _ _ => True) fun _ => True where
  quiet s s' hq h := by
    refine ⟨by rw [hq.pool]; exact h.1, fun hlt => (h.2 ?_).quiet hq⟩
    rwa [hq.pool] at hlt
  conn s cqe i c w' h _ hf hc hw := by
    obtain ⟨c', hc', hl, _⟩ := findConnById_some hf
    obtain rfl := Option.some.inj (hc'.symm.trans hc)
    exact ⟨h.1, fun hlt => (h.2 hlt).conn hc hl hw⟩
  lost s cqe h _ _ := ⟨h.1, fun hlt => (h.2 hlt).retire cqe⟩
  accept s cqe h _ := by
    obtain he | ⟨i, c, hc, hfree, he⟩ := acceptFd_cases env s cqe.res
    · rw [he]
      exact h
    · have hserial : (acceptFd env s cqe.res).pool.serial = s.pool.serial + 1 := by
        rw [he]
        rfl
      refine ⟨by rw [hserial]; exact h.1.trans (Nat.le_succ _), fun hlt => ?_⟩
      rw [hserial] at hlt
      exact (h.2 (by omega)).accept env (show FewConns s cqe from hlt) cqe.res
  drain s h := ⟨h.1, fun hlt => (h.2 hlt).drain⟩
  force s h _ := ⟨h.1, fun hlt => (h.2 hlt).force⟩

variable {maxConns n : ℕ} {ev : RunEvent} {listenFd signalFd : ℤ}

theorem Few.allocFails {s : Srv ω τ} (h : Few n s) : Few n s.allocFails := by
  unfold Srv.allocFails
  split_ifs
  · refine ⟨h.1.trans (Nat.le_succ _), fun hlt => ?_⟩
    have hlt' : s.pool.serial + 1 < 2 ^ 32 := hlt
    have hs := h.2 (by omega)
    refine ⟨hlt, ?_, hs.distinct, fun d hd hl => (hs.live d hd hl).mono (Nat.le_succ _), hs.free,
      fun op hop => (hs.ops op hop).mono (Nat.le_succ _), fun a ha => Nat.lt_succ_of_lt (hs.acts a ha)⟩
    show (s.pool.nextId + 1) % 2 ^ 32 = (s.pool.serial + 1 + 1) % 2 ^ 32
    rw [hs.nextId]
    omega
  · exact h

theorem few_refuse (h : Few n m.srv) (hn : m.refuse env = some m') :
    Few n m'.srv ∧ m'.posted = m.posted := by
  unfold Machine.refuse at hn
  split at hn
  · next pos _ _ cqe _ _ =>
    split_ifs at hn with hcode
    cases hn
    have hquiet : Few n (m.srv.retire cqe) :=
      (few_rule env n).quiet _ _ (quiet_retire m.srv (by rw [hcode.1]; rfl)) h
    refine ⟨?_, (sameQueue_advance _).1⟩
    rw [advance_srv]
    exact (few_rule env n).toHandleRule.onAccept hquiet.allocFails fun _ => trivial
  · cases hn

/-- While few ids were given out, every completion in the queue tells by its id
which connection it is for. -/
structure Tagged (m : Machine ω τ) : Prop where
  numbered : Numbered m.srv
  posted : ∀ cqe ∈ m.posted, cqe.op.code.ofConn = true → IdOf m.srv.pool.serial cqe.op.serial cqe.op.id

theorem Tagged.start (maxConns : ℕ) (listenFd signalFd : ℤ) (world : ω) :
    Tagged (Machine.start maxConns listenFd signalFd world : Machine ω τ) :=
  ⟨Numbered.start .., fun cqe hc => by cases hc⟩

theorem Tagged.post (h : Tagged m) {cqe : Cqe} (hc : m.Answers cqe) :
    Tagged { m with posted := m.posted ++ [cqe] } := by
  refine ⟨h.numbered, fun c hm hop => ?_⟩
  obtain hm | hm := List.mem_append.mp hm
  · exact h.posted c hm hop
  · rw [List.mem_singleton.mp hm] at hop ⊢
    exact h.numbered.ops _ (mem_connOps.mpr ⟨List.mem_append_right _ hc.1, hop⟩)

theorem Tagged.keep (h : Tagged m) (hp : m'.posted = m.posted)
    (hfew : Few m.srv.pool.serial m'.srv) (hlt : m'.srv.pool.serial < 2 ^ 32) : Tagged m' := by
  refine ⟨hfew.2 hlt, fun cqe hc hop => ?_⟩
  rw [hp] at hc
  exact (h.posted cqe hc hop).mono hfew.1

theorem few_next (h : Few n m.srv) (hn : m.nextRun env ev = some m') :
    Few n m'.srv ∧ (m'.posted = m.posted ∨ ∃ cqe, m.Answers cqe ∧
      m' = { m with posted := m.posted ++ [cqe] }) := by
  cases ev with
  | loop ev =>
    have hany : m.next env ev = some m' := hn
    refine ⟨(few_rule env n).step (fun _ _ _ ht => ht) h
      ⟨fun _ cqe _ => by unfold okCqe; split <;> simp, fun _ => trivial⟩ (srvStep_next hany), ?_⟩
    obtain hp | ⟨cqe, _, hc, he⟩ := next_posted hany
    · exact .inl hp
    · exact .inr ⟨cqe, hc, he⟩
  | mallocFails =>
    obtain ⟨hsrv, hp⟩ := few_refuse h hn
    exact ⟨hsrv, .inl hp⟩

theorem Tagged.next (h : Tagged m)
    (hn : m.nextRun env ev = some m') (hlt : m'.srv.pool.serial < 2 ^ 32) : Tagged m' := by
  obtain ⟨hfew, hp | ⟨cqe, hc, rfl⟩⟩ :=
    few_next (n := m.srv.pool.serial) ⟨le_rfl, fun _ => h.numbered⟩ hn
  · exact h.keep hp hfew hlt
  · exact h.post hc

theorem tagged_of_run {world : ω}
    (h : Reaches (Machine.nextRun env) (fun _ _ => True)
      (Machine.start maxConns listenFd signalFd world) m)
    (hlt : m.srv.pool.serial < 2 ^ 32) : Tagged m := by
  refine h.invariant (fun m => m.srv.pool.serial < 2 ^ 32 → Tagged m) (fun _ => Tagged.start ..)
    (fun m ev m' hi _ hn hlt' => ?_) hlt
  by_cases hm : m.srv.pool.serial < 2 ^ 32
  · exact (hi hm).next hn hlt'
  · -- ids that were given out stay so
    have hfew := (few_next (n := m.srv.pool.serial) ⟨le_rfl, fun hlt => absurd hlt hm⟩ hn).1
    exact absurd (hfew.1.trans_lt hlt') hm

/-- **A completion finds the connection that has asked for it, or none.** In every
run, also one with drains inside of walks, while fewer than `2 ^ 32` ids were given
out: if the id of a completion leads to a slot, the slot has the very connection
that the operation was prepared for, and no other slot changes; else no slot
changes. -/
theorem completion_finds_own {env : Env ω τ} {maxConns : ℕ} {listenFd signalFd : ℤ} {world : ω}
    {m m' : Machine ω τ}
    (h : Reaches (Machine.nextRun env) (fun _ _ => True)
      (Machine.start maxConns listenFd signalFd world) m)
    (hlt : m.srv.pool.serial < 2 ^ 32) {cqe : Cqe} (hcur : m.current = some cqe)
    (hop : cqe.op.code.ofConn = true)
    (hn : m.nextRun env (.loop .step) = some m') :
    (∀ i, findConnById m.srv.pool cqe.op.id = some i →
      (∃ c, m.srv.pool.conns[i]? = some c ∧ c.Live ∧ c.serial = cqe.op.serial) ∧
        ∀ j, j ≠ i → m'.srv.pool.conns[j]? = m.srv.pool.conns[j]?) ∧
    (findConnById m.srv.pool cqe.op.id = none → m'.srv.pool = m.srv.pool) := by
  have htag := tagged_of_run h hlt
  have hhandle : onConn env (m.srv.retire cqe) cqe = some m'.srv := by
    have hne : cqe.op.code ≠ .signal := by
      intro hs
      rw [hs] at hop
      cases hop
    have hh := step_handle hcur hne hn
    unfold handle at hh
    cases hc : cqe.op.code <;> rw [hc] at hh hop <;> first | exact hh | cases hop
  unfold onConn at hhandle
  refine ⟨fun i hi => ?_, fun hnone => ?_⟩
  · obtain ⟨c, hc, hl, hid⟩ := findConnById_some hi
    refine ⟨⟨c, hc, hl, ?_⟩, fun j hj => ?_⟩
    · have hown := htag.posted cqe (current_posted hcur) hop
      rw [← hid] at hown
      exact (htag.numbered.live c (List.mem_of_getElem? hc) hl).inj hlt hown
    · rw [show findConnById (m.srv.retire cqe).pool cqe.op.id = some i from hi] at hhandle
      obtain ⟨d, _, hd⟩ := Option.bind_eq_some_iff.mp hhandle
      obtain ⟨w', _, he⟩ := Option.map_eq_some_iff.mp hd
      rw [← he]
      exact List.getElem?_set_ne (Ne.symm hj)
  · rw [show findConnById (m.srv.retire cqe).pool cqe.op.id = none from hnone] at hhandle
    rw [← Option.some.inj hhandle]
    rfl

/-- The first connection is closed, another one gets its slot, and then the timeout
of the first one completes. -/
def reuseEvents : List Event :=
  connectEvents ++
    [.call .waitFails, .post ⟨firstRecv, 0, [], false, 0⟩, .call .ready, .step, .step, .call .waitFails,
      .post ⟨⟨.close, 1, 4, 0, 0, 0, false⟩, 0, [], false, 0⟩, .post ⟨acceptOp, 5, [], true, 0⟩,
      .post ⟨firstTimeout, -ECANCELED, [], false, 0⟩, .call .ready, .step, .step]

theorem completion_finds_none :
    ∃ m m' : Machine Unit Unit, Reaches (Machine.nextRun plainEnv) (fun _ _ => True)
    (Machine.start 1 3 9 ()) m ∧
      m.current = some ⟨firstTimeout, -ECANCELED, [], false, 0⟩ ∧
      m.srv.pool.conns.map Conn.serial = [1] ∧
      m'.srv.pool = m.srv.pool := by
  obtain ⟨m, hm, hcur, hserial, hnone, hlt, hsome⟩ := exists_reaches (Machine.nextRun plainEnv)
    (fun _ _ => True) (Machine.start 1 3 9 ()) (reuseEvents.map .loop)
    (fun m => m.current = some ⟨firstTimeout, -ECANCELED, [], false, 0⟩ ∧
      m.srv.pool.conns.map Conn.serial = [1] ∧ findConnById m.srv.pool firstTimeout.id = none ∧
      m.srv.pool.serial < 2 ^ 32 ∧ (m.nextRun plainEnv (.loop .step)).isSome = true)
    (by decide +kernel)
  obtain ⟨m', hn⟩ := Option.isSome_iff_exists.mp hsome
  exact ⟨m, m', hm, hcur, hserial, (completion_finds_own hm hlt hcur rfl hn).2 hnone⟩

end Iohttp
