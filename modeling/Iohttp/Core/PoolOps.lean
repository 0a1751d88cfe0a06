/-
# The pool on its own

`ioh_conn_alloc`, `ioh_conn_transition` and `ioh_conn_free` of
`src/core/ioh_conn.c` in any order, with a `malloc` that may fail at any call.
A failed allocation has used up an id and leaves it in a slot that is free. The
counter follows the slots as long as no transition takes a free slot into use,
which the table of transitions allows and no counter sees.
-/
import Iohttp.Core.Conn
import Iohttp.Lib.Runs

namespace Iohttp

open Runs List

variable {τ : Type}

/-- `ioh_conn_alloc` with the answer of `malloc`. -/
def connAllocTry (p : Pool τ) : Option Bytes → Pool τ × Option ℕ
  | some memory =>
    match connAlloc p memory with
    | some (p', i) => (p', some i)
    | none => (p, none)
  | none =>
    match p.conns.findIdx? fun c => c.state = .free with
    | some i =>
      (⟨p.conns.set i { freeConn with id := p.nextId }, p.activeCount, (p.nextId + 1) % 2 ^ 32,
        p.serial + 1⟩, none)
    | none => (p, none)

/-- `ioh_conn_free` on a slot. -/
def Pool.freeSlot (p : Pool τ) (i : ℕ) : Pool τ :=
  { p with conns := p.conns.set i freeConn, activeCount := p.activeCount - 1 }

/-- A call. -/
inductive PoolOp where
  | alloc (malloc : Option Bytes)
  | transition (i : ℕ) (new : ConnState)
  | free (i : ℕ)

/-- The pool after a call. A slot is freed only if it is in use. -/
def Pool.next (p : Pool τ) : PoolOp → Option (Pool τ)
  | .alloc malloc => some (connAllocTry p malloc).1
  | .transition i new =>
    (p.conns[i]?).map fun c => { p with conns := p.conns.set i (connTransition c new).1 }
  | .free i => (p.conns[i]?).bind fun c => if c.Live then some (p.freeSlot i) else none

/-- No transition takes a free slot into use. -/
def LeavesFree (p : Pool τ) : PoolOp → Prop
  | .transition i new => ∀ c ∈ p.conns[i]?, c.state = .free → new ≠ .accepting
  | _ => True

instance instDecidableLeavesFree (p : Pool τ) : ∀ op, Decidable (LeavesFree p op)
  | .transition i new =>
    inferInstanceAs (Decidable (∀ c ∈ p.conns[i]?, c.state = .free → new ≠ .accepting))
  | .alloc _ | .free _ => isTrue trivial

/-! ### The slots in use -/

/-- The number of slots in use. -/
def Pool.inUse (p : Pool τ) : ℕ := p.conns.countP fun c => c.state ≠ .free

variable {conns : List (Conn τ)} {i maxConns : ℕ} {c x : Conn τ} {p : Pool τ}

theorem countP_set_live (hc : conns[i]? = some c) :
    (conns.set i x).countP (fun c => c.state ≠ .free) + (if c.state = .free then 0 else 1) =
      conns.countP (fun c => c.state ≠ .free) + if x.state = .free then 0 else 1 := by
  obtain ⟨hi, rfl⟩ := List.getElem?_eq_some_iff.mp hc
  rw [countP_set hi]
  by_cases hl : conns[i].state = .free
  · by_cases hx : x.state = .free <;> simp [hl, hx]
  · have hpos : 0 < conns.countP fun c => c.state ≠ .free :=
      countP_pos_iff.mpr ⟨conns[i], getElem_mem hi, decide_eq_true hl⟩
    rw [if_pos (decide_eq_true hl), if_neg hl]
    by_cases hx : x.state = .free
    · rw [if_neg (by simp [hx]), if_pos hx]
      omega
    · rw [if_pos (decide_eq_true hx), if_neg hx]
      omega

/-- The counter, the ids and the slots agree. -/
structure Accounted (maxConns : ℕ) (p : Pool τ) : Prop where
  size : p.conns.length = maxConns
  count : p.activeCount = p.inUse
  nextId : p.nextId = (p.serial + 1) % 2 ^ 32
  distinct : LiveDistinct Conn.serial p.conns
  live : ∀ c ∈ p.conns, c.Live → IdOf p.serial c.serial c.id

theorem Accounted.create (maxConns : ℕ) : Accounted maxConns (connPoolCreate maxConns : Pool τ) := by
  have hdead : ∀ c ∈ List.replicate maxConns (freeConn : Conn τ), c.state = .free := fun c hc => by
    rw [eq_of_mem_replicate hc]
    rfl
  refine ⟨length_replicate, ?_, rfl, ?_, fun c hc hl => absurd (hdead c hc) hl⟩
  · refine (countP_eq_zero.mpr fun c hc => ?_).symm
    simpa using hdead c hc
  · intro i j c d hc _ hl
    exact absurd (hdead c (mem_of_getElem? hc)) hl

theorem findIdx?_free (h : (conns.findIdx? fun c => c.state = .free) = some i) :
    ∃ c, conns[i]? = some c ∧ c.state = .free := by
  obtain ⟨hi, hc, _⟩ := findIdx?_eq_some_iff_getElem.mp h
  exact ⟨_, getElem?_eq_getElem hi, of_decide_eq_true hc⟩

theorem Accounted.set (h : Accounted maxConns p) {n id : ℕ}
    (hc : p.conns[i]? = some c) {count : ℕ}
    (hcount : count + (if c.state = .free then 0 else 1) = p.activeCount + if x.state =
      .free then 0 else 1)
    (hn : p.serial ≤ n) (hid : id = (n + 1) % 2 ^ 32)
    (distinct : LiveDistinct Conn.serial (p.conns.set i x)) (hx : x.Live → IdOf n x.serial x.id) :
    Accounted maxConns ⟨p.conns.set i x, count, id, n⟩ := by
  refine ⟨length_set.trans h.size, ?_, hid, distinct, fun d hd hl => ?_⟩
  · have hset := countP_set_live (x := x) hc
    have hold := h.count
    unfold Pool.inUse at hold ⊢
    simp only
    omega
  · obtain hd | rfl := mem_or_eq_of_mem_set hd
    · exact (h.live d hd hl).mono hn
    · exact hx hl

theorem Accounted.alloc (h : Accounted maxConns p) (malloc : Option Bytes) :
    Accounted maxConns (connAllocTry p malloc).1 := by
  have hnext : (p.nextId + 1) % 2 ^ 32 = (p.serial + 1 + 1) % 2 ^ 32 := by
    rw [h.nextId]
    omega
  have hnew : ∀ (i : ℕ) (x : Conn τ), (x.Live → x.serial = p.serial) → LiveDistinct Conn.serial
      (p.conns.set i x) := by
    intro i x hx
    refine h.distinct.set fun hl j d _ hd hdl he => ?_
    rw [hx hl] at he
    exact absurd he (h.live d (mem_of_getElem? hd) hdl).1.ne
  cases malloc with
  | some memory =>
    unfold connAllocTry connAlloc
    cases hfind : p.conns.findIdx? fun c => c.state = .free with
    | none => exact h
    | some i =>
      obtain ⟨c, hc, hfree⟩ := findIdx?_free hfind
      refine h.set hc ?_ (Nat.le_succ _) hnext (hnew i _ fun _ => rfl) fun _ =>
        ⟨Nat.lt_succ_self _, h.nextId⟩
      rw [if_pos hfree]
      rfl
  | none =>
    unfold connAllocTry
    cases hfind : p.conns.findIdx? fun c => c.state = .free with
    | none => exact h
    | some i =>
      obtain ⟨c, hc, hfree⟩ := findIdx?_free hfind
      refine h.set hc ?_ (Nat.le_succ _) hnext (hnew i _ fun hl => absurd rfl hl) fun hl => absurd rfl hl
      rw [if_pos hfree]
      rfl

theorem connTransition_live (c : Conn τ) (new : ConnState) :
    (connTransition c new).1.id = c.id ∧ (connTransition c new).1.serial = c.serial ∧
      (c.Live → (connTransition c new).1.Live) := by
  unfold connTransition
  split_ifs with hnew
  · refine ⟨rfl, rfl, fun _ hfree => ?_⟩
    have hnew' : new = .free := hfree
    rw [hnew'] at hnew
    cases hs : c.state <;> rw [hs] at hnew <;> exact absurd hnew (by decide)
  · exact ⟨rfl, rfl, id⟩

/-- **One call keeps the accounts**, unless it takes a free slot into use behind the counter's back. -/
theorem Accounted.next {p' : Pool τ} (h : Accounted maxConns p) {op : PoolOp}
    (hop : LeavesFree p op) (hn : p.next op = some p') : Accounted maxConns p' := by
  cases op with
  | alloc malloc =>
    cases hn
    exact h.alloc malloc
  | transition i new =>
    obtain ⟨c, hc, rfl⟩ := Option.map_eq_some_iff.mp hn
    obtain ⟨hid, hserial, hlive⟩ := connTransition_live c new
    by_cases hfree : c.state = .free
    · -- nothing else is possible from FREE, so the transition is refused
      have hsame : (connTransition c new).1 = c := by
        have hnew : new ∉ validTransitions c.state := by
          rw [hfree]
          exact fun hmem => hop c hc hfree (mem_singleton.mp hmem)
        rw [connTransition, if_neg hnew]
      rw [hsame]
      refine h.set hc rfl le_rfl h.nextId (h.distinct.set fun hl => absurd hfree hl) fun hl =>
        absurd hfree hl
    · refine h.set hc ?_ le_rfl h.nextId (h.distinct.replace hc hfree fun _ => hserial) fun _ => ?_
      · rw [if_neg hfree, if_neg (hlive hfree)]
      · rw [hid, hserial]
        exact h.live c (mem_of_getElem? hc) hfree
  | free i =>
    obtain ⟨c, hc, hfree⟩ := Option.bind_eq_some_iff.mp hn
    by_cases hl : c.Live
    · rw [if_pos hl] at hfree
      cases hfree
      have hpos : 0 < p.activeCount := by
        rw [h.count]
        exact countP_pos_iff.mpr ⟨c, mem_of_getElem? hc, decide_eq_true hl⟩
      refine h.set hc ?_ le_rfl h.nextId (h.distinct.set fun hl' => absurd rfl hl') fun hl' =>
        absurd rfl hl'
      rw [if_neg hl]
      show p.activeCount - 1 + 1 = p.activeCount + 0
      omega
    · rw [if_neg hl] at hfree
      cases hfree

/-- **The accounts of a pool.** After any calls, with memory or without, none of
which takes a free slot into use by a transition, the counter is the number of
slots in use and these fit; an allocation that gets its memory fails exactly if no
slot is free; and while fewer than `2 ^ 32` ids were given out, no two slots in
use have the same id and none has the id 0. -/
theorem pool_accounting (maxConns : ℕ) {p : Pool τ}
    (h : Reaches Pool.next LeavesFree (connPoolCreate maxConns) p) :
    p.activeCount = (p.conns.countP fun c => c.state ≠ .free) ∧ p.activeCount ≤ maxConns ∧
    (∀ memory, (connAllocTry p (some memory)).2 = none ↔ ∀ c ∈ p.conns, c.state ≠ .free) ∧
    (p.serial < 2 ^ 32 → LiveDistinct Conn.id p.conns ∧ ∀ c ∈ p.conns, c.Live → c.id ≠ 0) := by
  have hacc : Accounted maxConns p :=
    h.invariant (Accounted maxConns) (Accounted.create maxConns) fun _ _ _ hp hop hn => hp.next hop hn
  refine ⟨hacc.count, ?_, fun memory => ?_, fun hfew => ⟨?_, fun c hc hl => ?_⟩⟩
  · rw [hacc.count, ← hacc.size]
    exact countP_le_length
  · unfold connAllocTry connAlloc
    cases hfind : p.conns.findIdx? fun c => c.state = .free with
    | none =>
      refine iff_of_true rfl fun c hc => ?_
      exact of_decide_eq_false (findIdx?_eq_none_iff.mp hfind c hc)
    | some i =>
      obtain ⟨c, hc, hfree⟩ := findIdx?_free hfind
      refine iff_of_false (fun hnone => by cases hnone) fun hall => ?_
      exact hall c (mem_of_getElem? hc) hfree
  · intro i j c d hc hd hcl hdl hid
    have hcid := hacc.live c (mem_of_getElem? hc) hcl
    rw [hid] at hcid
    exact hacc.distinct i j c d hc hd hcl hdl (hcid.inj hfew (hacc.live d (mem_of_getElem? hd) hdl))
  · obtain ⟨hlt, hid⟩ := hacc.live c hc hl
    omega

/-- The table of transitions leads from FREE to ACCEPTING. -/
theorem transition_uncounted :
    ((connPoolCreate 1 : Pool Unit).next (.transition 0 .accepting)).map
      (fun p => (p.activeCount, p.inUse, p.conns.map Conn.id)) = some (0, 1, [0]) := by
  decide

theorem pool_accounting_two :
    ∃ p : Pool Unit, (p.serial = 2 ∧ p.activeCount = 1) ∧ LiveDistinct Conn.id p.conns ∧
      ∀ c ∈ p.conns, c.Live → c.id ≠ 0 := by
  obtain ⟨p, hp, hq⟩ := exists_reaches Pool.next LeavesFree (connPoolCreate 2 : Pool Unit)
    [.alloc none, .alloc (some []), .transition 0 .httpActive]
    (fun p => p.serial = 2 ∧ p.activeCount = 1) (by decide)
  exact ⟨p, hq, (pool_accounting 2 hp).2.2.2 (by rw [hq.1]; decide)⟩

end Iohttp
