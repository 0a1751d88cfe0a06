/-
# The request context

`src/core/ioh_ctx.c`: values that are kept under keys, each with the destructor
that is to be called on it, and strings in the arena. A destructor that was
called is noted with its value.

A value that is set under a key that is in use takes the place of the old one,
whose destructor is not called. A block stays where it is until the arena
grows: `realloc` may then return another buffer, and the pointers into the old
one are not changed. That holds for the request id as well, which is the first
string in the arena.
-/
import Iohttp.Core.CtxArena
import Iohttp.Core.Dispatch

namespace Iohttp

open Memory (Mem overwrite)
open Runs List

/-- `IOH_CTX_MAX_VALUES`. -/
abbrev ctxMaxValues : ℕ := 16

/-- `ioh_ctx_value_t`; `α` are the values, `δ` the destructors. -/
structure CtxValue (α δ : Type) where
  key : Bytes
  value : Option α
  destructor : Option δ
  deriving DecidableEq, Repr

/-- `ioh_ctx_t`, with the calls of destructors so far. -/
structure Context (α δ : Type) where
  values : List (CtxValue α δ)
  arena : CtxArena
  aborted : Bool
  destroyed : List (δ × α)

variable {α δ : Type}

/-- `ioh_ctx_init`. -/
def contextInit (H : Heap) : Context α δ := ⟨[], ctxArenaInit H, false, []⟩

/-- The call of the destructor, if there is one and a value for it. -/
def CtxValue.due (v : CtxValue α δ) : List (δ × α) :=
  match v.destructor, v.value with
  | some d, some x => [(d, x)]
  | _, _ => []

/-- `ioh_ctx_reset`. -/
def ctxReset (c : Context α δ) : Context α δ :=
  ⟨[], { c.arena with used := 0 }, false, c.destroyed ++ c.values.flatMap CtxValue.due⟩

/-- `ioh_ctx_destroy`. -/
def ctxDestroy (c : Context α δ) : Context α δ :=
  let c := ctxReset c
  { c with arena := { c.arena with mem := c.arena.mem.kill c.arena.base, size := 0 } }

def ctxReplace (key : Bytes) (value : Option α) (dtor : Option δ) :
    List (CtxValue α δ) → Option (List (CtxValue α δ))
  | [] => none
  | v :: vs =>
    if v.key = key then some ({ v with value := value, destructor := dtor } :: vs)
    else (ctxReplace key value dtor vs).map (v :: ·)

/-- `ioh_ctx_set_with_destructor`. -/
def ctxSetWithDestructor (c : Context α δ) (key : Option Bytes) (value : Option α) (dtor : Option δ) :
    Context α δ × ℤ :=
  match key with
  | none => (c, -EINVAL)
  | some key =>
    match ctxReplace key value dtor c.values with
    | some values => ({ c with values := values }, 0)
    | none =>
      if c.values.length ≥ ctxMaxValues then (c, -ENOSPC)
      else ({ c with values := c.values ++ [⟨key, value, dtor⟩] }, 0)

/-- `ioh_ctx_set`. -/
def ctxSet (c : Context α δ) (key : Option Bytes) (value : Option α) : Context α δ × ℤ :=
  ctxSetWithDestructor c key value none

/-- `ioh_ctx_get`. -/
def ctxGet (c : Context α δ) (key : Bytes) : Option α := (c.values.find? (·.key = key)).bind (·.value)

/-! ### Destructors -/

/-- The calls that set a value, which is not null if it has a destructor, and the reset. -/
inductive ValueCall (α δ : Type) where
  | set (key : Option Bytes) (value : Option α)
  | setWithDestructor (key : Option Bytes) (value : α) (dtor : Option δ)
  | reset

def ValueCall.apply (c : Context α δ) : ValueCall α δ → Context α δ × ℤ
  | .set key value => ctxSet c key value
  | .setWithDestructor key value dtor => ctxSetWithDestructor c key (some value) dtor
  | .reset => (ctxReset c, 0)

/-- The value that a call of `ioh_ctx_set_with_destructor` is given. -/
def ValueCall.given : ValueCall α δ → List α
  | .setWithDestructor _ value _ => [value]
  | _ => []

def ValueCall.acquires (c : Context α δ) : ValueCall α δ → List (δ × α)
  | .setWithDestructor key value (some d) =>
    if (ctxSetWithDestructor c key (some value) (some d)).2 = 0 then [(d, value)] else []
  | _ => []

/-- The value under a key that is in use, if it has a destructor. -/
def dueUnder (c : Context α δ) (key : Option Bytes) : List (δ × α) :=
  key.toList.flatMap fun k => (c.values.find? (·.key = k)).toList.flatMap CtxValue.due

def ValueCall.replaces (c : Context α δ) : ValueCall α δ → List (δ × α)
  | .set key _ | .setWithDestructor key _ _ => dueUnder c key
  | .reset => []

def runValues (c : Context α δ) (calls : List (ValueCall α δ)) : Context α δ :=
  calls.foldl (fun c call => (call.apply c).1) c

/-- What calls that succeed give to the context, to be destroyed. -/
def acquired (c : Context α δ) : List (ValueCall α δ) → List (δ × α)
  | [] => []
  | call :: calls => call.acquires c ++ acquired (call.apply c).1 calls

def replaced (c : Context α δ) : List (ValueCall α δ) → List (δ × α)
  | [] => []
  | call :: calls => call.replaces c ++ replaced (call.apply c).1 calls

variable {v : Option α}

section
variable {c : Context α δ} {key : Bytes} {value : α} {dtor : Option δ} {calls : List (ValueCall α δ)}

theorem due_ctxReplace :
    ∀ {vs vs' : List (CtxValue α δ)}, ctxReplace key v dtor vs = some vs' →
    (vs'.flatMap CtxValue.due ++ (vs.find? (·.key = key)).toList.flatMap CtxValue.due).Perm
      (CtxValue.due ⟨key, v, dtor⟩ ++ vs.flatMap CtxValue.due)
  | [], _, h => by cases h
  | w :: vs, vs', h => by
    rw [ctxReplace] at h
    by_cases hkey : w.key = key
    · rw [if_pos hkey] at h
      cases h
      simp only [find?_cons, hkey, decide_true, flatMap_cons, Option.toList_some, flatMap_nil,
        append_nil, append_assoc]
      exact List.Perm.append_left _ perm_append_comm
    · rw [if_neg hkey, Option.map_eq_some_iff] at h
      obtain ⟨vs'', h, rfl⟩ := h
      simp only [find?_cons, hkey, decide_false, flatMap_cons, append_assoc]
      exact (List.Perm.append_left _ (due_ctxReplace h)).trans (perm_append_comm_assoc _ _ _)

theorem find?_of_ctxReplace_none :
    ∀ {vs : List (CtxValue α δ)}, ctxReplace key v dtor vs = none →
    vs.find? (·.key = key) = none
  | [], _ => rfl
  | w :: vs, h => by
    rw [ctxReplace] at h
    split at h
    · cases h
    case isFalse hkey =>
      rw [Option.map_eq_none_iff] at h
      rw [find?_cons, decide_eq_false hkey]
      exact find?_of_ctxReplace_none h

def Context.ledger (c : Context α δ) : List (δ × α) := c.destroyed ++ c.values.flatMap CtxValue.due

/-- A call that sets a value fails and changes nothing, or the value is due next to the
others, without the one it replaces. -/
theorem ctxSetWithDestructor_cases (c : Context α δ) (k : Option Bytes) (v : Option α)
    (dtor : Option δ) :
    (∃ rc, rc ≠ 0 ∧ ctxSetWithDestructor c k v dtor = (c, rc) ∧ dueUnder c k = []) ∨
    ∃ key vs, ctxSetWithDestructor c k v dtor = ({ c with values := vs }, 0) ∧
      (vs.flatMap CtxValue.due ++ dueUnder c k).Perm
      (CtxValue.due ⟨key, v, dtor⟩ ++ c.values.flatMap CtxValue.due) := by
  cases k with
  | none => exact .inl ⟨-EINVAL, by decide, rfl, rfl⟩
  | some key =>
    have hdue : dueUnder c (some key) = (c.values.find? (·.key = key)).toList.flatMap CtxValue.due := by
      simp [dueUnder]
    rw [hdue, ctxSetWithDestructor]
    split
    case h_1 vs h => exact .inr ⟨key, vs, rfl, due_ctxReplace h⟩
    case h_2 h =>
      rw [find?_of_ctxReplace_none h]
      split
      · exact .inl ⟨-ENOSPC, by decide, rfl, rfl⟩
      · refine .inr ⟨key, _, rfl, ?_⟩
        simp only [flatMap_append, flatMap_cons, flatMap_nil, append_nil, Option.toList_none]
        exact perm_append_comm

/-- **One call**: what it gives to the context is added to the ledger, and what it replaces
is lost from it. -/
theorem ledger_apply (c : Context α δ) (call : ValueCall α δ) :
    ((call.apply c).1.ledger ++ call.replaces c).Perm (call.acquires c ++ c.ledger) := by
  have hset : ∀ key value dtor, ((ctxSetWithDestructor c key value dtor).1.ledger ++ dueUnder c key).Perm
      ((if (ctxSetWithDestructor c key value dtor).2 = 0 then CtxValue.due ⟨[], value, dtor⟩
        else []) ++ c.ledger) := by
    intro key value dtor
    obtain ⟨rc, hrc, h, hdue⟩ | ⟨key', vs, h, hperm⟩ := ctxSetWithDestructor_cases c key value dtor
    · simp [h, hrc, hdue]
    · rw [h, if_pos rfl, Context.ledger, Context.ledger, append_assoc]
      exact (hperm.append_left _).trans (perm_append_comm_assoc _ _ _)
  cases call with
  | set key value =>
    have h := hset key value none
    rwa [CtxValue.due, ite_self] at h
  | setWithDestructor key value dtor =>
    have h := hset key (some value) dtor
    cases dtor with
    | none => rwa [CtxValue.due, ite_self] at h
    | some d => exact h
  | reset => simp [ValueCall.apply, ValueCall.replaces, ValueCall.acquires, ctxReset, Context.ledger]

/-- **A whole run**: what the calls have given to the context is destroyed, due or replaced. -/
theorem acquired_perm : ∀ (calls : List (ValueCall α δ)) (c : Context α δ),
    ((runValues c calls).ledger ++ replaced c calls).Perm (acquired c calls ++ c.ledger)
  | [], c => by simp [runValues, replaced, acquired]
  | call :: calls, c => by
    have ih := acquired_perm calls (call.apply c).1
    rw [replaced, acquired]
    -- what the first call replaces is moved to the end, and back to where the call is
    refine (perm_append_comm_assoc _ _ _).trans ((ih.append_left _).trans ?_)
    refine (perm_append_comm_assoc _ _ _).trans ?_
    rw [append_assoc]
    refine .trans (.append_left _ (perm_append_comm.trans (ledger_apply c call))) ?_
    exact perm_append_comm_assoc _ _ _

theorem acquired_sublist : ∀ (calls : List (ValueCall α δ)) (c : Context α δ),
    ((acquired c calls).map Prod.snd).Sublist (calls.flatMap ValueCall.given)
  | [], _ => by simp [acquired]
  | call :: calls, c => by
    rw [acquired, map_append, flatMap_cons]
    refine .append ?_ (acquired_sublist calls _)
    cases call with
    | setWithDestructor key value dtor =>
      cases dtor with
      | none => simp [ValueCall.acquires]
      | some d =>
        rw [ValueCall.acquires, ValueCall.given]
        split <;> simp
    | set | reset => simp [ValueCall.acquires]

theorem filter_eq_singleton_of_nodup [DecidableEq α] {l : List (δ × α)} {p : δ × α}
    (h : (l.map Prod.snd).Nodup) (hp : p ∈ l) : l.filter (fun q => q.2 = p.2) = [p] := by
  rw [← perm_singleton]
  refine (perm_ext_iff_of_nodup (h.of_map.filter _) (nodup_singleton p)).mpr fun q => ?_
  rw [mem_filter, decide_eq_true_iff, mem_singleton]
  constructor
  · rintro ⟨hq, he⟩
    exact inj_on_of_nodup_map h hq hp he
  · rintro rfl
    exact ⟨hp, rfl⟩

/-- **When values are destroyed exactly once**: of the values that calls have set with a
destructor, each has that one called on it, and no other, exactly once by the end, if and
only if no call has replaced a value with a destructor. -/
theorem values_destroyed_once_iff [DecidableEq α] (H : Heap) (calls : List (ValueCall α δ))
    (hnodup : (calls.flatMap ValueCall.given).Nodup) :
    (∀ p ∈ acquired (contextInit H) calls,
      (ctxDestroy (runValues (contextInit H) calls)).destroyed.filter (fun q => q.2 = p.2) = [p]) ↔
    replaced (contextInit H) calls = [] := by
  have hperm : ((ctxDestroy (runValues (contextInit H) calls)).destroyed ++ replaced (contextInit H)
    calls).Perm
      (acquired (contextInit H) calls) := by
    have h := acquired_perm calls (contextInit H)
    rwa [show (contextInit H : Context α δ).ledger = [] from rfl, append_nil] at h
  have hvalues :=
    (hperm.map Prod.snd).nodup_iff.mpr ((acquired_sublist calls (contextInit H)).nodup hnodup)
  generalize (ctxDestroy (runValues (contextInit H) calls)).destroyed = destroyed at *
  generalize replaced (contextInit H) calls = lost at *
  rw [map_append, nodup_append] at hvalues
  constructor
  · intro honce
    refine eq_nil_iff_forall_not_mem.mpr fun p hp => ?_
    have hmem : p ∈ destroyed.filter (fun q => q.2 = p.2) := by
      rw [honce p (hperm.mem_iff.mp (mem_append_right _ hp))]
      exact mem_singleton_self p
    have hd := mem_map_of_mem (f := Prod.snd) (mem_of_mem_filter hmem)
    exact hvalues.2.2 _ hd _ (mem_map_of_mem hp) rfl
  · rintro rfl p hp
    rw [append_nil] at hperm
    exact filter_eq_singleton_of_nodup hvalues.1 (hperm.mem_iff.mpr hp)

theorem values_destroyed_once_two_keys :
    (ctxDestroy (runValues (contextInit shiftingHeap) [.setWithDestructor (some (bytes "a")) 1 (some 7),
      .setWithDestructor (some (bytes "b")) 2 (some 7)])).destroyed.filter (fun q => q.2 = 1) =
      [(7, 1)] :=
  (values_destroyed_once_iff shiftingHeap [.setWithDestructor (some (bytes "a")) 1 (some 7),
    .setWithDestructor (some (bytes "b")) 2 (some 7)] (by decide)).mpr (by decide +kernel) (7, 1)
    (by decide +kernel)

/-- A value that is replaced: its destructor is never called. -/
theorem replaced_value_not_destroyed :
    acquired (contextInit shiftingHeap) [.setWithDestructor (some (bytes "k")) 1 (some 7),
      .set (some (bytes "k")) (some 2)] = [(7, 1)] ∧
    (ctxDestroy (runValues (contextInit shiftingHeap) [.setWithDestructor (some (bytes "k")) 1 (some 7),
      .set (some (bytes "k")) (some 2)])).destroyed = [] := by
  decide +kernel

end

/-! ### Blocks -/

/-- `ioh_ctx_sprintf`; the text is what the format gives. -/
def ctxSprintf (H : Heap) (fuel : ℕ) (a : CtxArena) (text : Bytes) :
    Option (CtxArena × Option Memory.Ptr) :=
  (ctxAlloc H fuel a (text.length + 1)).map fun r =>
    match r.2 with
    | some p => ({ r.1 with mem := r.1.mem.write p (text ++ [0]) }, some p)
    | none => r

/-- `dispatch_request` makes a request id and stores it. -/
def storeRequestId (H : Heap) (fuel : ℕ) (c : Context Memory.Ptr δ) (id : Bytes) :
    Option (Context Memory.Ptr δ × Option Memory.Ptr) :=
  (ctxSprintf H fuel c.arena id).map fun r =>
    let c := { c with arena := r.1 }
    match r.2 with
    | some p => ((ctxSet c (some (bytes "request_id")) (some p)).1, some p)
    | none => (c, none)

/-- A block that was returned, with what was last written to it. -/
structure Held where
  ptr : Memory.Ptr
  size : ℕ
  contents : Bytes
  deriving DecidableEq, Repr

/-- The context, and the blocks that were returned since it was reset. -/
structure HoldRun (δ : Type) where
  ctx : Context Memory.Ptr δ
  held : List Held

/-- The calls that return a block, and a write to the `i`-th block that was returned. -/
inductive BlockCall where
  | alloc (size : ℕ)
  | allocAligned (size align : ℕ)
  | sprintf (text : Bytes)
  | requestId (id : Bytes)
  | write (i off : ℕ) (data : Bytes)
  deriving DecidableEq, Repr

def BlockCall.arenaCall : BlockCall → Option ArenaCall
  | .alloc size => some (.alloc size)
  | .allocAligned size align => some (.allocAligned size align)
  | .sprintf text | .requestId text => some (.alloc (text.length + 1))
  | .write .. => none

/-- A block whose contents are what lies in the arena. -/
def CtxArena.held (a : CtxArena) (size : ℕ) (p : Memory.Ptr) : Held :=
  ⟨p, size, (a.mem.load p size).getD []⟩

def holdNext (H : Heap) (fuel : ℕ) (s : HoldRun δ) : BlockCall → Option (HoldRun δ)
  | .alloc size =>
    (ctxAlloc H fuel s.ctx.arena size).map fun r =>
      ⟨{ s.ctx with arena := r.1 }, s.held ++ (r.2.map (r.1.held size)).toList⟩
  | .allocAligned size align =>
    (ctxAllocAligned H fuel s.ctx.arena size align).map fun r =>
      ⟨{ s.ctx with arena := r.1 }, s.held ++ (r.2.map (r.1.held size)).toList⟩
  | .sprintf text =>
    (ctxSprintf H fuel s.ctx.arena text).map fun r =>
      ⟨{ s.ctx with arena := r.1 }, s.held ++ (r.2.map (⟨·, text.length + 1, text ++ [0]⟩)).toList⟩
  | .requestId id =>
    (storeRequestId H fuel s.ctx id).map fun r =>
      ⟨r.1, s.held ++ (r.2.map (⟨·, id.length + 1, id ++ [0]⟩)).toList⟩
  | .write i off data =>
    s.held[i]?.bind fun b =>
      if off + data.length ≤ b.contents.length then
        some ⟨{ s.ctx with arena :=
          { s.ctx.arena with mem := s.ctx.arena.mem.write (b.ptr.add off) data } },
          s.held.set i { b with contents := overwrite b.contents off data }⟩
      else none

/-- The block is in the arena's buffer, and reads as it was last written. -/
def Held.Intact (s : HoldRun δ) (b : Held) : Prop :=
  b.ptr.obj = s.ctx.arena.base ∧ s.ctx.arena.mem.load b.ptr b.size = some b.contents

/-- The end of the block that is asked for has 64 bits. Where the arena has to grow for
it, `realloc` does not move the buffer, unless there is no block yet and the padding at
the new address has room. -/
def Stays (H : Heap) (s : HoldRun δ) (call : BlockCall) : Prop :=
  ∀ c ∈ call.arenaCall, c.size ≠ 0 → s.ctx.arena.taken H c < 2 ^ 64 ∧
    (s.ctx.arena.size < s.ctx.arena.taken H c → H.moves s.ctx.arena.reallocs = true →
      s.held = [] ∧ HasRoom H s.ctx.arena c)

/-- Sizes have 64 bits, and alignments are powers of two. -/
def BlockCall.Words (call : BlockCall) : Prop := ∀ c ∈ call.arenaCall, Iohttp.Words c

/-- A context that was just reset. -/
structure Context.Fresh (c : Context α δ) : Prop where
  arena : c.arena.Ok
  used : c.arena.used = 0
  values : c.values = []

theorem fresh_contextInit (H : Heap) : (contextInit H : Context α δ).Fresh :=
  ⟨ok_ctxArenaInit H, rfl, rfl⟩

variable {a' : CtxArena} {b : Held}

section
variable {H : Heap} {fuel : ℕ} {s s' : HoldRun δ} {call : BlockCall} {c : ArenaCall}

theorem mem_ctxReplace {key : Bytes} {x : Option α} {dtor : Option δ} {v : CtxValue α δ} :
    ∀ {vs vs' : List (CtxValue α δ)}, ctxReplace key x dtor vs = some vs' → v ∈ vs' → v ∈ vs ∨
    v.value = x
  | [], _, h, _ => by cases h
  | w :: vs, vs', h, hv => by
    rw [ctxReplace] at h
    split at h
    · cases h
      obtain rfl | hv := mem_cons.mp hv
      · exact .inr rfl
      · exact .inl (mem_cons_of_mem _ hv)
    · rw [Option.map_eq_some_iff] at h
      obtain ⟨vs'', h, rfl⟩ := h
      obtain rfl | hv := mem_cons.mp hv
      · exact .inl mem_cons_self
      · exact (mem_ctxReplace h hv).imp_left (mem_cons_of_mem _)

theorem ctxSet_frame (c : Context α δ) (key : Bytes) (x : α) :
    (ctxSet c (some key) (some x)).1.arena = c.arena ∧
    ∀ v ∈ (ctxSet c (some key) (some x)).1.values, v ∈ c.values ∨ v.value = some x := by
  rw [ctxSet, ctxSetWithDestructor]
  split
  case h_1 vs h => exact ⟨rfl, fun v hv => mem_ctxReplace h hv⟩
  case h_2 =>
    split
    · exact ⟨rfl, fun v hv => .inl hv⟩
    · refine ⟨rfl, fun v hv => ?_⟩
      obtain hv | hv := mem_append.mp hv
      · exact .inl hv
      · rw [mem_singleton.mp hv]
        exact .inr rfl

/-- **What a call that asks the arena for a block does**: it returns null and changes nothing
else, or a block is held whose contents were found there or, without padding, are written
there. -/
theorem holdNext_cases (hc : call.arenaCall = some c) (h : holdNext H fuel s call = some s') :
    ∃ a' r, arenaCall H fuel s.ctx.arena c = some (a', r) ∧
      (r = none ∧ s'.ctx.arena = a' ∧ s'.held = s.held ∧ s'.ctx.values = s.ctx.values ∨
      ∃ p contents, r = some p ∧ s'.held = s.held ++ [⟨p, c.size, contents⟩] ∧
        (∀ v ∈ s'.ctx.values, v ∈ s.ctx.values ∨ v.value = some p) ∧
        (contents = (a'.mem.load p c.size).getD [] ∧ s'.ctx.arena = a' ∨ c.align = 1 ∧
          contents.length = c.size ∧ s'.ctx.arena = { a' with mem := a'.mem.write p contents })) := by
  cases call with
  | write => cases hc
  | alloc | allocAligned =>
    cases hc
    rw [holdNext, Option.map_eq_some_iff] at h
    obtain ⟨⟨a', r⟩, h, rfl⟩ := h
    refine ⟨a', r, h, ?_⟩
    cases r with
    | none => exact .inl ⟨rfl, rfl, append_nil _, rfl⟩
    | some p => exact .inr ⟨p, _, rfl, rfl, fun v hv => .inl hv, .inl ⟨rfl, rfl⟩⟩
  | sprintf text =>
    cases hc
    rw [holdNext, ctxSprintf, Option.map_map, Option.map_eq_some_iff] at h
    obtain ⟨⟨a', r⟩, h, rfl⟩ := h
    refine ⟨a', r, h, ?_⟩
    cases r with
    | none => exact .inl ⟨rfl, rfl, append_nil _, rfl⟩
    | some p =>
      exact .inr ⟨p, _, rfl, rfl, fun v hv => .inl hv, .inr ⟨rfl, by simp [ArenaCall.size], rfl⟩⟩
  | requestId id =>
    cases hc
    rw [holdNext, storeRequestId, ctxSprintf, Option.map_map, Option.map_map,
      Option.map_eq_some_iff] at h
    obtain ⟨⟨a', r⟩, h, rfl⟩ := h
    refine ⟨a', r, h, ?_⟩
    cases r with
    | none => exact .inl ⟨rfl, rfl, append_nil _, rfl⟩
    | some p =>
      have hset := ctxSet_frame { s.ctx with arena := { a' with mem := a'.mem.write p (id ++ [0]) } }
        (bytes "request_id") p
      exact .inr ⟨p, id ++ [0], rfl, rfl, hset.2, .inr ⟨rfl, by simp [ArenaCall.size], hset.1⟩⟩

theorem arenaCall_ne_reset (hc : call.arenaCall = some c) : c ≠ .reset := by
  cases call <;> cases hc <;> simp

/-- The blocks are intact and lie one behind the other, and the values point to them. -/
structure HoldRun.Ok (s : HoldRun δ) : Prop where
  arena : s.ctx.arena.Ok
  used : s.ctx.arena.used ≤ s.ctx.arena.size
  blocks : ∀ b ∈ s.held, b.ptr.off + b.size ≤ s.ctx.arena.used
  intact : ∀ b ∈ s.held, b.Intact s
  order : s.held.Pairwise fun b b' => b.ptr.off + b.size ≤ b'.ptr.off
  values : ∀ v ∈ s.ctx.values, ∀ p, v.value = some p → p ∈ s.held.map Held.ptr

theorem HoldRun.Ok.of_null (hs : s.Ok) (ha : a'.Ok) (hused : a'.used = s.ctx.arena.used)
    (hsize : a'.size = s.ctx.arena.size) (hmem : a'.mem = s.ctx.arena.mem)
    (hbase : a'.base = s.ctx.arena.base) (harena : s'.ctx.arena = a') (hheld : s'.held = s.held)
    (hvalues : s'.ctx.values = s.ctx.values) : s'.Ok where
  arena := harena ▸ ha
  used := by
    rw [harena, hused, hsize]
    exact hs.used
  blocks := by
    rw [harena, hheld, hused]
    exact hs.blocks
  intact := by
    intro b hb
    rw [hheld] at hb
    rw [Held.Intact, harena, hmem, hbase]
    exact hs.intact b hb
  order := by
    rw [hheld]
    exact hs.order
  values := by
    rw [hvalues, hheld]
    exact hs.values

theorem HoldRun.Ok.of_block {p : Memory.Ptr} {contents : Bytes} (hs : s.Ok) (ha : a'.Ok)
    (hused : a'.used ≤ a'.size) (hend : p.off + c.size = a'.used) (hp : p.obj = a'.base)
    (hoff : s.ctx.arena.used ≤ p.off)
    (hold : ∀ b ∈ s.held, b.ptr.obj = a'.base ∧ a'.mem.load b.ptr b.size = some b.contents)
    (hheld : s'.held = s.held ++ [⟨p, c.size, contents⟩])
    (hvalues : ∀ v ∈ s'.ctx.values, v ∈ s.ctx.values ∨ v.value = some p)
    (hcontents : contents = (a'.mem.load p c.size).getD [] ∧ s'.ctx.arena = a' ∨ c.align = 1 ∧
      contents.length = c.size ∧ s'.ctx.arena = { a' with mem := a'.mem.write p contents }) : s'.Ok := by
  obtain ⟨bytes, halive, hlen⟩ := ha.alive
  rw [← hp] at halive
  have hload := Mem.load_eq halive c.size
  rw [if_pos (by omega)] at hload
  -- the arena of the new state, whose memory may have been written to
  have harena : s'.ctx.arena.Ok ∧ s'.ctx.arena.base = a'.base ∧ s'.ctx.arena.used = a'.used ∧
      s'.ctx.arena.size = a'.size ∧ s'.ctx.arena.mem.load p c.size = some contents ∧
      ∀ b ∈ s.held, s'.ctx.arena.mem.load b.ptr b.size = some b.contents := by
    obtain ⟨rfl, h⟩ | ⟨-, hlength, h⟩ := hcontents
    · rw [h]
      refine ⟨ha, rfl, rfl, rfl, ?_, fun b hb => (hold b hb).2⟩
      rw [hload, Option.getD_some]
    · rw [h, ← hlength]
      refine ⟨⟨ha.size, ha.used, Mem.length_write p contents ha.alive, ha.base⟩,
        rfl, rfl, rfl, Mem.load_write_same halive (by omega), fun b hb => ?_⟩
      rw [Mem.load_write_apart (hp.trans (hold b hb).1.symm) (.inr ((hs.blocks b hb).trans hoff))]
      exact (hold b hb).2
  obtain ⟨hok, hbase, hused', hsize, hnew, hother⟩ := harena
  refine ⟨hok, by rwa [hused', hsize], ?_, ?_, ?_, ?_⟩
  · intro b hb
    rw [hheld, mem_append, mem_singleton] at hb
    rw [hused', ← hend]
    obtain hb | rfl := hb
    · exact (hs.blocks b hb).trans (hoff.trans (Nat.le_add_right _ _))
    · exact le_rfl
  · intro b hb
    rw [hheld, mem_append, mem_singleton] at hb
    obtain hb | rfl := hb
    · exact ⟨(hold b hb).1.trans hbase.symm, hother b hb⟩
    · exact ⟨hp.trans hbase.symm, hnew⟩
  · rw [hheld, pairwise_append]
    refine ⟨hs.order, pairwise_singleton _ _, fun b hb b' hb' => ?_⟩
    rw [mem_singleton.mp hb']
    exact (hs.blocks b hb).trans hoff
  · intro v hv q hq
    rw [hheld, map_append, mem_append]
    obtain hv | hv := hvalues v hv
    · exact .inl (hs.values v hv q hq)
    · exact .inr (mem_singleton.mpr (Option.some.inj (hq.symm.trans hv)))

theorem HoldRun.Ok.arenaCall (hs : s.Ok) (hc : call.arenaCall = some c) (hwords : Iohttp.Words c)
    (hstay : Stays H s call) (h : holdNext H fuel s call = some s') : s'.Ok := by
  obtain ⟨-, k, hk, halign⟩ := hwords
  obtain ⟨a', r, hcall, hcase⟩ := holdNext_cases hc h
  have ha' := (hs.arena.arenaCall halign hcall).1
  have hstay := hstay c hc
  have hcases :=
    arenaCall_cases hs.arena hk halign (fun hne => (hstay hne).1) (arenaCall_ne_reset hc) hcall
  obtain ⟨rfl, harena, hheld, hvalues⟩ | ⟨p, contents, rfl, hheld, hvalues, hcontents⟩ := hcase
  · obtain ⟨-, hused, hsize, hmem, hbase, -⟩ | ⟨-, _, -, -, -, hr⟩ := hcases
    · exact hs.of_null ha' hused hsize hmem hbase harena hheld hvalues
    · cases hr
  · obtain ⟨hr, -⟩ | ⟨hne, a₁, hq, hused, rfl, hp⟩ := hcases
    · cases hr
    · cases hp
      have hroom : HasRoom H s.ctx.arena c := fun hne hlt hr hm => ((hstay hne).2 hlt hm).2 hne hlt hr hm
      refine hs.of_block ha' ((hasRoom_iff hs.arena hne hq).mp hroom) rfl rfl (by dsimp only; omega)
        (fun b hb => ?_) hheld hvalues hcontents
      have hbase : a₁.base = s.ctx.arena.base := by
        refine (room_of_eq hq).base_eq fun hlt => Bool.eq_false_iff.mpr fun hm => ?_
        rw [((hstay hne).2 hlt hm).1] at hb
        cases hb
      obtain ⟨hobj, hload⟩ := hs.intact b hb
      refine ⟨hobj.trans hbase.symm, ?_⟩
      rw [← hload]
      exact (room_of_eq hq).load_eq hs.arena hbase hobj ((hs.blocks b hb).trans hs.used)

theorem Held.Intact.length (h : b.Intact s) : b.contents.length = b.size :=
  Mem.length_of_load h.2

theorem HoldRun.Ok.write {i off : ℕ} {data : Bytes} (hs : s.Ok)
    (h : holdNext H fuel s (.write i off data) = some s') : s'.Ok := by
  rw [holdNext, Option.bind_eq_some_iff] at h
  obtain ⟨b, hb, h⟩ := h
  split at h
  case isFalse => cases h
  case isTrue hle =>
    obtain ⟨hi, hget⟩ := List.getElem?_eq_some_iff.mp hb
    have hheld : s.held = s.held.take i ++ b :: s.held.drop (i + 1) := by
      rw [← hget, getElem_cons_drop, take_append_drop]
    rw [set_eq_take_append_cons_drop, if_pos hi] at h
    generalize s.held.take i = pre at hheld h
    generalize s.held.drop (i + 1) = post at hheld h
    cases h
    have horder := hs.order
    rw [hheld, pairwise_append, pairwise_cons] at horder
    have hin := hs.intact b (by simp [hheld])
    have hobj : ∀ x ∈ s.held, (b.ptr.add off).obj = x.ptr.obj := fun x hx =>
      hin.1.trans (hs.intact x hx).1.symm
    refine ⟨⟨hs.arena.size, hs.arena.used, Mem.length_write _ _ hs.arena.alive, hs.arena.base⟩,
      hs.used, ?_, ?_, ?_,
      ?_⟩
    · intro x hx
      rw [mem_append, mem_cons] at hx
      obtain hx | rfl | hx := hx
      · exact hs.blocks x (by simp [hheld, hx])
      · exact hs.blocks b (by simp [hheld])
      · exact hs.blocks x (by simp [hheld, hx])
    · intro x hx
      rw [mem_append, mem_cons] at hx
      obtain hx | rfl | hx := hx
      · have hmem : x ∈ s.held := by simp [hheld, hx]
        have hbefore := horder.2.2 x hx b mem_cons_self
        refine ⟨(hs.intact x hmem).1, ?_⟩
        rw [Mem.load_write_apart (hobj x hmem) (.inr (hbefore.trans (Nat.le_add_right _ _)))]
        exact (hs.intact x hmem).2
      · have hload := hin.2
        rw [← hin.length] at hload
        exact ⟨hin.1, hin.length ▸ Mem.load_write_part hload hle⟩
      · have hmem : x ∈ s.held := by simp [hheld, hx]
        have hbehind := horder.2.1.1 x hx
        rw [← hin.length] at hbehind
        refine ⟨(hs.intact x hmem).1, ?_⟩
        rw [Mem.load_write_apart (hobj x hmem) (.inl (by dsimp only [Memory.Ptr.add]; omega))]
        exact (hs.intact x hmem).2
    · rw [pairwise_append, pairwise_cons]
      refine ⟨horder.1, horder.2.1, fun x hx y hy => ?_⟩
      obtain rfl | hy := mem_cons.mp hy
      · exact horder.2.2 x hx b mem_cons_self
      · exact horder.2.2 x hx y (mem_cons_of_mem _ hy)
    · intro v hv p hp
      have := hs.values v hv p hp
      rw [hheld] at this
      simpa using this

/-- **One call** that does not move the buffer. -/
theorem HoldRun.Ok.next (hs : s.Ok) (hwords : call.Words) (hstay : Stays H s call)
    (h : holdNext H fuel s call = some s') : s'.Ok := by
  cases hc : call.arenaCall with
  | some c => exact hs.arenaCall hc (hwords c hc) hstay h
  | none =>
    cases call with
    | write i off data => exact hs.write h
    | alloc | allocAligned | sprintf | requestId => cases hc

/-- A block that is not in the arena's buffer any more, was not in it as a whole when it
was returned, or ends behind all buffers; later buffers have higher numbers. -/
def Held.Lost (s : HoldRun δ) (b : Held) : Prop :=
  (b.ptr.obj ≠ s.ctx.arena.base ∧ b.ptr.obj ≤ s.ctx.arena.reallocs) ∨ b.contents.length ≠ b.size ∨
    2 ^ 63 < b.ptr.off + b.size

theorem Held.Lost.not_intact (h : b.Lost s) (ha : s.ctx.arena.Ok) : ¬b.Intact s := by
  intro hin
  obtain h | h | h := h
  · exact h.1 hin.1
  · exact h hin.length
  · obtain ⟨j, hj, hsize⟩ := ha.size
    obtain ⟨bytes, halive, hlen⟩ := ha.alive
    have hload := hin.2
    rw [← hin.1] at halive
    have hle : 2 ^ j ≤ 2 ^ 63 := Nat.pow_le_pow_right (by omega) (by omega)
    rw [Mem.load_eq halive, if_neg (by omega)] at hload
    cases hload

def HoldRun.Lost (s : HoldRun δ) : Prop := s.ctx.arena.Ok ∧ ∃ b ∈ s.held, b.Lost s

/-- The blocks are where they were, and as long. -/
theorem holdNext_base (ha : s.ctx.arena.Ok) (hwords : call.Words)
    (h : holdNext H fuel s call = some s') :
    s'.ctx.arena.Ok ∧ s.ctx.arena.reallocs ≤ s'.ctx.arena.reallocs ∧
    (s'.ctx.arena.base = s.ctx.arena.base ∨ s'.ctx.arena.base = s.ctx.arena.reallocs + 1) ∧
    ∀ b ∈ s.held, ∃ b' ∈ s'.held, b'.ptr = b.ptr ∧ b'.size = b.size ∧
    b'.contents.length = b.contents.length := by
  cases hc : call.arenaCall with
  | some c =>
    obtain ⟨a', r, hcall, hcase⟩ := holdNext_cases hc h
    obtain ⟨hok', hre, hbase⟩ := ha.arenaCall (hwords c hc).2.choose_spec.2 hcall
    obtain ⟨-, harena, hheld, -⟩ | ⟨p, contents, -, hheld, -, ⟨-, harena⟩ | ⟨-, -, harena⟩⟩ := hcase
    · rw [harena, hheld]
      exact ⟨hok', hre, hbase, fun b hb => ⟨b, hb, rfl, rfl, rfl⟩⟩
    · rw [harena, hheld]
      exact ⟨hok', hre, hbase, fun b hb => ⟨b, mem_append_left _ hb, rfl, rfl, rfl⟩⟩
    · rw [harena, hheld]
      exact ⟨⟨hok'.size, hok'.used, Mem.length_write _ _ hok'.alive, hok'.base⟩, hre, hbase,
        fun b hb => ⟨b, mem_append_left _ hb, rfl, rfl, rfl⟩⟩
  | none =>
    cases call with
    | alloc | allocAligned | sprintf | requestId => cases hc
    | write i off data =>
      rw [holdNext, Option.bind_eq_some_iff] at h
      obtain ⟨b, hb, h⟩ := h
      split at h
      case isFalse => cases h
      case isTrue hle =>
        cases h
        refine ⟨⟨ha.size, ha.used, Mem.length_write _ _ ha.alive, ha.base⟩, le_rfl, .inl rfl,
          fun x hx => ?_⟩
        obtain ⟨j, hj⟩ := mem_iff_getElem?.mp hx
        have hi := (List.getElem?_eq_some_iff.mp hb).1
        by_cases hij : i = j
        · subst hij
          obtain rfl := Option.some.inj (hb.symm.trans hj)
          exact ⟨_, mem_iff_getElem?.mpr ⟨i, getElem?_set_self hi⟩, rfl, rfl,
            Memory.length_overwrite hle⟩
        · exact ⟨x, mem_iff_getElem?.mpr ⟨j, (getElem?_set_ne hij).trans hj⟩, rfl, rfl, rfl⟩

theorem HoldRun.Lost.next (hs : s.Lost) (hwords : call.Words) (h : holdNext H fuel s call = some s') :
    s'.Lost := by
  obtain ⟨ha, b, hb, hlost⟩ := hs
  obtain ⟨ha', hre, hbase, hkept⟩ := holdNext_base ha hwords h
  obtain ⟨b', hb', hptr, hsize, hlength⟩ := hkept b hb
  refine ⟨ha', b', hb', ?_⟩
  rw [Held.Lost, hptr, hsize, hlength]
  refine hlost.imp_left fun ⟨hne, hle⟩ => ⟨?_, hle.trans hre⟩
  obtain hbase | hbase := hbase
  · rwa [hbase]
  · omega

section

variable (hheap : ∀ n, H.refuses n = false)

include hheap

/-- A block whose end has wrapped around is lost at once. -/
theorem lost_of_wraps (hs : s.Ok) (hc : call.arenaCall = some c)
    (hwords : Iohttp.Words c) (hne : c.size ≠ 0) (hwrap : 2 ^ 64 ≤ s.ctx.arena.taken H c)
    (h : holdNext H fuel s call = some s') : ∃ b ∈ s'.held, b.Lost s' := by
  obtain ⟨-, k, hk, halign⟩ := hwords
  obtain ⟨a', r, hcall, hcase⟩ := holdNext_cases hc h
  obtain ⟨p, rfl, hend⟩ :=
    arenaCall_wraps hheap hs.arena hs.used hk halign hwrap hne (arenaCall_ne_reset hc) hcall
  obtain ⟨hr, -⟩ | ⟨p, contents, hr, hheld, -⟩ := hcase
  · cases hr
  · cases hr
    exact ⟨⟨p, c.size, contents⟩, by simp [hheld], .inr (.inr hend)⟩

/-- So are the blocks that the buffer leaves behind, and one that does not end in the new
buffer. -/
theorem lost_of_moves (hs : s.Ok) (hc : call.arenaCall = some c)
    (hwords : Iohttp.Words c) (hne : c.size ≠ 0) (hlow : s.ctx.arena.taken H c < 2 ^ 64)
    (hgrow : s.ctx.arena.size < s.ctx.arena.taken H c) (hmoves : H.moves s.ctx.arena.reallocs = true)
    (hnot : ¬(s.held = [] ∧ HasRoom H s.ctx.arena c)) (h : holdNext H fuel s call = some s') :
    ∃ b ∈ s'.held, b.Lost s' := by
  obtain ⟨-, k, hk, halign⟩ := hwords
  obtain ⟨a', r, hcall, hcase⟩ := holdNext_cases hc h
  obtain ⟨-, -, -, -, -, hnull⟩ | ⟨-, a₁, hq, hused, rfl, rfl⟩ :=
    arenaCall_cases hs.arena hk halign (fun _ => hlow) (arenaCall_ne_reset hc) hcall
  · simp [hne, hheap] at hnull
  · obtain ⟨hr, -⟩ | ⟨p, contents, hr, hheld, -, hcontents⟩ := hcase
    · cases hr
    · cases hr
      have hbase : s'.ctx.arena.base = s.ctx.arena.reallocs + 1 ∧
          s.ctx.arena.reallocs ≤ s'.ctx.arena.reallocs := by
        have hmoved : a₁.base = s.ctx.arena.reallocs + 1 ∧ s.ctx.arena.reallocs ≤ a₁.reallocs := by
          cases room_of_eq hq with
          | enough hle => omega
          | grown => exact ⟨if_pos hmoves, Nat.le_succ _⟩
        obtain ⟨-, harena⟩ | ⟨-, -, harena⟩ := hcontents <;> rw [harena] <;> exact hmoved
      by_cases hnil : s.held = []
      · -- the new block does not end in the buffer, where nothing is read then
        have hroom : ¬HasRoom H s.ctx.arena c := fun hroom => hnot ⟨hnil, hroom⟩
        refine ⟨_, by rw [hheld]; exact mem_append_right _ (mem_singleton_self _), .inr (.inl ?_)⟩
        obtain ⟨rfl, -⟩ | ⟨hone, -⟩ := hcontents
        · obtain ⟨bytes, halive, hlen⟩ := ((room_of_eq hq).ok hs.arena).alive
          have hout : ¬a₁.used + a₁.padding H c.align + c.size ≤ bytes.length := by
            rw [hasRoom_iff hs.arena hne hq] at hroom
            rwa [hlen]
          rw [Mem.load_eq (p := ⟨a₁.base, a₁.used + a₁.padding H c.align⟩) halive, if_neg hout]
          exact hne.symm
        · exact absurd (hasRoom_of_align_one hone) hroom
      · obtain ⟨b, hb⟩ := exists_mem_of_ne_nil _ hnil
        have hobj := (hs.intact b hb).1
        have hle : s.ctx.arena.base ≤ s.ctx.arena.reallocs := hs.arena.base
        exact ⟨b, by simp [hheld, hb], .inl ⟨by omega, by omega⟩⟩

theorem HoldRun.Ok.lost (hs : s.Ok) (hwords : call.Words)
    (hstay : ¬Stays H s call) (h : holdNext H fuel s call = some s') : s'.Lost := by
  refine ⟨(holdNext_base hs.arena hwords h).1, ?_⟩
  simp only [Stays, not_forall] at hstay
  obtain ⟨c, hc, hne, hnot⟩ := hstay
  by_cases hlow : s.ctx.arena.taken H c < 2 ^ 64
  · simp only [hlow, true_and, not_forall] at hnot
    obtain ⟨hgrow, hmoves, hnot⟩ := hnot
    exact lost_of_moves hheap hs hc (hwords c hc) hne hlow hgrow hmoves hnot h
  · exact lost_of_wraps hheap hs hc (hwords c hc) hne (Nat.le_of_not_lt hlow) h

end

theorem lost_run : ∀ {calls : List BlockCall} {s s' : HoldRun δ}, s.Lost → (∀ call ∈ calls, call.Words) →
    run (holdNext H fuel) s calls = some s' → s'.Lost
  | [], _, _, hs, _, hrun => by
    cases hrun
    exact hs
  | call :: calls, s, s', hs, hwords, hrun => by
    rw [run_cons, Option.bind_eq_some_iff] at hrun
    obtain ⟨s₁, h₁, hrun⟩ := hrun
    obtain ⟨hcall, hrest⟩ := forall_mem_cons.mp hwords
    exact lost_run (hs.next hcall h₁) hrest hrun

/-- **A whole run**: at its end all is in order, or a block is lost, depending on whether
the buffer has moved. -/
theorem ok_or_lost (hheap : ∀ n, H.refuses n = false) :
    ∀ {calls : List BlockCall} {s s' : HoldRun δ}, s.Ok →
    (∀ call ∈ calls, call.Words) → run (holdNext H fuel) s calls = some s' →
    s'.Ok ∧ runOk (holdNext H fuel) (Stays H) s calls ∨ s'.Lost ∧ ¬runOk (holdNext H fuel)
    (Stays H) s calls
  | [], _, _, hs, _, hrun => by
    cases hrun
    exact .inl ⟨hs, trivial⟩
  | call :: calls, s, s', hs, hwords, hrun => by
    rw [run_cons, Option.bind_eq_some_iff] at hrun
    obtain ⟨s₁, h₁, hrun⟩ := hrun
    obtain ⟨hcall, hrest⟩ := forall_mem_cons.mp hwords
    rw [runOk_cons h₁]
    by_cases hstay : Stays H s call
    · simpa only [hstay, true_and] using ok_or_lost hheap (hs.next hcall hstay h₁) hrest hrun
    · exact .inr ⟨lost_run (hs.lost hheap hcall hstay h₁) hrest hrun, fun h => hstay h.1⟩

/-- **Blocks stay valid as long as the buffer stays**: after calls since a reset in which
allocation succeeds, every block that was returned is in the arena's buffer and reads as it
was last written, if and only if no call asks for a block beyond `2 ^ 64` or makes the arena
grow and move while there are blocks in it, or to where its block has no room. Then the
request id that is found in the context is one of them. -/
theorem blocks_intact_iff {c : Context Memory.Ptr δ} (hc : c.Fresh) (hheap : ∀ n, H.refuses n = false)
    {calls : List BlockCall} (hwords : ∀ call ∈ calls, call.Words)
    (hrun : run (holdNext H fuel) ⟨c, []⟩ calls = some s) :
    ((∀ b ∈ s.held, b.Intact s) ↔ runOk (holdNext H fuel) (Stays H) ⟨c, []⟩ calls) ∧
    (runOk (holdNext H fuel) (Stays H) ⟨c, []⟩ calls →
      ∀ p, ctxGet s.ctx (bytes "request_id") = some p → ∃ b ∈ s.held, b.ptr = p ∧ b.Intact s) := by
  have hstart : HoldRun.Ok (⟨c, []⟩ : HoldRun δ) :=
    ⟨hc.arena, hc.used.trans_le (Nat.zero_le _), by simp, by simp, Pairwise.nil, by simp [hc.values]⟩
  obtain ⟨hs, hstay⟩ | ⟨⟨ha, b, hb, hlost⟩, hmoved⟩ := ok_or_lost hheap hstart hwords hrun
  · refine ⟨iff_of_true hs.intact hstay, fun _ p hp => ?_⟩
    rw [ctxGet, Option.bind_eq_some_iff] at hp
    obtain ⟨v, hv, hp⟩ := hp
    obtain ⟨b, hb, rfl⟩ := mem_map.mp (hs.values v (mem_of_find?_eq_some hv) p hp)
    exact ⟨b, hb, rfl, hs.intact b hb⟩
  · exact ⟨iff_of_false (fun h => hlost.not_intact ha (h b hb)) hmoved, fun h => absurd h hmoved⟩

instance (H : Heap) (a : CtxArena) (c : ArenaCall) : Decidable (HasRoom H a c) := by
  unfold HasRoom
  infer_instance

instance (H : Heap) (s : HoldRun δ) (call : BlockCall) : Decidable (Stays H s call) := by
  unfold Stays
  infer_instance

/-- A heap in which a buffer grows where it is. -/
def stillHeap : Heap := ⟨⟨fun _ => false, fun _ _ => 0⟩, fun _ => false, fun _ => 64⟩

/-- A handler writes to the request id, and asks for more than the arena has. -/
def handlerCalls : List BlockCall :=
  [.requestId (hex8 7), .write 0 1 [65], .alloc 100, .allocAligned 5000 64, .sprintf (bytes "ok")]

theorem blocks_intact_handler :
    ∃ (s : HoldRun ℕ) (p : Memory.Ptr),
      run (holdNext stillHeap 64) ⟨contextInit stillHeap, []⟩ handlerCalls = some s ∧
      s.held.map Held.size = [9, 100, 5000, 3] ∧ (∀ b ∈ s.held, b.Intact s) ∧
      ctxGet s.ctx (bytes "request_id") = some p ∧ ∃ b ∈ s.held, b.ptr = p ∧ b.Intact s := by
  have hrun :
    ((run (holdNext stillHeap 64) (⟨contextInit stillHeap, []⟩ : HoldRun ℕ) handlerCalls).any
      fun s =>
      s.held.map Held.size = [9, 100, 5000, 3] ∧ (ctxGet s.ctx (bytes "request_id")).isSome) = true := by
    decide +kernel
  have hstay : runOk (holdNext stillHeap 64) (Stays stillHeap) (⟨contextInit stillHeap, []⟩ : HoldRun ℕ)
      handlerCalls := by
    decide +kernel
  have hwords : ∀ call ∈ handlerCalls, call.Words := by
    simp only [handlerCalls, forall_mem_cons, not_mem_nil, IsEmpty.forall_iff, implies_true, and_true]
    refine ⟨?_, ?_, ?_, ?_, ?_⟩
    · rintro _ ⟨⟩
      exact ⟨by decide, 0, by omega, rfl⟩
    · rintro _ ⟨⟩
    · rintro _ ⟨⟩
      exact ⟨by decide, 0, by omega, rfl⟩
    · rintro _ ⟨⟩
      exact ⟨by decide, 6, by omega, rfl⟩
    · rintro _ ⟨⟩
      exact ⟨by decide, 0, by omega, rfl⟩
  obtain ⟨s, hrun, hp⟩ := (Option.any_eq_true _ _).mp hrun
  obtain ⟨hsizes, hsome⟩ := of_decide_eq_true hp
  obtain ⟨p, hget⟩ := Option.isSome_iff_exists.mp hsome
  obtain ⟨hiff, hid⟩ := blocks_intact_iff (fresh_contextInit stillHeap) (fun _ => rfl) hwords hrun
  exact ⟨s, p, hrun, hsizes, hiff.mpr hstay, hget, hid hstay p hget⟩

/-- A handler asks for 4096 bytes when the request id is in the arena: the buffer grows and
moves, and the pointer to the id that the context has is into a buffer that was freed. -/
theorem request_id_dangles :
    ((run (holdNext shiftingHeap 64) (⟨contextInit shiftingHeap, []⟩ : HoldRun ℕ)
      [.requestId (hex8 1 ++ hex8 2 ++ hex8 3 ++ hex8 4), .alloc 4096]).map fun s =>
        (ctxGet s.ctx (bytes "request_id"), s.ctx.arena.base, s.ctx.arena.mem.load ⟨0, 0⟩ 33)) =
      some (some ⟨0, 0⟩, 1, none) := by
  decide +kernel

end

end Iohttp
