/-
# Timers

The timers of `src/core/ioh_loop.c`: a table of 64 slots, from which
`ioh_loop_add_timer` takes the first that is not active. The slot number is the
timer's id and the user data of its timeout, so a completion says which slot it
is for, and not which timer. `ioh_loop_cancel_timer` makes a slot inactive at
once, while its timeout is still in the ring: a timer that is added there gets
the completion of the old one.

The kernel takes the submitted entries in order. A timeout expires at any time;
a cancel hits the oldest timeout with its user data that is waiting. The
completions are delivered later, in any order.
-/
import Iohttp.Core.Loop

namespace Iohttp

open Runs List

/-! ### The loop -/

/-- `IOH_MAX_TIMERS`. -/
abbrev maxTimers : ℕ := 64

/-- What `ioh_loop_add_timer` was called with, and the number of the call. -/
structure Timer where
  serial : ℕ
  ms : ℕ
  callback : Ptr
  data : Ptr
  deriving DecidableEq, Repr

structure TimerSlot where
  active : Bool
  timer : Timer
  deriving DecidableEq, Repr

/-- A timeout in the ring. The slot is its user data; `serial` is the timer that
it was prepared for. -/
structure Timeout where
  slot : Fin maxTimers
  serial : ℕ
  deriving DecidableEq, Repr

/-- An entry of the submission queue; a cancel names the user data. -/
inductive TimerSqe where
  | timeout (t : Timeout)
  | cancel (slot : Fin maxTimers)
  deriving DecidableEq, Repr

structure TimerCqe where
  timeout : Timeout
  res : ℤ
  deriving DecidableEq, Repr

/-- What has happened to timers: one was added, one was cancelled, the completion
of its timeout was processed, and for it the callback in the slot was called. -/
inductive TimerAct where
  | added (u : Timer)
  | cancelled (serial : ℕ)
  | completed (serial : ℕ)
  | fired (serial : ℕ) (u : Timer)
  deriving DecidableEq, Repr

/-- Where `ioh_loop_run_once` stands: it is not called, it walks the queue, or it
is in the callback of a slot. -/
inductive LoopCall where
  | idle
  | walking
  | callback (slot : Fin maxTimers)
  deriving DecidableEq, Repr

/-- `ioh_loop_t` with its ring: entries that are prepared and that are submitted,
timeouts that wait, those that have expired or that a cancel has hit, and the
completions that were delivered. -/
structure TimerLoop where
  timers : Fin maxTimers → TimerSlot
  calls : ℕ
  prepared : List TimerSqe
  submitted : List TimerSqe
  waiting : List Timeout
  ended : List TimerCqe
  posted : List TimerCqe
  inside : LoopCall
  log : List TimerAct

/-- `ioh_loop_create`. -/
def loopCreate : TimerLoop := ⟨fun _ => ⟨false, ⟨0, 0, 0, 0⟩⟩, 0, [], [], [], [], [], .idle, []⟩

variable {L L' : TimerLoop}

/-- The first slot that is not active. -/
def TimerLoop.freeSlot (L : TimerLoop) : Option (Fin maxTimers) :=
  (List.finRange maxTimers).find? fun i => !(L.timers i).active

def TimerLoop.setSlot (L : TimerLoop) (i : Fin maxTimers) (s : TimerSlot) : TimerLoop :=
  { L with timers := Function.update L.timers i s }

/-- A slot is free again; what is in it stays. -/
def TimerLoop.release (L : TimerLoop) (i : Fin maxTimers) : TimerLoop :=
  L.setSlot i { L.timers i with active := false }

/-- `ioh_loop_add_timer`; `room` says whether `io_uring_get_sqe` finds an entry. -/
def loopAddTimer (L : TimerLoop) (ms : ℕ) (cb data : Ptr) (room : Bool) : TimerLoop × ℤ :=
  if cb = 0 then (L, -EINVAL)
  else
    match L.freeSlot with
    | none => (L, -ENOMEM)
    | some i =>
      let u : Timer := ⟨L.calls, ms, cb, data⟩
      if room then
        ({ L.setSlot i ⟨true, u⟩ with
            calls := L.calls + 1
            prepared := L.prepared ++ [.timeout ⟨i, u.serial⟩]
            log := L.log ++ [.added u] }, i)
      else ({ L.setSlot i ⟨false, u⟩ with calls := L.calls + 1 }, -ENOSPC)

/-- `ioh_loop_cancel_timer`. -/
def loopCancelTimer (L : TimerLoop) (id : ℤ) (room : Bool) : TimerLoop × ℤ :=
  if h : 0 ≤ id ∧ id.toNat < maxTimers then
    let i : Fin maxTimers := ⟨id.toNat, h.2⟩
    if (L.timers i).active then
      if room then
        ({ L.release i with
            prepared := L.prepared ++ [.cancel i]
            log := L.log ++ [.cancelled (L.timers i).timer.serial] }, 0)
      else (L, -ENOSPC)
    else (L, -ENOENT)
  else (L, -EINVAL)

/-- `io_uring_submit`. -/
def TimerLoop.submit (L : TimerLoop) : TimerLoop :=
  { L with prepared := [], submitted := L.submitted ++ L.prepared }

/-- `ioh_loop_run_once`, up to its walk. -/
def TimerLoop.runOnce (L : TimerLoop) : CallResult → Option TimerLoop
  | .submitFails => some L
  | .waitFails => if L.posted = [] then some L.submit else none
  | .ready => if L.posted = [] then none else some { L.submit with inside := .walking }

/-- The walk of `ioh_loop_run_once`: its end, or the next completion. The slot of
a timer that fires stays active in its callback. -/
def TimerLoop.walk (L : TimerLoop) : TimerLoop :=
  match L.posted with
  | [] => { L with inside := .idle }
  | c :: rest =>
    let i := c.timeout.slot
    let s := c.timeout.serial
    let L := { L with posted := rest }
    if (L.timers i).active then
      if (c.res = -ETIME ∨ c.res = 0) ∧ (L.timers i).timer.callback ≠ 0 then
        { L with inside := .callback i, log := L.log ++ [.completed s, .fired s (L.timers i).timer] }
      else { L.release i with log := L.log ++ [.completed s] }
    else { L with log := L.log ++ [.completed s] }

/-- The innermost call goes on; a callback returns, and its slot is free. -/
def TimerLoop.step (L : TimerLoop) : Option TimerLoop :=
  match L.inside with
  | .idle => none
  | .walking => some L.walk
  | .callback i => some { L.release i with inside := .walking }

/-- The kernel takes the next entry. -/
def TimerLoop.issue (L : TimerLoop) : Option TimerLoop :=
  match L.submitted with
  | [] => none
  | .timeout t :: rest => some { L with submitted := rest, waiting := L.waiting ++ [t] }
  | .cancel i :: rest =>
    match L.waiting.find? fun t => t.slot = i with
    | some t =>
      some { L with submitted := rest, waiting := L.waiting.erase t, ended :=
        L.ended ++ [⟨t, -ECANCELED⟩] }
    | none => some { L with submitted := rest }

def TimerLoop.expire (L : TimerLoop) (t : Timeout) : Option TimerLoop :=
  if t ∈ L.waiting then
    some { L with waiting := L.waiting.erase t, ended := L.ended ++ [⟨t, -ETIME⟩] }
  else none

/-- The completion of a timeout that has ended comes. -/
def TimerLoop.deliver (L : TimerLoop) (c : TimerCqe) : Option TimerLoop :=
  if c ∈ L.ended then some { L with ended := L.ended.erase c, posted := L.posted ++ [c] } else none

/-- The application or a callback calls, the loop goes on, or the kernel does. -/
inductive TimerEvent where
  | add (ms : ℕ) (cb data : Ptr) (room : Bool)
  | cancel (id : ℤ) (room : Bool)
  | runOnce (r : CallResult)
  | step
  | issue
  | expire (t : Timeout)
  | deliver (c : TimerCqe)
  deriving DecidableEq, Repr

/-- Outside of a callback the application runs only between the calls of
`ioh_loop_run_once`. -/
def TimerLoop.next (L : TimerLoop) : TimerEvent → Option TimerLoop
  | .add ms cb data room => if L.inside = .walking then none else some (loopAddTimer L ms cb data room).1
  | .cancel id room => if L.inside = .walking then none else some (loopCancelTimer L id room).1
  | .runOnce r => if L.inside = .idle then L.runOnce r else none
  | .step => L.step
  | .issue => L.issue
  | .expire t => L.expire t
  | .deliver c => L.deliver c

/-- The act is a call of the callback of timer `s`. -/
def TimerAct.calls (s : ℕ) : TimerAct → Bool
  | .fired _ u => u.serial = s
  | _ => false

/-- How often the callback of timer `s` was called. -/
def fires (s : ℕ) (log : List TimerAct) : ℕ := log.countP (TimerAct.calls s)

/-- A callback is called for the completion of its own timer. A timer that was
not cancelled is called once if its completion has been processed, and not
before; a timer that was cancelled is never called. -/
structure FiresOnce (log : List TimerAct) : Prop where
  own : ∀ s u, .fired s u ∈ log → s = u.serial ∧ .added u ∈ log
  once : ∀ u, .added u ∈ log → .cancelled u.serial ∉ log →
    fires u.serial log = if .completed u.serial ∈ log then 1 else 0
  never : ∀ s, .cancelled s ∈ log → fires s log = 0

def TimerSqe.timeout? : TimerSqe → Option Timeout
  | .timeout t => some t
  | .cancel _ => none

/-- The timeouts whose completion has not been processed. -/
def TimerLoop.outstanding (L : TimerLoop) : List Timeout :=
  L.waiting ++ (L.submitted ++ L.prepared).filterMap TimerSqe.timeout? ++ (L.ended ++ L.posted).map
  TimerCqe.timeout

/-- A timer is added only to a slot that has no timeout outstanding, and no
callback cancels its own timer. -/
def Careful (L : TimerLoop) : TimerEvent → Prop
  | .add _ _ _ _ => ∀ i ∈ L.freeSlot, ∀ t ∈ L.outstanding, t.slot ≠ i
  | .cancel id _ => ∀ i : Fin maxTimers, L.inside = .callback i → id ≠ i
  | _ => True

instance instDecidableCareful (L : TimerLoop) : ∀ e, Decidable (Careful L e)
  | .add _ _ _ _ => inferInstanceAs (Decidable (∀ i ∈ L.freeSlot, ∀ t ∈ L.outstanding, t.slot ≠ i))
  | .cancel id _ => inferInstanceAs (Decidable (∀ i : Fin maxTimers, L.inside = .callback i → id ≠ i))
  | .runOnce _ | .step | .issue | .expire _ | .deliver _ => isTrue trivial

/-! ### What holds between two events -/

def TimerAct.serial : TimerAct → ℕ
  | .added u | .fired _ u => u.serial
  | .cancelled s | .completed s => s

/-- The entries that the kernel has taken or will take, in order. -/
def TimerLoop.line (L : TimerLoop) : List TimerSqe :=
  L.waiting.map .timeout ++ (L.submitted ++ L.prepared)

/-- A cancel behind a timeout with its user data was meant for it. -/
def Meant (log : List TimerAct) (x y : TimerSqe) : Prop :=
  ∀ t : Timeout, x = .timeout t → y = .cancel t.slot → .cancelled t.serial ∈ log

/-- A timeout that is outstanding has not been processed, and either its timer
is in its slot or it was cancelled. -/
structure Outstanding (L : TimerLoop) (t : Timeout) : Prop where
  called : t.serial < L.calls
  open_ : .completed t.serial ∉ L.log
  silent : fires t.serial L.log = 0
  held : ((L.timers t.slot).active = true ∧ (L.timers t.slot).timer.serial = t.serial) ∨
    .cancelled t.serial ∈ L.log

/-- A slot that is active has a timer that was not cancelled, and whose timeout is
outstanding unless the loop is in its callback. -/
structure Occupied (L : TimerLoop) (i : Fin maxTimers) : Prop where
  added : .added (L.timers i).timer ∈ L.log
  kept : .cancelled (L.timers i).timer.serial ∉ L.log
  callback : (L.timers i).timer.callback ≠ 0
  timeout : L.inside = .callback i ∨ ⟨i, (L.timers i).timer.serial⟩ ∈ L.outstanding

/-- The slot of the callback that the loop is in stays active, and no timeout of it is
outstanding. -/
structure Entered (L : TimerLoop) (i : Fin maxTimers) : Prop where
  active : (L.timers i).active = true
  completed : .completed (L.timers i).timer.serial ∈ L.log
  empty : ∀ t ∈ L.outstanding, t.slot ≠ i

/-- What holds between two events, if they are careful: every slot has at most one
timeout outstanding, and it is that of the timer in the slot unless that was
cancelled. -/
structure Exact (L : TimerLoop) : Prop where
  distinct : (L.outstanding.map Timeout.slot).Nodup
  serials : (L.outstanding.map Timeout.serial).Nodup
  early : ∀ a ∈ L.log, a.serial < L.calls
  out : ∀ t ∈ L.outstanding, Outstanding L t
  active : ∀ i, (L.timers i).active = true → Occupied L i
  calling : ∀ i, L.inside = .callback i → Entered L i
  order : L.line.Pairwise (Meant L.log)
  results : ∀ c ∈ L.ended ++ L.posted, c.res = -ETIME ∨ .cancelled c.timeout.serial ∈ L.log
  firesOnce : FiresOnce L.log

theorem Exact.unique (h : Exact L) {t t' : Timeout} (ht : t ∈ L.outstanding) (ht' : t' ∈ L.outstanding)
    (hs : t.slot = t'.slot) : t = t' :=
  inj_on_of_nodup_map h.distinct ht ht' hs

variable {i : Fin maxTimers}

theorem Exact.timeout_of_active (h : Exact L) (hi : (L.timers i).active = true)
    (hin : L.inside ≠ .callback i) : ⟨i, (L.timers i).timer.serial⟩ ∈ L.outstanding :=
  (h.active i hi).timeout.resolve_left hin

variable {t : Timeout}

theorem Exact.serial_of_active (h : Exact L) (ht : t ∈ L.outstanding)
    (hi : (L.timers t.slot).active = true) (hin : L.inside ≠ .callback t.slot) :
    (L.timers t.slot).timer.serial = t.serial := by
  have he := h.unique (h.timeout_of_active hi hin) ht rfl
  exact congrArg Timeout.serial he

variable {acts : List TimerAct} {n s : ℕ} {c : TimerCqe} {u : Timer} {x : LoopCall}

theorem Exact.early_append (h : Exact L) (hn : L.calls ≤ n)
    (hacts : ∀ a ∈ acts, a.serial < n) : ∀ a ∈ L.log ++ acts, a.serial < n :=
  forall_mem_append.mpr ⟨fun a ha => (h.early a ha).trans_le hn, hacts⟩

theorem exact_create : Exact loopCreate where
  distinct := nodup_nil
  serials := nodup_nil
  early a ha := absurd ha not_mem_nil
  out t ht := absurd ht not_mem_nil
  active i hi := by cases hi
  calling i hi := by cases hi
  order := List.Pairwise.nil
  results c hc := absurd hc not_mem_nil
  firesOnce := ⟨fun s u h => absurd h not_mem_nil, fun u h => absurd h not_mem_nil,
    fun s h => absurd h not_mem_nil⟩

theorem Exact.moved (h : Exact L) (ht : L'.timers = L.timers) (hc : L'.calls = L.calls)
    (hl : L'.log = L.log)
    (hperm : L'.outstanding.Perm L.outstanding) (hin : ∀ i, L'.inside = .callback i ↔
      L.inside = .callback i)
    (order : L'.line.Pairwise (Meant L.log))
    (results : ∀ c ∈ L'.ended ++ L'.posted, c.res = -ETIME ∨ .cancelled c.timeout.serial ∈ L.log) :
    Exact L' where
  distinct := (hperm.map _).nodup_iff.mpr h.distinct
  serials := (hperm.map _).nodup_iff.mpr h.serials
  early := by
    rw [hl, hc]
    exact h.early
  out t hm := by
    obtain ⟨h₁, h₂, h₃, h₄⟩ := h.out t (hperm.mem_iff.mp hm)
    exact ⟨by rwa [hc], by rwa [hl], by rwa [hl], by rwa [ht, hl]⟩
  active i hi := by
    rw [ht] at hi
    obtain ⟨h₁, h₂, h₃, h₄⟩ := h.active i hi
    exact ⟨by rwa [ht, hl], by rwa [ht, hl], by rwa [ht], by rwa [ht, hin, hperm.mem_iff]⟩
  calling i hi := by
    obtain ⟨h₁, h₂, h₃⟩ := h.calling i ((hin i).mp hi)
    exact ⟨by rwa [ht], by rwa [ht, hl], fun t hm => h₃ t (hperm.mem_iff.mp hm)⟩
  order := by rwa [hl]
  results := by rwa [hl]
  firesOnce := by
    rw [hl]
    exact h.firesOnce

/-! ### The ring -/

theorem submit_outstanding (L : TimerLoop) : L.submit.outstanding = L.outstanding := by
  simp [TimerLoop.outstanding, TimerLoop.submit]

theorem submit_line (L : TimerLoop) :
    L.submit.line = L.line := by simp [TimerLoop.line, TimerLoop.submit]

theorem Exact.submit (h : Exact L) : Exact L.submit :=
  h.moved rfl rfl rfl (by rw [submit_outstanding]) (fun _ => .rfl) (by rw [submit_line]; exact h.order)
    h.results

theorem Exact.runOnce (h : Exact L) {r : CallResult} (hi : L.inside = .idle)
    (hn : L.runOnce r = some L') : Exact L' := by
  cases r with
  | submitFails =>
    cases hn
    exact h
  | waitFails =>
    simp only [TimerLoop.runOnce, Option.ite_none_right_eq_some, Option.some.injEq] at hn
    obtain ⟨-, rfl⟩ := hn
    exact h.submit
  | ready =>
    simp only [TimerLoop.runOnce, Option.ite_none_left_eq_some, Option.some.injEq] at hn
    obtain ⟨-, rfl⟩ := hn
    have hs := h.submit
    refine hs.moved rfl rfl rfl (.refl _) (fun i => ?_) hs.order hs.results
    show LoopCall.walking = _ ↔ L.inside = _
    rw [hi]
    simp

variable {rest : List TimerSqe}

section

variable (h : Exact L)

include h

theorem Exact.issueTimeout (hs : L.submitted = .timeout t :: rest) :
    Exact { L with submitted := rest, waiting := L.waiting ++ [t] } := by
  refine h.moved rfl rfl rfl (.of_eq ?_) (fun _ => .rfl) ?_ h.results
  · simp [TimerLoop.outstanding, hs, TimerSqe.timeout?]
  · have := h.order
    simpa [TimerLoop.line, hs] using this

theorem Exact.cancelled_of_line (ht : t ∈ L.waiting)
    (hs : L.submitted = .cancel t.slot :: rest) : .cancelled t.serial ∈ L.log := by
  have ho := (pairwise_append.mp h.order).2.2
  refine ho (.timeout t) (mem_map_of_mem ht) (.cancel t.slot) ?_ t rfl rfl
  simp [hs]

theorem Exact.order_of_sublist {ws : List Timeout} (hw : ws.Sublist L.waiting)
    (hr : rest.Sublist L.submitted) :
    (ws.map TimerSqe.timeout ++ (rest ++ L.prepared)).Pairwise (Meant L.log) :=
  h.order.sublist ((hw.map _).append (hr.append_right _))

/-- A timeout has ended, and its completion has not come yet. -/
theorem Exact.ends (ht : t ∈ L.waiting) (hr : rest.Sublist L.submitted)
    (hsame : rest.filterMap TimerSqe.timeout? = L.submitted.filterMap TimerSqe.timeout?) {res : ℤ}
    (hres : res = -ETIME ∨ .cancelled t.serial ∈ L.log) :
    Exact { L with submitted := rest, waiting := L.waiting.erase t, ended :=
      L.ended ++ [⟨t, res⟩] } := by
  refine h.moved rfl rfl rfl ?_ (fun _ => .rfl) (h.order_of_sublist erase_sublist hr) ?_
  · rw [perm_iff_count]
    intro a
    have := (perm_cons_erase ht).count_eq a
    simp only [TimerLoop.outstanding, filterMap_append, hsame, map_append, map_cons, map_nil,
      count_append, count_cons, count_nil] at this ⊢
    omega
  · intro c hc
    simp only [mem_append, mem_singleton, or_right_comm] at hc
    rcases hc with hc | rfl
    · exact h.results c (mem_append.mpr hc)
    · exact hres

theorem Exact.issue (hn : L.issue = some L') : Exact L' := by
  unfold TimerLoop.issue at hn
  split at hn
  next => cases hn
  next t rest hs =>
    cases hn
    exact h.issueTimeout hs
  next i rest hs =>
    split at hn
    next t hf =>
      cases hn
      obtain rfl : t.slot = i := by simpa using find?_some hf
      have ht := mem_of_find?_eq_some hf
      exact h.ends ht (by simp [hs]) (by simp [hs, filterMap_cons, TimerSqe.timeout?])
        (.inr (h.cancelled_of_line ht hs))
    next =>
      cases hn
      refine h.moved rfl rfl rfl (.of_eq ?_) (fun _ => .rfl) ?_ h.results
      · simp [TimerLoop.outstanding, hs, filterMap_cons, TimerSqe.timeout?]
      · exact h.order_of_sublist (.refl _) (by rw [hs]; exact sublist_cons_self _ _)

theorem Exact.expire (hn : L.expire t = some L') : Exact L' := by
  simp only [TimerLoop.expire, Option.ite_none_right_eq_some, Option.some.injEq] at hn
  obtain ⟨ht, rfl⟩ := hn
  exact h.ends ht (.refl _) rfl (.inl rfl)

theorem Exact.deliver (hn : L.deliver c = some L') : Exact L' := by
  simp only [TimerLoop.deliver, Option.ite_none_right_eq_some, Option.some.injEq] at hn
  obtain ⟨hc, rfl⟩ := hn
  have hperm : (L.ended.erase c ++ (L.posted ++ [c])).Perm (L.ended ++ L.posted) := by
    rw [← append_assoc]
    refine perm_append_singleton c _ |>.trans ?_
    exact (perm_cons_erase hc).symm.append_right _
  exact h.moved rfl rfl rfl ((hperm.map _).append_left _) (fun _ => .rfl) h.order fun c' hc' =>
    h.results c' (hperm.mem_iff.mp hc')

end

variable {log : List TimerAct}

theorem fires_append (s : ℕ) (log acts : List TimerAct) :
    fires s (log ++ acts) = fires s log + fires s acts :=
  countP_append ..

theorem fires_eq_zero (h : ∀ a ∈ acts, a.serial ≠ s) : fires s acts = 0 := by
  rw [fires, countP_eq_zero]
  intro a ha hs
  have hne := h a ha
  cases a with
  | fired s' u => exact hne (by simpa [TimerAct.calls, TimerAct.serial] using hs)
  | _ => cases hs

section

variable (h : FiresOnce log)

include h

theorem FiresOnce.own_append {a : TimerAct} (ha : ∀ s u, .fired s u ≠ a) :
    ∀ s u, .fired s u ∈ log ++ [a] → s = u.serial ∧ .added u ∈ log ++ [a] := by
  intro s u hm
  have hm : .fired s u ∈ log := by simpa [ha s u] using hm
  exact ⟨(h.own s u hm).1, mem_append_left _ (h.own s u hm).2⟩

theorem FiresOnce.add (hu : ∀ a ∈ log, a.serial ≠ u.serial) :
    FiresOnce (log ++ [.added u]) where
  own := h.own_append (by simp)
  once u' hm hc := by
    have hc : .cancelled u'.serial ∉ log := by simpa using hc
    rw [fires_append, show fires u'.serial [.added u] = 0 from rfl]
    have hdone : (.completed u'.serial ∈ log ++ [.added u]) ↔ .completed u'.serial ∈ log := by simp
    simp only [hdone, add_zero]
    rcases mem_append.mp hm with hm | hm
    · exact h.once u' hm hc
    · obtain rfl : u' = u := by simpa using hm
      rw [fires_eq_zero hu, if_neg fun hd => hu _ hd rfl]
  never s hm := by
    rw [fires_append, h.never s (by simpa using hm)]
    rfl

theorem FiresOnce.cancel (hs : fires s log = 0) :
    FiresOnce (log ++ [.cancelled s]) where
  own := h.own_append (by simp)
  once u hm hc := by
    rw [fires_append, h.once u (by simpa using hm) fun hc' => hc (mem_append_left _ hc')]
    simp [fires, TimerAct.calls]
  never s' hm := by
    rw [fires_append, show fires s' [.cancelled s] = 0 from rfl]
    rcases mem_append.mp hm with hm | hm
    · exact h.never s' hm
    · obtain rfl : s' = s := by simpa using hm
      exact hs

theorem FiresOnce.drop (hs : .cancelled s ∈ log) :
    FiresOnce (log ++ [.completed s]) where
  own := h.own_append (by simp)
  once u hm hc := by
    have hne : u.serial ≠ s := fun he => hc (mem_append_left _ (he ▸ hs))
    rw [fires_append, h.once u (by simpa using hm) fun hc' => hc (mem_append_left _ hc')]
    simp [fires, TimerAct.calls, hne]
  never s' hm := by
    rw [fires_append, h.never s' (by simpa using hm)]
    rfl

theorem FiresOnce.fire (hu : .added u ∈ log)
    (hc : .cancelled u.serial ∉ log) (hf : fires u.serial log = 0) :
    FiresOnce (log ++ [.completed u.serial, .fired u.serial u]) where
  own s' u' hm := by
    rcases mem_append.mp hm with hm | hm
    · exact ⟨(h.own s' u' hm).1, mem_append_left _ (h.own s' u' hm).2⟩
    · obtain ⟨rfl, rfl⟩ : s' = u.serial ∧ u' = u := by simpa using hm
      exact ⟨rfl, mem_append_left _ hu⟩
  once u' hm hc' := by
    rw [fires_append]
    by_cases hs : u'.serial = u.serial
    · rw [hs, hf]
      simp [fires, TimerAct.calls]
    · rw [h.once u' (by simpa using hm) fun hc'' => hc' (mem_append_left _ hc'')]
      simp [fires, TimerAct.calls, hs, Ne.symm hs]
  never s' hm := by
    have hm : .cancelled s' ∈ log := by simpa using hm
    have hs : u.serial ≠ s' := fun he => hc (he ▸ hm)
    rw [fires_append, h.never s' hm]
    simp [fires, TimerAct.calls, hs]

/-! ### The calls -/

end

theorem Meant.append {x y : TimerSqe} (h : Meant log x y) (acts : List TimerAct) :
    Meant (log ++ acts) x y :=
  fun t hx hy => mem_append_left _ (h t hx hy)

theorem Outstanding.append (h : Outstanding L t) (acts : List TimerAct)
    (hne : ∀ a ∈ acts, a.serial ≠ t.serial) (hlog : L'.log = L.log ++ acts) (hcalls : L.calls ≤ L'.calls)
    (hslot : L'.timers t.slot = L.timers t.slot) : Outstanding L' t where
  called := h.called.trans_le hcalls
  open_ := by
    rw [hlog, mem_append]
    rintro (hm | hm)
    · exact h.open_ hm
    · exact hne _ hm rfl
  silent := by rw [hlog, fires_append, h.silent, fires_eq_zero hne]
  held := by
    rw [hslot, hlog]
    exact h.held.imp_right (mem_append_left _)

theorem Occupied.append (h : Occupied L i) (acts : List TimerAct)
    (hno : .cancelled (L.timers i).timer.serial ∉ acts) (hlog : L'.log = L.log ++ acts)
    (hslot : L'.timers i = L.timers i)
    (hout : L'.inside = .callback i ∨ ⟨i, (L.timers i).timer.serial⟩ ∈ L'.outstanding) :
    Occupied L' i where
  added := by
    rw [hslot, hlog]
    exact mem_append_left _ h.added
  kept := by
    rw [hslot, hlog, mem_append, not_or]
    exact ⟨h.kept, hno⟩
  callback := by
    rw [hslot]
    exact h.callback
  timeout := by rwa [hslot]

theorem Entered.append (h : Entered L i) (acts : List TimerAct) (hlog : L'.log = L.log ++ acts)
    (hslot : L'.timers i = L.timers i) (hempty : ∀ t ∈ L'.outstanding, t.slot ≠ i) : Entered L' i where
  active := by
    rw [hslot]
    exact h.active
  completed := by
    rw [hslot, hlog]
    exact mem_append_left _ h.completed
  empty := hempty

/-- The completion at the head is processed: the slot is not active, or its callback
is called. -/
theorem Exact.processed (h : Exact L) (hw : L.inside = .walking) {rest : List TimerCqe}
    (hp : L.posted = c :: rest) (acts : List TimerAct)
    (hacts : ∀ a ∈ acts, a.serial = c.timeout.serial ∧ ∀ s, a ≠ .cancelled s)
    (hdone : .completed c.timeout.serial ∈ acts)
    (hx : (x = .walking ∧ (L.timers c.timeout.slot).active = false) ∨
      (x = .callback c.timeout.slot ∧ (L.timers c.timeout.slot).active = true))
    (hf : FiresOnce (L.log ++ acts)) :
    Exact { L with posted := rest, inside := x, log := L.log ++ acts } := by
  set L' : TimerLoop := { L with posted := rest, inside := x, log := L.log ++ acts } with hL'
  have hperm : L.outstanding.Perm (c.timeout :: L'.outstanding) := by
    simp only [TimerLoop.outstanding, hp, hL', map_append, map_cons, ← append_assoc]
    exact perm_middle
  have hmem : ∀ t, t ∈ L.outstanding ↔ t = c.timeout ∨ t ∈ L'.outstanding :=
    fun t => hperm.mem_iff.trans mem_cons
  have hslots := (hperm.map Timeout.slot).nodup_iff.mp h.distinct
  have hserials := (hperm.map Timeout.serial).nodup_iff.mp h.serials
  rw [map_cons, nodup_cons] at hslots hserials
  have hother : ∀ t ∈ L'.outstanding, t.slot ≠ c.timeout.slot ∧ t.serial ≠ c.timeout.serial :=
    fun t ht =>
    ⟨fun he => hslots.1 (he ▸ mem_map_of_mem ht), fun he => hserials.1 (he ▸ mem_map_of_mem ht)⟩
  have hkept : ∀ s, .cancelled s ∈ L'.log ↔ .cancelled s ∈ L.log := fun s =>
    ⟨fun hm => (mem_append.mp hm).resolve_right fun hm => (hacts _ hm).2 s rfl, mem_append_left _⟩
  have hc : c.timeout ∈ L.outstanding := (hmem _).mpr (.inl rfl)
  refine ⟨hslots.2, hserials.2, ?_, ?_, ?_, ?_, h.order.imp (·.append acts), ?_, hf⟩
  · refine h.early_append le_rfl fun a ha => ?_
    rw [(hacts a ha).1]
    exact (h.out _ hc).called
  · intro t ht
    have hne : ∀ a ∈ acts, a.serial ≠ t.serial := fun a ha => by
      rw [(hacts a ha).1]
      exact (hother t ht).2.symm
    exact (h.out t ((hmem t).mpr (.inr ht))).append acts hne rfl le_rfl rfl
  · intro i hi
    refine (h.active i hi).append acts (fun hm => (hacts _ hm).2 _ rfl) rfl rfl ?_
    by_cases hic : i = c.timeout.slot
    · subst hic
      rcases hx with ⟨-, hx⟩ | ⟨hx, -⟩
      · exact absurd (hx.symm.trans hi) (by decide)
      · exact .inl hx
    · have hout := h.timeout_of_active hi (by rw [hw]; nofun)
      exact .inr (((hmem _).mp hout).resolve_left fun he => hic (congrArg Timeout.slot he))
  · intro i hi
    rcases hx with ⟨rfl, -⟩ | ⟨rfl, hx⟩
    · cases hi
    · cases hi
      refine ⟨hx, mem_append_right _ ?_, fun t ht => (hother t ht).1⟩
      show .completed (L.timers c.timeout.slot).timer.serial ∈ acts
      rwa [h.serial_of_active hc hx (by rw [hw]; nofun)]
  · intro c' hc'
    have hold : c' ∈ L.ended ++ L.posted := by
      rw [hp]
      exact (sublist_cons_self c rest).append_left _ |>.subset hc'
    exact (h.results c' hold).imp_right (hkept _).mpr

theorem Exact.walk (h : Exact L) (hw : L.inside = .walking) : Exact L.walk := by
  unfold TimerLoop.walk
  split
  next hp =>
    refine h.moved rfl rfl rfl (.refl _) (fun i => ?_) h.order h.results
    show LoopCall.idle = _ ↔ L.inside = _
    rw [hw]
    simp
  next c rest hp =>
    have hc : c.timeout ∈ L.outstanding := by simp [TimerLoop.outstanding, hp]
    have ho := h.out _ hc
    by_cases ha : (L.timers c.timeout.slot).active = true
    · have hs := h.serial_of_active hc ha (by rw [hw]; nofun)
      obtain ⟨h₁, h₂, h₃, -⟩ := h.active _ ha
      have hres : c.res = -ETIME := (h.results c (by simp [hp])).resolve_right (hs ▸ h₂)
      dsimp only
      rw [if_pos ha, if_pos ⟨.inl hres, h₃⟩]
      refine h.processed hw hp _ ?_ (mem_cons_self ..) (.inr ⟨rfl, ha⟩) ?_
      · simp [TimerAct.serial, hs]
      · rw [← hs]
        exact h.firesOnce.fire h₁ h₂ (hs ▸ ho.silent)
    · -- the timeout of a slot that is not active was cancelled
      have hcan := ho.held.resolve_left fun hh => ha hh.1
      dsimp only
      rw [if_neg ha]
      have := h.processed hw hp [.completed c.timeout.serial] (by simp [TimerAct.serial])
        (mem_singleton_self _) (.inl ⟨rfl, by simpa using ha⟩) (h.firesOnce.drop hcan)
      rwa [← hw] at this

/-- A slot without a timeout is free from now on. -/
theorem Exact.free (h : Exact L) (hout : ∀ t ∈ L.outstanding, t.slot ≠ i) {s : TimerSlot}
    (hs : s.active = false) (hn : L.calls ≤ n) (hxi : x ≠ .callback i)
    (hx : ∀ j, j ≠ i → (x = .callback j ↔ L.inside = .callback j)) :
    Exact { L.setSlot i s with calls := n, inside := x } := by
  have hother : ∀ j, j ≠ i → (L.setSlot i s).timers j = L.timers j :=
    fun j hj => Function.update_of_ne hj ..
  refine ⟨h.distinct, h.serials, fun a ha => (h.early a ha).trans_le hn, ?_, ?_, ?_, h.order, h.results,
    h.firesOnce⟩
  · intro t ht
    exact (h.out t ht).append [] nofun (append_nil _).symm hn (hother _ (hout t ht))
  · intro j hj
    have hji : j ≠ i := by
      rintro rfl
      simp [TimerLoop.setSlot, hs] at hj
    have ha := h.active j (hother j hji ▸ hj)
    exact ha.append [] nofun (append_nil _).symm (hother j hji) (ha.timeout.imp_left (hx j hji).mpr)
  · intro j hj
    have hji : j ≠ i := fun he => hxi (he ▸ hj)
    have he := h.calling j ((hx j hji).mp hj)
    exact he.append [] (append_nil _).symm (hother j hji) he.empty

theorem Exact.leave (h : Exact L) (hi : L.inside = .callback i) :
    Exact { L.release i with inside := .walking } := by
  refine h.free (h.calling i hi).empty rfl le_rfl nofun fun j hj => ?_
  simp [hi, hj.symm]

theorem mem_outstanding_of_line (h : .timeout t ∈ L.line) : t ∈ L.outstanding := by
  simp only [TimerLoop.line, mem_append, mem_map, TimerSqe.timeout.injEq, exists_eq_right] at h
  simp only [TimerLoop.outstanding, mem_append, mem_filterMap]
  rcases h with h | h
  · exact .inl (.inl h)
  · exact .inl (.inr ⟨_, h, rfl⟩)

theorem Exact.cancelSlot (h : Exact L) (hi : (L.timers i).active = true) (hin : L.inside ≠ .callback i) :
    Exact { L.release i with
      prepared := L.prepared ++ [.cancel i]
      log := L.log ++ [.cancelled (L.timers i).timer.serial] } := by
  set s := (L.timers i).timer.serial with hs
  set L' : TimerLoop :=
    { L.release i with prepared := L.prepared ++ [.cancel i], log := L.log ++ [.cancelled s] } with hL'
  have hsame : L'.outstanding = L.outstanding := by
    simp [TimerLoop.outstanding, hL', TimerLoop.release, TimerLoop.setSlot, filterMap_append,
      filterMap_cons, TimerSqe.timeout?]
  have hother : ∀ j, j ≠ i → L'.timers j = L.timers j := fun j hj => Function.update_of_ne hj ..
  have hout : ⟨i, s⟩ ∈ L.outstanding := h.timeout_of_active hi hin
  have ho := h.out _ hout
  have hnow : .cancelled s ∈ L'.log := mem_append_right _ (mem_singleton_self _)
  refine ⟨by rw [hsame]; exact h.distinct, by rw [hsame]; exact h.serials, ?_, ?_, ?_, ?_, ?_, ?_,
    h.firesOnce.cancel ho.silent⟩
  · exact h.early_append le_rfl (forall_mem_singleton.mpr ho.called)
  · intro t ht
    rw [hsame] at ht
    by_cases hti : t.slot = i
    · obtain rfl := h.unique ht hout hti
      refine ⟨ho.called, ?_, ?_, .inr hnow⟩
      · exact fun hm => ho.open_ (by simpa [hL'] using hm)
      · show fires s (L.log ++ [.cancelled s]) = 0
        rw [fires_append, ho.silent]
        rfl
    · have hne : ∀ a ∈ [TimerAct.cancelled s], a.serial ≠ t.serial := by
        simp only [mem_singleton, forall_eq]
        intro he
        exact hti (congrArg Timeout.slot (inj_on_of_nodup_map h.serials ht hout he.symm))
      exact (h.out t ht).append _ hne rfl le_rfl (hother _ hti)
  · intro j hj
    have hji : j ≠ i := by
      rintro rfl
      simp [hL', TimerLoop.release, TimerLoop.setSlot] at hj
    rw [hother j hji] at hj
    have hto := (h.active j hj).timeout
    refine (h.active j hj).append _ (fun hm => ?_) rfl (hother j hji) (by rwa [hsame])
    have he : (L.timers j).timer.serial = s := by simpa using hm
    rcases hto with hto | hto
    · exact ho.open_ (he ▸ (h.calling j hto).completed)
    · exact hji (congrArg Timeout.slot (inj_on_of_nodup_map h.serials hto hout he))
  · intro j hj
    have hji : j ≠ i := by
      rintro rfl
      exact hin hj
    exact (h.calling j hj).append _ rfl (hother j hji) (by rw [hsame]; exact (h.calling j hj).empty)
  · have hline : L'.line = L.line ++ [.cancel i] := by
      simp [TimerLoop.line, hL', TimerLoop.release, TimerLoop.setSlot]
    rw [hline, pairwise_append]
    refine ⟨h.order.imp (·.append _), pairwise_singleton .., ?_⟩
    rintro x hx y hy t rfl ht
    obtain rfl : y = .cancel i := mem_singleton.mp hy
    obtain rfl := h.unique (mem_outstanding_of_line hx) hout (TimerSqe.cancel.inj ht).symm
    exact hnow
  · exact fun c hc => (h.results c hc).imp_right (mem_append_left _)

variable {room : Bool}

theorem Exact.cancel (h : Exact L) {id : ℤ} (hc : Careful L (.cancel id room)) :
    Exact (loopCancelTimer L id room).1 := by
  unfold loopCancelTimer
  by_cases hid : 0 ≤ id ∧ id.toNat < maxTimers
  · rw [dif_pos hid]
    by_cases ha : (L.timers ⟨id.toNat, hid.2⟩).active = true
    · dsimp only
      rw [if_pos ha]
      cases room with
      | true => exact h.cancelSlot ha fun hin => hc _ hin (Int.toNat_of_nonneg hid.1).symm
      | false => exact h
    · dsimp only
      rwa [if_neg ha]
  · rwa [dif_neg hid]

theorem freeSlot_inactive (h : i ∈ L.freeSlot) : (L.timers i).active = false := by
  simpa using find?_some h

theorem Entered.ne_of_inactive {j : Fin maxTimers} (h : Entered L j)
    (hi : (L.timers i).active = false) : j ≠ i := by
  rintro rfl
  exact absurd (h.active.symm.trans hi) (by decide)

theorem Exact.addSlot (h : Exact L) (hi : (L.timers i).active = false)
    (hout : ∀ t ∈ L.outstanding, t.slot ≠ i) (hu : u.serial = L.calls) (hcb : u.callback ≠ 0) :
    Exact { L.setSlot i ⟨true, u⟩ with
      calls := L.calls + 1
      prepared := L.prepared ++ [.timeout ⟨i, u.serial⟩]
      log := L.log ++ [.added u] } := by
  set L' : TimerLoop :=
    { L.setSlot i ⟨true, u⟩ with
      calls := L.calls + 1
      prepared := L.prepared ++ [.timeout ⟨i, u.serial⟩]
      log := L.log ++ [.added u] } with hL'
  have hperm : L'.outstanding.Perm (⟨i, u.serial⟩ :: L.outstanding) := by
    simp only [TimerLoop.outstanding, hL', TimerLoop.setSlot, filterMap_append, filterMap_cons,
      filterMap_nil, TimerSqe.timeout?]
    rw [perm_iff_count]
    intro a
    simp only [count_append, count_cons, count_nil]
    omega
  have hmem : ∀ t, t ∈ L'.outstanding ↔ t = ⟨i, u.serial⟩ ∨ t ∈ L.outstanding :=
    fun t => hperm.mem_iff.trans mem_cons
  have hother : ∀ j, j ≠ i → L'.timers j = L.timers j := fun j hj => Function.update_of_ne hj ..
  have hself : L'.timers i = ⟨true, u⟩ := Function.update_self ..
  -- the timer is new to the log and to the ring
  have hearly : ∀ a ∈ L.log, a.serial ≠ u.serial := fun a ha => hu ▸ (h.early a ha).ne
  have hnew : ∀ t ∈ L.outstanding, t.serial ≠ u.serial := fun t ht => hu ▸ (h.out t ht).called.ne
  refine ⟨?_, ?_, ?_, ?_, ?_, ?_, ?_,
    fun c hc => (h.results c hc).imp_right (mem_append_left _), h.firesOnce.add hearly⟩
  · rw [(hperm.map _).nodup_iff, map_cons, nodup_cons]
    exact ⟨by simpa using hout, h.distinct⟩
  · rw [(hperm.map _).nodup_iff, map_cons, nodup_cons]
    exact ⟨by simpa using hnew, h.serials⟩
  · exact h.early_append (Nat.le_succ _) (forall_mem_singleton.mpr (hu.trans_lt (Nat.lt_succ_self _)))
  · intro t ht
    rcases (hmem t).mp ht with rfl | ht
    · refine ⟨hu.trans_lt (Nat.lt_succ_self _), ?_, ?_, .inl (by rw [hself]; exact ⟨rfl, rfl⟩)⟩
      · exact fun hm => hearly (.completed u.serial) (by simpa [hL'] using hm) rfl
      · show fires u.serial (L.log ++ [.added u]) = 0
        rw [fires_append, fires_eq_zero hearly]
        rfl
    · have hne : ∀ a ∈ [TimerAct.added u], a.serial ≠ t.serial := by
        simp only [mem_singleton, forall_eq]
        exact (hnew t ht).symm
      exact (h.out t ht).append _ hne rfl (Nat.le_succ _) (hother _ (hout t ht))
  · intro j hj
    by_cases hji : j = i
    · subst hji
      refine ⟨?_, ?_, by rwa [hself], .inr ?_⟩ <;> rw [hself]
      · exact mem_append_right _ (mem_singleton_self _)
      · exact fun hm => hearly (.cancelled u.serial) (by simpa [hL'] using hm) rfl
      · exact (hmem _).mpr (.inl rfl)
    · rw [hother j hji] at hj
      have ha := h.active j hj
      exact ha.append _ (by simp) rfl (hother j hji) (ha.timeout.imp_right fun hm =>
        (hmem _).mpr (.inr hm))
  · intro j hj
    have he := h.calling j hj
    have hji := he.ne_of_inactive hi
    refine he.append _ rfl (hother j hji) fun t ht => ?_
    rcases (hmem t).mp ht with rfl | ht
    · exact Ne.symm hji
    · exact he.empty t ht
  · have hline : L'.line = L.line ++ [.timeout ⟨i, u.serial⟩] := by
      simp [TimerLoop.line, hL', TimerLoop.setSlot]
    rw [hline, pairwise_append]
    refine ⟨h.order.imp (·.append _), pairwise_singleton .., ?_⟩
    intro x _ y hy t _ ht
    rw [mem_singleton.mp hy] at ht
    cases ht

theorem Exact.add (h : Exact L) {ms : ℕ} {cb data : Ptr} (hc : Careful L (.add ms cb data room)) :
    Exact (loopAddTimer L ms cb data room).1 := by
  unfold loopAddTimer
  by_cases hcb : cb = 0
  · rwa [if_pos hcb]
  rw [if_neg hcb]
  split
  · exact h
  next i hi =>
    have hout := hc i hi
    cases room with
    | true => exact h.addSlot (freeSlot_inactive hi) hout rfl hcb
    | false =>
      -- all that is left behind is what is in the slot
      refine h.free hout rfl (Nat.le_succ _) (fun hin => ?_) fun _ _ => .rfl
      exact (h.calling i hin).ne_of_inactive (freeSlot_inactive hi) rfl

theorem Exact.next (h : Exact L) {e : TimerEvent} (hc : Careful L e) (hn : L.next e = some L') :
    Exact L' := by
  cases e with
  | add ms cb data room =>
    simp only [TimerLoop.next, Option.ite_none_left_eq_some, Option.some.injEq] at hn
    obtain ⟨-, rfl⟩ := hn
    exact h.add hc
  | cancel id room =>
    simp only [TimerLoop.next, Option.ite_none_left_eq_some, Option.some.injEq] at hn
    obtain ⟨-, rfl⟩ := hn
    exact h.cancel hc
  | runOnce r =>
    simp only [TimerLoop.next, Option.ite_none_right_eq_some] at hn
    exact h.runOnce hn.1 hn.2
  | step =>
    simp only [TimerLoop.next, TimerLoop.step] at hn
    split at hn
    next => cases hn
    next hw =>
      cases hn
      exact h.walk hw
    next i hi =>
      cases hn
      exact h.leave hi
  | issue => exact h.issue hn
  | expire t => exact h.expire hn
  | deliver c => exact h.deliver hn

/-- **Every callback is called exactly once.** In a run in which every timer is added
to a slot without an outstanding timeout and no callback cancels its own timer, a
timer's callback is called once when its completion is processed, and never if the
timer was cancelled. -/
theorem timers_fire_once (h : Reaches TimerLoop.next Careful loopCreate L) : FiresOnce L.log :=
  (h.invariant Exact exact_create fun _ _ _ hx hc hn => hx.next hc hn).firesOnce

/-- One timer is added and expires. -/
def oneTimer : List TimerEvent :=
  [.add 50 7 8 true, .runOnce .waitFails, .issue, .expire ⟨0, 0⟩, .deliver ⟨⟨0, 0⟩, -ETIME⟩,
    .runOnce .ready, .step]

theorem timers_fire_once_one :
    ∃ L, Reaches TimerLoop.next Careful loopCreate L ∧ .fired 0 ⟨0, 50, 7, 8⟩ ∈ L.log ∧
    FiresOnce L.log := by
  obtain ⟨L, hL, hp⟩ := exists_reaches TimerLoop.next Careful loopCreate oneTimer
    (fun L => .fired 0 ⟨0, 50, 7, 8⟩ ∈ L.log) (by decide +kernel)
  exact ⟨L, hL, hp, timers_fire_once hL⟩

/-- A timer is cancelled, and another one is added to its slot before the completion
of the first is processed. -/
def reuseSlot : List TimerEvent :=
  [.add 50 7 8 true, .cancel 0 true, .add 60 9 10 true, .runOnce .waitFails, .issue, .issue, .issue,
    .deliver ⟨⟨0, 0⟩, -ECANCELED⟩, .runOnce .ready, .step, .step, .expire ⟨0, 1⟩,
    .deliver ⟨⟨0, 1⟩, -ETIME⟩, .runOnce .ready, .step]

/-- The second timer was not cancelled, and its completion was processed without a call. -/
def Missed (L : TimerLoop) : Prop :=
  .added ⟨1, 60, 9, 10⟩ ∈ L.log ∧ .cancelled 1 ∉ L.log ∧ .completed 1 ∈ L.log ∧ fires 1 L.log = 0
  deriving Decidable

/-- **A timer does not fire**, if it is added to the slot of one that was cancelled: the
completion of the old one makes the slot inactive. -/
theorem timer_lost : ¬∀ L, Reaches TimerLoop.next (fun _ _ => True) loopCreate L → FiresOnce L.log := by
  intro h
  obtain ⟨L, hL, hadd, hkept, hdone, hnone⟩ := exists_reaches TimerLoop.next (fun _ _ => True)
    loopCreate reuseSlot Missed (by decide +kernel)
  have := (h L hL).once _ hadd hkept
  rw [if_pos hdone, hnone] at this
  cases this

end Iohttp
