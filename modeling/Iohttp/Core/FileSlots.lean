/-
# Registered files

`src/core/ioh_buffer.c`: the pool keeps a copy of the table of files that the ring
has. The ring is a parameter: all that is known of it is that an update which does
not fail puts the file into its slot, and that an update changes nothing else.
`ioh_bufpool_unregister_fd` frees its slot even if the update fails.
-/
import Iohttp.Bytes
import Iohttp.Lib.Runs

namespace Iohttp

open List Runs

abbrev EBADF : ℤ := 9

/-- The rings `ρ` with `io_uring_register_files_update` for one slot, and the file that
a ring has in a slot. -/
structure FileTable (ρ : Type) where
  update : ρ → ℕ → ℤ → ρ × ℤ
  file : ρ → ℕ → ℤ
  updated : ∀ ring slot fd, 0 ≤ (update ring slot fd).2 → file (update ring slot fd).1 slot = fd
  kept : ∀ ring slot fd i, i ≠ slot → file (update ring slot fd).1 i = file ring i

/-- `file_slots`, and the ring. -/
structure FilePool (ρ : Type) where
  slots : List ℤ
  ring : ρ

variable {ρ : Type}

/-- The pool behind `ioh_bufpool_register_files`. -/
def registerFiles (ring : ρ) (count : ℕ) : FilePool ρ := ⟨replicate count (-1), ring⟩

/-- `ioh_bufpool_register_fd`. -/
def registerFd (T : FileTable ρ) (pool : FilePool ρ) (fd : ℤ) : FilePool ρ × ℤ :=
  if fd < 0 then (pool, -EBADF)
  else
    match pool.slots.findIdx? (· = -1) with
    | none => (pool, -ENOSPC)
    | some slot =>
      -- `slot` is an `int`
      if 2 ^ 31 ≤ slot then (pool, -ENOSPC)
      else
        let r := T.update pool.ring slot fd
        if r.2 < 0 then (⟨pool.slots, r.1⟩, r.2) else (⟨pool.slots.set slot fd, r.1⟩, slot)

/-- `ioh_bufpool_unregister_fd`. -/
def unregisterFd (T : FileTable ρ) (pool : FilePool ρ) (slot : ℤ) : FilePool ρ :=
  if slot < 0 ∨ pool.slots.length ≤ slot.toNat then pool
  else ⟨pool.slots.set slot.toNat (-1), (T.update pool.ring slot.toNat (-1)).1⟩

inductive FileCall where
  | register (fd : ℤ)
  | unregister (slot : ℤ)

def FileCall.next (T : FileTable ρ) (pool : FilePool ρ) : FileCall → Option (FilePool ρ)
  | .register fd => some (registerFd T pool fd).1
  | .unregister slot => some (unregisterFd T pool slot)

variable {T : FileTable ρ} {pool pool' : FilePool ρ} {slot : ℕ} {fd : ℤ}

/-- The pool and the ring have the file in the slot. -/
def FilePool.Has (T : FileTable ρ) (pool : FilePool ρ) (slot : ℕ) (fd : ℤ) : Prop :=
  pool.slots[slot]? = some fd ∧ T.file pool.ring slot = fd

/-- What a registration can do: nothing, an update that fails, or one of a free slot. -/
theorem registerFd_spec (T : FileTable ρ) (pool : FilePool ρ) (fd : ℤ) :
    registerFd T pool fd = (pool, (registerFd T pool fd).2) ∧ (registerFd T pool fd).2 < 0 ∨
      ∃ slot : ℕ, 0 ≤ fd ∧ pool.slots[slot]? = some (-1) ∧
        ((T.update pool.ring slot fd).2 < 0 ∧
          registerFd T pool fd = (⟨pool.slots, (T.update pool.ring slot fd).1⟩,
            (T.update pool.ring slot fd).2) ∨
        0 ≤ (T.update pool.ring slot fd).2 ∧
          registerFd T pool fd = (⟨pool.slots.set slot fd, (T.update pool.ring slot fd).1⟩,
            (slot : ℤ))) := by
  unfold registerFd
  by_cases hfd : fd < 0
  · simp [hfd]
  rw [if_neg hfd]
  split
  · simp
  next slot hfree =>
    obtain ⟨hlt, hfile, -⟩ := findIdx?_eq_some_iff_getElem.mp hfree
    have hslot :
      pool.slots[slot]? = some (-1) := by rw [getElem?_eq_getElem hlt, of_decide_eq_true hfile]
    by_cases hint : 2 ^ 31 ≤ slot
    · rw [if_pos hint]
      exact .inl ⟨rfl, show (-ENOSPC : ℤ) < 0 by decide⟩
    · simp only [if_neg hint]
      refine .inr ⟨slot, not_lt.mp hfd, hslot, ?_⟩
      split_ifs with hret
      · exact .inl ⟨hret, rfl⟩
      · exact .inr ⟨not_lt.mp hret, rfl⟩

/-- A free slot is not one that has a file. -/
theorem FilePool.Has.ne_free (h : pool.Has T slot fd) (hfd : 0 ≤ fd) {free : ℕ}
    (hfree : pool.slots[free]? = some (-1)) : slot ≠ free := by
  rintro rfl
  have := Option.some.inj (h.1.symm.trans hfree)
  omega

/-- A call leaves a file where it is, unless it unregisters the slot. -/
theorem FilePool.Has.next (h : pool.Has T slot fd) (hfd : 0 ≤ fd) {c : FileCall}
    (hc : c ≠ .unregister slot) (hnext : c.next T pool = some pool') : pool'.Has T slot fd := by
  cases c with
  | register fd' =>
    cases hnext
    obtain ⟨hsame, -⟩ | ⟨free, -, hfree, ⟨-, hset⟩ | ⟨-, hset⟩⟩ := registerFd_spec T pool fd'
    · rwa [hsame]
    · rw [hset]
      exact ⟨h.1, (T.kept _ _ _ _ (h.ne_free hfd hfree)).trans h.2⟩
    · have hne := h.ne_free hfd hfree
      rw [hset]
      exact ⟨(getElem?_set_ne hne.symm).trans h.1, (T.kept _ _ _ _ hne).trans h.2⟩
  | unregister other =>
    cases hnext
    unfold unregisterFd
    split_ifs with hrange
    · exact h
    · have hne : slot ≠ other.toNat := by
        rintro rfl
        exact hc (by rw [Int.toNat_of_nonneg (by omega)])
      exact ⟨(getElem?_set_ne hne.symm).trans h.1, (T.kept _ _ _ _ hne).trans h.2⟩

/-- **A registered file stays.** After a registration that returns a slot, whatever
is called while the slot is not unregistered, and whichever updates of the ring
fail: the pool and the ring have the file in the slot, and no registration returns
the slot again. -/
theorem registered_file_stays (hslot : (registerFd T pool fd).2 = slot)
    (h : Reaches (FileCall.next T) (fun _ c => c ≠ .unregister slot) (registerFd T pool fd).1 pool') :
    pool'.Has T slot fd ∧ ∀ fd', (registerFd T pool' fd').2 ≠ slot := by
  obtain ⟨-, hneg⟩ | ⟨free, hfd, hfree, ⟨hneg, hset⟩ | ⟨hret, hset⟩⟩ := registerFd_spec T pool fd
  · omega
  · rw [hset] at hslot
    omega
  rw [hset, Nat.cast_inj] at hslot
  subst hslot
  have hstart : (registerFd T pool fd).1.Has T free fd := by
    rw [hset]
    exact ⟨getElem?_set_self (List.getElem?_eq_some_iff.mp hfree).1, T.updated _ _ _ hret⟩
  have hheld := h.invariant (·.Has T free fd) hstart fun _ _ _ hi hc hn => hi.next hfd hc hn
  refine ⟨hheld, fun fd' heq => ?_⟩
  obtain ⟨-, hneg⟩ | ⟨again, -, hagain, ⟨hneg, hset'⟩ | ⟨-, hset'⟩⟩ := registerFd_spec T pool' fd'
  · omega
  · rw [hset'] at heq
    omega
  · rw [hset', Nat.cast_inj] at heq
    exact hheld.ne_free hfd hagain heq.symm

/-- A ring that has no file 200. -/
def smallTable : FileTable (ℕ → ℤ) where
  update ring slot fd := if fd = 200 then (ring, -EBADF) else (Function.update ring slot fd, 1)
  file ring slot := ring slot
  updated ring slot fd h := by
    split_ifs at h ⊢
    · exact absurd h (show ¬(0 : ℤ) ≤ -EBADF by decide)
    · exact Function.update_self ..
  kept ring slot fd i hi := by
    split_ifs
    · rfl
    · exact Function.update_of_ne hi ..

/-- Another file comes and goes, and a third one takes its slot. -/
theorem registered_file_stays_seven :
    ∃ pool, Reaches (FileCall.next smallTable) (fun _ c => c ≠ .unregister (0 : ℕ))
        (registerFd smallTable (registerFiles (fun _ => -1) 2) 7).1 pool ∧
      pool.slots = [7, 9] ∧ pool.Has smallTable 0 7 := by
  obtain ⟨pool, h, hslots⟩ := exists_reaches (FileCall.next smallTable)
    (fun _ c => c ≠ .unregister (0 : ℕ)) (registerFd smallTable (registerFiles (fun _ => -1) 2) 7).1
    [.register 8, .register 200, .unregister 1, .register 9] (fun pool => pool.slots = [7, 9])
    ⟨by simp, _, rfl, by simp, _, rfl, by simp, _, rfl, by simp, _, rfl, rfl⟩
  exact ⟨pool, h, hslots, (registered_file_stays rfl h).1⟩

end Iohttp
