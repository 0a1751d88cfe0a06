/-
# Memory as objects

A pointer is an object and an offset in it. The memory has the contents of the
objects that are alive; what is read through a pointer into an object that is
dead, or past its end, is nothing.

Key definitions: `Ptr`, `Mem.load`, `Mem.set`, `Mem.kill`, `Mem.write`, `overwrite`,
`fetch`, `store`.
-/
import Mathlib.Tactic

namespace Memory

open List

variable {α : Type*} {b data : List α} {off : ℕ}

/-- A pointer into an object. -/
structure Ptr where
  obj : ℕ
  off : ℕ
  deriving DecidableEq, Repr

/-- The pointer `n` further on. -/
def Ptr.add (p : Ptr) (n : ℕ) : Ptr := ⟨p.obj, p.off + n⟩

/-- The contents of the objects that are alive. -/
def Mem (α : Type*) := ℕ → Option (List α)

/-- No object is alive. -/
def Mem.empty : Mem α := fun _ => none

/-- What is read through a pointer. -/
def Mem.load (m : Mem α) (p : Ptr) (n : ℕ) : Option (List α) :=
  (m p.obj).bind fun b => if p.off + n ≤ b.length then some ((b.drop p.off).take n) else none

/-- The object is alive, with these contents. -/
def Mem.set (m : Mem α) (o : ℕ) (b : List α) : Mem α := fun o' => if o' = o then some b else m o'

/-- The object dies. -/
def Mem.kill (m : Mem α) (o : ℕ) : Mem α := fun o' => if o' = o then none else m o'

/-- The contents of an object after a write of `data` at `off`. -/
def overwrite (b : List α) (off : ℕ) (data : List α) : List α :=
  b.take off ++ data ++ b.drop (off + data.length)

/-- The memory after a write through a pointer, if what is written has room there. -/
def Mem.write (m : Mem α) (p : Ptr) (data : List α) : Mem α :=
  match m p.obj with
  | some b => if p.off + data.length ≤ b.length then m.set p.obj (overwrite b p.off data) else m
  | none => m

@[simp]
theorem Mem.set_same (m : Mem α) (o : ℕ) (b : List α) : m.set o b o = some b := if_pos rfl

variable {n o o' : ℕ} {m : Mem α} {p : Ptr}

theorem Mem.set_other (m : Mem α) (b : List α) (h : o' ≠ o) : m.set o b o' = m o' := if_neg h

@[simp]
theorem Mem.kill_same (m : Mem α) (o : ℕ) : m.kill o o = none := if_pos rfl

theorem Mem.kill_other (m : Mem α) (h : o' ≠ o) : m.kill o o' = m o' := if_neg h

theorem Mem.load_eq (h : m p.obj = some b) (n : ℕ) :
    m.load p n = if p.off + n ≤ b.length then some ((b.drop p.off).take n) else none := by
  rw [Mem.load, h, Option.bind_some]

theorem Mem.length_of_load (h : m.load p n = some data) : data.length = n := by
  rw [Mem.load, Option.bind_eq_some_iff] at h
  obtain ⟨b, _, h⟩ := h
  split at h
  · next hle =>
    cases h
    rw [length_take, length_drop]
    omega
  · cases h

/-! ### Writes -/

section

variable (h : off + data.length ≤ b.length)

include h

theorem length_overwrite :
    (overwrite b off data).length = b.length := by
  simp only [overwrite, length_append, length_take, length_drop]
  omega

theorem getElem?_overwrite (i : ℕ) : (overwrite b off data)[i]? =
    if i < off then b[i]? else if i < off + data.length then data[i - off]? else b[i]? := by
  grind [overwrite]

/-- What was written is read back. -/
theorem overwrite_same :
    ((overwrite b off data).drop off).take data.length = data := by
  refine ext_getElem? fun i => ?_
  rw [getElem?_take, getElem?_drop, getElem?_overwrite h]
  grind

end

/-- What lies before a write is as it was. -/
theorem overwrite_before {p : ℕ} (hb : off ≤ b.length) (h : p + n ≤ off) :
    ((overwrite b off data).drop p).take n = (b.drop p).take n := by
  have hlen : (b.take off).length = off := by
    rw [length_take]
    omega
  rw [overwrite, append_assoc, drop_append_of_le_length (by omega),
    take_append_of_le_length (by rw [length_drop]; omega), drop_take, take_take,
    min_eq_left (by omega)]

/-- What lies apart from a write is as it was. -/
theorem overwrite_apart {p : ℕ} (hb : off + data.length ≤ b.length)
    (h : p + n ≤ off ∨ off + data.length ≤ p) :
    ((overwrite b off data).drop p).take n = (b.drop p).take n := by
  refine ext_getElem? fun i => ?_
  rw [getElem?_take, getElem?_take, getElem?_drop, getElem?_drop, getElem?_overwrite hb]
  grind

/-- A write inside a part of an object is one to the part. -/
theorem overwrite_part (hdata : off + data.length ≤ n) (hb : o + n ≤ b.length) :
    ((overwrite b (o + off) data).drop o).take n = overwrite ((b.drop o).take n) off data := by
  have hlen : ((b.drop o).take n).length = n := by
    rw [length_take, length_drop]
    omega
  refine ext_getElem? fun i => ?_
  rw [getElem?_overwrite (by omega), getElem?_take, getElem?_drop, getElem?_overwrite (by omega)]
  grind

/-- What was written stands behind what lies before it. -/
theorem overwrite_behind {p : ℕ} (hp : p ≤ off) (h : off + data.length ≤ b.length) :
    ((overwrite b off data).drop p).take (off - p + data.length) = (b.drop p).take (off - p) ++
    data := by
  refine ext_getElem? fun i => ?_
  rw [getElem?_take, getElem?_drop, getElem?_overwrite h]
  grind

theorem overwrite_nil (b : List α) (off : ℕ) : overwrite b off [] = b := by
  rw [overwrite, append_nil, length_nil, Nat.add_zero, take_append_drop]

variable {new old : List α}

/-- A write that starts within another one and ends behind it. -/
theorem overwrite_overwrite (hb : off + data.length + new.length ≤ b.length)
    (hnew : old.length ≤ new.length) :
    overwrite (overwrite b off (data ++ old)) (off + data.length) new = overwrite b off
    (data ++ new) := by
  have hlen : off + (data ++ old).length ≤ b.length := by grind
  refine ext_getElem? fun i => ?_
  rw [getElem?_overwrite (by rw [length_overwrite hlen]; omega), getElem?_overwrite hlen,
    getElem?_overwrite (by grind)]
  grind

/-- Writes one behind the other. -/
theorem overwrite_append (hb : off + data.length + new.length ≤ b.length) :
    overwrite (overwrite b off data) (off + data.length) new = overwrite b off (data ++ new) := by
  have h : overwrite (overwrite b off (data ++ [])) (off + data.length) new = overwrite b off
      (data ++ new) :=
    overwrite_overwrite hb (Nat.zero_le _)
  rwa [append_nil] at h

theorem Mem.write_eq (h : m p.obj = some b) (hle : p.off + data.length ≤ b.length) :
    m.write p data = m.set p.obj (overwrite b p.off data) := by
  rw [Mem.write, h]
  exact if_pos hle

/-- A write inside what is read through a pointer. -/
theorem Mem.load_write_part (h : m.load p old.length = some old)
    (hle : off + data.length ≤ old.length) :
    (m.write (p.add off) data).load p old.length = some (overwrite old off data) := by
  rw [Mem.load, Option.bind_eq_some_iff] at h
  obtain ⟨b, hb, h⟩ := h
  split at h
  case isFalse => cases h
  case isTrue hroom =>
    have hold : (b.drop p.off).take old.length = old := Option.some.inj h
    have hsum : p.off + off + data.length ≤ b.length := by omega
    rw [Mem.write_eq (p := p.add off) hb hsum]
    dsimp only [Ptr.add]
    rw [Mem.load_eq (Mem.set_same m p.obj _), if_pos, overwrite_part hle hroom, hold]
    rwa [length_overwrite hsum]

/-- What was written through a pointer is read back through it. -/
theorem Mem.load_write_same (h : m p.obj = some b) (hle : p.off + data.length ≤ b.length) :
    (m.write p data).load p data.length = some data := by
  rw [Mem.write_eq h hle, Mem.load_eq (Mem.set_same m p.obj _), length_overwrite hle, if_pos hle,
    overwrite_same hle]

/-- A write does not change the sizes of objects. -/
theorem Mem.length_write (p : Ptr) (data : List α) (h : ∃ b, m o = some b ∧ b.length = n) :
    ∃ b, m.write p data o = some b ∧ b.length = n := by
  obtain ⟨b₀, hb₀, hn⟩ := h
  cases hb : m p.obj with
  | none => exact ⟨b₀, by rw [Mem.write, hb]; exact hb₀, hn⟩
  | some b =>
    by_cases hle : p.off + data.length ≤ b.length
    · rw [Mem.write_eq hb hle]
      by_cases ho : o = p.obj
      · subst ho
        obtain rfl : b = b₀ := Option.some.inj (hb.symm.trans hb₀)
        exact ⟨_, Mem.set_same m _ _, (length_overwrite hle).trans hn⟩
      · exact ⟨b₀, (Mem.set_other m _ ho).trans hb₀, hn⟩
    · exact ⟨b₀, by rw [Mem.write, hb]; exact (congrFun (if_neg hle) o).trans hb₀, hn⟩

/-- A write apart from what is read through a pointer into the same object. -/
theorem Mem.load_write_apart {q : Ptr} (hobj : q.obj = p.obj)
    (h : q.off + data.length ≤ p.off ∨ p.off + n ≤ q.off) : (m.write q data).load p n = m.load p n := by
  rw [Mem.write]
  split
  case h_2 => rfl
  case h_1 b hb =>
    split
    case isFalse => rfl
    case isTrue hle =>
      rw [hobj] at hb ⊢
      rw [Mem.load_eq hb, Mem.load_eq (Mem.set_same m p.obj _), length_overwrite hle,
        overwrite_apart hle h.symm]

/-- What is read at `off`, if all of it lies inside the object. -/
def fetch (b : List α) (off n : ℕ) : Option (List α) :=
  if off + n ≤ b.length then some ((b.drop off).take n) else none

/-- The object after a write at `off`, if all of it lies inside the object. -/
def store (b : List α) (off : ℕ) (data : List α) : Option (List α) :=
  if off + data.length ≤ b.length then some (overwrite b off data) else none

theorem fetch_eq (h : off + n ≤ b.length) : fetch b off n = some ((b.drop off).take n) :=
  if_pos h

theorem store_eq (h : off + data.length ≤ b.length) :
    store b off data = some (overwrite b off data) := if_pos h

end Memory
