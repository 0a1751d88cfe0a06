/-
# Text put together in a buffer

`off += snprintf(buf + off, size - off, ...)`: every call returns the length of
what it was to write, whether that has fit or not, so the offset counts the
whole text. Up to the size of the buffer the calls write what fits; a call
whose offset is past the end is given a size that has wrapped around, and
writes behind the buffer.

Key definitions: `append`, `offsets`, `Inside`, `separated`.

Key theorems: `inside_iff`, `foldlM_append_of_inside`.
-/
import Mathlib.Tactic

namespace Format

open List

variable {α : Type*} {size off : ℕ} {text : List α} {pieces : List (List α)}

/-- The offset, and the text in the buffer. -/
structure Builder (α : Type*) where
  off : ℕ
  text : List α

/-- What `snprintf` returns, as a `size_t`: there is an error if an `int` cannot have
the length. -/
def returned (piece : List α) : ℕ := if piece.length < 2 ^ 31 then piece.length else 2 ^ 64 - 1

/-- The offset after a call. -/
def advance (off : ℕ) (piece : List α) : ℕ := (off + returned piece) % 2 ^ 64

/-- A call: what fits is written, with a NUL behind it. A call past the end writes
outside of the buffer and has no result here. -/
def append (size : ℕ) (b : Builder α) (piece : List α) : Option (Builder α) :=
  if size < b.off then none
  else some ⟨advance b.off piece, if b.off < size then (b.text.take b.off ++ piece).take
    (size - 1) else b.text⟩

def offsets : ℕ → List (List α) → List ℕ
  | _, [] => []
  | off, piece :: pieces => off :: offsets (advance off piece) pieces

/-- No call is past the end. -/
def Inside (size : ℕ) (pieces : List (List α)) : Prop := ∀ off ∈ offsets 0 pieces, off ≤ size
  deriving Decidable

/-- What is written for the members of a list, with a separator before each but the first. -/
def separated (sep : List α) : List (List (List α)) → List (List α)
  | [] => []
  | x :: xs => x ++ xs.flatMap (sep :: ·)

theorem of_mem_separated {sep p : List α} {xs : List (List (List α))} (h : p ∈ separated sep xs) :
    p = sep ∨ ∃ x ∈ xs, p ∈ x := by
  cases xs with
  | nil => cases h
  | cons x xs =>
    rw [separated, mem_append, mem_flatMap] at h
    obtain h | ⟨y, hy, h⟩ := h
    · exact .inr ⟨x, mem_cons_self, h⟩
    · exact (mem_cons.mp h).imp_right fun h => ⟨y, mem_cons_of_mem _ hy, h⟩

theorem advance_eq (hoff : off ≤ 2 ^ 31) {piece : List α} (hlen : piece.length < 2 ^ 31) :
    advance off piece = off + piece.length := by
  rw [advance, returned, if_pos hlen]
  omega

/-- The offsets stay inside up to the last call if and only if what comes before it does. -/
theorem offsets_le_iff (hsize : size ≤ 2 ^ 31) : ∀ {pieces : List (List α)} {off : ℕ}, off ≤ size →
    (∀ p ∈ pieces, p.length < 2 ^ 31) →
    ((∀ o ∈ offsets off pieces, o ≤ size) ↔ off + pieces.dropLast.flatten.length ≤ size)
  | [], off, hoff, _ | [piece], off, hoff, _ => by simp [offsets, hoff]
  | piece :: next :: rest, off, hoff, hlen => by
    have hadv := advance_eq (hoff.trans hsize) (hlen piece mem_cons_self)
    have hrest := (forall_mem_cons.mp hlen).2
    rw [offsets, forall_mem_cons, hadv, dropLast_cons_cons, flatten_cons, length_append, ← Nat.add_assoc]
    by_cases hin : off + piece.length ≤ size
    · rw [offsets_le_iff hsize hin hrest, and_iff_right hoff]
    · refine iff_of_false (fun h => hin (h.2 _ ?_)) (by omega)
      exact mem_cons_self

theorem inside_iff (hsize : size ≤ 2 ^ 31) (hlen : ∀ p ∈ pieces, p.length < 2 ^ 31) :
    Inside size pieces ↔ pieces.dropLast.flatten.length ≤ size := by
  rw [Inside, offsets_le_iff hsize (Nat.zero_le _) hlen, Nat.zero_add]

theorem foldlM_append (hsize : size ≤ 2 ^ 31) :
    ∀ {pieces : List (List α)} {text : List α}, text.length ≤ size →
    (∀ p ∈ pieces, p.length < 2 ^ 31) → (∀ o ∈ offsets text.length pieces, o ≤ size) →
    pieces.foldlM (append size) ⟨text.length, text.take (size - 1)⟩ =
      some ⟨(text ++ pieces.flatten).length, (text ++ pieces.flatten).take (size - 1)⟩
  | [], text, _, _, _ => by simp
  | piece :: pieces, text, htext, hlen, hin => by
    have hadv := advance_eq (htext.trans hsize) (hlen piece mem_cons_self)
    rw [offsets, forall_mem_cons, hadv, ← length_append] at hin
    have happend : append size ⟨text.length, text.take (size - 1)⟩ piece =
        some ⟨(text ++ piece).length, (text ++ piece).take (size - 1)⟩ := by
      rw [append, if_neg (Nat.not_lt.mpr htext), hadv, length_append]
      dsimp only
      congr 2
      split
      case isTrue h =>
        rw [take_take, min_eq_left (by omega), take_of_length_le le_rfl]
      case isFalse h =>
        rw [take_append_of_le_length (by omega)]
    rw [foldlM_cons, happend, Option.bind_eq_bind, Option.bind_some, flatten_cons, ← append_assoc]
    cases pieces with
    | nil => simp
    | cons next rest =>
      refine foldlM_append hsize ?_ (forall_mem_cons.mp hlen).2 hin.2
      exact hin.2 _ mem_cons_self

/-- **Calls that stay inside** write the text as far as it fits, and count all of it. -/
theorem foldlM_append_of_inside (hsize : size ≤ 2 ^ 31) (hlen : ∀ p ∈ pieces, p.length < 2 ^ 31)
    (hin : Inside size pieces) :
    pieces.foldlM (append size) ⟨0, []⟩ = some
    ⟨pieces.flatten.length, pieces.flatten.take (size - 1)⟩ := by
  have h : pieces.foldlM (append size) ⟨([] : List α).length, [].take (size - 1)⟩ = _ :=
    foldlM_append hsize (Nat.zero_le _) hlen hin
  rwa [take_nil, nil_append] at h

end Format
