/-
# Numbers written in digits

A number is written with its first digit in front. A loop that multiplies and adds
reads it; with a bound it stops as soon as it has read too much, which happens
exactly if the number is too large: leading zeros do not count.

Key definitions: `number`, `accumulate`.

Key theorem: `accumulate_eq`.
-/
import Mathlib.Tactic
import Mathlib.Data.Nat.Digits.Defs

namespace Decimal

def number (base : ℕ) (ds : List ℕ) : ℕ := Nat.ofDigits base ds.reverse

/-- The loop, for numbers below `bound`. -/
def accumulate (base bound : ℕ) : ℕ → List ℕ → Option ℕ
  | n, [] => some n
  | n, d :: ds => if bound ≤ n * base + d then none else accumulate base bound (n * base + d) ds

variable {base bound : ℕ}

theorem number_eq_foldl (base : ℕ) (ds : List ℕ) :
    number base ds = ds.foldl (fun n d => n * base + d) 0 := by
  rw [number, Nat.ofDigits_eq_foldr, List.foldr_reverse]
  congr 1
  funext n d
  rw [Nat.cast_id, Nat.add_comm, Nat.mul_comm]

/-- Digits do not make a number smaller. -/
theorem le_foldl (hbase : 0 < base) : ∀ (ds : List ℕ) (n : ℕ), n ≤ ds.foldl (fun n d => n * base + d) n
  | [], _ => le_rfl
  | d :: ds, n => by
    have hstep : n ≤ n * base + d := (Nat.le_mul_of_pos_right n hbase).trans (Nat.le_add_right _ _)
    exact hstep.trans (le_foldl hbase ds _)

theorem accumulate_foldl (hbase : 0 < base) : ∀ (ds : List ℕ) {n : ℕ}, n < bound →
    accumulate base bound n ds =
      if ds.foldl (fun n d => n * base + d) n < bound then some
      (ds.foldl (fun n d => n * base + d) n) else none
  | [], n, hn => by
    rw [List.foldl_nil, if_pos hn]
    rfl
  | d :: ds, n, _ => by
    rw [accumulate, List.foldl_cons]
    by_cases hfull : bound ≤ n * base + d
    · rw [if_pos hfull, if_neg (not_lt.mpr (hfull.trans (le_foldl hbase ds _)))]
    · rw [if_neg hfull]
      exact accumulate_foldl hbase ds (not_le.mp hfull)

/-- **The loop reads the number**, if it is below the bound. -/
theorem accumulate_eq (hbase : 0 < base) (hbound : 0 < bound) (ds : List ℕ) :
    accumulate base bound 0 ds = if number base ds < bound then some (number base ds) else none := by
  rw [accumulate_foldl hbase ds hbound, number_eq_foldl]

end Decimal
