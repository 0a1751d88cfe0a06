/-
# Items that open and close

A list of items, some of which open a level and some of which close the last one
that is open. A stack of bounded size takes them one by one; what is left on it
are the items that no later one closes.

The depth of a list is the number of items that open less the number of those
that close. An item that opens stays open if no start of what follows it has a
depth below zero.

Key definitions: `depth`, `kept`, `run`.

Key theorem: `run_iff`.
-/
import Mathlib.Tactic
import Mathlib.Data.List.Infix

namespace Nesting

open List

/-- What an item does. -/
inductive Kind where
  | opens
  | closes
  | neither
  deriving DecidableEq, Repr

def Kind.weight : Kind → ℤ
  | .opens => 1
  | .closes => -1
  | .neither => 0

variable {α : Type*} (kind : α → Kind)

/-- How many items open, less those that close. -/
def depth (l : List α) : ℤ := (l.map fun a => (kind a).weight).sum

/-- The items that open and are never closed. -/
def kept : List α → List α
  | [] => []
  | a :: l => if kind a = .opens ∧ ∀ p ∈ l.inits, 0 ≤ depth kind p then a :: kept l else kept l

/-- The stack, its top first, with room for `cap` items; there is no result if one
closes nothing, or opens too much. -/
def run (cap : ℕ) : List α → List α → Option (List α)
  | stack, [] => some stack.reverse
  | stack, a :: l =>
    match kind a with
    | .neither => run cap stack l
    | .closes =>
      match stack with
      | [] => none
      | _ :: stack => run cap stack l
    | .opens => if cap ≤ stack.length then none else run cap (a :: stack) l

/-- How far below zero the depth of a start gets. -/
def deficit : List α → ℕ
  | [] => 0
  | a :: l =>
    match kind a with
    | .opens => deficit l - 1
    | .closes => deficit l + 1
    | .neither => deficit l

variable {kind}

theorem depth_cons (a : α) (l : List α) : depth kind (a :: l) = (kind a).weight + depth kind l := by
  rfl

/-- What holds of all starts of a list, one item at a time. -/
theorem forall_inits_cons {a : α} {l : List α} {P : List α → Prop} :
    (∀ p ∈ (a :: l).inits, P p) ↔ P [] ∧ ∀ p ∈ l.inits, P (a :: p) := by
  rw [inits_cons, forall_mem_cons, forall_mem_map]

theorem forall_depth_iff : ∀ {l : List α} {d : ℕ}, (∀ p ∈ l.inits, -(d : ℤ) ≤ depth kind p) ↔
    deficit kind l ≤ d
  | [], d => by simp [deficit, depth]
  | a :: l, d => by
    have hnil : -(d : ℤ) ≤ depth kind [] := by simp [depth]
    rw [forall_inits_cons, and_iff_right hnil, deficit]
    simp only [depth_cons]
    cases ha : kind a with
    | opens =>
      have hl := forall_depth_iff (l := l) (d := d + 1)
      simp only [Kind.weight]
      refine Iff.trans (forall₂_congr fun p _ => ?_) (hl.trans (by omega))
      omega
    | closes =>
      simp only [Kind.weight]
      cases d with
      | zero =>
        refine iff_of_false (fun h => ?_) (by omega)
        have := h [] <| mem_inits _ _ |>.mpr nil_prefix
        simp [depth] at this
      | succ d =>
        have hl := forall_depth_iff (l := l) (d := d)
        refine Iff.trans (forall₂_congr fun p _ => ?_) (hl.trans (by omega))
        omega
    | neither =>
      simp only [Kind.weight, zero_add]
      exact forall_depth_iff

/-- An item stays open if what follows it does not get below zero. -/
theorem forall_depth_nonneg {l : List α} : (∀ p ∈ l.inits, 0 ≤ depth kind p) ↔ deficit kind l = 0 := by
  have h : (∀ p ∈ l.inits, -((0 : ℕ) : ℤ) ≤ depth kind p) ↔ deficit kind l ≤ 0 := forall_depth_iff
  simpa using h

/-- **What is left on the stack**: there is a result exactly if the depth stays
between zero and the size of the stack, and it is made of the items of the stack
that were not closed, and those of the list that stay open. -/
theorem run_iff {cap : ℕ} : ∀ {l stack out : List α}, stack.length ≤ cap →
    (run kind cap stack l = some out ↔
      (∀ p ∈ l.inits, 0 ≤ stack.length + depth kind p ∧ stack.length + depth kind p ≤ cap) ∧
        out = (stack.drop (deficit kind l)).reverse ++ kept kind l)
  | [], stack, out, hcap => by
    have hdepth : ∀ p ∈ ([] : List α).inits, 0 ≤ (stack.length : ℤ) + depth kind p ∧
        (stack.length : ℤ) + depth kind p ≤ cap := by
      simp [depth, hcap]
    rw [and_iff_right hdepth]
    simp [run, deficit, kept, eq_comm]
  | a :: l, stack, out, hcap => by
    have hnil : 0 ≤ (stack.length : ℤ) + depth kind [] ∧ (stack.length : ℤ) + depth kind [] ≤ cap := by
      simp [depth, hcap]
    rw [forall_inits_cons, and_iff_right hnil, deficit, kept]
    unfold run
    simp only [depth_cons]
    cases ha : kind a with
    | neither =>
      simp only [Kind.weight, zero_add, reduceCtorEq, false_and, if_false]
      exact run_iff hcap
    | closes =>
      simp only [Kind.weight, reduceCtorEq, false_and, if_false]
      cases stack with
      | nil =>
        refine iff_of_false nofun fun h => ?_
        have := (h.1 [] (mem_inits _ _ |>.mpr nil_prefix)).1
        simp [depth] at this
      | cons top stack =>
        rw [length_cons] at hcap
        rw [run_iff (by omega), drop_succ_cons, length_cons]
        refine and_congr_left' (forall₂_congr fun p _ => ?_)
        constructor <;> intro h <;> constructor <;> omega
    | opens =>
      simp only [Kind.weight, true_and]
      by_cases hfull : cap ≤ stack.length
      · rw [if_pos hfull]
        refine iff_of_false nofun fun h => ?_
        have := (h.1 [] (mem_inits _ _ |>.mpr nil_prefix)).2
        simp only [depth, map_nil, sum_nil] at this
        omega
      · rw [if_neg hfull, run_iff (by rw [length_cons]; omega), length_cons]
        refine and_congr (forall₂_congr fun p _ => ?_) ?_
        · push_cast
          constructor <;> intro h <;> constructor <;> omega
        · by_cases hopen : deficit kind l = 0
          · rw [if_pos (forall_depth_nonneg.mpr hopen), hopen]
            simp
          · obtain ⟨d, hd⟩ := Nat.exists_eq_succ_of_ne_zero hopen
            rw [if_neg (fun h => hopen (forall_depth_nonneg.mp h)), hd, drop_succ_cons]
            rfl

end Nesting
