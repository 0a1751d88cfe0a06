/-
# Lists with weights

The lists of RFC 9110 by which a client says what it prefers, as in `Accept` and
`Accept-Encoding`: elements between commas, with spaces and tabs around them, some
of them empty, and behind an element its weight, a number from 0 to 1 with at
most three decimals. A list is given by its syntax, and its text is what the
syntax writes.

Key definitions: `Qvalue`, `Weight`, `Elem`, `Item`, `listText`, `elems`.

Key theorems: `Item.mem_text`, `cons_listText`.
-/
import Iohttp.Lib.Decimal

namespace Weighted

open List

/-- A space or a tab. -/
def ows (c : UInt8) : Bool := c == 32 || c == 9

/-- A `qvalue`: a zero or a one, and decimals, which are zero behind a one. -/
structure Qvalue where
  one : Bool
  frac : Option (List UInt8)
  length_le : ∀ f ∈ frac, f.length ≤ 3
  digit : ∀ f ∈ frac, ∀ c ∈ f, 48 ≤ c ∧ c ≤ 57
  zero : one = true → ∀ f ∈ frac, ∀ c ∈ f, c = 48

def Qvalue.text (q : Qvalue) : List UInt8 := (if q.one then 49 else 48) :: q.frac.elim [] (46 :: ·)

def fraction (f : List UInt8) : ℚ := Decimal.number 10 (f.map fun c => c.toNat - 48) / 10 ^ f.length

def Qvalue.value (q : Qvalue) : ℚ := (if q.one then 1 else 0) + q.frac.elim 0 fraction

/-- A weight as it stands behind an element; its `q` may be a capital letter. -/
structure Weight where
  before : List UInt8
  after : List UInt8
  capital : Bool
  q : Qvalue
  before_ows : ∀ c ∈ before, ows c = true
  after_ows : ∀ c ∈ after, ows c = true

def Weight.text (w : Weight) : List UInt8 :=
  w.before ++ 59 :: w.after ++ (if w.capital then 81 else 113) :: 61 :: w.q.text

/-- An element: a name, which holds no separator, and its weight. -/
structure Elem where
  name : List UInt8
  weight : Option Weight
  name_ne : name ≠ []
  name_ok : ∀ c ∈ name, ows c = false ∧ c ≠ 44 ∧ c ≠ 59 ∧ c ≠ 0

def Elem.text (e : Elem) : List UInt8 := e.name ++ e.weight.elim [] Weight.text

def Elem.value (e : Elem) : ℚ := e.weight.elim 1 fun w => w.q.value

/-- What stands between two commas, which may be nothing. -/
structure Item where
  lead : List UInt8
  elem : Option Elem
  trail : List UInt8
  lead_ows : ∀ c ∈ lead, ows c = true
  trail_ows : ∀ c ∈ trail, ows c = true

def Item.text (i : Item) : List UInt8 := i.lead ++ i.elem.elim [] Elem.text ++ i.trail

def listText (items : List Item) : List UInt8 := [44].intercalate (items.map Item.text)

def elems (items : List Item) : List Elem := items.filterMap Item.elem

theorem ows_nil : ∀ c ∈ ([] : List UInt8), ows c = true := by simp

variable {c : UInt8}

/-! ### The bytes of a list -/

theorem ows_cases (h : ows c = true) : c = 32 ∨ c = 9 := by simpa [ows] using h

theorem Qvalue.mem_text {q : Qvalue} (hc : c ∈ q.text) : 46 ≤ c ∧ c ≤ 57 := by
  rcases mem_cons.mp hc with rfl | hc
  · cases q.one <;> decide
  · cases hf : q.frac with
    | none => simp [hf] at hc
    | some f =>
      rw [hf] at hc
      rcases mem_cons.mp hc with rfl | hc
      · decide
      · exact ⟨UInt8.le_trans (show 46 ≤ 48 by decide) (q.digit f hf c hc).1, (q.digit f hf c hc).2⟩

theorem Qvalue.length_text (q : Qvalue) : q.text.length ≤ 5 := by
  cases hf : q.frac with
  | none => simp [Qvalue.text, hf]
  | some f =>
    have := q.length_le f hf
    simp only [Qvalue.text, hf, Option.elim_some, length_cons]
    omega

theorem Qvalue.value_nonneg (q : Qvalue) : 0 ≤ q.value := by
  refine add_nonneg (by split_ifs <;> norm_num) ?_
  cases q.frac with
  | none => exact le_rfl
  | some f => exact div_nonneg (Nat.cast_nonneg _) (by positivity)

theorem Elem.value_nonneg (e : Elem) : 0 ≤ e.value := by
  rw [Elem.value]
  cases e.weight with
  | none => exact zero_le_one
  | some w => exact w.q.value_nonneg

/-- Neither a comma nor a NUL. -/
def Inner (c : UInt8) : Prop := c ≠ 44 ∧ c ≠ 0

theorem inner_of_ows (h : ows c = true) : Inner c := by
  rcases ows_cases h with rfl | rfl <;> exact ⟨by decide, by decide⟩

theorem Weight.mem_text {w : Weight} (hc : c ∈ w.text) : Inner c := by
  simp only [Weight.text, mem_append, mem_cons] at hc
  rcases hc with (hc | rfl | hc) | rfl | rfl | hc
  · exact inner_of_ows (w.before_ows c hc)
  · exact ⟨by decide, by decide⟩
  · exact inner_of_ows (w.after_ows c hc)
  · cases w.capital <;> exact ⟨by decide, by decide⟩
  · exact ⟨by decide, by decide⟩
  · have hq := (Qvalue.mem_text hc).1
    constructor <;> rintro rfl <;> exact absurd hq (by decide)

/-- The commas of a list are between its items. -/
theorem Item.mem_text {i : Item} (hc : c ∈ i.text) : Inner c := by
  simp only [Item.text, mem_append] at hc
  rcases hc with (hc | hc) | hc
  · exact inner_of_ows (i.lead_ows c hc)
  · cases he : i.elem with
    | none => simp [he] at hc
    | some e =>
      simp only [he, Option.elim_some, Elem.text, mem_append] at hc
      rcases hc with hc | hc
      · exact ⟨(e.name_ok c hc).2.1, (e.name_ok c hc).2.2.2⟩
      · cases hw : e.weight with
        | none => simp [hw] at hc
        | some w =>
          rw [hw] at hc
          exact Weight.mem_text hc
  · exact inner_of_ows (i.trail_ows c hc)

def joined (items : List Item) : List UInt8 := items.flatMap fun i => 44 :: i.text

theorem joined_cons (i : Item) (items : List Item) :
    joined (i :: items) = 44 :: (i.text ++ joined items) := by
  simp [joined]

/-- A comma in front of a list makes all items alike. -/
theorem cons_listText : ∀ {items : List Item}, items ≠ [] → 44 :: listText items = joined items
  | [], h => absurd rfl h
  | [i], _ => by simp [listText, joined, List.intercalate]
  | i :: j :: items, _ => by
    rw [joined_cons, ← cons_listText (cons_ne_nil j items), listText, listText, map_cons, map_cons,
      intercalate_cons_cons]
    simp

variable {items : List Item}

/-- What is behind an item is a comma, if there is anything. -/
theorem head?_joined (hc : c ∈ (joined items).head?) : c = 44 := by
  cases items with
  | nil => simp [joined] at hc
  | cons i items => simpa [joined_cons, eq_comm] using hc

theorem ne_zero_of_mem_listText (hc : c ∈ listText items) : c ≠ 0 := by
  cases items with
  | nil => simp [listText] at hc
  | cons i items =>
    have hj : c ∈ joined (i :: items) := cons_listText (cons_ne_nil i items) ▸ mem_cons_of_mem 44 hc
    obtain ⟨j, -, hc⟩ := mem_flatMap.mp hj
    rcases mem_cons.mp hc with rfl | hc
    · decide
    · exact (Item.mem_text hc).2

end Weighted
