/-
# The type that a client accepts

`Accept` lists media ranges with weights, and the most specific range that covers a type
gives the type its weight. `ioh_request_accepts` reads no weight: it returns the
first offered type that the first range of the list with any such type
covers. A range with a tab next to it covers nothing for it, as only spaces are
trimmed, and one with parameters covers what it would without them. So the answer
follows the weights if these fall from range to range.
-/
import Iohttp.Lib.Weighted
import Iohttp.Http.Smuggling
import Mathlib.Data.List.Find

namespace Iohttp

open List

open Pico (tokenChar isCtl)
open Weighted (ows ows_nil Weight Elem Item listText elems)

/-! ### Media ranges -/

/-- A type, or a range: two tokens with a slash between them. -/
def IsMediaType (b : Bytes) : Prop := ∃ type sub, IsToken type ∧ IsToken sub ∧ b = type ++ slash :: sub

/-- What may stand between the quotes of a string; a backslash quotes the byte
behind it. -/
def isQuoted : Bytes → Bool
  | [] => true
  | [92] => false
  | 92 :: c :: s => !isCtl c && isQuoted s
  | c :: s => !isCtl c && c != 34 && isQuoted s

/-- A parameter of a range, which may be missing, with the semicolon in front of it.
Its value is a token or a quoted string. -/
structure RangeParam where
  before : Bytes
  after : Bytes
  pair : Option (Bytes × Bytes)
  before_ows : ∀ c ∈ before, ows c = true
  after_ows : ∀ c ∈ after, ows c = true
  name_ok : ∀ p ∈ pair, IsToken p.1 ∧ eqIgnoreCase p.1 (bytes "q") = false
  value_ok : ∀ p ∈ pair, IsToken p.2 ∨ ∃ s, isQuoted s = true ∧ p.2 = 34 :: s ++ [34]

def RangeParam.text (p : RangeParam) : Bytes :=
  p.before ++ 59 :: p.after ++ p.pair.elim [] fun p => p.1 ++ 61 :: p.2

/-- A media range with its weight, and the parameters in front of that. -/
structure MediaRange where
  elem : Elem
  params : List RangeParam
  isType : IsMediaType elem.name

def MediaRange.text (r : MediaRange) : Bytes :=
  r.elem.name ++ r.params.flatMap RangeParam.text ++ r.elem.weight.elim [] Weight.text

/-- What stands between two commas of `Accept`, which may be nothing. -/
structure AcceptItem where
  lead : Bytes
  range : Option MediaRange
  trail : Bytes
  lead_ows : ∀ c ∈ lead, ows c = true
  trail_ows : ∀ c ∈ trail, ows c = true

def AcceptItem.text (i : AcceptItem) : Bytes := i.lead ++ i.range.elim [] MediaRange.text ++ i.trail

/-- The item without the parameters of its range. -/
def AcceptItem.item (i : AcceptItem) : Item :=
  ⟨i.lead, i.range.map MediaRange.elem, i.trail, i.lead_ows, i.trail_ows⟩

variable {b t item : Bytes} {types offered : List Bytes} {i : Item} {e : Elem} {items : List Item}
  {c : UInt8} {a m mem rest type : Bytes}

theorem notMem_token (h : IsToken b) (hc : tokenChar c = false) : c ∉ b := fun hm => by
  rw [all_eq_true.mp h.2 c hm] at hc
  cases hc

theorem IsMediaType.notMem (h : IsMediaType b) (hslash : c ≠ slash)
    (hc : tokenChar c = false) : c ∉ b := by
  obtain ⟨type, sub, htype, hsub, rfl⟩ := h
  simp only [mem_append, mem_cons, not_or]
  exact ⟨notMem_token htype hc, hslash, notMem_token hsub hc⟩

section

variable (htypes : ∀ t ∈ types, IsMediaType t)

include htypes

end

variable {req : Request}

variable {rs pre post : List MediaRange} {r : MediaRange}

end Iohttp
