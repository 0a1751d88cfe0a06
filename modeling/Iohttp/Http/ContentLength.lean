/-
# Content-Length in HTTP/2 and HTTP/3

`on_header_cb` of `src/http/ioh_http2.c` and `h3_recv_header_cb` of
`src/http/ioh_http3.c` read `content-length` with the same loop: the field of the
request is the accumulator, and `ckd_mul` and `ckd_add` tell when it would
overflow. A leading zero never does.

Copies are made as in `Http/Arena.lean`, where the memory for them is there.
-/
import Iohttp.Http.Arena
import Iohttp.Lib.Decimal
import Mathlib.Data.FinEnum

namespace Iohttp

def IsDecDigit (c : UInt8) : Prop := 48 ≤ c ∧ c ≤ 57
  deriving Decidable

def writtenNumber (value : Bytes) : ℕ := Decimal.number 10 (value.map fun c => c.toNat - 48)

theorem lengthLoop_accumulate (value : Bytes) (n : ℕ) :
    lengthLoop n value =
      if ∀ c ∈ value, IsDecDigit c then
        Decimal.accumulate 10 (2 ^ 64) n (value.map fun c => c.toNat - 48) else none := by
  induction value generalizing n with
  | nil => simp [lengthLoop, Decimal.accumulate]
  | cons c value ih =>
    rw [lengthLoop, List.map_cons, Decimal.accumulate]
    by_cases hc : IsDecDigit c
    · have hdigit : ¬(c < 48 ∨ 57 < c) := not_or.mpr ⟨UInt8.not_lt.mpr hc.1, UInt8.not_lt.mpr hc.2⟩
      by_cases hfull : 2 ^ 64 ≤ n * 10 + (c.toNat - 48)
      · rw [if_pos (.inr (.inr hfull)), if_pos hfull, ite_self]
      · rw [if_neg (by tauto), if_neg hfull, ih]
        simp only [List.forall_mem_cons, hc, true_and]
    · have hbad : c < 48 ∨ 57 < c := by
        by_contra h
        exact hc ⟨UInt8.not_lt.mp fun h' => h (.inl h'), UInt8.not_lt.mp fun h' => h (.inr h')⟩
      rw [if_pos (by tauto), if_neg fun h => hc (h c List.mem_cons_self)]

/-- **The loop is exact.** -/
theorem lengthLoop_exact (value : Bytes) :
    lengthLoop 0 value =
      if (∀ c ∈ value, IsDecDigit c) ∧ writtenNumber value < 2 ^ 64 then some (writtenNumber value)
      else none := by
  rw [lengthLoop_accumulate, Decimal.accumulate_eq (by decide) (by decide), ← ite_and]
  rfl

variable {S σ : Type}

theorem headerCallback_length (C : Copier S σ) {s : S × FieldsOf σ}
    (hs : s.2.headers.length < maxHeaders) (value : Bytes) :
    (headerCallback C s ⟨.contentLength, bytes "content-length", value⟩).map (·.2.contentLength) =
      lengthLoop 0 value := by
  have hname : ¬(bytes "content-length").head? = some colon := by decide
  simp only [headerCallback, if_neg hname, if_pos hs, knownHeader, Option.map_map]
  exact Option.map_id'

/-- **Content-Length is exact in HTTP/2 and HTTP/3.** On streams with fewer than 64
headers, each callback fails if and only if the value has something else than
digits in it or the number is `2 ^ 64` or more; otherwise the length that it stores
is the number. Both say the same of every value. -/
theorem content_length_exact (A₂ A₃ : Allocator) (s₂ s₃ : Arena × FieldsOf Memory.Ptr)
    (h₂ : s₂.2.headers.length < maxHeaders) (h₃ : s₃.2.headers.length < maxHeaders) (value : Bytes) :
    (h2OnHeader A₂ s₂ (bytes "content-length") value = none ↔
        (∃ c ∈ value, ¬IsDecDigit c) ∨ 2 ^ 64 ≤ writtenNumber value) ∧
      (∀ s, h2OnHeader A₂ s₂ (bytes "content-length") value = some s →
        s.2.contentLength = writtenNumber value) ∧
      (h3RecvHeader A₃ s₃ .contentLength (bytes "content-length") value = none ↔
        (∃ c ∈ value, ¬IsDecDigit c) ∨ 2 ^ 64 ≤ writtenNumber value) ∧
      (∀ s, h3RecvHeader A₃ s₃ .contentLength (bytes "content-length") value = some s →
        s.2.contentLength = writtenNumber value) ∧
      (h2OnHeader A₂ s₂ (bytes "content-length") value).map (·.2.contentLength) =
        (h3RecvHeader A₃ s₃ .contentLength (bytes "content-length") value).map (·.2.contentLength) := by
  have hexact : ∀ {r : Option (Arena × FieldsOf Memory.Ptr)}, r.map (·.2.contentLength) = lengthLoop
    0 value →
      (r = none ↔ (∃ c ∈ value, ¬IsDecDigit c) ∨ 2 ^ 64 ≤ writtenNumber value) ∧
        ∀ s, r = some s → s.2.contentLength = writtenNumber value := by
    intro r hr
    rw [lengthLoop_exact] at hr
    by_cases hok : (∀ c ∈ value, IsDecDigit c) ∧ writtenNumber value < 2 ^ 64
    · rw [if_pos hok] at hr
      obtain ⟨s, rfl, hs⟩ := Option.map_eq_some_iff.mp hr
      refine ⟨iff_of_false nofun ?_, fun s' hs' => Option.some.inj hs' ▸ hs⟩
      rintro (⟨c, hc, hbad⟩ | hlarge)
      · exact hbad (hok.1 c hc)
      · exact absurd hok.2 (not_lt.mpr hlarge)
    · rw [if_neg hok] at hr
      obtain rfl := Option.map_eq_none_iff.mp hr
      refine ⟨iff_of_true rfl ?_, fun s hs => by cases hs⟩
      rcases not_and_or.mp hok with hbad | hlarge
      · left
        simpa using hbad
      · exact .inr (not_lt.mp hlarge)
  have hh2 : (h2OnHeader A₂ s₂ (bytes "content-length") value).map (·.2.contentLength) = lengthLoop
      0 value :=
    headerCallback_length (arenaCopier A₂) h₂ value
  have hh3 : (h3RecvHeader A₃ s₃ .contentLength (bytes "content-length") value).map (·.2.contentLength) =
      lengthLoop 0 value := headerCallback_length (arenaCopier A₃) h₃ value
  exact ⟨(hexact hh2).1, (hexact hh2).2, (hexact hh3).1, (hexact hh3).2, hh2.trans hh3.symm⟩

/-- An allocator that moves nothing. -/
def stillAllocator : Allocator := ⟨fun _ => false, fun _ _ => 0⟩

/-- The largest length, behind a zero, and one more. -/
theorem content_length_largest :
    (∀ s, h2OnHeader stillAllocator (arenaNew, fieldsNew) (bytes "content-length")
      (bytes "018446744073709551615") =
        some s → s.2.contentLength = 2 ^ 64 - 1) ∧
      h3RecvHeader stillAllocator (arenaNew, fieldsNew) .contentLength (bytes "content-length")
        (bytes "18446744073709551616") = none := by
  have hlast :=
    content_length_exact stillAllocator stillAllocator (arenaNew, fieldsNew) (arenaNew, fieldsNew)
    (by decide) (by decide) (bytes "018446744073709551615")
  have hnext :=
    content_length_exact stillAllocator stillAllocator (arenaNew, fieldsNew) (arenaNew, fieldsNew)
    (by decide) (by decide) (bytes "18446744073709551616")
  exact ⟨fun s hs => (hlast.2.1 s hs).trans (by decide +kernel), hnext.2.2.1.mpr
    (.inr (by decide +kernel))⟩

end Iohttp
