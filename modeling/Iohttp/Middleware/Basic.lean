/-
# Basic credentials

`b64_decode` and `basic_middleware` of `src/middleware/ioh_auth.c`, with the
buffer on the stack into which the text behind `Basic ` is decoded. A byte of
the buffer is known if this call has written it (`b64Buffer`); what the others
hold is left over on the stack. Whatever is decoded has its NUL behind it, but
for the empty text nothing is written at all, and `verify` reads what is left
over.
-/
import Iohttp.Lib.Base64
import Iohttp.Middleware.Instance

namespace Iohttp
namespace Instance

open List

/-! ### The buffer -/

/-- The size of `decoded`. -/
abbrev decodedSize : ℕ := 512

/-- The buffer after `b64_decode`: `none` is a byte that was not written. The whole
is `none` if the call fails. -/
def b64Buffer (src : Bytes) (outSize : ℕ) : Option (List (Option UInt8)) :=
  if src = [] then some (List.replicate outSize none)
  else
    let src := src.rdropWhile (· == 61)
    if src.length * 3 / 4 ≥ outSize then none
    else
      (b64Loop src [] 0 0).map fun out =>
        (out ++ [0]).map some ++ List.replicate (outSize - (out.length + 1)) none

/-- The buffer that `basic_middleware` hands to `verify`; `none` if it answers without
calling it. -/
def handed (v : Visit) : Option (List (Option UInt8)) :=
  (credentials (bytes "Basic ") v).bind fun enc => b64Buffer enc decodedSize

variable {src text x : Bytes} {accum bits n outSize : ℕ} {cells : List (Option UInt8)} {v : Visit}

theorem b64Loop_length {out r : Bytes} (h : b64Loop src out accum bits = some r)
    (hbits : bits < 8) : r.length = out.length + (bits + src.length * 6) / 8 := by
  induction src generalizing out accum bits with
  | nil =>
    cases h
    rw [length_nil]
    omega
  | cons c src ih =>
    unfold b64Loop at h
    simp only at h
    split_ifs at h with hbad hfull
    · have hlen := ih h (by omega)
      rw [length_append, length_singleton] at hlen
      rw [length_cons]
      omega
    · have hlen := ih h (by omega)
      rw [length_cons]
      omega

/-- **What `b64_decode` writes**: nothing for the empty text, else what it decodes
and a NUL. -/
theorem b64Buffer_some :
    b64Buffer src outSize = some cells ↔
      src = [] ∧ cells = List.replicate outSize none ∨
      src ≠ [] ∧ ∃ out, b64Loop (src.rdropWhile (· == 61)) [] 0 0 = some out ∧ out.length < outSize ∧
        cells = (out ++ [0]).map some ++ List.replicate (outSize - (out.length + 1)) none := by
  unfold b64Buffer
  by_cases hnil : src = []
  · rw [if_pos hnil, Option.some.injEq]
    simp [hnil, eq_comm]
  · rw [if_neg hnil]
    simp only [hnil, false_and, not_false_eq_true, ne_eq, true_and, false_or]
    by_cases hroom : (src.rdropWhile (· == 61)).length * 3 / 4 ≥ outSize
    · rw [if_pos hroom]
      refine iff_of_false nofun ?_
      rintro ⟨out, hout, hlt, _⟩
      have hlen := b64Loop_length hout (by decide)
      omega
    · rw [if_neg hroom, Option.map_eq_some_iff]
      refine exists_congr fun out => and_congr_right fun hout => ?_
      have hlen := b64Loop_length hout (by decide)
      rw [length_nil] at hlen
      rw [and_iff_right (by omega), eq_comm]

/-- Decoding stays in the buffer. -/
theorem b64Buffer_length {src : Bytes} {outSize : ℕ} {cells : List (Option UInt8)}
    (h : b64Buffer src outSize = some cells) : cells.length = outSize := by
  rcases b64Buffer_some.mp h with ⟨_, rfl⟩ | ⟨_, out, _, hlt, rfl⟩
  · exact length_replicate
  · rw [length_append, length_map, length_append, length_singleton, length_replicate]
    omega

theorem b64Buffer_length_four : ∃ cells, b64Buffer (bytes "QQ==") 4 = some cells ∧ cells.length = 4 := by
  have hdecoded : b64Buffer (bytes "QQ==") 4 = some [some 65, some 0, none, none] := by decide +kernel
  exact ⟨_, hdecoded, b64Buffer_length hdecoded⟩

theorem b64Value_symbol (h : n < 64) :
    b64Value (Base64.symbol n) = n ∧ ¬(b64Value (Base64.symbol n) = 0 ∧ Base64.symbol n ≠ 65) ∧
      Base64.symbol n ≠ 61 ∧ Base64.symbol n ≠ 0 := by
  have hall : ∀ n < 64, b64Value (Base64.symbol n) = n ∧
      ¬(b64Value (Base64.symbol n) = 0 ∧ Base64.symbol n ≠ 65) ∧ Base64.symbol n ≠ 61 ∧
      Base64.symbol n ≠ 0 := by
    decide +kernel
  exact hall n h

theorem b64Loop_first (h : n < 64) (src out : Bytes) :
    b64Loop (Base64.symbol n :: src) out 0 0 = b64Loop src out n 6 := by
  obtain ⟨hvalue, hvalid, _⟩ := b64Value_symbol h
  rw [b64Loop, if_neg hvalid, hvalue]
  simp

theorem b64Loop_byte (a : UInt8) (left : ℕ) (h : n < 64) (hbits : 2 ≤ bits)
    (hsum : accum * 64 + n = a.toNat * 2 ^ (bits - 2) + left) (hleft : left < 2 ^ (bits - 2))
    (src out : Bytes) :
    b64Loop (Base64.symbol n :: src) out accum bits = b64Loop src (out ++ [a]) left (bits - 2) := by
  obtain ⟨hvalue, hvalid, _⟩ := b64Value_symbol h
  have hrest : bits + 6 - 8 = bits - 2 := by omega
  have hbyte : (a.toNat * 2 ^ (bits - 2) + left) / 2 ^ (bits - 2) = a.toNat := by
    rw [Nat.mul_comm, Nat.mul_add_div (Nat.two_pow_pos _), Nat.div_eq_of_lt hleft, Nat.add_zero]
  have hmod : (a.toNat * 2 ^ (bits - 2) + left) % 2 ^ (bits - 2) = left := by
    rw [Nat.mul_comm, Nat.mul_add_mod, Nat.mod_eq_of_lt hleft]
  rw [b64Loop, if_neg hvalid, hvalue]
  simp only [hsum, hrest, hbyte, hmod, UInt8.ofNat_toNat]
  exact if_pos (by omega)

/-- **The decoder reads back what was encoded.** -/
theorem b64Loop_encode : ∀ (x out : Bytes), b64Loop (Base64.encode x) out 0 0 = some (out ++ x)
  | [], out => by simp [Base64.encode, b64Loop]
  | [a], out => by
    have ha := a.toNat_lt
    rw [Base64.encode, b64Loop_first (by omega),
      b64Loop_byte a 0 (by omega) (by decide) (by norm_num; omega) (by decide), b64Loop]
  | [a, b], out => by
    have ha := a.toNat_lt
    have hb := b.toNat_lt
    rw [Base64.encode, b64Loop_first (by omega),
      b64Loop_byte a (b.toNat / 16) (by omega) (by decide) (by norm_num; omega) (by norm_num; omega),
      b64Loop_byte b 0 (by omega) (by decide) (by norm_num; omega) (by decide), b64Loop]
    simp
  | a :: b :: c :: rest, out => by
    have ha := a.toNat_lt
    have hb := b.toNat_lt
    have hc := c.toNat_lt
    rw [Base64.encode, b64Loop_first (by omega),
      b64Loop_byte a (b.toNat / 16) (by omega) (by decide) (by norm_num; omega) (by norm_num; omega),
      b64Loop_byte b (c.toNat / 64) (by omega) (by decide) (by norm_num; omega) (by norm_num; omega),
      b64Loop_byte c 0 (by omega) (by decide) (by norm_num; omega) (by decide), b64Loop_encode rest]
    simp

theorem rdropWhile_padding (x : Bytes) (n : ℕ) :
    (Base64.encode x ++ List.replicate n 61).rdropWhile (· == 61) = Base64.encode x := by
  have hpad : ∀ c ∈ (List.replicate n (61 : UInt8)).reverse, (c == 61) = true := by
    intro c hc
    rw [reverse_replicate] at hc
    rw [eq_of_mem_replicate hc]
    rfl
  rw [List.rdropWhile, reverse_append, dropWhile_append_of_pos hpad]
  refine rdropWhile_eq_self_iff.mpr fun hne hlast => ?_
  obtain ⟨m, hm, heq⟩ := Base64.mem_encode (getLast_mem hne)
  exact (b64Value_symbol hm).2.2.1 (heq ▸ beq_iff_eq.mp hlast)

/-! ### The credentials of a request -/

/-- What is asked of the middleware for a text behind `Basic `. If the text is the
encoding of fewer than 512 bytes, the buffer starts with these and a NUL. Any
text is answered without calling `verify`, or every byte of the buffer up to the
first NUL was written for this request. -/
structure DecodedExactly (v : Visit) (text : Bytes) : Prop where
  encoded : ∀ x : Bytes, x.length < decodedSize → text = Base64.encode x ∨ text = Base64.padded x →
    ∃ cells, handed v = some cells ∧ (x ++ [0]).map some <+: cells
  written : handed v = none ∨ ∃ cells s, handed v = some cells ∧ 0 ∉ s ∧ (s ++ [0]).map some <+: cells

theorem handed_eq
    (h : (v.header (bytes "Authorization")).map cstr = some (bytes "Basic " ++ text)) :
    handed v = b64Buffer text decodedSize := by
  obtain ⟨auth, hauth, htext⟩ := Option.map_eq_some_iff.mp h
  have hpre : (bytes "Basic ").isPrefixOf (bytes "Basic " ++ text) = true :=
    isPrefixOf_iff_prefix.mpr (prefix_append _ _)
  rw [handed, credentials, hauth, Option.bind_some, htext, if_pos hpre, drop_left, Option.bind_some]

/-- An encoded text is handed over decoded, with a NUL behind it. -/
theorem handed_encoded
    (h : (v.header (bytes "Authorization")).map cstr = some (bytes "Basic " ++ text)) (hne : text ≠ [])
    (hlen : x.length < decodedSize) (htext : text = Base64.encode x ∨ text = Base64.padded x) :
    handed v = some ((x ++ [0]).map some ++ List.replicate (decodedSize - (x.length + 1)) none) := by
  obtain ⟨n, hn⟩ : ∃ n, text = Base64.encode x ++ List.replicate n 61 := by
    rcases htext with htext | htext
    · exact ⟨0, htext.trans (append_nil _).symm⟩
    · exact ⟨_, htext⟩
  have hloop : b64Loop (text.rdropWhile (· == 61)) [] 0 0 = some x := by
    rw [hn, rdropWhile_padding, b64Loop_encode, nil_append]
  exact (handed_eq h).trans (b64Buffer_some.mpr (.inr ⟨hne, x, hloop, hlen, rfl⟩))

theorem prefix_cstr_nul : ∀ out : Bytes, cstr out ++ [0] <+: out ++ [0]
  | [] => prefix_rfl
  | c :: out => by
    by_cases hc : c = 0
    · have hcut : cstr (c :: out) = [] := takeWhile_cons_of_neg (by simpa using hc)
      rw [hcut, hc]
      exact prefix_append [0] (out ++ [0])
    · have hkeep : cstr (c :: out) = c :: cstr out := takeWhile_cons_of_pos (by simpa using hc)
      rw [hkeep]
      exact (prefix_cons_inj c).mpr (prefix_cstr_nul out)

/-- **When Basic credentials are decoded exactly**: if there is any text. -/
theorem decoded_exactly_iff {v : Visit} {text : Bytes}
    (h : (v.header (bytes "Authorization")).map cstr = some (bytes "Basic " ++ text)) :
    DecodedExactly v text ↔ text ≠ [] := by
  have hhanded := handed_eq h
  constructor
  · rintro hdec rfl
    obtain ⟨cells, hcells, hpre⟩ := hdec.encoded [] (by decide) (.inl rfl)
    rw [hhanded] at hcells
    cases hcells
    exact absurd hpre (by decide)
  · intro hne
    refine ⟨fun x hlen htext => ?_, ?_⟩
    · exact ⟨_, handed_encoded h hne hlen htext, prefix_append _ _⟩
    · rw [hhanded]
      cases hbuf : b64Buffer text decodedSize with
      | none => exact .inl rfl
      | some cells =>
        obtain ⟨hnil, _⟩ | ⟨_, out, _, _, rfl⟩ := b64Buffer_some.mp hbuf
        · exact absurd hnil hne
        · have hnul : 0 ∉ cstr out := fun h0 => absurd (mem_takeWhile_imp h0) (by decide)
          exact .inr ⟨_, cstr out, rfl, hnul, ((prefix_cstr_nul out).map some).trans (prefix_append _ _)⟩

/-- A request with this value of `Authorization`, on a stack where the credentials of
an earlier request are left over. -/
def basicVisit (value : Bytes) : Visit :=
  { tokenVisit with
    mem := value
    req := { tokenVisit.req with headers := [⟨⟨0, bytes "Authorization"⟩, ⟨0, value⟩⟩] }
    stack := bytes "u:p" ++ List.replicate 509 0 }

/-- The encoding of `u:pw`. -/
theorem decoded_exactly_padded :
    DecodedExactly (basicVisit (bytes "Basic dTpwdw==")) (bytes "dTpwdw==") :=
  (decoded_exactly_iff (by decide +kernel)).mpr (by decide)

/-- Without any text the middleware accepts what an earlier request has left over. -/
theorem empty_text_passes :
    (basicVisit (bytes "Basic ")).header (bytes "Authorization") = some (bytes "Basic ") ∧
    basicMiddleware (fun _ decoded _ => decoded == bytes "u:p") ⟨1, 0⟩ (basicVisit (bytes "Basic ")) =
      (basicVisit (bytes "Basic ")).pass ∧
    ¬DecodedExactly (basicVisit (bytes "Basic ")) [] := by
  have hbuffer : handed (basicVisit (bytes "Basic ")) = some (List.replicate decodedSize none) := by
    decide +kernel
  refine ⟨by decide +kernel, by decide +kernel, fun hdec => ?_⟩
  obtain ⟨cells, hcells, hpre⟩ := hdec.encoded [] (by decide) (.inl rfl)
  cases hcells
  exact absurd hpre (by decide)

end Instance
end Iohttp
