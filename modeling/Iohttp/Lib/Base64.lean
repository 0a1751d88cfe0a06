/-
# The base64 encoding

The encoding of RFC 4648, section 4: three bytes are four symbols of six bits, a
last group of one or two bytes is two or three symbols, with or without the
padding behind them (`encode`, `padded`).

Key theorem: `mem_encode`.
-/
import Mathlib.Tactic

namespace Base64

open List

/-- The alphabet, by its code points. -/
def alphabet : List UInt8 :=
  "ABCDEFGHIJKLMNOPQRSTUVWXYZabcdefghijklmnopqrstuvwxyz0123456789+/".toList.map fun c =>
  UInt8.ofNat c.toNat

/-- The symbol of six bits. -/
def symbol (n : ℕ) : UInt8 := alphabet.getD n 0

/-- The encoding, without padding. -/
def encode : List UInt8 → List UInt8
  | [] => []
  | [a] => [symbol (a.toNat / 4), symbol (a.toNat % 4 * 16)]
  | [a, b] => [symbol (a.toNat / 4), symbol (a.toNat % 4 * 16 + b.toNat / 16), symbol (b.toNat % 16 * 4)]
  | a :: b :: c :: rest =>
    symbol (a.toNat / 4) :: symbol (a.toNat % 4 * 16 + b.toNat / 16) ::
      symbol (b.toNat % 16 * 4 + c.toNat / 64) :: symbol (c.toNat % 64) :: encode rest

/-- The encoding, filled up with `=` to groups of four. -/
def padded (x : List UInt8) : List UInt8 := encode x ++ List.replicate ((3 - x.length % 3) % 3) 61

/-- The encoding consists of symbols. -/
theorem mem_encode : ∀ {x : List UInt8} {s : UInt8}, s ∈ encode x → ∃ n < 64, s = symbol n
  | [a], s, h => by
    have ha := a.toNat_lt
    simp only [encode, mem_cons, not_mem_nil, or_false] at h
    rcases h with rfl | rfl
    · exact ⟨_, by omega, rfl⟩
    · exact ⟨_, by omega, rfl⟩
  | [a, b], s, h => by
    have ha := a.toNat_lt
    have hb := b.toNat_lt
    simp only [encode, mem_cons, not_mem_nil, or_false] at h
    rcases h with rfl | rfl | rfl
    · exact ⟨_, by omega, rfl⟩
    · exact ⟨_, by omega, rfl⟩
    · exact ⟨_, by omega, rfl⟩
  | a :: b :: c :: rest, s, h => by
    have ha := a.toNat_lt
    have hb := b.toNat_lt
    have hc := c.toNat_lt
    rw [encode] at h
    simp only [mem_cons] at h
    rcases h with rfl | rfl | rfl | rfl | h
    · exact ⟨_, by omega, rfl⟩
    · exact ⟨_, by omega, rfl⟩
    · exact ⟨_, by omega, rfl⟩
    · exact ⟨_, by omega, rfl⟩
    · exact mem_encode h

end Base64
