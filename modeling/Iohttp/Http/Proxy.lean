/-
# The PROXY protocol

`src/http/ioh_proxy_proto.c`: the header that a load balancer puts in front of
a connection's bytes, as text (version 1) or in binary (version 2). The decoder
is called after every receive on all that has arrived, so what it says of the
first bytes of a header should not change when the rest comes. It does for a
binary header of which 6 to 11 bytes have arrived: these are no text header, and
too few for the test of the signature.
-/
import Mathlib.Data.List.GetD
import Iohttp.Bytes

namespace Iohttp

open List

/-- `AF_INET` and `AF_INET6`. -/
inductive Family where
  | inet
  | inet6
  deriving DecidableEq, Repr

/-- The bytes of an address. -/
def Family.size : Family → ℕ
  | .inet => 4
  | .inet6 => 16

/-- `INET6_ADDRSTRLEN`. -/
abbrev inet6Addrstrlen : ℕ := 46

/-- `inet_pton`: the address that a text is, if it is one. No text of an address
is longer than `INET6_ADDRSTRLEN` with its NUL, and none has a space or a NUL in it. -/
structure InetPton where
  read : Family → Bytes → Option Bytes
  short : ∀ fam text addr, read fam text = some addr → text.length < inet6Addrstrlen
  plain : ∀ fam text addr, read fam text = some addr → ∀ c ∈ text, c ≠ 32 ∧ c ≠ 0

/-- A `sockaddr_storage`: zeroed, or with an address and a port, which is given
as a number. -/
structure SockAddr where
  family : Option Family
  addr : Bytes
  port : ℕ
  deriving DecidableEq, Repr

/-- The address after `memset`. -/
def SockAddr.zero : SockAddr := ⟨none, [], 0⟩

/-- `ioh_proxy_result_t`. -/
structure ProxyResult where
  version : ℕ
  isLocal : Bool
  family : Option Family
  srcAddr : SockAddr
  dstAddr : SockAddr
  deriving DecidableEq, Repr

/-- A result without addresses. -/
def ProxyResult.ofLocal (version : ℕ) : ProxyResult := ⟨version, true, none, .zero, .zero⟩

def ProxyResult.ofAddrs (version : ℕ) (fam : Family) (src dst : Bytes) (srcPort dstPort : ℕ) :
    ProxyResult :=
  ⟨version, false, some fam, ⟨some fam, src, srcPort⟩, ⟨some fam, dst, dstPort⟩⟩

/-! ### Version 1 -/

/-- `IOH_PROXY_V1_MAX_LEN`. -/
abbrev v1MaxLen : ℕ := 108

/-- `find_crlf`, on the bytes that it may look at. -/
def findCrlf : Bytes → Option ℕ
  | c :: d :: rest => if c = 13 ∧ d = 10 then some 0 else (findCrlf (d :: rest)).map (· + 1)
  | _ => none

/-- `strchr(pos, ' ')` on a C string: the token before the space, and what is
behind it. -/
def splitToken (pos : Bytes) : Option (Bytes × Bytes) :=
  let token := pos.takeWhile fun c => c ≠ 32 ∧ c ≠ 0
  if (pos.drop token.length).head? = some 32 then some (token, pos.drop (token.length + 1)) else none

/-- The loop over the digits of a port, in an `unsigned int`. -/
def portLoop : ℕ → Bytes → Option ℕ
  | port, [] => some port
  | port, c :: cs =>
    if c < 48 ∨ c > 57 then none else portLoop ((port * 10 + (c.toNat - 48)) % 2 ^ 32) cs

/-- The two addresses and ports behind `TCP4` or `TCP6`. -/
def v1Addrs (pton : InetPton) (fam : Family) (pos : Bytes) : Option ProxyResult := do
  let (srcIp, pos) ← splitToken pos
  guard (srcIp.length < inet6Addrstrlen)
  let (dstIp, pos) ← splitToken pos
  guard (dstIp.length < inet6Addrstrlen)
  let (digits, pos) ← splitToken pos
  let srcPort ← portLoop 0 digits
  -- the destination port ends with the string
  let dstPort ← portLoop 0 (pos.takeWhile (· ≠ 0))
  guard (srcPort ≤ 65535 ∧ dstPort ≤ 65535)
  let src ← pton.read fam srcIp
  let dst ← pton.read fam dstIp
  return .ofAddrs 1 fam src dst srcPort dstPort

/-- The line behind `PROXY` and a space. -/
def v1Line (pton : InetPton) (pos : Bytes) : Option ProxyResult :=
  if (bytes "UNKNOWN").isPrefixOf pos then some (.ofLocal 1)
  else if (bytes "TCP4 ").isPrefixOf pos then v1Addrs pton .inet (pos.drop 5)
  else if (bytes "TCP6 ").isPrefixOf pos then v1Addrs pton .inet6 (pos.drop 5)
  else none

/-- `decode_v1`. -/
def decodeV1 (pton : InetPton) (buf : Bytes) : Except ℤ (ℕ × ProxyResult) :=
  if buf.length < 6 then .error (-EAGAIN)
  else
    match findCrlf (buf.take v1MaxLen) with
    | none => if buf.length ≥ v1MaxLen then .error (-EINVAL) else .error (-EAGAIN)
    | some lineLen =>
      match v1Line pton ((buf.take lineLen).drop 6) with
      | some result => .ok (lineLen + 2, result)
      | none => .error (-EINVAL)

/-! ### Version 2 -/

/-- `IOH_PROXY_V2_SIG`. -/
def v2Sig : Bytes := [0x0D, 0x0A, 0x0D, 0x0A, 0x00, 0x0D, 0x0A, 0x51, 0x55, 0x49, 0x54, 0x0A]

/-- `IOH_PROXY_V2_MIN_LEN`. -/
abbrev v2MinLen : ℕ := 16

/-- Two bytes in network order. -/
def be16 (b : Bytes) : ℕ := (b.getD 0 0).toNat * 256 + (b.getD 1 0).toNat

/-- The addresses and ports of a family at the start of `addrs`. -/
def v2Pair (fam : Family) (addrs : Bytes) : ProxyResult :=
  .ofAddrs 2 fam (addrs.take fam.size) ((addrs.drop fam.size).take fam.size)
  (be16 (addrs.drop (2 * fam.size)))
    (be16 (addrs.drop (2 * fam.size + 2)))

/-- The addresses of the PROXY command, by the family; `none` is `-EINVAL`. -/
def v2Addrs (family : UInt8) (addrLen : ℕ) (addrs : Bytes) : Option ProxyResult :=
  if family = 1 then if addrLen < 12 then none else some (v2Pair .inet addrs)
  else if family = 2 then if addrLen < 36 then none else some (v2Pair .inet6 addrs)
  else some (.ofLocal 2)

/-- `decode_v2`. -/
def decodeV2 (buf : Bytes) : Except ℤ (ℕ × ProxyResult) :=
  if buf.length < v2MinLen then .error (-EAGAIN)
  else if buf.take 12 ≠ v2Sig then .error (-EINVAL)
  else
    let verCmd := buf.getD 12 0
    let command := verCmd &&& 0x0F
    if verCmd >>> 4 ≠ 2 then .error (-EINVAL)
    else if command > 1 then .error (-EINVAL)
    else
      let addrLen := be16 (buf.drop 14)
      let total := v2MinLen + addrLen
      if buf.length < total then .error (-EAGAIN)
      else if command = 0 then .ok (total, .ofLocal 2)
      else
        match v2Addrs ((buf.getD 13 0 >>> 4) &&& 0x0F) addrLen (buf.drop v2MinLen) with
        | some result => .ok (total, result)
        | none => .error (-EINVAL)

/-- `ioh_proxy_decode`. -/
def proxyDecode (pton : InetPton) (buf : Bytes) : Except ℤ (ℕ × ProxyResult) :=
  if buf = [] then .error (-EAGAIN)
  else if v2Sig.isPrefixOf buf then decodeV2 buf
  else if (bytes "PROXY ").isPrefixOf buf then decodeV1 pton buf
  else if buf.length < 6 then .error (-EAGAIN)
  else .error (-ENOSPC)

/-! ### More bytes, and fewer -/

variable {b : Bytes} {i : ℕ}

section

variable (h : findCrlf b = some i)

include h

theorem findCrlf_append (e : Bytes) : findCrlf (b ++ e) = some i := by
  induction b generalizing i with
  | nil => cases h
  | cons c b ih =>
    cases b with
    | nil => cases h
    | cons d rest =>
      simp only [cons_append, findCrlf] at h ih ⊢
      by_cases hc : c = 13 ∧ d = 10
      · rw [if_pos hc] at h ⊢
        exact h
      · rw [if_neg hc, Option.map_eq_some_iff] at h
        obtain ⟨j, hj, rfl⟩ := h
        rw [if_neg hc, ih hj, Option.map_some]

theorem findCrlf_some : ∃ rest, b = b.take i ++ 13 :: 10 :: rest := by
  induction b generalizing i with
  | nil => cases h
  | cons c b ih =>
    cases b with
    | nil => cases h
    | cons d rest =>
      rw [findCrlf] at h
      by_cases hc : c = 13 ∧ d = 10
      · rw [if_pos hc] at h
        cases h
        exact ⟨rest, by rw [hc.1, hc.2]; rfl⟩
      · rw [if_neg hc, Option.map_eq_some_iff] at h
        obtain ⟨j, hj, rfl⟩ := h
        obtain ⟨tail, htail⟩ := ih hj
        exact ⟨tail, congrArg (c :: ·) htail⟩

theorem findCrlf_le : i + 2 ≤ b.length := by
  obtain ⟨rest, hb⟩ := findCrlf_some h
  have hlen := congrArg List.length hb
  rw [length_append, length_take, length_cons, length_cons] at hlen
  omega

theorem findCrlf_take : findCrlf (b.take (i + 2)) = some i := by
  induction b generalizing i with
  | nil => cases h
  | cons c b ih =>
    cases b with
    | nil => cases h
    | cons d rest =>
      rw [findCrlf] at h
      by_cases hc : c = 13 ∧ d = 10
      · rw [if_pos hc] at h
        cases h
        exact if_pos hc
      · rw [if_neg hc, Option.map_eq_some_iff] at h
        obtain ⟨j, hj, rfl⟩ := h
        have htake : (c :: d :: rest).take (j + 1 + 2) = c :: d :: rest.take (j + 1) := rfl
        rw [htake, findCrlf, if_neg hc]
        exact congrArg (Option.map (· + 1)) (ih hj)

end

theorem decodeV1_append {pton : InetPton} (h : decodeV1 pton b ≠ .error (-EAGAIN)) (e : Bytes) :
    decodeV1 pton (b ++ e) = decodeV1 pton b := by
  unfold decodeV1 at h ⊢
  by_cases hshort : b.length < 6
  · rw [if_pos hshort] at h
    exact absurd rfl h
  have hshort' : ¬(b ++ e).length < 6 := by
    rw [length_append]
    omega
  rw [if_neg hshort] at h ⊢
  rw [if_neg hshort']
  cases hf : findCrlf (b.take v1MaxLen) with
  | none =>
    simp only [hf] at h
    by_cases hlong : b.length ≥ v1MaxLen
    · have hlong' : (b ++ e).length ≥ v1MaxLen := by
        rw [length_append]
        omega
      rw [take_append_of_le_length hlong, hf]
      rw [if_pos hlong, if_pos hlong']
    · rw [if_neg hlong] at h
      exact absurd rfl h
  | some i =>
    have hle := findCrlf_le hf
    rw [length_take] at hle
    rw [take_append, findCrlf_append hf]
    simp only
    rw [take_append_of_le_length (show i ≤ b.length by omega)]

theorem findCrlf_proxy (rest : Bytes) :
    findCrlf (bytes "PROXY " ++ rest) = (findCrlf rest).map (· + 6) := by
  have hbytes : bytes "PROXY " = [80, 82, 79, 88, 89, 32] := by decide
  rw [hbytes]
  cases rest with
  | nil => rfl
  | cons c rest => simp [findCrlf, Function.comp_def]

variable {r : ProxyResult} {n : ℕ}

theorem decodeV1_take {pton : InetPton} (hp : bytes "PROXY " <+: b)
    (h : decodeV1 pton b = .ok (n, r)) :
    8 ≤ n ∧ n ≤ b.length ∧ decodeV1 pton (b.take n) = .ok (n, r) := by
  unfold decodeV1 at h
  by_cases hshort : b.length < 6
  · rw [if_pos hshort] at h
    cases h
  rw [if_neg hshort] at h
  cases hf : findCrlf (b.take v1MaxLen) with
  | none =>
    simp only [hf] at h
    split_ifs at h
  | some i =>
    simp only [hf] at h
    have hle := findCrlf_le hf
    have hi : 6 ≤ i := by
      obtain ⟨rest, rfl⟩ := hp
      have hlen : (bytes "PROXY ").length ≤ v1MaxLen := by decide
      rw [take_append, take_of_length_le hlen, findCrlf_proxy, Option.map_eq_some_iff] at hf
      omega
    rw [length_take] at hle
    cases hl : v1Line pton ((b.take i).drop 6) with
    | none =>
      rw [hl] at h
      cases h
    | some result =>
      rw [hl] at h
      cases h
      have hlong : ¬(b.take (i + 2)).length < 6 := by
        rw [length_take]
        omega
      have hfind : findCrlf ((b.take (i + 2)).take v1MaxLen) = some i := by
        rw [take_take, min_comm, ← take_take]
        exact findCrlf_take hf
      have hline : (b.take (i + 2)).take i = b.take i := by
        rw [take_take, min_eq_left (by omega)]
      refine ⟨by omega, by omega, ?_⟩
      rw [decodeV1, if_neg hlong, hfind]
      simp only
      rw [hline, hl]

theorem be16_append (h : 2 ≤ b.length) (e : Bytes) : be16 (b ++ e) = be16 b := by
  unfold be16
  rw [getD_append _ _ _ _ (by omega), getD_append _ _ _ _ (by omega)]

variable {addrs e received : Bytes} {pieces : List Bytes}

theorem v2Pair_append {fam : Family} (h : 2 * fam.size + 4 ≤ addrs.length) (e : Bytes) :
    v2Pair fam (addrs ++ e) = v2Pair fam addrs := by
  have hdrop : ∀ i, i ≤ 2 * fam.size + 2 →
      (addrs ++ e).drop i = addrs.drop i ++ e ∧ 2 ≤ (addrs.drop i).length := by
    intro i hi
    refine ⟨drop_append_of_le_length (by omega), ?_⟩
    rw [length_drop]
    omega
  unfold v2Pair
  rw [(hdrop fam.size (by omega)).1, (hdrop (2 * fam.size) (by omega)).1,
    (hdrop (2 * fam.size + 2) (by omega)).1,
    be16_append (hdrop (2 * fam.size) (by omega)).2, be16_append (hdrop (2 * fam.size + 2) (by omega)).2,
    take_append_of_le_length (by omega), take_append_of_le_length (by rw [length_drop]; omega)]

theorem v2Addrs_append {family : UInt8} {addrLen : ℕ} (h : addrLen ≤ addrs.length) (e : Bytes) :
    v2Addrs family addrLen (addrs ++ e) = v2Addrs family addrLen addrs := by
  unfold v2Addrs
  by_cases h1 : family = 1
  · rw [if_pos h1, if_pos h1]
    by_cases hlen : addrLen < 12
    · rw [if_pos hlen, if_pos hlen]
    · rw [if_neg hlen, if_neg hlen, v2Pair_append (show 2 * Family.inet.size + 4 ≤ addrs.length by
        rw [Family.size]
        omega)]
  · rw [if_neg h1, if_neg h1]
    by_cases h2 : family = 2
    · rw [if_pos h2, if_pos h2]
      by_cases hlen : addrLen < 36
      · rw [if_pos hlen, if_pos hlen]
      · rw [if_neg hlen, if_neg hlen, v2Pair_append (show 2 * Family.inet6.size + 4 ≤ addrs.length by
          rw [Family.size]
          omega)]
    · rw [if_neg h2, if_neg h2]

theorem decodeV2_append (h : decodeV2 b ≠ .error (-EAGAIN)) (e : Bytes) :
    decodeV2 (b ++ e) = decodeV2 b := by
  unfold decodeV2 v2MinLen at h ⊢
  by_cases hshort : b.length < 16
  · rw [if_pos hshort] at h
    exact absurd rfl h
  have hshort' : ¬(b ++ e).length < 16 := by
    rw [length_append]
    omega
  have hlen : be16 ((b ++ e).drop 14) = be16 (b.drop 14) := by
    rw [drop_append_of_le_length (by omega), be16_append]
    rw [length_drop]
    omega
  have hbody : (b ++ e).drop 16 = b.drop 16 ++ e := drop_append_of_le_length (by omega)
  rw [if_neg hshort] at h ⊢
  rw [if_neg hshort', take_append_of_le_length (by omega)]
  by_cases hsig : b.take 12 ≠ v2Sig
  · rw [if_pos hsig, if_pos hsig]
  rw [if_neg hsig] at h ⊢
  rw [if_neg hsig]
  rw [getD_append _ _ _ 12 (by omega), getD_append _ _ _ 13 (by omega), hlen, hbody]
  by_cases hver : b.getD 12 0 >>> 4 ≠ 2
  · rw [if_pos hver, if_pos hver]
  rw [if_neg hver] at h ⊢
  rw [if_neg hver]
  by_cases hcmd : b.getD 12 0 &&& 0x0F > 1
  · rw [if_pos hcmd, if_pos hcmd]
  rw [if_neg hcmd] at h ⊢
  rw [if_neg hcmd]
  by_cases htotal : b.length < 16 + be16 (b.drop 14)
  · rw [if_pos htotal] at h
    exact absurd rfl h
  have htotal' : ¬(b ++ e).length < 16 + be16 (b.drop 14) := by
    rw [length_append]
    omega
  have hroom : be16 (b.drop 14) ≤ (b.drop 16).length := by
    rw [length_drop]
    omega
  rw [if_neg htotal, if_neg htotal', v2Addrs_append hroom]

theorem decodeV2_ok (h : decodeV2 b = .ok (n, r)) : n = 16 + be16 (b.drop 14) ∧ n ≤ b.length := by
  unfold decodeV2 at h
  simp only at h
  split_ifs at h with _ _ _ _ hlen
  · cases h
    exact ⟨rfl, not_lt.mp hlen⟩
  · split at h
    · cases h
      exact ⟨rfl, not_lt.mp hlen⟩
    · cases h

theorem decodeV2_ne_again (h : 16 + be16 (b.drop 14) ≤ b.length) : decodeV2 b ≠ .error (-EAGAIN) := by
  have hne : (Except.error (-EINVAL) : Except ℤ (ℕ × ProxyResult)) ≠ .error (-EAGAIN) := by
    intro he
    cases he
  unfold decodeV2 v2MinLen
  rw [if_neg (by omega)]
  simp only
  split_ifs
  · exact hne
  · exact hne
  · exact hne
  · omega
  · exact fun he => by cases he
  · split
    · exact fun he => by cases he
    · exact hne

theorem decodeV2_error {e : ℤ} (h : decodeV2 b = .error e) : e = -EAGAIN ∨ e = -EINVAL := by
  unfold decodeV2 at h
  simp only at h
  split_ifs at h
  · cases h
    exact .inl rfl
  · cases h
    exact .inr rfl
  · cases h
    exact .inr rfl
  · cases h
    exact .inr rfl
  · cases h
    exact .inl rfl
  · split at h
    · cases h
    · cases h
      exact .inr rfl

theorem decodeV2_take (h : decodeV2 b = .ok (n, r)) :
    16 ≤ n ∧ n ≤ b.length ∧ decodeV2 (b.take n) = .ok (n, r) := by
  obtain ⟨hn, hle⟩ := decodeV2_ok h
  have hlen : (b.take n).length = n := by
    rw [length_take]
    omega
  have hsame : be16 ((b.take n).drop 14) = be16 (b.drop 14) := by
    have hsplit : b.drop 14 = (b.take n).drop 14 ++ b.drop n := by
      rw [← drop_append_of_le_length (by omega), take_append_drop]
    rw [hsplit, be16_append]
    rw [length_drop]
    omega
  have hagain := decodeV2_ne_again (b := b.take n) (by rw [hsame, hlen]; omega)
  refine ⟨by omega, hle, ?_⟩
  rw [← decodeV2_append hagain (b.drop n), take_append_drop, h]

/-! ### The decoder on a stream -/

/-- The first bytes of a stream end in the second half of the signature that the
stream starts with. -/
def CutsSignature (b stream : Bytes) : Prop := 6 ≤ b.length ∧ b.length < 12 ∧ v2Sig <+: stream
  deriving Decidable

theorem length_v2Sig : v2Sig.length = 12 := rfl

theorem not_sig_of_proxy (h : bytes "PROXY " <+: b) : ¬v2Sig <+: b := by
  intro hsig
  have hboth : bytes "PROXY " <+: v2Sig := prefix_of_prefix_length_le h hsig (by decide)
  exact absurd hboth (by decide)

section
variable (pton : InetPton)

theorem proxyDecode_v2 (h : v2Sig <+: b) : proxyDecode pton b = decodeV2 b := by
  have hne : b ≠ [] := by
    intro hnil
    rw [hnil] at h
    cases prefix_nil.mp h
  have hsig := isPrefixOf_iff_prefix.mpr h
  rw [proxyDecode, if_neg hne, if_pos hsig]

theorem proxyDecode_v1 (h : bytes "PROXY " <+: b) : proxyDecode pton b = decodeV1 pton b := by
  have hne : b ≠ [] := by
    intro hnil
    rw [hnil] at h
    cases prefix_nil.mp h
  have hsig : ¬v2Sig.isPrefixOf b = true := mt isPrefixOf_iff_prefix.mp <| not_sig_of_proxy h
  have hproxy := isPrefixOf_iff_prefix.mpr h
  rw [proxyDecode, if_neg hne, if_neg hsig, if_pos hproxy]

theorem proxyDecode_short (h : b.length < 6) : proxyDecode pton b = .error (-EAGAIN) := by
  have hshort : ∀ {p : Bytes}, 6 ≤ p.length → ¬p.isPrefixOf b = true := by
    intro p hp hpre
    have hle := isPrefixOf_iff_prefix.mp hpre |>.length_le
    omega
  unfold proxyDecode
  rw [if_neg (hshort (p := v2Sig) (by decide)), if_neg (hshort (p := bytes "PROXY ") (by decide)),
    if_pos h, ite_self]

theorem proxyDecode_other (h : 6 ≤ b.length) (hsig : ¬v2Sig <+: b) (hproxy : ¬bytes "PROXY " <+: b) :
    proxyDecode pton b = .error (-ENOSPC) := by
  have hne : b ≠ [] := by
    intro hnil
    rw [hnil] at h
    cases h
  rw [← isPrefixOf_iff_prefix] at hsig hproxy
  rw [proxyDecode, if_neg hne, if_neg hsig, if_neg hproxy, if_neg (by omega)]

theorem proxyDecode_cuts (h : CutsSignature b (b ++ e)) :
    proxyDecode pton b = .error (-ENOSPC) := by
  obtain ⟨h6, h12, hsig⟩ := h
  refine proxyDecode_other pton h6 ?_ ?_
  · intro hpre
    have hle := hpre.length_le
    rw [length_v2Sig] at hle
    omega
  · intro hproxy
    exact not_sig_of_proxy (hproxy.trans (prefix_append b e)) hsig

/-- **An answer stays when more bytes come**, except on a signature that was cut. -/
theorem proxyDecode_append (h : proxyDecode pton b ≠ .error (-EAGAIN))
    (hcut : ¬CutsSignature b (b ++ e)) : proxyDecode pton (b ++ e) = proxyDecode pton b := by
  have hpre : b <+: b ++ e := prefix_append b e
  by_cases hsig : v2Sig <+: b
  · rw [proxyDecode_v2 pton hsig] at h
    rw [proxyDecode_v2 pton hsig, proxyDecode_v2 pton (hsig.trans hpre), decodeV2_append h]
  by_cases hproxy : bytes "PROXY " <+: b
  · rw [proxyDecode_v1 pton hproxy] at h
    rw [proxyDecode_v1 pton hproxy, proxyDecode_v1 pton (hproxy.trans hpre), decodeV1_append h]
  by_cases hshort : b.length < 6
  · exact absurd (proxyDecode_short pton hshort) h
  -- neither of the two can become one: the bytes that are there already differ
  have hsig' : ¬v2Sig <+: b ++ e := by
    intro hwhole
    by_cases hlen : b.length < 12
    · exact hcut ⟨by omega, hlen, hwhole⟩
    · exact hsig (prefix_of_prefix_length_le hwhole hpre (by rw [length_v2Sig]; omega))
  have hproxy' : ¬bytes "PROXY " <+: b ++ e := by
    intro hwhole
    have hlen : (bytes "PROXY ").length = 6 := by decide
    exact hproxy (prefix_of_prefix_length_le hwhole hpre (by omega))
  rw [proxyDecode_other pton (by omega) hsig hproxy,
    proxyDecode_other pton (by rw [length_append]; omega) hsig' hproxy']

/-- **A header that was decoded is all that was looked at.** -/
theorem proxyDecode_take (h : proxyDecode pton b = .ok (n, r)) :
    0 < n ∧ n ≤ b.length ∧ proxyDecode pton (b.take n) = .ok (n, r) := by
  by_cases hsig : v2Sig <+: b
  · rw [proxyDecode_v2 pton hsig] at h
    obtain ⟨hmin, hle, htake⟩ := decodeV2_take h
    have hsig' : v2Sig <+: b.take n := by
      refine prefix_of_prefix_length_le hsig (by exact take_prefix n b) ?_
      rw [length_v2Sig, length_take]
      omega
    exact ⟨by omega, hle, (proxyDecode_v2 pton hsig').trans htake⟩
  by_cases hproxy : bytes "PROXY " <+: b
  · rw [proxyDecode_v1 pton hproxy] at h
    obtain ⟨hmin, hle, htake⟩ := decodeV1_take hproxy h
    have hproxy' : bytes "PROXY " <+: b.take n := by
      have hlen : (bytes "PROXY ").length = 6 := by decide
      refine prefix_of_prefix_length_le hproxy (by exact take_prefix n b) ?_
      rw [length_take]
      omega
    exact ⟨by omega, hle, (proxyDecode_v1 pton hproxy').trans htake⟩
  by_cases hshort : b.length < 6
  · rw [proxyDecode_short pton hshort] at h
    cases h
  · rw [proxyDecode_other pton (by omega) hsig hproxy] at h
    cases h

theorem proxyDecode_rest (h : proxyDecode pton b = .ok (n, r)) (e : Bytes) :
    proxyDecode pton (b.take n ++ e) = .ok (n, r) := by
  obtain ⟨_, _, htake⟩ := proxyDecode_take pton h
  have hcut : ¬CutsSignature (b.take n) (b.take n ++ e) := by
    intro hcuts
    rw [proxyDecode_cuts pton hcuts] at htake
    cases htake
  rw [proxyDecode_append pton (by rw [htake]; exact fun he => by cases he) hcut, htake]

/-- The decoder on what a connection receives piece by piece: it is asked again
while it wants more. -/
def decodePieces (received : Bytes) : List Bytes → Except ℤ (ℕ × ProxyResult)
  | [] => .error (-EAGAIN)
  | piece :: pieces =>
    if proxyDecode pton (received ++ piece) = .error (-EAGAIN) then decodePieces
      (received ++ piece) pieces
    else proxyDecode pton (received ++ piece)

theorem decodePieces_eq
    (h : proxyDecode pton (received ++ pieces.flatten) = .ok (n, r))
    (hwait : proxyDecode pton received = .error (-EAGAIN))
    (hcut : ∀ k, ¬CutsSignature (received ++ (pieces.take k).flatten) (received ++ pieces.flatten)) :
    decodePieces pton received pieces = .ok (n, r) := by
  induction pieces generalizing received with
  | nil =>
    rw [flatten_nil, append_nil, hwait] at h
    cases h
  | cons piece pieces ih =>
    rw [flatten_cons, ← append_assoc] at h
    rw [decodePieces]
    by_cases hagain : proxyDecode pton (received ++ piece) = .error (-EAGAIN)
    · rw [if_pos hagain]
      refine ih h hagain fun k => ?_
      have hk := hcut (k + 1)
      rw [take_succ_cons, flatten_cons, flatten_cons, ← append_assoc,
        ← append_assoc] at hk
      exact hk
    · rw [if_neg hagain]
      have hone := hcut 1
      rw [take_succ_cons, take_zero, flatten_cons, flatten_cons, flatten_nil,
        append_nil, ← append_assoc] at hone
      rw [← proxyDecode_append pton hagain hone, h]

theorem decodePieces_cuts {k : ℕ}
    (hcut : CutsSignature (received ++ (pieces.take k).flatten) (received ++ pieces.flatten))
    (hwait : proxyDecode pton received = .error (-EAGAIN)) :
    decodePieces pton received pieces = .error (-ENOSPC) := by
  have hne : (Except.error (-ENOSPC) : Except ℤ (ℕ × ProxyResult)) ≠ .error (-EAGAIN) := by
    intro he
    cases he
  induction pieces generalizing received k with
  | nil =>
    rw [proxyDecode_cuts pton (e := []) (by simpa using hcut)] at hwait
    exact absurd hwait hne
  | cons piece pieces ih =>
    cases k with
    | zero =>
      rw [take_zero, flatten_nil, append_nil] at hcut
      rw [proxyDecode_cuts pton hcut] at hwait
      exact absurd hwait hne
    | succ k =>
      rw [take_succ_cons, flatten_cons, flatten_cons, ← append_assoc,
        ← append_assoc] at hcut
      rw [decodePieces]
      by_cases hagain : proxyDecode pton (received ++ piece) = .error (-EAGAIN)
      · rw [if_pos hagain]
        exact ih hcut hagain
      · -- an answer already, and it can only be that these bytes are no header
        rw [if_neg hagain]
        obtain ⟨_, h12, hsig⟩ := hcut
        rw [length_append] at h12
        have h6 : 6 ≤ (received ++ piece).length := by
          by_contra hlt
          exact hagain (proxyDecode_short pton (by omega))
        exact proxyDecode_cuts pton (e := pieces.flatten) ⟨h6, by omega, hsig⟩

/-- **When the decoder is stable.** More bytes leave an answer as it is, and a
header gives the same in every way of splitting it into receives, exactly if no
receive ends between the sixth and the twelfth byte of a binary signature. -/
theorem decode_stable_iff :
    (∀ b e, (proxyDecode pton b ≠ .error (-EAGAIN) → proxyDecode pton (b ++ e) = proxyDecode pton b) ↔
      ¬CutsSignature b (b ++ e)) ∧
    ∀ pieces n r, proxyDecode pton pieces.flatten = .ok (n, r) →
      (decodePieces pton [] pieces = .ok (n, r) ↔
        ∀ k, ¬CutsSignature (pieces.take k).flatten pieces.flatten) := by
  have hwait : proxyDecode pton [] = .error (-EAGAIN) := proxyDecode_short pton (by decide)
  refine ⟨fun b e => ⟨fun h hcut => ?_, fun hcut h => proxyDecode_append pton h hcut⟩,
    fun pieces n r h => ⟨fun hpieces k hcut => ?_, fun hcut => ?_⟩⟩
  · have hcuts := proxyDecode_cuts pton hcut
    have hsame := h (by rw [hcuts]; exact fun he => by cases he)
    rw [hcuts, proxyDecode_v2 pton hcut.2.2] at hsame
    obtain he | he := decodeV2_error hsame
    · cases he
    · cases he
  · have hgone : decodePieces pton [] pieces = .error (-ENOSPC) := decodePieces_cuts pton hcut hwait
    rw [hgone] at hpieces
    cases hpieces
  · exact decodePieces_eq pton h hwait hcut

end

/-- An `inet_pton` that knows no address. -/
def InetPton.never : InetPton where
  read _ _ := none
  short _ _ _ h := by cases h
  plain _ _ _ h := by cases h

/-- A binary header: 10.0.0.1 port 4660 to 10.0.0.2 port 443. -/
def tcp4Header : Bytes := v2Sig ++ [0x21, 0x11, 0, 12, 10, 0, 0, 1, 10, 0, 0, 2, 0x12, 0x34, 0x01, 0xBB]

theorem decode_six_bytes :
    proxyDecode .never (tcp4Header.take 6) = .error (-ENOSPC) ∧
    proxyDecode .never (tcp4Header.take 6 ++ tcp4Header.drop 6) =
      .ok (28, .ofAddrs 2 .inet [10, 0, 0, 1] [10, 0, 0, 2] 0x1234 443) ∧
    decodePieces .never [] [tcp4Header.take 6, tcp4Header.drop 6] = .error (-ENOSPC) := by
  decide

theorem decode_stable_twelve :
    proxyDecode .never (tcp4Header.take 12 ++ tcp4Header.drop 12) =
      .ok (28, .ofAddrs 2 .inet [10, 0, 0, 1] [10, 0, 0, 2] 0x1234 443) ∧
    decodePieces .never [] [tcp4Header.take 12, tcp4Header.drop 12] =
      .ok (28, .ofAddrs 2 .inet [10, 0, 0, 1] [10, 0, 0, 2] 0x1234 443) := by
  have hwhole : proxyDecode .never [tcp4Header.take 12, tcp4Header.drop 12].flatten =
      .ok (28, .ofAddrs 2 .inet [10, 0, 0, 1] [10, 0, 0, 2] 0x1234 443) := by decide
  refine ⟨by decide, ((decode_stable_iff .never).2 _ _ _ hwhole).mpr fun k => ?_⟩
  rcases k with _ | _ | k
  · decide
  · decide
  · intro hcut
    have hlen := hcut.2.1
    rw [take_of_length_le (by simp)] at hlen
    exact absurd hlen (by decide)

end Iohttp
