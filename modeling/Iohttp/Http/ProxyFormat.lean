/-
# The two formats of the PROXY header

What `src/http/ioh_proxy_proto.c` reads, against the formats themselves. A binary
header is what an encoder makes of a command, two endpoints and TLVs; the decoder
gives the endpoints back and stops where the header stops. A text header is a line
of a small grammar; the decoder takes the lines of the grammar and some more.
-/
import Iohttp.Http.Proxy

namespace Iohttp

open List

variable {field : Bytes} {fam : Family} {pton : InetPton} {r : ProxyResult}

/-! ### Writing a binary header -/

/-- The two ends of a proxied connection. -/
structure V2Endpoints where
  fam : Family
  src : Bytes
  dst : Bytes
  srcPort : ℕ
  dstPort : ℕ
  src_size : src.length = fam.size
  dst_size : dst.length = fam.size
  srcPort_lt : srcPort < 65536
  dstPort_lt : dstPort < 65536

/-- The command of a header. A LOCAL header may come with addresses, which the
receiver skips. -/
inductive V2Command where
  | loc (endpoints : Option V2Endpoints)
  | proxy (endpoints : V2Endpoints)

/-- Two bytes in network order. -/
def toBe16 (n : ℕ) : Bytes := [UInt8.ofNat (n / 256), UInt8.ofNat (n % 256)]

def V2Endpoints.block (e : V2Endpoints) : Bytes := e.src ++ e.dst ++ toBe16 e.srcPort ++ toBe16 e.dstPort

/-- The number of a family in a header. -/
def Family.nibble : Family → ℕ
  | .inet => 1
  | .inet6 => 2

def V2Command.endpoints : V2Command → Option V2Endpoints
  | .loc endpoints => endpoints
  | .proxy endpoints => some endpoints

def V2Command.verCmd : V2Command → UInt8
  | .loc _ => 0x20
  | .proxy _ => 0x21

/-- The address block of a command; LOCAL without addresses has none. -/
def V2Command.block (c : V2Command) : Bytes := (c.endpoints.map V2Endpoints.block).getD []

/-- The family's number, 0 without addresses. -/
def V2Command.nibble (c : V2Command) : ℕ := (c.endpoints.map fun e => e.fam.nibble).getD 0

/-- A binary header: a command, a transport protocol and TLVs that fit with the
addresses in the length field. -/
structure V2Header where
  command : V2Command
  proto : Fin 16
  tlvs : Bytes
  fits : command.block.length + tlvs.length ≤ 65535

def V2Header.encode (h : V2Header) : Bytes :=
  v2Sig ++ [h.command.verCmd, UInt8.ofNat (h.command.nibble * 16 + h.proto)] ++
    toBe16 (h.command.block.length + h.tlvs.length) ++ h.command.block ++ h.tlvs

/-- What a receiver should learn from a command. -/
def V2Command.result : V2Command → ProxyResult
  | .loc _ => .ofLocal 2
  | .proxy e => .ofAddrs 2 e.fam e.src e.dst e.srcPort e.dstPort

variable {len n port : ℕ} {dst more pos rest src tail token : Bytes}

theorem be16_toBe16 (h : n < 65536) (rest : Bytes) : be16 (toBe16 n ++ rest) = n := by
  have hhi : (UInt8.ofNat (n / 256)).toNat = n / 256 := by
    rw [UInt8.toNat_ofNat']
    omega
  have hlo : (UInt8.ofNat (n % 256)).toNat = n % 256 := by
    rw [UInt8.toNat_ofNat']
    omega
  calc be16 (toBe16 n ++ rest) = (UInt8.ofNat (n / 256)).toNat * 256 +
    (UInt8.ofNat (n % 256)).toNat := rfl
    _ = n := by rw [hhi, hlo]; omega

theorem nibble_shift (fam : Family) (proto : Fin 16) :
    (UInt8.ofNat (fam.nibble * 16 + proto) >>> 4) &&& 0x0F = UInt8.ofNat fam.nibble := by
  cases fam
  · revert proto
    decide
  · revert proto
    decide

theorem V2Endpoints.length_block (e : V2Endpoints) : e.block.length = 2 * e.fam.size + 4 := by
  simp only [V2Endpoints.block, length_append, e.src_size, e.dst_size, toBe16, length_cons, length_nil]
  omega

theorem v2Pair_block (e : V2Endpoints) (rest : Bytes) :
    v2Pair e.fam (e.block ++ rest) = (V2Command.proxy e).result := by
  have hblock :
      e.block ++ rest = e.src ++ (e.dst ++ (toBe16 e.srcPort ++ (toBe16 e.dstPort ++ rest))) := by
    simp only [V2Endpoints.block, append_assoc]
  have hdrop : ∀ n (tail : Bytes), (e.src ++ (e.dst ++ tail)).drop (2 * e.fam.size + n) =
      tail.drop n := by
    intro n tail
    rw [show 2 * e.fam.size + n = e.src.length +
      (e.dst.length + n) by rw [e.src_size, e.dst_size]; omega,
      ← drop_drop, drop_left, ← drop_drop, drop_left]
  unfold v2Pair
  rw [hblock, hdrop 2, show 2 * e.fam.size = 2 * e.fam.size + 0 from rfl, hdrop 0, ← e.src_size,
    take_left,
    drop_left, e.src_size, ← e.dst_size, take_left, drop_zero, be16_toBe16 e.srcPort_lt]
  rw [show (toBe16 e.srcPort ++ (toBe16 e.dstPort ++ rest)).drop 2 = toBe16 e.dstPort ++ rest from rfl,
    be16_toBe16 e.dstPort_lt]
  rfl

theorem decodeV2_header {verCmd famProto : UInt8} (hlen : len < 65536)
    (htail : len ≤ tail.length) (hver : verCmd >>> 4 = 2) (hcmd : ¬verCmd &&& 0x0F > 1) :
    decodeV2 (v2Sig ++ [verCmd, famProto] ++ toBe16 len ++ tail) =
      if verCmd &&& 0x0F = 0 then .ok (16 + len, .ofLocal 2)
      else
        match v2Addrs ((famProto >>> 4) &&& 0x0F) len tail with
        | some result => .ok (16 + len, result)
        | none => .error (-EINVAL) := by
  have hbe : be16 ((v2Sig ++ [verCmd, famProto] ++ toBe16 len ++ tail).drop 14) = len :=
    be16_toBe16 hlen tail
  have hsize : (v2Sig ++ [verCmd, famProto] ++ toBe16 len ++ tail).length = 16 + tail.length := by
    rw [length_append]
    rfl
  have h12 : (v2Sig ++ [verCmd, famProto] ++ toBe16 len ++ tail).getD 12 0 = verCmd := rfl
  have h13 : (v2Sig ++ [verCmd, famProto] ++ toBe16 len ++ tail).getD 13 0 = famProto := rfl
  have hsig : (v2Sig ++ [verCmd, famProto] ++ toBe16 len ++ tail).take 12 = v2Sig := rfl
  have hbody : (v2Sig ++ [verCmd, famProto] ++ toBe16 len ++ tail).drop 16 = tail := rfl
  unfold decodeV2 v2MinLen
  simp only [hbe, hsize, h12, h13, hsig, hbody]
  rw [if_neg (by omega), if_neg (not_not.mpr rfl), if_neg (not_not.mpr hver), if_neg hcmd]
  exact if_neg (by omega)

theorem v2Addrs_block (e : V2Endpoints) (hlen : e.block.length ≤ len) (rest : Bytes) :
    v2Addrs (UInt8.ofNat e.fam.nibble) len (e.block ++ rest) = some (V2Command.proxy e).result := by
  have hpair := v2Pair_block e rest
  rw [e.length_block] at hlen
  unfold v2Addrs
  cases hfam : e.fam with
  | inet =>
    rw [hfam] at hpair hlen
    rw [if_pos (by decide), if_neg (by rw [Family.size] at hlen; omega), hpair]
  | inet6 =>
    rw [hfam] at hpair hlen
    rw [if_neg (by decide), if_pos (by decide), if_neg (by rw [Family.size] at hlen; omega), hpair]

theorem V2Header.length_encode (h : V2Header) :
    h.encode.length = 16 + (h.command.block.length + h.tlvs.length) := by
  simp only [V2Header.encode, length_append, length_v2Sig, toBe16, length_cons, length_nil]
  omega

/-- What is written is read back, whatever follows. -/
theorem proxyDecode_encode (pton : InetPton) (h : V2Header) (rest : Bytes) :
    proxyDecode pton (h.encode ++ rest) = .ok (h.encode.length, h.command.result) := by
  have hfits := h.fits
  have hsplit :
    h.encode ++ rest = v2Sig ++ [h.command.verCmd, UInt8.ofNat (h.command.nibble * 16 + h.proto)] ++
      toBe16 (h.command.block.length + h.tlvs.length) ++ (h.command.block ++ (h.tlvs ++ rest)) := by
    simp only [V2Header.encode, append_assoc]
  have hsig : v2Sig <+: h.encode ++ rest := by
    rw [hsplit]
    exact ⟨_, by rw [append_assoc, append_assoc]⟩
  have htail :
      h.command.block.length + h.tlvs.length ≤ (h.command.block ++ (h.tlvs ++ rest)).length := by
    simp only [length_append]
    omega
  rw [proxyDecode_v2 pton hsig, hsplit, h.length_encode]
  cases hcmd : h.command with
  | loc endpoints =>
    rw [hcmd] at htail hfits
    rw [decodeV2_header (by omega) htail (by rw [V2Command.verCmd]; decide)
      (by rw [V2Command.verCmd]; decide),
      if_pos (by rw [V2Command.verCmd]; decide)]
    rfl
  | proxy e =>
    rw [hcmd] at htail hfits
    rw [decodeV2_header (by omega) htail (by rw [V2Command.verCmd]; decide)
      (by rw [V2Command.verCmd]; decide),
      if_neg (by rw [V2Command.verCmd]; decide)]
    have hnib : (V2Command.proxy e).nibble = e.fam.nibble := rfl
    have hblock : (V2Command.proxy e).block = e.block := rfl
    rw [hnib, nibble_shift, hblock, v2Addrs_block e (by omega)]

/-- **A binary header is read back, and a header is all that is consumed.** What an
encoder wrote gives the addresses and ports that went in and its own length,
whatever follows; and whenever anything is consumed, it is there and it alone
decides what comes out. -/
theorem decode_encode (pton : InetPton) :
    (∀ (h : V2Header) (rest : Bytes),
      proxyDecode pton (h.encode ++ rest) = .ok (h.encode.length, h.command.result)) ∧
    ∀ (buf : Bytes) (n : ℕ) (r : ProxyResult), proxyDecode pton buf = .ok (n, r) →
      0 < n ∧ n ≤ buf.length ∧ ∀ rest, proxyDecode pton (buf.take n ++ rest) = .ok (n, r) := by
  refine ⟨proxyDecode_encode pton, fun buf n r h => ?_⟩
  obtain ⟨hpos, hle, _⟩ := proxyDecode_take pton h
  exact ⟨hpos, hle, proxyDecode_rest pton h⟩

theorem decode_encode_tcp4 :
    0 < 28 ∧ 28 ≤ (tcp4Header ++ bytes "GET").length ∧ ∀ rest,
      proxyDecode .never ((tcp4Header ++ bytes "GET").take 28 ++ rest) =
        .ok (28, .ofAddrs 2 .inet [10, 0, 0, 1] [10, 0, 0, 2] 0x1234 443) :=
  (decode_encode .never).2 (tcp4Header ++ bytes "GET") 28 _ (by decide)

/-! ### The lines of a text header

Everything here is about the text between `PROXY` with its space and the end of
the line. -/

/-- The name of a family, with the space behind it. -/
def Family.word : Family → Bytes
  | .inet => bytes "TCP4 "
  | .inet6 => bytes "TCP6 "

/-- The number that digits stand for. -/
def portValue (digits : Bytes) : ℕ := digits.foldl (fun n c => n * 10 + (c.toNat - 48)) 0

/-- Only portValue digits. -/
def Digits (field : Bytes) : Prop := ∀ c ∈ field, 48 ≤ c ∧ c ≤ 57

instance (field : Bytes) : Decidable (Digits field) :=
  decidable_of_iff ((field.all fun c => decide (48 ≤ c ∧ c ≤ 57)) = true) (by simp [Digits])

structure IsPort (field : Bytes) (port : ℕ) : Prop where
  ne_nil : field ≠ []
  digits : Digits field
  value : portValue field = port
  le : port ≤ 65535

/-- A field that is taken for a port and is none: nothing at all, a number that is
small again only modulo `2 ^ 32`, or digits with a NUL and more behind them. -/
def PortSlip (field : Bytes) (port : ℕ) : Prop :=
  ∃ digits tail, field = digits ++ tail ∧ Digits digits ∧ (tail = [] ∨ tail.head? = some 0) ∧
    portValue digits % 2 ^ 32 = port ∧ port ≤ 65535 ∧
    (digits = [] ∨ 2 ^ 32 ≤ portValue digits ∨ tail ≠ [])

/-- The four fields behind the name of a family. -/
structure V1Fields where
  srcIp : Bytes
  dstIp : Bytes
  srcPort : Bytes
  dstPort : Bytes

/-- The fields with single spaces between them. -/
def V1Fields.text (f : V1Fields) : Bytes :=
  f.srcIp ++ 32 :: (f.dstIp ++ 32 :: (f.srcPort ++ 32 :: f.dstPort))

/-- The first three fields end at a space, so they have none in them, and no NUL. -/
def V1Fields.Plain (f : V1Fields) : Prop :=
  ∀ c, c ∈ f.srcIp ∨ c ∈ f.dstIp ∨ c ∈ f.srcPort → c ≠ 32 ∧ c ≠ 0

/-- The lines of the grammar, with what they say. -/
inductive V1Grammar (pton : InetPton) : Bytes → ProxyResult → Prop where
  | unknown : V1Grammar pton (bytes "UNKNOWN") (.ofLocal 1)
  | unknownMore (more : Bytes) : V1Grammar pton (bytes "UNKNOWN" ++ 32 :: more) (.ofLocal 1)
  | tcp (fam : Family) (f : V1Fields) {src dst : Bytes} {srcPort dstPort : ℕ}
      (hsrc : pton.read fam f.srcIp = some src) (hdst : pton.read fam f.dstIp = some dst)
      (hsport : IsPort f.srcPort srcPort) (hdport : IsPort f.dstPort dstPort) :
      V1Grammar pton (fam.word ++ f.text) (.ofAddrs 1 fam src dst srcPort dstPort)

/-- The lines outside the grammar that are taken. -/
inductive V1Slip (pton : InetPton) : Bytes → Prop where
  | unknown {c : UInt8} (hc : c ≠ 32) (more : Bytes) : V1Slip pton (bytes "UNKNOWN" ++ c :: more)
  | srcPort (fam : Family) (f : V1Fields) {src dst : Bytes} {srcPort dstPort : ℕ}
      (hsrc : pton.read fam f.srcIp = some src) (hdst : pton.read fam f.dstIp = some dst)
      (hsport : PortSlip f.srcPort srcPort) (hplain : (0 : UInt8) ∉ f.srcPort)
      (hdport : IsPort f.dstPort dstPort ∨ PortSlip f.dstPort dstPort) : V1Slip pton (fam.word ++ f.text)
  | dstPort (fam : Family) (f : V1Fields) {src dst : Bytes} {srcPort dstPort : ℕ}
      (hsrc : pton.read fam f.srcIp = some src) (hdst : pton.read fam f.dstIp = some dst)
      (hsport : IsPort f.srcPort srcPort) (hdport : PortSlip f.dstPort dstPort) :
        V1Slip pton (fam.word ++ f.text)

theorem splitToken_eq_some :
    splitToken pos = some (token, rest) ↔ pos = token ++ 32 :: rest ∧ ∀ c ∈ token, c ≠ 32 ∧ c ≠ 0 := by
  constructor
  · intro h
    unfold splitToken at h
    by_cases hspace : (pos.drop (pos.takeWhile fun c => c ≠ 32 ∧ c ≠ 0).length).head? = some 32
    · rw [if_pos hspace] at h
      cases h
      have hsplit : pos = (pos.takeWhile fun c => c ≠ 32 ∧ c ≠ 0) ++
          pos.drop (pos.takeWhile fun c => c ≠ 32 ∧ c ≠ 0).length :=
        prefix_iff_eq_append.mp (by exact takeWhile_prefix _) |>.symm
      refine ⟨?_, fun c hc => by simpa using mem_takeWhile_imp hc⟩
      obtain ⟨tail, htail⟩ := head?_eq_some_iff.mp hspace
      conv_lhs => rw [hsplit, htail]
      rw [← drop_drop, htail]
      rfl
    · rw [if_neg hspace] at h
      cases h
  · rintro ⟨rfl, hplain⟩
    have htoken : (token ++ 32 :: rest).takeWhile (fun c => c ≠ 32 ∧ c ≠ 0) = token := by
      rw [takeWhile_append_of_pos (by simpa using hplain)]
      simp
    unfold splitToken
    simp only [htoken]
    rw [drop_left, if_pos (by rfl), ← drop_drop, drop_left]
    rfl

theorem portValue_mod (a : ℕ) (field : Bytes) :
    field.foldl (fun n c => n * 10 + (c.toNat - 48)) (a % 2 ^ 32) % 2 ^ 32 =
      field.foldl (fun n c => n * 10 + (c.toNat - 48)) a % 2 ^ 32 := by
  induction field generalizing a with
  | nil => exact Nat.mod_mod a _
  | cons c field ih =>
    have hstep : (a % 2 ^ 32 * 10 + (c.toNat - 48)) % 2 ^ 32 = (a * 10 + (c.toNat - 48)) % 2 ^
      32 := by omega
    rw [foldl_cons, foldl_cons, ← ih, hstep, ih]

theorem portLoop_eq_some {start : ℕ} (hstart : start < 2 ^ 32) : portLoop start field = some n ↔
      Digits field ∧ field.foldl (fun n c => n * 10 + (c.toNat - 48)) start % 2 ^ 32 = n := by
  induction field generalizing start with
  | nil =>
    rw [portLoop, foldl_nil, Nat.mod_eq_of_lt hstart, Option.some_inj]
    exact (and_iff_right fun c hc => by cases hc).symm
  | cons c field ih =>
    rw [portLoop, foldl_cons]
    by_cases hc : c < 48 ∨ c > 57
    · rw [if_pos hc]
      refine ⟨fun h => (by cases h), fun h => ?_⟩
      obtain ⟨hlo, hhi⟩ := h.1 c mem_cons_self
      obtain hlt | hgt := hc
      · exact absurd hlo (UInt8.not_le.mpr hlt)
      · exact absurd hhi (UInt8.not_le.mpr hgt)
    · rw [if_neg hc, ih (Nat.mod_lt _ (by omega)), portValue_mod]
      have hdigit : 48 ≤ c ∧ c ≤ 57 :=
        ⟨UInt8.not_lt.mp fun h => hc (.inl h), UInt8.not_lt.mp fun h => hc (.inr h)⟩
      refine and_congr_left fun _ => ?_
      rw [Digits, Digits, forall_mem_cons]
      exact (and_iff_right hdigit).symm

theorem exists_nul_tail (field : Bytes) :
    ∃ tail, field = field.takeWhile (· ≠ 0) ++ tail ∧ (tail = [] ∨ tail.head? = some 0) := by
  induction field with
  | nil => exact ⟨[], rfl, .inl rfl⟩
  | cons c field ih =>
    by_cases hc : c = 0
    · exact ⟨c :: field, by rw [takeWhile_cons_of_neg (by simpa using hc)]; rfl, .inr (by rw [hc]; rfl)⟩
    · obtain ⟨tail, htail, hend⟩ := ih
      refine ⟨tail, ?_, hend⟩
      rw [takeWhile_cons_of_pos (by simpa using hc), cons_append, ← htail]

theorem takeWhile_digits {digits : Bytes} (hdigits : Digits digits)
    (hend : tail = [] ∨ tail.head? = some 0) : (digits ++ tail).takeWhile (· ≠ 0) = digits := by
  have hne : ∀ c ∈ digits, decide (c ≠ 0) = true := by
    intro c hc
    refine decide_eq_true fun hzero => ?_
    have hlo := (hdigits c hc).1
    rw [hzero] at hlo
    exact absurd hlo (by decide)
  rw [takeWhile_append_of_pos hne]
  obtain rfl | hhead := hend
  · rw [takeWhile_nil, append_nil]
  · obtain ⟨tail', rfl⟩ := head?_eq_some_iff.mp hhead
    rw [takeWhile_cons_of_neg (by decide), append_nil]

theorem port_taken_iff :
    (portLoop 0 (field.takeWhile (· ≠ 0)) = some port ∧ port ≤ 65535) ↔ IsPort field port ∨
    PortSlip field port := by
  rw [portLoop_eq_some (by omega)]
  constructor
  · rintro ⟨⟨hdigits, hvalue⟩, hle⟩
    obtain ⟨tail, hfield, hend⟩ := exists_nul_tail field
    by_cases hslip : field.takeWhile (· ≠ 0) = [] ∨ 2 ^ 32 ≤ portValue (field.takeWhile (· ≠ 0)) ∨
      tail ≠ []
    · exact .inr ⟨_, tail, hfield, hdigits, hend, hvalue, hle, hslip⟩
    · rw [not_or, not_or, not_le, not_not] at hslip
      obtain ⟨hne, hlt, rfl⟩ := hslip
      rw [append_nil] at hfield
      rw [← hfield] at hne hlt hdigits hvalue
      exact .inl ⟨hne, hdigits, (Nat.mod_eq_of_lt hlt).symm.trans hvalue, hle⟩
  · rintro (⟨_, hdigits, hvalue, hle⟩ | ⟨digits, tail, rfl, hdigits, hend, hvalue, hle, _⟩)
    · have hfield := takeWhile_digits hdigits (.inl rfl)
      rw [append_nil] at hfield
      rw [hfield]
      refine ⟨⟨hdigits, ?_⟩, hle⟩
      rw [← hvalue] at hle ⊢
      exact Nat.mod_eq_of_lt (lt_of_le_of_lt hle (by omega))
    · rw [takeWhile_digits hdigits hend]
      exact ⟨⟨hdigits, hvalue⟩, hle⟩

theorem PortSlip.not_port {port' : ℕ} (h : PortSlip field port) : ¬IsPort field port' := by
  rintro ⟨hne, hdigits, hvalue, hle⟩
  obtain ⟨digits, tail, rfl, _, hend, _, _, hslip⟩ := h
  obtain rfl | hhead := hend
  · rw [append_nil] at hne hvalue
    obtain hnil | hbig | hnil := hslip
    · exact hne hnil
    · omega
    · exact hnil rfl
  · obtain ⟨tail', rfl⟩ := head?_eq_some_iff.mp hhead
    have hzero := (hdigits 0 (mem_append_right _ mem_cons_self)).1
    exact absurd hzero (by decide)

theorem splitToken_text (h : ∀ c ∈ token, c ≠ 32 ∧ c ≠ 0) :
    splitToken (token ++ 32 :: rest) = some (token, rest) :=
  splitToken_eq_some.mpr ⟨rfl, h⟩

theorem v1Addrs_eq_some : v1Addrs pton fam pos = some r ↔
      ∃ (f : V1Fields) (src dst : Bytes) (srcPort dstPort : ℕ), pos = f.text ∧
        pton.read fam f.srcIp = some src ∧ pton.read fam f.dstIp = some dst ∧
        (∀ c ∈ f.srcPort, c ≠ 32 ∧ c ≠ 0) ∧ (portLoop 0 f.srcPort = some srcPort ∧ srcPort ≤ 65535) ∧
        (portLoop 0 (f.dstPort.takeWhile (· ≠ 0)) = some dstPort ∧ dstPort ≤ 65535) ∧
        r = .ofAddrs 1 fam src dst srcPort dstPort := by
  constructor
  · intro h
    unfold v1Addrs at h
    simp only [Option.bind_eq_bind, Option.bind_eq_some_iff, Option.pure_def, Option.some.injEq,
      Prod.exists] at h
    obtain ⟨srcIp, pos1, h1, _, _, dstIp, pos2, h2, _, _, digits, pos3, h3, srcPort, hsp, dstPort,
      hdp, _, hle,
      src, hsrc, dst, hdst, hr⟩ := h
    obtain ⟨rfl, _⟩ := splitToken_eq_some.mp h1
    obtain ⟨rfl, _⟩ := splitToken_eq_some.mp h2
    obtain ⟨rfl, hplain⟩ := splitToken_eq_some.mp h3
    have hports : srcPort ≤ 65535 ∧ dstPort ≤ 65535 := by
      by_contra hne
      rw [guard, if_neg hne] at hle
      cases hle
    exact ⟨⟨srcIp, dstIp, digits, pos3⟩, src, dst, srcPort, dstPort, rfl, hsrc, hdst, hplain,
      ⟨hsp, hports.1⟩,
      ⟨hdp, hports.2⟩, hr.symm⟩
  · rintro ⟨f, src, dst, srcPort, dstPort, rfl, hsrc, hdst, hplain, ⟨hsp, hsle⟩, ⟨hdp, hdle⟩, rfl⟩
    unfold v1Addrs V1Fields.text
    rw [splitToken_text (pton.plain _ _ _ hsrc)]
    simp only [Option.bind_eq_bind, Option.bind_some]
    rw [guard, if_pos (pton.short _ _ _ hsrc), splitToken_text (pton.plain _ _ _ hdst)]
    simp only [Option.pure_def, Option.bind_some]
    rw [guard, if_pos (pton.short _ _ _ hdst), splitToken_text hplain]
    simp only [Option.pure_def, Option.bind_some]
    rw [hsp, Option.bind_some, hdp, Option.bind_some, guard, if_pos ⟨hsle, hdle⟩, hsrc, hdst]
    rfl

variable {text : Bytes}

theorem v1Line_eq_some : v1Line pton text = some r ↔
      (∃ more, text = bytes "UNKNOWN" ++ more ∧ r = .ofLocal 1) ∨
      ∃ fam pos, text = Family.word fam ++ pos ∧ v1Addrs pton fam pos = some r := by
  have hword : ∀ fam : Family, fam.word.length = 5 ∧ ¬bytes "UNKNOWN" <+: fam.word ∧
      ¬fam.word <+: bytes "UNKNOWN" := by
    intro fam
    cases fam <;> decide
  have htcp : ∀ fam pos, ¬(bytes "UNKNOWN").isPrefixOf (Family.word fam ++ pos) = true := by
    intro fam pos hpre
    replace hpre := isPrefixOf_iff_prefix.mp hpre
    obtain h | h := prefix_or_prefix_of_prefix hpre (prefix_append _ pos)
    · exact (hword fam).2.1 h
    · exact (hword fam).2.2 h
  have hown : ∀ fam pos, (Family.word fam).isPrefixOf (Family.word fam ++ pos) = true :=
    fun _ pos => isPrefixOf_iff_prefix.mpr (prefix_append _ pos)
  have hdrop : ∀ fam pos, (Family.word fam ++ pos).drop 5 = pos := by
    intro fam pos
    rw [← (hword fam).1, drop_left]
  unfold v1Line
  constructor
  · intro h
    split_ifs at h with hunknown h4 h6
    · obtain ⟨more, rfl⟩ := isPrefixOf_iff_prefix.mp hunknown
      cases h
      exact .inl ⟨more, rfl, rfl⟩
    · obtain ⟨pos, rfl⟩ := isPrefixOf_iff_prefix.mp h4
      exact .inr ⟨.inet, pos, rfl, h⟩
    · obtain ⟨pos, rfl⟩ := isPrefixOf_iff_prefix.mp h6
      exact .inr ⟨.inet6, pos, rfl, h⟩
  · rintro (⟨more, rfl, rfl⟩ | ⟨fam, pos, rfl, h⟩)
    · exact if_pos <| isPrefixOf_iff_prefix.mpr <| prefix_append _ more
    · rw [if_neg (htcp fam pos), hdrop]
      cases fam with
      | inet => exact (if_pos (hown .inet pos)).trans h
      | inet6 =>
        have h4 : ¬(bytes "TCP4 ").isPrefixOf (Family.inet6.word ++ pos) = true := by
          intro hpre
          replace hpre := isPrefixOf_iff_prefix.mp hpre
          have hboth : bytes "TCP4 " <+: Family.inet6.word :=
            prefix_of_prefix_length_le hpre (prefix_append _ pos) (by decide)
          exact absurd hboth (by decide)
        exact (if_neg h4).trans ((if_pos (hown .inet6 pos)).trans h)

theorem Digits.plain (h : Digits field) : ∀ c ∈ field, c ≠ 32 ∧ c ≠ 0 := by
  intro c hc
  have hlo := (h c hc).1
  constructor
  · rintro rfl
    exact absurd hlo (by decide)
  · rintro rfl
    exact absurd hlo (by decide)

theorem port_plain (h : IsPort field port ∨ PortSlip field port)
    (hnul : (0 : UInt8) ∉ field) : Digits field ∧ field.takeWhile (· ≠ 0) = field := by
  have hdigits : Digits field := by
    obtain hport | ⟨digits, tail, rfl, hdigits, hend, _⟩ := h
    · exact hport.digits
    · obtain rfl | hhead := hend
      · rwa [append_nil]
      · obtain ⟨tail', rfl⟩ := head?_eq_some_iff.mp hhead
        exact absurd (mem_append_right _ mem_cons_self) hnul
  have hcut := takeWhile_digits hdigits (.inl rfl)
  rw [append_nil] at hcut
  exact ⟨hdigits, hcut⟩

theorem Digits.nul_notMem (h : Digits field) : (0 : UInt8) ∉ field :=
  fun hmem => (h.plain 0 hmem).2 rfl

variable {f : V1Fields}

theorem v1Line_tcp {srcPort dstPort : ℕ}
    (hsrc : pton.read fam f.srcIp = some src) (hdst : pton.read fam f.dstIp = some dst)
    (hsport : IsPort f.srcPort srcPort ∨ PortSlip f.srcPort srcPort) (hnul : (0 : UInt8) ∉ f.srcPort)
    (hdport : IsPort f.dstPort dstPort ∨ PortSlip f.dstPort dstPort) :
    v1Line pton (fam.word ++ f.text) = some (.ofAddrs 1 fam src dst srcPort dstPort) := by
  obtain ⟨hdigits, hcut⟩ := port_plain hsport hnul
  have hsp := port_taken_iff.mpr hsport
  rw [hcut] at hsp
  exact v1Line_eq_some.mpr (.inr ⟨fam, f.text, rfl, v1Addrs_eq_some.mpr
    ⟨f, src, dst, srcPort, dstPort, rfl, hsrc, hdst, hdigits.plain, hsp,
      port_taken_iff.mpr hdport, rfl⟩⟩)

theorem V1Grammar.taken (h : V1Grammar pton text r) : v1Line pton text = some r := by
  cases h with
  | unknown => exact v1Line_eq_some.mpr (.inl ⟨[], (append_nil _).symm, rfl⟩)
  | unknownMore more => exact v1Line_eq_some.mpr (.inl ⟨_, rfl, rfl⟩)
  | tcp fam f hsrc hdst hsport hdport =>
    exact v1Line_tcp hsrc hdst (.inl hsport) hsport.digits.nul_notMem (.inl hdport)

theorem V1Slip.taken (h : V1Slip pton text) : ∃ r, v1Line pton text = some r := by
  cases h with
  | unknown hc more => exact ⟨_, v1Line_eq_some.mpr (.inl ⟨_, rfl, rfl⟩)⟩
  | srcPort fam f hsrc hdst hsport hnul hdport =>
    exact ⟨_, v1Line_tcp hsrc hdst (.inr hsport) hnul hdport⟩
  | dstPort fam f hsrc hdst hsport hdport =>
    exact ⟨_, v1Line_tcp hsrc hdst (.inl hsport) hsport.digits.nul_notMem (.inr hdport)⟩

theorem grammar_or_slip (h : v1Line pton text = some r) : V1Grammar pton text r ∨ V1Slip pton text := by
  obtain ⟨more, rfl, rfl⟩ | ⟨fam, pos, rfl, haddrs⟩ := v1Line_eq_some.mp h
  · cases more with
    | nil =>
      exact .inl .unknown
    | cons c more =>
      by_cases hc : c = 32
      · rw [hc]
        exact .inl (.unknownMore more)
      · exact .inr (.unknown hc more)
  · obtain ⟨f, src, dst, srcPort, dstPort, rfl, hsrc, hdst, hplain, hsp, hdp, rfl⟩ :=
      v1Addrs_eq_some.mp haddrs
    have hnul : (0 : UInt8) ∉ f.srcPort := fun hmem => (hplain 0 hmem).2 rfl
    have hcut : f.srcPort.takeWhile (· ≠ 0) = f.srcPort :=
      takeWhile_eq_self_iff.mpr fun c hc => decide_eq_true (hplain c hc).2
    have hsport := port_taken_iff.mp (by rw [hcut]; exact hsp)
    have hdport := port_taken_iff.mp hdp
    obtain hs | hs := hsport
    · obtain hd | hd := hdport
      · exact .inl (.tcp fam f hsrc hdst hs hd)
      · exact .inr (.dstPort fam f hsrc hdst hs hd)
    · exact .inr (.srcPort fam f hsrc hdst hs hnul hdport)

theorem text_inj {fam' : Family} {f' : V1Fields} (h : fam.word ++ f.text = fam'.word ++ f'.text)
    (hf : f.Plain) (hf' : f'.Plain) : f = f' := by
  have hlen : ∀ g : Family, g.word.length = 5 := by
    intro g
    cases g <;> decide
  have htext : f.text = f'.text := (append_inj h ((hlen fam).trans (hlen fam').symm)).2
  have hone : ∀ {token token' rest rest' : Bytes}, (∀ c ∈ token, c ≠ 32 ∧ c ≠ 0) →
    (∀ c ∈ token', c ≠ 32 ∧ c ≠ 0) →
      token ++ 32 :: rest = token' ++ 32 :: rest' → token = token' ∧ rest = rest' := by
    intro token token' rest rest' hplain hplain' heq
    have hsplit : splitToken (token ++ 32 :: rest) = some (token, rest) := splitToken_text hplain
    rw [heq, splitToken_text hplain'] at hsplit
    cases hsplit
    exact ⟨rfl, rfl⟩
  obtain ⟨h1, hrest⟩ := hone (fun c hc => hf c (.inl hc)) (fun c hc => hf' c (.inl hc)) htext
  obtain ⟨h2, hrest⟩ :=
    hone (fun c hc => hf c (.inr (.inl hc))) (fun c hc => hf' c (.inr (.inl hc))) hrest
  obtain ⟨h3, h4⟩ := hone (fun c hc => hf c (.inr (.inr hc))) (fun c hc => hf' c (.inr (.inr hc))) hrest
  cases f
  cases f'
  cases h1
  cases h2
  cases h3
  cases h4
  rfl

theorem unknown_ne_tcp : bytes "UNKNOWN" ++ more ≠ fam.word ++ pos := by
  intro h
  have hhead := congrArg List.head? h
  have hunknown : (bytes "UNKNOWN" ++ more).head? = some 85 := rfl
  have hword : (fam.word ++ pos).head? = some 84 := by
    cases fam <;> rfl
  rw [hunknown, hword] at hhead
  exact absurd hhead (by decide)

theorem plain_of_read (hsrc : pton.read fam f.srcIp = some src)
    (hdst : pton.read fam f.dstIp = some dst) (hport : Digits f.srcPort) : f.Plain := by
  intro c hc
  obtain hc | hc | hc := hc
  · exact pton.plain _ _ _ hsrc c hc
  · exact pton.plain _ _ _ hdst c hc
  · exact hport.plain c hc

theorem V1Grammar.ports (hf : f.Plain) (h : V1Grammar pton (fam.word ++ f.text) r) :
    (∃ srcPort, IsPort f.srcPort srcPort) ∧ ∃ dstPort, IsPort f.dstPort dstPort := by
  generalize htext : fam.word ++ f.text = text at h
  cases h with
  | unknown => exact absurd ((append_nil _).trans htext.symm) unknown_ne_tcp
  | unknownMore more => exact absurd htext.symm unknown_ne_tcp
  | tcp fam' f' hsrc hdst hsport hdport =>
    have hsame := text_inj htext hf (plain_of_read hsrc hdst hsport.digits)
    rw [hsame]
    exact ⟨⟨_, hsport⟩, ⟨_, hdport⟩⟩

theorem V1Grammar.unknown_space {c : UInt8}
    (h : V1Grammar pton (bytes "UNKNOWN" ++ c :: more) r) : c = 32 := by
  generalize htext : bytes "UNKNOWN" ++ c :: more = text at h
  cases h with
  | unknown => cases self_eq_append_right.mp htext.symm
  | unknownMore more' =>
    cases append_cancel_left htext
    rfl
  | tcp fam f hsrc hdst hsport hdport => exact absurd htext unknown_ne_tcp

theorem V1Slip.not_grammar (h : V1Slip pton text) : ¬V1Grammar pton text r := by
  intro hg
  cases h with
  | unknown hc more => exact hc hg.unknown_space
  | srcPort fam f hsrc hdst hsport hnul hdport =>
    obtain ⟨⟨port, hport⟩, _⟩ := hg.ports (plain_of_read hsrc hdst (port_plain (.inr hsport) hnul).1)
    exact hsport.not_port hport
  | dstPort fam f hsrc hdst hsport hdport =>
    obtain ⟨_, port, hport⟩ := hg.ports (plain_of_read hsrc hdst hsport.digits)
    exact hdport.not_port hport

theorem findCrlf_line {line : Bytes} (h : ¬[13, 10] <:+: line) (rest : Bytes) :
    findCrlf (line ++ 13 :: 10 :: rest) = some line.length := by
  induction line with
  | nil => rfl
  | cons c line ih =>
    have htail : ¬[13, 10] <:+: line := fun hin => h (hin.trans (suffix_cons c line).isInfix)
    have hih := ih htail
    cases line with
    | nil =>
      rw [cons_append, nil_append, findCrlf, if_neg (fun hc => absurd hc.2 (by decide))]
      rfl
    | cons d line =>
      have hcd : ¬(c = 13 ∧ d = 10) := by
        rintro ⟨rfl, rfl⟩
        exact h (prefix_append [13, 10] line).isInfix
      rw [cons_append, cons_append, findCrlf, if_neg hcd, ← cons_append, hih]
      rfl

theorem proxyDecode_line (pton : InetPton) (hline : ¬[13, 10] <:+: text)
    (hlen : text.length + 8 ≤ v1MaxLen) (rest : Bytes) :
    proxyDecode pton (bytes "PROXY " ++ text ++ [13, 10] ++ rest) = match v1Line pton text with
      | some result => .ok (text.length + 8, result) | none => .error (-EINVAL) := by
  have hlen6 : (bytes "PROXY ").length = 6 := by decide
  have hassoc : bytes "PROXY " ++ text ++ [13, 10] ++ rest = bytes "PROXY " ++
      (text ++ 13 :: 10 :: rest) := by
    simp only [append_assoc, cons_append, nil_append]
  have htake : (bytes "PROXY " ++ (text ++ 13 :: 10 :: rest)).take v1MaxLen =
      bytes "PROXY " ++ (text ++ 13 :: 10 :: rest.take (v1MaxLen - (text.length + 8))) := by
    rw [take_append, take_of_length_le (by rw [hlen6]; decide), take_append,
      take_of_length_le (by omega), hlen6,
      show v1MaxLen - 6 - text.length = v1MaxLen - (text.length + 8) + 1 + 1 by omega, take_succ_cons,
      take_succ_cons]
  have hcut : ((bytes "PROXY " ++ (text ++ 13 :: 10 :: rest)).take (text.length + 6)).drop 6 = text := by
    rw [drop_take, ← hlen6, drop_left, Nat.add_sub_cancel, take_left]
  rw [hassoc, proxyDecode_v1 pton (prefix_append _ _), decodeV1, if_neg (by simp [hlen6]), htake,
    findCrlf_proxy,
    findCrlf_line hline]
  exact congrArg (fun line => match v1Line pton line with
    | some result => (.ok (text.length + 8, result) : Except ℤ (ℕ × ProxyResult))
    | none => .error (-EINVAL)) hcut

/-- **Which lines are taken.** The decoder succeeds on the lines of the grammar and
no others, with the addresses and ports that are written, exactly if the line is
none of the slips: UNKNOWN with something else than a space behind it, an empty
port, a port of which only the last 32 bits are small, or a NUL behind the last
port. -/
theorem decode_grammar_iff (pton : InetPton) (text rest : Bytes) (hline : ¬[13, 10] <:+: text)
    (hlen : text.length + 8 ≤ v1MaxLen) :
    (∀ r, (∃ n, proxyDecode pton (bytes "PROXY " ++ text ++ [13, 10] ++ rest) = .ok (n, r)) ↔
      V1Grammar pton text r) ↔ ¬V1Slip pton text := by
  have htaken : ∀ r, (∃ n, proxyDecode pton (bytes "PROXY " ++ text ++ [13, 10] ++ rest) = .ok (n, r)) ↔
      v1Line pton text = some r := by
    intro r
    rw [proxyDecode_line pton hline hlen]
    cases v1Line pton text with
    | none =>
      constructor
      · rintro ⟨n, h⟩
        cases h
      · intro h
        cases h
    | some result =>
      constructor
      · rintro ⟨n, h⟩
        cases h
        rfl
      · intro h
        cases h
        exact ⟨_, rfl⟩
  simp only [htaken]
  constructor
  · intro h hslip
    obtain ⟨r, hr⟩ := hslip.taken
    exact hslip.not_grammar ((h r).mp hr)
  · intro hslip r
    refine ⟨fun h => ?_, V1Grammar.taken⟩
    obtain hg | hs := grammar_or_slip h
    · exact hg
    · exact absurd hs hslip

/-- An `inet_pton` that knows the address 10.0.0.1. -/
def InetPton.host : InetPton where
  read fam text := if fam = .inet ∧ text = bytes "10.0.0.1" then some [10, 0, 0, 1] else none
  short fam text addr h := by
    by_cases hc : fam = .inet ∧ text = bytes "10.0.0.1"
    · rw [hc.2]
      decide
    · rw [if_neg hc] at h
      cases h
  plain fam text addr h := by
    by_cases hc : fam = .inet ∧ text = bytes "10.0.0.1"
    · have hall : (bytes "10.0.0.1").all (fun c => decide (c ≠ 32 ∧ c ≠ 0)) = true := by decide
      rw [hc.2]
      simpa using hall
    · rw [if_neg hc] at h
      cases h

/-- A port of `2 ^ 32 + 80`, and none at all. -/
theorem decode_slips :
    proxyDecode .host (bytes "PROXY " ++ bytes "TCP4 10.0.0.1 10.0.0.1 4294967376 443" ++
      [13, 10] ++ []) =
      .ok (45, .ofAddrs 1 .inet [10, 0, 0, 1] [10, 0, 0, 1] 80 443) ∧
    (∀ r, ¬V1Grammar .host (bytes "TCP4 10.0.0.1 10.0.0.1 4294967376 443") r) ∧
    proxyDecode .host (bytes "PROXY " ++ bytes "TCP4 10.0.0.1 10.0.0.1  " ++ [13, 10] ++ []) =
      .ok (32, .ofAddrs 1 .inet [10, 0, 0, 1] [10, 0, 0, 1] 0 0) ∧
    (∀ r, ¬V1Grammar .host (bytes "TCP4 10.0.0.1 10.0.0.1  ") r) := by
  have hport : IsPort (bytes "443") 443 := ⟨by decide, by decide, by decide, by decide⟩
  have hbig : PortSlip (bytes "4294967376") 80 :=
    ⟨bytes "4294967376", [], by decide, by decide, by decide, by decide, by decide, by decide⟩
  have hnone : PortSlip [] 0 :=
    ⟨[], [], by decide, by decide, by decide, by decide, by decide, by decide⟩
  have hwrap : V1Slip .host (bytes "TCP4 10.0.0.1 10.0.0.1 4294967376 443") :=
    .srcPort .inet ⟨bytes "10.0.0.1", bytes "10.0.0.1", bytes "4294967376", bytes "443"⟩ (by rfl)
    (by rfl) hbig
      (by decide) (.inl hport)
  have hempty : V1Slip .host (bytes "TCP4 10.0.0.1 10.0.0.1  ") :=
    .srcPort .inet ⟨bytes "10.0.0.1", bytes "10.0.0.1", [], []⟩ (by rfl) (by rfl) hnone (by decide)
    (.inr hnone)
  exact ⟨by decide, fun r => hwrap.not_grammar, by decide, fun r => hempty.not_grammar⟩

theorem decode_grammar_port : ¬V1Slip .host (bytes "TCP4 10.0.0.1 10.0.0.1 80 443") ∧
    ∀ r, (∃ n, proxyDecode .host (bytes "PROXY " ++ bytes "TCP4 10.0.0.1 10.0.0.1 80 443" ++
      [13, 10] ++ []) =
      .ok (n, r)) ↔ V1Grammar .host (bytes "TCP4 10.0.0.1 10.0.0.1 80 443") r := by
  have hline : V1Grammar .host (bytes "TCP4 10.0.0.1 10.0.0.1 80 443")
      (.ofAddrs 1 .inet [10, 0, 0, 1] [10, 0, 0, 1] 80 443) :=
    .tcp .inet ⟨bytes "10.0.0.1", bytes "10.0.0.1", bytes "80", bytes "443"⟩ (by rfl) (by rfl)
      ⟨by decide, by decide, by decide, by decide⟩ ⟨by decide, by decide, by decide, by decide⟩
  have hclean : ¬V1Slip .host (bytes "TCP4 10.0.0.1 10.0.0.1 80 443") :=
    fun hslip => hslip.not_grammar hline
  exact ⟨hclean,
    (decode_grammar_iff .host (bytes "TCP4 10.0.0.1 10.0.0.1 80 443") [] (by decide)
      (by decide)).mpr hclean⟩

end Iohttp
