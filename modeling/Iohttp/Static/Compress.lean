/-
# Compression

`src/static/ioh_compress.c`: which encoding the `Accept-Encoding` header asks
for, and the response whose body is replaced by its compressed form. The
encoders are parameters, and so is `strtod`, which reads the weights.

The body is replaced after `Content-Length` may have been set: that header is
left as it is.
-/
import Iohttp.Http.Cookie

namespace Iohttp

/-- A value of type `double`. -/
inductive Double where
  | nan
  | infinite (negative : Bool)
  | finite (q : ℚ)
  deriving DecidableEq

/-- `<` on doubles. -/
def Double.lt : Double → Double → Bool
  | .nan, _ | _, .nan => false
  | .infinite a, .infinite b => a && !b
  | .infinite a, .finite _ => a
  | .finite _, .infinite b => !b
  | .finite p, .finite q => p < q

/-- `<=` on doubles. -/
def Double.le : Double → Double → Bool
  | .nan, _ | _, .nan => false
  | .infinite a, .infinite b => a || !b
  | .infinite a, .finite _ => a
  | .finite _, .infinite b => !b
  | .finite p, .finite q => p ≤ q

/-- `ioh_encoding_t`. -/
inductive Encoding where
  | none
  | gzip
  | brotli
  deriving DecidableEq, Repr

/-- `ioh_compress_config_t`, as far as it is read. -/
structure CompressConfig where
  enableGzip : Bool
  enableBrotli : Bool
  minSize : ℕ
  gzipLevel : ℤ
  brotliQuality : ℤ
  deriving DecidableEq, Repr

/-- `ioh_compress_config_init`. -/
def compressConfigInit : CompressConfig := ⟨true, true, 1024, 6, 4⟩

/-- `strtod`, and `compress_gzip` and `compress_brotli` where they are compiled in. -/
structure Encoders where
  strtod : Bytes → Double
  gzip : Option (Bytes → ℤ → Except ℤ Bytes)
  brotli : Option (Bytes → ℤ → Except ℤ Bytes)

/-! ### Negotiation -/

def isSpaceOrTab (c : UInt8) : Bool := c = 32 || c = 9

/-- The weight behind a coding, and what is behind it. Only a parameter `q` right
behind the semicolon counts. -/
def parseWeight (strtod : Bytes → Double) (s : Bytes) : Double × Bytes :=
  match s.dropWhile isSpaceOrTab with
  | 59 :: s =>
    let s := s.dropWhile isSpaceOrTab
    if (s.head? = some 113 ∨ s.head? = some 81) ∧ (s.drop 1).head? = some 61 then
      -- at most 15 bytes fit in the buffer
      let text := ((s.drop 2).take 15).takeWhile fun c => c ≠ 44 ∧ c ≠ 32
      (strtod text, s.drop (2 + text.length))
    else (.finite 1, s)
  | s => (.finite 1, s)

/-- `parse_encoding_token`: the coding, its weight and what is behind it. -/
def parseEncodingToken (strtod : Bytes → Double) (s : Bytes) : Option (Bytes × Double × Bytes) :=
  let s := s.dropWhile fun c => isSpaceOrTab c || c = 44
  let token := s.takeWhile fun c => !(isSpaceOrTab c || c = 44 || c = 59)
  let r := parseWeight strtod (s.drop token.length)
  if token = [] then none else some (token, r.1, r.2.dropWhile (· ≠ 44))

/-- The weights that were found; -1 is for none. -/
structure Weights where
  gzip : Double
  br : Double
  star : Double

/-- One round of the loop of `ioh_compress_negotiate`. -/
def Weights.note (w : Weights) (token : Bytes) (q : Double) : Weights :=
  if eqIgnoreCase token (bytes "gzip") then { w with gzip := q }
  else if eqIgnoreCase token (bytes "br") then { w with br := q }
  else if token = [42] then { w with star := q }
  else w

/-- The loop, for at most `fuel` codings. -/
def negotiateLoop (strtod : Bytes → Double) : ℕ → Bytes → Weights → Weights
  | 0, _, w => w
  | fuel + 1, s, w =>
    match parseEncodingToken strtod s with
    | some (token, q, rest) => negotiateLoop strtod fuel rest (w.note token q)
    | none => w

/-- The weight of a coding that is named, or of the star; one of zero counts as none. -/
def finalWeight (w star : Double) : Double :=
  let w := if Double.le (.finite 0) star ∧ Double.lt w (.finite 0) then star else w
  if w = .finite 0 then .finite (-1) else w

/-- `ioh_compress_negotiate`. -/
def compressNegotiate (strtod : Bytes → Double) (accept : Option Bytes) : Encoding :=
  match accept.map stringAt with
  | none | some [] => .none
  | some s =>
    -- a round of the loop takes at least one byte
    let w := negotiateLoop strtod s.length s ⟨.finite (-1), .finite (-1), .finite (-1)⟩
    let gzip := finalWeight w.gzip w.star
    let br := finalWeight w.br w.star
    if Double.lt (.finite 0) br ∧ Double.le gzip br then .brotli
    else if Double.lt (.finite 0) gzip then .gzip
    else .none

def compressBody (resp : Response) (name : Bytes) (encoder : Option (Bytes → ℤ → Except ℤ Bytes))
    (level : ℤ) :
    Response × ℤ :=
  match encoder with
  | none => (resp, 0)
  | some encode =>
    match encode resp.body level with
    | .error e => (resp, e)
    | .ok out => (responseSetBody (responseSetHeader resp (bytes "Content-Encoding") name) out, 0)

/-- `ioh_compress_response`. -/
def compressResponse (lib : Encoders) (cfg : CompressConfig) (mem : Bytes) (req : Request)
    (resp : Response) :
    Response × ℤ :=
  let enc := compressNegotiate lib.strtod (requestHeader mem req (bytes "Accept-Encoding"))
  let resp := (responseAddVary resp (bytes "Accept-Encoding")).1
  if resp.body.length < cfg.minSize then (resp, 0)
  else
    match enc with
    | .none => (resp, 0)
    | .gzip =>
      if cfg.enableGzip then compressBody resp (bytes "gzip") lib.gzip cfg.gzipLevel else (resp, 0)
    | .brotli =>
      if cfg.enableBrotli then compressBody resp (bytes "br") lib.brotli cfg.brotliQuality
      else (resp, 0)

end Iohttp
