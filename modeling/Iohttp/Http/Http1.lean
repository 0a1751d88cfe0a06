/-
# Parsing a request

`ioh_http1_parse_request` of `src/http/ioh_http1.c`: the checks against
request smuggling on top of the parser, and the fields of the request.
-/
import Iohttp.Http.Request

namespace Iohttp

variable {buf : Bytes}

open Pico
open Incremental (Res)

/-- `IOH_HTTP1_MAX_HEADERS`. -/
abbrev http1MaxHeaders : ℕ := 64

/-- `IOH_HTTP1_MAX_URI_SIZE`. -/
abbrev http1MaxUriSize : ℕ := 4096

/-- `is_valid_content_length`. -/
def isValidContentLength (value : Bytes) : Bool := value != [] && value.all fun c => 48 ≤ c && c ≤ 57

/-- `parse_content_length`, in a 64-bit `size_t`. -/
def parseContentLength (value : Bytes) : ℕ :=
  value.foldl (fun result c => (result * 10 + (c - 48).toNat) % 2 ^ 64) 0

/-- What follows the first `chunked` in a value. -/
def afterChunked : Bytes → Option Bytes
  | [] => none
  | c :: cs =>
    if eqIgnoreCase ((c :: cs).take 7) (bytes "chunked") then some ((c :: cs).drop 7)
    else afterChunked cs

/-- `chunked` is the last encoding, if it occurs. -/
def chunkedLast (value : Bytes) : Bool :=
  match afterChunked value with
  | none => true
  | some after => after.all isBlank

/-- What the scan over the headers has seen. -/
structure Scan where
  hasContentLength : Bool
  hasTransferEncoding : Bool
  hasHost : Bool
  contentLength : ℕ
  deriving DecidableEq, Repr

/-- One round of the scan; `none` is `-EINVAL`. -/
def scanHeader (s : Scan) (h : Header) : Option Scan :=
  if eqIgnoreCase h.name.bytes (bytes "Content-Length") then
    if s.hasContentLength ∨ !isValidContentLength h.value.bytes then none
    else some { s with hasContentLength := true, contentLength := parseContentLength h.value.bytes }
  else if eqIgnoreCase h.name.bytes (bytes "Transfer-Encoding") then
    if chunkedLast h.value.bytes then some { s with hasTransferEncoding := true } else none
  else if eqIgnoreCase h.name.bytes (bytes "Host") then some { s with hasHost := true }
  else some s

/-- The headers with their names; a continuation line has none and is refused. -/
def namedHeaders : List PhrHeader → Option (List Header)
  | [] => some []
  | ⟨none, _⟩ :: _ => none
  | ⟨some name, value⟩ :: hs => (namedHeaders hs).map (⟨name, value⟩ :: ·)

/-- The `Connection` header overrides the default of the version. -/
def connectionHeader (keepAlive : Bool) (h : Header) : Bool :=
  if eqIgnoreCase h.name.bytes (bytes "Connection") then
    if eqIgnoreCase h.value.bytes (bytes "close") then false
    else if eqIgnoreCase h.value.bytes (bytes "keep-alive") then true
    else keepAlive
  else keepAlive

def lastHeader (name : Bytes) (hs : List Header) : Option ℕ :=
  (findHeader name hs.reverse).map (·.value.off)

/-- The path before the first `?`, and the query behind it. -/
def splitQuery (path : Slice) : Slice × Option Slice :=
  let p := path.bytes.takeWhile (· ≠ 63)
  if p.length = path.bytes.length then (path, none)
  else (⟨path.off, p⟩, some ⟨path.off + p.length + 1, path.bytes.drop (p.length + 1)⟩)

/-- The request of a parsed head. -/
def requestOf (r : PhrRequest) (hs : List Header) (s : Scan) : Request where
  method := methodParse r.method.bytes
  path := (splitQuery r.path).1
  query := (splitQuery r.path).2
  headers := hs
  body := []
  params := []
  httpVersionMajor := 1
  httpVersionMinor := r.minorVersion
  keepAlive := hs.foldl connectionHeader (r.minorVersion ≥ 1)
  contentLength := s.contentLength
  contentType := lastHeader (bytes "Content-Type") hs
  host := lastHeader (bytes "Host") hs

/-- The checks of `ioh_http1_parse_request` on a head that the parser took. -/
def http1Check (r : PhrRequest) : Except ℤ Request :=
  if r.path.bytes.length > http1MaxUriSize then .error (-E2BIG)
  else if r.headers.length > http1MaxHeaders then .error (-E2BIG)
  else
    match namedHeaders r.headers with
    | none => .error (-EINVAL)
    | some hs =>
      match hs.foldlM scanHeader ⟨false, false, false, 0⟩ with
      | none => .error (-EINVAL)
      | some s =>
        if s.hasContentLength ∧ s.hasTransferEncoding then .error (-EINVAL)
        else if r.minorVersion ≥ 1 ∧ !s.hasHost then .error (-EINVAL)
        else .ok (requestOf r hs s)

/-- `ioh_http1_parse_request`: the request and the length of its head. -/
def http1ParseRequest (buf : Bytes) : Except ℤ (Request × ℕ) :=
  if buf = [] then .error (-EAGAIN)
  else
    match phrParseRequest buf http1MaxHeaders with
    | .incomplete => .error (-EAGAIN)
    | .error => .error (-EINVAL)
    | .ok (r, n) => (http1Check r).map fun req => (req, n)

theorem http1Check_ne_eagain (r : PhrRequest) : http1Check r ≠ .error (-EAGAIN) := by
  unfold http1Check
  split_ifs
  · simp [E2BIG, EAGAIN]
  · simp [E2BIG, EAGAIN]
  · split
    · simp [EINVAL, EAGAIN]
    · split
      · simp [EINVAL, EAGAIN]
      · split_ifs <;> simp [EINVAL, EAGAIN]

theorem http1ParseRequest_eagain : http1ParseRequest buf = .error (-EAGAIN) ↔
      buf = [] ∨ phrParseRequest buf http1MaxHeaders = .incomplete := by
  unfold http1ParseRequest
  split_ifs with h
  · simp [h]
  · rcases hr : phrParseRequest buf http1MaxHeaders with ⟨r, n⟩ | _ | _
    · have := http1Check_ne_eagain r
      rcases hc : http1Check r with e | req
      · simp [h, hc, Except.map] at this ⊢
        exact this
      · simp [h, hc, Except.map]
    · simp [h, EINVAL, EAGAIN]
    · simp

variable {req : Request} {n : ℕ}

theorem http1ParseRequest_ok : http1ParseRequest buf = .ok (req, n) ↔
      buf ≠ [] ∧ ∃ r, phrParseRequest buf http1MaxHeaders = .ok (r, n) ∧ http1Check r = .ok req := by
  unfold http1ParseRequest
  split_ifs with h
  · simp [h]
  · rcases hr : phrParseRequest buf http1MaxHeaders with ⟨r, m⟩ | _ | _
    · rcases hc : http1Check r with e | req'
      · simp [h, hc, Except.map]
      · simp only [hc, Except.map, Except.ok.injEq, Prod.mk.injEq, ne_eq, h, not_false_eq_true,
          Res.ok.injEq, true_and]
        constructor
        · rintro ⟨rfl, rfl⟩
          exact ⟨r, ⟨rfl, rfl⟩, hc⟩
        · rintro ⟨r', ⟨rfl, rfl⟩, hc'⟩
          rw [hc] at hc'
          exact ⟨Except.ok.inj hc', rfl⟩
    · simp
    · simp

/-- **A proper prefix of a head is incomplete.** -/
theorem http1ParseRequest_short (h : http1ParseRequest buf = .ok (req, n)) {u : Bytes}
    (hu : u <+: buf) (hlt : u.length < n) : http1ParseRequest u = .error (-EAGAIN) := by
  obtain ⟨_, r, hr, _⟩ := http1ParseRequest_ok.mp h
  exact http1ParseRequest_eagain.mpr (.inr (phrParseRequest_short hr hu hlt))

theorem http1ParseRequest_le (h : http1ParseRequest buf = .ok (req, n)) : n ≤ buf.length := by
  obtain ⟨_, r, hr, _⟩ := http1ParseRequest_ok.mp h
  exact phrParseRequest_le hr

end Iohttp
