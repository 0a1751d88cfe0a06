/-
# The request parser

`src/http/picohttpparser.c`, as far as it parses requests. A pointer that the
parser returns is an offset into its buffer; together with the bytes it spans
it is a `Slice`. `-1` is `error` and `-2` is `incomplete`. The vector code of
`findchar_fast` only skips bytes the loops after it would skip, so the loops
are all there is here.

The parser is stable and keeps track of its position: an answer does not
change when bytes are appended, and a proper prefix of a message head is
incomplete.
-/
import Mathlib.Data.List.DropRight
import Iohttp.Bytes
import Iohttp.Lib.Incremental

namespace Iohttp
namespace Pico

open Incremental

/-- A pointer into the buffer and the bytes it spans. -/
structure Slice where
  off : ℕ
  bytes : Bytes
  deriving DecidableEq, Repr

/-- `struct phr_header`. The name of a continuation line is null. -/
structure PhrHeader where
  name : Option Slice
  value : Slice
  deriving DecidableEq, Repr

/-- What `phr_parse_request` returns through its pointers. -/
structure PhrRequest where
  method : Slice
  path : Slice
  minorVersion : ℕ
  headers : List PhrHeader
  deriving DecidableEq, Repr

abbrev cr : UInt8 := 13
abbrev lf : UInt8 := 10
abbrev sp : UInt8 := 32
abbrev ht : UInt8 := 9

/-- `token_char_map`. -/
def tokenChar (c : UInt8) : Bool :=
  (48 ≤ c && c ≤ 57) || (65 ≤ c && c ≤ 90) || (94 ≤ c && c ≤ 122) ||
    c == 33 || (35 ≤ c && c ≤ 39) || c == 42 || c == 43 || c == 45 || c == 46 || c == 124 || c == 126

/-- A control character other than a tab. -/
def isCtl (c : UInt8) : Bool := (c < 32 && c != ht) || c == 127

def isBlank (c : UInt8) : Bool := c == sp || c == ht

/-! ### The parser -/

/-- `EXPECT_CHAR`. -/
def expectChar (ch : UInt8) : Parser UInt8 Unit := do
  let c ← Parser.next
  if c = ch then pure () else Parser.fail

def expectChars : Bytes → Parser UInt8 Unit
  | [] => pure ()
  | c :: cs => do
    expectChar c
    expectChars cs

/-- A token and where it starts. -/
def sliceOf (p : Parser UInt8 Bytes) : Parser UInt8 Slice := do
  let off ← Parser.pos
  let tok ← p
  pure ⟨off, tok⟩

/-- `parse_token`: up to `nextChar`, which stays. -/
def parseToken (nextChar : UInt8) : Parser UInt8 Slice :=
  sliceOf (Parser.span (· == nextChar) fun c => !tokenChar c)

/-- `ADVANCE_TOKEN`: up to a space, which stays. -/
def advanceToken : Parser UInt8 Slice :=
  sliceOf (Parser.span (· == sp) fun c => c < 32 || c == 127)

/-- `do { ++buf; CHECK_EOF(); } while (*buf == ' ')`. -/
def skipSpaces : Parser UInt8 Unit := do
  let _ ← Parser.next
  let _ ← Parser.span (· != sp) fun _ => false
  pure ()

/-- A line end, either `CR LF` or `LF`. -/
def lineEnd : Parser UInt8 Unit := do
  let c ← Parser.next
  if c = cr then expectChar lf
  else if c = lf then pure ()
  else Parser.fail

/-- `get_token_to_eol`. -/
def getTokenToEol : Parser UInt8 Slice := do
  let tok ← sliceOf (Parser.span isCtl fun _ => false)
  lineEnd
  pure tok

/-- `parse_http_version`. -/
def parseHttpVersion : Parser UInt8 ℕ := do
  Parser.need 9
  expectChars (bytes "HTTP/1.")
  let c ← Parser.next
  if c < 48 ∨ 57 < c then Parser.fail else pure (c - 48).toNat

def headerName : Parser UInt8 Slice := do
  let name ← parseToken colon
  if name.bytes = [] then Parser.fail
  else
    let _ ← Parser.next
    let _ ← Parser.span (fun c => !isBlank c) fun _ => false
    pure name

/-- A line that starts with a blank continues the header before it, unless it
is the first. -/
def optionalName (first : Bool) : Parser UInt8 (Option Slice) := do
  let c ← Parser.peek
  if !first && isBlank c then pure none
  else
    let name ← headerName
    pure (some name)

/-- One round of the loop of `parse_headers`. -/
def parseHeader (first : Bool) : Parser UInt8 PhrHeader := do
  let name ← optionalName first
  let value ← getTokenToEol
  -- trailing blanks are not part of the value
  pure ⟨name, value.off, value.bytes.rdropWhile isBlank⟩

/-- `parse_headers`, with room for `room` more headers. -/
def parseHeaders : ℕ → Bool → Parser UInt8 (List PhrHeader)
  | room, first => do
    let c ← Parser.peek
    if c = cr ∨ c = lf then
      lineEnd
      pure []
    else
      match room with
      | 0 => Parser.fail
      | room + 1 =>
        let h ← parseHeader first
        let hs ← parseHeaders room false
        pure (h :: hs)

/-- The empty line some clients send after a body. -/
def skipEmptyLine : Parser UInt8 Unit := do
  let c ← Parser.peek
  if c = cr ∨ c = lf then lineEnd else pure ()

/-- `parse_request`. -/
def parseRequest (maxHeaders : ℕ) : Parser UInt8 PhrRequest := do
  skipEmptyLine
  let method ← parseToken sp
  skipSpaces
  let path ← advanceToken
  skipSpaces
  if method.bytes = [] ∨ path.bytes = [] then Parser.fail
  else
    let minorVersion ← parseHttpVersion
    lineEnd
    let headers ← parseHeaders maxHeaders true
    pure ⟨method, path, minorVersion, headers⟩

/-- `phr_parse_request` on the whole buffer (`last_len` is 0): the request and
the length of its head. -/
def phrParseRequest (buf : Bytes) (maxHeaders : ℕ) : Res (PhrRequest × ℕ) :=
  match parseRequest maxHeaders buf 0 with
  | .ok (r, _, n) => .ok (r, n)
  | .error => .error
  | .incomplete => .incomplete

/-! ### Stability and positions -/

theorem expectChar_stable (ch : UInt8) : Stable (expectChar ch) :=
  .bind .next fun _ => .ite (.pure _) .fail

theorem expectChar_tracks (ch : UInt8) : Tracks (expectChar ch) :=
  .bind .next fun _ => .ite (.pure _) .fail

theorem expectChars_stable : ∀ cs : Bytes, Stable (expectChars cs)
  | [] => .pure _
  | c :: cs => .bind (expectChar_stable c) fun _ => expectChars_stable cs

theorem expectChars_tracks : ∀ cs : Bytes, Tracks (expectChars cs)
  | [] => .pure _
  | c :: cs => .bind (expectChar_tracks c) fun _ => expectChars_tracks cs

variable {p : Parser UInt8 Bytes} {buf : Bytes} {maxHeaders n : ℕ} {r : PhrRequest}

theorem sliceOf_stable (hp : Stable p) : Stable (sliceOf p) :=
  .bind .pos fun _ => .bind hp fun _ => .pure _

theorem sliceOf_tracks (hp : Tracks p) : Tracks (sliceOf p) :=
  .bind .pos fun _ => .bind hp fun _ => .pure _

theorem skipSpaces_stable : Stable skipSpaces :=
  .bind .next fun _ => .bind (.span _ _) fun _ => .pure _

theorem skipSpaces_tracks : Tracks skipSpaces :=
  .bind .next fun _ => .bind (.span _ _) fun _ => .pure _

theorem lineEnd_stable : Stable lineEnd :=
  .bind .next fun _ => .ite (expectChar_stable lf) (.ite (.pure _) .fail)

theorem lineEnd_tracks : Tracks lineEnd :=
  .bind .next fun _ => .ite (expectChar_tracks lf) (.ite (.pure _) .fail)

theorem getTokenToEol_stable : Stable getTokenToEol :=
  .bind (sliceOf_stable (.span _ _)) fun _ => .bind lineEnd_stable fun _ => .pure _

theorem getTokenToEol_tracks : Tracks getTokenToEol :=
  .bind (sliceOf_tracks (.span _ _)) fun _ => .bind lineEnd_tracks fun _ => .pure _

theorem parseHttpVersion_stable : Stable parseHttpVersion :=
  .bind (.need 9) fun _ => .bind (expectChars_stable _) fun _ => .bind .next fun _ =>
  .ite .fail (.pure _)

theorem parseHttpVersion_tracks : Tracks parseHttpVersion :=
  .bind (.need 9) fun _ => .bind (expectChars_tracks _) fun _ => .bind .next fun _ =>
  .ite .fail (.pure _)

theorem headerName_stable : Stable headerName :=
  .bind (sliceOf_stable (.span _ _)) fun _ =>
    .ite .fail (.bind .next fun _ => .bind (.span _ _) fun _ => .pure _)

theorem headerName_tracks : Tracks headerName :=
  .bind (sliceOf_tracks (.span _ _)) fun _ =>
    .ite .fail (.bind .next fun _ => .bind (.span _ _) fun _ => .pure _)

theorem parseHeader_stable (first : Bool) : Stable (parseHeader first) :=
  .bind (.bind .peek fun _ => .ite (.pure _) (.bind headerName_stable fun _ => .pure _)) fun _ =>
    .bind getTokenToEol_stable fun _ => .pure _

theorem parseHeader_tracks (first : Bool) : Tracks (parseHeader first) :=
  .bind (.bind .peek fun _ => .ite (.pure _) (.bind headerName_tracks fun _ => .pure _)) fun _ =>
    .bind getTokenToEol_tracks fun _ => .pure _

theorem parseHeaders_stable : ∀ (room : ℕ) (first : Bool), Stable (parseHeaders room first)
  | 0, _ => .bind .peek fun _ => .ite (.bind lineEnd_stable fun _ => .pure _) .fail
  | room + 1, first => .bind .peek fun _ => .ite (.bind lineEnd_stable fun _ => .pure _)
      (.bind (parseHeader_stable first) fun _ => .bind (parseHeaders_stable room false) fun _ => .pure _)

theorem parseHeaders_tracks : ∀ (room : ℕ) (first : Bool), Tracks (parseHeaders room first)
  | 0, _ => .bind .peek fun _ => .ite (.bind lineEnd_tracks fun _ => .pure _) .fail
  | room + 1, first => .bind .peek fun _ => .ite (.bind lineEnd_tracks fun _ => .pure _)
      (.bind (parseHeader_tracks first) fun _ => .bind (parseHeaders_tracks room false) fun _ => .pure _)

theorem parseRequest_stable (maxHeaders : ℕ) : Stable (parseRequest maxHeaders) :=
  .bind (.bind .peek fun _ => .ite lineEnd_stable (.pure _)) fun _ =>
    .bind (sliceOf_stable (.span _ _)) fun _ => .bind skipSpaces_stable fun _ =>
      .bind (sliceOf_stable (.span _ _)) fun _ => .bind skipSpaces_stable fun _ =>
        .ite .fail (.bind parseHttpVersion_stable fun _ => .bind lineEnd_stable fun _ =>
          .bind (parseHeaders_stable maxHeaders true) fun _ => .pure _)

theorem parseRequest_tracks (maxHeaders : ℕ) : Tracks (parseRequest maxHeaders) :=
  .bind (.bind .peek fun _ => .ite lineEnd_tracks (.pure _)) fun _ =>
    .bind (sliceOf_tracks (.span _ _)) fun _ => .bind skipSpaces_tracks fun _ =>
      .bind (sliceOf_tracks (.span _ _)) fun _ => .bind skipSpaces_tracks fun _ =>
        .ite .fail (.bind parseHttpVersion_tracks fun _ => .bind lineEnd_tracks fun _ =>
          .bind (parseHeaders_tracks maxHeaders true) fun _ => .pure _)

theorem phrParseRequest_le (h : phrParseRequest buf maxHeaders = .ok (r, n)) : n ≤ buf.length := by
  unfold phrParseRequest at h
  rcases hr : parseRequest maxHeaders buf 0 with ⟨r', rest, m⟩ | _ | _
  · simp only [hr, Res.ok.injEq, Prod.mk.injEq] at h
    obtain ⟨u, hu, hm⟩ := parseRequest_tracks maxHeaders buf 0 r' rest m hr
    rw [← h.2, hm, hu, List.length_append]
    omega
  · simp [hr] at h
  · simp [hr] at h

/-- **A proper prefix of a head is incomplete.** -/
theorem phrParseRequest_short (h : phrParseRequest buf maxHeaders = .ok (r, n)) {u : Bytes}
    (hu : u <+: buf) (hlt : u.length < n) : phrParseRequest u maxHeaders = .incomplete := by
  unfold phrParseRequest at h ⊢
  rcases hr : parseRequest maxHeaders buf 0 with ⟨r', rest, m⟩ | _ | _
  · simp only [hr, Res.ok.injEq, Prod.mk.injEq] at h
    rw [(parseRequest_stable maxHeaders).incomplete_of_short (parseRequest_tracks maxHeaders) hr hu
      (by omega)]
  · simp [hr] at h
  · simp [hr] at h

end Pico
end Iohttp
