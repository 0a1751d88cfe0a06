/-
# Requests

`src/http/ioh_request.c`: the request and what the handlers read from it. The
parser leaves pointers into the receive buffer in a request, so its accessors
take the memory from the start of the buffer on as well. A header's value is
not terminated there, and `ioh_request_header` returns only the pointer.
-/
import Iohttp.Http.Pico
import Iohttp.Router.Radix

namespace Iohttp

open Pico (Slice)

/-- `ioh_method_t`. -/
inductive Method where
  | get
  | post
  | put
  | delete
  | patch
  | head
  | options
  | trace
  | connect
  | unknown
  deriving DecidableEq, Repr

/-- `ioh_method_parse`. -/
def methodParse (m : Bytes) : Method :=
  if m = bytes "GET" then .get
  else if m = bytes "PUT" then .put
  else if m = bytes "POST" then .post
  else if m = bytes "HEAD" then .head
  else if m = bytes "PATCH" then .patch
  else if m = bytes "TRACE" then .trace
  else if m = bytes "DELETE" then .delete
  else if m = bytes "OPTIONS" then .options
  else if m = bytes "CONNECT" then .connect
  else .unknown

/-- `ioh_header_t` of a request. -/
structure Header where
  name : Slice
  value : Slice
  deriving DecidableEq, Repr

/-- `ioh_request_t`. `content_type` and `host` are bare pointers. -/
structure Request where
  method : Method
  path : Slice
  query : Option Slice
  headers : List Header
  body : Bytes
  params : List Radix.Param
  httpVersionMajor : ℕ
  httpVersionMinor : ℕ
  keepAlive : Bool
  contentLength : ℕ
  contentType : Option ℕ
  host : Option ℕ
  deriving DecidableEq, Repr

/-- `IOH_MAX_HEADER_SIZE`. -/
abbrev maxHeaderSize : ℕ := 8192

/-- The header that `ioh_request_header` finds. -/
def findHeader (name : Bytes) (headers : List Header) : Option Header :=
  headers.find? fun h => eqIgnoreCase h.name.bytes name

/-- `ioh_request_header`: the pointer to the value. -/
def requestHeader (mem : Bytes) (req : Request) (name : Bytes) : Option Bytes :=
  (findHeader name req.headers).map fun h => mem.drop h.value.off

/-- The loop of `ioh_request_cookie` from a pointer that is `k` bytes past the
start of the value: where the cookie's text starts. At the start of an item
it skips spaces and compares, in its middle it looks for the semicolon. -/
def cookieLoop (name : Bytes) : Bool → ℕ → Bytes → Option ℕ
  | _, _, [] => none
  | start, k, c :: cs =>
    if c = 0 then none
    else if start ∧ c = 32 then cookieLoop name true (k + 1) cs
    else if start ∧ (name ++ [61]).isPrefixOf (c :: cs) then some (k + name.length + 1)
    else cookieLoop name (c = 59) (k + 1) cs

/-- `ioh_request_cookie`: how far behind the start of the header's value the
text of the cookie starts. -/
def requestCookie (mem : Bytes) (req : Request) (name : Bytes) : Option ℕ :=
  (requestHeader mem req (bytes "Cookie")).bind fun p => cookieLoop (strn maxHeaderSize name) true 0 p

/-- The media ranges of an `Accept` value as its loop sees them: separated by
commas, and none after a last comma. -/
def acceptItems (s : Bytes) : List Bytes :=
  let items := s.splitOn 44
  if items.getLast? = some [] then items.dropLast else items

/-- An item without its parameters and the spaces around it. -/
def mediaType (item : Bytes) : Bytes :=
  ((item.dropWhile (· == 32)).takeWhile (· ≠ 59)).rdropWhile (· == 32)

/-- One round of the loop of `ioh_request_accepts`. -/
def acceptItem (types : List Bytes) (item : Bytes) : Option Bytes :=
  let m := mediaType item
  if m = bytes "*/*" then types.head?
  else
    let wild :=
      if m.length > 2 ∧ m.drop (m.length - 2) = bytes "/*" then
        types.find? fun t => eqIgnoreCase (strn (m.length - 1) t) m.dropLast
      else none
    wild.or (types.find? fun t => eqIgnoreCase (strn maxHeaderSize t) m)

/-- The loop of `ioh_request_accepts`: the first item that is offered. -/
def acceptsIn (types : List Bytes) (s : Bytes) : Option Bytes :=
  (acceptItems s).findSome? (acceptItem types)

/-- `ioh_request_accepts`. -/
def requestAccepts (mem : Bytes) (req : Request) (types : List Bytes) : Option Bytes :=
  if types = [] then none
  else (requestHeader mem req (bytes "Accept")).bind fun p => acceptsIn types (strn maxHeaderSize p)

end Iohttp
