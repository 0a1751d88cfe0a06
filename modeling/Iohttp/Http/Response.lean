/-
# Responses

`src/http/ioh_response.c` and `ioh_http1_serialize_response` of
`src/http/ioh_http1.c`: the response a handler builds, and the bytes it
becomes. Allocation succeeds here. No code sets `chunked`.
-/
import Iohttp.Http.Request

namespace Iohttp

open List

/-- `ioh_header_t` of a response, which owns its strings. -/
structure RespHeader where
  name : Bytes
  value : Bytes
  deriving DecidableEq, Repr

/-- `ioh_response_t`. -/
structure Response where
  status : ℕ
  headers : List RespHeader
  body : Bytes
  chunked : Bool
  deriving DecidableEq, Repr

/-- `ioh_response_init`. -/
def responseInit : Response := ⟨200, [], [], false⟩

def replaceHeader (name value : Bytes) : List RespHeader → Option (List RespHeader)
  | [] => none
  | h :: hs =>
    if eqIgnoreCase h.name name then some (⟨h.name, value⟩ :: hs)
    else (replaceHeader name value hs).map (h :: ·)

/-- `ioh_response_add_header`. -/
def responseAddHeader (resp : Response) (name value : Bytes) : Response :=
  { resp with headers := resp.headers ++ [⟨strn maxHeaderSize name, strn maxHeaderSize value⟩] }

/-- `ioh_response_set_header`. -/
def responseSetHeader (resp : Response) (name value : Bytes) : Response :=
  match replaceHeader (strn maxHeaderSize name) (strn maxHeaderSize value) resp.headers with
  | some hs => { resp with headers := hs }
  | none => responseAddHeader resp name value

/-- `vary_token_exists`: the tokens of a value are separated by spaces, tabs and
commas. -/
def varyTokenExists (value token : Bytes) : Bool :=
  (value.splitOnP fun c => c = 32 ∨ c = 44 ∨ c = 9).any fun t => t ≠ [] ∧ eqIgnoreCase t token

/-- The first `Vary` header gets the token, if there is one. -/
def appendVary (token : Bytes) : List RespHeader → Option (List RespHeader)
  | [] => none
  | h :: hs =>
    if eqIgnoreCase h.name (bytes "Vary") then
      some ((if varyTokenExists h.value token then h else ⟨h.name, h.value ++ bytes ", " ++
        token⟩) :: hs)
    else (appendVary token hs).map (h :: ·)

/-- `ioh_response_add_vary`. -/
def responseAddVary (resp : Response) (token : Bytes) : Response × ℤ :=
  let token := strn maxHeaderSize token
  if token = [] then (resp, -EINVAL)
  else
    match appendVary token resp.headers with
    | some hs => ({ resp with headers := hs }, 0)
    | none => (responseSetHeader resp (bytes "Vary") token, 0)

/-- The headers of a name, in any case of the letters. -/
def headersNamed (name : Bytes) (headers : List RespHeader) : List RespHeader :=
  headers.filter fun h => eqIgnoreCase h.name name

theorem eqIgnoreCase_trans {a b c : Bytes} (h : eqIgnoreCase a b = true) :
    eqIgnoreCase a c = eqIgnoreCase b c := by
  simp only [eqIgnoreCase, beq_iff_eq] at h ⊢
  rw [h]

section

variable {resp : Response} {name value other token : Bytes} {hs hs' : List RespHeader}

/-- The first header of a name has another value. -/
def Revalued (name : Bytes) (hs hs' : List RespHeader) : Prop :=
  ∃ front h rest value, hs = front ++ h :: rest ∧ hs' = front ++ ⟨h.name, value⟩ :: rest ∧
    eqIgnoreCase h.name name = true

theorem Revalued.cons (h : Revalued name hs hs') (hd : RespHeader) :
    Revalued name (hd :: hs) (hd :: hs') := by
  obtain ⟨front, h, rest, value, rfl, rfl, hn⟩ := h
  exact ⟨hd :: front, h, rest, value, rfl, rfl, hn⟩

theorem Revalued.headersNamed (ho : eqIgnoreCase name other = false) (h : Revalued name hs hs') :
    headersNamed other hs' = headersNamed other hs := by
  obtain ⟨front, h, rest, value, rfl, rfl, hn⟩ := h
  have hh : eqIgnoreCase h.name other = false := (eqIgnoreCase_trans hn).trans ho
  simp [Iohttp.headersNamed, hh]

theorem revalued_replaceHeader : ∀ {hs hs' : List RespHeader},
    replaceHeader name value hs = some hs' → Revalued name hs hs'
  | [], _, h => by cases h
  | h :: hs, hs', hr => by
    rw [replaceHeader] at hr
    split_ifs at hr with hn
    · cases hr
      exact ⟨[], h, hs, value, rfl, rfl, hn⟩
    · obtain ⟨hs'', hr', rfl⟩ := Option.map_eq_some_iff.mp hr
      exact (revalued_replaceHeader hr').cons h

theorem headersNamed_replaceHeader (name value : Bytes) : ∀ hs : List RespHeader,
    match replaceHeader name value hs with
    | some hs' =>
    ∃ h rest, headersNamed name hs = h :: rest ∧ headersNamed name hs' = ⟨h.name, value⟩ :: rest
    | none => headersNamed name hs = []
  | [] => rfl
  | h :: hs => by
    have ih := headersNamed_replaceHeader name value hs
    rw [replaceHeader]
    by_cases hn : eqIgnoreCase h.name name = true
    · rw [if_pos hn]
      exact ⟨h, headersNamed name hs, by simp [headersNamed, hn], by simp [headersNamed, hn]⟩
    · rw [if_neg hn]
      cases hr : replaceHeader name value hs with
      | none =>
        rw [hr] at ih
        simpa [headersNamed, hn] using ih
      | some hs' =>
        rw [hr] at ih
        simpa [headersNamed, hn] using ih

theorem headersNamed_setHeader (ho : eqIgnoreCase (strn maxHeaderSize name) other = false) :
    headersNamed other (responseSetHeader resp name value).headers = headersNamed other
    resp.headers := by
  unfold responseSetHeader
  split
  next hs hr => exact (revalued_replaceHeader hr).headersNamed ho
  next => simp [responseAddHeader, headersNamed, ho]

theorem headersNamed_setHeader_self (resp : Response) (name value : Bytes) :
    ∃ n, headersNamed (strn maxHeaderSize name) (responseSetHeader resp name value).headers =
      ⟨n, strn maxHeaderSize value⟩ :: (headersNamed (strn maxHeaderSize name) resp.headers).tail := by
  have hset :=
    headersNamed_replaceHeader (strn maxHeaderSize name) (strn maxHeaderSize value) resp.headers
  unfold responseSetHeader
  split at hset
  next hs hr =>
    obtain ⟨h, rest, he, he'⟩ := hset
    exact ⟨h.name, by rw [he, he', tail_cons]⟩
  next =>
    have hself : eqIgnoreCase (strn maxHeaderSize name) (strn maxHeaderSize name) = true := by
      simp [eqIgnoreCase]
    refine ⟨strn maxHeaderSize name, ?_⟩
    rw [hset, tail_nil, responseAddHeader, headersNamed, filter_append, ← headersNamed, hset]
    simp [hself]

end

/-- `ioh_response_set_body`. -/
def responseSetBody (resp : Response) (body : Bytes) : Response := { resp with body := body }

/-- `ioh_respond`: an empty body leaves the old one. -/
def respond (resp : Response) (status : ℕ) (contentType : Option Bytes) (body : Bytes) : Response :=
  let resp := { resp with status := status }
  let resp :=
    match contentType with
    | some t => responseSetHeader resp (bytes "Content-Type") t
    | none => resp
  if body ≠ [] then responseSetBody resp body else resp

/-- `ioh_respond_json`, on a text within its limit of 1 MiB. -/
def respondJson (resp : Response) (status : ℕ) (json : Bytes) : Response :=
  respond resp status (some (bytes "application/json")) json

/-- `%u` and `%zu`. -/
def dec (n : ℕ) : Bytes := (Nat.toDigits 10 n).map fun c => c.toNat.toUInt8

/-- `ioh_ctx_error`, whose messages here are far shorter than its buffer. -/
def ctxError (resp : Response) (status : ℕ) (message : Bytes) : Response :=
  respondJson resp status
    (bytes "\x7b\"error\":\"" ++ message ++ bytes "\",\"status\":" ++ dec status ++ bytes "\x7d")

/-- `ioh_status_text`. -/
def statusText : ℕ → Bytes
  | 100 => bytes "Continue"
  | 101 => bytes "Switching Protocols"
  | 200 => bytes "OK"
  | 201 => bytes "Created"
  | 202 => bytes "Accepted"
  | 204 => bytes "No Content"
  | 206 => bytes "Partial Content"
  | 301 => bytes "Moved Permanently"
  | 302 => bytes "Found"
  | 304 => bytes "Not Modified"
  | 307 => bytes "Temporary Redirect"
  | 308 => bytes "Permanent Redirect"
  | 400 => bytes "Bad Request"
  | 401 => bytes "Unauthorized"
  | 403 => bytes "Forbidden"
  | 404 => bytes "Not Found"
  | 405 => bytes "Method Not Allowed"
  | 406 => bytes "Not Acceptable"
  | 408 => bytes "Request Timeout"
  | 409 => bytes "Conflict"
  | 411 => bytes "Length Required"
  | 413 => bytes "Content Too Large"
  | 414 => bytes "URI Too Long"
  | 415 => bytes "Unsupported Media Type"
  | 416 => bytes "Range Not Satisfiable"
  | 422 => bytes "Unprocessable Content"
  | 429 => bytes "Too Many Requests"
  | 500 => bytes "Internal Server Error"
  | 501 => bytes "Not Implemented"
  | 502 => bytes "Bad Gateway"
  | 503 => bytes "Service Unavailable"
  | 504 => bytes "Gateway Timeout"
  | _ => bytes "Unknown"

/-! ### Serialization -/

abbrev crlf : Bytes := [13, 10]

def statusLine (status : ℕ) : Bytes :=
  bytes "HTTP/1.1 " ++ dec status ++ [32] ++ statusText status ++ crlf

def headerLine (name value : Bytes) : Bytes := name ++ bytes ": " ++ value ++ crlf

/-- `snprintf` of a piece behind `out` in a buffer of `size` bytes, which also
needs room for its NUL; `none` is `-ENOSPC`. -/
def put (size : ℕ) (out piece : Bytes) : Option Bytes :=
  if out.length + piece.length < size then some (out ++ piece) else none

def headPieces (resp : Response) : List Bytes :=
  statusLine resp.status :: resp.headers.map (fun h => headerLine h.name h.value) ++
    if resp.body ≠ [] ∧ resp.chunked = false then
      [headerLine (bytes "Content-Length") (dec resp.body.length)]
    else []

/-- `ioh_http1_serialize_response` into a buffer of `size` bytes. -/
def serializeResponse (resp : Response) (size : ℕ) : Option Bytes :=
  ((headPieces resp).foldlM (put size) []).bind fun out =>
    if size < out.length + 2 then none
    else if size < out.length + 2 + resp.body.length then none
    else some (out ++ crlf ++ resp.body)

def responseBytes (resp : Response) : Bytes := (headPieces resp).flatten ++ crlf ++ resp.body

theorem foldlM_put {size : ℕ} : ∀ (ps : List Bytes) (out : Bytes), out.length < size →
    ps.foldlM (put size) out =
      if out.length + ps.flatten.length < size then some (out ++ ps.flatten) else none
  | [], out, h => by simp [h]
  | p :: ps, out, h => by
    rw [foldlM_cons]
    by_cases hp : out.length + p.length < size
    · rw [put, if_pos hp, Option.bind_eq_bind, Option.bind_some,
        foldlM_put ps (out ++ p) (by rwa [length_append])]
      simp [Nat.add_assoc]
    · rw [put, if_neg hp, Option.bind_eq_bind, Option.bind_none, if_neg]
      rw [flatten_cons, length_append]
      omega

/-- **A response is serialized if it fits**: then it is its pieces, the empty
line and the body. -/
theorem serializeResponse_eq {resp : Response} {size : ℕ} (hs : 0 < size) :
    serializeResponse resp size =
      if (responseBytes resp).length ≤ size then some (responseBytes resp) else none := by
  have hlen : (responseBytes resp).length = (headPieces resp).flatten.length + 2 + resp.body.length := by
    simp [responseBytes]
    omega
  rw [serializeResponse, foldlM_put _ _ (by simpa using hs), hlen]
  simp only [length_nil, Nat.zero_add, nil_append]
  by_cases hf : (headPieces resp).flatten.length < size
  · rw [if_pos hf, Option.bind_some]
    split_ifs <;> first | rfl | omega
  · rw [if_neg hf, if_neg (by omega)]
    rfl

end Iohttp
