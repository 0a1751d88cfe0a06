/-
# Cookies

`src/http/ioh_cookie.c`: the text of a `Set-Cookie` header, and
`ioh_ctx_redirect` and `ioh_ctx_set_cookie` of `src/core/ioh_ctx.c`, which
store headers in a response.
-/
import Iohttp.Http.Response

namespace Iohttp

/-- `ioh_same_site_t`. -/
inductive SameSite where
  | default
  | lax
  | strict
  | none
  deriving DecidableEq, Repr

/-- `ioh_cookie_t`; the strings are pointers, of which all but the name and the
value may be null. -/
structure Cookie where
  name : Bytes
  value : Bytes
  domain : Option Bytes
  path : Option Bytes
  maxAge : ℤ
  sameSite : SameSite
  secure : Bool
  httpOnly : Bool
  deriving DecidableEq, Repr

/-- `%s`: the string at a pointer. -/
def stringAt (p : Bytes) : Bytes := p.takeWhile (· ≠ 0)

/-- A byte that `ioh_cookie_validate_name` rejects. -/
def cookieNameReject (c : UInt8) : Bool := c ≤ 0x1F ∨ c = 0x7F ∨ c = 61 ∨ c = 59 ∨ c = 32 ∨ c = 9

/-- `ioh_cookie_validate_name`. -/
def cookieValidateName (name : Bytes) : Bool :=
  let s := strn 257 name
  s ≠ [] ∧ s.length ≤ 256 ∧ ¬s.any cookieNameReject

/-- The text of `SameSite`. -/
def sameSiteText : SameSite → Bytes
  | .lax => bytes "; SameSite=Lax"
  | .strict => bytes "; SameSite=Strict"
  | .none => bytes "; SameSite=None"
  | .default => []

/-- The attributes of a cookie, each as `snprintf` writes it. -/
def cookiePieces (c : Cookie) : List Bytes :=
  [stringAt c.name ++ [61] ++ stringAt c.value] ++
    (c.domain.map fun d => bytes "; Domain=" ++ stringAt d).toList ++
    (c.path.map fun p => bytes "; Path=" ++ stringAt p).toList ++
    (if 0 ≤ c.maxAge then [bytes "; Max-Age=" ++ dec c.maxAge.toNat] else []) ++
    [sameSiteText c.sameSite] ++
    -- `SameSite=None` is only sent with `Secure`
    (if c.secure ∨ c.sameSite = .none then [bytes "; Secure"] else []) ++
    if c.httpOnly then [bytes "; HttpOnly"] else []

/-- `ioh_cookie_serialize` into a buffer of `size` bytes. -/
def cookieSerialize (c : Cookie) (size : ℕ) : Except ℤ Bytes :=
  if size = 0 then .error (-EINVAL)
  else if cookieValidateName c.name then
    match (cookiePieces c).foldlM (put size) [] with
    | some out => .ok out
    | none => .error (-ENOSPC)
  else .error (-EINVAL)

/-- `ioh_ctx_redirect`. -/
def ctxRedirect (resp : Response) (status : ℕ) (url : Bytes) : Response :=
  responseSetHeader { resp with status := status } (bytes "Location") url

/-- `ioh_ctx_set_cookie`. -/
def ctxSetCookie (resp : Response) (cookie : Cookie) : Except ℤ Response :=
  (cookieSerialize cookie 512).map fun text => responseAddHeader resp (bytes "Set-Cookie") text

inductive HeaderCall where
  | setHeader (name value : Bytes)
  | addHeader (name value : Bytes)
  | redirect (status : ℕ) (url : Bytes)
  | setCookie (cookie : Cookie)
  deriving DecidableEq, Repr

def HeaderCall.apply (resp : Response) : HeaderCall → Except ℤ Response
  | .setHeader name value => .ok (responseSetHeader resp name value)
  | .addHeader name value => .ok (responseAddHeader resp name value)
  | .redirect status url => .ok (ctxRedirect resp status url)
  | .setCookie cookie => ctxSetCookie resp cookie

def applyCalls (calls : List HeaderCall) (resp : Response) : Except ℤ Response :=
  calls.foldlM HeaderCall.apply resp

end Iohttp
