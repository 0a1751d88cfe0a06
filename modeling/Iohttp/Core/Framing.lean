/-
# The framing of responses

What a handler builds with `ioh_response_set_header`, `ioh_response_add_header`,
`ioh_response_set_body`, `ioh_static_serve` and `ioh_compress_response` is sent
as it is, with a `Content-Length` if there is a body. Nothing looks at the
method or the status, or at a length that is already among the headers: a
response without a body has no length, the body of a `GET` is sent to a `HEAD`
too, and the length that `ioh_static_serve` has set stays when the body is
compressed. The id that a request brings is echoed up to the next NUL of the
receive buffer, with the lines behind it.
-/
import Iohttp.Core.Failure
import Iohttp.Http.Client
import Iohttp.Static.Serve
import Iohttp.Static.Compress

namespace Iohttp

open Lines (LineEnd)

variable {ω τ : Type}

/-- A call by which a handler changes its response; the status is a field that it
sets. Files and encoders may differ from call to call. -/
inductive BuildCall where
  | setStatus (status : ℕ)
  | setHeader (name value : Bytes)
  | addHeader (name value : Bytes)
  | setBody (body : Bytes)
  | staticServe (files : Files) (cfg : StaticConfig)
  | compressResponse (lib : Encoders) (cfg : CompressConfig)

def BuildCall.apply (mem : Bytes) (req : Request) (resp : Response) : BuildCall → Response
  | .setStatus status => { resp with status := status }
  | .setHeader name value => responseSetHeader resp name value
  | .addHeader name value => responseAddHeader resp name value
  | .setBody body => responseSetBody resp body
  | .staticServe files cfg => (Iohttp.staticServe files cfg mem req resp).1
  | .compressResponse lib cfg => (Iohttp.compressResponse lib cfg mem req resp).1

variable {env : Env ω τ} {w : Work ω τ} {req : Request} {resp : Response}

end Iohttp
