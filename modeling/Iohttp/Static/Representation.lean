/-
# What a compressed response represents

`Content-Encoding` lists the codings that were applied to a representation to get
the body. `ioh_compress_response` encodes the body and sets that header to the
coding it used: what the header said before is gone, and if the body was encoded
already, so is the representation. A `Content-Length` or a `Content-Range` that
a handler or `ioh_static_serve` has set still describes the old body.
-/
import Iohttp.Http.Client
import Iohttp.Static.Compress

namespace Iohttp

variable {D : Decoders} {lib : Encoders} {resp : Response} {name out : Bytes}

end Iohttp
