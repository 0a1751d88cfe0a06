import Iohttp.Http.ProxyFormat
import Iohttp.Router.Trace
import Iohttp.Router.RadixSound
import Iohttp.Router.Representation
import Iohttp.Router.Allowed
import Iohttp.Router.Hosts
import Iohttp.Router.Walk
import Iohttp.Router.SetMeta
import Iohttp.Middleware.Compose
import Iohttp.Middleware.RateLimit
import Iohttp.Middleware.Basic
import Iohttp.Core.Accessors
import Iohttp.Http.Quic
import Iohttp.Core.PoolOps
import Iohttp.Core.FileSlots
import Iohttp.Core.Incarnation
import Iohttp.Http.Http2
import Iohttp.Core.Handshake
import Iohttp.Core.Transmit
import Iohttp.Core.LoopTimers
import Iohttp.Core.Framing
import Iohttp.Http.MultipartData
import Iohttp.Tls.Buffers
import Iohttp.Router.Resolve
import Iohttp.Core.Compaction
import Iohttp.Http.ContentLength
import Iohttp.Http.SpecialHeaders
import Iohttp.Core.Context
import Iohttp.Core.Live
import Iohttp.Http.SetCookie
import Iohttp.Ws.Injection
import Iohttp.Static.Representation
import Iohttp.Static.Negotiation
import Iohttp.Http.Accepts
import Iohttp.Static.Range
import Iohttp.Http.Param
