/-
# HTTP/2 and HTTP/3 sessions

What `src/http/ioh_http2.c` and `src/http/ioh_http3.c` do with a request that
is complete: `on_frame_recv_cb`, `h3_end_stream_cb` and the responses they
submit. The two libraries below, nghttp2 and nghttp3, are parameters: they
accept a response or not, and take every GOAWAY. The request of a stream is
data of the session; memory allocation succeeds.

Both callbacks submit a response only if the application's function returns 0
and has not aborted the context.
-/
import Iohttp.Core.Dispatch

namespace Iohttp

variable {ω : Type}

/-- A response as a session gives it to its library: the fields, with
`:status` first, and the body that will be read. -/
structure Submission where
  streamId : ℕ
  fields : List RespHeader
  body : Option Bytes
  deriving DecidableEq, Repr

/-- The fields of a response: its status in a buffer of four bytes, and the
headers with their names in lower case. `none` is `-EINVAL`. -/
def submitFields (resp : Response) : Option (List RespHeader) :=
  if (dec resp.status).length ≥ 4 then none
  else some (⟨bytes ":status", dec resp.status⟩ :: resp.headers.map fun h => ⟨h.name.map lower, h.value⟩)

/-- `submit_response` of HTTP/2, up to the call of the library. -/
def h2SubmitResponse (streamId : ℕ) (resp : Response) : Option Submission :=
  (submitFields resp).map fun fields =>
    ⟨streamId, fields, if resp.body ≠ [] then some resp.body else none⟩

/-- `ioh_http3_submit_response`, up to the call of the library. Its reader says
at once that the body is at its end. -/
def h3SubmitResponse (streamId : ℕ) (resp : Response) : Option Submission :=
  (submitFields resp).map fun fields => ⟨streamId, fields, if resp.body ≠ [] then some [] else none⟩

/-! ### Requests -/

/-- What the application's function leaves: the context, whether it is aborted
(`ioh_ctx_abort`), and its result. -/
structure Handled (ω : Type) where
  ctx : Ctx ω
  aborted : Bool
  rc : ℤ

/-- `h2_stream_data_t` and `h3_stream_data_t`: the request, with the memory of
its strings. -/
structure StreamData where
  mem : Bytes
  req : Request

/-- `ioh_http2_session_t` and `ioh_http3_session_t`, as far as both have it: the
application's function, the streams and its state; and what has been given
to the library, which accepts a submission or not. -/
structure Session (ω : Type) where
  onRequest : Option (ℕ → Ctx ω → Handled ω)
  accepts : Submission → Bool
  streams : ℕ → Option StreamData
  submitted : List Submission
  world : ω

/-- The request of a stream, before the application has seen it. -/
def StreamData.ctx (sd : StreamData) (world : ω) : Ctx ω := ⟨sd.mem, sd.req, responseInit, world⟩

/-- A response is given to the library. -/
def Session.submit (s : Session ω) : Option Submission → Session ω
  | some m => if s.accepts m then { s with submitted := s.submitted ++ [m] } else s
  | none => s

/-- The request of a stream is complete: the application's function gets it, and
its response is submitted if it returns 0. -/
def answerStream (submit : ℕ → Response → Option Submission) (s : Session ω) (streamId : ℕ) :
    Session ω :=
  match s.streams streamId, s.onRequest with
  | some sd, some f =>
    let r := f streamId (sd.ctx s.world)
    let s := { s with world := r.ctx.world }
    if r.rc = 0 ∧ r.aborted = false then s.submit (submit streamId r.ctx.resp) else s
  | _, _ => s

/-- The result of the application's function, if it is called. -/
def Session.result (s : Session ω) (streamId : ℕ) : Option (Handled ω) :=
  match s.streams streamId, s.onRequest with
  | some sd, some f => some (f streamId (sd.ctx s.world))
  | _, _ => none

/-- `h3_end_stream_cb`. -/
def h3EndStream (s : Session ω) (streamId : ℕ) : Session ω := answerStream h3SubmitResponse s streamId

/-- The types of frames that `on_frame_recv_cb` tells apart. -/
inductive H2FrameType where
  | headers
  | data
  | rstStream
  | other
  deriving DecidableEq, Repr

/-- A frame: its type, stream and the flag `END_STREAM`. -/
structure H2Frame where
  type : H2FrameType
  streamId : ℕ
  endStream : Bool
  deriving DecidableEq, Repr

/-- The errors with which a GOAWAY is submitted. -/
inductive H2Error where
  | noError
  | enhanceYourCalm
  deriving DecidableEq, Repr

structure Goaway where
  lastId : ℕ
  error : H2Error
  deriving DecidableEq, Repr

/-- `ioh_http2_session_t`, with the count of resets in the second that began at
`rstWindowStart`, and the GOAWAYs that the library has been given. -/
structure H2Session (ω : Type) where
  base : Session ω
  maxRstStreamPerSec : ℕ
  rstCount : ℕ
  rstWindowStart : ℤ
  goawaySent : Bool
  goaways : List Goaway

/-- `ioh_http2_session_create`, with its default for the resets in one second. -/
def h2SessionCreate (base : Session ω) (maxRst : ℕ) : H2Session ω :=
  ⟨base, if maxRst = 0 then 100 else maxRst, 0, 0, false, []⟩

/-- `nghttp2_submit_goaway`, and the flag that is set behind it. -/
def H2Session.submitGoaway (s : H2Session ω) (lastId : ℕ) (error : H2Error) : H2Session ω :=
  { s with goawaySent := true, goaways := s.goaways ++ [⟨lastId, error⟩] }

/-- `ioh_http2_goaway`, when `lastProcStreamId` is the last stream that the
library has processed. -/
def h2Goaway (s : H2Session ω) (lastProcStreamId : ℕ) : H2Session ω :=
  s.submitGoaway (if s.goawaySent then lastProcStreamId else 2 ^ 31 - 1) .noError

/-- The count of `RST_STREAM` frames, and the end of the session if there are
too many in one second. -/
def H2Session.countReset (s : H2Session ω) (now : ℤ) : H2Session ω :=
  let s :=
    if now ≠ s.rstWindowStart then { s with rstCount := 1, rstWindowStart := now }
    else { s with rstCount := (s.rstCount + 1) % 2 ^ 32 }
  if s.rstCount > s.maxRstStreamPerSec ∧ s.goawaySent = false then s.submitGoaway 0
    .enhanceYourCalm else s

def H2Frame.completes (f : H2Frame) : Bool := (f.type = .headers ∨ f.type = .data) ∧ f.endStream = true

/-- `on_frame_recv_cb`, at a time. -/
def onFrameRecv (s : H2Session ω) (now : ℤ) (f : H2Frame) : H2Session ω :=
  if f.type = .rstStream then s.countReset now
  else if f.completes then { s with base := answerStream h2SubmitResponse s.base f.streamId }
  else s

/-- **A session answers only what has succeeded**: a function that returns an
error leaves its stream without a response. -/
theorem answerStream_submitted {submit : ℕ → Response → Option Submission} {s : Session ω} {streamId : ℕ}
    {r : Handled ω} (hr : s.result streamId = some r) (hrc : r.rc < 0) :
    (answerStream submit s streamId).submitted = s.submitted := by
  unfold Session.result at hr
  unfold answerStream
  split at hr
  · next sd f hsd hf =>
    cases hr
    rw [if_neg fun h => by omega]
  · cases hr

end Iohttp
