/-
# The server

`src/core/ioh_server.c`: what the loop does with one completion. A completion
of a connection's operation reads and changes that connection, the ring, the
application's state and the count of connections; this is a `Work`. Whether
`io_uring_get_sqe` finds an entry, what `arc4random` gives, the memory that
`malloc` returns, the PROXY decoder and wolfSSL are parameters of a run.

`none` is a crash: after `dispatch_request` has freed the connection, the
compaction of the receive buffer copies from a null pointer.

Key definitions: `Env`, `Work`, `armRecv`, `armSend`, `armClose`,
`dispatchRequest`, `recvOutcome`, `onRecv`, `onSend`, `completeConn`, `Srv`, `handle`.
-/
import Iohttp.Core.Conn
import Iohttp.Core.Dispatch
import Iohttp.Http.Http1

namespace Iohttp

/-- `ioh_op_type_t`, as far as the server uses it. -/
inductive OpCode where
  | accept
  | recv
  | send
  | timeout
  | signal
  | close
  | cancel
  deriving DecidableEq, Repr

/-- A submission: its user data `(id, code)`, the number of the call of
`io_uring_get_sqe` that it comes from, the connection whose memory it uses,
and the offset and length in the buffer. -/
structure Op where
  code : OpCode
  id : ℕ
  seq : ℕ
  serial : ℕ
  off : ℕ
  len : ℕ
  /-- `IOSQE_IO_LINK`: a timeout is linked to it. -/
  linked : Bool
  deriving DecidableEq, Repr

/-- A completion. `data` are the bytes that a receive has written, `more` is
`IORING_CQE_F_MORE` and `signo` what a read of the signal descriptor gives. -/
structure Cqe where
  op : Op
  res : ℤ
  data : Bytes
  more : Bool
  signo : ℕ
  deriving DecidableEq, Repr

/-- The operations that have been prepared, those that have been submitted and
whose completion has not been handled, and how often an entry was asked for. -/
structure Ring where
  asked : ℕ
  prepared : List Op
  submitted : List Op
  deriving DecidableEq, Repr

/-- The operations whose completion has not been handled. -/
def Ring.ops (r : Ring) : List Op := r.prepared ++ r.submitted

/-- A call of `io_uring_get_sqe`. -/
def Ring.ask (r : Ring) : Ring := { r with asked := r.asked + 1 }

def Ring.prepare (r : Ring) (op : Op) : Ring := { r with prepared := r.prepared ++ [op] }

/-- The completion of an operation is handled; a multishot one stays. -/
def Ring.retire (r : Ring) (cqe : Cqe) : Ring :=
  if cqe.more then r
  else { r with prepared := r.prepared.erase cqe.op, submitted := r.submitted.erase cqe.op }

/-! ### What a completion works on -/

/-- `ioh_server_config_t`, as far as the loop reads it. -/
structure Config where
  keepaliveTimeoutMs : ℕ
  headerTimeoutMs : ℕ
  bodyTimeoutMs : ℕ
  maxHeaderSize : ℕ
  maxBodySize : ℕ
  proxyProtocol : Bool
  deriving DecidableEq, Repr

/-- `ioh_server_config_init`. -/
def configInit : Config := ⟨65000, 30000, 60000, 8192, 1048576, false⟩

/-- The server's configuration and everything around it. -/
structure Env (ω τ : Type) where
  config : Config
  app : App ω
  router : Option Router
  /-- A TLS context is set. -/
  tls : Bool
  wolf : Wolf τ
  /-- `ioh_proxy_decode`: how many bytes the header has and what it says, or an
  error. -/
  proxyDecode : Bytes → Except ℤ (ℕ × ProxyResult)
  /-- The `n`-th call of `io_uring_get_sqe` finds an entry. -/
  sqe : ℕ → Bool
  random : ℕ → Random
  /-- The memory that the `n`-th connection's buffer is allocated in. -/
  memory : ℕ → Bytes

/-- What a connection has done: bytes received, ciphertext given to TLS, a
buffer given to the parser, a request dispatched, its descriptor closed. -/
inductive Act where
  | received (serial : ℕ) (data : Bytes)
  | fed (serial : ℕ) (data : Bytes)
  | parsed (serial : ℕ) (buf : Bytes)
  | dispatched (serial : ℕ) (req : Request)
  | closed (serial : ℕ) (fd : ℤ)
  deriving DecidableEq, Repr

/-- The connection of a completion, and what is shared by all connections.
`clock` counts the requests of all of them. -/
structure Work (ω τ : Type) where
  conn : Conn τ
  ring : Ring
  active : ℕ
  clock : ℕ
  trace : List Act
  world : ω

variable {ω τ : Type}

/-- The connection changes. -/
def Work.setConn (w : Work ω τ) (c : Conn τ) : Work ω τ := { w with conn := c }

/-- Something has happened. -/
def Work.note (w : Work ω τ) (a : Act) : Work ω τ := { w with trace := w.trace ++ [a] }

/-- A call of `io_uring_get_sqe`. -/
def Work.ask (w : Work ω τ) : Work ω τ := { w with ring := w.ring.ask }

/-- An entry gets its operation. -/
def Work.prep (w : Work ω τ) (op : Op) : Work ω τ := { w with ring := w.ring.prepare op }

/-- The application has answered a request. -/
def Work.tick (w : Work ω τ) (world : ω) : Work ω τ := { w with clock := w.clock + 1, world := world }

/-- The operation is one of the connection. -/
def Op.Of (op : Op) (c : Conn τ) : Prop := op.id = c.id ∧ op.serial = c.serial
  deriving Decidable

/-- An operation of the connection, in the entry that is asked for next. -/
def Work.opFor (w : Work ω τ) (code : OpCode) (off len : ℕ) (linked : Bool) : Op :=
  ⟨code, w.conn.id, w.ring.asked, w.conn.serial, off, len, linked⟩

/-- `ioh_conn_free`. -/
def connFree (w : Work ω τ) : Work ω τ := { w with conn := freeConn, active := w.active - 1 }

/-! ### Arming -/

/-- `timeout_ms_for_phase`. -/
def timeoutMsForPhase (cfg : Config) (c : Conn τ) : ℕ :=
  match c.timeoutPhase with
  | .header => cfg.headerTimeoutMs
  | .body => if c.routeBodyTimeoutMs > 0 then c.routeBodyTimeoutMs else cfg.bodyTimeoutMs
  | .keepalive =>
    if c.routeKeepaliveTimeoutMs > 0 then c.routeKeepaliveTimeoutMs else cfg.keepaliveTimeoutMs
  | .none => 0

/-- The receive that `arm_recv` prepares, at the end of what is in the buffer. -/
def Work.recvOp (w : Work ω τ) (linked : Bool) : Op :=
  w.opFor .recv w.conn.recvLen (recvBufSize - w.conn.recvLen) linked

/-- `arm_recv`. The timeout is linked if there is a second entry for it. -/
def armRecv (env : Env ω τ) (w : Work ω τ) : Work ω τ × ℤ :=
  if env.sqe w.ring.asked then
    let tmo := timeoutMsForPhase env.config w.conn
    if tmo > 0 then
      if env.sqe w.ask.ring.asked then
        ((w.ask.ask.prep (w.recvOp true)).prep (w.ask.opFor .timeout 0 tmo false), 0)
      else (w.ask.ask.prep (w.recvOp false), 0)
    else (w.ask.prep (w.recvOp false), 0)
  else (w.ask, -ENOSPC)

/-- The bytes that `arm_send` sends: on a TLS connection the output of the
session, if there is any. -/
def encrypt (env : Env ω τ) (w : Work ω τ) (data : Bytes) : Work ω τ × Except ℤ Bytes :=
  match w.conn.tls with
  | some t =>
    if w.conn.tlsDone then
      let r := tlsWrite env.wolf t data
      if r.2 < 0 then (w.setConn { w.conn with tls := some r.1 }, .error r.2)
      else if r.1.cipherOut ≠ [] then
        (w.setConn { w.conn with tls := some (tlsConsumeOutput r.1 r.1.cipherOut.length) },
          .ok r.1.cipherOut)
      else (w.setConn { w.conn with tls := some r.1 }, .ok data)
    else (w, .ok data)
  | none => (w, .ok data)

def startSend (env : Env ω τ) (w : Work ω τ) (data : Bytes) : Work ω τ × ℤ :=
  let conn := { w.conn with sendBuf := data, sendOffset := 0 }
  if env.sqe w.ring.asked then
    ((w.setConn { conn with sendActive := true }).ask.prep (w.opFor .send 0 data.length false), 0)
  else ((w.setConn { conn with sendActive := false }).ask, -ENOSPC)

/-- `arm_send`. -/
def armSend (env : Env ω τ) (w : Work ω τ) (data : Bytes) : Work ω τ × ℤ :=
  if w.conn.sendActive then (w, -EBUSY)
  else
    match encrypt env w data with
    | (w, .error e) => (w, e)
    | (w, .ok out) => startSend env w out

def Work.setKeepAlive (w : Work ω τ) (b : Bool) : Work ω τ := w.setConn { w.conn with keepAlive := b }

/-- The response of `send_error_response`. -/
def errorResponse (status : ℕ) (msg : Bytes) : Response :=
  responseSetBody { responseInit with status := status } msg

/-- `send_error_response`, whatever `arm_send` says. -/
def sendErrorResponse (env : Env ω τ) (w : Work ω τ) (status : ℕ) (msg : Bytes) : Work ω τ :=
  match serializeResponse (errorResponse status msg) 512 with
  | some out => (armSend env w out).1.setKeepAlive false
  | none => w.setKeepAlive false

/-- `arm_close`. It does not look whether the connection is closing already. -/
def armClose (env : Env ω τ) (w : Work ω τ) : Work ω τ :=
  let w' := w.note (.closed w.conn.serial w.conn.fd)
  if env.sqe w.ring.asked then
    (w'.setConn (connTransition { w.conn with tls := none } .closing).1).ask.prep
    (w.opFor .close 0 0 false)
  else connFree w'.ask

/-! ### Requests -/

def routeTimeouts (c : Conn τ) : Option RouteOpts → Conn τ
  | some o =>
    { c with routeBodyTimeoutMs := o.bodyTimeoutMs, routeKeepaliveTimeoutMs := o.keepaliveTimeoutMs }
  | none => c

def Work.answer (env : Env ω τ) (w : Work ω τ) (req : Request) : Answer ω :=
  answerRequest env.app env.router w.conn.recvBuf req (env.random w.clock) w.world

/-- The connection stays open behind the answer. -/
def Answer.keepAlive (ans : Answer ω) : Bool := ans.ctx.req.keepAlive && ans.ctx.resp.status < 400

/-- The end of `dispatch_request`: the response is serialized and sent. -/
def sendAnswer (env : Env ω τ) (w : Work ω τ) (ans : Answer ω) : Work ω τ × ℤ :=
  match serializeResponse ans.ctx.resp 8192 with
  | some out =>
    let r := armSend env w out
    if r.2 < 0 then (armClose env r.1, - EIO) else (r.1.setKeepAlive ans.keepAlive, ans.rc)
  | none => (w.setKeepAlive ans.keepAlive, ans.rc)

/-- `dispatch_request`. -/
def dispatchRequest (env : Env ω τ) (w : Work ω τ) (req : Request) : Work ω τ × ℤ :=
  let ans := w.answer env req
  let w := (w.note (.dispatched w.conn.serial req)).setConn (routeTimeouts w.conn ans.opts)
  sendAnswer env (w.tick ans.ctx.world) ans

def Conn.buf (c : Conn τ) : Bytes := c.recvBuf.take c.recvLen

/-- `memmove` of what is left behind the first `n` bytes of the receive
buffer. -/
def Conn.discard (c : Conn τ) (n : ℕ) : Conn τ :=
  { c with
    recvBuf := (c.recvBuf.drop n).take (c.recvLen - n) ++ c.recvBuf.drop (c.recvLen - n)
    recvLen := c.recvLen - n }

/-- The request that was dispatched leaves the buffer. If the connection has
been freed, the length wraps around. -/
def compact (w : Work ω τ) (total : ℕ) : Option (Work ω τ) :=
  if w.conn.recvLen < total then none else some (w.setConn (w.conn.discard total))

/-- The body timeout of a request whose body has not arrived: the route may
have its own. -/
def bodyTimeout (env : Env ω τ) (c : Conn τ) (req : Request) : Conn τ :=
  match env.router.bind fun router =>
  matchOpts env.app (routerDispatch router req.method req.path.bytes) with
  | some o => { c with routeBodyTimeoutMs := o.bodyTimeoutMs, timeoutPhase := .body }
  | none => { c with timeoutPhase := .body }

def withBody (c : Conn τ) (req : Request) (hdrLen : ℕ) : Request :=
  if req.contentLength > 0 then { req with body := (c.recvBuf.drop hdrLen).take req.contentLength }
  else req

/-- How a receive ends: there is nothing more to do, the client gets an error
response, or there is a request, which leaves the buffer with its `total`
bytes. -/
inductive Outcome (ω τ : Type) where
  | done (w : Work ω τ)
  | reject (w : Work ω τ) (status : ℕ) (msg : Bytes)
  | dispatch (w : Work ω τ) (req : Request) (total : ℕ)

/-- A request whose head has `hdrLen` bytes is in the receive buffer. -/
def onRequest (env : Env ω τ) (w : Work ω τ) (req : Request) (hdrLen : ℕ) : Outcome ω τ :=
  if req.contentLength > env.config.maxBodySize then .reject w 413 (bytes "Content Too Large")
  else if req.contentLength > 0 ∧ w.conn.recvLen - hdrLen < req.contentLength then
    .done (armRecv env (w.setConn (bodyTimeout env w.conn req))).1
  else .dispatch w (withBody w.conn req hdrLen) (hdrLen + req.contentLength)

/-- The HTTP part of a receive. -/
def onHttp (env : Env ω τ) (w : Work ω τ) : Outcome ω τ :=
  if w.conn.recvLen > env.config.maxHeaderSize then
    .reject w 431 (bytes "Request Header Fields Too Large")
  else
    let w' := w.note (.parsed w.conn.serial w.conn.buf)
    match http1ParseRequest w.conn.buf with
    | .ok (req, hdrLen) => onRequest env w' req hdrLen
    | .error e =>
      if e = -EAGAIN then .done (armRecv env w').1 else .reject w' 400 (bytes "Bad Request")

/-! ### Receives -/

/-- The state behind the accept or the PROXY header. -/
def nextLayer (env : Env ω τ) (c : Conn τ) : Conn τ :=
  if env.tls then
    (connTransition { c with tls := tlsConnCreate env.wolf c.serial, tlsDone := false } .tlsHandshake).1
  else (connTransition c .httpActive).1

/-- The PROXY header leaves the buffer, and its source address is kept. -/
def Conn.behindHeader (c : Conn τ) (consumed : ℕ) (result : ProxyResult) : Conn τ :=
  { c.discard consumed with proxyUsed := true, proxyAddr := result.srcAddr }

/-- The PROXY header, before anything else. `error` ends the completion
(`continue`), `ok` falls through. -/
def onProxy (env : Env ω τ) (w : Work ω τ) : Except (Work ω τ) (Work ω τ) :=
  if w.conn.state = .proxyHeader then
    match env.proxyDecode w.conn.buf with
    | .ok (consumed, result) =>
      let w := w.setConn (nextLayer env (w.conn.behindHeader consumed result))
      if w.conn.recvLen = 0 then .error (armRecv env w).1 else .ok w
    | .error e => if e = -EAGAIN then .error (armRecv env w).1 else .error (armClose env w)
  else .ok w

/-- The session changes. -/
def Work.setTls (w : Work ω τ) (t : TlsConn τ) : Work ω τ := w.setConn { w.conn with tls := some t }

/-- The output of the handshake is sent, whatever `arm_send` says. -/
def flushHandshake (env : Env ω τ) (w : Work ω τ) (t : TlsConn τ) : Work ω τ :=
  if t.cipherOut ≠ [] then
    (armSend env (w.setTls t) t.cipherOut).1.setTls (tlsConsumeOutput t t.cipherOut.length)
  else w.setTls t

def handshakeDone (c : Conn τ) : Conn τ :=
  (connTransition { c with tlsDone := true, timeoutPhase := .header } .httpActive).1

/-- The next receive, unless a send is on its way, whose completion arms it. -/
def recvUnlessSending (env : Env ω τ) (w : Work ω τ) : Work ω τ :=
  if w.conn.sendActive then w else (armRecv env w).1

def onHandshake (env : Env ω τ) (w : Work ω τ) (t : TlsConn τ) : Work ω τ :=
  let hs := tlsHandshake env.wolf t
  let w := flushHandshake env w hs.1
  if hs.2 = 0 then recvUnlessSending env (w.setConn (handshakeDone w.conn))
  else if hs.2 = -EAGAIN then recvUnlessSending env w
  else armClose env w

/-- Plaintext takes the place of what was received. -/
def Conn.setPlain (c : Conn τ) (plain : Bytes) : Conn τ :=
  { c with recvBuf := plain ++ c.recvBuf.drop plain.length, recvLen := plain.length }

/-- What is in the buffer goes to the TLS session. -/
def feed (w : Work ω τ) (t : TlsConn τ) : Work ω τ :=
  (w.note (.fed w.conn.serial w.conn.buf)).setConn
    { w.conn with recvLen := 0, tls := some (tlsFeedInput t w.conn.buf).1 }

/-- A read of plaintext after the handshake. -/
def onDecrypt (env : Env ω τ) (w : Work ω τ) (t : TlsConn τ) : Except (Work ω τ) (Work ω τ) :=
  let r := tlsRead env.wolf t 8192
  let w := w.setTls r.1
  match r.2 with
  | .ok plain => .ok (w.setConn (w.conn.setPlain plain))
  | .error e => if e = -EAGAIN then .error (armRecv env w).1 else .error (armClose env w)

/-- What is received goes to the TLS session; after the handshake one read of
plaintext takes its place in the receive buffer. -/
def onTls (env : Env ω τ) (w : Work ω τ) : Except (Work ω τ) (Work ω τ) :=
  match w.conn.tls with
  | some t =>
    let t' := (tlsFeedInput t w.conn.buf).1
    if w.conn.tlsDone then onDecrypt env (feed w t) t' else .error (onHandshake env (feed w t) t')
  | none => .ok w

/-- The bytes of a receive, at the place where it was armed. -/
def Conn.write (c : Conn τ) (off : ℕ) (data : Bytes) : Conn τ :=
  { c with recvBuf := c.recvBuf.take off ++ data ++ c.recvBuf.drop (off + data.length) }

/-- The bytes of a receive are in the buffer, and counted. -/
def receive (w : Work ω τ) (cqe : Cqe) : Work ω τ :=
  (w.note (.received w.conn.serial cqe.data)).setConn
    { w.conn.write cqe.op.off cqe.data with recvLen := w.conn.recvLen + cqe.res.toNat }

/-- `IOH_OP_RECV`, up to a response. -/
def recvOutcome (env : Env ω τ) (w : Work ω τ) (cqe : Cqe) : Outcome ω τ :=
  if cqe.res ≤ 0 then .done (armClose env w)
  else
    match onProxy env (receive w cqe) with
    | .error w => .done w
    | .ok w =>
      match onTls env w with
      | .error w => .done w
      | .ok w => onHttp env w

/-- The response, and what is left in the buffer. -/
def finish (env : Env ω τ) : Outcome ω τ → Option (Work ω τ)
  | .done w => some w
  | .reject w status msg => some (sendErrorResponse env w status msg)
  | .dispatch w req total => compact (dispatchRequest env w req).1 total

/-- `IOH_OP_RECV`. -/
def onRecv (env : Env ω τ) (w : Work ω τ) (cqe : Cqe) : Option (Work ω τ) :=
  finish env (recvOutcome env w cqe)

/-! ### Sends, closes and timeouts -/

/-- The rest of a response is sent. -/
def resend (env : Env ω τ) (w : Work ω τ) : Work ω τ :=
  if env.sqe w.ring.asked then
    (w.setConn { w.conn with sendActive := true }).ask.prep
      (w.opFor .send w.conn.sendOffset (w.conn.sendBuf.length - w.conn.sendOffset) false)
  else armClose env w.ask

/-- The connection waits for its next request. Bytes of it that are in the
buffer already are forgotten. -/
def nextRequest (c : Conn τ) : Conn τ := { c with timeoutPhase := .keepalive, recvLen := 0 }

/-- The receive of the next request. -/
def awaitNext (env : Env ω τ) (w : Work ω τ) : Work ω τ :=
  let r := (armRecv env (w.setConn (nextRequest w.conn))).1
  r.setConn (routeTimeouts r.conn (some ⟨0, 0⟩))

/-- The send buffer is freed. -/
def Conn.sentAll (c : Conn τ) : Conn τ := { c with sendBuf := [], sendOffset := 0 }

/-- A response has been sent. -/
def sendDone (env : Env ω τ) (w : Work ω τ) : Work ω τ :=
  let w := w.setConn w.conn.sentAll
  if w.conn.state = .tlsHandshake then (armRecv env w).1
  else if w.conn.keepAlive ∧ w.conn.state = .httpActive then awaitNext env w
  else armClose env w

/-- `IOH_OP_SEND`. -/
def onSend (env : Env ω τ) (w : Work ω τ) (cqe : Cqe) : Work ω τ :=
  let w := w.setConn { w.conn with sendActive := false }
  if cqe.res < 0 then armClose env w
  else
    let w := w.setConn { w.conn with sendOffset := w.conn.sendOffset + cqe.res.toNat }
    if w.conn.sendOffset < w.conn.sendBuf.length then resend env w else sendDone env w

/-- `IOH_OP_TIMEOUT`. -/
def onTimeout (env : Env ω τ) (w : Work ω τ) (cqe : Cqe) : Work ω τ :=
  if cqe.res = -ECANCELED then w else armClose env w

/-- A completion that carries the id of this connection. -/
def completeConn (env : Env ω τ) (w : Work ω τ) (cqe : Cqe) : Option (Work ω τ) :=
  match cqe.op.code with
  | .recv => onRecv env w cqe
  | .send => some (onSend env w cqe)
  | .close => some (connFree w)
  | .timeout => some (onTimeout env w cqe)
  | _ => some w

/-! ### The server -/

/-- `ioh_server_t` with its pool and ring, the application's state and what has
happened. -/
structure Srv (ω τ : Type) where
  pool : Pool τ
  ring : Ring
  clock : ℕ
  trace : List Act
  world : ω
  listening : Bool
  accepting : Bool
  stopped : Bool
  listenFd : ℤ
  signalFd : ℤ

/-- The work on the connection in a slot. -/
def Srv.focus (s : Srv ω τ) (conn : Conn τ) : Work ω τ :=
  ⟨conn, s.ring, s.pool.activeCount, s.clock, s.trace, s.world⟩

@[simp]
theorem Srv.focus_conn (s : Srv ω τ) (c : Conn τ) : (s.focus c).conn = c := rfl

@[simp]
theorem Srv.focus_trace (s : Srv ω τ) (c : Conn τ) : (s.focus c).trace = s.trace := rfl

/-- The server after the work on slot `i`. -/
def Srv.restore (s : Srv ω τ) (i : ℕ) (w : Work ω τ) : Srv ω τ :=
  { s with
    pool.conns := s.pool.conns.set i w.conn
    pool.activeCount := w.active
    ring := w.ring, clock := w.clock, trace := w.trace, world := w.world }

/-- `arm_multishot_accept`. -/
def armMultishotAccept (env : Env ω τ) (s : Srv ω τ) : Srv ω τ :=
  if env.sqe s.ring.asked then
    { s with
      ring := s.ring.ask.prepare ⟨.accept, 0, s.ring.asked, 0, 0, 0, false⟩, accepting := true }
  else { s with ring := s.ring.ask }

/-- A connection that has just been accepted, in its first state. -/
def firstState (env : Env ω τ) (c : Conn τ) (fd : ℤ) : Conn τ :=
  let c := { c with fd := fd, timeoutPhase := .header }
  if env.config.proxyProtocol then (connTransition c .proxyHeader).1 else nextLayer env c

/-- The first receive of a connection, without which it is closed at once. -/
def accepted (env : Env ω τ) (w : Work ω τ) (fd : ℤ) : Work ω τ :=
  let r := armRecv env (w.setConn (firstState env w.conn fd))
  if r.2 < 0 then connFree (r.1.note (.closed r.1.conn.serial r.1.conn.fd)) else r.1

/-- The descriptor of `IOH_OP_ACCEPT`. If the pool is full, it is closed at
once. -/
def acceptFd (env : Env ω τ) (s : Srv ω τ) (fd : ℤ) : Srv ω τ :=
  match connAlloc s.pool (env.memory s.pool.serial) with
  | some (pool, i) =>
    let conn := allocConn s.pool.nextId s.pool.serial (env.memory s.pool.serial)
    let s := { s with pool := pool }
    s.restore i (accepted env (s.focus conn) fd)
  | none => s

/-- `IOH_OP_ACCEPT`. -/
def onAccept (env : Env ω τ) (s : Srv ω τ) (cqe : Cqe) : Srv ω τ :=
  let s := if 0 ≤ cqe.res then acceptFd env s cqe.res else s
  if cqe.more then s
  else
    let s := { s with accepting := false }
    if s.listening ∧ !s.stopped then armMultishotAccept env s else s

/-- A completion of a connection's operation, if its id is still in use. -/
def onConn (env : Env ω τ) (s : Srv ω τ) (cqe : Cqe) : Option (Srv ω τ) :=
  match findConnById s.pool cqe.op.id with
  | none => some s
  | some i => (s.pool.conns[i]?).bind fun c => (completeConn env (s.focus c) cqe).map (s.restore i)

/-- One round of the loop in `ioh_server_run_once`, for any completion but one
of a signal. -/
def handle (env : Env ω τ) (s : Srv ω τ) (cqe : Cqe) : Option (Srv ω τ) :=
  let s := { s with ring := s.ring.retire cqe }
  match cqe.op.code with
  | .accept => some (onAccept env s cqe)
  | .signal | .cancel => some s
  | _ => onConn env s cqe

/-! ### Shutdown -/

/-- `ioh_shutdown_mode_t`. -/
inductive ShutdownMode where
  | immediate
  | drain
  deriving DecidableEq, Repr

/-- The start of `ioh_server_shutdown`: no more connections are accepted. -/
def stopAccepting (env : Env ω τ) (s : Srv ω τ) : Srv ω τ :=
  let ring :=
    if s.accepting then
      if env.sqe s.ring.asked then s.ring.ask.prepare ⟨.cancel, 0, s.ring.asked, 0, 0, 0, false⟩
      else s.ring.ask
    else s.ring
  { s with
    stopped := true, ring := ring, accepting := false, listenFd := -1
    listening := if 0 ≤ s.listenFd then false else s.listening }

/-- A connection is told to close after its response. -/
def drainConn (c : Conn τ) : Conn τ :=
  if c.state = .httpActive then { (connTransition c .draining).1 with keepAlive := false } else c

/-- The start of a shutdown that drains. -/
def drainBegin (env : Env ω τ) (s : Srv ω τ) : Srv ω τ :=
  let s := stopAccepting env s
  { s with pool.conns := s.pool.conns.map drainConn }

/-- The descriptors that are closed by hand. -/
def forceClosed (c : Conn τ) : List Act :=
  if c.state ≠ .free ∧ 0 ≤ c.fd then [.closed c.serial c.fd] else []

/-- Every connection is closed and freed. -/
def forceClose (s : Srv ω τ) : Srv ω τ :=
  { s with
    pool.conns := s.pool.conns.map fun c => if c.state = .free then c else freeConn
    pool.activeCount := s.pool.activeCount - s.pool.conns.countP fun c => c.state ≠ .free
    trace := s.trace ++ s.pool.conns.flatMap forceClosed }

/-- `ioh_server_shutdown` in the mode that does not wait. -/
def shutdownImmediate (env : Env ω τ) (s : Srv ω τ) : Srv ω τ := forceClose (stopAccepting env s)

/-- The read of the signal descriptor is armed again, unless the server has
stopped. -/
def rearmSignal (env : Env ω τ) (s : Srv ω τ) : Srv ω τ :=
  if !s.stopped ∧ 0 ≤ s.signalFd then
    if env.sqe s.ring.asked then
      { s with ring := s.ring.ask.prepare ⟨.signal, 0, s.ring.asked, 0, 0, 0, false⟩ }
    else { s with ring := s.ring.ask }
  else s

/-- The server behind `ioh_server_create`, `ioh_server_listen` and the start of
`ioh_server_run`, which arm the first accept and the first signal read. -/
def serverStart (maxConns : ℕ) (listenFd signalFd : ℤ) (world : ω) : Srv ω τ where
  pool := connPoolCreate maxConns
  ring := ⟨2, [⟨.accept, 0, 0, 0, 0, 0, false⟩, ⟨.signal, 0, 1, 0, 0, 0, false⟩], []⟩
  clock := 0
  trace := []
  world := world
  listening := true
  accepting := true
  stopped := false
  listenFd := listenFd
  signalFd := signalFd

end Iohttp
