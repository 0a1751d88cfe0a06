/-
# TLS connections

`src/tls/ioh_tls.c`: wolfSSL between two queues of ciphertext. The server
puts received bytes into one queue and takes the bytes to be sent from the
other; wolfSSL reads and writes them through callbacks. What wolfSSL does is
a parameter.

A queue is the list of its unread bytes: `ioh_tls_feed_input` moves them to
the front of the buffer before it looks for room.
-/
import Iohttp.Bytes

namespace Iohttp

/-- `IOH_TLS_CIPHER_BUF_SIZE`. -/
abbrev tlsCipherBufSize : ℕ := 16384

/-- How a call of wolfSSL ends. -/
inductive WolfRet (α : Type) where
  | success (a : α)
  /-- `WOLFSSL_ERROR_WANT_READ` or `WOLFSSL_ERROR_WANT_WRITE`. -/
  | want
  | failure
  deriving DecidableEq, Repr

/-- A call of wolfSSL: its state after it, how much it has read through
`tls_ioh_recv_cb`, what it has written through `tls_ioh_send_cb`, and how it
ends. -/
structure WolfCall (τ α : Type) where
  ssl : τ
  consumed : ℕ
  out : Bytes
  ret : WolfRet α

/-- wolfSSL. A call gets the ciphertext there is to read and the room there is
to write; `τ` is the state of a session. -/
structure Wolf (τ : Type) where
  /-- `wolfSSL_new` and the set-up of the `n`-th session, which may fail. -/
  new : ℕ → Option τ
  accept : τ → Bytes → ℕ → WolfCall τ Unit
  /-- The plaintext, of at most the requested length. -/
  read : τ → Bytes → ℕ → ℕ → WolfCall τ Bytes
  /-- How many bytes of the plaintext it has taken. -/
  write : τ → Bytes → ℕ → Bytes → WolfCall τ ℕ

/-- `ioh_tls_conn_t`. -/
structure TlsConn (τ : Type) where
  ssl : τ
  cipherIn : Bytes
  cipherOut : Bytes
  handshakeDone : Bool
  deriving DecidableEq

variable {τ : Type}

/-- `ioh_tls_conn_create`. -/
def tlsConnCreate (E : Wolf τ) (n : ℕ) : Option (TlsConn τ) :=
  (E.new n).map fun ssl => ⟨ssl, [], [], false⟩

/-- The room in the queue of outgoing ciphertext. -/
def TlsConn.space (t : TlsConn τ) : ℕ := tlsCipherBufSize - t.cipherOut.length

def TlsConn.after {α : Type} (t : TlsConn τ) (call : WolfCall τ α) : TlsConn τ :=
  { t with
    ssl := call.ssl
    cipherIn := t.cipherIn.drop call.consumed
    cipherOut := t.cipherOut ++ call.out.take t.space }

/-- `ioh_tls_feed_input`. -/
def tlsFeedInput (t : TlsConn τ) (data : Bytes) : TlsConn τ × ℤ :=
  if tlsCipherBufSize - t.cipherIn.length < data.length then (t, -ENOMEM)
  else ({ t with cipherIn := t.cipherIn ++ data }, 0)

/-- `ioh_tls_handshake`. -/
def tlsHandshake (E : Wolf τ) (t : TlsConn τ) : TlsConn τ × ℤ :=
  if t.handshakeDone then (t, 0)
  else
    let call := E.accept t.ssl t.cipherIn t.space
    match call.ret with
    | .success _ => ({ t.after call with handshakeDone := true }, 0)
    | .want => (t.after call, -EAGAIN)
    | .failure => (t.after call, - EIO)

/-- `ioh_tls_read`. -/
def tlsRead (E : Wolf τ) (t : TlsConn τ) (len : ℕ) : TlsConn τ × Except ℤ Bytes :=
  let call := E.read t.ssl t.cipherIn t.space len
  match call.ret with
  | .success [] => (t.after call, .error (- EIO))
  | .success (c :: cs) => (t.after call, .ok ((c :: cs).take len))
  | .want => (t.after call, .error (-EAGAIN))
  | .failure => (t.after call, .error (- EIO))

/-- `ioh_tls_write`: how much was written, or an error. -/
def tlsWrite (E : Wolf τ) (t : TlsConn τ) (data : Bytes) : TlsConn τ × ℤ :=
  let call := E.write t.ssl t.cipherIn t.space data
  match call.ret with
  | .success 0 => (t.after call, - EIO)
  | .success (n + 1) => (t.after call, n + 1)
  | .want => (t.after call, -EAGAIN)
  | .failure => (t.after call, - EIO)

/-- `ioh_tls_consume_output`. -/
def tlsConsumeOutput (t : TlsConn τ) (len : ℕ) : TlsConn τ :=
  { t with cipherOut := t.cipherOut.drop len }

end Iohttp
