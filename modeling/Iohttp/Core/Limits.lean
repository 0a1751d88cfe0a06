/-
# Requests within the limits

The server has three limits: the receive buffer of a connection, and
`max_header_size` and `max_body_size` of its configuration. The header limit is
compared with everything that is in the buffer, body included, so a request is
served if its head and its body together are within `max_header_size`. A larger
one is answered 431, although its head is within the header limit and its body
within the body limit.

The body limit and the end of a request are computed from the length that the
parser has stored. It is a 64-bit number, and a longer one is cut to its last
64 bits without an error.
-/
import Iohttp.Core.Segments
import Iohttp.Http.Smuggling
import Iohttp.Lib.Decimal

namespace Iohttp

open Runs List

variable {ω τ : Type} {k : ℕ}

/-- A request that is all that a client sends is dispatched once, when it has
arrived; until then there is room for more of it, and what comes of it is not
answered 413 or 431. -/
structure ServedAlone (env : Env ω τ) (m : Message) (k : ℕ) (w : Work ω τ) : Prop where
  once : dispatched (ownActs k w.trace) <+: [m.request]
  complete : received (ownActs k w.trace) = m.bytes → dispatched (ownActs k w.trace) = [m.request]
  room : w.conn.Live → (received (ownActs k w.trace)).length < m.bytes.length →
    ∀ op ∈ w.ring.own k, op.code = .recv → 0 < op.len
  admitted : ∀ cqe : Cqe, w.conn.Live → cqe.op ∈ w.ring.own k → cqe.op.code = .recv → cqe.WellFormed →
    0 < cqe.res → received (ownActs k w.trace) ++ cqe.data <+: m.bytes → ∀ w' status msg,
    recvOutcome env (w.retire cqe) cqe = .reject w' status msg → status ≠ 413 ∧ status ≠ 431

theorem stream_singleton (m : Message) : stream [m] = m.bytes := by simp [stream]

variable {m : Message} {acts : List Act} {env : Env ω τ}

theorem InStep.singleton (hte : transferEncodings m.req = []) {data : Bytes}
    (hf : received acts ++ data <+: m.bytes) : InStep [m] acts data := by
  refine .of_apart (by simpa using hte) (by rwa [stream_singleton]) fun i m' hm => ?_
  obtain ⟨hi, rfl⟩ := List.getElem?_eq_some_iff.mp hm
  have hlen := hf.length_le
  rw [length_append] at hlen
  simp only [length_singleton, Nat.lt_one_iff] at hi
  subst hi
  simp only [getElem_cons_zero]
  omega

theorem Progress.short_of_lt {n : ℕ} {cur : Bytes} (h : Progress [m] acts n cur)
    (hlt : (Iohttp.received acts).length < m.bytes.length) : cur.length < m.bytes.length := by
  rw [h.received, length_append] at hlt
  omega

theorem Reads.servedAlone (hte : transferEncodings m.req = [])
    (hbuf : env.config.maxHeaderSize ≤ recvBufSize) (hlim : WithinLimits env [m]) {w : Work ω τ}
    (h : Reads True False [m] k w) : ServedAlone env m k w := by
  obtain ⟨n, cur, hp, hphase⟩ := h.phase
  refine ⟨hp.inOrder, fun hr => ?_, fun hl hlt op hop hc => ?_, ?_⟩
  · have hone := hp.complete trivial (show 1 ≤ [m].length from le_rfl) (by
      rw [hr, take_of_length_le (by simp), stream_singleton])
    exact (prefix_iff_eq_take.mp hp.inOrder).trans (take_of_length_le (by simpa using hone))
  · have hmem : op ∈ w.ring.data k := mem_data.mpr ⟨hop, .inl hc⟩
    have hcur := hp.toProgress.short_of_lt hlt
    have hsize := (hlim m (mem_singleton_self m)).1
    cases hphase with
    | reading op' _ _ _ _ _ data _ _ room =>
      rw [data, mem_singleton] at hmem
      rw [hmem, room]
      omega
    | sending op' _ _ _ data code =>
      rw [data, mem_singleton] at hmem
      rw [hmem, code] at hc
      cases hc
    | ended _ ends => exact absurd hc ((ends hl).2.1 op hmem)
  · intro cqe hl hm hc hwf hres hf w' status msg hout
    obtain ⟨n, m', u, hmsg, hu, _, hhold, hhttp⟩ := h.receive env hl hm hc hwf hres (.singleton hte hf)
    exact absurd (hhttp ▸ hout) (hhold.not_reject hmsg hu hlim w' status msg)

/-- **A request whose head and body are together within the header limit is
served, in whatever pieces it comes.** -/
theorem request_served_alone {env : Env ω τ} (htls : env.tls = false)
    (hproxy : env.config.proxyProtocol = false) (hbuf : env.config.maxHeaderSize ≤ recvBufSize)
    {m : Message}
    (hte : transferEncodings m.req = []) (hbody : m.req.contentLength ≤ env.config.maxBodySize)
    (hsum : m.hdrLen + m.req.contentLength ≤ env.config.maxHeaderSize) {maxConns : ℕ}
    {listenFd signalFd : ℤ} {world : ω} {s : Machine ω τ}
    (h : Reaches (Machine.next env) (LaneStep env k (anyPieces [m] k))
      (Machine.start maxConns listenFd signalFd world) s) (hk : k < s.srv.pool.serial) :
    ServedAlone env m k (s.srv.lane k) := by
  have hlim : WithinLimits env [m] := by
    have hsize : m.bytes.length ≤ env.config.maxHeaderSize := by
      rw [← m.total_eq hte]
      exact hsum
    simpa [WithinLimits] using ⟨hsize, hbody⟩
  refine Reads.servedAlone hte hbuf hlim ?_
  refine reads_of_run htls hproxy (fun _ => hlim) False.elim (fun _ _ => False.elim) ?_ (fun _ =>
    id) h hk
  intro w cqe hc
  refine ⟨fun hrecv hres => .singleton hte ?_, False.elim⟩
  have := hc hrecv hres
  rwa [stream_singleton] at this

/-- A small header limit, and a request with a body that is larger than it. -/
def smallHeaderEnv : Env Unit Unit := { plainEnv with config := { configInit with maxHeaderSize := 64 } }

def postBytes : Bytes :=
  bytes "POST / HTTP/1.1\r\nHost: a\r\nContent-Length: 20\r\n\r\n01234567890123456789"

def postMessage : Message := (Message.ofBytes postBytes).get (by decide +kernel)

/-- It is served with the default limit. -/
theorem request_served_alone_post :
    ∃ s : Machine Unit Unit, dispatched (ownActs 0 s.srv.trace) = [postMessage.request] ∧
      ServedAlone plainEnv postMessage 0 (s.srv.lane 0) := by
  obtain ⟨s, hs, hd, hk⟩ := exists_reaches (Machine.next plainEnv)
    (LaneStep plainEnv 0 (anyPieces [postMessage] 0)) (Machine.start 4 3 9 ())
    (connectEvents ++ recvEvents postBytes)
    (fun s => dispatched (ownActs 0 s.srv.trace) = [postMessage.request] ∧ 0 < s.srv.pool.serial)
    (by unfold anyPieces; decide +kernel)
  exact ⟨s, hd, request_served_alone rfl rfl (by decide) (by decide +kernel)
    (by decide +kernel) (by decide +kernel) hs hk⟩

/-- With a limit of 64 bytes, its head of 48 bytes and its body of 20 bytes are
answered 431. -/
theorem request_within_limits_refused :
    ¬∀ (env : Env Unit Unit) (m : Message) (k maxConns : ℕ) (listenFd signalFd : ℤ)
    (s : Machine Unit Unit),
      env.tls = false → env.config.proxyProtocol = false → env.config.maxHeaderSize ≤ recvBufSize →
      transferEncodings m.req = [] → m.hdrLen ≤ env.config.maxHeaderSize →
      m.req.contentLength ≤ env.config.maxBodySize →
      Reaches (Machine.next env) (LaneStep env k (delivery [m] k))
      (Machine.start maxConns listenFd signalFd ())
        s → k < s.srv.pool.serial → ServedAlone env m k (s.srv.lane k) := by
  intro h
  obtain ⟨s, hs, hd, hk, hrec⟩ := exists_reaches (Machine.next smallHeaderEnv)
    (LaneStep smallHeaderEnv 0 (delivery [postMessage] 0)) (Machine.start 4 3 9 ())
    (connectEvents ++ recvEvents postBytes)
    (fun s => dispatched (ownActs 0 s.srv.trace) = [] ∧ 0 < s.srv.pool.serial ∧
      received (ownActs 0 s.srv.trace) = postMessage.bytes)
    (by unfold delivery; decide +kernel)
  have hserved :=
    h smallHeaderEnv _ 0 4 3 9 s rfl rfl (by decide) (by decide +kernel) (by decide +kernel)
    (by decide +kernel) hs hk
  have := hserved.complete hrec
  rw [show dispatched (ownActs 0 (s.srv.lane 0).trace) = [] from hd] at this
  cases this

def decimal (digits : Bytes) : ℕ := Decimal.number 10 (digits.map fun c => (c - 48).toNat)

theorem parseContentLength_eq (value : Bytes) : parseContentLength value = decimal value % 2 ^ 64 := by
  -- the accumulators of both loops agree modulo `2 ^ 64`
  have hloop : ∀ (digits : Bytes) (a b : ℕ), a = b % 2 ^ 64 →
      digits.foldl (fun result c => (result * 10 + (c - 48).toNat) % 2 ^ 64) a =
        digits.foldl (fun n c => n * 10 + (c - 48).toNat) b % 2 ^ 64 := by
    intro digits
    induction digits with
    | nil => exact fun a b h => h
    | cons c digits ih =>
      intro a b h
      refine ih _ _ ?_
      show (a * 10 + (c - 48).toNat) % 2 ^ 64 = (b * 10 + (c - 48).toNat) % 2 ^ 64
      omega
  rw [decimal, Decimal.number_eq_foldl, List.foldl_map]
  exact hloop value 0 0 rfl

theorem onHttp_dispatch {w w' : Work ω τ} {req req' : Request} {n total : ℕ}
    (hp : http1ParseRequest w.conn.buf = .ok (req, n)) (h : onHttp env w = .dispatch w' req' total) :
    total = n + req.contentLength ∧ total ≤ w.conn.recvLen := by
  have hhead : n ≤ w.conn.recvLen := by
    refine (http1ParseRequest_le hp).trans ?_
    rw [Conn.buf, length_take]
    exact Nat.min_le_left _ _
  unfold onHttp at h
  split_ifs at h
  simp only [hp, onRequest] at h
  split_ifs at h with _ hbody
  cases h
  refine ⟨rfl, ?_⟩
  rcases Nat.eq_zero_or_pos req.contentLength with hz | hpos
  · omega
  · have := not_and.mp hbody hpos
    have : (w.note (.parsed w.conn.serial w.conn.buf)).conn.recvLen = w.conn.recvLen := rfl
    omega

/-- The length that is stored for the request in the buffer is the number that
was written, and its sum with the length of the head, in 64 bits, is the end of
the request among the bytes that were received. -/
structure LengthExact (ω τ : Type) (buf : Bytes) (req : Request) (n number : ℕ) : Prop where
  stored : req.contentLength = number
  sum : ∀ (env : Env ω τ) (w w' : Work ω τ) (req' : Request) (total : ℕ), w.conn.buf = buf →
    w.conn.recvLen < 2 ^ 64 → onHttp env w = .dispatch w' req' total →
      (n + req.contentLength) % 2 ^ 64 = n + number ∧ total = n + number ∧ total ≤ w.conn.recvLen

/-- **The stored length is exact below `2 ^ 64`.** For every request that is
accepted with a `Content-Length`, the length that is stored, and the end that
is computed from it, are those of the number that was written exactly if that
is below `2 ^ 64`. -/
theorem length_exact_iff (ω τ : Type) {buf : Bytes} {req : Request} {n : ℕ}
    (h : http1ParseRequest buf = .ok (req, n)) {hd : Header} (hmem : hd ∈ req.headers)
    (hname : isLength hd = true) :
    LengthExact ω τ buf req n (decimal hd.value.bytes) ↔ decimal hd.value.bytes < 2 ^ 64 := by
  obtain ⟨s, hscan, hlen, _⟩ := scanned_of_ok h
  have hstored : req.contentLength = decimal hd.value.bytes % 2 ^ 64 := by
    rw [hlen, (hscan.length hd hmem hname).2, parseContentLength_eq]
  constructor
  · intro he
    rw [← he.stored, hstored]
    exact Nat.mod_lt _ (by positivity)
  · intro hlt
    rw [Nat.mod_eq_of_lt hlt] at hstored
    refine ⟨hstored, fun env w w' req' total hbuf hroom hd' => ?_⟩
    obtain ⟨htotal, hle⟩ := onHttp_dispatch (hbuf ▸ h) hd'
    rw [← hstored]
    exact ⟨Nat.mod_eq_of_lt (by omega), htotal, hle⟩

/-- The length of the request with a body of 20 bytes. -/
theorem length_exact_post :
    ∃ hd ∈ postMessage.req.headers, isLength hd = true ∧ decimal hd.value.bytes = 20 ∧
      LengthExact Unit Unit postBytes postMessage.req postMessage.hdrLen 20 := by
  have hex : ∃ hd ∈ postMessage.req.headers, isLength hd = true ∧ decimal hd.value.bytes = 20 := by
    decide +kernel
  obtain ⟨hd, hmem, hname, hnum⟩ := hex
  have hbytes : postMessage.bytes = postBytes := by decide +kernel
  refine ⟨hd, hmem, hname, hnum, ?_⟩
  rw [← hnum]
  exact (length_exact_iff Unit Unit (hbytes ▸ postMessage.parsed) hmem hname).mpr (by rw [hnum]; decide)

/-- A length of `2 ^ 64`. -/
def hugeRequest : Bytes :=
  bytes "POST / HTTP/1.1\r\nHost: a\r\nContent-Length: 18446744073709551616\r\n\r\n"

/-- It is accepted, and stored as 0. -/
theorem huge_length_accepted :
    ¬∀ (buf : Bytes) (req : Request) (n : ℕ), http1ParseRequest buf = .ok (req, n) →
      ∀ hd ∈ req.headers, isLength hd = true → decimal hd.value.bytes < 2 ^ 64 ∧
        LengthExact Unit Unit buf req n (decimal hd.value.bytes) := by
  intro h
  have haccepted : ((http1ParseRequest hugeRequest).toOption.any fun r => r.1.contentLength = 0 ∧
      ∃ hd ∈ r.1.headers, isLength hd = true ∧ decimal hd.value.bytes = 2 ^ 64) =
      true := by decide +kernel
  rw [Option.any_eq_true] at haccepted
  obtain ⟨⟨req, n⟩, hok, hp⟩ := haccepted
  obtain ⟨_, hd, hmem, hname, hnum⟩ := of_decide_eq_true hp
  have hparse : http1ParseRequest hugeRequest = .ok (req, n) := by
    cases hr : http1ParseRequest hugeRequest with
    | error e => simp [hr, Except.toOption] at hok
    | ok r => simpa [hr, Except.toOption] using hok
  have hlt := (h hugeRequest req n hparse hd hmem hname).1
  omega

end Iohttp
