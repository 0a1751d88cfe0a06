/-
# Connections and their pool

`src/core/ioh_conn.c`: the states of a connection and the pool of slots. A
connection also has a serial number, which the source does not keep: it counts
the allocations and, other than the 32-bit `id`, is never used again. Memory
allocation succeeds here.
-/
import Iohttp.Http.Proxy
import Iohttp.Tls.Tls

namespace Iohttp

open List

/-- `ioh_conn_state_t`. -/
inductive ConnState where
  | free
  | accepting
  | proxyHeader
  | tlsHandshake
  | httpActive
  | websocket
  | sse
  | quic
  | draining
  | closing
  deriving DecidableEq, Repr

/-- `valid_transitions`; there is none from `closing`. -/
def validTransitions : ConnState → List ConnState
  | .free => [.accepting]
  | .accepting => [.proxyHeader, .tlsHandshake, .httpActive, .closing]
  | .proxyHeader => [.tlsHandshake, .httpActive, .closing]
  | .tlsHandshake => [.httpActive, .closing]
  | .httpActive => [.websocket, .sse, .draining, .closing]
  | .websocket => [.draining, .closing]
  | .sse => [.draining, .closing]
  | .quic => []
  | .draining => [.closing]
  | .closing => []

/-- `ioh_timeout_phase_t`. -/
inductive TimeoutPhase where
  | none
  | header
  | body
  | keepalive
  deriving DecidableEq, Repr

/-- `IOH_CONN_RECV_BUF_SIZE`. -/
abbrev recvBufSize : ℕ := 8192

/-- `ioh_conn_t`. `recvBuf` is the memory of the receive buffer, of which the
first `recvLen` bytes are in use; `send_len` is the length of `sendBuf`. -/
structure Conn (τ : Type) where
  fd : ℤ
  state : ConnState
  id : ℕ
  serial : ℕ
  proxyAddr : SockAddr
  proxyUsed : Bool
  tls : Option (TlsConn τ)
  recvBuf : Bytes
  recvLen : ℕ
  sendBuf : Bytes
  sendOffset : ℕ
  sendActive : Bool
  keepAlive : Bool
  tlsDone : Bool
  timeoutPhase : TimeoutPhase
  routeBodyTimeoutMs : ℕ
  routeKeepaliveTimeoutMs : ℕ
  deriving DecidableEq

variable {τ : Type}

/-- A slot after `memset`, with `fd = -1`. -/
def freeConn : Conn τ where
  fd := -1
  state := .free
  id := 0
  serial := 0
  proxyAddr := .zero
  proxyUsed := false
  tls := none
  recvBuf := []
  recvLen := 0
  sendBuf := []
  sendOffset := 0
  sendActive := false
  keepAlive := false
  tlsDone := false
  timeoutPhase := .none
  routeBodyTimeoutMs := 0
  routeKeepaliveTimeoutMs := 0

/-- `ioh_conn_transition`. -/
def connTransition (c : Conn τ) (new : ConnState) : Conn τ × ℤ :=
  if new ∈ validTransitions c.state then ({ c with state := new }, 0) else (c, -EINVAL)

/-- The connection is in use. -/
def Conn.Live (c : Conn τ) : Prop := c.state ≠ .free
  deriving Decidable

/-- `ioh_conn_pool_t`, with the number of allocations so far. -/
structure Pool (τ : Type) where
  conns : List (Conn τ)
  activeCount : ℕ
  nextId : ℕ
  serial : ℕ
  deriving DecidableEq

/-- `ioh_conn_pool_create`. -/
def connPoolCreate (maxConns : ℕ) : Pool τ := ⟨List.replicate maxConns freeConn, 0, 1, 0⟩

/-- A slot after `ioh_conn_alloc`; its buffer has what the memory had. -/
def allocConn (id serial : ℕ) (memory : Bytes) : Conn τ :=
  { freeConn with state := .accepting, id := id, serial := serial, recvBuf := memory }

/-- `ioh_conn_alloc`: the first slot that is free. -/
def connAlloc (p : Pool τ) (memory : Bytes) : Option (Pool τ × ℕ) :=
  (p.conns.findIdx? fun c => c.state = .free).map fun i =>
    (⟨p.conns.set i (allocConn p.nextId p.serial memory), p.activeCount + 1, (p.nextId + 1) % 2 ^ 32,
      p.serial + 1⟩, i)

/-- `find_conn_by_id` of `src/core/ioh_server.c`. -/
def findConnById (p : Pool τ) (id : ℕ) : Option ℕ :=
  p.conns.findIdx? fun c => c.state ≠ .free ∧ c.id = id

/-! ### Slots -/

/-- No two connections in use have the same `f`. -/
def LiveDistinct (f : Conn τ → ℕ) (conns : List (Conn τ)) : Prop :=
  ∀ (i j : ℕ) (c d : Conn τ), conns[i]? = some c → conns[j]? = some d → c.Live → d.Live →
  f c = f d → i = j

variable {p : Pool τ} {c x : Conn τ}

theorem findConnById_some {id i : ℕ} (h : findConnById p id = some i) :
    ∃ c, p.conns[i]? = some c ∧ c.Live ∧ c.id = id := by
  obtain ⟨hi, hc, _⟩ := findIdx?_eq_some_iff_getElem.mp h
  exact ⟨_, getElem?_eq_getElem hi, of_decide_eq_true hc⟩

theorem findConnById_none {id : ℕ} (h : findConnById p id = none)
    (hc : c ∈ p.conns) (hl : c.Live) : c.id ≠ id := by
  intro hid
  have := findIdx?_eq_none_iff.mp h c hc
  simp only [decide_eq_false_iff_not] at this
  exact this ⟨hl, hid⟩

variable {conns : List (Conn τ)}

theorem getElem?_set_cases {i j : ℕ} {d : Conn τ}
    (h : (conns.set i x)[j]? = some d) : (j = i ∧ d = x) ∨ (j ≠ i ∧ conns[j]? = some d) := by
  rw [getElem?_set] at h
  split_ifs at h with hij hlt
  · exact .inl ⟨hij.symm, (Option.some.inj h).symm⟩
  · exact .inr ⟨fun he => hij he.symm, h⟩

variable {i : ℕ} {f : Conn τ → ℕ}

theorem LiveDistinct.set (h : LiveDistinct f conns)
    (hx : x.Live → ∀ j d, j ≠ i → conns[j]? = some d → d.Live → f d ≠ f x) :
    LiveDistinct f (conns.set i x) := by
  intro j k c d hc hd hcl hdl he
  rcases getElem?_set_cases hc with ⟨hj, hcx⟩ | ⟨hj, hc'⟩
  · rcases getElem?_set_cases hd with ⟨hk, _⟩ | ⟨hk, hd'⟩
    · rw [hj, hk]
    · rw [hcx] at hcl he
      exact absurd he.symm (hx hcl k d hk hd' hdl)
  · rcases getElem?_set_cases hd with ⟨hk, hdx⟩ | ⟨_, hd'⟩
    · rw [hdx] at hdl he
      exact absurd he (hx hdl j c hj hc' hcl)
    · exact h j k c d hc' hd' hcl hdl he

theorem LiveDistinct.replace (h : LiveDistinct f conns) (hc : conns[i]? = some c) (hcl : c.Live)
    (hx : x.Live → f x = f c) : LiveDistinct f (conns.set i x) := by
  refine h.set fun hl j d hj hd hdl he => hj ?_
  exact h j i d c hd hc hdl hcl (he.trans (hx hl))

/-- The connections change, but neither their `f` nor whether they are in
use. -/
theorem LiveDistinct.map (h : LiveDistinct f conns) {g : Conn τ → Conn τ}
    (hg : ∀ c, (g c).Live → c.Live ∧ f (g c) = f c) : LiveDistinct f (conns.map g) := by
  intro i j c d hc hd hcl hdl he
  rw [getElem?_map, Option.map_eq_some_iff] at hc hd
  obtain ⟨c, hc, rfl⟩ := hc
  obtain ⟨d, hd, rfl⟩ := hd
  refine h i j c d hc hd (hg c hcl).1 (hg d hdl).1 ?_
  rw [← (hg c hcl).2, ← (hg d hdl).2, he]

theorem LiveDistinct.tail (h : LiveDistinct f (c :: conns)) : LiveDistinct f conns := by
  intro i j d e hd he hdl hel heq
  have := h (i + 1) (j + 1) d e (by simpa using hd) (by simpa using he) hdl hel heq
  omega

theorem connAlloc_some {p' : Pool τ} {memory : Bytes} (h : connAlloc p memory = some (p', i)) :
    (∃ c, p.conns[i]? = some c ∧ ¬c.Live) ∧
      p' = ⟨p.conns.set i (allocConn p.nextId p.serial memory), p.activeCount + 1,
        (p.nextId + 1) % 2 ^ 32, p.serial + 1⟩ := by
  unfold connAlloc at h
  rw [Option.map_eq_some_iff] at h
  obtain ⟨k, hk, he⟩ := h
  cases he
  obtain ⟨hi, hc, _⟩ := findIdx?_eq_some_iff_getElem.mp hk
  exact ⟨⟨_, getElem?_eq_getElem hi, not_not.mpr (of_decide_eq_true hc)⟩, rfl⟩

/-- The serial number and the id of a connection that has been allocated. -/
def IdOf (n serial id : ℕ) : Prop := serial < n ∧ id = (serial + 1) % 2 ^ 32

theorem IdOf.mono {n m serial id : ℕ} (h : IdOf n serial id) (hn : n ≤ m) : IdOf m serial id :=
  ⟨h.1.trans_le hn, h.2⟩

/-- While fewer than `2 ^ 32` connections were allocated, the id tells which
one it is. -/
theorem IdOf.inj {n a b id : ℕ} (hn : n < 2 ^ 32) (ha : IdOf n a id) (hb : IdOf n b id) : a = b := by
  have ha' := ha.2
  rw [Nat.mod_eq_of_lt (by have := ha.1; omega)] at ha'
  have hb' := hb.2
  rw [Nat.mod_eq_of_lt (by have := hb.1; omega)] at hb'
  omega

end Iohttp
