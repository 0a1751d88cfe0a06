/-
# The ciphertext buffers

`src/tls/ioh_tls.c` keeps received ciphertext in `cipher_in_buf`, unread from
`cipher_in_pos` to `cipher_in_len`, and ciphertext to be sent in the first
`cipher_out_len` bytes of `cipher_out_buf`. wolfSSL reads and writes through two
callbacks, with sizes that are `int`; the server feeds, looks and consumes. Each
buffer moves its bytes to the front in its own way.

Every access is to a buffer of 16384 bytes: one outside of it has no result. A
difference of two sizes is taken modulo 2^64.
-/
import Iohttp.Tls.Tls
import Iohttp.Lib.Memory
import Iohttp.Lib.Refinement

namespace Iohttp

open List hiding Vector
open Memory (fetch store overwrite)
open Refinement (trace specTrace results Refines)

/-! ### The buffers -/

/-- `(size_t)sz`. -/
def toSize (sz : ℤ) : ℕ := (sz % 2 ^ 64).toNat

/-- The difference of two sizes. -/
def sizeSub (a b : ℕ) : ℕ := (a + (2 ^ 64 - b)) % 2 ^ 64

/-- `WOLFSSL_CBIO_ERR_WANT_READ` and `WOLFSSL_CBIO_ERR_WANT_WRITE`. -/
abbrev cbioWant : ℤ := -2

/-- The buffers of `ioh_tls_conn_t`. -/
structure TlsBuffers where
  inBuf : Bytes
  inPos : ℕ
  inLen : ℕ
  inCap : ℕ
  outBuf : Bytes
  outLen : ℕ
  outCap : ℕ
  deriving DecidableEq

/-- What a call returns, and the bytes that it hands over. -/
structure TlsResult where
  rc : ℤ
  data : Bytes
  deriving DecidableEq

namespace TlsBuffers

/-- The buffers of `ioh_tls_conn_create`, with whatever is in them. -/
def create (a b : Vector UInt8 tlsCipherBufSize) : TlsBuffers where
  inBuf := a.toList
  inPos := 0
  inLen := 0
  inCap := tlsCipherBufSize
  outBuf := b.toList
  outLen := 0
  outCap := tlsCipherBufSize

/-- `tls_ioh_recv_cb`. -/
def recvCb (s : TlsBuffers) (sz : ℤ) : Option (TlsBuffers × TlsResult) :=
  let avail := sizeSub s.inLen s.inPos
  if avail = 0 then some (s, ⟨cbioWant, []⟩)
  else
    let toCopy := if toSize sz < avail then toSize sz else avail
    (fetch s.inBuf s.inPos toCopy).map fun data =>
      let pos := s.inPos + toCopy
      -- the buffer starts again when all of it has been read
      (if pos = s.inLen then { s with inPos := 0, inLen := 0 } else { s with inPos := pos },
        ⟨toCopy, data⟩)

/-- `tls_ioh_send_cb`: `buf` is what wolfSSL points to. -/
def sendCb (s : TlsBuffers) (buf : ℕ → UInt8) (sz : ℤ) : Option (TlsBuffers × TlsResult) :=
  let space := sizeSub s.outCap s.outLen
  if space = 0 then some (s, ⟨cbioWant, []⟩)
  else
    let toCopy := if toSize sz < space then toSize sz else space
    let data := (range toCopy).map buf
    (store s.outBuf s.outLen data).map fun b =>
      ({ s with outBuf := b, outLen := s.outLen + toCopy }, ⟨toCopy, data⟩)

/-- The unread bytes of `cipher_in_buf` are moved to its front. -/
def compactIn (s : TlsBuffers) : Option TlsBuffers :=
  if s.inPos > 0 ∧ s.inLen > s.inPos then
    let remaining := sizeSub s.inLen s.inPos
    (fetch s.inBuf s.inPos remaining).bind fun data =>
      (store s.inBuf 0 data).map fun b => { s with inBuf := b, inLen := remaining, inPos := 0 }
  else if s.inPos > 0 then some { s with inLen := 0, inPos := 0 }
  else some s

/-- `ioh_tls_feed_input`. -/
def feedInput (s : TlsBuffers) (data : Bytes) : Option (TlsBuffers × TlsResult) :=
  if data.length = 0 then some (s, ⟨0, []⟩)
  else
    s.compactIn.bind fun s =>
      let space := sizeSub s.inCap s.inLen
      if data.length > space then some (s, ⟨-ENOMEM, []⟩)
      else
        (store s.inBuf s.inLen data).map fun b =>
          ({ s with inBuf := b, inLen := s.inLen + data.length }, ⟨0, []⟩)

/-- `ioh_tls_get_output`. -/
def getOutput (s : TlsBuffers) : Option (TlsBuffers × TlsResult) :=
  (fetch s.outBuf 0 s.outLen).map fun data => (s, ⟨0, data⟩)

/-- `ioh_tls_consume_output`. -/
def consumeOutput (s : TlsBuffers) (len : ℕ) : Option (TlsBuffers × TlsResult) :=
  if len = 0 then some (s, ⟨0, []⟩)
  else if len ≥ s.outLen then some ({ s with outLen := 0 }, ⟨0, []⟩)
  else
    let remaining := sizeSub s.outLen len
    (fetch s.outBuf len remaining).bind fun data =>
      (store s.outBuf 0 data).map fun b => ({ s with outBuf := b, outLen := remaining }, ⟨0, []⟩)

end TlsBuffers

/-- A call of the server or of wolfSSL. -/
inductive TlsEvent where
  | feed (data : Bytes)
  | recv (sz : ℤ)
  | send (buf : ℕ → UInt8) (sz : ℤ)
  | output
  | consume (len : ℕ)

/-- One call. -/
def TlsBuffers.event (s : TlsBuffers) : TlsEvent → Option (TlsBuffers × TlsResult)
  | .feed data => s.feedInput data
  | .recv sz => s.recvCb sz
  | .send buf sz => s.sendCb buf sz
  | .output => s.getOutput
  | .consume len => s.consumeOutput len

/-! ### Two queues -/

/-- What the buffers are for: a queue of ciphertext in each direction. -/
structure TlsQueues where
  input : Bytes
  output : Bytes
  deriving DecidableEq

/-- One call, on queues of 16384 bytes. -/
def TlsQueues.step (q : TlsQueues) : TlsEvent → TlsQueues × TlsResult
  | .feed data =>
    if data.length > tlsCipherBufSize - q.input.length then (q, ⟨-ENOMEM, []⟩)
    else ({ q with input := q.input ++ data }, ⟨0, []⟩)
  | .recv sz =>
    if q.input = [] then (q, ⟨cbioWant, []⟩)
    else ({ q with input := q.input.drop (toSize sz) },
      ⟨(q.input.take (toSize sz)).length, q.input.take (toSize sz)⟩)
  | .send buf sz =>
    let space := tlsCipherBufSize - q.output.length
    if space = 0 then (q, ⟨cbioWant, []⟩)
    else
      let data := (range (min (toSize sz) space)).map buf
      ({ q with output := q.output ++ data }, ⟨data.length, data⟩)
  | .output => (q, ⟨0, q.output⟩)
  | .consume len => ({ q with output := q.output.drop len }, ⟨0, []⟩)

variable {q : TlsQueues} {data : Bytes}

theorem TlsQueues.step_feed_full (h : data.length > tlsCipherBufSize - q.input.length) :
    q.step (.feed data) = (q, ⟨-ENOMEM, []⟩) := if_pos h

theorem TlsQueues.step_feed (h : ¬data.length > tlsCipherBufSize - q.input.length) :
    q.step (.feed data) = (⟨q.input ++ data, q.output⟩, ⟨0, []⟩) := if_neg h

theorem TlsQueues.step_recv_empty (sz : ℤ) (h : q.input = []) :
    q.step (.recv sz) = (q, ⟨cbioWant, []⟩) := if_pos h

theorem TlsQueues.step_recv (sz : ℤ) (h : q.input ≠ []) :
    q.step (.recv sz) = (⟨q.input.drop (toSize sz), q.output⟩,
      ⟨(q.input.take (toSize sz)).length, q.input.take (toSize sz)⟩) := if_neg h

theorem TlsQueues.step_send_full (buf : ℕ → UInt8) (sz : ℤ)
    (h : tlsCipherBufSize - q.output.length = 0) :
    q.step (.send buf sz) = (q, ⟨cbioWant, []⟩) := if_pos h

theorem TlsQueues.step_send (buf : ℕ → UInt8) (sz : ℤ) (h : tlsCipherBufSize - q.output.length ≠ 0) :
    q.step (.send buf sz) =
      (⟨q.input, q.output ++ (range (min (toSize sz) (tlsCipherBufSize - q.output.length))).map
        buf⟩,
        ⟨((range (min (toSize sz) (tlsCipherBufSize - q.output.length))).map buf).length,
          (range (min (toSize sz) (tlsCipherBufSize - q.output.length))).map buf⟩) := if_neg h

theorem TlsQueues.recv_split (q : TlsQueues) (sz : ℤ) :
    (q.step (.recv sz)).2.data ++ (q.step (.recv sz)).1.input = q.input ∧
    (q.step (.recv sz)).1.output = q.output := by
  by_cases h : q.input = []
  · rw [step_recv_empty sz h]
    exact ⟨rfl, rfl⟩
  · rw [step_recv sz h]
    exact ⟨take_append_drop _ _, rfl⟩

theorem TlsQueues.send_split (q : TlsQueues) (buf : ℕ → UInt8) (sz : ℤ) :
    (q.step (.send buf sz)).1.output = q.output ++ (q.step (.send buf sz)).2.data ∧
      (q.step (.send buf sz)).1.input = q.input := by
  by_cases h : tlsCipherBufSize - q.output.length = 0
  · rw [step_send_full buf sz h]
    exact ⟨(append_nil _).symm, rfl⟩
  · rw [step_send buf sz h]
    exact ⟨rfl, rfl⟩

/-- The bytes of `cipher_in_buf` that were not read yet. -/
def TlsBuffers.unread (s : TlsBuffers) : Bytes := (s.inBuf.drop s.inPos).take (s.inLen - s.inPos)

/-- The bytes of `cipher_out_buf`. -/
def TlsBuffers.pending (s : TlsBuffers) : Bytes := s.outBuf.take s.outLen

def TlsBuffers.queues (s : TlsBuffers) : TlsQueues := ⟨s.unread, s.pending⟩

/-- The indices are inside the buffers. -/
structure TlsBuffers.Within (s : TlsBuffers) : Prop where
  inPos : s.inPos ≤ s.inLen
  inLen : s.inLen ≤ s.inCap
  outLen : s.outLen ≤ s.outCap
  inCap : s.inCap = tlsCipherBufSize
  outCap : s.outCap = tlsCipherBufSize
  inBuf : s.inBuf.length = tlsCipherBufSize
  outBuf : s.outBuf.length = tlsCipherBufSize

/-! ### Each call -/

theorem sizeSub_eq {a b : ℕ} (h : b ≤ a) (ha : a ≤ tlsCipherBufSize) : sizeSub a b = a - b := by
  unfold sizeSub
  simp only [tlsCipherBufSize] at ha
  omega

theorem copySize_eq (n m : ℕ) : (if n < m then n else m) = min n m := by
  split_ifs <;> omega

namespace TlsBuffers

variable {s : TlsBuffers}

section

variable (h : s.Within)

include h

theorem Within.unread_length : s.unread.length = s.inLen - s.inPos := by
  have := h.inLen
  have := h.inCap
  have := h.inBuf
  rw [unread, length_take, length_drop]
  omega

theorem Within.pending_length : s.pending.length = s.outLen := by
  have := h.outLen
  have := h.outCap
  have := h.outBuf
  rw [pending, length_take]
  omega

theorem Within.avail : sizeSub s.inLen s.inPos = s.inLen - s.inPos :=
  sizeSub_eq h.inPos (h.inCap ▸ h.inLen)

theorem Within.recvCb (sz : ℤ) :
    ∃ s', s.recvCb sz = some (s', (s.queues.step (.recv sz)).2) ∧
    s'.Within ∧ s'.queues = (s.queues.step (.recv sz)).1 := by
  have hlen := h.unread_length
  have hfit := h.inLen
  have hcap := h.inCap
  have hbuf := h.inBuf
  unfold TlsBuffers.recvCb
  simp only [h.avail, copySize_eq]
  by_cases hempty : s.inLen - s.inPos = 0
  · have hnil : s.unread = [] := length_eq_zero_iff.mp (hlen.trans hempty)
    rw [if_pos hempty, TlsQueues.step_recv_empty sz hnil]
    exact ⟨s, rfl, h, rfl⟩
  have hne : s.unread ≠ [] := by
    intro hnil
    rw [hnil] at hlen
    exact hempty hlen.symm
  have hdata : (s.inBuf.drop s.inPos).take (min (toSize sz) (s.inLen - s.inPos)) = s.unread.take
      (toSize sz) := by
    rw [unread, take_take]
  have hcount : (s.unread.take (toSize sz)).length = min (toSize sz) (s.inLen - s.inPos) := by
    rw [length_take, hlen]
  rw [if_neg hempty, TlsQueues.step_recv sz hne, Memory.fetch_eq (by omega), Option.map_some, hdata,
    queues, hcount]
  refine ⟨_, rfl, ?_, ?_⟩
  · split_ifs with hall
    · exact { h with inPos := le_rfl, inLen := Nat.zero_le _ }
    · exact { h with inPos := by dsimp only; omega }
  · have hrest : s.unread.drop (toSize sz) =
        (s.inBuf.drop (s.inPos + toSize sz)).take (s.inLen - s.inPos - toSize sz) := by
      rw [unread, drop_take, drop_drop]
    split_ifs with hall
    · have hzero : s.inLen - s.inPos - toSize sz = 0 := by omega
      rw [hrest, hzero]
      rfl
    · have hmin : min (toSize sz) (s.inLen - s.inPos) = toSize sz := by omega
      rw [hrest, hmin, Nat.sub_sub]
      rfl

theorem Within.sendCb (buf : ℕ → UInt8) (sz : ℤ) :
    ∃ s', s.sendCb buf sz = some (s', (s.queues.step (.send buf sz)).2) ∧ s'.Within ∧
      s'.queues = (s.queues.step (.send buf sz)).1 := by
  have hfit := h.outLen
  have hcap := h.outCap
  have hbuf := h.outBuf
  have hspace : sizeSub s.outCap s.outLen = tlsCipherBufSize - s.outLen := by
    rw [sizeSub_eq hfit hcap.le, hcap]
  unfold TlsBuffers.sendCb
  simp only [hspace, copySize_eq]
  by_cases hfull : tlsCipherBufSize - s.outLen = 0
  · rw [if_pos hfull, TlsQueues.step_send_full buf sz (by rw [queues, h.pending_length]; exact hfull)]
    exact ⟨s, rfl, h, rfl⟩
  have hlen : ((range (min (toSize sz) (tlsCipherBufSize - s.outLen))).map buf).length =
      min (toSize sz) (tlsCipherBufSize - s.outLen) := by
    rw [length_map, length_range]
  have hroom : s.outLen + ((range (min (toSize sz) (tlsCipherBufSize - s.outLen))).map buf).length ≤
      s.outBuf.length := by omega
  rw [if_neg hfull, TlsQueues.step_send buf sz (by rw [queues, h.pending_length]; exact hfull), queues,
    h.pending_length, Memory.store_eq hroom, Option.map_some, hlen]
  refine ⟨_, rfl, ?_, ?_⟩
  · exact { h with
      outLen := by dsimp only; omega
      outBuf := (Memory.length_overwrite hroom).trans hbuf }
  · have hbehind := Memory.overwrite_behind (Nat.zero_le s.outLen) hroom
    rw [hlen] at hbehind
    exact congrArg (TlsQueues.mk s.unread) hbehind

theorem Within.compactIn : ∃ s', s.compactIn = some s' ∧ s'.Within ∧
    s'.queues = s.queues ∧
    s'.inPos = 0 := by
  have hlen := h.unread_length
  have hfit := h.inLen
  have hcap := h.inCap
  have hbuf := h.inBuf
  unfold TlsBuffers.compactIn
  split_ifs with hmove hread
  · simp only [h.avail]
    have hroom : 0 + s.unread.length ≤ s.inBuf.length := by omega
    rw [Memory.fetch_eq (by omega), Option.bind_some]
    change ∃ s', (store s.inBuf 0 s.unread).map _ = some s' ∧ _
    rw [Memory.store_eq hroom, Option.map_some]
    refine ⟨_, rfl, ?_, ?_, rfl⟩
    · exact { h with
        inPos := Nat.zero_le _
        inLen := by dsimp only; omega
        inBuf := (Memory.length_overwrite hroom).trans hbuf }
    · have hsame := Memory.overwrite_same hroom
      rw [hlen] at hsame
      exact congrArg (TlsQueues.mk · s.pending) hsame
  · have hnil : s.unread = [] := length_eq_zero_iff.mp (by omega)
    refine ⟨_, rfl, { h with inPos := le_rfl, inLen := Nat.zero_le _ }, ?_, rfl⟩
    simp only [queues, hnil]
    rfl
  · exact ⟨s, rfl, h, rfl, by omega⟩

theorem Within.feedInput (data : Bytes) :
    ∃ s', s.feedInput data = some (s', (s.queues.step (.feed data)).2) ∧ s'.Within ∧
      s'.queues = (s.queues.step (.feed data)).1 := by
  unfold TlsBuffers.feedInput
  by_cases hnil : data.length = 0
  · have hstep : s.queues.step (.feed data) = (s.queues, ⟨0, []⟩) := by
      rw [length_eq_zero_iff.mp hnil, TlsQueues.step_feed (by simp), append_nil]
    rw [if_pos hnil, hstep]
    exact ⟨s, rfl, h, rfl⟩
  obtain ⟨t, ht, hwithin, hqueues, hfront⟩ := h.compactIn
  have hlen := hwithin.unread_length
  have hfit := hwithin.inLen
  have hcap := hwithin.inCap
  have hbuf := hwithin.inBuf
  rw [hfront, Nat.sub_zero] at hlen
  have hspace : sizeSub t.inCap t.inLen = tlsCipherBufSize - t.unread.length := by
    rw [sizeSub_eq hfit hcap.le, hcap, hlen]
  rw [if_neg hnil, ht, Option.bind_some, ← hqueues]
  simp only [hspace]
  by_cases hfull : data.length > tlsCipherBufSize - t.unread.length
  · rw [if_pos hfull, TlsQueues.step_feed_full (q := t.queues) hfull]
    exact ⟨t, rfl, hwithin, rfl⟩
  have hroom : t.inLen + data.length ≤ t.inBuf.length := by omega
  rw [if_neg hfull, TlsQueues.step_feed (q := t.queues) hfull, Memory.store_eq hroom, Option.map_some]
  refine ⟨_, rfl, ?_, ?_⟩
  · exact { hwithin with
      inPos := by dsimp only; omega
      inLen := by dsimp only; omega
      inBuf := (Memory.length_overwrite hroom).trans hbuf }
  · have hbehind := Memory.overwrite_behind (Nat.zero_le t.inLen) hroom
    have hunread : t.unread = t.inBuf.take t.inLen := by
      rw [unread, hfront, drop_zero, Nat.sub_zero]
    simp only [drop_zero, Nat.sub_zero] at hbehind
    change _ = TlsQueues.mk (t.unread ++ data) t.pending
    rw [hunread, ← hbehind, queues, unread, hfront]
    rfl

theorem Within.getOutput : s.getOutput = some (s, ⟨0, s.pending⟩) := by
  have hfit := h.outLen
  have hcap := h.outCap
  have hbuf := h.outBuf
  rw [TlsBuffers.getOutput, Memory.fetch_eq (by omega), drop_zero]
  rfl

theorem Within.consumeOutput (len : ℕ) :
    ∃ s', s.consumeOutput len = some (s', ⟨0, []⟩) ∧ s'.Within ∧
      s'.queues = ⟨s.unread, s.pending.drop len⟩ := by
  have hlen := h.pending_length
  have hfit := h.outLen
  have hcap := h.outCap
  have hbuf := h.outBuf
  unfold TlsBuffers.consumeOutput
  split_ifs with hzero hall
  · rw [hzero]
    exact ⟨s, rfl, h, rfl⟩
  · rw [drop_of_length_le (by omega)]
    exact ⟨_, rfl, { h with outLen := Nat.zero_le _ }, rfl⟩
  · have hrest : s.pending.drop len = (s.outBuf.drop len).take (s.outLen - len) := by
      rw [pending, drop_take]
    have hcount : (s.pending.drop len).length = s.outLen - len := by
      rw [length_drop, hlen]
    have hroom : 0 + (s.pending.drop len).length ≤ s.outBuf.length := by omega
    have hsub : sizeSub s.outLen len = s.outLen - len := sizeSub_eq (by omega) (by omega)
    simp only [hsub]
    rw [Memory.fetch_eq (by omega), Option.bind_some, ← hrest, Memory.store_eq hroom, Option.map_some]
    refine ⟨_, rfl, ?_, ?_⟩
    · exact { h with
        outLen := by dsimp only; omega
        outBuf := (Memory.length_overwrite hroom).trans hbuf }
    · have hsame := Memory.overwrite_same hroom
      rw [hcount] at hsame
      exact congrArg (TlsQueues.mk s.unread) hsame

end

end TlsBuffers

/-- **The buffers are two queues**, whatever is called. -/
theorem buffers_refine :
    Refines TlsBuffers.event TlsQueues.step TlsBuffers.Within TlsBuffers.queues where
  step s e h := by
    cases e with
    | feed data => exact h.feedInput data
    | recv sz => exact h.recvCb sz
    | send buf sz => exact h.sendCb buf sz
    | output => exact ⟨s, h.getOutput, h, rfl⟩
    | consume len => exact h.consumeOutput len

theorem create_within (a b : Vector UInt8 tlsCipherBufSize) : (TlsBuffers.create a b).Within where
  inPos := le_rfl
  inLen := Nat.zero_le _
  outLen := Nat.zero_le _
  inCap := rfl
  outCap := rfl
  inBuf := a.length_toList
  outBuf := b.length_toList

theorem create_queues (a b : Vector UInt8 tlsCipherBufSize) :
    (TlsBuffers.create a b).queues = ⟨[], []⟩ := rfl

/-! ### What went through -/

/-- The bytes that were fed with success, those that wolfSSL got, those that it
wrote, and how many of these were consumed. -/
structure TlsHistory where
  fed : Bytes
  delivered : Bytes
  written : Bytes
  consumed : ℕ

/-- One more call. A length beyond the output consumes all of it. -/
def TlsHistory.add (h : TlsHistory) (e : TlsEvent) (r : TlsResult) : TlsHistory :=
  match e with
  | .feed data => if r.rc = 0 then { h with fed := h.fed ++ data } else h
  | .recv _ => { h with delivered := h.delivered ++ r.data }
  | .send _ _ => { h with written := h.written ++ r.data }
  | .output => h
  | .consume len => { h with consumed := min (h.consumed + len) h.written.length }

def TlsHistory.after (h : TlsHistory) (es : List TlsEvent) (rs : List TlsResult) : TlsHistory :=
  (es.zip rs).foldl (fun h x => h.add x.1 x.2) h

/-- What went through since the connection was made. -/
def tlsHistory (es : List TlsEvent) (rs : List TlsResult) : TlsHistory :=
  TlsHistory.after ⟨[], [], [], 0⟩ es rs

theorem TlsHistory.after_invariant (inv : TlsHistory → TlsQueues → Prop) (ok : TlsEvent → Prop)
    (step : ∀ h q e, ok e → inv h q → inv (h.add e (q.step e).2) (q.step e).1) :
    ∀ (es : List TlsEvent) {h : TlsHistory} {q : TlsQueues}, (∀ e ∈ es, ok e) → inv h q →
      inv (h.after es (specTrace TlsQueues.step q es).2) (specTrace TlsQueues.step q es).1
  | [], _, _, _, hinv => hinv
  | e :: es, h, q, hok, hinv =>
    after_invariant inv ok step es (forall_mem_cons.mp hok).2
      (step h q e (hok e mem_cons_self) hinv)

/-- The queues hold what went in and did not come out. -/
structure TlsHistory.Accounts (h : TlsHistory) (q : TlsQueues) : Prop where
  input : h.delivered ++ q.input = h.fed
  output : h.written.drop h.consumed = q.output
  consumed : h.consumed ≤ h.written.length

theorem TlsHistory.Accounts.step {h : TlsHistory} (hq : h.Accounts q) (e : TlsEvent) :
    (h.add e (q.step e).2).Accounts (q.step e).1 := by
  obtain ⟨hin, hout, hle⟩ := hq
  cases e with
  | feed data =>
    by_cases hfull : data.length > tlsCipherBufSize - q.input.length
    · rw [TlsQueues.step_feed_full hfull, TlsHistory.add, if_neg (show ¬(-ENOMEM : ℤ) = 0 by decide)]
      exact ⟨hin, hout, hle⟩
    · rw [TlsQueues.step_feed hfull, TlsHistory.add, if_pos rfl]
      exact ⟨by rw [← append_assoc, hin], hout, hle⟩
  | recv sz =>
    obtain ⟨hsplit, hsame⟩ := q.recv_split sz
    exact ⟨by rw [TlsHistory.add, append_assoc, hsplit, hin], hout.trans hsame.symm, hle⟩
  | send buf sz =>
    obtain ⟨hsplit, hsame⟩ := q.send_split buf sz
    refine ⟨by rw [hsame]; exact hin, ?_, hle.trans (by simp [TlsHistory.add])⟩
    rw [TlsHistory.add, hsplit, drop_append_of_le_length hle, hout]
  | output => exact ⟨hin, hout, hle⟩
  | consume len =>
    refine ⟨hin, ?_, min_le_right _ _⟩
    simp only [TlsHistory.add, TlsQueues.step, ← hout, drop_drop]
    rcases le_total (h.consumed + len) h.written.length with hfew | hmany
    · rw [min_eq_left hfew]
    · rw [min_eq_right hmany, drop_length, drop_of_length_le hmany]

variable {τ : Type}

/-- The connection with these buffers. -/
def TlsBuffers.conn (s : TlsBuffers) (ssl : τ) (done : Bool) : TlsConn τ :=
  ⟨ssl, s.unread, s.pending, done⟩

theorem TlsBuffers.Within.conn_feedInput {s s' : TlsBuffers} (h : s.Within) (ssl : τ) (done : Bool)
    {r : TlsResult} (hfeed : s.feedInput data = some (s', r)) :
    tlsFeedInput (s.conn ssl done) data = (s'.conn ssl done, r.rc) := by
  obtain ⟨t, ht, -, hqueues⟩ := h.feedInput data
  rw [hfeed, Option.some.injEq, Prod.mk.injEq] at ht
  obtain ⟨rfl, rfl⟩ := ht
  by_cases hfull : data.length > tlsCipherBufSize - s.unread.length
  · rw [TlsQueues.step_feed_full (q := s.queues) hfull] at hqueues ⊢
    obtain ⟨hin, hout⟩ := TlsQueues.mk.inj hqueues
    have hconn : tlsFeedInput (s.conn ssl done) data = (s.conn ssl done, -ENOMEM) := if_pos hfull
    rw [hconn, conn, conn, hin, hout]
  · rw [TlsQueues.step_feed (q := s.queues) hfull] at hqueues ⊢
    obtain ⟨hin, hout⟩ := TlsQueues.mk.inj hqueues
    have hconn : tlsFeedInput (s.conn ssl done) data = (⟨ssl, s.unread ++ data, s.pending, done⟩,
      0) := if_neg hfull
    rw [hconn, conn, hin, hout]
    rfl

/-- A call that wolfSSL makes. -/
def TlsEvent.IsCallback : TlsEvent → Prop
  | .recv _ | .send _ _ => True
  | _ => False

/-- **A call of wolfSSL** with its callbacks takes what was delivered from the unread
bytes, and adds what was written to the pending ones, all of which fits. That is what
`TlsConn.after` does to the connection. -/
theorem TlsBuffers.Within.conn_after {α : Type} {s s' : TlsBuffers} (h : s.Within) (ssl ssl' : τ)
    (done : Bool)
    (ret : WolfRet α) {es : List TlsEvent} (hes : ∀ e ∈ es, e.IsCallback) {rs : List TlsResult}
    (htrace : trace TlsBuffers.event s es = some (s', rs)) :
    s'.Within ∧ (tlsHistory es rs).delivered ++ s'.unread = s.unread ∧
    s'.pending = s.pending ++ (tlsHistory es rs).written ∧
    (tlsHistory es rs).written.length ≤ (s.conn ssl done).space ∧
    (s.conn ssl done).after ⟨ssl', (tlsHistory es rs).delivered.length,
      (tlsHistory es rs).written, ret⟩ =
      s'.conn ssl' done := by
  obtain ⟨t, ht, hwithin, hqueues⟩ := buffers_refine.trace es h
  rw [htrace, Option.some.injEq, Prod.mk.injEq] at ht
  obtain ⟨rfl, rfl⟩ := ht
  -- what was delivered came from the front of the queue, and what was written is at the end of the other
  have hmoved : ∀ h q e, TlsEvent.IsCallback e →
      (TlsHistory.delivered h ++ TlsQueues.input q = s.unread ∧ s.pending ++ h.written = q.output) →
      ((h.add e (q.step e).2).delivered ++ (q.step e).1.input = s.unread ∧
        s.pending ++ (h.add e (q.step e).2).written = (q.step e).1.output) := by
    rintro h q e he ⟨hin, hout⟩
    cases e with
    | recv sz =>
      obtain ⟨hsplit, hsame⟩ := q.recv_split sz
      exact ⟨by rw [TlsHistory.add, append_assoc, hsplit, hin], hout.trans hsame.symm⟩
    | send buf sz =>
      obtain ⟨hsplit, hsame⟩ := q.send_split buf sz
      exact ⟨by rw [hsame]; exact hin, by rw [TlsHistory.add, hsplit, ← append_assoc, hout]⟩
    | feed data | output | consume len => exact he.elim
  obtain ⟨hin, hout⟩ := TlsHistory.after_invariant _ _ hmoved es hes
    (h := ⟨[], [], [], 0⟩) (q := s.queues) ⟨rfl, append_nil _⟩
  rw [← hqueues] at hin hout
  change (tlsHistory es _).delivered ++ s'.unread = s.unread at hin
  change s.pending ++ (tlsHistory es _).written = s'.pending at hout
  have hroom : (tlsHistory es (specTrace TlsQueues.step s.queues es).2).written.length ≤
      (s.conn ssl done).space := by
    have hlen := hwithin.pending_length
    have hfit := hwithin.outLen
    have hcap := hwithin.outCap
    rw [← hout, length_append] at hlen
    change _ ≤ tlsCipherBufSize - s.pending.length
    omega
  refine ⟨hwithin, hin, hout.symm, hroom, ?_⟩
  rw [TlsConn.after, take_of_length_le hroom, conn, conn, ← hin, ← hout, drop_left]

/-- wolfSSL reads two of five bytes, and writes three. -/
def twoCallbacks : List TlsEvent := [.recv 2, .send (fun _ => 7) 3]

theorem conn_after_write : ∃ s s' : TlsBuffers,
    s.unread = [1, 2, 3, 4, 5] ∧ s.pending = [] ∧ s'.unread = [3, 4, 5] ∧ s'.pending = [7, 7, 7] ∧
      (s.conn () true).after ⟨(), 2, [7, 7, 7], (.want : WolfRet Unit)⟩ = s'.conn () true := by
  have hcreate := create_within (.replicate _ 0) (.replicate _ 0)
  obtain ⟨s, -, hs, hfed⟩ := hcreate.feedInput [1, 2, 3, 4, 5]
  have hqueues : s.queues = ⟨[1, 2, 3, 4, 5], []⟩ := by
    rw [hfed, create_queues]
    decide +kernel
  obtain ⟨s', htrace, -, -⟩ := buffers_refine.trace twoCallbacks hs
  rw [hqueues] at htrace
  obtain ⟨hin, hout⟩ := TlsQueues.mk.inj hqueues
  have hmoved :
    (tlsHistory twoCallbacks
      (specTrace TlsQueues.step ⟨[1, 2, 3, 4, 5], []⟩ twoCallbacks).2).delivered =
      [1, 2] ∧ (tlsHistory twoCallbacks
        (specTrace TlsQueues.step ⟨[1, 2, 3, 4, 5], []⟩ twoCallbacks).2).written =
        [7, 7, 7] := by
    decide +kernel
  obtain ⟨-, hread, hwritten, -, hafter⟩ :=
    hs.conn_after () () true .want (by simp [twoCallbacks, TlsEvent.IsCallback]) htrace
  rw [hmoved.1, hin] at hread
  rw [hmoved.2, hout] at hwritten
  rw [hmoved.1, hmoved.2] at hafter
  exact ⟨s, s', hin, hout, append_cancel_left
    (show [1, 2] ++ s'.unread = [1, 2] ++ [3, 4, 5] from hread), hwritten,
    hafter⟩

/-- **The ciphertext buffers are bounded queues.** After every sequence of calls
and callbacks, with whatever sizes: the results are those of two queues of 16384
bytes; what wolfSSL got and what is unread are what was fed, in order; the output
is what wolfSSL wrote and was not consumed, in order; data are refused exactly if
they do not fit behind the unread bytes, and nobody can tell that they were
offered; and the indices are inside the buffers. No call reads or writes outside
of a buffer. -/
theorem buffers_are_queues (a b : Vector UInt8 tlsCipherBufSize) (es : List TlsEvent) :
    ∃ s rs, trace TlsBuffers.event (TlsBuffers.create a b) es = some (s, rs) ∧
      rs = (specTrace TlsQueues.step ⟨[], []⟩ es).2 ∧
      (tlsHistory es rs).delivered ++ s.unread = (tlsHistory es rs).fed ∧
      s.getOutput = some (s, ⟨0, (tlsHistory es rs).written.drop (tlsHistory es rs).consumed⟩) ∧
      (∀ data, ∃ s' r, s.feedInput data = some (s', r) ∧
        (r.rc ≠ 0 ↔ data.length > s.inCap - s.unread.length) ∧
        (r.rc ≠ 0 → ∀ es', results TlsBuffers.event s' es' = results TlsBuffers.event s es')) ∧
      s.inPos ≤ s.inLen ∧ s.inLen ≤ s.inCap ∧ s.inCap = s.inBuf.length ∧
      s.outLen ≤ s.outCap ∧ s.outCap = s.outBuf.length := by
  obtain ⟨s, htrace, hs, hqueues⟩ := buffers_refine.trace es (create_within a b)
  rw [create_queues] at htrace hqueues
  have haccounts : (tlsHistory es (specTrace TlsQueues.step ⟨[], []⟩ es).2).Accounts s.queues := by
    rw [hqueues]
    exact TlsHistory.after_invariant _ (fun _ => True) (fun h q e _ hq => hq.step e) es
      (fun _ _ => trivial)
      ⟨rfl, rfl, le_rfl⟩
  refine ⟨s, _, htrace, rfl, haccounts.input, ?_, fun data => ?_, hs.inPos, hs.inLen,
    hs.inCap.trans hs.inBuf.symm,
    hs.outLen, hs.outCap.trans hs.outBuf.symm⟩
  · rw [hs.getOutput, haccounts.output]
    rfl
  · obtain ⟨s', hfeed, hs', hq'⟩ := hs.feedInput data
    refine ⟨s', _, hfeed, ?_, fun hrc es' => ?_⟩
    · rw [hs.inCap]
      by_cases hfull : data.length > tlsCipherBufSize - s.unread.length
      · rw [TlsQueues.step_feed_full (q := s.queues) hfull]
        exact iff_of_true (show (-ENOMEM : ℤ) ≠ 0 by decide) hfull
      · rw [TlsQueues.step_feed (q := s.queues) hfull]
        exact iff_of_false (fun h => h rfl) hfull
    · refine buffers_refine.same_results hs hs' ?_ es'
      rw [hq']
      by_cases hfull : data.length > tlsCipherBufSize - s.unread.length
      · rw [TlsQueues.step_feed_full (q := s.queues) hfull]
      · rw [TlsQueues.step_feed (q := s.queues) hfull] at hrc
        exact absurd rfl hrc

end Iohttp
