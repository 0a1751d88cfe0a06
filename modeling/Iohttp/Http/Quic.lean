/-
# The output of a QUIC connection

`src/http/ioh_quic.c`: `ioh_quic_write_stream` and `ioh_quic_close` append the
packet that ngtcp2 gives them to the output buffer, `ioh_quic_flush` fills the
buffer and hands it out. But it sets `out_len` to 0 before: what the others have
appended is overwritten.

ngtcp2 is what it answers: every call carries the results of the calls of the
library that it makes, and whether `realloc` succeeds. A flush calls the library
until it has nothing more to write.
-/
import Iohttp.Bytes
import Iohttp.Lib.Runs

namespace Iohttp

open Runs List

abbrev ECONNRESET : ℤ := 104
abbrev ETIMEDOUT : ℤ := 110

/-- `QUIC_OUTPUT_BUF_SIZE`. -/
abbrev quicOutputBufSize : ℕ := 65536

/-- `QUIC_MAX_PKTLEN`. -/
abbrev quicMaxPktlen : ℕ := 1452

/-- A packet that ngtcp2 has written. -/
structure Packet where
  bytes : Bytes
  ne_nil : bytes ≠ []
  length_le : bytes.length ≤ quicMaxPktlen
  deriving DecidableEq

/-- The result of `ngtcp2_conn_writev_stream` and of
`ngtcp2_conn_write_connection_close`; `more` is `NGTCP2_ERR_WRITE_MORE`. -/
inductive WriteResult where
  | packet (p : Packet)
  | nothing
  | more
  | failure
  deriving DecidableEq

/-- The result of `ngtcp2_conn_read_pkt`; `draining` is `NGTCP2_ERR_DRAINING`. -/
inductive ReadResult where
  | ok
  | draining
  | failure
  deriving DecidableEq, Repr

/-- The result of `ngtcp2_conn_handle_expiry`; `expired` is
`NGTCP2_ERR_IDLE_CLOSE` or `NGTCP2_ERR_HANDSHAKE_TIMEOUT`. -/
inductive ExpiryResult where
  | ok
  | expired
  | failure
  deriving DecidableEq, Repr

/-- `struct ioh_quic_conn`: the first `out_len` bytes of its output buffer, its
capacity, and whether it is closed; beside it the packets that were produced so
far and the buffers that were handed out. -/
structure QuicConn where
  out : Bytes
  outCap : ℕ
  closed : Bool
  produced : List Packet
  handed : List Bytes
  deriving DecidableEq

/-- A connection that has just been created. -/
def quicConnNew : QuicConn := ⟨[], quicOutputBufSize, false, [], []⟩

/-! ### The calls -/

/-- Room for a packet, which every call makes first; `none` is `-ENOMEM`. -/
def ensureRoom (q : QuicConn) (alloc : Bool) : Option QuicConn :=
  if q.out.length + quicMaxPktlen > q.outCap then
    if alloc then some { q with outCap := q.outCap * 2 } else none
  else some q

/-- A packet goes to the end of the buffer. -/
def QuicConn.append (q : QuicConn) (p : Packet) : QuicConn :=
  { q with out := q.out ++ p.bytes, produced := q.produced ++ [p] }

/-- `ioh_quic_write_stream`; the library says how much of the data it took. -/
def quicWriteStream (q : QuicConn) (alloc : Bool) (res : WriteResult) (ndatalen : ℤ) : QuicConn × ℤ :=
  if q.closed then (q, -ECONNRESET)
  else
    match ensureRoom q alloc with
    | none => (q, -ENOMEM)
    | some q =>
      match res with
      | .packet p => (q.append p, if 0 ≤ ndatalen then ndatalen else - EIO)
      | .nothing => (q, if 0 ≤ ndatalen then ndatalen else - EIO)
      | .more | .failure => (q, - EIO)

/-- `ioh_quic_close`. -/
def quicClose (q : QuicConn) (alloc : Bool) (res : WriteResult) : QuicConn × ℤ :=
  if q.closed then (q, 0)
  else
    match ensureRoom q alloc with
    | none => (q, -ENOMEM)
    | some q =>
      match res with
      | .packet p => ({ q.append p with closed := true }, 0)
      | _ => ({ q with closed := true }, 0)

/-- `ioh_quic_on_recv`. -/
def quicOnRecv (q : QuicConn) (res : ReadResult) : QuicConn × ℤ :=
  if q.closed then (q, -ECONNRESET)
  else
    match res with
    | .ok => (q, 0)
    | .draining => ({ q with closed := true }, -ECONNRESET)
    | .failure => (q, - EIO)

/-- `ioh_quic_on_timeout`. -/
def quicOnTimeout (q : QuicConn) (res : ExpiryResult) : QuicConn × ℤ :=
  if q.closed then (q, -ECONNRESET)
  else
    match res with
    | .ok => (q, 0)
    | .expired => ({ q with closed := true }, -ETIMEDOUT)
    | .failure => (q, - EIO)

/-- The loop of `ioh_quic_flush`, with the answers of its rounds; `none` if it
goes on behind them. -/
def flushLoop : List (Bool × WriteResult) → QuicConn → Option (QuicConn × ℤ)
  | [], _ => none
  | (alloc, res) :: answers, q =>
    match ensureRoom q alloc with
    | none => some (q, -ENOMEM)
    | some q =>
      match res with
      | .packet p => flushLoop answers (q.append p)
      | .more => flushLoop answers q
      | .nothing | .failure => some (q, 0)

/-- The buffer is handed out, if the call succeeds. -/
def handOut (r : QuicConn × ℤ) : QuicConn × ℤ :=
  if r.2 = 0 then ({ r.1 with handed := r.1.handed ++ [r.1.out] }, 0) else r

/-- `ioh_quic_flush`. -/
def quicFlush (q : QuicConn) (answers : List (Bool × WriteResult)) : Option (QuicConn × ℤ) :=
  (flushLoop answers { q with out := [] }).map handOut

/-- A call, with what the library and the allocator do in it. -/
inductive QuicCall where
  | writeStream (alloc : Bool) (res : WriteResult) (ndatalen : ℤ)
  | close (alloc : Bool) (res : WriteResult)
  | onRecv (res : ReadResult)
  | onTimeout (res : ExpiryResult)
  | flush (answers : List (Bool × WriteResult))

/-- A call that returns: the connection behind it, and its result. -/
def QuicConn.call (q : QuicConn) : QuicCall → Option (QuicConn × ℤ)
  | .writeStream alloc res ndatalen => some (quicWriteStream q alloc res ndatalen)
  | .close alloc res => some (quicClose q alloc res)
  | .onRecv res => some (quicOnRecv q res)
  | .onTimeout res => some (quicOnTimeout q res)
  | .flush answers => quicFlush q answers

def QuicConn.step (q : QuicConn) (c : QuicCall) : Option QuicConn := (q.call c).map Prod.fst

/-! ### What is handed out -/

def packetBytes (ps : List Packet) : Bytes := ps.flatMap Packet.bytes

def AllHanded (q : QuicConn) : Prop := q.handed.flatten = packetBytes q.produced

instance (q : QuicConn) : Decidable (AllHanded q) := inferInstanceAs (Decidable (_ = _))

def QuicCall.Flushes (c : QuicCall) (rc : ℤ) : Prop := (∃ answers, c = .flush answers) ∧ rc = 0

/-- In the calls, packets are produced by flushes that succeed, and nowhere
else. -/
def OnlyFlushes : QuicConn → List QuicCall → Prop
  | _, [] => True
  | q, c :: cs => ∀ q' rc, q.call c = some (q', rc) →
      (q'.produced = q.produced ∨ c.Flushes rc) ∧ OnlyFlushes q' cs

/-- What a call does to what was produced and handed out. -/
def Outputs (q q' : QuicConn) (new : List Packet) (buffers : List Bytes) : Prop :=
  q'.produced = q.produced ++ new ∧ q'.handed = q.handed ++ buffers

theorem Outputs.refl (q : QuicConn) : Outputs q q [] [] := ⟨(append_nil _).symm, (append_nil _).symm⟩

theorem Outputs.trans {q q₁ q₂ : QuicConn} {a b : List Packet} {x y : List Bytes} (h : Outputs q q₁ a x)
    (h' : Outputs q₁ q₂ b y) : Outputs q q₂ (a ++ b) (x ++ y) :=
  ⟨by rw [h'.1, h.1, append_assoc], by rw [h'.2, h.2, append_assoc]⟩

theorem Outputs.append (q : QuicConn) (p : Packet) : Outputs q (q.append p) [p] [] :=
  ⟨rfl, (append_nil _).symm⟩

variable {q q' : QuicConn}

theorem ensureRoom_outputs {alloc : Bool} (h : ensureRoom q alloc = some q') :
    Outputs q q' [] [] ∧ q'.out = q.out := by
  unfold ensureRoom at h
  split_ifs at h
  · cases h
    exact ⟨.refl q, rfl⟩
  · cases h
    exact ⟨.refl q, rfl⟩

theorem flushLoop_outputs : ∀ {answers : List (Bool × WriteResult)} {q : QuicConn} {r : QuicConn × ℤ},
    flushLoop answers q = some r → ∃ new, Outputs q r.1 new [] ∧ r.1.out = q.out ++ packetBytes new
  | [], _, _, h => by cases h
  | (alloc, res) :: answers, q, r, h => by
    unfold flushLoop at h
    cases hroom : ensureRoom q alloc with
    | none =>
      rw [hroom] at h
      cases h
      exact ⟨[], .refl q, (append_nil _).symm⟩
    | some q₁ =>
      obtain ⟨hout, hsame⟩ := ensureRoom_outputs hroom
      rw [hroom] at h
      cases res with
      | packet p =>
        obtain ⟨new, hnew, hbytes⟩ := flushLoop_outputs h
        refine ⟨p :: new, (hout.trans (.append q₁ p)).trans hnew, ?_⟩
        rw [hbytes, QuicConn.append, hsame]
        simp [packetBytes]
      | more =>
        obtain ⟨new, hnew, hbytes⟩ := flushLoop_outputs h
        exact ⟨new, hout.trans hnew, by rw [hbytes, hsame]⟩
      | nothing =>
        cases h
        exact ⟨[], hout, by rw [hsame]; exact (append_nil _).symm⟩
      | failure =>
        cases h
        exact ⟨[], hout, by rw [hsame]; exact (append_nil _).symm⟩

/-- A flush that succeeds hands out what it has produced, and nothing of what was
there before. -/
theorem quicFlush_outputs {answers : List (Bool × WriteResult)} {r : QuicConn × ℤ}
    (h : quicFlush q answers = some r) :
    ∃ new, Outputs q r.1 new (if r.2 = 0 then [packetBytes new] else []) := by
  unfold quicFlush at h
  rw [Option.map_eq_some_iff] at h
  obtain ⟨r₁, hloop, rfl⟩ := h
  obtain ⟨new, hnew, hbytes⟩ := flushLoop_outputs hloop
  refine ⟨new, ?_⟩
  unfold handOut
  by_cases hrc : r₁.2 = 0
  · simp only [hrc, if_true]
    exact ⟨hnew.1, by rw [hnew.2, hbytes]; simp⟩
  · simp only [hrc, if_false]
    exact hnew

theorem quicWriteStream_outputs (q : QuicConn) (alloc : Bool) (res : WriteResult) (ndatalen : ℤ) :
    ∃ new, Outputs q (quicWriteStream q alloc res ndatalen).1 new [] := by
  unfold quicWriteStream
  by_cases hclosed : q.closed
  · rw [if_pos hclosed]
    exact ⟨[], .refl q⟩
  · rw [if_neg hclosed]
    cases hroom : ensureRoom q alloc with
    | none => exact ⟨[], .refl q⟩
    | some q₁ =>
      have hout := (ensureRoom_outputs hroom).1
      cases res with
      | packet p => exact ⟨[p], hout.trans (.append q₁ p)⟩
      | nothing | more | failure => exact ⟨[], hout⟩

theorem quicClose_outputs (q : QuicConn) (alloc : Bool) (res : WriteResult) :
    ∃ new, Outputs q (quicClose q alloc res).1 new [] := by
  unfold quicClose
  split_ifs
  · exact ⟨[], .refl q⟩
  · cases hroom : ensureRoom q alloc with
    | none => exact ⟨[], .refl q⟩
    | some q₁ =>
      have hout := (ensureRoom_outputs hroom).1
      cases res with
      | packet p => exact ⟨[p], hout.trans (.append q₁ p)⟩
      | nothing | more | failure => exact ⟨[], hout⟩

theorem quicOnRecv_outputs (q : QuicConn) (res : ReadResult) : Outputs q (quicOnRecv q res).1 [] [] := by
  unfold quicOnRecv
  split_ifs
  · exact .refl q
  · cases res <;> exact .refl q

theorem quicOnTimeout_outputs (q : QuicConn) (res : ExpiryResult) :
    Outputs q (quicOnTimeout q res).1 [] [] := by
  unfold quicOnTimeout
  split_ifs
  · exact .refl q
  · cases res <;> exact .refl q

variable {c : QuicCall} {rc : ℤ}

theorem QuicCall.not_flushes (h : ∀ answers, c ≠ .flush answers) : ¬c.Flushes rc :=
  fun hf => h _ hf.1.choose_spec

/-- **What a call does**: it may produce packets, and hands them out if it is a
flush that succeeds. -/
theorem QuicConn.call_outputs (h : q.call c = some (q', rc)) :
    ∃ new, (c.Flushes rc ∧ Outputs q q' new [packetBytes new]) ∨
    (¬c.Flushes rc ∧ Outputs q q' new []) := by
  cases c with
  | writeStream alloc res ndatalen =>
    obtain ⟨new, hnew⟩ := quicWriteStream_outputs q alloc res ndatalen
    rw [Option.some.inj h] at hnew
    exact ⟨new, .inr ⟨QuicCall.not_flushes (by rintro _ ⟨⟩), hnew⟩⟩
  | close alloc res =>
    obtain ⟨new, hnew⟩ := quicClose_outputs q alloc res
    rw [Option.some.inj h] at hnew
    exact ⟨new, .inr ⟨QuicCall.not_flushes (by rintro _ ⟨⟩), hnew⟩⟩
  | onRecv res =>
    have hnew := quicOnRecv_outputs q res
    rw [Option.some.inj h] at hnew
    exact ⟨[], .inr ⟨QuicCall.not_flushes (by rintro _ ⟨⟩), hnew⟩⟩
  | onTimeout res =>
    have hnew := quicOnTimeout_outputs q res
    rw [Option.some.inj h] at hnew
    exact ⟨[], .inr ⟨QuicCall.not_flushes (by rintro _ ⟨⟩), hnew⟩⟩
  | flush answers =>
    obtain ⟨new, hnew⟩ := quicFlush_outputs h
    refine ⟨new, ?_⟩
    by_cases hrc : rc = 0
    · rw [if_pos hrc] at hnew
      exact .inl ⟨⟨⟨answers, rfl⟩, hrc⟩, hnew⟩
    · rw [if_neg hrc] at hnew
      exact .inr ⟨fun hf => hrc hf.2, hnew⟩

/-! ### Runs -/

/-- More was produced than handed out: that is never made up for. -/
def Behind (q : QuicConn) : Prop := q.handed.flatten.length < (packetBytes q.produced).length

theorem Behind.not_allHanded (h : Behind q) : ¬AllHanded q := by
  intro hall
  rw [Behind, hall] at h
  exact lt_irrefl _ h

theorem packetBytes_append (a b : List Packet) : packetBytes (a ++ b) = packetBytes a ++ packetBytes b :=
  flatMap_append

theorem packetBytes_pos {ps : List Packet} (h : ps ≠ []) : 0 < (packetBytes ps).length := by
  obtain ⟨p, rest, rfl⟩ := exists_cons_of_ne_nil h
  have := length_pos_of_ne_nil p.ne_nil
  simp only [packetBytes, flatMap_cons, length_append]
  omega

/-- A connection either has handed out all packets, or is behind. -/
def Counted (q : QuicConn) : Prop := AllHanded q ∨ Behind q

/-- One call: all is handed out behind it if all was before it, and it produces
nothing unless it is a flush that succeeds. -/
theorem Counted.call (h : Counted q) (hc : q.call c = some (q', rc)) :
    Counted q' ∧ (AllHanded q' ↔ AllHanded q ∧ (q'.produced = q.produced ∨ c.Flushes rc)) := by
  obtain ⟨new, ⟨hf, hprod, hhand⟩ | ⟨hf, hprod, hhand⟩⟩ := QuicConn.call_outputs hc
  · -- what is produced is handed out
    have hbytes : packetBytes q'.produced = packetBytes q.produced ++ packetBytes new := by
      rw [hprod, packetBytes_append]
    have hflat : q'.handed.flatten = q.handed.flatten ++ packetBytes new := by
      rw [hhand, flatten_append]
      simp
    rcases h with hall | hbehind
    · have hall' : AllHanded q' := by rw [AllHanded, hflat, hbytes, hall]
      exact ⟨.inl hall', iff_of_true hall' ⟨hall, .inr hf⟩⟩
    · have hbehind' : Behind q' := by
        unfold Behind at hbehind ⊢
        rw [hflat, hbytes, length_append, length_append]
        omega
      exact ⟨.inr hbehind', iff_of_false hbehind'.not_allHanded fun hn => hbehind.not_allHanded hn.1⟩
  · rw [append_nil] at hhand
    by_cases hnew : new = []
    · rw [hnew, append_nil] at hprod
      have hsame : AllHanded q' ↔ AllHanded q := by rw [AllHanded, AllHanded, hprod, hhand]
      refine ⟨?_, hsame.trans ⟨fun hall => ⟨hall, .inl hprod⟩, And.left⟩⟩
      rcases h with hall | hbehind
      · exact .inl (hsame.mpr hall)
      · exact .inr (by rw [Behind, hprod, hhand]; exact hbehind)
    · -- a packet that stays in the buffer
      have hle : q.handed.flatten.length ≤ (packetBytes q.produced).length := by
        rcases h with hall | hbehind
        · exact (congrArg List.length hall).le
        · exact hbehind.le
      have hbehind' : Behind q' := by
        have := packetBytes_pos hnew
        rw [Behind, hprod, hhand, packetBytes_append, length_append]
        omega
      refine ⟨.inr hbehind', iff_of_false hbehind'.not_allHanded ?_⟩
      rintro ⟨_, hsame | hflush⟩
      · rw [hprod] at hsame
        exact hnew (append_right_eq_self.mp hsame)
      · exact hf hflush

theorem onlyFlushes_cons {cs : List QuicCall} (hc : q.call c = some (q', rc)) :
    OnlyFlushes q (c :: cs) ↔ (q'.produced = q.produced ∨ c.Flushes rc) ∧ OnlyFlushes q' cs := by
  constructor
  · intro h
    exact h _ _ hc
  · rintro h q₁ rc₁ hc₁
    cases hc.symm.trans hc₁
    exact h

theorem Counted.run : ∀ {cs : List QuicCall} {q q' : QuicConn}, Counted q →
    run QuicConn.step q cs = some q' →
    Counted q' ∧ (AllHanded q' ↔ AllHanded q ∧ OnlyFlushes q cs)
  | [], q, q', hq, h => by
    cases h
    exact ⟨hq, fun hall => ⟨hall, trivial⟩, And.left⟩
  | c :: cs, q, q', hq, h => by
    rw [run_cons, Option.bind_eq_some_iff] at h
    obtain ⟨q₁, hstep, hrest⟩ := h
    rw [QuicConn.step, Option.map_eq_some_iff] at hstep
    obtain ⟨⟨q₁, rc⟩, hcall, rfl⟩ := hstep
    obtain ⟨hq₁, hiff⟩ := hq.call hcall
    obtain ⟨hq', hrun⟩ := hq₁.run hrest
    refine ⟨hq', ?_⟩
    rw [hrun, hiff, and_assoc, onlyFlushes_cons hcall]

/-- **Output is not lost if and only if it comes from flushes.** In every run
whose last call is a flush that succeeds, the buffers handed out are the packets
produced, in order, if and only if no other call has produced one. -/
theorem output_handed_iff (cs : List QuicCall) (answers : List (Bool × WriteResult)) {q q' : QuicConn}
    (hrun : run QuicConn.step quicConnNew cs = some q) (hlast : q.call (.flush answers) = some (q', 0)) :
    AllHanded q' ↔ OnlyFlushes quicConnNew cs := by
  have hnew : AllHanded quicConnNew := rfl
  obtain ⟨hq, hiff⟩ := Counted.run (.inl hnew) hrun
  rw [(hq.call hlast).2, hiff]
  exact ⟨fun h => h.1.2, fun h => ⟨⟨hnew, h⟩, .inr ⟨⟨answers, rfl⟩, rfl⟩⟩⟩

def bytePacket (b : UInt8) : Packet := ⟨[b], List.cons_ne_nil b [], (by decide : 1 ≤ quicMaxPktlen)⟩

/-- A flush that finds one packet. -/
def onePacket (b : UInt8) : List (Bool × WriteResult) :=
  [(true, .packet (bytePacket b)), (true, .nothing)]

/-- The packets of two flushes. -/
theorem output_handed_flushes :
    AllHanded ⟨[2], quicOutputBufSize, false, [bytePacket 1, bytePacket 2], [[1], [2]]⟩ ↔
      OnlyFlushes quicConnNew [.flush (onePacket 1)] :=
  output_handed_iff [.flush (onePacket 1)] (onePacket 2)
    (q := ⟨[1], quicOutputBufSize, false, [bytePacket 1], [[1]]⟩) (by decide) (by decide)

/-- **Stream data that is lost.** The packet that `ioh_quic_write_stream` leaves
in the buffer is gone with the flush that should hand it out: the call succeeds,
with no byte to send. -/
theorem stream_packet_lost :
    ¬∀ (cs : List QuicCall) (answers : List (Bool × WriteResult)) (q q' : QuicConn),
      run QuicConn.step quicConnNew cs = some q → q.call (.flush answers) = some (q', 0) →
      AllHanded q' := by
  intro h
  have hlost := h [.writeStream true (.packet (bytePacket 1)) 1] [(true, .nothing)]
    ⟨[1], quicOutputBufSize, false, [bytePacket 1], []⟩
    ⟨[], quicOutputBufSize, false, [bytePacket 1], [[]]⟩
    (by decide) (by decide)
  revert hlost
  decide

end Iohttp
