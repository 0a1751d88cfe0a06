/-
# The messages of a client

A client sends one message behind the other. A message is a head that
`ioh_http1_parse_request` takes, and a body, which is as long as the head says
or in the chunked encoding. Received in pieces, a message is incomplete up to
the end of its head, and from there on every longer piece of it gives the same
request.
-/
import Iohttp.Http.Grammar

namespace Iohttp

open List

/-- The value of a hexadecimal digit. -/
def hexDigit (c : UInt8) : Option ℕ :=
  if 48 ≤ c ∧ c ≤ 57 then some (c - 48).toNat
  else if 97 ≤ lower c ∧ lower c ≤ 102 then some (lower c - 87).toNat
  else none

def hexNumber (digits : Bytes) : Option ℕ :=
  if digits = [] then none else digits.foldlM (fun n c => (hexDigit c).map (n * 16 + ·)) 0

/-- No line ends in these bytes. -/
def NoEol (b : Bytes) : Prop := ∀ c ∈ b, c ≠ 13 ∧ c ≠ 10

def ChunkExt (ext : Bytes) : Prop := (ext = [] ∨ ∃ e, ext = 59 :: e) ∧ NoEol ext

/-- The chunked encodings of a body: chunks, the last chunk, and trailer
fields. -/
inductive Chunked : Bytes → Bytes → Prop where
  | last {size ext : Bytes} {trailers : List Bytes} : hexNumber size = some 0 → ChunkExt ext →
      (∀ t ∈ trailers, t ≠ [] ∧ NoEol t) →
      Chunked [] (size ++ ext ++ [13, 10] ++ trailers.flatMap (· ++ [13, 10]) ++ [13, 10])
  | chunk {size ext data body code : Bytes} : hexNumber size = some data.length → data ≠ [] →
    ChunkExt ext →
      Chunked body code → Chunked (data ++ body) (size ++ ext ++ [13, 10] ++ data ++ [13, 10] ++ code)

/-- The values of the `Transfer-Encoding` headers. -/
def transferEncodings (req : Request) : List Bytes :=
  (req.headers.filter fun h => eqIgnoreCase h.name.bytes (bytes "Transfer-Encoding")).map fun h =>
    h.value.bytes

/-- The only framing of the body is the chunked encoding. -/
def ChunkedOnly (req : Request) : Prop :=
  (∃ value, transferEncodings req = [value] ∧ eqIgnoreCase value (bytes "chunked") = true) ∧
    ∀ h ∈ req.headers, eqIgnoreCase h.name.bytes (bytes "Content-Length") = false

/-- What follows the head of a request. -/
inductive Framed (req : Request) (body : Bytes) : Prop where
  | length (plain : transferEncodings req = []) (len : body.length = req.contentLength)
  | chunked (only : ChunkedOnly req) (content : ∃ b, Chunked b body)

/-- A request as it is sent. -/
structure Message where
  bytes : Bytes
  req : Request
  hdrLen : ℕ
  parsed : http1ParseRequest bytes = .ok (req, hdrLen)
  framed : Framed req (bytes.drop hdrLen)

/-- The bytes of the head and of the body that the head announces. -/
def Message.total (m : Message) : ℕ := m.hdrLen + m.req.contentLength

/-- The request with the body that its head announces. -/
def Message.request (m : Message) : Request :=
  if m.req.contentLength > 0 then
    { m.req with body := (m.bytes.drop m.hdrLen).take m.req.contentLength }
  else m.req

/-- What the client sends. -/
def stream (ms : List Message) : Bytes := ms.flatMap Message.bytes

variable {ms : List Message} {n : ℕ} {m : Message} {u : Bytes}

theorem stream_take_succ (h : ms[n]? = some m) :
    stream (ms.take (n + 1)) = stream (ms.take n) ++ m.bytes := by
  rw [take_add_one, h]
  simp [stream]

theorem stream_take_append_drop (ms : List Message) (n : ℕ) :
    stream ms = stream (ms.take n) ++ stream (ms.drop n) := by
  rw [stream, stream, stream, ← flatMap_append, take_append_drop]

theorem stream_drop (h : ms[n]? = some m) :
    stream (ms.drop n) = m.bytes ++ stream (ms.drop (n + 1)) := by
  obtain ⟨hlt, rfl⟩ := List.getElem?_eq_some_iff.mp h
  rw [drop_eq_getElem_cons hlt]
  rfl

theorem stream_take_le (ms : List Message) {i j : ℕ} (h : i ≤ j) :
    (stream (ms.take i)).length ≤ (stream (ms.take j)).length := by
  rw [stream_take_append_drop (ms.take j) i, take_take, min_eq_left h, length_append]
  exact Nat.le_add_right _ _

theorem Message.hdrLen_le (m : Message) : m.hdrLen ≤ m.bytes.length := http1ParseRequest_le m.parsed

theorem http1ParseRequest_pos {buf : Bytes} {req : Request}
    (h : http1ParseRequest buf = .ok (req, n)) : 0 < n := by
  obtain ⟨q, hs, s, head, t, hh, _, _, _, hn⟩ := http1ParseRequest_eq_ok.mp h
  rw [hn]
  obtain ⟨e₀, s₁, s₂, c, e₁, ls, e₂, rfl, _⟩ := hh.pieces
  have := length_pos_iff.mpr hh.method_ne
  simp only [length_append]
  omega

theorem Message.hdrLen_pos (m : Message) : 0 < m.hdrLen := http1ParseRequest_pos m.parsed

theorem scan_contentLength : ∀ {hs : List Header} {s₀ s : Scan},
    (∀ h ∈ hs, eqIgnoreCase h.name.bytes (bytes "Content-Length") = false) →
    hs.foldlM scanHeader s₀ = some s → s.contentLength = s₀.contentLength
  | [], s₀, s, _, h => by
    cases h
    rfl
  | hd :: hs, s₀, s, hno, h => by
    rw [foldlM_cons, Option.bind_eq_bind, Option.bind_eq_some_iff] at h
    obtain ⟨s₁, h₁, h₂⟩ := h
    rw [scan_contentLength (forall_mem_cons.mp hno).2 h₂]
    unfold scanHeader at h₁
    rw [hno hd (mem_cons_self ..)] at h₁
    simp only [Bool.false_eq_true, if_false] at h₁
    split_ifs at h₁ <;> cases h₁ <;> rfl

/-- A message has everything that its head announces, and if it is not chunked
nothing more. -/
theorem Message.total_le (m : Message) : m.total ≤ m.bytes.length := by
  unfold Message.total
  have hle := m.hdrLen_le
  cases m.framed with
  | length _ len =>
    rw [← len, length_drop]
    omega
  | chunked only _ =>
    obtain ⟨q, hs, s, _, _, _, ha, hreq, _⟩ := http1ParseRequest_eq_ok.mp m.parsed
    have hno := only.2
    rw [hreq] at hno
    have : m.req.contentLength = 0 := by
      rw [hreq]
      exact scan_contentLength hno ha.scan
    omega

theorem Message.total_eq (m : Message) (h : transferEncodings m.req = []) :
    m.total = m.bytes.length := by
  unfold Message.total
  have hle := m.hdrLen_le
  cases m.framed with
  | length _ len =>
    rw [← len, length_drop]
    omega
  | chunked only _ =>
    obtain ⟨⟨value, hv, _⟩, _⟩ := only
    rw [h] at hv
    cases hv

/-- Up to the end of the head, the parser waits for more. -/
theorem Message.parse_short (m : Message) (hu : u <+: m.bytes) (h : u.length < m.hdrLen) :
    http1ParseRequest u = .error (-EAGAIN) :=
  http1ParseRequest_short m.parsed hu h

/-- From the end of the head on, the parser gives the request. -/
theorem Message.parse_head (m : Message) (hu : u <+: m.bytes) (h : m.hdrLen ≤ u.length) :
    http1ParseRequest u = .ok (m.req, m.hdrLen) := by
  obtain ⟨q, hs, s, head, t, hh, ha, hreq, hb, hn⟩ := http1ParseRequest_eq_ok.mp m.parsed
  have hhead : head <+: u := by
    refine prefix_of_prefix_length_le ⟨t, hb.symm⟩ hu ?_
    omega
  obtain ⟨t', rfl⟩ := hhead
  exact http1ParseRequest_eq_ok.mpr ⟨q, hs, s, head, t', hh, ha, hreq, rfl, hn⟩

theorem Message.request_take (m : Message) (hu : u <+: m.bytes) (h : m.total ≤ u.length) :
    (u.drop m.hdrLen).take m.req.contentLength = (m.bytes.drop m.hdrLen).take m.req.contentLength := by
  obtain ⟨t, ht⟩ := hu
  unfold Message.total at h
  rw [← ht, drop_append_of_le_length (by omega), take_append_of_le_length (by simp; omega)]

end Iohttp
