/-
# Server-sent events

`src/ws/ioh_sse.c`: events and comments are formatted into a buffer that grows,
and a flush hands the buffer out and empties it. The text that was handed out is
read as an event stream.

The loop over the lines of the data ends where the data end. A newline at the
end of the data ends their last line and starts none, so the reader does not get
it back.
-/
import Iohttp.Http.Arena
import Iohttp.Http.HeaderLines
import Iohttp.Lib.EventStream
import Iohttp.Lib.Runs

namespace Iohttp

open List

open EventStream (OneLine Reader dataLine decode fieldOf lines readLines)

/-- A string of C, without its NUL. -/
abbrev CString := { b : Bytes // 0 ∉ b }

/-- `ioh_sse_event_t`. -/
structure SseEvent where
  event : Option CString
  data : Option CString
  id : Option CString
  retryMs : UInt32
  deriving DecidableEq

/-- `ioh_sse_stream_t`: the first `buf_len` bytes of its buffer. `allocs` counts
the allocations; nothing reads `headers_sent`. -/
structure SseStream where
  buf : Bytes
  bufCapacity : ℕ
  lastEventId : Option CString
  allocs : ℕ
  fits : buf.length ≤ bufCapacity
  deriving DecidableEq

/-- `IOH_SSE_INITIAL_BUF`. -/
abbrev sseInitialBuf : ℕ := 1024

/-- `ioh_sse_stream_init`, where `A` says which allocations succeed. -/
def sseStreamInit (A : ℕ → Bool) : Option SseStream :=
  if A 0 then some ⟨[], sseInitialBuf, none, 1, Nat.zero_le _⟩ else none

/-- The capacity for `needed` bytes. -/
def sseNewCap (cap needed : ℕ) : ℕ := doubleCap needed needed (if cap = 0 then sseInitialBuf else cap)

theorem le_sseNewCap (cap needed : ℕ) : needed ≤ sseNewCap cap needed ∧ cap ≤ sseNewCap cap needed := by
  unfold sseNewCap
  split_ifs with h
  · exact ⟨need_le_doubleCap needed needed _ (by decide) (Nat.le_add_left ..), h ▸ Nat.zero_le _⟩
  · exact ⟨need_le_doubleCap needed needed _ (by omega) (Nat.le_add_left ..), le_doubleCap ..⟩

/-- `sse_ensure_capacity`. -/
def sseEnsureCapacity (A : ℕ → Bool) (s : SseStream) (additional : ℕ) : SseStream × ℤ :=
  if s.buf.length + additional ≤ s.bufCapacity then (s, 0)
  else if A s.allocs then
    ({ s with
        bufCapacity := sseNewCap s.bufCapacity (s.buf.length + additional), allocs := s.allocs + 1
        fits := s.fits.trans (le_sseNewCap ..).2 }, 0)
  else ({ s with allocs := s.allocs + 1 }, -ENOMEM)

variable {A : ℕ → Bool} {s : SseStream}

theorem sseEnsureCapacity_room {additional : ℕ} (h : (sseEnsureCapacity A s additional).2 = 0) :
    (sseEnsureCapacity A s additional).1.buf = s.buf ∧
      s.buf.length + additional ≤ (sseEnsureCapacity A s additional).1.bufCapacity := by
  unfold sseEnsureCapacity at h ⊢
  split_ifs at h ⊢ with hfits halloc
  · exact ⟨rfl, hfits⟩
  · exact ⟨rfl, (le_sseNewCap ..).1⟩
  · exact absurd (show (-ENOMEM : ℤ) = 0 from h) (by decide)

/-- `sse_append`. -/
def sseAppend (A : ℕ → Bool) (s : SseStream) (data : Bytes) : SseStream × ℤ :=
  let r := sseEnsureCapacity A s data.length
  if h : r.2 = 0 then
    ({ r.1 with
        buf := r.1.buf ++ data
        fits := by
          obtain ⟨hbuf, hroom⟩ := sseEnsureCapacity_room h
          rw [List.length_append, hbuf]
          exact hroom }, 0)
  else r

/-- Several pieces; the first failure ends it. -/
def sseAppendAll (A : ℕ → Bool) : List Bytes → SseStream → SseStream × ℤ
  | [], s => (s, 0)
  | p :: ps, s =>
    if (sseAppend A s p).2 ≠ 0 then sseAppend A s p else sseAppendAll A ps (sseAppend A s p).1

/-! ### Events and comments -/

/-- The loop over the data: its lines, which end with LF or with the data. -/
def sseDataLoop : ℕ → Bytes → List Bytes
  | 0, _ => []
  | fuel + 1, p =>
    if p = [] then []
    else p.takeWhile (· ≠ 10) :: sseDataLoop fuel (p.drop ((p.takeWhile (· ≠ 10)).length + 1))

/-- The pieces of the fields `event` and `id`. -/
def sseNamePieces (e : SseEvent) : List Bytes :=
  (e.event.elim [] fun name => [bytes "event: ", name.1, [10]]) ++
    e.id.elim [] fun id => [bytes "id: ", id.1, [10]]

/-- The pieces behind them, and the empty line. -/
def sseDataPieces (e : SseEvent) (data : Bytes) : List Bytes :=
  (if e.retryMs > 0 then [bytes "retry: " ++ dec e.retryMs.toNat ++ [10]] else []) ++
    (sseDataLoop data.length data).flatMap (fun line => [bytes "data: ", line, [10]]) ++
    (if data = [] then [bytes "data: \n"] else []) ++ [[10]]

/-- The copy of the id that is kept. -/
def sseTrackId (A : ℕ → Bool) (s : SseStream) : Option CString → SseStream × ℤ
  | none => (s, 0)
  | some id =>
    if A s.allocs then ({ s with lastEventId := some id, allocs := s.allocs + 1 }, 0)
    else ({ s with lastEventId := none, allocs := s.allocs + 1 }, -ENOMEM)

/-- `ioh_sse_format_event`. -/
def sseFormatEvent (A : ℕ → Bool) (s : SseStream) (e : SseEvent) : SseStream × ℤ :=
  match e.data with
  | none => (s, -EINVAL)
  | some data =>
    let r := sseAppendAll A (sseNamePieces e) s
    if r.2 ≠ 0 then r
    else
      let r := sseTrackId A r.1 e.id
      if r.2 ≠ 0 then r else sseAppendAll A (sseDataPieces e data.1) r.1

/-- `ioh_sse_format_comment`. -/
def sseFormatComment (A : ℕ → Bool) (s : SseStream) : Option CString → SseStream × ℤ
  | none => (s, -EINVAL)
  | some comment => sseAppendAll A [bytes ": ", comment.1, [10, 10]] s

/-- `ioh_sse_stream_flush`: the bytes that are handed out. -/
def sseStreamFlush (s : SseStream) : SseStream × Bytes :=
  ({ s with buf := [], fits := Nat.zero_le _ }, s.buf)

inductive SseCall where
  | event (e : SseEvent)
  | comment (c : Option CString)
  | flush
  deriving DecidableEq

/-- A call, with everything that has been flushed; `none` if it fails. -/
def sseStep (A : ℕ → Bool) (s : SseStream × Bytes) : SseCall → Option (SseStream × Bytes)
  | .event e => if (sseFormatEvent A s.1 e).2 = 0 then some ((sseFormatEvent A s.1 e).1, s.2) else none
  | .comment c =>
    if (sseFormatComment A s.1 c).2 = 0 then some ((sseFormatComment A s.1 c).1, s.2) else none
  | .flush => some ((sseStreamFlush s.1).1, s.2 ++ (sseStreamFlush s.1).2)

/-- Calls on a new stream, all of which succeed: what was flushed. -/
def sseFlushed (A : ℕ → Bool) (calls : List SseCall) : Option Bytes :=
  (sseStreamInit A).bind fun s => (Runs.run (sseStep A) (s, []) calls).map Prod.snd

def SseCall.handedOut (calls : List SseCall) : List SseCall := calls.rdropWhile (· ≠ .flush)

/-- The events of the calls, with a function of their data. An event without a
name is a message; an event without an id has the last one that was given. -/
def sentWith (f : Bytes → Bytes) : Bytes → List SseCall → List EventStream.Event
  | _, [] => []
  | id, .event e :: calls =>
    ⟨e.event.elim (bytes "message") (·.1), f (e.data.elim [] (·.1)), e.id.elim id (·.1)⟩ ::
      sentWith f (e.id.elim id (·.1)) calls
  | id, _ :: calls => sentWith f id calls

/-- The events that were passed to `ioh_sse_format_event`. -/
def sent (calls : List SseCall) : List EventStream.Event := sentWith (fun data => data) [] calls

/-- The texts that an event stream can carry: no ends of lines in names, ids and
comments, no CR in the data, and no empty name. -/
def SseCall.Plain : SseCall → Prop
  | .event e =>
    (∀ name ∈ e.event, name.1 ≠ [] ∧ OneLine name.1) ∧ (∀ id ∈ e.id, OneLine id.1) ∧
      ∀ data ∈ e.data, 13 ∉ data.1
  | .comment c => ∀ text ∈ c, OneLine text.1
  | .flush => True

instance instDecidablePlain : ∀ c : SseCall, Decidable c.Plain
  | .event e =>
    inferInstanceAs
      (Decidable ((∀ name ∈ e.event, name.1 ≠ [] ∧ OneLine name.1) ∧ (∀ id ∈ e.id, OneLine id.1) ∧
      ∀ data ∈ e.data, 13 ∉ data.1))
  | .comment c => inferInstanceAs (Decidable (∀ text ∈ c, OneLine text.1))
  | .flush => isTrue trivial

/-- The data of the event do not end with a newline. -/
def SseCall.NoLastNewline : SseCall → Prop
  | .event e => ∀ data ∈ e.data, data.1.getLast? ≠ some 10
  | _ => True

instance instDecidableNoLastNewline : ∀ c : SseCall, Decidable c.NoLastNewline
  | .event e => inferInstanceAs (Decidable (∀ data ∈ e.data, data.1.getLast? ≠ some 10))
  | .comment _ | .flush => isTrue trivial

/-! ### What the calls write -/

variable {data line : Bytes} {e : SseEvent}

theorem sseAppend_buf (h : (sseAppend A s data).2 = 0) :
    (sseAppend A s data).1.buf = s.buf ++ data := by
  unfold sseAppend at h ⊢
  dsimp only at h ⊢
  split_ifs at h ⊢ with hroom
  · rw [← (sseEnsureCapacity_room hroom).1]
  · exact absurd h hroom

theorem sseAppendAll_buf : ∀ {ps : List Bytes} {s : SseStream}, (sseAppendAll A ps s).2 = 0 →
    (sseAppendAll A ps s).1.buf = s.buf ++ ps.flatten
  | [], s, _ => (append_nil _).symm
  | p :: ps, s, h => by
    unfold sseAppendAll at h ⊢
    split_ifs at h ⊢ with hp
    · exact absurd h hp
    · rw [sseAppendAll_buf h, sseAppend_buf (not_not.mp hp), flatten_cons, append_assoc]

theorem sseTrackId_buf (A : ℕ → Bool) (s : SseStream) (id : Option CString) :
    (sseTrackId A s id).1.buf = s.buf := by
  unfold sseTrackId
  split
  · rfl
  · split_ifs <;> rfl

def sseDataLines (data : Bytes) : List Bytes := if data = [] then [[]] else sseDataLoop data.length data

/-- The lines of an event without the empty one. -/
def eventFields (e : SseEvent) (data : Bytes) : List Bytes :=
  (e.event.elim [] fun name => [bytes "event: " ++ name.1]) ++ (e.id.elim [] fun id =>
    [bytes "id: " ++ id.1]) ++
    (if e.retryMs > 0 then [bytes "retry: " ++ dec e.retryMs.toNat] else []) ++
      (sseDataLines data).map dataLine

def eventLines (e : SseEvent) (data : Bytes) : List Bytes := eventFields e data ++ [[]]

def SseCall.lines : SseCall → List Bytes
  | .event e => eventLines e (e.data.elim [] (·.1))
  | .comment c => [bytes ": " ++ c.elim [] (·.1), []]
  | .flush => []

abbrev lfText (ls : List Bytes) : Bytes := ls.flatMap (· ++ [10])

theorem flatten_dataPieces : ∀ ls : List Bytes,
    (ls.flatMap fun line => [bytes "data: ", line, [10]]).flatten = lfText (ls.map dataLine)
  | [] => rfl
  | l :: ls => by
    have hdata : bytes "data: " ++ l = dataLine l := rfl
    rw [flatMap_cons, flatten_append, flatten_dataPieces ls, map_cons, ← hdata]
    simp

theorem flatten_ssePieces (e : SseEvent) (data : Bytes) :
    (sseNamePieces e).flatten ++ (sseDataPieces e data).flatten = lfText (eventLines e data) := by
  have hname : (sseNamePieces e).flatten =
      lfText ((e.event.elim [] fun name => [bytes "event: " ++ name.1]) ++
        e.id.elim [] fun id => [bytes "id: " ++ id.1]) := by
    unfold sseNamePieces
    cases e.event <;> cases e.id <;> simp
  have hdata : ((sseDataLoop data.length data).flatMap (fun line => [bytes "data: ", line, [10]]) ++
      if data = [] then [bytes "data: \n"] else []).flatten = lfText
      ((sseDataLines data).map dataLine) := by
    unfold sseDataLines
    by_cases hnil : data = []
    · subst hnil
      rfl
    · rw [if_neg hnil, if_neg hnil, append_nil, flatten_dataPieces]
  unfold sseDataPieces eventLines eventFields
  rw [hname, append_assoc (if e.retryMs > 0 then _ else _), flatten_append, flatten_append, hdata]
  split_ifs <;> simp

theorem sseFormatEvent_buf (h : (sseFormatEvent A s e).2 = 0) :
    (sseFormatEvent A s e).1.buf = s.buf ++ lfText (SseCall.lines (.event e)) := by
  unfold sseFormatEvent at h ⊢
  cases hd : e.data with
  | none =>
    rw [hd] at h
    exact absurd (show (-EINVAL : ℤ) = 0 from h) (by decide)
  | some data =>
    rw [hd] at h
    simp only at h ⊢
    split_ifs at h ⊢ with hn ht
    · exact absurd h hn
    · exact absurd h ht
    · rw [sseAppendAll_buf h, sseTrackId_buf, sseAppendAll_buf (not_not.mp hn), append_assoc,
        flatten_ssePieces, SseCall.lines, hd]
      rfl

theorem sseFormatComment_buf {c : Option CString} (h : (sseFormatComment A s c).2 = 0) :
    (sseFormatComment A s c).1.buf = s.buf ++ lfText (SseCall.lines (.comment c)) := by
  cases c with
  | none => exact absurd (show (-EINVAL : ℤ) = 0 from h) (by decide)
  | some text =>
    unfold sseFormatComment at h ⊢
    rw [sseAppendAll_buf h]
    simp [SseCall.lines]

variable {c : SseCall}

theorem sseStep_text {s s' : SseStream × Bytes} (h : sseStep A s c = some s') :
    s'.2 ++ s'.1.buf = s.2 ++ s.1.buf ++ lfText c.lines ∧
      s'.2 = if c = .flush then s.2 ++ s.1.buf else s.2 := by
  cases c with
  | event e =>
    obtain ⟨hrc, he⟩ := Option.ite_none_right_eq_some.mp h
    cases he
    exact ⟨by rw [sseFormatEvent_buf hrc, append_assoc], rfl⟩
  | comment c =>
    obtain ⟨hrc, he⟩ := Option.ite_none_right_eq_some.mp h
    cases he
    exact ⟨by rw [sseFormatComment_buf hrc, append_assoc], rfl⟩
  | flush =>
    cases h
    exact ⟨by simp [sseStreamFlush, SseCall.lines], rfl⟩

/-- **What was flushed are the lines of the calls up to the last flush.** -/
theorem sseRun_text (hs : s.buf = []) : ∀ {calls : List SseCall}
    {s' : SseStream × Bytes}, Runs.run (sseStep A) (s, []) calls = some s' →
    s'.2 ++ s'.1.buf = lfText (calls.flatMap SseCall.lines) ∧
      s'.2 = lfText ((SseCall.handedOut calls).flatMap SseCall.lines) := by
  intro calls
  -- from the last call back, since the last flush decides
  induction calls using List.reverseRecOn with
  | nil =>
    intro s' h
    cases h
    exact ⟨hs, rfl⟩
  | append_singleton calls c ih =>
    intro s' h
    rw [Runs.run_concat, Option.bind_eq_some_iff] at h
    obtain ⟨s₁, h₁, hstep⟩ := h
    obtain ⟨htext, hout⟩ := ih h₁
    obtain ⟨htext', hout'⟩ := sseStep_text hstep
    rw [htext] at htext'
    refine ⟨by rw [htext']; simp, ?_⟩
    rw [hout', SseCall.handedOut]
    by_cases hc : c = .flush
    · subst hc
      rw [if_pos rfl, htext, rdropWhile_concat_neg _ _ _ (by simp)]
      simp [SseCall.lines]
    · rw [if_neg hc, rdropWhile_concat_pos _ _ _ (by simpa using hc)]
      exact hout

/-! ### The data of an event -/

/-- The data as the reader gets them: without a newline at their end. -/
def cutNewline (data : Bytes) : Bytes := if data.getLast? = some 10 then data.dropLast else data

theorem cutNewline_eq_iff : cutNewline data = data ↔ data.getLast? ≠ some 10 := by
  unfold cutNewline
  split_ifs with h
  · refine iff_of_false ?_ (not_not.mpr h)
    intro he
    have hlen := congrArg List.length he
    have hpos : 0 < data.length := length_pos_iff.mpr fun hnil => by simp [hnil] at h
    rw [length_dropLast] at hlen
    omega
  · exact iff_of_true rfl h

theorem takeWhile_line (h : 10 ∉ line) (rest : Bytes) :
    (line ++ 10 :: rest).takeWhile (· ≠ 10) = line := by
  have hline : ∀ c ∈ line, decide (c ≠ 10) = true := by
    intro c hc
    rw [decide_eq_true_eq]
    rintro rfl
    exact h hc
  rw [takeWhile_append_of_pos hline, takeWhile_cons_of_neg (by decide), append_nil]

theorem sseDataLoop_nil (fuel : ℕ) : sseDataLoop fuel [] = [] := by cases fuel <;> rfl

theorem sseDataLoop_line (fuel : ℕ) (h : 10 ∉ line) (rest : Bytes) :
    sseDataLoop (fuel + 1) (line ++ 10 :: rest) = line :: sseDataLoop fuel rest := by
  have hdrop : (line ++ 10 :: rest).drop (line.length + 1) = rest := by
    simp
  rw [sseDataLoop, if_neg (by simp), takeWhile_line h, hdrop]

theorem sseDataLoop_last (fuel : ℕ) (h : 10 ∉ line) (hne : line ≠ []) :
    sseDataLoop (fuel + 1) line = [line] := by
  have htake : line.takeWhile (· ≠ 10) = line := by
    refine takeWhile_eq_self_iff.mpr fun c hc => decide_eq_true ?_
    rintro rfl
    exact h hc
  rw [sseDataLoop, if_neg hne, htake, drop_eq_nil_of_le (Nat.le_succ _), sseDataLoop_nil]

theorem lfText_sseDataLoop : ∀ {fuel : ℕ} {p : Bytes}, p.length ≤ fuel → p ≠ [] →
    lfText (sseDataLoop fuel p) = if p.getLast? = some 10 then p else p ++ [10]
  | 0, p, hf, hp => absurd (length_eq_zero_iff.mp (Nat.le_zero.mp hf)) hp
  | fuel + 1, p, hf, hp => by
    by_cases hmem : 10 ∈ p
    · obtain ⟨line, rest, rfl, hline⟩ := eq_append_cons_of_mem hmem
      rw [sseDataLoop_line fuel hline, lfText, flatMap_cons]
      by_cases hnil : rest = []
      · rw [hnil, sseDataLoop_nil, if_pos (by simp)]
        simp
      · have hlen : rest.length ≤ fuel := by
          simp only [length_append, length_cons] at hf
          omega
        have ih := lfText_sseDataLoop hlen hnil
        have hlast : (line ++ 10 :: rest).getLast? = rest.getLast? := by
          rw [getLast?_append, getLast?_cons, getLast?_eq_some_getLast hnil]
          simp
        rw [lfText] at ih
        rw [ih, hlast]
        split_ifs <;> simp
    · have hlast : p.getLast? ≠ some 10 := fun hl => hmem (mem_of_getLast? hl)
      rw [sseDataLoop_last fuel hmem hp, if_neg hlast]
      simp

theorem lfText_sseDataLines (data : Bytes) : lfText (sseDataLines data) = cutNewline data ++ [10] := by
  unfold sseDataLines cutNewline
  by_cases h : data = []
  · subst h
    rfl
  · rw [if_neg h, lfText_sseDataLoop le_rfl h]
    split_ifs with hlast
    · exact (dropLast_append_getLast? 10 hlast).symm
    · rfl

theorem sseDataLoop_subset {b : UInt8} : ∀ {fuel : ℕ} {p line : Bytes}, line ∈ sseDataLoop fuel p →
    10 ∉ line ∧ (b ∈ line → b ∈ p)
  | 0, _, _, h => by cases h
  | fuel + 1, p, line, h => by
    rw [sseDataLoop] at h
    split_ifs at h with hp
    · cases h
    · rcases mem_cons.mp h with rfl | h
      · exact ⟨fun hm => by simpa using mem_takeWhile_imp hm, fun hm => (takeWhile_subset _) hm⟩
      · obtain ⟨h10, hsub⟩ := sseDataLoop_subset h
        exact ⟨h10, fun hm => mem_of_mem_drop (hsub hm)⟩

theorem oneLine_sseDataLines (hdata : 13 ∉ data) (h : line ∈ sseDataLines data) : OneLine line := by
  unfold sseDataLines at h
  split_ifs at h
  · cases mem_singleton.mp h
    decide
  · obtain ⟨h10, hsub⟩ := sseDataLoop_subset h
    exact ⟨fun hm => hdata (hsub hm), h10⟩

/-! ### Reading the events back -/

theorem readLines_singleton (r : Reader) (l : Bytes) : readLines r [l] = r.line l := by
  simp [readLines]

theorem readLines_name (r : Reader) (name : Option CString) :
    readLines r (name.elim [] fun n => [bytes "event: " ++ n.1]) =
      ({ r with type := name.elim r.type (·.1) }, []) := by
  cases name with
  | none | some n => rfl

theorem readLines_id (r : Reader) (id : Option CString) :
    readLines r (id.elim [] fun i => [bytes "id: " ++ i.1]) =
      ({ r with lastEventId := id.elim r.lastEventId (·.1) }, []) := by
  cases id with
  | none => rfl
  | some i =>
    have hline : bytes "id: " ++ i.1 = EventStream.ascii "id" ++ 58 :: 32 :: i.1 := rfl
    rw [Option.elim_some, readLines_singleton, hline, r.line_field (by decide) (by decide), Reader.field,
      if_neg (by decide), if_neg (by decide), if_pos rfl, if_neg i.2]
    rfl

theorem readLines_retry (r : Reader) (ms : UInt32) : ∃ retry,
    readLines r (if ms > 0 then [bytes "retry: " ++ dec ms.toNat] else []) =
    ({ r with retry := retry }, []) := by
  split_ifs
  · have hline : bytes "retry: " ++ dec ms.toNat = EventStream.ascii "retry" ++ 58 :: 32 :: dec
      ms.toNat := rfl
    rw [readLines_singleton, hline, r.line_field (by decide) (by decide), Reader.field,
      if_neg (by decide), if_neg (by decide), if_neg (by decide), if_pos rfl]
    split_ifs
    · exact ⟨_, rfl⟩
    · exact ⟨r.retry, rfl⟩
  · exact ⟨r.retry, rfl⟩

/-- **The lines of an event give the event**, without a newline at the end of its
data, to a reader between two events. -/
theorem readLines_event {r : Reader} (hd : r.data = []) (ht : r.type = [])
    (hname : ∀ name ∈ e.event, name.1 ≠ []) (data : Bytes) : ∃ retry,
    readLines r (eventLines e data) = (⟨[], [], e.id.elim r.lastEventId (·.1), retry⟩,
      [⟨e.event.elim (bytes "message") (·.1), cutNewline data, e.id.elim r.lastEventId (·.1)⟩]) := by
  obtain ⟨retry, hretry⟩ := readLines_retry
    { r with type := e.event.elim r.type (·.1), lastEventId := e.id.elim r.lastEventId (·.1) } e.retryMs
  refine ⟨retry, ?_⟩
  have htext : r.data ++ (sseDataLines data).flatMap (· ++ [10]) = cutNewline data ++ [10] := by
    rw [hd, nil_append]
    exact lfText_sseDataLines data
  have hline := Reader.line_dispatch (r := ⟨r.data ++ (sseDataLines data).flatMap (· ++ [10]),
    e.event.elim r.type (·.1), e.id.elim r.lastEventId (·.1), retry⟩) htext
  simp only [eventLines, eventFields, EventStream.readLines_append, readLines_name, readLines_id, hretry,
    EventStream.readLines_data, readLines_singleton, hline, nil_append]
  cases hev : e.event with
  | none =>
    rw [Option.elim_none, Option.elim_none, if_pos ht]
    rfl
  | some name => rw [Option.elim_some, Option.elim_some, if_neg (hname name hev)]

theorem readLines_comment (r : Reader) (c : Option CString) (hd : r.data = []) (ht : r.type = []) :
    readLines r (SseCall.lines (.comment c)) = (r, []) := by
  have hline : bytes ": " ++ c.elim [] (·.1) = 58 :: (32 :: c.elim [] (·.1)) := rfl
  have hempty : r.line [] = (r, []) := by
    rw [Reader.line, if_pos rfl, Reader.dispatch, if_pos hd, ← ht]
  simp only [SseCall.lines, hline, readLines, Reader.line_comment, hempty, append_nil]

theorem readLines_calls : ∀ {calls : List SseCall}, (∀ c ∈ calls, c.Plain) → ∀ {r : Reader},
    r.data = [] →
    r.type = [] → (readLines r (calls.flatMap SseCall.lines)).2 = sentWith cutNewline r.lastEventId calls
  | [], _, r, _, _ => rfl
  | c :: calls, hplain, r, hd, ht => by
    have hrest := (forall_mem_cons.mp hplain).2
    rw [flatMap_cons, EventStream.readLines_append]
    cases c with
    | event e =>
      have hname : ∀ name ∈ e.event, name.1 ≠ [] := fun name hm => ((hplain _ mem_cons_self).1 name hm).1
      obtain ⟨retry, he⟩ := readLines_event hd ht hname (e.data.elim [] (·.1))
      rw [SseCall.lines, he, sentWith, readLines_calls hrest rfl rfl]
      rfl
    | comment c =>
      rw [readLines_comment r c hd ht, sentWith, nil_append, readLines_calls hrest hd ht]
      simp
    | flush => exact readLines_calls hrest hd ht

theorem oneLine_dec (n : ℕ) : OneLine (dec n) := by
  refine ⟨fun h => ?_, lf_notMem_dec n⟩
  have := dec_digit h
  simp at this

theorem oneLine_of_mem_lines (hc : c.Plain) {l : Bytes} (hl : l ∈ c.lines) :
    OneLine l ∧ ∀ b ∈ l.head?, b < 128 := by
  have hfield : ∀ {name value : Bytes}, OneLine name → OneLine value → (∃ b ∈ name.head?, b < 128) →
      OneLine (name ++ value) ∧ ∀ b ∈ (name ++ value).head?, b < 128 := by
    intro name value hn hv hb
    obtain ⟨b, hb, hlt⟩ := hb
    refine ⟨hn.append hv, fun b' hb' => ?_⟩
    rw [head?_append, hb, Option.some_or] at hb'
    cases hb'
    exact hlt
  cases c with
  | event e =>
    obtain ⟨hname, hid, hdata⟩ := hc
    simp only [SseCall.lines, eventLines, eventFields, mem_append, mem_map, mem_singleton] at hl
    rcases hl with (((hl | hl) | hl) | ⟨v, hv, rfl⟩) | rfl
    · cases hev : e.event with
      | none => simp [hev] at hl
      | some name =>
        rw [hev] at hl
        cases mem_singleton.mp hl
        exact hfield (by decide) (hname name hev).2 ⟨101, rfl, by decide⟩
    · cases hev : e.id with
      | none => simp [hev] at hl
      | some id =>
        rw [hev] at hl
        cases mem_singleton.mp hl
        exact hfield (by decide) (hid id hev) ⟨105, rfl, by decide⟩
    · split_ifs at hl
      · cases mem_singleton.mp hl
        exact hfield (by decide) (oneLine_dec _) ⟨114, rfl, by decide⟩
      · cases hl
    · have hv' : OneLine v := by
        refine oneLine_sseDataLines ?_ hv
        cases hev : e.data with
        | none => simp
        | some data => exact hdata data hev
      show OneLine (bytes "data: " ++ v) ∧ ∀ b ∈ (bytes "data: " ++ v).head?, b < 128
      exact hfield (by decide) hv' ⟨100, rfl, by decide⟩
    · exact ⟨by decide, by simp⟩
  | comment c =>
    rcases mem_cons.mp hl with rfl | hl
    · have htext : OneLine (c.elim [] (·.1)) := by
        cases hev : c with
        | none => decide
        | some text => exact hc text hev
      exact hfield (by decide) htext ⟨58, rfl, by decide⟩
    · cases mem_singleton.mp hl
      exact ⟨by decide, by simp⟩
  | flush => cases hl

/-- **What was flushed is read as the events of the calls up to the last flush**,
each without a newline at the end of its data. -/
theorem decode_flushed {calls : List SseCall} (hplain : ∀ c ∈ calls, c.Plain) {out : Bytes}
    (h : sseFlushed A calls = some out) :
    decode out = sentWith cutNewline [] (SseCall.handedOut calls) := by
  obtain ⟨s, hs, h⟩ := Option.bind_eq_some_iff.mp h
  obtain ⟨s', hrun, rfl⟩ := Option.map_eq_some_iff.mp h
  have hbuf : s.buf = [] := by
    unfold sseStreamInit at hs
    split_ifs at hs
    cases hs
    rfl
  have hcalls : SseCall.handedOut calls <+: calls := rdropWhile_prefix ..
  have hhanded : ∀ c ∈ SseCall.handedOut calls, c.Plain := fun c hc => hplain c (hcalls.subset hc)
  have hlines : ∀ l ∈ (SseCall.handedOut calls).flatMap SseCall.lines,
      OneLine l ∧ ∀ b ∈ l.head?, b < 128 := by
    intro l hl
    obtain ⟨c, hc, hl⟩ := mem_flatMap.mp hl
    exact oneLine_of_mem_lines (hhanded c hc) hl
  rw [(sseRun_text hbuf hrun).2, decode, EventStream.stripBom_flatMap fun l hl => (hlines l hl).2,
    EventStream.lines_flatMap _ fun l hl => (hlines l hl).1]
  exact readLines_calls hhanded rfl rfl

theorem sentWith_eq_iff : ∀ {calls : List SseCall} {id : Bytes},
    sentWith cutNewline id calls = sentWith (fun data => data) id calls ↔ ∀ c ∈ calls, c.NoLastNewline
  | [], _ => by simp [sentWith]
  | c :: calls, id => by
    rw [forall_mem_cons]
    cases c with
    | event e =>
      rw [sentWith, sentWith, List.cons.injEq, sentWith_eq_iff, EventStream.Event.mk.injEq, eq_self,
        eq_self, true_and,
        and_true, cutNewline_eq_iff]
      refine and_congr_left fun _ => ?_
      cases hd : e.data <;> simp [SseCall.NoLastNewline, hd]
    | comment c =>
      simp only [sentWith]
      exact sentWith_eq_iff.trans (and_iff_right trivial).symm
    | flush =>
      simp only [sentWith]
      exact sentWith_eq_iff.trans (and_iff_right trivial).symm

/-- **An event stream decodes to the events that were sent**, exactly if no event
has data that end with a newline. -/
theorem sse_decodes_iff (A : ℕ → Bool) (calls : List SseCall) (hplain : ∀ c ∈ calls, c.Plain)
    (out : Bytes)
    (h : sseFlushed A calls = some out) :
    decode out = sent (SseCall.handedOut calls) ↔ ∀ c ∈ SseCall.handedOut calls, c.NoLastNewline := by
  rw [decode_flushed hplain h]
  exact sentWith_eq_iff

/-- A comment, an event in two lines, and a flush behind each. -/
def tickCalls : List SseCall :=
  [.comment (some ⟨bytes "hi", by decide⟩), .flush,
    .event ⟨some ⟨bytes "tick", by decide⟩, some ⟨bytes "a\n\nb", by decide⟩,
      some ⟨bytes "7", by decide⟩, 5⟩, .flush]

theorem sse_decodes_tick :
    (∀ c ∈ tickCalls, c.Plain) ∧ ∃ out, sseFlushed (fun _ => true) tickCalls = some out ∧
      decode out = [⟨bytes "tick", bytes "a\n\nb", bytes "7"⟩] := by
  have hplain : ∀ c ∈ tickCalls, c.Plain := by decide +kernel
  have hlast : ∀ c ∈ SseCall.handedOut tickCalls, c.NoLastNewline := by decide +kernel
  refine ⟨hplain, bytes ": hi\n\nevent: tick\nid: 7\nretry: 5\ndata: a\ndata: \ndata: b\n\n", by
    decide +kernel, ?_⟩
  exact (sse_decodes_iff (fun _ => true) tickCalls hplain _ (by decide +kernel)).mpr hlast

/-- An event whose data end with a newline. -/
def lineCalls : List SseCall := [.event ⟨none, some ⟨bytes "a\n", by decide⟩, none, 0⟩, .flush]

/-- The newline at the end of the data is lost. -/
theorem sse_newline_lost :
    (∀ c ∈ lineCalls, c.Plain) ∧ ∃ out, sseFlushed (fun _ => true) lineCalls = some out ∧
      decode out = [⟨bytes "message", bytes "a", []⟩] ∧
      sent (SseCall.handedOut lineCalls) = [⟨bytes "message", bytes "a\n", []⟩] :=
  ⟨by decide +kernel, bytes "data: a\n\n", by decide +kernel, by decide +kernel, by decide +kernel⟩

end Iohttp
