/-
# Text that starts a line of its own

`ioh_sse_format_event` splits the data at LF only, and writes the type and the
id of an event as they are; `ioh_sse_format_comment` writes its text as it is.
For the reader CR ends a line as well, so a CR, or an LF in a type, an id or a
comment, starts a line of its own, which may be another field or end the event.
-/
import Iohttp.Ws.Sse

namespace Iohttp

open EventStream List

/-- Every reader without data takes the text for `n` events, and for no other lines than
those that were meant. -/
def ReadAs (n : ℕ) (meant : List Bytes) (text : Bytes) : Prop :=
  (EventStream.lines text).length = meant.length ∧
    ∀ r : Reader, r.data = [] → (readLines r (EventStream.lines text)).2.length = n

/-- No line ends inside of what the caller gives: a CR stands only where a line ends
anyway. -/
def SseEvent.PlainLines (e : SseEvent) : Prop :=
  (∀ name ∈ e.event, AlmostOneLine name.1) ∧ (∀ id ∈ e.id, AlmostOneLine id.1) ∧
    ∀ data ∈ e.data, ∀ line ∈ sseDataLines data.1, AlmostOneLine line
  deriving Decidable

theorem almostOneLine_append {p v : Bytes} (hp : OneLine p) :
    AlmostOneLine (p ++ v) ↔ AlmostOneLine v := by
  have hdrop : 13 ∉ (p ++ v).dropLast ↔ 13 ∉ v.dropLast := by
    cases v with
    | nil => simpa using fun h => hp.1 (mem_of_mem_dropLast h)
    | cons c v => rw [dropLast_append_of_ne_nil (cons_ne_nil c v)]; simp [hp.1]
  rw [AlmostOneLine, AlmostOneLine, hdrop, mem_append, or_iff_right hp.2]

theorem chomp_append {p : Bytes} (hp : 13 ∉ p) (v : Bytes) : chomp (p ++ v) = p ++ chomp v := by
  cases v with
  | nil =>
    rw [append_nil, chomp, if_neg fun h => hp (mem_of_getLast? h)]
    simp [chomp]
  | cons c v =>
    have hlast : (p ++ c :: v).getLast? = (c :: v).getLast? := by
      rw [getLast?_append, getLast?_eq_some_getLast (cons_ne_nil c v), Option.some_or]
    rw [chomp, hlast, chomp, dropLast_append_of_ne_nil (cons_ne_nil c v)]
    split <;> rfl

theorem mem_eventFields {e : SseEvent} {data l : Bytes} (h : l ∈ eventFields e data) :
    ∃ p v, l = p ++ v ∧ p ≠ [] ∧ 13 ∉ p := by
  simp only [eventFields, mem_append, mem_map] at h
  obtain ((h | h) | h) | ⟨v, -, rfl⟩ := h
  · cases hev : e.event with
    | none => simp [hev] at h
    | some name =>
      rw [hev] at h
      exact ⟨bytes "event: ", name.1, mem_singleton.mp h, by decide, by decide⟩
  · cases hev : e.id with
    | none => simp [hev] at h
    | some id =>
      rw [hev] at h
      exact ⟨bytes "id: ", id.1, mem_singleton.mp h, by decide, by decide⟩
  · split at h
    · exact ⟨bytes "retry: ", _, mem_singleton.mp h, by decide, by decide⟩
    · cases h
  · exact ⟨bytes "data: ", v, rfl, by decide, by decide⟩

theorem almostOneLine_eventLines_iff {e : SseEvent} {data : CString} (hd : e.data = some data) :
    (∀ l ∈ eventLines e data.1, AlmostOneLine l) ↔ e.PlainLines := by
  have hfield : ∀ (p : Bytes) (s : Option CString), OneLine p →
      ((∀ l ∈ s.elim [] (fun t => [p ++ t.1]), AlmostOneLine l) ↔ ∀ t ∈ s, AlmostOneLine t.1) := by
    intro p s hp
    cases s with
    | none => simp
    | some t => simp [almostOneLine_append hp]
  have hretry :
    ∀ l ∈ (if e.retryMs > 0 then [bytes "retry: " ++ dec e.retryMs.toNat] else [] : List Bytes),
      AlmostOneLine l := by
    intro l hl
    split at hl
    · rw [mem_singleton.mp hl, almostOneLine_append (by decide)]
      exact ⟨(oneLine_dec _).2, fun h => (oneLine_dec _).1 (mem_of_mem_dropLast h)⟩
    · cases hl
  have hdata : (∀ l ∈ (sseDataLines data.1).map dataLine, AlmostOneLine l) ↔
      ∀ line ∈ sseDataLines data.1, AlmostOneLine line := by
    rw [forall_mem_map]
    exact forall₂_congr fun v _ => almostOneLine_append (show OneLine (bytes "data: ") by decide)
  have hempty : ∀ l ∈ ([[]] : List Bytes), AlmostOneLine l := by decide
  rw [eventLines, eventFields, SseEvent.PlainLines, hd]
  simp only [forall_mem_append, hfield (bytes "event: ") e.event (by decide),
    hfield (bytes "id: ") e.id (by decide), hdata, and_iff_left hretry, and_iff_left hempty, and_assoc,
    Option.mem_some_iff, forall_eq']

theorem readAs_eventLines (e : SseEvent) (data : Bytes) :
    ReadAs 1 (eventLines e data) (lfText (eventLines e data)) ↔ ∀ l ∈ eventLines e data,
    AlmostOneLine l := by
  refine ⟨fun h => (length_lines_iff _).mp h.1, fun h => ⟨(length_lines_iff _).mpr h, fun r _ => ?_⟩⟩
  rw [lfText, lines_flatMap_almost h, eventLines, map_append, map_singleton]
  -- no field becomes an empty line, and there is a field of the data
  have hne : ∀ l ∈ (eventFields e data).map chomp, l ≠ [] := by
    intro l hl
    obtain ⟨l₀, h₀, rfl⟩ := mem_map.mp hl
    obtain ⟨p, v, rfl, hp, h13⟩ := mem_eventFields h₀
    rw [chomp_append h13]
    exact append_ne_nil_of_left_ne_nil hp _
  obtain ⟨line, hline⟩ : ∃ line, line ∈ sseDataLines data := by
    refine exists_mem_of_ne_nil _ fun hnil => ?_
    have htext := lfText_sseDataLines data
    rw [hnil] at htext
    exact append_ne_nil_of_right_ne_nil _ (cons_ne_nil _ _) htext.symm
  refine readLines_one_event hne (v := chomp line) (mem_map.mpr ⟨dataLine line, ?_, ?_⟩) r
  · exact mem_append_right _ (mem_map_of_mem hline)
  · exact chomp_append (show 13 ∉ bytes "data: " by decide) line

theorem readAs_comment (text : Bytes) :
    ReadAs 0 [bytes ": " ++ text, []] (lfText [bytes ": " ++ text, []]) ↔ AlmostOneLine text := by
  have hiff : (∀ l ∈ [bytes ": " ++ text, []], AlmostOneLine l) ↔ AlmostOneLine text := by
    rw [forall_mem_cons, almostOneLine_append (by decide)]
    exact and_iff_left (by decide)
  rw [← hiff]
  refine ⟨fun h => (length_lines_iff _).mp h.1, fun h => ⟨(length_lines_iff _).mpr h, fun r hr => ?_⟩⟩
  have hline : chomp (bytes ": " ++ text) = 58 :: 32 :: chomp text := chomp_append (by decide) text
  rw [lfText, lines_flatMap_almost h]
  simp only [map_cons, map_nil, hline, readLines, Reader.line_comment]
  rw [show chomp [] = [] from rfl, Reader.line, if_pos rfl, Reader.dispatch, if_pos hr]
  rfl

/-- **One call is one event**, or none for a comment, and no other line than those of the call:
if and only if no line ends inside of the texts that the caller gives, apart from the LFs of
the data. -/
theorem sse_call_one_event_iff (A : ℕ → Bool) (s : SseStream) :
    (∀ e, (sseFormatEvent A s e).2 = 0 → ∃ text, (sseFormatEvent A s e).1.buf = s.buf ++ text ∧
      (ReadAs 1 (SseCall.lines (.event e)) text ↔ e.PlainLines)) ∧
    ∀ c, (sseFormatComment A s c).2 = 0 → ∃ text, (sseFormatComment A s c).1.buf = s.buf ++ text ∧
      (ReadAs 0 (SseCall.lines (.comment c)) text ↔ ∀ t ∈ c, AlmostOneLine t.1) := by
  constructor
  · intro e he
    refine ⟨_, sseFormatEvent_buf he, ?_⟩
    cases hd : e.data with
    | none =>
      rw [sseFormatEvent, hd] at he
      exact absurd (show (-EINVAL : ℤ) = 0 from he) (by decide)
    | some data =>
      rw [SseCall.lines, hd, ← almostOneLine_eventLines_iff hd]
      exact readAs_eventLines e data.1
  · intro c hc
    refine ⟨_, sseFormatComment_buf hc, ?_⟩
    cases c with
    | none => exact absurd (show (-EINVAL : ℤ) = 0 from hc) (by decide)
    | some text =>
      rw [SseCall.lines, Option.elim_some, readAs_comment]
      simp

def emptyStream : SseStream := ⟨[], sseInitialBuf, none, 1, Nat.zero_le _⟩

theorem sse_call_one_event_tick : ∃ text, text = bytes "event: tick\ndata: a\ndata: b\n\n" ∧
    ReadAs 1 [bytes "event: tick", bytes "data: a", bytes "data: b", []] text := by
  obtain ⟨text, htext, hiff⟩ := (sse_call_one_event_iff (fun _ => true) emptyStream).1
    ⟨some ⟨bytes "tick", by decide⟩, some ⟨bytes "a\nb", by decide⟩, none, 0⟩ (by decide +kernel)
  refine ⟨text, ?_, hiff.mpr (by decide +kernel)⟩
  have hbuf : (sseFormatEvent (fun _ => true) emptyStream
      ⟨some ⟨bytes "tick", by decide⟩, some ⟨bytes "a\nb", by decide⟩, none, 0⟩).1.buf =
        bytes "event: tick\ndata: a\ndata: b\n\n" := by decide +kernel
  exact htext.symm.trans hbuf

/-- Data with CRs in them: the reader gets a second event. -/
theorem sse_call_two_events :
    decode (sseFormatEvent (fun _ => true) emptyStream
      ⟨none, some ⟨bytes "a\r\rdata: b", by decide⟩, none, 0⟩).1.buf =
      [⟨bytes "message", bytes "a", []⟩, ⟨bytes "message", bytes "b", []⟩] := by
  decide +kernel

end Iohttp
