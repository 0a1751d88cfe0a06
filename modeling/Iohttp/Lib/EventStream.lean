/-
# Event streams

The reader of `text/event-stream` in the HTML standard. The text is cut into
lines, which end with CR LF, LF or CR; a line that does not end is dropped. A
line sets a field, and an empty line dispatches the event whose fields were set,
if it has data. Texts are bytes: a byte of 128 or more is never part of an end of a
line, a colon or a name of a field, so that decoding them changes no step.

The lines of a text can be taken one after the other (`readLines_append`), and
lines without an end in them are read back as they were written
(`lines_flatMap`).

Key definitions: `Event`, `Reader.line`, `readLines`, `decode`, `AlmostOneLine`.

Key theorems: `lines_flatMap`, `length_lines_iff`, `readLines_append`, `readLines_data`,
`readLines_one_event`.
-/
import Mathlib.Tactic
import Mathlib.Data.FinEnum

namespace EventStream

open List

/-- The bytes of an ASCII literal. -/
def ascii (s : String) : List UInt8 := s.toList.map fun c => c.toNat.toUInt8

/-- The lines of a text; `cur` are the bytes of the line so far. -/
def splitLines : List UInt8 → List UInt8 → List (List UInt8)
  | cur, 13 :: 10 :: rest => cur :: splitLines [] rest
  | cur, 13 :: rest => cur :: splitLines [] rest
  | cur, 10 :: rest => cur :: splitLines [] rest
  | cur, c :: rest => splitLines (cur ++ [c]) rest
  | _, [] => []

def lines (text : List UInt8) : List (List UInt8) := splitLines [] text

def OneLine (text : List UInt8) : Prop := 13 ∉ text ∧ 10 ∉ text
  deriving Decidable

theorem OneLine.append {s t : List UInt8} (hs : OneLine s) (ht : OneLine t) : OneLine (s ++ t) := by
  simp only [OneLine, mem_append, not_or] at hs ht ⊢
  exact ⟨⟨hs.1, ht.1⟩, hs.2, ht.2⟩

/-- The text without a byte order mark at its start. -/
def stripBom : List UInt8 → List UInt8
  | 0xEF :: 0xBB :: 0xBF :: text => text
  | text => text

structure Event where
  type : List UInt8
  data : List UInt8
  lastEventId : List UInt8
  deriving DecidableEq, Repr

/-- The buffers of a reader, and the reconnection time if one was given. -/
structure Reader where
  data : List UInt8
  type : List UInt8
  lastEventId : List UInt8
  retry : Option ℕ
  deriving DecidableEq, Repr

def Reader.start : Reader := ⟨[], [], [], none⟩

def number (digits : List UInt8) : ℕ := digits.foldl (fun n c => n * 10 + (c.toNat - 48)) 0

/-- A field of an event. An id with a NUL in it is ignored, and so is a
reconnection time that has something else than digits. -/
def Reader.field (r : Reader) (name value : List UInt8) : Reader :=
  if name = ascii "event" then { r with type := value }
  else if name = ascii "data" then { r with data := r.data ++ value ++ [10] }
  else if name = ascii "id" then if 0 ∈ value then r else { r with lastEventId := value }
  else if name = ascii "retry" then
    if ∀ c ∈ value, 48 ≤ c ∧ c ≤ 57 then { r with retry := some (number value) } else r
  else r

/-- The event of the buffers, if there are data. -/
def Reader.dispatch (r : Reader) : Reader × List Event :=
  if r.data = [] then ({ r with type := [] }, [])
  else
    ({ r with data := [], type := [] },
      [⟨if r.type = [] then ascii "message" else r.type,
        if r.data.getLast? = some 10 then r.data.dropLast else r.data, r.lastEventId⟩])

/-- The name of the field in a line, and its value: what is behind the colon,
without a space at its start. -/
def fieldOf (line : List UInt8) : List UInt8 × List UInt8 :=
  let name := line.takeWhile (· ≠ 58)
  let rest := line.drop (name.length + 1)
  (name, if rest.head? = some 32 then rest.tail else rest)

/-- One line. A line that starts with a colon is a comment. -/
def Reader.line (r : Reader) (l : List UInt8) : Reader × List Event :=
  if l = [] then r.dispatch
  else if l.head? = some 58 then (r, [])
  else (r.field (fieldOf l).1 (fieldOf l).2, [])

def readLines : Reader → List (List UInt8) → Reader × List Event
  | r, [] => (r, [])
  | r, l :: ls => ((readLines (r.line l).1 ls).1, (r.line l).2 ++ (readLines (r.line l).1 ls).2)

def decode (text : List UInt8) : List Event := (readLines Reader.start (lines (stripBom text))).2

/-! ### Lines that were written -/

variable {cur name rest : List UInt8} {ls : List (List UInt8)}

theorem splitLines_cons {c : UInt8} (h13 : c ≠ 13) (h10 : c ≠ 10) :
    splitLines cur (c :: rest) = splitLines (cur ++ [c]) rest := by
  rw [splitLines]
  · rintro rest' rfl
    exact absurd rfl h13
  · exact h13
  · exact h10

/-- A line up to its own end. -/
theorem splitLines_line : ∀ {line : List UInt8}, OneLine line → ∀ cur : List UInt8,
    splitLines cur (line ++ 10 :: rest) = (cur ++ line) :: lines rest
  | [], _, cur => by
    rw [nil_append, append_nil, splitLines]
    · rfl
  | c :: line, h, cur => by
    obtain ⟨h13, h10⟩ := h
    rw [mem_cons, not_or] at h13 h10
    rw [cons_append, splitLines_cons (Ne.symm h13.1) (Ne.symm h10.1),
      splitLines_line ⟨h13.2, h10.2⟩, append_assoc]
    rfl

/-- **Lines are read back as they were written**, each with its LF. -/
theorem lines_flatMap : ∀ ls : List (List UInt8), (∀ l ∈ ls, OneLine l) →
    lines (ls.flatMap (· ++ [10])) = ls
  | [], _ => rfl
  | l :: ls, h => by
    rw [flatMap_cons, append_assoc, singleton_append, lines,
      splitLines_line (h l mem_cons_self), nil_append,
      lines_flatMap ls (forall_mem_cons.mp h).2]

/-- A CR that is not followed by an LF ends a line. -/
theorem splitLines_cr (h : rest.head? ≠ some 10) :
    splitLines cur (13 :: rest) = cur :: splitLines [] rest := by
  rw [splitLines]
  rintro rest' rfl
  exact h rfl

/-- What is behind an LF is read by itself. -/
theorem splitLines_append (rest : List UInt8) : ∀ cur text : List UInt8,
    splitLines cur (text ++ 10 :: rest) = splitLines cur (text ++ [10]) ++ lines rest := by
  intro cur text
  fun_induction splitLines cur text with
  | case1 cur text ih => simp [splitLines, ih]
  | case2 cur text hlf ih =>
    cases text with
    | nil => simp [splitLines, lines]
    | cons c text =>
      have hc : ∀ t : List UInt8, (c :: text ++ t).head? ≠ some 10 := by
        rintro t ⟨⟩
        exact hlf text rfl
      show splitLines cur (13 :: (c :: text ++ 10 :: rest)) = splitLines cur
        (13 :: (c :: text ++ [10])) ++ lines rest
      rw [splitLines_cr (hc _), splitLines_cr (hc _), ih]
      rfl
  | case3 cur text ih => simp [splitLines, ih]
  | case4 cur c text _ h13 h10 ih =>
    rw [cons_append, cons_append, splitLines_cons h13 h10, splitLines_cons h13 h10, ih]
  | case5 cur => simp [splitLines, lines]

/-- The lines of a text of lines, some of which may be more than one. -/
theorem lines_flatMap_lf : ∀ ls : List (List UInt8), lines (ls.flatMap (· ++ [10])) = ls.flatMap
    fun l => lines (l ++ [10])
  | [] => rfl
  | l :: ls => by
    rw [flatMap_cons, append_assoc, singleton_append, lines, splitLines_append, lines_flatMap_lf ls]
    rfl

/-- A line that ends with an LF, or with a CR and an LF. -/
def AlmostOneLine (text : List UInt8) : Prop := 10 ∉ text ∧ 13 ∉ text.dropLast
  deriving Decidable

/-- The text of a line without a CR at its end. -/
def chomp (text : List UInt8) : List UInt8 := if text.getLast? = some 13 then text.dropLast else text

/-- **A text with an LF behind it is one line**, or it is more than one. -/
theorem splitLines_cases : ∀ cur text : List UInt8,
    (AlmostOneLine text ∧ splitLines cur (text ++ [10]) = [cur ++ chomp text]) ∨
    (¬AlmostOneLine text ∧ 1 < (splitLines cur (text ++ [10])).length) := by
  -- a line is there in any case
  have hpos : ∀ {text : List UInt8},
    (AlmostOneLine text ∧ splitLines [] (text ++ [10]) = [[] ++ chomp text]) ∨
      (¬AlmostOneLine text ∧ 1 < (splitLines [] (text ++ [10])).length) →
      0 < (splitLines [] (text ++ [10])).length := by
    rintro text (⟨_, h⟩ | ⟨_, h⟩)
    · rw [h]
      exact Nat.one_pos
    · omega
  intro cur text
  fun_induction splitLines cur text with
  | case1 cur text ih | case3 cur text ih =>
    refine .inr ⟨fun h => h.1 (by simp), ?_⟩
    simpa [splitLines] using hpos ih
  | case2 cur text hlf ih =>
    cases text with
    | nil => exact .inl ⟨by decide, by simp [splitLines, chomp]⟩
    | cons c text =>
      have hc : (c :: text ++ [10]).head? ≠ some 10 := by
        rintro ⟨⟩
        exact hlf text rfl
      refine .inr ⟨fun h => h.2 (by simp), ?_⟩
      show 1 < (splitLines cur (13 :: (c :: text ++ [10]))).length
      rw [splitLines_cr hc, length_cons]
      exact Nat.succ_lt_succ (hpos ih)
  | case4 cur c text _ h13 h10 ih =>
    have hiff : AlmostOneLine (c :: text) ↔ AlmostOneLine text := by
      cases text with
      | nil => simp [AlmostOneLine, Ne.symm h10]
      | cons d text => simp [AlmostOneLine, Ne.symm h10, Ne.symm h13]
    have hchomp : chomp (c :: text) = c :: chomp text := by
      cases text with
      | nil => exact if_neg fun h => h13 (Option.some.inj h)
      | cons d text =>
        simp only [chomp, getLast?_cons_cons, dropLast_cons_cons]
        split <;> rfl
    rw [cons_append, splitLines_cons h13 h10, hiff, hchomp]
    simpa using ih
  | case5 cur => exact .inl ⟨by decide, by simp [splitLines, chomp]⟩

/-- A text whose first line starts with an ASCII byte has no byte order mark. -/
theorem stripBom_flatMap (h : ∀ l ∈ ls, ∀ c ∈ l.head?, c < 128) :
    stripBom (ls.flatMap (· ++ [10])) = ls.flatMap (· ++ [10]) := by
  have hhead : ∀ c ∈ (ls.flatMap (· ++ [10])).head?, c < 128 := by
    rcases ls with _ | ⟨_ | ⟨b, l⟩, ls⟩
    · simp
    · simp
    · simpa using h (b :: l) mem_cons_self
  unfold stripBom
  split
  · next he =>
    rw [he] at hhead
    exact absurd (hhead 0xEF rfl) (by decide)
  · rfl

/-- **A text of lines is read as so many lines** if and only if each of them is one. -/
theorem length_lines_iff (ls : List (List UInt8)) :
    (lines (ls.flatMap (· ++ [10]))).length = ls.length ↔ ∀ l ∈ ls, AlmostOneLine l := by
  have hone :
      ∀ l, 1 ≤ (lines (l ++ [10])).length ∧ ((lines (l ++ [10])).length = 1 ↔ AlmostOneLine l) := by
    intro l
    obtain ⟨h, he⟩ | ⟨h, he⟩ := splitLines_cases [] l
    · rw [lines, he]
      exact ⟨le_rfl, iff_of_true rfl h⟩
    · exact ⟨he.le, iff_of_false he.ne' h⟩
  rw [lines_flatMap_lf]
  induction ls with
  | nil => simp
  | cons l ls ih =>
    have hle : ls.length ≤ (ls.flatMap fun l => lines (l ++ [10])).length := by
      simpa using card_nsmul_le_sum (ls.map fun l => (lines (l ++ [10])).length) 1
        (by simpa using fun l _ => (hone l).1)
    have hl := (hone l).1
    rw [forall_mem_cons, flatMap_cons, length_append, length_cons]
    refine Iff.trans ?_ (and_congr (hone l).2 ih)
    omega

/-- Lines that are each one are read as they are, without a CR at the end. -/
theorem lines_flatMap_almost (h : ∀ l ∈ ls, AlmostOneLine l) :
    lines (ls.flatMap (· ++ [10])) = ls.map chomp := by
  rw [lines_flatMap_lf, map_eq_flatMap]
  refine flatMap_congr fun l hl => ?_
  obtain ⟨-, he⟩ | ⟨hn, -⟩ := splitLines_cases [] l
  · exact he
  · exact absurd (h l hl) hn

theorem readLines_append : ∀ (r : Reader) (as bs : List (List UInt8)),
    readLines r (as ++ bs) =
      ((readLines (readLines r as).1 bs).1, (readLines r as).2 ++ (readLines (readLines r as).1 bs).2)
  | _, [], _ => rfl
  | r, a :: as, bs => by
    simp only [cons_append, readLines, readLines_append (r.line a).1 as bs, append_assoc]

/-- A field with its value. -/
theorem fieldOf_field (h : 58 ∉ name) (value : List UInt8) :
    fieldOf (name ++ 58 :: 32 :: value) = (name, value) := by
  have htake : (name ++ 58 :: 32 :: value).takeWhile (· ≠ 58) = name := by
    have hname : ∀ c ∈ name, decide (c ≠ 58) = true := by
      intro c hc
      rw [decide_eq_true_eq]
      rintro rfl
      exact h hc
    rw [takeWhile_append_of_pos hname, takeWhile_cons_of_neg (by decide), append_nil]
  have hdrop : (name ++ 58 :: 32 :: value).drop (name.length + 1) = 32 :: value := by
    simp
  simp only [fieldOf, htake, hdrop, head?_cons, if_true, tail_cons]

/-- The line of a field. -/
theorem Reader.line_field (r : Reader) (hne : name ≠ []) (h : 58 ∉ name)
    (value : List UInt8) : r.line (name ++ 58 :: 32 :: value) = (r.field name value, []) := by
  have hhead : (name ++ 58 :: 32 :: value).head? ≠ some 58 := by
    cases name with
    | nil => exact absurd rfl hne
    | cons c name =>
      rintro he
      cases he
      exact h mem_cons_self
  rw [Reader.line, if_neg (by simp), if_neg hhead, fieldOf_field h]

/-- A comment. -/
theorem Reader.line_comment (r : Reader) (text : List UInt8) : r.line (58 :: text) = (r, []) := by
  rw [Reader.line, if_neg (cons_ne_nil _ _), if_pos head?_cons]

/-- Data that are there are dispatched without the newline behind them. -/
theorem Reader.line_dispatch {r : Reader} {data : List UInt8} (h : r.data = data ++ [10]) :
    r.line [] = ({ r with data := [], type := [] },
      [⟨if r.type = [] then ascii "message" else r.type, data, r.lastEventId⟩]) := by
  have hlast : (data ++ [10]).getLast? = some 10 := by simp
  rw [Reader.line, if_pos rfl, Reader.dispatch, h, if_neg (by simp), if_pos hlast, dropLast_concat]

/-- A line that is not empty dispatches nothing, and keeps the data. -/
theorem Reader.line_of_ne_nil (r : Reader) {l : List UInt8} (h : l ≠ []) :
    (r.line l).2 = [] ∧ (r.data ≠ [] → (r.line l).1.data ≠ []) := by
  rw [Reader.line, if_neg h]
  split
  · exact ⟨rfl, id⟩
  · refine ⟨rfl, fun hd => ?_⟩
    dsimp only [Reader.field]
    split_ifs <;> simp [hd]

def dataLine (value : List UInt8) : List UInt8 := ascii "data" ++ 58 :: 32 :: value

/-- Data in several lines, which are joined again by their ends. -/
theorem readLines_data : ∀ (values : List (List UInt8)) (r : Reader),
    readLines r (values.map dataLine) = ({ r with data := r.data ++ values.flatMap (· ++ [10]) }, [])
  | [], r => by simp [readLines]
  | v :: values, r => by
    have hline : r.line (dataLine v) = ({ r with data := r.data ++ v ++ [10] }, []) := by
      rfl
    rw [map_cons, readLines, hline, readLines_data values]
    simp

/-- Lines that are not empty dispatch nothing, and there are data behind one that has some. -/
theorem readLines_of_ne_nil : ∀ {ls : List (List UInt8)}, (∀ l ∈ ls, l ≠ []) → ∀ r : Reader,
    (readLines r ls).2 = [] ∧ (r.data ≠ [] ∨ (∃ v, dataLine v ∈ ls) → (readLines r ls).1.data ≠ [])
  | [], _, r => ⟨rfl, fun h => h.resolve_right (by simp)⟩
  | l :: ls, hne, r => by
    obtain ⟨hev, hkeep⟩ := r.line_of_ne_nil (hne l mem_cons_self)
    obtain ⟨hev', hdata⟩ := readLines_of_ne_nil (forall_mem_cons.mp hne).2 (r.line l).1
    refine ⟨by rw [readLines, hev, hev', append_nil], fun h => hdata ?_⟩
    obtain h | ⟨v, hv⟩ := h
    · exact .inl (hkeep h)
    · obtain rfl | hv := mem_cons.mp hv
      · refine .inl ?_
        rw [dataLine, r.line_field (by decide) (by decide)]
        simp [Reader.field, ascii]
      · exact .inr ⟨v, hv⟩

/-- **Lines up to an empty one are one event**, if there are data in them. -/
theorem readLines_one_event (hne : ∀ l ∈ ls, l ≠ []) {v : List UInt8}
    (hv : dataLine v ∈ ls) (r : Reader) : (readLines r (ls ++ [[]])).2.length = 1 := by
  obtain ⟨hev, hdata⟩ := readLines_of_ne_nil hne r
  have hd := hdata (.inr ⟨v, hv⟩)
  rw [readLines_append, hev, nil_append, readLines, readLines, append_nil, Reader.line, if_pos rfl,
    Reader.dispatch, if_neg hd]
  rfl

end EventStream
