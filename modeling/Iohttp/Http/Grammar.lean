/-
# What the request parser accepts

The parser takes exactly the heads of a grammar: an optional empty line, the
request line, header lines and an empty line. Each lemma says of one function
of the parser what it consumes; read from left to right they give the pieces
of a buffer that was accepted, with the offsets of the slices, and from right
to left that a head put together from such pieces is accepted.

Key definitions: `HeaderLine`, `HeaderLines`, `RequestHead`.

Key theorem: `phrParseRequest_eq_ok`.
-/
import Iohttp.Http.Http1

namespace Iohttp
namespace Pico

open Incremental List

/-- A line end. -/
def Eol (e : Bytes) : Prop := e = [cr, lf] ∨ e = [lf]

theorem Eol.ne_nil {e : Bytes} (h : Eol e) : e ≠ [] := by
  rcases h with rfl | rfl <;> simp

theorem Eol.head {e : Bytes} (h : Eol e) (r : Bytes) : ∃ c ∈ (e ++ r).head?, isCtl c = true := by
  rcases h with rfl | rfl
  · exact ⟨cr, by simp, by decide⟩
  · exact ⟨lf, by simp, by decide⟩

variable {s r : Bytes} {n m : ℕ} {u : Unit} {c : UInt8} {h : Header} {l : Bytes} {maxHeaders : ℕ}
  {q : PhrRequest} {hs : List Header}

theorem expectChar_eq_ok {ch : UInt8} : expectChar ch s n = .ok (u, r, m) ↔ s = ch :: r ∧ m = n + 1 := by
  simp only [expectChar, bind_eq_ok, next_eq_ok]
  constructor
  · rintro ⟨c, r', m', ⟨rfl, rfl⟩, h⟩
    split_ifs at h with hc
    · obtain ⟨-, rfl, rfl⟩ := pure_eq_ok.mp h
      exact ⟨by rw [hc], rfl⟩
    · simp [Parser.fail] at h
  · rintro ⟨rfl, rfl⟩
    exact ⟨ch, r, n + 1, ⟨rfl, rfl⟩, by rw [if_pos rfl, pure_eq_ok]; exact ⟨rfl, rfl, rfl⟩⟩

theorem expectChars_eq_ok : ∀ {cs : Bytes} {s : Bytes} {n : ℕ},
    expectChars cs s n = .ok (u, r, m) ↔ s = cs ++ r ∧ m = n + cs.length
  | [], s, n => by
    rw [expectChars, pure_eq_ok]
    simp [eq_comm]
  | c :: cs, s, n => by
    simp only [expectChars, bind_eq_ok, expectChar_eq_ok, expectChars_eq_ok]
    constructor
    · rintro ⟨_, r', m', ⟨rfl, rfl⟩, rfl, rfl⟩
      exact ⟨rfl, by simp; omega⟩
    · rintro ⟨rfl, rfl⟩
      exact ⟨(), cs ++ r, n + 1, ⟨rfl, rfl⟩, rfl, by simp; omega⟩

theorem lineEnd_eq_ok : lineEnd s n = .ok (u, r, m) ↔ ∃ e, Eol e ∧ s = e ++ r ∧ m = n + e.length := by
  simp only [lineEnd, bind_eq_ok, next_eq_ok]
  constructor
  · rintro ⟨c, r', m', ⟨rfl, rfl⟩, h⟩
    split_ifs at h with h1 h2
    · obtain ⟨rfl, rfl⟩ := expectChar_eq_ok.mp h
      exact ⟨[cr, lf], .inl rfl, by simp [h1], by simp⟩
    · obtain ⟨-, rfl, rfl⟩ := pure_eq_ok.mp h
      exact ⟨[lf], .inr rfl, by simp [h2], by simp⟩
    · simp [Parser.fail] at h
  · rintro ⟨e, rfl | rfl, rfl, rfl⟩
    · exact ⟨cr, lf :: r, n + 1, ⟨rfl, rfl⟩, by
        rw [if_pos rfl, expectChar_eq_ok]
        exact ⟨rfl, rfl⟩⟩
    · exact ⟨lf, r, n + 1, ⟨rfl, rfl⟩, by
        rw [if_neg (by decide), if_pos rfl, pure_eq_ok]
        exact ⟨rfl, rfl, rfl⟩⟩

theorem sliceOf_eq_ok {p : Parser UInt8 Bytes} {t : Slice} :
    sliceOf p s n = .ok (t, r, m) ↔ t.off = n ∧ p s n = .ok (t.bytes, r, m) := by
  simp only [sliceOf, bind_eq_ok, pos_eq_ok, pure_eq_ok]
  constructor
  · rintro ⟨_, _, _, ⟨rfl, rfl, rfl⟩, tok, r', m', h, rfl, rfl, rfl⟩
    exact ⟨rfl, h⟩
  · rintro ⟨rfl, h⟩
    exact ⟨_, _, _, ⟨rfl, rfl, rfl⟩, _, _, _, h, rfl, rfl, rfl⟩

theorem skipSpaces_eq_ok :
    skipSpaces s n = .ok (u, r, m) ↔ ∃ c sps, s = c :: sps ++ r ∧ m = n + 1 + sps.length ∧
      (∀ x ∈ sps, x = sp) ∧ ∃ x ∈ r.head?, x ≠ sp := by
  simp only [skipSpaces, bind_eq_ok, next_eq_ok, span_eq_ok, pure_eq_ok]
  constructor
  · rintro ⟨c, r', m', ⟨rfl, rfl⟩, sps, _, _, ⟨rfl, rfl, hs, x, hx, hxs⟩, -, rfl, rfl⟩
    exact ⟨c, sps, by simp, rfl, fun y hy => by simpa using (hs y hy).1, x, hx, by simpa using hxs⟩
  · rintro ⟨c, sps, rfl, rfl, hs, x, hx, hxs⟩
    exact ⟨c, _, _, ⟨rfl, rfl⟩, sps, r, _,
      ⟨rfl, rfl, fun y hy => by simpa using hs y hy, x, hx, by simpa using hxs⟩, trivial, rfl, rfl⟩

theorem getTokenToEol_eq_ok {t : Slice} :
    getTokenToEol s n = .ok (t, r, m) ↔ t.off = n ∧ (∀ c ∈ t.bytes, isCtl c = false) ∧
      ∃ e, Eol e ∧ s = t.bytes ++ e ++ r ∧ m = n + t.bytes.length + e.length := by
  simp only [getTokenToEol, bind_eq_ok, sliceOf_eq_ok, span_eq_ok, lineEnd_eq_ok, pure_eq_ok]
  constructor
  · rintro ⟨tok, r1, m1, ⟨ho, rfl, rfl, hc, -⟩, _, r2, m2, ⟨e, he, rfl, rfl⟩, rfl, rfl, rfl⟩
    exact ⟨ho, fun c h => (hc c h).1, e, he, by simp, rfl⟩
  · rintro ⟨ho, hc, e, he, rfl, rfl⟩
    exact ⟨t, e ++ r, n + t.bytes.length,
      ⟨ho, by simp, rfl, fun c h => ⟨hc c h, trivial⟩, he.head r⟩, (), r,
      _, ⟨e, he, rfl, rfl⟩, rfl, rfl, rfl⟩

theorem parseHttpVersion_eq_ok {v : ℕ} :
    parseHttpVersion s n = .ok (v, r, m) ↔ ∃ c : UInt8, 48 ≤ c ∧ c ≤ 57 ∧ v = (c - 48).toNat ∧
      r ≠ [] ∧ s = bytes "HTTP/1." ++ c :: r ∧ m = n + 8 := by
  simp only [parseHttpVersion, bind_eq_ok, need_eq_ok, expectChars_eq_ok, next_eq_ok]
  constructor
  · rintro ⟨_, _, _, ⟨h9, rfl, rfl⟩, _, _, _, ⟨rfl, rfl⟩, c, _, _, ⟨rfl, rfl⟩, h⟩
    split_ifs at h with hc
    · simp [Parser.fail] at h
    · obtain ⟨rfl, rfl, rfl⟩ := pure_eq_ok.mp h
      rw [not_or, UInt8.not_lt, UInt8.not_lt] at hc
      refine ⟨c, hc.1, hc.2, rfl, ?_, rfl, rfl⟩
      rintro rfl
      simp [bytes] at h9
  · rintro ⟨c, h1, h2, rfl, hr, rfl, rfl⟩
    refine ⟨(), _, _, ⟨?_, rfl, rfl⟩, (), _, _, ⟨rfl, rfl⟩, c, r, _, ⟨rfl, rfl⟩, ?_⟩
    · have := length_pos_iff.mpr hr
      simp [bytes]
      omega
    · rw [if_neg (by rw [not_or, UInt8.not_lt, UInt8.not_lt]; exact ⟨h1, h2⟩), pure_eq_ok]
      exact ⟨rfl, rfl, rfl⟩

theorem headerName_eq_ok {t : Slice} :
    headerName s n = .ok (t, r, m) ↔ t.off = n ∧ t.bytes ≠ [] ∧ (∀ c ∈ t.bytes, tokenChar c = true) ∧
      ∃ bl, (∀ c ∈ bl, isBlank c = true) ∧ s = t.bytes ++ colon :: bl ++ r ∧
        m = n + t.bytes.length + 1 + bl.length ∧ ∃ c ∈ r.head?, isBlank c = false := by
  simp only [headerName, parseToken, bind_eq_ok, sliceOf_eq_ok, span_eq_ok]
  constructor
  · rintro ⟨tok, r1, m1, ⟨ho, rfl, rfl, hc, x, hx, hxc⟩, h⟩
    split_ifs at h with h0
    · simp [Parser.fail] at h
    · simp only [bind_eq_ok, next_eq_ok, span_eq_ok, pure_eq_ok] at h
      obtain ⟨d, _, _, ⟨rfl, rfl⟩, bl, _, _, ⟨rfl, rfl, hb, y, hy, hyb⟩, rfl, rfl, rfl⟩ := h
      obtain rfl : d = x := by simpa using hx
      obtain rfl : d = colon := by simpa using hxc
      exact ⟨ho, h0, fun c h => by simpa using (hc c h).2, bl, fun c h => by simpa using (hb c h).1,
        by simp, rfl, y, hy, by simpa using hyb⟩
  · rintro ⟨ho, h0, hc, bl, hb, rfl, rfl, y, hy, hyb⟩
    refine ⟨t, colon :: (bl ++ r), n + t.bytes.length, ⟨ho, by simp, rfl, ?_, colon, rfl, by simp⟩, ?_⟩
    · intro c h
      have ht := hc c h
      refine ⟨?_, by simp [ht]⟩
      rw [beq_eq_false_iff_ne]
      rintro rfl
      exact absurd ht (by decide)
    · rw [if_neg h0]
      simp only [bind_eq_ok, next_eq_ok, span_eq_ok, pure_eq_ok]
      exact ⟨colon, _, _, ⟨rfl, rfl⟩, bl, r, _, ⟨rfl, rfl, fun c h => by simpa using hb c h, y, hy,
        by simpa using hyb⟩, trivial, rfl, rfl⟩

/-! ### Header lines -/

/-- The line of a header at position `n`: its value is the token up to the
line end, without the blanks around it. -/
def HeaderLine (n : ℕ) (h : Header) (l : Bytes) : Prop :=
  ∃ bl tok e, l = h.name.bytes ++ colon :: bl ++ tok ++ e ∧ Eol e ∧
    h.name.off = n ∧ h.name.bytes ≠ [] ∧ (∀ c ∈ h.name.bytes, tokenChar c = true) ∧
    (∀ c ∈ bl, isBlank c = true) ∧ (∀ c ∈ tok.head?, isBlank c = false) ∧
    (∀ c ∈ tok, isCtl c = false) ∧
    h.value = ⟨n + h.name.bytes.length + 1 + bl.length, tok.rdropWhile isBlank⟩

def HeaderLines : ℕ → List Header → Bytes → Prop
  | _, [], l => l = []
  | n, h :: hs, l => ∃ l₁ l₂, l = l₁ ++ l₂ ∧ HeaderLine n h l₁ ∧ HeaderLines (n + l₁.length) hs l₂

/-- The parser's header. -/
def toPhr (h : Header) : PhrHeader := ⟨some h.name, h.value⟩

theorem namedHeaders_eq_some : ∀ {ps : List PhrHeader} {hs : List Header},
    namedHeaders ps = some hs ↔ ps = hs.map toPhr
  | [], hs => by
    rw [namedHeaders]
    cases hs <;> simp
  | ⟨none, v⟩ :: ps, hs => by
    rw [namedHeaders]
    cases hs <;> simp [toPhr]
  | ⟨some name, v⟩ :: ps, hs => by
    rw [namedHeaders]
    cases hs with
    | nil => simp
    | cons h hs =>
      simp only [Option.map_eq_some_iff, namedHeaders_eq_some, List.cons.injEq, map_cons, toPhr,
        PhrHeader.mk.injEq, Option.some.injEq]
      constructor
      · rintro ⟨a, rfl, rfl, rfl⟩
        exact ⟨⟨rfl, rfl⟩, rfl⟩
      · rintro ⟨⟨rfl, rfl⟩, rfl⟩
        exact ⟨hs, rfl, rfl, rfl⟩

theorem tokenChar_not_blank (h : tokenChar c = true) : isBlank c = false := by
  by_contra hb
  rw [Bool.not_eq_false, isBlank, Bool.or_eq_true, beq_iff_eq, beq_iff_eq] at hb
  rcases hb with rfl | rfl <;> exact absurd h (by decide)

theorem isCtl_not_blank (h : isCtl c = true) : isBlank c = false := by
  by_contra hb
  rw [Bool.not_eq_false, isBlank, Bool.or_eq_true, beq_iff_eq, beq_iff_eq] at hb
  rcases hb with rfl | rfl <;> exact absurd h (by decide)

theorem parseHeader_eq_ok {first : Bool} : parseHeader first s n = .ok (toPhr h, r, m) ↔
      ∃ l, HeaderLine n h l ∧ s = l ++ r ∧ m = n + l.length := by
  simp only [parseHeader, optionalName, bind_eq_ok, peek_eq_ok, getTokenToEol_eq_ok, pure_eq_ok]
  constructor
  · rintro ⟨name, r₁, m₁, ⟨c, _, _, ⟨hc, rfl, rfl⟩, h1⟩, v, r₂, m₂, ⟨hv, hctl, e, he, rfl, rfl⟩, heq,
      rfl, rfl⟩
    obtain ⟨rfl, hval⟩ : name = some h.name ∧
        ⟨v.off, v.bytes.rdropWhile isBlank⟩ = h.value := by simpa [toPhr] using heq
    split_ifs at h1 with hb
    · simp [pure_eq_ok] at h1
    · simp only [bind_eq_ok, headerName_eq_ok, pure_eq_ok] at h1
      obtain ⟨nm, _, _, ⟨ho, hne, htok, bl, hbl, rfl, rfl, y, hy, hyb⟩, hnm, rfl, rfl⟩ := h1
      obtain rfl : nm = h.name := by simpa using hnm
      refine ⟨h.name.bytes ++ colon :: bl ++ v.bytes ++ e, ?_, by simp, by simp; omega⟩
      refine ⟨bl, v.bytes, e, rfl, he, ho, hne, htok, hbl, ?_, hctl, ?_⟩
      · intro d hd
        cases hvb : v.bytes with
        | nil => simp [hvb] at hd
        | cons d' v' =>
          rw [hvb] at hy hd
          obtain rfl : d' = d := by simpa using hd
          obtain rfl : d' = y := by simpa using hy
          exact hyb
      · rw [← hval, hv]
  · rintro ⟨l, ⟨bl, tok, e, rfl, he, ho, hne, htok, hbl, hhd, hctl, hval⟩, rfl, rfl⟩
    obtain ⟨c, nm, hnm⟩ := exists_cons_of_ne_nil hne
    have hcb : isBlank c = false := tokenChar_not_blank (htok c (by simp [hnm]))
    refine ⟨some h.name, tok ++ e ++ r, n + h.name.bytes.length + 1 + bl.length,
      ⟨c, _, _, ⟨by simp [hnm], rfl, rfl⟩, ?_⟩,
      ⟨n + h.name.bytes.length + 1 + bl.length, tok⟩, r, _, ⟨rfl, hctl, e, he, rfl, rfl⟩, ?_, rfl, ?_⟩
    · rw [if_neg (by simp [hcb])]
      simp only [bind_eq_ok, headerName_eq_ok, pure_eq_ok]
      refine ⟨h.name, _, _, ⟨ho, hne, htok, bl, hbl, by simp, rfl, ?_⟩, rfl, rfl, rfl⟩
      cases tok with
      | nil =>
        obtain ⟨d, hd, hdc⟩ := he.head r
        exact ⟨d, by simpa using hd, isCtl_not_blank hdc⟩
      | cons d tok => exact ⟨d, by simp, hhd d (by simp)⟩
    · rw [toPhr, hval]
    · simp
      omega

theorem HeaderLine.head (hl : HeaderLine n h l) (t : Bytes) :
    ∃ c ∈ (l ++ t).head?, tokenChar c = true := by
  obtain ⟨bl, tok, e, rfl, -, -, hne, htok, -⟩ := hl
  obtain ⟨c, nm, hnm⟩ := exists_cons_of_ne_nil hne
  exact ⟨c, by simp [hnm], htok c (by simp [hnm])⟩

theorem tokenChar_not_eol (h : tokenChar c = true) : ¬(c = cr ∨ c = lf) := by
  rintro (rfl | rfl) <;> exact absurd h (by decide)

theorem parseHeaders_eq_ok : ∀ (room : ℕ) (first : Bool) (hs : List Header) (s : Bytes) (n : ℕ)
    (r : Bytes) (m : ℕ),
    parseHeaders room first s n = .ok (hs.map toPhr, r, m) ↔ hs.length ≤ room ∧
      ∃ ls e, HeaderLines n hs ls ∧ Eol e ∧ s = ls ++ e ++ r ∧ m = n + ls.length + e.length
  | room, first, [], s, n, r, m => by
    rw [parseHeaders.eq_def]
    simp only [bind_eq_ok, peek_eq_ok, map_nil, length_nil, Nat.zero_le, true_and, HeaderLines]
    constructor
    · rintro ⟨c, _, _, ⟨hc, rfl, rfl⟩, h⟩
      split_ifs at h with h1
      · simp only [bind_eq_ok, lineEnd_eq_ok, pure_eq_ok] at h
        obtain ⟨_, _, _, ⟨e, he, rfl, rfl⟩, -, rfl, rfl⟩ := h
        exact ⟨[], e, rfl, he, rfl, rfl⟩
      · cases room with
        | zero => simp [Parser.fail] at h
        | succ room =>
          simp only [bind_eq_ok, pure_eq_ok] at h
          simp at h
    · rintro ⟨_, e, rfl, he, rfl, rfl⟩
      obtain ⟨c, hc⟩ : ∃ c, (e ++ r).head? = some c ∧ (c = cr ∨ c = lf) := by
        rcases he with rfl | rfl
        · exact ⟨cr, rfl, .inl rfl⟩
        · exact ⟨lf, rfl, .inr rfl⟩
      refine ⟨c, e ++ r, n, ⟨hc.1, rfl, rfl⟩, ?_⟩
      rw [if_pos hc.2]
      simp only [bind_eq_ok, lineEnd_eq_ok, pure_eq_ok]
      exact ⟨(), r, _, ⟨e, he, rfl, rfl⟩, trivial, rfl, rfl⟩
  | 0, first, h :: hs, s, n, r, m => by
    rw [parseHeaders]
    simp only [bind_eq_ok, peek_eq_ok, length_cons, Nat.le_zero, Nat.add_one_ne_zero, false_and,
      iff_false]
    rintro ⟨c, _, _, ⟨hc, rfl, rfl⟩, h⟩
    split_ifs at h with h1
    · simp [bind_eq_ok, pure_eq_ok] at h
    · simp [Parser.fail] at h
  | room + 1, first, h :: hs, s, n, r, m => by
    rw [parseHeaders]
    simp only [bind_eq_ok, peek_eq_ok, length_cons, Nat.add_le_add_iff_right]
    constructor
    · rintro ⟨c, _, _, ⟨hc, rfl, rfl⟩, hp⟩
      split_ifs at hp with h1
      · simp [bind_eq_ok, pure_eq_ok] at hp
      · simp only [bind_eq_ok, pure_eq_ok] at hp
        obtain ⟨p, _, _, hp1, ps, _, _, hps, heq, rfl, rfl⟩ := hp
        obtain ⟨rfl, rfl⟩ : p = toPhr h ∧ ps = hs.map toPhr := by simpa using heq
        obtain ⟨l, hl, rfl, rfl⟩ := parseHeader_eq_ok.mp hp1
        obtain ⟨hlen, ls, e, hls, he, rfl, rfl⟩ := (parseHeaders_eq_ok room false hs _ _ _ _).mp hps
        exact ⟨hlen, l ++ ls, e, ⟨l, ls, rfl, hl, hls⟩, he, by simp, by simp; omega⟩
    · rintro ⟨hlen, _, e, ⟨l, ls, rfl, hl, hls⟩, he, rfl, rfl⟩
      obtain ⟨c, hc, htok⟩ := hl.head (ls ++ e ++ r)
      refine ⟨c, _, _, ⟨by simpa using hc, rfl, rfl⟩, ?_⟩
      rw [if_neg (tokenChar_not_eol htok)]
      simp only [bind_eq_ok, pure_eq_ok]
      exact ⟨toPhr h, ls ++ e ++ r, n + l.length, parseHeader_eq_ok.mpr ⟨l, hl, by simp, rfl⟩,
        hs.map toPhr, r, _, (parseHeaders_eq_ok room false hs _ _ _ _).mpr
        ⟨hlen, ls, e, hls, he, rfl, rfl⟩, rfl, rfl,
        by simp; omega⟩

/-- A head: an optional empty line, the request line, the header lines, the
empty line. -/
structure RequestHead (maxHeaders : ℕ) (q : PhrRequest) (hs : List Header) (head : Bytes) : Prop where
  room : hs.length ≤ maxHeaders
  headers : q.headers = hs.map toPhr
  method_ne : q.method.bytes ≠ []
  method_tok : ∀ c ∈ q.method.bytes, tokenChar c = true
  path_ne : q.path.bytes ≠ []
  path_char : ∀ c ∈ q.path.bytes, c ≠ sp ∧ ¬(c < 32 ∨ c = 127)
  pieces : ∃ e₀ s₁ s₂ c e₁ ls e₂,
    head = e₀ ++ (q.method.bytes ++ (sp :: s₁ ++ (q.path.bytes ++ (sp :: s₂ ++
      (bytes "HTTP/1." ++ c :: (e₁ ++ (ls ++ e₂))))))) ∧
    (e₀ = [] ∨ Eol e₀) ∧ q.method.off = e₀.length ∧ (∀ x ∈ s₁, x = sp) ∧
    q.path.off = e₀.length + q.method.bytes.length + 1 + s₁.length ∧ (∀ x ∈ s₂, x = sp) ∧
    48 ≤ c ∧ c ≤ 57 ∧ q.minorVersion = (c - 48).toNat ∧ Eol e₁ ∧ Eol e₂ ∧
    HeaderLines (q.path.off + q.path.bytes.length + 1 + s₂.length + 8 + e₁.length) hs ls

theorem skipEmptyLine_eq_ok :
    skipEmptyLine s n = .ok (u, r, m) ↔ s ≠ [] ∧ ∃ e, (e = [] ∧ ¬(∃ c ∈ s.head?, c = cr ∨ c = lf) ∨
      Eol e) ∧
      s = e ++ r ∧ m = n + e.length := by
  simp only [skipEmptyLine, bind_eq_ok, peek_eq_ok]
  constructor
  · rintro ⟨c, _, _, ⟨hc, rfl, rfl⟩, h⟩
    refine ⟨by rintro rfl; simp at hc, ?_⟩
    split_ifs at h with h1
    · obtain ⟨e, he, rfl, rfl⟩ := lineEnd_eq_ok.mp h
      exact ⟨e, .inr he, rfl, rfl⟩
    · obtain ⟨-, rfl, rfl⟩ := pure_eq_ok.mp h
      refine ⟨[], .inl ⟨rfl, ?_⟩, rfl, rfl⟩
      rintro ⟨d, hd, hd'⟩
      obtain rfl : c = d := by simpa [hc] using hd
      exact h1 hd'
  · rintro ⟨hs, e, he, rfl, rfl⟩
    obtain ⟨c, t, hct⟩ := exists_cons_of_ne_nil hs
    refine ⟨c, _, _, ⟨by rw [hct]; rfl, rfl, rfl⟩, ?_⟩
    rcases he with ⟨rfl, hne⟩ | he
    · rw [if_neg (fun h => hne ⟨c, by rw [hct]; rfl, h⟩), pure_eq_ok]
      exact ⟨rfl, rfl, rfl⟩
    · have hc : c = cr ∨ c = lf := by
        rcases he with rfl | rfl <;> simp at hct <;> simp [hct.1]
      rw [if_pos hc, lineEnd_eq_ok]
      exact ⟨e, he, rfl, rfl⟩

theorem parseRequest_sound
    (h : parseRequest maxHeaders s 0 = .ok (q, r, m)) (hq : q.headers = hs.map toPhr) :
    ∃ head, RequestHead maxHeaders q hs head ∧ s = head ++ r ∧ m = head.length := by
  simp only [parseRequest, bind_eq_ok, skipEmptyLine_eq_ok, parseToken, advanceToken, sliceOf_eq_ok,
    span_eq_ok, skipSpaces_eq_ok] at h
  obtain ⟨_, _, _, ⟨hne, e₀, he₀, rfl, rfl⟩, meth, _, _, ⟨hmo, rfl, rfl, hmt, x, hx, hxs⟩, h⟩ := h
  obtain ⟨_, _, _, ⟨x', s₁, rfl, rfl, hs₁, y, hy, hys⟩, path, _, _,
    ⟨hpo, rfl, rfl, hpc, z, hz, hzs⟩, h⟩ := h
  obtain ⟨_, _, _, ⟨z', s₂, rfl, rfl, hs₂, w, hw, hws⟩, h⟩ := h
  obtain rfl : x' = x := by simpa using hx
  obtain rfl : z' = z := by simpa using hz
  obtain rfl : x' = sp := by simpa using hxs
  obtain rfl : z' = sp := by simpa using hzs
  split_ifs at h with h0
  · simp [Parser.fail] at h
  · rw [not_or] at h0
    simp only [bind_eq_ok, parseHttpVersion_eq_ok, lineEnd_eq_ok, pure_eq_ok] at h
    obtain ⟨v, _, _, ⟨c, hc1, hc2, rfl, hr, rfl, rfl⟩, _, _, _, ⟨e₁, he₁, rfl, rfl⟩, ps, _, _, hps, rfl,
      rfl, rfl⟩ := h
    obtain rfl : ps = hs.map toPhr := hq
    obtain ⟨hlen, ls, e₂, hls, he₂, rfl, rfl⟩ := (parseHeaders_eq_ok _ _ _ _ _ _ _).mp hps
    refine ⟨e₀ ++ (meth.bytes ++ (sp :: s₁ ++ (path.bytes ++ (sp :: s₂ ++
      (bytes "HTTP/1." ++ c :: (e₁ ++ (ls ++ e₂))))))), ?_, by simp, by simp [bytes]; omega⟩
    refine ⟨hlen, rfl, h0.1, fun c h => by simpa using (hmt c h).2, h0.2,
      fun c h => by simpa [not_or] using hpc c h, e₀, s₁, s₂, c, e₁, ls, e₂, rfl, ?_, by simpa using hmo,
      hs₁, ?_, hs₂, hc1, hc2, rfl, he₁, he₂, ?_⟩
    · rcases he₀ with ⟨rfl, -⟩ | he₀
      · exact .inl rfl
      · exact .inr he₀
    · simp only [hpo]
      omega
    · convert hls using 1
      simp only [hpo]

theorem pathChar_ok (h : c ≠ sp ∧ ¬(c < 32 ∨ c = 127)) :
    (c == sp) = false ∧ (decide (c < 32) || c == 127) = false := by
  simpa [not_or] using h

theorem parseRequest_complete {head : Bytes} (h : RequestHead maxHeaders q hs head) :
    parseRequest maxHeaders (head ++ r) 0 = .ok (q, r, head.length) := by
  obtain ⟨hroom, hq, hm, hmt, hp, hpc, e₀, s₁, s₂, c, e₁, ls, e₂, rfl, he₀, hmo, hs₁, hpo, hs₂, hc1, hc2,
    hv, he₁, he₂, hls⟩ := h
  simp only [parseRequest, bind_eq_ok, skipEmptyLine_eq_ok, parseToken, advanceToken, sliceOf_eq_ok,
    span_eq_ok, skipSpaces_eq_ok]
  have hvne : e₁ ++ (ls ++ (e₂ ++ r)) ≠ [] := append_ne_nil_of_left_ne_nil he₁.ne_nil _
  obtain ⟨m₀, ms, hm0⟩ := exists_cons_of_ne_nil hm
  obtain ⟨p₀, ps, hp0⟩ := exists_cons_of_ne_nil hp
  refine ⟨(), q.method.bytes ++ (sp :: s₁ ++ (q.path.bytes ++ (sp :: s₂ ++
    (bytes "HTTP/1." ++ c :: (e₁ ++ (ls ++ (e₂ ++ r))))))), e₀.length,
    ⟨?_, e₀, ?_, by simp, by simp⟩, ?_⟩
  · simp [hm]
  · rcases he₀ with rfl | he₀
    · refine .inl ⟨rfl, ?_⟩
      rintro ⟨d, hd, hd'⟩
      obtain rfl : m₀ = d := by simpa [hm0] using hd
      exact tokenChar_not_eol (hmt m₀ (by simp [hm0])) hd'
    · exact .inr he₀
  refine ⟨q.method, sp :: s₁ ++ (q.path.bytes ++ (sp :: s₂ ++
    (bytes "HTTP/1." ++ c :: (e₁ ++ (ls ++ (e₂ ++ r)))))), _, ⟨hmo, rfl, rfl, ?_, sp, rfl, by simp⟩, ?_⟩
  · intro d hd
    have ht := hmt d hd
    refine ⟨?_, by simp [ht]⟩
    rw [beq_eq_false_iff_ne]
    rintro rfl
    exact absurd ht (by decide)
  refine ⟨(), q.path.bytes ++ (sp :: s₂ ++ (bytes "HTTP/1." ++ c :: (e₁ ++ (ls ++ (e₂ ++ r))))), _,
    ⟨sp, s₁, rfl, rfl, hs₁, p₀, by simp [hp0], (hpc p₀ (by simp [hp0])).1⟩, ?_⟩
  refine ⟨q.path, sp :: s₂ ++ (bytes "HTTP/1." ++ c :: (e₁ ++ (ls ++ (e₂ ++ r)))), _,
    ⟨by rw [hpo], rfl, rfl, fun d hd => pathChar_ok (hpc d hd), sp, rfl, by simp⟩, ?_⟩
  refine ⟨(), bytes "HTTP/1." ++ c :: (e₁ ++ (ls ++ (e₂ ++ r))), _,
    ⟨sp, s₂, rfl, rfl, hs₂, 72, rfl, by decide⟩, ?_⟩
  rw [if_neg (by simp [hm, hp])]
  simp only [bind_eq_ok, parseHttpVersion_eq_ok, lineEnd_eq_ok, pure_eq_ok]
  refine ⟨q.minorVersion, e₁ ++ (ls ++ (e₂ ++ r)), _, ⟨c, hc1, hc2, hv, hvne, rfl, rfl⟩, (),
    ls ++ (e₂ ++ r), _, ⟨e₁, he₁, rfl, rfl⟩, hs.map toPhr, r, _,
    (parseHeaders_eq_ok _ _ _ _ _ _ _).mpr ⟨hroom, ls, e₂, ?_, he₂, by simp, rfl⟩, ?_, rfl, ?_⟩
  · convert hls using 1
    rw [hpo]
  · rw [← hq]
  · simp [bytes]
    omega

variable {buf : Bytes}

/-- **What the parser takes**: a head with named headers, from a buffer that
starts with it. -/
theorem phrParseRequest_eq_ok (hq : q.headers = hs.map toPhr) :
    phrParseRequest buf maxHeaders = .ok (q, n) ↔
      ∃ head t, RequestHead maxHeaders q hs head ∧ buf = head ++ t ∧ n = head.length := by
  constructor
  · intro h
    unfold phrParseRequest at h
    rcases hr : parseRequest maxHeaders buf 0 with ⟨q', t, m⟩ | _ | _
    · obtain ⟨rfl, rfl⟩ : q' = q ∧ m = n := by simpa [hr] using h
      obtain ⟨head, hh, hb, hm⟩ := parseRequest_sound hr hq
      exact ⟨head, t, hh, hb, hm⟩
    · simp [hr] at h
    · simp [hr] at h
  · rintro ⟨head, t, hh, rfl, rfl⟩
    simp only [phrParseRequest, parseRequest_complete hh]

theorem zero_notMem_of_not_ctl (h : ∀ c ∈ l, isCtl c = false) : 0 ∉ l := fun h0 =>
  absurd (h 0 h0) (by decide)

/-- The value of a header in its line, with something behind it, and no NUL in
all of it. -/
theorem HeaderLine.value (hl : HeaderLine n h l) :
    0 ∉ l ∧ ∃ p u, l = p ++ (h.value.bytes ++ u) ∧ h.value.off = n + p.length ∧ u ≠ [] ∧
      h.name.bytes.length + 1 ≤ p.length ∧ ∀ c ∈ h.value.bytes, isCtl c = false := by
  obtain ⟨bl, tok, e, rfl, he, -, -, htok, hbl, -, hctl, hval⟩ := hl
  have h1 : 0 ∉ h.name.bytes := fun h0 => absurd (htok 0 h0) (by decide)
  have h2 : 0 ∉ bl := fun h0 => absurd (hbl 0 h0) (by decide)
  have h3 : 0 ∉ e := by rcases he with rfl | rfl <;> decide
  obtain ⟨u, hu⟩ : ∃ u, h.value.bytes ++ u = tok := by
    rw [hval]
    exact rdropWhile_prefix _ _
  refine ⟨?_, h.name.bytes ++ colon :: bl,
    u ++ e, by simp [← hu], by simp [hval]; omega, by simp [he.ne_nil],
    by simp, fun c hc => hctl c (by rw [← hu]; exact mem_append_left _ hc)⟩
  simp only [mem_append, mem_cons, not_or]
  exact ⟨⟨⟨h1, by decide, h2⟩, zero_notMem_of_not_ctl hctl⟩, h3⟩

/-- A name and a value that can be written as a header line. -/
structure ProperField (name value : Bytes) : Prop where
  ne_nil : name ≠ []
  token : ∀ c ∈ name, tokenChar c = true
  not_ctl : ∀ c ∈ value, isCtl c = false
  head : ∀ c ∈ value.head?, isBlank c = false
  trimmed : value.rdropWhile isBlank = value

theorem HeaderLine.proper (hl : HeaderLine n h l) :
    ProperField h.name.bytes h.value.bytes ∧ h.name.bytes.length + h.value.bytes.length + 2 ≤
    l.length := by
  obtain ⟨bl, tok, e, rfl, he, -, hne, htok, hbl, hhd, hctl, hval⟩ := hl
  have hpre : h.value.bytes <+: tok := by
    rw [hval]
    exact rdropWhile_prefix _ _
  refine ⟨⟨hne, htok, fun c hc => hctl c (hpre.subset hc), fun c hc => hhd c ?_, ?_⟩, ?_⟩
  · obtain ⟨u, rfl⟩ := hpre
    cases hv : h.value.bytes with
    | nil => simp [hv] at hc
    | cons d ds => simpa [hv] using hc
  · rw [hval]
    exact rdropWhile_idempotent _ _
  · have h1 := hpre.length_le
    have h2 := length_pos_iff.mpr he.ne_nil
    simp
    omega

theorem HeaderLines.value : ∀ {hs : List Header} {n : ℕ} {ls : Bytes}, HeaderLines n hs ls →
    0 ∉ ls ∧ ∀ h ∈ hs, ∃ p u, ls = p ++ (h.value.bytes ++ u) ∧ h.value.off = n + p.length ∧ u ≠ [] ∧
      ∀ c ∈ h.value.bytes, isCtl c = false
  | [], n, ls, hl => by
    obtain rfl : ls = [] := hl
    simp
  | h :: hs, n, _, ⟨l₁, l₂, rfl, hl, hls⟩ => by
    obtain ⟨h0, p, u, hp, ho, hu, -, hctl⟩ := hl.value
    obtain ⟨h0', hrest⟩ := hls.value
    refine ⟨by simp [h0, h0'], fun h' hm => ?_⟩
    rcases mem_cons.mp hm with rfl | hm
    · exact ⟨p, u ++ l₂, by simp [hp], ho, by simp [hu], hctl⟩
    · obtain ⟨p', u', hp', ho', hu', hctl'⟩ := hrest h' hm
      exact ⟨l₁ ++ p', u', by simp [hp'], by simp [ho']; omega, hu', hctl'⟩

theorem HeaderLines.proper : ∀ {hs : List Header} {n : ℕ} {ls : Bytes}, HeaderLines n hs ls →
    ∀ h ∈ hs, ProperField h.name.bytes h.value.bytes
  | _ :: _, _, _, ⟨_, _, _, hl, hls⟩, h', hm => by
    rcases mem_cons.mp hm with rfl | hm
    · exact hl.proper.1
    · exact hls.proper h' hm

theorem HeaderLines.append : ∀ {as bs : List Header} {n : ℕ} {ls : Bytes},
    HeaderLines n (as ++ bs) ls → ∃ l₁ l₂, ls = l₁ ++ l₂ ∧ HeaderLines n as l₁ ∧
      HeaderLines (n + l₁.length) bs l₂
  | [], bs, n, ls, h => ⟨[], ls, rfl, rfl, h⟩
  | a :: as, bs, n, _, ⟨l, l', rfl, hl, hls⟩ => by
    obtain ⟨l₁, l₂, rfl, h1, h2⟩ := hls.append
    refine ⟨l ++ l₁, l₂, by simp, ⟨l, l₁, rfl, hl, h1⟩, ?_⟩
    rwa [length_append, ← Nat.add_assoc]

/-- A head is what stands before the header lines, these and the empty line;
other header lines in their place make another head. -/
theorem RequestHead.split {head : Bytes}
    (h : RequestHead maxHeaders q hs head) : ∃ a ls e, head = a ++ (ls ++ e) ∧ 2 ≤ a.length ∧
      HeaderLines a.length hs ls ∧ Eol e ∧
      ∀ hs' ls', hs'.length ≤ maxHeaders → HeaderLines a.length hs' ls' →
        RequestHead maxHeaders { q with headers := hs'.map toPhr } hs' (a ++ (ls' ++ [lf])) := by
  obtain ⟨hroom, hq, hm, hmt, hp, hpc, e₀, s₁, s₂, c, e₁, ls, e₂, rfl, he₀, hmo, hs₁, hpo, hs₂, hc1, hc2,
    hv, he₁, he₂, hls⟩ := h
  have hlen : (e₀ ++ (q.method.bytes ++ (sp :: s₁ ++ (q.path.bytes ++ (sp :: s₂ ++
      (bytes "HTTP/1." ++ c :: e₁)))))).length =
      q.path.off + q.path.bytes.length + 1 + s₂.length + 8 + e₁.length := by
    simp [bytes, hpo]
    omega
  refine ⟨e₀ ++ (q.method.bytes ++ (sp :: s₁ ++ (q.path.bytes ++ (sp :: s₂ ++
    (bytes "HTTP/1." ++ c :: e₁))))), ls, e₂, by simp, by rw [hlen]; omega, by rwa [hlen], he₂, ?_⟩
  intro hs' ls' hroom' hls'
  refine ⟨hroom', rfl, hm, hmt, hp, hpc, e₀, s₁, s₂, c, e₁, ls', [lf], by simp, he₀, hmo, hs₁, hpo, hs₂,
    hc1, hc2, hv, he₁, .inr rfl, ?_⟩
  rwa [hlen] at hls'

end Pico

open Pico

/-- The checks of `ioh_http1_parse_request` on the headers let a request
through. -/
structure Admitted (q : PhrRequest) (hs : List Header) (s : Scan) : Prop where
  path : q.path.bytes.length ≤ http1MaxUriSize
  scan : hs.foldlM scanHeader ⟨false, false, false, 0⟩ = some s
  framing : ¬(s.hasContentLength ∧ s.hasTransferEncoding)
  host : q.minorVersion ≥ 1 → s.hasHost = true

/-- **What `ioh_http1_parse_request` takes.** -/
theorem http1ParseRequest_eq_ok {buf : Bytes} {req : Request} {n : ℕ} :
    http1ParseRequest buf = .ok (req, n) ↔ ∃ q hs s head t, RequestHead http1MaxHeaders q hs head ∧
      Admitted q hs s ∧ req = requestOf q hs s ∧ buf = head ++ t ∧ n = head.length := by
  rw [http1ParseRequest_ok]
  constructor
  · rintro ⟨-, q, hq, hc⟩
    unfold http1Check at hc
    split_ifs at hc with h1 h2
    cases hn : namedHeaders q.headers with
    | none => simp [hn] at hc
    | some hs =>
      simp only [hn] at hc
      cases hsc : hs.foldlM scanHeader ⟨false, false, false, 0⟩ with
      | none => simp [hsc] at hc
      | some s =>
        simp only [hsc] at hc
        split_ifs at hc with h3 h4
        obtain rfl : requestOf q hs s = req := by simpa using hc
        obtain ⟨head, t, hh, hb, hm⟩ := (phrParseRequest_eq_ok (namedHeaders_eq_some.mp hn)).mp hq
        refine ⟨q, hs, s, head, t, hh, ⟨by omega, hsc, h3, fun hv => ?_⟩, rfl, hb, hm⟩
        simpa [hv] using h4
  · rintro ⟨q, hs, s, head, t, hh, ha, rfl, rfl, rfl⟩
    have hne : head ≠ [] := by
      obtain ⟨_, _, hm, _, _, _, e₀, s₁, s₂, c, e₁, ls, e₂, rfl, -⟩ := hh
      simp [hm]
    refine ⟨List.append_ne_nil_of_left_ne_nil hne t, q,
      (phrParseRequest_eq_ok hh.headers).mpr ⟨head, t, hh, rfl, rfl⟩, ?_⟩
    have hn : namedHeaders q.headers = some hs := namedHeaders_eq_some.mpr hh.headers
    have hlen : ¬q.headers.length > http1MaxHeaders := by
      rw [hh.headers, List.length_map]
      have := hh.room
      omega
    have h4 : ¬(q.minorVersion ≥ 1 ∧ (!s.hasHost) = true) := by
      rintro ⟨hv, hb⟩
      simp [ha.host hv] at hb
    rw [http1Check, if_neg (by have := ha.path; omega), if_neg hlen]
    simp only [hn, ha.scan, if_neg ha.framing, if_neg h4]

end Iohttp
