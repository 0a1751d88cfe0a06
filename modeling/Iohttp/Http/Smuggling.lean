/-
# One framing for a request

A proxy in front of the server and the server must agree where a request ends.
`ioh_http1_parse_request` refuses a second length, a length together with
transfer codings, and a value of `Transfer-Encoding` in which something other
than blanks follows the first `chunked`. It looks for that word as a substring
and in one header at a time, so it accepts codings that do not end with
`chunked`, a longer word with that ending, and `chunked` in two headers.
-/
import Iohttp.Http.Message

namespace Iohttp

open Pico List

/-! ### Codings -/

/-- An element of a list, without the blanks around it. -/
def trimBlanks (b : Bytes) : Bytes := (b.dropWhile isBlank).rdropWhile isBlank

/-- The elements between the commas of a value. -/
def codings (value : Bytes) : List Bytes := (value.splitOn 44).map trimBlanks

def IsToken (b : Bytes) : Prop := b ≠ [] ∧ b.all tokenChar = true
  deriving Decidable

/-- The coding `chunked`, in upper or lower case. -/
def isChunked (c : Bytes) : Bool := eqIgnoreCase c (bytes "chunked")

variable {b buf c last value : Bytes} {init : List Bytes} {h : Header} {req : Request}

theorem isChunked_length (h : isChunked c = true) : c.length = 7 := by
  have hmap : c.map lower = (bytes "chunked").map lower := by simpa [isChunked, eqIgnoreCase] using h
  have hlen := congrArg List.length hmap
  simpa [bytes] using hlen

theorem codings_ne_nil (value : Bytes) : codings value ≠ [] := by
  simp [codings, splitOn_ne_nil]

theorem trimBlanks_eq_self (h : ∀ c ∈ b, isBlank c = false) : trimBlanks b = b := by
  have hd : b.dropWhile isBlank = b := by
    cases b with
    | nil => rfl
    | cons c b => rw [dropWhile_cons_of_neg (by simp [h c mem_cons_self])]
  rw [trimBlanks, hd, rdropWhile_eq_self_iff]
  exact fun hl => by simp [h _ (getLast_mem hl)]

theorem codings_eq_singleton (hcomma : (44 : UInt8) ∉ b) (hblank : ∀ c ∈ b, isBlank c = false) :
    codings b = [b] := by
  rw [codings, splitOn_eq_singleton hcomma, map_singleton, trimBlanks_eq_self hblank]

theorem codings_intercalate : ∀ {values : List Bytes}, values ≠ [] →
    codings ([44].intercalate values) = values.flatMap codings
  | [], h => absurd rfl h
  | [v], _ => by simp [List.intercalate]
  | v :: w :: values, _ => by
    have hjoin : [44].intercalate (v :: w :: values) = v ++ 44 :: [44].intercalate (w :: values) := by
      simp
    have hsplit : codings (v ++ 44 :: [44].intercalate (w :: values)) =
        codings v ++ codings ([44].intercalate (w :: values)) := by
      rw [codings, splitOn_append_cons_self, map_append]
      rfl
    rw [hjoin, hsplit, codings_intercalate (cons_ne_nil w values)]
    rfl

theorem afterChunked_append (hc : isChunked c = true) (r : Bytes) :
    ∀ p : Bytes, ∃ after, afterChunked (p ++ c ++ r) = some after ∧ r <:+ after
  | [] => by
    have hlen := isChunked_length hc
    cases c with
    | nil => simp at hlen
    | cons d c =>
      have htake : ((d :: c) ++ r).take 7 = d :: c := by
        rw [← hlen]
        exact take_left
      have hdrop : ((d :: c) ++ r).drop 7 = r := by
        rw [← hlen]
        exact drop_left
      refine ⟨r, ?_, suffix_refl r⟩
      rw [nil_append, cons_append, afterChunked, ← cons_append, htake, hdrop]
      exact if_pos hc
  | d :: p => by
    rw [cons_append, cons_append, afterChunked]
    split_ifs with hfound
    · have hlen := isChunked_length hc
      have hdrop : (d :: (p ++ c ++ r)).drop 7 = (d :: (p ++ c)).drop 7 ++ r := by
        rw [← cons_append, drop_append_of_le_length]
        simp only [length_cons, length_append]
        omega
      exact ⟨_, rfl, hdrop ▸ suffix_append _ r⟩
    · exact afterChunked_append hc r p

theorem intercalate_mid : ∀ (p : List Bytes) (s : Bytes) {q : List Bytes}, q ≠ [] →
    ∃ a b, [44].intercalate (p ++ s :: q) = a ++ s ++ 44 :: b
  | [], s, q, hq => ⟨[], [44].intercalate q, by simp [intercalate_cons_of_ne_nil hq]⟩
  | x :: p, s, q, hq => by
    obtain ⟨a, b, h⟩ := intercalate_mid p s hq
    refine ⟨x ++ 44 :: a, b, ?_⟩
    rw [cons_append, intercalate_cons_of_ne_nil (by simp), h]
    simp

theorem trimBlanks_infix (b : Bytes) : trimBlanks b <:+: b := by
  have hfront := rdropWhile_prefix isBlank (b.dropWhile isBlank)
  exact hfront.isInfix.trans (dropWhile_suffix _).isInfix

theorem not_isChunked_of_init (h : chunkedLast value = true)
    (hc : codings value = init ++ [last]) : ∀ c ∈ init, isChunked c = false := by
  intro c hmem
  by_contra hch
  rw [Bool.not_eq_false] at hch
  -- the element, with the comma behind it
  obtain ⟨segs, tail, hsplit, rfl, htail⟩ := map_eq_append_iff.mp hc
  obtain ⟨seg, hseg, rfl⟩ := mem_map.mp hmem
  obtain ⟨p, q, rfl⟩ := append_of_mem hseg
  have hne : q ++ tail ≠ [] := by
    intro he
    rw [(append_eq_nil_iff.mp he).2] at htail
    cases htail
  obtain ⟨a, b, hab⟩ := intercalate_mid p seg hne
  rw [← cons_append, ← append_assoc, ← hsplit, intercalate_splitOn] at hab
  -- the search ends there or before, and the comma is not a blank
  obtain ⟨l, r, hlr⟩ := trimBlanks_infix seg
  obtain ⟨after, hfound, hsuf⟩ := afterChunked_append hch (r ++ 44 :: b) (a ++ l)
  have hvalue : value = a ++ l ++ trimBlanks seg ++ (r ++ 44 :: b) := by
    rw [hab]
    nth_rewrite 1 [← hlr]
    simp
  rw [chunkedLast, hvalue, hfound] at h
  have hblank := all_eq_true.mp h 44 (hsuf.subset (by simp))
  exact absurd hblank (by decide)

abbrev isLength (h : Header) : Bool := eqIgnoreCase h.name.bytes (bytes "Content-Length")

abbrev isCoding (h : Header) : Bool := eqIgnoreCase h.name.bytes (bytes "Transfer-Encoding")

/-- What the scan has checked when it has gone from `s` over the headers to
`s'`. -/
structure Scanned (s : Scan) (hs : List Header) (s' : Scan) : Prop where
  hasLength : s'.hasContentLength = (s.hasContentLength || hs.any isLength)
  hasCoding : s'.hasTransferEncoding = (s.hasTransferEncoding || hs.any isCoding)
  oneLength : (hs.filter isLength).length ≤ if s.hasContentLength then 0 else 1
  length : ∀ h ∈ hs, isLength h = true →
    isValidContentLength h.value.bytes = true ∧ s'.contentLength = parseContentLength h.value.bytes
  noLength : hs.any isLength = false → s'.contentLength = s.contentLength
  chunked : ∀ h ∈ hs, isCoding h = true → chunkedLast h.value.bytes = true

theorem not_isCoding_of_isLength (hl : isLength h = true) : isCoding h = false := by
  simp only [isLength, isCoding, eqIgnoreCase, beq_iff_eq] at hl ⊢
  rw [hl]
  decide

theorem scanHeader_spec {s s' : Scan} (hs : scanHeader s h = some s') : Scanned s [h] s' := by
  unfold scanHeader at hs
  by_cases hl : isLength h = true
  · rw [if_pos hl] at hs
    have hc := not_isCoding_of_isLength hl
    by_cases hbad : s.hasContentLength = true ∨ (!isValidContentLength h.value.bytes) = true
    · rw [if_pos hbad] at hs
      cases hs
    · rw [if_neg hbad] at hs
      cases hs
      rw [not_or, Bool.not_eq_true, Bool.not_eq_true, Bool.not_eq_false'] at hbad
      constructor <;> simp [hl, hc, hbad]
  · rw [if_neg hl] at hs
    by_cases hc : isCoding h = true
    · rw [if_pos hc] at hs
      by_cases hlast : chunkedLast h.value.bytes = true
      · rw [if_pos hlast] at hs
        cases hs
        constructor <;> simp [hl, hc, hlast]
      · rw [if_neg hlast] at hs
        cases hs
    · rw [if_neg hc] at hs
      split_ifs at hs
      · cases hs
        constructor <;> simp [hl, hc]
      · cases hs
        constructor <;> simp [hl, hc]

theorem Scanned.append {s s₁ s₂ : Scan} {hs : List Header} (h₁ : Scanned s [h] s₁)
    (h₂ : Scanned s₁ hs s₂) : Scanned s (h :: hs) s₂ := by
  have hone := h₁.oneLength
  have hone' := h₂.oneLength
  rw [h₁.hasLength] at hone'
  constructor
  · rw [h₂.hasLength, h₁.hasLength]
    simp [Bool.or_assoc]
  · rw [h₂.hasCoding, h₁.hasCoding]
    simp [Bool.or_assoc]
  · cases hl : isLength h with
    | false =>
      simp only [any_cons, hl, any_nil, Bool.or_false] at hone'
      rwa [filter_cons_of_neg (by simp [hl])]
    | true =>
      rw [filter_cons_of_pos hl] at hone ⊢
      simp only [any_cons, hl, Bool.true_or, Bool.or_true, if_true, Nat.le_zero] at hone'
      simpa [hone'] using hone
  · intro h' hmem hl
    rcases mem_cons.mp hmem with rfl | hmem
    · obtain ⟨hv, hlen⟩ := h₁.length h' (by simp) hl
      refine ⟨hv, ?_⟩
      rw [← hlen, h₂.noLength]
      -- a second length would have been refused
      simp only [any_cons, hl, Bool.true_or, Bool.or_true, if_true, Nat.le_zero,
        length_eq_zero_iff, filter_eq_nil_iff] at hone'
      simpa using hone'
    · exact h₂.length h' hmem hl
  · intro hnone
    rw [any_cons, Bool.or_eq_false_iff] at hnone
    rw [h₂.noLength hnone.2, h₁.noLength (by simpa using hnone.1)]
  · intro h' hmem hc
    rcases mem_cons.mp hmem with rfl | hmem
    · exact h₁.chunked h' (by simp) hc
    · exact h₂.chunked h' hmem hc

/-- **What the scan has checked**, over all headers. -/
theorem scanHeaders_spec : ∀ {hs : List Header} {s s' : Scan}, hs.foldlM scanHeader s = some s' →
    Scanned s hs s'
  | [], s, s', h => by
    cases h
    constructor <;> simp
  | hd :: hs, s, s', h => by
    rw [foldlM_cons, Option.bind_eq_bind, Option.bind_eq_some_iff] at h
    obtain ⟨s₁, h₁, h₂⟩ := h
    exact (scanHeader_spec h₁).append (scanHeaders_spec h₂)

theorem scanned_of_ok {n : ℕ} (h : http1ParseRequest buf = .ok (req, n)) :
    ∃ s, Scanned ⟨false, false, false, 0⟩ req.headers s ∧ req.contentLength = s.contentLength ∧
      ¬(s.hasContentLength = true ∧ s.hasTransferEncoding = true) := by
  obtain ⟨_, r, _, hcheck⟩ := http1ParseRequest_ok.mp h
  unfold http1Check at hcheck
  split_ifs at hcheck
  cases hn : namedHeaders r.headers with
  | none => simp [hn] at hcheck
  | some hs =>
    cases hs' : hs.foldlM scanHeader ⟨false, false, false, 0⟩ with
    | none => simp [hn, hs'] at hcheck
    | some s =>
      simp only [hn, hs'] at hcheck
      split_ifs at hcheck with hboth _
      cases hcheck
      exact ⟨s, scanHeaders_spec hs', rfl, hboth⟩

/-! ### Accepted requests -/

/-- The last element, and no other one, has the property. -/
def LastOnly {α : Type} (p : α → Bool) (l : List α) : Prop :=
  ∃ init last, l = init ++ [last] ∧ p last = true ∧ ∀ x ∈ init, p x = false

/-- There is one way to read where the request ends: not by a length and by
codings, not by two lengths, and not by codings other than tokens of which the
last, and only the last, is `chunked`. -/
structure Unambiguous (req : Request) : Prop where
  notBoth : ¬((∃ h ∈ req.headers, isLength h = true) ∧ ∃ h ∈ req.headers, isCoding h = true)
  oneLength : (req.headers.filter isLength).length ≤ 1
  tokens : transferEncodings req ≠ [] →
    ∀ c ∈ codings ([44].intercalate (transferEncodings req)), IsToken c
  chunkedLast : transferEncodings req ≠ [] →
    LastOnly isChunked (codings ([44].intercalate (transferEncodings req)))

/-- The last coding of a value is `chunked`. -/
def endsChunked (value : Bytes) : Bool := (codings value).getLast?.any isChunked

/-- All codings are tokens, and the last header, but no other one, ends with
`chunked`. -/
def EndsChunked (values : List Bytes) : Prop :=
  (∀ v ∈ values, ∀ c ∈ codings v, IsToken c) ∧ LastOnly endsChunked values

theorem endsChunked_iff (h : codings value = init ++ [last]) :
    endsChunked value = isChunked last := by
  simp [endsChunked, h]

/-- The codings of several headers, each of which the check accepts, end with
`chunked` and have no other one exactly if that is so of the headers. -/
theorem lastOnly_flatMap_iff {values : List Bytes} (h : ∀ v ∈ values, chunkedLast v = true) :
    LastOnly isChunked (values.flatMap codings) ↔ LastOnly endsChunked values := by
  -- the codings of the last header
  have hsplit : ∀ v : Bytes, ∃ init last, codings v = init ++ [last] := fun v =>
    ⟨_, _, (dropLast_append_getLast (codings_ne_nil v)).symm⟩
  constructor
  · rintro ⟨init, last, hl, hlast, hinit⟩
    have hne : values ≠ [] := by
      rintro rfl
      simp at hl
    obtain ⟨vs, v, rfl⟩ : ∃ vs v, values = vs ++ [v] :=
      ⟨_, _, (dropLast_append_getLast hne).symm⟩
    obtain ⟨cs, c, hc⟩ := hsplit v
    rw [flatMap_append, flatMap_singleton, hc, ← append_assoc] at hl
    obtain ⟨rfl, hcl⟩ := append_inj' hl rfl
    cases hcl
    refine ⟨vs, v, rfl, by rw [endsChunked_iff hc, hlast], fun v' hv' => ?_⟩
    obtain ⟨cs', c', hc'⟩ := hsplit v'
    rw [endsChunked_iff hc']
    refine hinit c' (mem_append_left _ (mem_flatMap.mpr ⟨v', hv', ?_⟩))
    rw [hc']
    simp
  · rintro ⟨vs, v, rfl, hlast, hinit⟩
    obtain ⟨cs, c, hc⟩ := hsplit v
    refine ⟨vs.flatMap codings ++ cs,
      c, by simp [hc], by rw [← endsChunked_iff hc, hlast], fun x hx => ?_⟩
    rcases mem_append.mp hx with hx | hx
    · obtain ⟨v', hv', hx⟩ := mem_flatMap.mp hx
      obtain ⟨cs', c', hc'⟩ := hsplit v'
      rw [hc', mem_append, mem_singleton] at hx
      rcases hx with hx | rfl
      · exact not_isChunked_of_init (h v' (mem_append_left _ hv')) hc' x hx
      · rw [← endsChunked_iff hc']
        exact hinit v' hv'
    · exact not_isChunked_of_init (h v (by simp)) hc x hx

/-- **When an accepted request has one framing.** A request that
`ioh_http1_parse_request` accepts has one framing exactly if it has no
`Transfer-Encoding` or all its codings are tokens and the last
`Transfer-Encoding`, but no other one, ends with `chunked`. -/
theorem unambiguous_iff {buf : Bytes} {req : Request} {n : ℕ}
    (h : http1ParseRequest buf = .ok (req, n)) :
    Unambiguous req ↔ transferEncodings req = [] ∨ EndsChunked (transferEncodings req) := by
  obtain ⟨s, hscan, _, hboth⟩ := scanned_of_ok h
  have hlast : ∀ v ∈ transferEncodings req, chunkedLast v = true := by
    intro v hv
    obtain ⟨hd, hmem, rfl⟩ := mem_map.mp hv
    obtain ⟨hin, hc⟩ := mem_filter.mp hmem
    exact hscan.chunked hd hin hc
  constructor
  · intro hu
    by_cases hne : transferEncodings req = []
    · exact .inl hne
    · have htokens := hu.tokens hne
      have hlo := hu.chunkedLast hne
      rw [codings_intercalate hne] at htokens hlo
      exact .inr ⟨fun v hv c hc => htokens c (mem_flatMap.mpr ⟨v, hv, hc⟩),
        (lastOnly_flatMap_iff hlast).mp hlo⟩
  · intro hcond
    have hends : transferEncodings req ≠ [] → EndsChunked (transferEncodings req) := hcond.resolve_left
    refine ⟨?_, by simpa using hscan.oneLength, fun hne c hc => ?_, fun hne => ?_⟩
    · rw [hscan.hasLength, hscan.hasCoding] at hboth
      simpa using hboth
    · rw [codings_intercalate hne] at hc
      obtain ⟨v, hv, hc⟩ := mem_flatMap.mp hc
      exact (hends hne).1 v hv c hc
    · rw [codings_intercalate hne]
      exact (lastOnly_flatMap_iff hlast).mpr (hends hne).2

def ofAccepted {α : Type} (f : Request → α) (buf : Bytes) : Option α :=
  (http1ParseRequest buf).toOption.map fun r => f r.1

theorem ofAccepted_eq_some {α : Type} {f : Request → α} {a : α} (h : ofAccepted f buf = some a) :
    ∃ req n, http1ParseRequest buf = .ok (req, n) ∧ f req = a := by
  unfold ofAccepted at h
  cases hp : http1ParseRequest buf with
  | error e =>
    rw [hp] at h
    cases h
  | ok r =>
    rw [hp] at h
    exact ⟨r.1, r.2, rfl, Option.some.inj h⟩

/-- A request with two codings, of which the last is `chunked`. -/
def codedRequest : Bytes :=
  bytes "POST / HTTP/1.1\r\nHost: a\r\nTransfer-Encoding: gzip\r\nTransfer-Encoding: Chunked\r\n\r\n"

/-- Its codings are one list. -/
theorem unambiguous_coded :
    ∃ req n, http1ParseRequest codedRequest = .ok (req, n) ∧
      transferEncodings req = [bytes "gzip", bytes "Chunked"] ∧ Unambiguous req := by
  have haccepted : ofAccepted transferEncodings codedRequest = some
    [bytes "gzip", bytes "Chunked"] := by decide +kernel
  obtain ⟨req, n, hok, hvalues⟩ := ofAccepted_eq_some haccepted
  refine ⟨req, n, hok, hvalues, (unambiguous_iff hok).mpr (.inr ?_)⟩
  rw [hvalues]
  exact ⟨by decide +kernel, [bytes "gzip"], bytes "Chunked", rfl, by decide +kernel, by decide +kernel⟩

/-- A request with a coding, but without `chunked`. -/
def gzipRequest : Bytes := bytes "POST / HTTP/1.1\r\nHost: a\r\nTransfer-Encoding: gzip\r\n\r\n"

/-- It is accepted, although nothing says where it ends. -/
theorem gzip_accepted :
    ¬∀ (buf : Bytes) (req : Request) (n : ℕ), http1ParseRequest buf = .ok (req, n) →
    Unambiguous req := by
  intro h
  have haccepted : ofAccepted transferEncodings gzipRequest = some [bytes "gzip"] := by decide +kernel
  obtain ⟨req, n, hok, hvalues⟩ := ofAccepted_eq_some haccepted
  obtain ⟨init, last, hl, hlast, _⟩ := (h gzipRequest req n hok).chunkedLast (by simp [hvalues])
  rw [hvalues, show codings ([44].intercalate [bytes "gzip"]) = [] ++
    [bytes "gzip"] by decide +kernel] at hl
  obtain ⟨_, hgzip⟩ := append_inj' hl rfl
  cases hgzip
  exact absurd hlast (by decide +kernel)

end Iohttp
