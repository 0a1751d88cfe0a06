/-
# Multipart bodies

`src/http/ioh_multipart.c`: a body of parts between delimiters. A part starts
behind a delimiter and CR LF with its header block, which ends with an empty
line; its data end at the next place where `--` and the boundary stand. Everything
that is reported of a part is a pointer into the body with a length.

Sizes are natural numbers here; none of them is larger than the body.
-/
import Iohttp.Http.Response
import Iohttp.Lib.Search

namespace Iohttp

open List

open Pico (Slice isBlank)
open Search (find firstAt)

/-! ### Header blocks -/

/-- `ci_prefix`. -/
def ciPrefix (word str : Bytes) : Bool := eqIgnoreCase (str.take word.length) word

/-- The byte ends a value without quotes: a semicolon, a blank, CR or LF. -/
def endsValue (c : UInt8) : Bool := c = 59 ∨ c = 32 ∨ c = 9 ∨ c = 13 ∨ c = 10

/-- The value of a parameter that starts at offset `off`, with quotes or without. -/
def paramValue (off : ℕ) : Bytes → Option Slice
  | [] => none
  | c :: v =>
    if c = 34 then some ⟨off + 1, v.takeWhile (· ≠ 34)⟩ else some ⟨off, (c :: v).takeWhile fun c =>
      !endsValue c⟩

/-- `extract_param`: the value behind the first `key`, which ends with an equals
sign. The string starts at offset `off`. -/
def extractParam (off : ℕ) (str key : Bytes) : Option Slice :=
  (firstAt (ciPrefix key) str).bind fun i => paramValue (off + (i + key.length))
  (str.drop (i + key.length))

structure PartHeaders where
  name : Option Slice
  filename : Option Slice
  contentType : Option Slice
  deriving DecidableEq, Repr

/-- `ioh_multipart_part_t`. -/
structure MultipartPart extends PartHeaders where
  data : Slice
  deriving DecidableEq, Repr

abbrev dispositionField : Bytes := bytes "content-disposition:"

abbrev contentTypeField : Bytes := bytes "content-type:"

/-- The value of a header line behind a name of `n` bytes, without blanks before
it. -/
def fieldValue (off n : ℕ) (line : Bytes) : Slice :=
  let val := (line.drop n).dropWhile isBlank
  ⟨off + (line.length - val.length), val⟩

/-- The parameters of `Content-Disposition`. -/
def dispositionLine (off : ℕ) (line : Bytes) (h : PartHeaders) : PartHeaders :=
  let val := fieldValue off 20 line
  { h with
    name := (extractParam val.off val.bytes (bytes "name=")).or h.name
    filename := (extractParam val.off val.bytes (bytes "filename=")).or h.filename }

/-- The value of `Content-Type`, without blanks behind it. -/
def contentTypeLine (off : ℕ) (line : Bytes) (h : PartHeaders) : PartHeaders :=
  let val := fieldValue off 13 line
  { h with contentType := some ⟨val.off, val.bytes.rdropWhile isBlank⟩ }

/-- One header line, and whether `Content-Disposition` has been seen. -/
def partHeader (off : ℕ) (line : Bytes) (s : PartHeaders × Bool) : PartHeaders × Bool :=
  let s := if ciPrefix dispositionField line then (dispositionLine off line s.1, true) else s
  if ciPrefix contentTypeField line then (contentTypeLine off line s.1, s.2) else s

/-- The loop of `parse_part_headers`. The scan for CR LF stops before the last
byte, so a line without CR LF is taken without it. -/
def partHeadersLoop : ℕ → ℕ → Bytes → PartHeaders × Bool → PartHeaders × Bool
  | 0, _, _, s => s
  | fuel + 1, off, p, s =>
    if p = [] then s
    else
      match find crlf p with
      | some i => partHeadersLoop fuel (off + i + 2) (p.drop (i + 2)) (partHeader off (p.take i) s)
      | none => partHeader off p.dropLast s

/-- `parse_part_headers`; `none` is `-EINVAL`. -/
def parsePartHeaders (off : ℕ) (headers : Bytes) : Option PartHeaders :=
  let s := partHeadersLoop headers.length off headers (⟨none, none, none⟩, false)
  if s.2 then some s.1 else none

/-! ### Bodies -/

/-- `ioh_multipart_config_t`. -/
structure MultipartConfig where
  maxParts : ℕ
  maxPartSize : ℕ
  maxTotalSize : ℕ
  deriving DecidableEq, Repr

/-- `ioh_multipart_config_init`. -/
def multipartConfigInit : MultipartConfig := ⟨64, 10 * 1024 * 1024, 50 * 1024 * 1024⟩

/-- The length of the data before a delimiter, without a CR LF at their end. -/
def partDataLen (b : Bytes) : ℕ := if crlf <:+ b then b.length - 2 else b.length

/-- The loop of `ioh_multipart_parse` at offset `off`: the parts, and the result.
`maxParts` is the room in the caller's array. -/
def multipartLoop (delim : Bytes) (cfg : MultipartConfig) (maxParts : ℕ) :
    ℕ → ℕ → Bytes → ℕ → List MultipartPart → List MultipartPart × ℤ
  | 0, _, _, _, parts => (parts, 0)
  | fuel + 1, off, rest, total, parts =>
    if rest = [] then (parts, 0)
    else
      match find (crlf ++ crlf) rest with
      | none => (parts, -EINVAL)
      | some headersLen =>
        let data := rest.drop (headersLen + 4)
        match find delim data with
        | none => (parts, -EINVAL)
        | some k =>
          let dataLen := partDataLen (data.take k)
          if dataLen > cfg.maxPartSize then (parts, -E2BIG)
          else if total + dataLen > cfg.maxTotalSize then (parts, -E2BIG)
          else if parts.length ≥ maxParts ∨ parts.length ≥ cfg.maxParts then (parts, -E2BIG)
          else
            match parsePartHeaders off (rest.take headersLen) with
            | none => (parts, -EINVAL)
            | some h =>
              let parts := parts ++ [⟨h, ⟨off + headersLen + 4, data.take dataLen⟩⟩]
              let next := data.drop (k + delim.length)
              if next.take 2 = [45, 45] then (parts, 0)
              else if next.take 2 ≠ crlf then (parts, -EINVAL)
              else
                multipartLoop delim cfg maxParts fuel (off + headersLen + 4 + k + delim.length + 2)
                (next.drop 2)
                  (total + dataLen) parts

/-- The text that separates parts. -/
def delimiter (boundary : Bytes) : Bytes := 45 :: 45 :: boundary

/-- `ioh_multipart_parse`: the parts that were stored, and the result. If the
body is too large, `part_count` is left as it was. -/
def multipartParse (body boundary : Bytes) (cfg : MultipartConfig) (maxParts : ℕ) :
    List MultipartPart × ℤ :=
  if body.length > cfg.maxTotalSize then ([], -E2BIG)
  else if body = [] then ([], 0)
  else if boundary.length > 256 then ([], -EINVAL)
  else
    match find (delimiter boundary) body with
    | none => ([], -EINVAL)
    | some i =>
      let off := i + (delimiter boundary).length
      let rest := body.drop off
      if rest.length < 2 then ([], -EINVAL)
      else if rest.take 2 = [45, 45] then ([], 0)
      else if rest.take 2 ≠ crlf then ([], -EINVAL)
      else multipartLoop (delimiter boundary) cfg maxParts rest.length (off + 2) (rest.drop 2) 0 []

/-- The part that a round finds: its header block has `n` bytes, and the next
delimiter is `k` bytes behind the start of its data. -/
def partAt (off : ℕ) (rest : Bytes) (n k : ℕ) (h : PartHeaders) : MultipartPart :=
  ⟨h, ⟨off + n + 4, (rest.drop (n + 4)).take (partDataLen ((rest.drop (n + 4)).take k))⟩⟩

/-- What is behind the next delimiter. -/
def behindPart (delim rest : Bytes) (n k : ℕ) : Bytes := (rest.drop (n + 4)).drop (k + delim.length)

variable {delim : Bytes} {cfg : MultipartConfig} {maxParts : ℕ} {fuel off total : ℕ} {rest : Bytes}
  {ls : List Bytes}

/-- **A loop that succeeds** has nothing left, or finds a part and then the end of
the parts or the next one. -/
theorem multipartLoop_ok {parts result : List MultipartPart}
    (h : multipartLoop delim cfg maxParts (fuel + 1) off rest total parts = (result, 0)) :
    (rest = [] ∧ result = parts) ∨
      ∃ n k hd, find (crlf ++ crlf) rest = some n ∧ find delim (rest.drop (n + 4)) = some k ∧
        parsePartHeaders off (rest.take n) = some hd ∧
        (result = parts ++ [partAt off rest n k hd] ∨
          ∃ total', multipartLoop delim cfg maxParts fuel (off + n + 4 + k + delim.length + 2)
            ((behindPart delim rest n k).drop 2) total' (parts ++ [partAt off rest n k hd]) =
            (result, 0)) := by
  rw [multipartLoop] at h
  by_cases hnil : rest = []
  · rw [if_pos hnil] at h
    exact .inl ⟨hnil, (Prod.mk.inj h).1.symm⟩
  rw [if_neg hnil] at h
  cases hn : find (crlf ++ crlf) rest with
  | none =>
    rw [hn] at h
    exact absurd (Prod.mk.inj h).2 (by decide)
  | some n =>
    simp only [hn] at h
    cases hk : find delim (rest.drop (n + 4)) with
    | none =>
      rw [hk] at h
      exact absurd (Prod.mk.inj h).2 (by decide)
    | some k =>
      simp only [hk] at h
      by_cases hpart : partDataLen ((rest.drop (n + 4)).take k) > cfg.maxPartSize
      · rw [if_pos hpart] at h
        exact absurd (Prod.mk.inj h).2 (by decide)
      by_cases htotal : total + partDataLen ((rest.drop (n + 4)).take k) > cfg.maxTotalSize
      · rw [if_neg hpart, if_pos htotal] at h
        exact absurd (Prod.mk.inj h).2 (by decide)
      by_cases hcount : parts.length ≥ maxParts ∨ parts.length ≥ cfg.maxParts
      · rw [if_neg hpart, if_neg htotal, if_pos hcount] at h
        exact absurd (Prod.mk.inj h).2 (by decide)
      rw [if_neg hpart, if_neg htotal, if_neg hcount] at h
      cases hd : parsePartHeaders off (rest.take n) with
      | none =>
        rw [hd] at h
        exact absurd (Prod.mk.inj h).2 (by decide)
      | some hdr =>
        simp only [hd] at h
        refine .inr ⟨n, k, hdr, rfl, hk, hd, ?_⟩
        split_ifs at h
        · exact .inl (Prod.mk.inj h).1.symm
        · exact absurd (Prod.mk.inj h).2 (by decide)
        · exact .inr ⟨_, h⟩

theorem multipartLoop_part {n k : ℕ} {parts : List MultipartPart}
    {hd : PartHeaders} (hne : rest ≠ []) (hn : find (crlf ++ crlf) rest = some n)
    (hk : find delim (rest.drop (n + 4)) = some k)
    (hpart : partDataLen ((rest.drop (n + 4)).take k) ≤ cfg.maxPartSize)
    (htotal : total + partDataLen ((rest.drop (n + 4)).take k) ≤ cfg.maxTotalSize)
    (hcount : parts.length < maxParts ∧ parts.length < cfg.maxParts)
    (hhd : parsePartHeaders off (rest.take n) = some hd) :
    multipartLoop delim cfg maxParts (fuel + 1) off rest total parts =
      if (behindPart delim rest n k).take 2 = [45, 45] then (parts ++ [partAt off rest n k hd], 0)
      else if (behindPart delim rest n k).take 2 ≠ crlf then (parts ++ [partAt off rest n k hd], -EINVAL)
      else
        multipartLoop delim cfg maxParts fuel (off + n + 4 + k + delim.length + 2)
          ((behindPart delim rest n k).drop 2) (total + partDataLen ((rest.drop (n + 4)).take k))
          (parts ++ [partAt off rest n k hd]) := by
  rw [multipartLoop, if_neg hne]
  simp only [hn, hk]
  rw [if_neg (not_lt.mpr hpart), if_neg (not_lt.mpr htotal), if_neg (by omega)]
  simp only [hhd]
  rfl

theorem multipartLoop_extends :
    ∀ {fuel off : ℕ} {rest : Bytes} {total : ℕ} {parts result : List MultipartPart},
    multipartLoop delim cfg maxParts fuel off rest total parts = (result, 0) → parts <+: result
  | 0, _, _, _, _, _, h => by
    cases h
    exact prefix_refl _
  | fuel + 1, off, rest, total, parts, result, h => by
    obtain ⟨-, rfl⟩ | ⟨n, k, hd, -, -, -, rfl | ⟨total', hnext⟩⟩ := multipartLoop_ok h
    · exact prefix_refl _
    · exact prefix_append _ _
    · exact (prefix_append _ _).trans (multipartLoop_extends hnext)

/-! ### Blocks of lines -/

def IsLine (l : Bytes) : Prop := l ≠ [] ∧ Lines.LineEnd.crlf.Free l
  deriving Decidable

/-- Lines with CR LF between them. -/
def linesText (ls : List Bytes) : Bytes := crlf.intercalate ls

theorem linesText_singleton (l : Bytes) : linesText [l] = l := by simp [linesText]

theorem linesText_cons (l : Bytes) (h : ls ≠ []) :
    linesText (l :: ls) = l ++ 13 :: 10 :: linesText ls := by
  rw [linesText, intercalate_cons_of_ne_nil h]
  simp [linesText]

/-- The lines as `parse_part_headers` takes them: the last one without its last
byte. -/
def seenLines : List Bytes → List Bytes
  | [] => []
  | [l] => [l.dropLast]
  | l :: l' :: ls => l :: seenLines (l' :: ls)

/-- The header lines of a block, one after the other. -/
def readHeaders : ℕ → List Bytes → PartHeaders × Bool → PartHeaders × Bool
  | _, [], s => s
  | off, l :: ls, s => readHeaders (off + l.length + 2) ls (partHeader off l s)

/-- **The loop over a header block** takes its lines. -/
theorem partHeadersLoop_lines : ∀ {ls : List Bytes}, (∀ l ∈ ls, Lines.LineEnd.crlf.Free l) →
    ∀ {fuel off : ℕ} {s : PartHeaders × Bool}, (linesText ls).length ≤ fuel →
    partHeadersLoop fuel off (linesText ls) s = readHeaders off (seenLines ls) s
  | [], _, fuel, off, s, _ => by
    cases fuel <;> rfl
  | [l], hls, fuel, off, s, hf => by
    have hfree := hls l mem_cons_self
    rw [linesText_singleton] at hf ⊢
    cases fuel with
    | zero =>
      obtain rfl := length_eq_zero_iff.mp (Nat.le_zero.mp hf)
      rfl
    | succ fuel =>
      by_cases hnil : l = []
      · rw [hnil]
        rfl
      · rw [partHeadersLoop, if_neg hnil, show find crlf l = none from Search.find_crlf_none hfree]
        rfl
  | l :: l' :: ls, hls, fuel, off, s, hf => by
    have hfree := hls l mem_cons_self
    have hlen : (linesText (l :: l' :: ls)).length = l.length + (linesText (l' :: ls)).length + 2 := by
      rw [linesText_cons l (cons_ne_nil l' ls)]
      simp
      omega
    cases fuel with
    | zero => omega
    | succ fuel =>
      have hfind : find crlf (linesText (l :: l' :: ls)) = some l.length := by
        exact Search.find_crlf _ hfree
      have htake : (linesText (l :: l' :: ls)).take l.length = l := by
        rw [linesText_cons l (cons_ne_nil l' ls), take_left]
      have hdrop : (linesText (l :: l' :: ls)).drop (l.length + 2) = linesText (l' :: ls) := by
        rw [linesText_cons l (cons_ne_nil l' ls), drop_append]
        simp
      have hnil : linesText (l :: l' :: ls) ≠ [] := ne_nil_of_length_pos (by omega)
      rw [partHeadersLoop, if_neg hnil, hfind]
      simp only [htake, hdrop]
      rw [partHeadersLoop_lines (forall_mem_cons.mp hls).2 (by omega)]
      rfl

theorem parsePartHeaders_lines (hls : ∀ l ∈ ls, Lines.LineEnd.crlf.Free l) (off : ℕ) :
    parsePartHeaders off (linesText ls) =
      if (readHeaders off (seenLines ls) (⟨none, none, none⟩, false)).2 then
        some (readHeaders off (seenLines ls) (⟨none, none, none⟩, false)).1
      else none := by
  rw [parsePartHeaders, partHeadersLoop_lines hls le_rfl]

theorem readHeaders_found : ∀ (ls : List Bytes) (off : ℕ) (s : PartHeaders × Bool),
    (readHeaders off ls s).2 = (s.2 || ls.any (ciPrefix dispositionField))
  | [], _, s => by simp [readHeaders]
  | l :: ls, off, s => by
    have hstep : (partHeader off l s).2 = (s.2 || ciPrefix dispositionField l) := by
      unfold partHeader
      split_ifs with hd hc hc <;> simp [hd]
    rw [readHeaders, readHeaders_found ls, hstep, any_cons, Bool.or_assoc]

theorem find_linesText (rest : Bytes) : ∀ {ls : List Bytes}, ls ≠ [] → (∀ l ∈ ls, IsLine l) →
    find (crlf ++ crlf) (linesText ls ++ 13 :: 10 :: 13 :: 10 :: rest) = some (linesText ls).length
  | [], h, _ => absurd rfl h
  | [l], _, hls => by
    rw [linesText_singleton]
    exact Search.find_empty_line rest (hls l mem_cons_self).2
  | l :: l' :: ls, _, hls => by
    have hls' := (forall_mem_cons.mp hls).2
    obtain ⟨hne', hfree'⟩ := hls' l' mem_cons_self
    have ih := find_linesText rest (cons_ne_nil l' ls) hls'
    have hskip : ¬[13, 10] <+: linesText (l' :: ls) ++ 13 :: 10 :: 13 :: 10 :: rest := by
      obtain ⟨c, t, rfl⟩ := exists_cons_of_ne_nil hne'
      have hshape : ∃ u, linesText ((c :: t) :: ls) ++ 13 :: 10 :: 13 :: 10 :: rest = c ::
          (t ++ 13 :: u) := by
        by_cases hnil : ls = []
        · rw [hnil, linesText_singleton]
          exact ⟨_, rfl⟩
        · rw [linesText_cons _ hnil]
          exact ⟨10 :: (linesText ls ++ 13 :: 10 :: 13 :: 10 :: rest), by simp⟩
      obtain ⟨u, hu⟩ := hshape
      rw [hu]
      exact Search.crlf_not_start hfree'
    have htext : linesText (l :: l' :: ls) ++ 13 :: 10 :: 13 :: 10 :: rest =
        l ++ 13 :: 10 :: (linesText (l' :: ls) ++ 13 :: 10 :: 13 :: 10 :: rest) := by
      rw [linesText_cons l (cons_ne_nil l' ls)]
      simp
    have hlen : (linesText (l :: l' :: ls)).length = (linesText (l' :: ls)).length + (l.length + 2) := by
      rw [linesText_cons l (cons_ne_nil l' ls)]
      simp
      omega
    rw [htext, hlen]
    exact (Search.find_empty_line_skip hskip (hls l mem_cons_self).2).trans
      (congrArg (Option.map (· + (l.length + 2))) ih)

end Iohttp
