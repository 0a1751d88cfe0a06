/-
# The data of multipart bodies

A body in the encoding of RFC 2046: each part between two delimiters, which
stand at the start of a line. `ioh_multipart_parse` looks for the delimiter
without the CR LF before it, so that data in which `--` and the boundary stand in
the middle of a line are cut there. And it does not see the last byte of a header
block: a block that ends with a bare `Content-Disposition:` is refused if it has
no other line of that name.
-/
import Iohttp.Http.Multipart

namespace Iohttp

open List

open Search (find)

def isBoundaryChar (c : UInt8) : Bool :=
  (48 ≤ c && c ≤ 57) || (65 ≤ c && c ≤ 90) || (97 ≤ c && c ≤ 122) || (bytes "'()+_,-./:=? ").contains c

/-- A boundary: up to 70 of these characters, and not none. -/
structure IsBoundary (boundary : Bytes) : Prop where
  ne_nil : boundary ≠ []
  length_le : boundary.length ≤ 70
  chars : ∀ c ∈ boundary, isBoundaryChar c = true

/-- A part: the lines of its header block, one of which is a
`Content-Disposition` line, and its data. -/
structure FormPart where
  lines : List Bytes
  data : Bytes
  isLine : ∀ l ∈ lines, IsLine l
  disposition : ∃ l ∈ lines, ciPrefix dispositionField l = true

/-- What follows a delimiter: the next part with its delimiter, or the mark of
the last delimiter and the epilogue. -/
def encodeParts (delim epilogue : Bytes) : List FormPart → Bytes
  | [] => 45 :: 45 :: epilogue
  | p :: ps =>
    13 :: 10 :: (linesText p.lines ++ 13 :: 10 :: 13 :: 10 ::
      (p.data ++ 13 :: 10 :: (delim ++ encodeParts delim epilogue ps)))

def multipartEncode (boundary : Bytes) (parts : List FormPart) (epilogue : Bytes) : Bytes :=
  delimiter boundary ++ encodeParts (delimiter boundary) epilogue parts

/-- The parts are within the limits of the caller and of its configuration. -/
structure PartsWithin (cfg : MultipartConfig) (maxParts : ℕ) (body : Bytes)
    (parts : List FormPart) : Prop where
  body : body.length ≤ cfg.maxTotalSize
  data : ∀ p ∈ parts, p.data.length ≤ cfg.maxPartSize
  count : parts.length ≤ maxParts ∧ parts.length ≤ cfg.maxParts

/-- The delimiter is nowhere in the data, and `Content-Disposition` is seen when
the last byte of the header block is not. -/
def Unbroken (delim : Bytes) (p : FormPart) : Prop :=
  ¬delim <:+: p.data ∧ ∃ l ∈ seenLines p.lines, ciPrefix dispositionField l = true

variable {boundary data rest : Bytes} {p : FormPart}

theorem IsBoundary.notMem (h : IsBoundary boundary) :
    13 ∉ delimiter boundary ∧ 10 ∉ delimiter boundary := by
  constructor
  · intro hm
    simp only [delimiter, mem_cons] at hm
    rcases hm with hm | hm | hm
    · cases hm
    · cases hm
    · exact absurd (h.chars 13 hm) (by decide)
  · intro hm
    simp only [delimiter, mem_cons] at hm
    rcases hm with hm | hm | hm
    · cases hm
    · cases hm
    · exact absurd (h.chars 10 hm) (by decide)

variable {delim : Bytes}

theorem find_delim (hne : delim ≠ []) (h13 : 13 ∉ delim) (h10 : 10 ∉ delim) (h : ¬delim <:+: data)
    (rest : Bytes) : find delim (data ++ 13 :: 10 :: (delim ++ rest)) = some (data.length + 2) := by
  have hline : find delim (10 :: (delim ++ rest)) = some 1 := by
    have hnil : ¬delim <:+: [] := fun hi => hne (infix_nil.mp hi)
    have := Search.find_append hne h10 (delim ++ rest) hnil
    rwa [nil_append, Search.find_start] at this
  rw [Search.find_append hne h13 _ h, hline, Option.map_some]
  congr 1
  omega

theorem exists_find_delim (h : delim <:+: data) (rest : Bytes) :
    ∃ k, k + delim.length ≤ data.length ∧ find delim (data ++ rest) = some k := by
  obtain ⟨u, v, rfl⟩ := h
  obtain ⟨k, hk, hf⟩ : ∃ k ≤ u.length, find delim (u ++ delim ++ v ++ rest) = some k :=
    Search.exists_find_le (by simp) (by simp [append_assoc])
  refine ⟨k, ?_, hf⟩
  simp
  omega

/-! ### A part in the loop -/

/-- A part from its header block on, with what is behind its delimiter. -/
def partText (delim : Bytes) (p : FormPart) (rest : Bytes) : Bytes :=
  linesText p.lines ++ 13 :: 10 :: 13 :: 10 :: (p.data ++ 13 :: 10 :: (delim ++ rest))

theorem FormPart.lines_ne_nil (p : FormPart) : p.lines ≠ [] := by
  obtain ⟨l, hl, -⟩ := p.disposition
  exact ne_nil_of_mem hl

theorem partText_ne_nil (p : FormPart) (rest : Bytes) : partText delim p rest ≠ [] := by simp [partText]

theorem find_partText (p : FormPart) (rest : Bytes) :
    find (crlf ++ crlf) (partText delim p rest) = some (linesText p.lines).length :=
  find_linesText _ p.lines_ne_nil p.isLine

theorem drop_partText (p : FormPart) (rest : Bytes) :
    (partText delim p rest).drop ((linesText p.lines).length + 4) = p.data ++ 13 :: 10 ::
    (delim ++ rest) := by
  rw [partText, drop_append]
  simp

theorem take_partText (p : FormPart) (rest : Bytes) :
    (partText delim p rest).take (linesText p.lines).length = linesText p.lines := by
  rw [partText, take_left]

theorem behindPart_partText (p : FormPart) (rest : Bytes) :
    behindPart delim (partText delim p rest) (linesText p.lines).length (p.data.length + 2) = rest := by
  have htext : p.data ++ 13 :: 10 :: (delim ++ rest) = (p.data ++ crlf ++ delim) ++ rest := by simp
  rw [behindPart, drop_partText, htext, drop_left' (by simp; omega)]

theorem parsePartHeaders_isSome (p : FormPart) (off : ℕ) :
    (∃ hd, parsePartHeaders off (linesText p.lines) = some hd) ↔
      ∃ l ∈ seenLines p.lines, ciPrefix dispositionField l = true := by
  rw [parsePartHeaders_lines fun l hl => (p.isLine l hl).2, readHeaders_found, Bool.false_or,
    ← any_eq_true]
  split_ifs with h
  · exact iff_of_true ⟨_, rfl⟩ h
  · exact iff_of_false nofun h

theorem partDataLen_crlf (data : Bytes) : partDataLen (data ++ crlf) = data.length := by
  rw [partDataLen, if_pos (suffix_append data crlf)]
  simp

variable {cfg : MultipartConfig} {maxParts : ℕ} {epilogue : Bytes}

theorem loop_round (hne : delim ≠ []) (h13 : 13 ∉ delim) (h10 : 10 ∉ delim) (rest : Bytes) (fuel off : ℕ)
    {total : ℕ} {acc : List MultipartPart} (hun : Unbroken delim p)
    (hpart : p.data.length ≤ cfg.maxPartSize) (htotal : total + p.data.length ≤ cfg.maxTotalSize)
    (hcount : acc.length < maxParts ∧ acc.length < cfg.maxParts) :
    ∃ part off', part.data.bytes = p.data ∧
      multipartLoop delim cfg maxParts (fuel + 1) off (partText delim p rest) total acc =
        if rest.take 2 = [45, 45] then (acc ++ [part], 0)
        else if rest.take 2 ≠ crlf then (acc ++ [part], -EINVAL)
        else multipartLoop delim cfg maxParts fuel off' (rest.drop 2) (total + p.data.length)
        (acc ++ [part]) := by
  obtain ⟨hd, hhd⟩ := (parsePartHeaders_isSome p off).mpr hun.2
  have hk := find_delim hne h13 h10 hun.1 rest
  rw [← drop_partText p rest] at hk
  have hdata : ((partText delim p rest).drop ((linesText p.lines).length + 4)).take (p.data.length + 2) =
      p.data ++ crlf := by
    rw [drop_partText, take_append]
    simp
  have hlen : partDataLen
      (((partText delim p rest).drop ((linesText p.lines).length + 4)).take (p.data.length + 2)) =
        p.data.length := by
    rw [hdata, partDataLen_crlf]
  refine ⟨partAt off (partText delim p rest) (linesText p.lines).length (p.data.length + 2) hd,
    off + (linesText p.lines).length + 4 + (p.data.length + 2) + delim.length + 2, ?_, ?_⟩
  · rw [partAt, hlen, drop_partText, take_left]
  · rw [multipartLoop_part (partText_ne_nil p rest) (find_partText p rest) hk (by rwa [hlen])
      (by rwa [hlen])
      hcount (by rwa [take_partText]), behindPart_partText, hlen]

theorem loop_unbroken (hne : delim ≠ []) (h13 : 13 ∉ delim) (h10 : 10 ∉ delim) : ∀ {ps : List FormPart}
    {p : FormPart} {fuel off total : ℕ} {acc : List MultipartPart}, (∀ q ∈ p :: ps, Unbroken delim q) →
    (∀ q ∈ p :: ps, q.data.length ≤ cfg.maxPartSize) →
    total + (partText delim p (encodeParts delim epilogue ps)).length ≤ cfg.maxTotalSize →
    acc.length + (p :: ps).length ≤ maxParts ∧ acc.length + (p :: ps).length ≤ cfg.maxParts →
    (partText delim p (encodeParts delim epilogue ps)).length ≤ fuel →
    ∃ result, multipartLoop delim cfg maxParts fuel off
    (partText delim p (encodeParts delim epilogue ps)) total acc =
        (result, 0) ∧
      result.map (·.data.bytes) = acc.map (·.data.bytes) ++ (p :: ps).map (·.data) := by
  intro ps
  induction ps with
  | nil =>
    intro p fuel off total acc hun hdata htotal hcount hfuel
    have hlen : p.data.length < (partText delim p (encodeParts delim epilogue [])).length := by
      simp [partText]
      omega
    obtain ⟨fuel, rfl⟩ := Nat.exists_eq_add_one_of_ne_zero (n := fuel) (by omega)
    simp only [length_cons, length_nil] at hcount
    obtain ⟨part, off', hbytes, hloop⟩ := loop_round hne h13 h10 (encodeParts delim epilogue []) fuel off
      (hun p mem_cons_self) (hdata p mem_cons_self)
      (show total + p.data.length ≤ cfg.maxTotalSize by omega)
      (show acc.length < maxParts ∧ acc.length < cfg.maxParts by omega)
    rw [hloop, if_pos (by rfl)]
    exact ⟨acc ++ [part], rfl, by simp [hbytes]⟩
  | cons q ps ih =>
    intro p fuel off total acc hun hdata htotal hcount hfuel
    have hlen : p.data.length + (partText delim q (encodeParts delim epilogue ps)).length <
        (partText delim p (encodeParts delim epilogue (q :: ps))).length := by
      simp [partText, encodeParts]
      omega
    obtain ⟨fuel, rfl⟩ := Nat.exists_eq_add_one_of_ne_zero (n := fuel) (by omega)
    simp only [length_cons] at hcount
    obtain ⟨part, off', hbytes, hloop⟩ :=
      loop_round hne h13 h10 (encodeParts delim epilogue (q :: ps)) fuel off
      (hun p mem_cons_self) (hdata p mem_cons_self)
        (show total + p.data.length ≤ cfg.maxTotalSize by omega)
      (show acc.length < maxParts ∧ acc.length < cfg.maxParts by omega)
    rw [hloop, if_neg (by simp [encodeParts]), if_neg (by simp [encodeParts])]
    obtain ⟨result, hresult, hmap⟩ := @ih q fuel off' (total + p.data.length) (acc ++ [part])
      (forall_mem_cons.mp hun).2
      (forall_mem_cons.mp hdata).2 (by omega) (by simp; omega) (by omega)
    refine ⟨result, hresult, ?_⟩
    rw [hmap]
    simp [hbytes]

theorem partAt_ne_of_infix (hne : delim ≠ []) (h : delim <:+: p.data) {off k : ℕ}
    (hk : find delim ((partText delim p rest).drop ((linesText p.lines).length + 4)) = some k)
    (hd : PartHeaders) :
    (partAt off (partText delim p rest) (linesText p.lines).length k hd).data.bytes ≠ p.data := by
  obtain ⟨k', hle, hk'⟩ := exists_find_delim h (13 :: 10 :: (delim ++ rest))
  rw [drop_partText, hk'] at hk
  obtain rfl : k' = k := Option.some.inj hk
  have hpos : 0 < delim.length := length_pos_iff.mpr hne
  intro heq
  have hlen := congrArg List.length heq
  have hcut : ∀ b : Bytes, partDataLen b ≤ b.length := by
    intro b
    unfold partDataLen
    split_ifs
    · exact Nat.sub_le _ _
    · exact le_rfl
  have hk : partDataLen (((partText delim p rest).drop ((linesText p.lines).length + 4)).take k') ≤ k' :=
    (hcut _).trans (length_take_le _ _)
  rw [partAt, length_take] at hlen
  omega

/-- A loop that finds a part with its data: the part is unbroken, and the loop goes
on behind its delimiter if more is found. -/
theorem loop_found (hne : delim ≠ []) (h13 : 13 ∉ delim) (h10 : 10 ∉ delim)
    {fuel off total : ℕ} {acc result : List MultipartPart} {datas : List Bytes}
    (h : multipartLoop delim cfg maxParts fuel off (partText delim p rest) total acc = (result, 0))
    (hmap : result.map (·.data.bytes) = acc.map (·.data.bytes) ++ p.data :: datas) :
    Unbroken delim p ∧ (datas = [] ∨ ∃ fuel' off' total' part, part.data.bytes = p.data ∧
      multipartLoop delim cfg maxParts fuel' off' (rest.drop 2) total' (acc ++ [part]) =
      (result, 0)) := by
  cases fuel with
  | zero =>
    cases h
    simp at hmap
  | succ fuel =>
    obtain ⟨hnil, -⟩ | ⟨n, k, hd, hn, hk, hhd, hnext⟩ := multipartLoop_ok h
    · exact absurd hnil (partText_ne_nil p rest)
    obtain rfl : (linesText p.lines).length = n := Option.some.inj ((find_partText p rest).symm.trans hn)
    rw [take_partText] at hhd
    have hfound : acc ++ [partAt off (partText delim p rest) (linesText p.lines).length k hd] <+:
        result := by
      rcases hnext with rfl | ⟨total', hnext⟩
      · exact prefix_refl _
      · exact multipartLoop_extends hnext
    obtain ⟨more, hmore⟩ := hfound
    have hbytes : (partAt off (partText delim p rest) (linesText p.lines).length k hd).data.bytes =
      p.data ∧
        more.map (·.data.bytes) = datas := by
      rw [← hmore, map_append, map_append, append_assoc] at hmap
      simpa using append_cancel_left hmap
    have hun : Unbroken delim p := ⟨fun hin => partAt_ne_of_infix hne hin hk hd hbytes.1,
      (parsePartHeaders_isSome p off).mp ⟨hd, hhd⟩⟩
    refine ⟨hun, ?_⟩
    rcases hnext with hend | ⟨total', hnext⟩
    · rw [hend] at hmore
      rw [append_right_eq_self.mp hmore] at hbytes
      exact .inl hbytes.2.symm
    · have hdelim := find_delim hne h13 h10 hun.1 rest
      rw [← drop_partText p rest] at hdelim
      obtain rfl : p.data.length + 2 = k := Option.some.inj (hdelim.symm.trans hk)
      rw [behindPart_partText] at hnext
      exact .inr ⟨fuel, _, total', _, hbytes.1, hnext⟩

theorem unbroken_of_loop (hne : delim ≠ []) (h13 : 13 ∉ delim) (h10 : 10 ∉ delim) :
    ∀ {ps : List FormPart}
    {p : FormPart} {fuel off total : ℕ} {acc result : List MultipartPart},
    multipartLoop delim cfg maxParts fuel off (partText delim p (encodeParts delim epilogue ps))
    total acc =
      (result, 0) →
    result.map (·.data.bytes) = acc.map (·.data.bytes) ++ (p :: ps).map (·.data) →
    ∀ q ∈ p :: ps, Unbroken delim q
  | [], p, _, _, _, _, _, h, hmap => by
    intro q hq
    rw [mem_singleton.mp hq]
    exact (loop_found hne h13 h10 h hmap).1
  | p' :: ps, p, _, _, _, acc, result, h, hmap => by
    obtain ⟨hun, hnil | ⟨fuel', off', total', part, hbytes, hnext⟩⟩ := loop_found hne h13 h10 h hmap
    · cases hnil
    · have hmap' : result.map (·.data.bytes) =
          (acc ++ [part]).map (·.data.bytes) ++ (p' :: ps).map (·.data) := by
        rw [hmap]
        simp [hbytes]
      rw [forall_mem_cons]
      exact ⟨hun, unbroken_of_loop hne h13 h10 hnext hmap'⟩

theorem multipartParse_encode (hb : IsBoundary boundary) {parts : List FormPart}
    (hbody : (multipartEncode boundary parts epilogue).length ≤ cfg.maxTotalSize) :
    multipartParse (multipartEncode boundary parts epilogue) boundary cfg maxParts =
      if (encodeParts (delimiter boundary) epilogue parts).take 2 = [45, 45] then ([], 0)
      else if (encodeParts (delimiter boundary) epilogue parts).take 2 ≠ crlf then ([], -EINVAL)
      else
        multipartLoop (delimiter boundary) cfg maxParts
        (encodeParts (delimiter boundary) epilogue parts).length
          ((delimiter boundary).length + 2)
          ((encodeParts (delimiter boundary) epilogue parts).drop 2) 0 [] := by
  have hnil : multipartEncode boundary parts epilogue ≠ [] := cons_ne_nil _ _
  have hlen : ¬boundary.length > 256 := by
    have := hb.length_le
    omega
  have hrest : ¬(encodeParts (delimiter boundary) epilogue parts).length < 2 := by
    cases parts <;> simp [encodeParts]
  rw [multipartParse, if_neg (not_lt.mpr hbody), if_neg hnil, if_neg hlen, multipartEncode,
    Search.find_start]
  simp only [Nat.zero_add, drop_left, if_neg hrest]

/-- **The parts of a body are split where they were put together**, exactly if the
text of the delimiter stands in the data of none of them, also not in the middle
of a line, and the `Content-Disposition` of each is seen. -/
theorem parts_split_iff (boundary : Bytes) (hb : IsBoundary boundary) (parts : List FormPart)
    (epilogue : Bytes)
    (cfg : MultipartConfig) (maxParts : ℕ)
    (hlimits : PartsWithin cfg maxParts (multipartEncode boundary parts epilogue) parts) :
    ((multipartParse (multipartEncode boundary parts epilogue) boundary cfg maxParts).2 = 0 ∧
        (multipartParse (multipartEncode boundary parts epilogue) boundary cfg maxParts).1.map
        (·.data.bytes) =
          parts.map (·.data)) ↔
      ∀ p ∈ parts, Unbroken (delimiter boundary) p := by
  obtain ⟨h13, h10⟩ := hb.notMem
  have hne : delimiter boundary ≠ [] := cons_ne_nil _ _
  rw [multipartParse_encode hb hlimits.body]
  cases parts with
  | nil =>
    rw [if_pos (by rfl)]
    simp
  | cons p ps =>
    have hdrop : (encodeParts (delimiter boundary) epilogue (p :: ps)).drop 2 =
        partText (delimiter boundary) p (encodeParts (delimiter boundary) epilogue ps) := rfl
    rw [if_neg (by simp [encodeParts]), if_neg (by simp [encodeParts]), hdrop]
    constructor
    · rintro ⟨hrc, hmap⟩
      exact unbroken_of_loop hne h13 h10 (Prod.ext rfl hrc) hmap
    · intro hun
      have htotal := hlimits.body
      have htext :
        (partText (delimiter boundary) p (encodeParts (delimiter boundary) epilogue ps)).length +
        2 =
          (encodeParts (delimiter boundary) epilogue (p :: ps)).length := rfl
      rw [multipartEncode, length_append] at htotal
      have hsize :
        0 + (partText (delimiter boundary) p
          (encodeParts (delimiter boundary) epilogue ps)).length ≤
          cfg.maxTotalSize := by omega
      have hfuel :
        (partText (delimiter boundary) p (encodeParts (delimiter boundary) epilogue ps)).length ≤
          (encodeParts (delimiter boundary) epilogue (p :: ps)).length := by omega
      obtain ⟨result, hloop, hmap⟩ := @loop_unbroken _ cfg maxParts epilogue hne h13 h10 ps p _
        ((delimiter boundary).length + 2) 0 [] hun hlimits.data hsize
        (by simpa using hlimits.count) hfuel
      rw [hloop]
      exact ⟨rfl, hmap⟩

/-- A part with one header line. -/
def plainPart (data : Bytes) : FormPart where
  lines := [bytes "Content-Disposition: form-data; name=\"a\""]
  data := data
  isLine := by decide +kernel
  disposition := by decide +kernel

theorem parts_split_form :
    IsBoundary (bytes "xyz") ∧ PartsWithin multipartConfigInit 8
        (multipartEncode (bytes "xyz") [plainPart (bytes "-- \r\n"), plainPart []] (bytes "\r\n"))
        [plainPart (bytes "-- \r\n"), plainPart []] ∧
      (multipartParse (multipartEncode (bytes "xyz") [plainPart (bytes "-- \r\n"), plainPart []]
        (bytes "\r\n"))
        (bytes "xyz") multipartConfigInit 8).1.map (·.data.bytes) = [bytes "-- \r\n", []] := by
  have hb : IsBoundary (bytes "xyz") := ⟨by decide, by decide, by decide +kernel⟩
  have hl : PartsWithin multipartConfigInit 8
      (multipartEncode (bytes "xyz") [plainPart (bytes "-- \r\n"), plainPart []] (bytes "\r\n"))
      [plainPart (bytes "-- \r\n"), plainPart []] :=
    ⟨by decide +kernel, by decide +kernel, by decide +kernel⟩
  have hun : ∀ p ∈ [plainPart (bytes "-- \r\n"), plainPart []],
      Unbroken (delimiter (bytes "xyz")) p := by
    unfold Unbroken
    decide +kernel
  exact ⟨hb, hl, ((parts_split_iff _ hb _ _ _ _ hl).mpr hun).2⟩

/-- The boundary in the middle of a line: CR LF, the hyphens and the boundary do not
stand in the data, but they are cut. -/
theorem data_cut_inside_line :
    IsBoundary (bytes "xyz") ∧ ¬crlf ++ delimiter (bytes "xyz") <:+: crlf ++ bytes "a--xyz\r\nb" ∧
      PartsWithin multipartConfigInit 8
      (multipartEncode (bytes "xyz") [plainPart (bytes "a--xyz\r\nb")] [])
        [plainPart (bytes "a--xyz\r\nb")] ∧
      (multipartParse (multipartEncode (bytes "xyz") [plainPart (bytes "a--xyz\r\nb")] []) (bytes "xyz")
        multipartConfigInit 8).2 = -EINVAL ∧
      (multipartParse (multipartEncode (bytes "xyz") [plainPart (bytes "a--xyz\r\nb")] []) (bytes "xyz")
        multipartConfigInit 8).1.map (·.data.bytes) = [bytes "a"] :=
  ⟨⟨by decide, by decide, by decide +kernel⟩, by
    decide +kernel, ⟨by decide +kernel, by decide +kernel, by decide +kernel⟩,
    by decide +kernel, by decide +kernel⟩

end Iohttp
