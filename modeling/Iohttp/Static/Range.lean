/-
# Ranges of a file

`parse_range` of `src/static/ioh_static.c` takes the numbers that `strtoul`
reads, with its signs and its saturation, and gives a range only if it lies
inside the file. So the length of the part that `ioh_static_serve` reads does
not wrap, and the body, `Content-Length` and `Content-Range` are about the
same part.
-/
import Iohttp.Static.Serve
import Iohttp.Http.Serialize
import Iohttp.Http.HeaderLines

namespace Iohttp

open List

variable {fileSize first last : ℕ} {files : Files} {cfg : StaticConfig} {st : FileStat}
  {etag : Option Bytes} {path resolved : Bytes}

/-- What `parse_range` accepts lies inside the file. -/
theorem parseRange_inside {range : Bytes} (hsize : 1 ≤ fileSize)
    (h : parseRange range fileSize = some (first, last)) : first ≤ last ∧ last < fileSize := by
  unfold parseRange at h
  split_ifs at h
  split at h
  · split at h
    · split_ifs at h with hs
      cases h
      omega
    · cases h
  · split at h
    · obtain ⟨x, -, hx⟩ := Option.bind_eq_some_iff.mp h
      split_ifs at hx with hb
      cases hx
      omega
    · cases h

/-- The difference as 64-bit arithmetic gives it does not wrap. -/
theorem length_no_wrap (hle : first ≤ last) (hlt : last < fileSize) (hsize : fileSize < 2 ^ 64) :
    ((last + 2 ^ 64 - first) % 2 ^ 64 + 1) % 2 ^ 64 = last - first + 1 ∧
      1 ≤ last - first + 1 ∧ last - first + 1 ≤ fileSize := by
  omega

/-! ### The headers -/

variable {name : Bytes}

theorem setHeaders_status : ∀ (headers : List (Bytes × Bytes)) (resp : Response),
    (setHeaders resp headers).status = resp.status
  | [], _ => rfl
  | h :: headers, resp => by
    rw [setHeaders, foldl_cons]
    refine (setHeaders_status headers (responseSetHeader resp h.1 h.2)).trans ?_
    unfold responseSetHeader
    split <;> rfl

theorem headersNamed_setHeaders : ∀ (headers : List (Bytes × Bytes)) (resp : Response),
    (∀ h ∈ headers, eqIgnoreCase (strn maxHeaderSize h.1) name = false) →
    headersNamed name (setHeaders resp headers).headers = headersNamed name resp.headers
  | [], _, _ => rfl
  | h :: headers, _, hall =>
    (headersNamed_setHeaders headers _ (forall_mem_cons.mp hall).2).trans
      (headersNamed_setHeader (hall h mem_cons_self))

/-- The value of the first header of a name. -/
def headerValue (name : Bytes) (resp : Response) : Option Bytes :=
  (headersNamed name resp.headers).head?.map (·.value)

theorem headerValue_setBody (resp : Response) (body : Bytes) :
    headerValue name (responseSetBody resp body) = headerValue name resp := rfl

theorem headerValue_setHeaders (before : List (Bytes × Bytes)) {value : Bytes}
    {behind : List (Bytes × Bytes)} (resp : Response) (hname : strn maxHeaderSize name = name)
    (hvalue : strn maxHeaderSize value = value)
    (hbehind : ∀ h ∈ behind, eqIgnoreCase (strn maxHeaderSize h.1) name = false) :
    headerValue name (setHeaders resp (before ++ (name, value) :: behind)) = some value := by
  obtain ⟨n, hn⟩ := headersNamed_setHeader_self (setHeaders resp before) name value
  have hparts : setHeaders resp (before ++ (name, value) :: behind) =
      setHeaders (responseSetHeader (setHeaders resp before) name value) behind := by
    simp [setHeaders]
  rw [hname, hvalue] at hn
  rw [headerValue, hparts, headersNamed_setHeaders behind _ hbehind, hn]
  rfl

theorem strn_of_short {v : Bytes} (h0 : 0 ∉ v) (hlen : v.length ≤ 8192) : strn maxHeaderSize v = v := by
  simpa [strn] using strn_append (u := []) h0 hlen

theorem strn_dec {n : ℕ} (h : n < 2 ^ 64) : 0 ∉ dec n ∧ (dec n).length ≤ 20 :=
  ⟨fun h => by simpa using (dec_digit h).1, length_dec_le (by decide) (by omega)⟩

/-- The text of `Content-Range`. -/
def rangeText (first last fileSize : ℕ) : Bytes :=
  bytes "bytes " ++ dec first ++ bytes "-" ++ dec last ++ bytes "/" ++ dec fileSize

theorem strn_rangeText (h : first ≤ last) (hl : last < fileSize) (hs : fileSize < 2 ^ 64) :
    strn maxHeaderSize (rangeText first last fileSize) = rangeText first last fileSize := by
  have h1 := strn_dec (h.trans_lt (hl.trans hs))
  have h2 := strn_dec (hl.trans hs)
  have h3 := strn_dec hs
  refine strn_of_short ?_ ?_
  · simp only [rangeText, mem_append, not_or]
    exact ⟨⟨⟨⟨⟨by decide +kernel, h1.1⟩, by decide +kernel⟩, h2.1⟩, by decide +kernel⟩, h3.1⟩
  · have hb : (bytes "bytes ").length = 6 ∧ (bytes "-").length = 1 ∧ (bytes "/").length = 1 := by
      decide +kernel
    simp only [rangeText, length_append, hb.1, hb.2.1, hb.2.2]
    omega

/-- The headers of `ioh_static_serve` behind `Content-Length`. -/
def laterHeaders (files : Files) (cfg : StaticConfig) (st : FileStat) (etag : Option Bytes) :
    List (Bytes × Bytes) :=
  [(bytes "Accept-Ranges", bytes "bytes")] ++ (etag.map fun etag => (bytes "ETag", etag)).toList ++
    ((files.formatDate st.mtime).map fun date => (bytes "Last-Modified", date)).toList ++
    [(bytes "Cache-Control", bytes "public, max-age=" ++ dec cfg.maxAgeDefault)]

theorem staticHeaders_part (files : Files) (cfg : StaticConfig) (path : Bytes) (st : FileStat)
    (etag : Option Bytes)
    (first last length : ℕ) : staticHeaders files cfg path st etag (some (first, last)) length =
      [(bytes "Content-Range", rangeText first last st.size), (bytes "Content-Type", mimeType path)] ++
        (bytes "Content-Length", dec length) :: laterHeaders files cfg st etag := by
  simp [staticHeaders, contentRange, rangeText, laterHeaders]

theorem laterHeaders_names {h : Bytes × Bytes} (hh : h ∈ laterHeaders files cfg st etag) :
    h.1 ∈ [bytes "Accept-Ranges", bytes "ETag", bytes "Last-Modified", bytes "Cache-Control"] := by
  have hopt {name : Bytes} {o : Option Bytes} (hx : h ∈ (o.map fun v => (name, v)).toList) :
      h.1 = name := by
    cases o <;> simp_all
  simp only [laterHeaders, mem_append, mem_singleton] at hh
  rcases hh with ((rfl | hh) | hh) | rfl
  · simp
  · simp [hopt hh]
  · simp [hopt hh]
  · simp

/-- The headers of a part of a file. -/
theorem headerValue_part (files : Files) (cfg : StaticConfig) (path : Bytes) (etag : Option Bytes)
    {length : ℕ} (resp : Response) (h : first ≤ last) (hl : last < st.size) (hs : st.size < 2 ^ 64)
    (hlen : length < 2 ^ 64) :
    let resp' := setHeaders resp (staticHeaders files cfg path st etag (some (first, last)) length)
    headerValue (bytes "Content-Length") resp' = some (dec length) ∧
      headerValue (bytes "Content-Range") resp' = some (rangeText first last st.size) := by
  have hn := strn_dec hlen
  have hlater (name : Bytes) (hname : ∀ n ∈ [bytes "Accept-Ranges", bytes "ETag", bytes "Last-Modified",
      bytes "Cache-Control"], eqIgnoreCase (strn maxHeaderSize n) name = false) :
      ∀ x ∈ laterHeaders files cfg st etag, eqIgnoreCase (strn maxHeaderSize x.1) name = false :=
    fun x hx => hname x.1 (laterHeaders_names hx)
  rw [staticHeaders_part]
  constructor
  · exact headerValue_setHeaders _ resp (by decide +kernel) (strn_of_short hn.1 (by omega))
      (hlater _ (by decide +kernel))
  · refine headerValue_setHeaders [] resp (by decide +kernel) (strn_rangeText h hl hs) ?_
    refine forall_mem_cons.mpr ⟨?_, forall_mem_cons.mpr ⟨?_, hlater _ (by decide +kernel)⟩⟩
    · show eqIgnoreCase (strn maxHeaderSize (bytes "Content-Type")) (bytes "Content-Range") = false
      decide +kernel
    · show eqIgnoreCase (strn maxHeaderSize (bytes "Content-Length")) (bytes "Content-Range") = false
      decide +kernel

theorem staticFile_stat
    (h : staticFile files cfg path = .ok (resolved, st)) : files.stat resolved = some st := by
  unfold staticFile at h
  split at h
  · cases h
  · split_ifs at h
    split at h
    · split_ifs at h
      split at h
      · split_ifs at h
        cases h
        assumption
      · cases h
    · cases h

/-- What a response with status 206 is made of. -/
theorem serveContent_part {range : Option (ℕ × ℕ)} {resp resp' : Response}
    (h : serveContent files cfg path resolved st etag range resp = (resp', 0))
    (h206 : resp'.status = 206) :
    ∃ content first last, files.content resolved = some content ∧ range = some (first, last) ∧
      ((content.drop first).take (last - first + 1)).length = last - first + 1 ∧
      resp' = responseSetBody (setHeaders { resp with status := 206 }
        (staticHeaders files cfg path st etag (some (first, last)) (last - first + 1)))
        ((content.drop first).take (last - first + 1)) := by
  unfold serveContent at h
  have hio : (- EIO : ℤ) ≠ 0 := by decide
  split at h
  · exact absurd (congrArg Prod.snd h) (show (-ENOENT : ℤ) ≠ 0 by decide)
  · next content hcontent =>
    cases range with
    | none =>
      simp only [Option.map_none, Option.getD_none, Option.isSome_none, Bool.false_eq_true,
        if_false] at h
      split_ifs at h
      · exact absurd (congrArg Prod.snd h) hio
      · cases h
        simp [responseSetBody, setHeaders_status] at h206
    | some r =>
      obtain ⟨first, last⟩ := r
      simp only [Option.map_some, Option.getD_some, Option.isSome_some, if_true] at h
      split_ifs at h with hlen
      · exact absurd (congrArg Prod.snd h) hio
      · cases h
        rw [not_not] at hlen
        exact ⟨content, first, last, hcontent, rfl, hlen, by rw [hlen]⟩

/-- **Served ranges are inside the file.** What `parse_range` accepts lies inside
the file, so that the length of the part does not wrap; a response with status
206 has that part as its body, and its headers say so. -/
theorem range_served_inside :
    (∀ range fileSize first last, 1 ≤ fileSize → fileSize < 2 ^ 64 →
      parseRange range fileSize = some (first, last) → first ≤ last ∧ last < fileSize ∧
        ((last + 2 ^ 64 - first) % 2 ^ 64 + 1) % 2 ^ 64 = last - first + 1 ∧
        1 ≤ last - first + 1 ∧ last - first + 1 ≤ fileSize) ∧
    ∀ files cfg mem req resp resp', (∀ p st, files.stat p = some st → st.size < 2 ^ 64) →
      staticServe files cfg mem req resp = (resp', 0) → resp'.status = 206 →
      ∃ resolved st content first last, staticFile files cfg req.path.bytes = .ok (resolved, st) ∧
        files.content resolved = some content ∧ first ≤ last ∧ last < st.size ∧
        resp'.body = (content.drop first).take (last - first + 1) ∧
        resp'.body.length = last - first + 1 ∧
        headerValue (bytes "Content-Length") resp' = some (dec (last - first + 1)) ∧
        headerValue (bytes "Content-Range") resp' = some (rangeText first last st.size) := by
  refine ⟨fun range fileSize first last h1 hsize h => ?_, fun files cfg mem req resp resp' hfiles h
    h206 => ?_⟩
  · obtain ⟨hle, hlt⟩ := parseRange_inside h1 h
    exact ⟨hle, hlt, length_no_wrap hle hlt hsize⟩
  · unfold staticServe at h
    split at h
    · next e he => exact absurd (congrArg Prod.snd h) (staticFile_error he)
    · next resolved st hfile =>
      generalize (if cfg.etag then etagGenerate st.mtimeUnsigned st.size 64 else none) = etag at h
      simp only at h
      split_ifs at h
      · cases h
        simp [setHeaders_status] at h206
      · obtain ⟨content, first, last, hcontent, hrange, hlen, rfl⟩ := serveContent_part h h206
        have hsize := hfiles _ _ (staticFile_stat hfile)
        obtain ⟨hle, hlt⟩ : first ≤ last ∧ last < st.size := by
          unfold requestRange at hrange
          split_ifs at hrange with hpos
          obtain ⟨p, -, hp⟩ := Option.bind_eq_some_iff.mp hrange
          exact parseRange_inside hpos hp
        refine ⟨resolved, st, content, first, last, hfile, hcontent, hle, hlt, rfl, hlen, ?_⟩
        rw [headerValue_setBody, headerValue_setBody]
        exact headerValue_part files cfg _ etag _ hle hlt hsize (by omega)

/-- Every file has these ten bytes. -/
def tenBytes : Files := ⟨some, fun _ => some ⟨false, 10, 0⟩, fun _ => some (bytes "0123456789"),
    fun _ => none, fun _ => none⟩

/-- What is answered to a request with `Range: bytes=2-5`. -/
def rangeAnswer : Response × ℤ :=
  staticServe tenBytes ⟨some (bytes "/srv"), true, 3600⟩ (bytes "bytes=2-5\x00")
    ⟨.get, ⟨4, bytes "/f"⟩, none, [⟨⟨0, bytes "Range"⟩, ⟨0, bytes "bytes=2-5"⟩⟩], [], [], 1, 1,
      true, 0, none, none⟩
    responseInit

theorem range_served_inside_part :
    5 < 10 ∧ rangeAnswer.1.status = 206 ∧ ∃ first last, first ≤ last ∧ last < 10 ∧
      rangeAnswer.1.body = ((bytes "0123456789").drop first).take (last - first + 1) := by
  have h206 : rangeAnswer.2 = 0 ∧ rangeAnswer.1.status = 206 := by decide +kernel
  refine ⟨(range_served_inside.1 (bytes "bytes=2-5") 10 2 5 (by decide) (by decide)
    (by decide +kernel)).2.1, h206.2, ?_⟩
  obtain ⟨_, st, content, first, last, hfile, hcontent, hle, hlt, hbody, -⟩ :=
    range_served_inside.2 tenBytes _ _ _ _ _ (fun p st h => by cases h; decide)
    (Prod.ext rfl h206.1) h206.2
  cases staticFile_stat hfile
  cases hcontent
  exact ⟨first, last, hle, hlt, hbody⟩

end Iohttp
