/-
# Serialization into a buffer

`ioh_http1_serialize_response` on memory. The lines of the head are written
with `snprintf`, which cuts a text that does not fit, puts a NUL behind it and
so needs one byte more than the text; the empty line and the body are copied as
they are. The NUL of the last line lies where the empty line goes, so nothing
of it is left. The length is returned as an `int`, which a response of 2 GiB
does not fit.
-/
import Iohttp.Http.Response
import Iohttp.Lib.Memory

namespace Iohttp

open Memory List

/-- A size as an `int`, which wraps around. -/
def toInt (n : ℕ) : ℤ := (n : ℤ).bmod (2 ^ 32)

theorem toInt_eq {n : ℕ} (h : n < 2 ^ 31) : toInt n = n := by
  unfold toInt Int.bmod
  norm_num at h ⊢
  omega

theorem toInt_lt (n : ℕ) : toInt n < 2 ^ 31 := by
  unfold toInt Int.bmod
  norm_num
  omega

/-- The text of a `%.*s`; a negative precision is as if there were none. -/
def fmtString (precision : ℤ) (s : Bytes) : Bytes :=
  if precision < 0 then s.takeWhile (· ≠ 0) else strn precision.toNat s

/-- `snprintf` of a text at `out`, with `size` bytes from there on. A length that
is no `int` is an error. -/
def snprintf (mem : Bytes) (out size : ℕ) (text : Bytes) : Option (Bytes × ℤ) :=
  let written : ℤ := if text.length < 2 ^ 31 then text.length else -1
  if size = 0 then some (mem, written)
  else (store mem out (text.take (size - 1) ++ [0])).map fun mem => (mem, written)

/-! ### The function -/

/-- The memory, and the locals of `ioh_http1_serialize_response`. -/
structure Writer where
  mem : Bytes
  out : ℕ
  remaining : ℕ
  deriving DecidableEq

/-- A part of the function: it faults, it returns `-ENOSPC` and leaves the memory,
or it goes on. -/
abbrev Writing := ExceptT Bytes Option

theorem liftM_some_bind {α β : Type} (a : α) (f : α → Writing β) :
    (liftM (some a) : Writing α) >>= f = f a := rfl

def writeLine (w : Writer) (text : Bytes) : Writing Writer := do
  let (mem, written) ← (snprintf w.mem w.out w.remaining text : Option _)
  if written < 0 ∨ written.toNat ≥ w.remaining then throw mem
  else return ⟨mem, w.out + written.toNat, w.remaining - written.toNat⟩

/-- `memcpy` of the data at `out`. -/
def copyBytes (w : Writer) (data : Bytes) : Writing Writer := do
  let mem ← (store w.mem w.out data : Option _)
  return ⟨mem, w.out + data.length, w.remaining - data.length⟩

/-- The text of a header, whose strings end with a NUL. -/
def headerFormat (h : RespHeader) : Bytes :=
  fmtString (toInt h.name.length) (h.name ++ [0]) ++ bytes ": " ++
    fmtString (toInt h.value.length) (h.value ++ [0]) ++ crlf

def headTexts (resp : Response) : List Bytes :=
  statusLine resp.status :: resp.headers.map headerFormat ++
    if resp.body ≠ [] ∧ resp.chunked = false then
      [headerLine (bytes "Content-Length") (dec resp.body.length)]
    else []

/-- The body, of which there is a copy if it is not empty. -/
def writeBody (w : Writer) (body : Bytes) : Writing Writer :=
  if body = [] then return w
  else if body.length > w.remaining then throw w.mem
  else copyBytes w body

/-- The head, the empty line and the body. -/
def writeResponse (resp : Response) (w : Writer) : Writing Writer := do
  let w ← (headTexts resp).foldlM writeLine w
  if w.remaining < 2 then throw w.mem
  else
    let w ← copyBytes w crlf
    writeBody w resp.body

/-- What is returned from where the function has come to. -/
def returned (buf : ℕ) : Except Bytes Writer → Bytes × ℤ
  | .error mem => (mem, -ENOSPC)
  | .ok w => (w.mem, toInt (w.out - buf))

/-- `ioh_http1_serialize_response` into the `size` bytes at `buf`: the memory
afterwards and what is returned. -/
def serializeInto (resp : Response) (mem : Bytes) (buf size : ℕ) : Option (Bytes × ℤ) :=
  if size = 0 then some (mem, -EINVAL)
  else (writeResponse resp ⟨mem, buf, size⟩).run.map (returned buf)

/-! ### What is written -/

variable {resp : Response} {new text : Bytes}

section Writes

variable {mem : Bytes} {buf size : ℕ}

/-- Only the `size` bytes at `buf` were written to. -/
def WrittenWithin (mem : Bytes) (buf size : ℕ) (mem' : Bytes) : Prop :=
  ∃ data, data.length ≤ size ∧ mem' = overwrite mem buf data

/-- The data have been written, perhaps with a NUL behind them. -/
structure Wrote (mem : Bytes) (buf size : ℕ) (data : Bytes) (w : Writer) : Prop where
  written : ∃ nul : Bytes, nul.length ≤ 1 ∧ data.length + nul.length ≤ size ∧
    w.mem = overwrite mem buf (data ++ nul)
  out : w.out = buf + data.length
  remaining : data.length + w.remaining = size

theorem wrote_nil (mem : Bytes) (buf size : ℕ) : Wrote mem buf size [] ⟨mem, buf, size⟩ :=
  ⟨⟨[], by simp, by simp, (overwrite_nil mem buf).symm⟩, rfl, by simp⟩

variable {w : Writer} {data : Bytes}

section

variable (h : Wrote mem buf size data w)

include h

theorem Wrote.within : WrittenWithin mem buf size w.mem := by
  obtain ⟨nul, -, hlen, hw⟩ := h.written
  exact ⟨data ++ nul, by rwa [length_append], hw⟩

theorem Wrote.store (hmem : buf + size ≤ mem.length)
    (hnew : 0 < new.length) (hfits : new.length ≤ w.remaining) :
    store w.mem w.out new = some (overwrite mem buf (data ++ new)) := by
  obtain ⟨nul, hnul, hlen, hw⟩ := h.written
  have hremaining := h.remaining
  have hwlen : w.mem.length = mem.length := by
    rw [hw, length_overwrite]
    rw [length_append]
    omega
  rw [store_eq (by rw [hwlen, h.out]; omega), hw, h.out, overwrite_overwrite (by omega) (by omega)]

/-- A line that fits. -/
theorem Wrote.writeLine (hmem : buf + size ≤ mem.length) (hint : text.length < 2 ^ 31)
    (hfits : data.length + text.length < size) :
    ∃ w', (writeLine w text).run = some (.ok w') ∧ Wrote mem buf size (data ++ text) w' := by
  have hremaining := h.remaining
  have htake : text.take (w.remaining - 1) = text := take_of_length_le (by omega)
  have hstore :
      Memory.store w.mem w.out (text ++ [0]) = some (overwrite mem buf (data ++ (text ++ [0]))) :=
    h.store hmem (by simp) (by rw [length_append, length_singleton]; omega)
  have hprint : snprintf w.mem w.out w.remaining text =
      some (overwrite mem buf (data ++ (text ++ [0])), (text.length : ℤ)) := by
    rw [snprintf, if_neg (by omega), if_pos hint, htake, hstore, Option.map_some]
  refine ⟨⟨overwrite mem buf (data ++ (text ++ [0])), w.out + text.length,
    w.remaining - text.length⟩, ?_,
    ⟨[0], le_rfl, ?_, ?_⟩, ?_, ?_⟩
  · have hgoes : ¬((text.length : ℤ) < 0 ∨ (text.length : ℤ).toNat ≥ w.remaining) := by omega
    rw [Iohttp.writeLine, hprint, liftM_some_bind]
    exact if_neg hgoes
  · rw [length_append, length_singleton]
    omega
  · rw [append_assoc]
  · rw [h.out, length_append, Nat.add_assoc]
  · rw [length_append]
    show data.length + text.length + (w.remaining - text.length) = size
    omega

theorem Wrote.writeLine_full (hmem : buf + size ≤ mem.length) (hint : text.length < 2 ^ 31)
    (hroom : data.length < size) (hfull : ¬data.length + text.length < size) :
    ∃ mem', (Iohttp.writeLine w text).run = some (.error mem') ∧ WrittenWithin mem buf size mem' := by
  have hremaining := h.remaining
  have hcut : (text.take (w.remaining - 1) ++ [0]).length = w.remaining := by
    rw [length_append, length_take, length_singleton]
    omega
  have hprint : snprintf w.mem w.out w.remaining text =
      some (overwrite mem buf (data ++ (text.take (w.remaining - 1) ++ [0])), (text.length : ℤ)) := by
    rw [snprintf, if_neg (by omega), if_pos hint, h.store hmem (by omega) (by omega), Option.map_some]
  refine ⟨_, ?_, data ++ (text.take (w.remaining - 1) ++ [0]), ?_, rfl⟩
  · have hstops : (text.length : ℤ) < 0 ∨ (text.length : ℤ).toNat ≥ w.remaining := by omega
    rw [Iohttp.writeLine, hprint, liftM_some_bind]
    exact if_pos hstops
  · rw [length_append, hcut]
    omega

end

/-- The data have been written, with nothing behind them. -/
structure WroteExactly (mem : Bytes) (buf size : ℕ) (data : Bytes) (w : Writer) : Prop extends
    Wrote mem buf size data w where
  exact : w.mem = overwrite mem buf data

/-- A part of the function does what its model on data does: it goes on if the
model does, with the data written, and otherwise returns `-ENOSPC` with nothing
written outside. -/
def Mirrors (mem : Bytes) (buf size : ℕ) (R : Bytes → Writer → Prop) (r : Writing Writer) :
    Option Bytes → Prop
  | some data => ∃ w, r.run = some (.ok w) ∧ R data w
  | none => ∃ mem', r.run = some (.error mem') ∧ WrittenWithin mem buf size mem'

theorem Mirrors.bind {R R' : Bytes → Writer → Prop} {r : Writing Writer} {d : Option Bytes}
    {f : Writer → Writing Writer} {g : Bytes → Option Bytes} (h : Mirrors mem buf size R r d)
    (hf : ∀ data w, d = some data → R data w → Mirrors mem buf size R' (f w) (g data)) :
    Mirrors mem buf size R' (r >>= f) (d.bind g) := by
  cases d with
  | none =>
    obtain ⟨mem', hr, hmem'⟩ := h
    refine ⟨mem', ?_, hmem'⟩
    rw [ExceptT.run_bind, hr]
    rfl
  | some data =>
    obtain ⟨w, hr, hw⟩ := h
    have hrun : (r >>= f).run = (f w).run := by
      rw [ExceptT.run_bind, hr]
      rfl
    have hnext := hf data w rfl hw
    rw [Option.bind_some]
    unfold Mirrors at hnext ⊢
    rwa [hrun]

theorem mirrors_copyBytes (h : Wrote mem buf size data w)
    (hmem : buf + size ≤ mem.length) (hnew : 0 < new.length) (hfits : new.length ≤ w.remaining) :
    Mirrors mem buf size (WroteExactly mem buf size) (copyBytes w new) (some (data ++ new)) := by
  have hremaining := h.remaining
  refine ⟨⟨overwrite mem buf (data ++ new), w.out + new.length, w.remaining - new.length⟩, ?_,
    ⟨⟨⟨[], Nat.zero_le 1, ?_, ?_⟩, ?_, ?_⟩, rfl⟩⟩
  · rw [copyBytes, h.store hmem hnew hfits, liftM_some_bind]
    rfl
  · rw [length_append, length_nil]
    omega
  · rw [append_nil]
  · rw [h.out, length_append, Nat.add_assoc]
  · rw [length_append]
    show data.length + new.length + (w.remaining - new.length) = size
    omega

theorem put_eq_some {out : Bytes} (h : put size data text = some out) : out.length < size := by
  unfold put at h
  split_ifs at h with hfits
  cases h
  rwa [length_append]

theorem mirrors_writeLine (hmem : buf + size ≤ mem.length)
    (hw : Wrote mem buf size data w) (hroom : data.length < size) (hint : text.length < 2 ^ 31) :
    Mirrors mem buf size (Wrote mem buf size) (writeLine w text) (put size data text) := by
  unfold put
  by_cases hfits : data.length + text.length < size
  · rw [if_pos hfits]
    exact hw.writeLine hmem hint hfits
  · rw [if_neg hfits]
    exact hw.writeLine_full hmem hint hroom hfits

theorem mirrors_writeLines (hmem : buf + size ≤ mem.length) :
    ∀ {texts : List Bytes} {data : Bytes} {w : Writer},
    (∀ text ∈ texts, text.length < 2 ^ 31) → Wrote mem buf size data w → data.length < size →
      Mirrors mem buf size (Wrote mem buf size) (texts.foldlM writeLine w) (texts.foldlM (put size) data)
  | [], _, w, _, hw, _ => ⟨w, rfl, hw⟩
  | text :: texts, data, w, hint, hw, hroom => by
    rw [foldlM_cons, foldlM_cons]
    refine (mirrors_writeLine hmem hw hroom (hint text mem_cons_self)).bind fun data' w' hput hw' => ?_
    exact mirrors_writeLines hmem (forall_mem_cons.mp hint).2 hw' (put_eq_some hput)

theorem mirrors_writeBody (hmem : buf + size ≤ mem.length)
    (hw : WroteExactly mem buf size data w) (body : Bytes) :
    Mirrors mem buf size (WroteExactly mem buf size) (writeBody w body)
      (if size < data.length + body.length then none else some (data ++ body)) := by
  have hremaining := hw.remaining
  unfold writeBody
  by_cases hbody : body = []
  · subst hbody
    rw [if_pos rfl, if_neg (by rw [length_nil]; omega), append_nil]
    exact ⟨w, rfl, hw⟩
  · rw [if_neg hbody]
    by_cases hfull : body.length > w.remaining
    · rw [if_pos hfull, if_pos (by omega)]
      exact ⟨w.mem, rfl, hw.within⟩
    · rw [if_neg hfull, if_neg (by omega)]
      exact mirrors_copyBytes hw.toWrote hmem (length_pos_of_ne_nil hbody) (by omega)

theorem mirrors_writeResponse (hmem : buf + size ≤ mem.length) (hsize : 0 < size)
    (htexts : headTexts resp = headPieces resp) (hint : ∀ text ∈ headTexts resp, text.length < 2 ^ 31) :
    Mirrors mem buf size (WroteExactly mem buf size) (writeResponse resp ⟨mem, buf, size⟩)
      (serializeResponse resp size) := by
  have hlines := mirrors_writeLines hmem hint (wrote_nil mem buf size) hsize
  unfold writeResponse serializeResponse
  rw [htexts] at hlines ⊢
  refine hlines.bind fun out w _ hw => ?_
  have hremaining := hw.remaining
  by_cases hline : w.remaining < 2
  · rw [if_pos hline, if_pos (by omega)]
    exact ⟨w.mem, rfl, hw.within⟩
  · rw [if_neg hline, if_neg (by omega)]
    have hempty : Mirrors mem buf size (WroteExactly mem buf size) (copyBytes w crlf)
        (some (out ++ crlf)) :=
      mirrors_copyBytes hw hmem (by decide) (Nat.le_of_not_lt hline)
    have hbody := hempty.bind fun data w' _ hw' => mirrors_writeBody hmem hw' resp.body
    rwa [Option.bind_some, length_append] at hbody

end Writes

/-! ### Stored headers -/

inductive StoreCall where
  | set (name value : Bytes)
  | add (name value : Bytes)
  deriving DecidableEq, Repr

def storeHeader (resp : Response) : StoreCall → Response
  | .set name value => responseSetHeader resp name value
  | .add name value => responseAddHeader resp name value

def storedHeaders (calls : List StoreCall) : List RespHeader :=
  (calls.foldl storeHeader responseInit).headers

/-- A response with stored headers, with a status and a size of the body as their
types allow them. -/
structure StoredResponse where
  status : UInt16
  calls : List StoreCall
  body : Bytes
  sized : body.length < 2 ^ 64
  chunked : Bool

def StoredResponse.response (r : StoredResponse) : Response where
  status := r.status.toNat
  headers := storedHeaders r.calls
  body := r.body
  chunked := r.chunked

/-- A string that `strndup` has made. -/
def IsStored (b : Bytes) : Prop := 0 ∉ b ∧ b.length ≤ maxHeaderSize

theorem isStored_strn (p : Bytes) : IsStored (strn maxHeaderSize p) := by
  constructor
  · intro hzero
    simpa using mem_takeWhile_imp hzero
  · exact (takeWhile_sublist _).length_le.trans (length_take_le _ _)

theorem mem_replaceHeader {name value : Bytes} {h : RespHeader} : ∀ {hs hs' : List RespHeader},
    replaceHeader name value hs = some hs' → h ∈ hs' → h ∈ hs ∨ ∃ h' ∈ hs, h = ⟨h'.name, value⟩
  | [], _, hr, _ => by cases hr
  | hd :: hs, hs', hr, hmem => by
    rw [replaceHeader] at hr
    split_ifs at hr
    · cases hr
      rcases mem_cons.mp hmem with rfl | hmem
      · exact .inr ⟨hd, mem_cons_self, rfl⟩
      · exact .inl (mem_cons_of_mem hd hmem)
    · obtain ⟨hs'', hr', rfl⟩ := Option.map_eq_some_iff.mp hr
      rcases mem_cons.mp hmem with rfl | hmem
      · exact .inl mem_cons_self
      · rcases mem_replaceHeader hr' hmem with hold | ⟨h', hh', he⟩
        · exact .inl (mem_cons_of_mem hd hold)
        · exact .inr ⟨h', mem_cons_of_mem hd hh', he⟩

/-- All headers have such strings. -/
def AllStored (resp : Response) : Prop := ∀ h ∈ resp.headers, IsStored h.name ∧ IsStored h.value

theorem AllStored.add (h : AllStored resp) (name value : Bytes) :
    AllStored (responseAddHeader resp name value) := by
  intro hd hmem
  rcases mem_append.mp hmem with hmem | hmem
  · exact h hd hmem
  · rw [mem_singleton.mp hmem]
    exact ⟨isStored_strn name, isStored_strn value⟩

theorem AllStored.storeHeader (h : AllStored resp) (call : StoreCall) :
    AllStored (storeHeader resp call) := by
  cases call with
  | add name value => exact h.add name value
  | set name value =>
    rw [Iohttp.storeHeader, responseSetHeader]
    split
    next hs hr =>
      intro hd hmem
      rcases mem_replaceHeader hr hmem with hold | ⟨h', hh', rfl⟩
      · exact h hd hold
      · exact ⟨(h h' hh').1, isStored_strn value⟩
    next => exact h.add name value

theorem allStored_foldl : ∀ (calls : List StoreCall) {resp : Response}, AllStored resp →
    AllStored (calls.foldl storeHeader resp)
  | [], _, h => h
  | call :: calls, _, h => allStored_foldl calls (h.storeHeader call)

theorem StoredResponse.allStored (r : StoredResponse) : AllStored r.response :=
  allStored_foldl r.calls fun _ hmem => absurd hmem not_mem_nil

theorem fmtString_stored {b : Bytes} (h : IsStored b) : fmtString (toInt b.length) (b ++ [0]) = b := by
  have hint : toInt b.length = b.length := toInt_eq (h.2.trans_lt (by decide))
  rw [fmtString, hint, if_neg (by omega), strn, Int.toNat_natCast, take_left, takeWhile_eq_self_iff]
  intro c hc
  simpa using fun he : c = 0 => h.1 (he ▸ hc)

theorem headTexts_stored (h : AllStored resp) : headTexts resp = headPieces resp := by
  have hlines : resp.headers.map headerFormat = resp.headers.map fun h => headerLine h.name h.value := by
    refine map_congr_left fun hd hmem => ?_
    rw [headerFormat, fmtString_stored (h hd hmem).1, fmtString_stored (h hd hmem).2, headerLine]
  rw [headTexts, headPieces, hlines]

theorem length_dec_le {n k : ℕ} (hk : 0 < k) (h : n < 10 ^ k) : (dec n).length ≤ k := by
  rw [dec, length_map]
  exact Nat.toDigits_length 10 n k hk h

theorem length_statusText_le (status : ℕ) : (statusText status).length ≤ 22 := by
  unfold statusText
  split <;> decide +kernel

theorem length_headerLine (name value : Bytes) :
    (headerLine name value).length = name.length + value.length + 4 := by
  have hcolon : (bytes ": ").length = 2 := by decide +kernel
  simp only [headerLine, length_append, hcolon, length_cons, length_nil]
  omega

theorem length_statusLine (status : ℕ) :
    (statusLine status).length = (dec status).length + (statusText status).length + 12 := by
  have hversion : (bytes "HTTP/1.1 ").length = 9 := by decide +kernel
  simp only [statusLine, length_append, hversion, length_cons, length_nil]
  omega

theorem StoredResponse.length_lt (r : StoredResponse) :
    ∀ text ∈ headPieces r.response, text.length < 2 ^ 31 := by
  intro text hmem
  rw [headPieces, cons_append, mem_cons, mem_append] at hmem
  rcases hmem with rfl | hmem | hmem
  · have hdec := length_dec_le (k := 5) (by decide) (r.status.toNat_lt.trans (by decide))
    have htext := length_statusText_le r.response.status
    rw [length_statusLine]
    change (dec r.response.status).length ≤ 5 at hdec
    omega
  · obtain ⟨h, hh, rfl⟩ := mem_map.mp hmem
    obtain ⟨hname, hvalue⟩ := r.allStored h hh
    have hn : h.name.length ≤ 8192 := hname.2
    have hv : h.value.length ≤ 8192 := hvalue.2
    rw [length_headerLine]
    omega
  · split_ifs at hmem
    · have hdec := length_dec_le (k := 20) (by decide) (r.sized.trans (by decide))
      have hname : (bytes "Content-Length").length = 14 := by decide +kernel
      change (dec r.response.body.length).length ≤ 20 at hdec
      rw [mem_singleton.mp hmem, length_headerLine, hname]
      omega
    · cases hmem

/-- **The function on memory does what it does on data.** -/
theorem serializeInto_refines (r : StoredResponse) {mem : Bytes} {buf size : ℕ} (hsize : 0 < size)
    (hmem : buf + size ≤ mem.length) :
    ∃ mem' rc, serializeInto r.response mem buf size = some (mem', rc) ∧
    WrittenWithin mem buf size mem' ∧
      match serializeResponse r.response size with
      | none => rc = -ENOSPC
      | some out => rc = toInt out.length ∧ mem' = overwrite mem buf out := by
  have htexts := headTexts_stored r.allStored
  have hmirrors := mirrors_writeResponse hmem hsize htexts (htexts ▸ r.length_lt)
  rw [serializeInto, if_neg hsize.ne']
  cases hmodel : serializeResponse r.response size with
  | none =>
    rw [hmodel] at hmirrors
    obtain ⟨mem', hrun, hwithin⟩ := hmirrors
    exact ⟨mem', -ENOSPC, by rw [hrun]; rfl, hwithin, rfl⟩
  | some out =>
    rw [hmodel] at hmirrors
    obtain ⟨w, hrun, hw⟩ := hmirrors
    have hlength : w.out - buf = out.length := by
      rw [hw.out]
      omega
    exact ⟨w.mem, toInt out.length, by rw [hrun, ← hlength]; rfl, hw.within, rfl, hw.exact⟩

/-- Only the buffer is written to; `-ENOSPC` is returned exactly if the message
is longer than the buffer, and otherwise its length, with the message in the
buffer and all else as it was. -/
def SerializesExactly (resp : Response) (mem : Bytes) (buf size : ℕ) : Prop :=
  ∃ mem' rc, serializeInto resp mem buf size = some (mem', rc) ∧ WrittenWithin mem buf size mem' ∧
    (rc = -ENOSPC ↔ size < (responseBytes resp).length) ∧
    ((responseBytes resp).length ≤ size →
      rc = (responseBytes resp).length ∧ mem' = overwrite mem buf (responseBytes resp))

theorem serializeInto_returns (r : StoredResponse) {mem : Bytes} {buf size : ℕ} (hsize : 0 < size)
    (hmem : buf + size ≤ mem.length) :
    ∃ mem' rc, serializeInto r.response mem buf size = some (mem', rc) ∧
    WrittenWithin mem buf size mem' ∧
      (size < (responseBytes r.response).length → rc = -ENOSPC) ∧
      ((responseBytes r.response).length ≤ size →
        rc = toInt (responseBytes r.response).length ∧ mem' = overwrite mem buf
        (responseBytes r.response)) := by
  obtain ⟨mem', rc, hinto, hwithin, hmodel⟩ := serializeInto_refines r hsize hmem
  rw [serializeResponse_eq hsize] at hmodel
  refine ⟨mem', rc, hinto, hwithin, fun hlong => ?_, fun hfits => ?_⟩
  · rwa [if_neg (by omega)] at hmodel
  · rwa [if_pos hfits] at hmodel

/-- **When serialization is exact.** For every response with stored headers and
every buffer it is, exactly if a message that fits is shorter than 2 GiB. -/
theorem serializes_exactly_iff (r : StoredResponse) {mem : Bytes} {buf size : ℕ} (hsize : 0 < size)
    (hmem : buf + size ≤ mem.length) :
    SerializesExactly r.response mem buf size ↔
      ((responseBytes r.response).length ≤ size → (responseBytes r.response).length < 2 ^ 31) := by
  obtain ⟨mem', rc, hinto, hwithin, hlong, hshort⟩ := serializeInto_returns r hsize hmem
  constructor
  · rintro ⟨mem'', rc', hinto', -, -, hexact⟩ hfits
    rw [hinto, Option.some.injEq, Prod.mk.injEq] at hinto'
    have hrc : (responseBytes r.response).length = toInt (responseBytes r.response).length := by
      rw [← (hexact hfits).1, ← hinto'.2, (hshort hfits).1]
    have hint := toInt_lt (responseBytes r.response).length
    omega
  · intro hint
    refine ⟨mem', rc, hinto, hwithin, ⟨fun hrc => ?_, hlong⟩, fun hfits => ?_⟩
    · by_contra hfits
      have hlen := (hshort (Nat.le_of_not_lt hfits)).1
      rw [toInt_eq (hint (Nat.le_of_not_lt hfits)), hrc] at hlen
      simp only [ENOSPC] at hlen
      omega
    · rw [← toInt_eq (hint hfits)]
      exact hshort hfits

/-- A response with a header and a body. -/
def greeting : StoredResponse where
  status := 200
  calls := [.add (bytes "Content-Type") (bytes "text/html"), .set (bytes "content-type")
    (bytes "text/plain")]
  body := bytes "hi"
  sized := by decide +kernel
  chunked := false

/-- It just fits into 66 bytes. -/
theorem serializes_exactly_greeting :
    (responseBytes greeting.response).length = 66 ∧
      SerializesExactly greeting.response (List.replicate 70 255) 2 66 := by
  have hlen : (responseBytes greeting.response).length = 66 := by decide +kernel
  refine ⟨hlen, (serializes_exactly_iff greeting (by decide) (by decide)).mpr fun _ => ?_⟩
  rw [hlen]
  decide

def hugeResponse (body : Bytes) (h : body.length = 2147483648) : StoredResponse where
  status := 200
  calls := []
  body := body
  sized := by
    rw [h]
    decide
  chunked := false

theorem length_hugeResponse {body : Bytes} (h : body.length = 2147483648) :
    (responseBytes (hugeResponse body h).response).length = 2147483695 := by
  have hne : body ≠ [] := ne_nil_of_length_pos (by omega)
  have hpieces : headPieces (hugeResponse body h).response =
      [statusLine 200, headerLine (bytes "Content-Length") (dec body.length)] := by
    change [statusLine 200] ++ (if body ≠ [] ∧ false = false then _ else _) = _
    rw [if_pos ⟨hne, rfl⟩]
    rfl
  have hstatus : (statusLine 200).length = 17 := by decide +kernel
  have hname : (bytes "Content-Length").length = 14 := by decide +kernel
  have hdigits : (dec 2147483648).length = 10 := by decide +kernel
  have hbody : (hugeResponse body h).response.body.length = 2147483648 := h
  rw [responseBytes, hpieces, length_append, length_append, hbody, flatten_cons, length_append,
    flatten_cons, length_append, length_headerLine, hstatus, hname, h, hdigits]
  rfl

/-- It is written, but a negative number is returned. -/
theorem serialized_length_wraps :
    ∃ (r : StoredResponse) (mem mem' : Bytes), (responseBytes r.response).length = 2147483695 ∧
      mem.length = 2147483695 ∧ serializeInto r.response mem 0 2147483695 = some (mem', -2147483601) ∧
      ¬SerializesExactly r.response mem 0 2147483695 := by
  obtain ⟨body, hbody⟩ : ∃ body : Bytes, body.length = 2147483648 :=
    ⟨List.replicate _ 0, length_replicate⟩
  obtain ⟨mem, hmem⟩ : ∃ mem : Bytes, mem.length = 2147483695 := ⟨List.replicate _ 0, length_replicate⟩
  have hlen := length_hugeResponse hbody
  obtain ⟨mem', rc, hinto, -, -, hshort⟩ :=
    serializeInto_returns (hugeResponse body hbody) (show 0 < 2147483695 by decide)
      (show 0 + 2147483695 ≤ mem.length by omega)
  have hrc : rc = -2147483601 := by
    rw [(hshort hlen.le).1, hlen]
    decide
  rw [hrc] at hinto
  refine ⟨hugeResponse body hbody, mem, mem', hlen, hmem, hinto, ?_⟩
  rintro ⟨mem'', rc', hinto', -, -, hexact⟩
  rw [hinto, Option.some.injEq, Prod.mk.injEq] at hinto'
  have hrc' := (hexact hlen.le).1
  rw [← hinto'.2] at hrc'
  omega

end Iohttp
