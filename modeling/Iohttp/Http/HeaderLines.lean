/-
# The header lines of a response

The head of a serialized response is the lines that it was made of, if they
hold no end of a line. Nothing looks for one: `ioh_response_set_header`,
`ioh_response_add_header`, `ioh_ctx_redirect` and `ioh_ctx_set_cookie` store
any string, so that a value can add headers or end the head.
-/
import Iohttp.Lib.Lines
import Iohttp.Http.Cookie

namespace Iohttp

open List

open Lines (LineEnd)

def startLine (status : ℕ) : Bytes := bytes "HTTP/1.1 " ++ dec status ++ [32] ++ statusText status

/-- A header line, without its end. -/
def fieldLine (name value : Bytes) : Bytes := name ++ bytes ": " ++ value

def lengthLine (n : ℕ) : Bytes := fieldLine (bytes "Content-Length") (dec n)

/-- The lines that a response is made of, without their ends. -/
def headLines (resp : Response) : List Bytes :=
  startLine resp.status :: resp.headers.map (fun h => fieldLine h.name h.value) ++
    if resp.body ≠ [] ∧ resp.chunked = false then [lengthLine resp.body.length] else []

theorem responseBytes_eq_lines (resp : Response) :
    responseBytes resp = ((headLines resp).map (· ++ [13, 10])).flatten ++ 13 :: 10 :: resp.body := by
  have hpieces : headPieces resp = (headLines resp).map (· ++ [13, 10]) := by
    unfold headPieces headLines
    split_ifs <;> simp [statusLine, startLine, headerLine, fieldLine, lengthLine]
  rw [responseBytes, hpieces, append_assoc]
  rfl

theorem dec_digit {n : ℕ} {c : UInt8} (h : c ∈ dec n) : 48 ≤ c.toNat ∧ c.toNat ≤ 57 := by
  obtain ⟨d, hd, rfl⟩ := mem_map.mp h
  have hdigit := Nat.isDigit_of_mem_toDigits (by decide) (by decide) hd
  simp only [Char.isDigit, Bool.and_eq_true, decide_eq_true_eq, UInt32.le_iff_toNat_le] at hdigit
  have h48 : '0'.val.toNat = 48 := rfl
  have h57 : '9'.val.toNat = 57 := rfl
  have hd' : d.toNat = d.val.toNat := rfl
  have hlt : d.toNat < 256 := by omega
  have hval : d.toNat.toUInt8.toNat = d.toNat := by
    simp [Nat.mod_eq_of_lt hlt]
  omega

theorem lf_notMem_dec (n : ℕ) : 10 ∉ dec n := by
  intro h
  have := dec_digit h
  have h10 : (10 : UInt8).toNat = 10 := rfl
  omega

theorem lf_notMem_statusText (status : ℕ) : 10 ∉ statusText status := by
  unfold statusText
  split <;> decide

theorem free_startLine (e : LineEnd) (status : ℕ) : e.Free (startLine status) := by
  refine LineEnd.free_of_notMem ?_
  have htext : (10 : UInt8) ∉ bytes "HTTP/1.1 " := by decide
  simp [startLine, htext, lf_notMem_dec, lf_notMem_statusText]

variable {e : LineEnd} {resp : Response}

theorem free_fieldLine_iff {name value : Bytes} :
    e.Free (fieldLine name value) ↔ e.Free name ∧ e.Free value := by
  constructor
  · intro h
    obtain ⟨hn, hv⟩ := h.of_append
    exact ⟨hn.of_append.1, hv⟩
  · rintro ⟨hn, hv⟩
    have hsep : e.Free (bytes ": ") := LineEnd.free_of_notMem (by decide)
    have hfirst : e.Free (name ++ bytes ": ") := hn.append hsep fun _ => by decide
    refine hfirst.append hv fun hlast => ?_
    have hsp : (bytes ": ").getLast? = some 32 := by decide
    simp [getLast?_append, hsp] at hlast

theorem free_lengthLine (e : LineEnd) (n : ℕ) : e.Free (lengthLine n) :=
  free_fieldLine_iff.mpr ⟨LineEnd.free_of_notMem (by decide), LineEnd.free_of_notMem (lf_notMem_dec n)⟩

/-- The bytes begin with the status line, one line for each header of the
response, at most one more that gives a length, and an empty line. -/
def OneLineEach (e : LineEnd) (resp : Response) (out : Bytes) : Prop :=
  ∃ auto rest, (auto = [] ∨ ∃ n, auto = [lengthLine n]) ∧
    e.head out = some (startLine resp.status ::
      resp.headers.map (fun h => fieldLine h.name h.value) ++ auto, rest)

theorem fieldLine_ne_nil (name value : Bytes) : fieldLine name value ≠ [] := by
  simp [fieldLine, bytes]

theorem startLine_ne_nil (status : ℕ) : startLine status ≠ [] := by
  simp [startLine]

theorem head_responseBytes_append
    (h : ∀ hd ∈ resp.headers, e.Free hd.name ∧ e.Free hd.value) (next : Bytes) :
    e.head (responseBytes resp ++ next) = some (headLines resp, resp.body ++ next) := by
  rw [responseBytes_eq_lines, append_assoc, cons_append, cons_append]
  refine e.head_flatten (resp.body ++ next) _ fun l hl => ?_
  unfold headLines at hl
  rw [cons_append, mem_cons, mem_append, mem_map] at hl
  rcases hl with rfl | ⟨hd, hmem, rfl⟩ | hl
  · exact ⟨startLine_ne_nil _, free_startLine e _⟩
  · exact ⟨fieldLine_ne_nil _ _, free_fieldLine_iff.mpr (h hd hmem)⟩
  · split_ifs at hl
    · rw [mem_singleton.mp hl]
      exact ⟨fieldLine_ne_nil _ _, free_lengthLine e _⟩
    · cases hl

theorem head_responseBytes (h : ∀ hd ∈ resp.headers, e.Free hd.name ∧ e.Free hd.value) :
    e.head (responseBytes resp) = some (headLines resp, resp.body) := by
  simpa using head_responseBytes_append h []

theorem serializeResponse_some {size : ℕ} {out : Bytes}
    (h : serializeResponse resp size = some out) : out = responseBytes resp := by
  rcases Nat.eq_zero_or_pos size with rfl | hs
  · simp [serializeResponse, headPieces, put] at h
  · rw [serializeResponse_eq hs] at h
    split_ifs at h
    exact (Option.some.inj h).symm

/-- **A header is one line exactly if it holds no end of a line.** After any
calls that store headers, with any body and for both kinds of readers, the
head of the serialized response is the status line, one line for each stored
header and at most one length exactly if no stored name or value holds the
end of a line. -/
theorem header_lines_iff (e : LineEnd) (calls : List HeaderCall) (resp : Response) :
    applyCalls calls responseInit = .ok resp → ∀ (body : Bytes) (size : ℕ) (out : Bytes),
      serializeResponse (responseSetBody resp body) size = some out →
        (OneLineEach e resp out ↔ ∀ hd ∈ resp.headers, e.Free hd.name ∧ e.Free hd.value) := by
  intro _ body size out hout
  rw [serializeResponse_some hout]
  constructor
  · rintro ⟨auto, rest, _, hhead⟩ hd hmem
    refine free_fieldLine_iff.mp (LineEnd.free_of_mem_head hhead _ ?_)
    rw [cons_append, mem_cons, mem_append]
    exact .inr (.inl (mem_map.mpr ⟨hd, hmem, rfl⟩))
  · intro h
    have hbody : ∀ hd ∈ (responseSetBody resp body).headers, e.Free hd.name ∧ e.Free hd.value := h
    have hhead := head_responseBytes hbody
    refine ⟨_, _, ?_, hhead⟩
    split_ifs
    · exact .inr ⟨_, rfl⟩
    · exact .inl rfl

/-- A redirect and a cookie, each in one line. -/
theorem header_lines_redirect :
    let calls : List HeaderCall := [.redirect 302 (bytes "/b"),
      .setCookie ⟨bytes "s", bytes "1", none, some (bytes "/"), -1, .lax, true, true⟩]
    ∃ resp out, applyCalls calls responseInit = .ok resp ∧
      serializeResponse (responseSetBody resp []) 8192 = some out ∧ OneLineEach .lf resp out := by
  intro calls
  have hcalls : applyCalls calls responseInit =
      .ok ⟨302, [⟨bytes "Location", bytes "/b"⟩, ⟨bytes "Set-Cookie",
        bytes "s=1; Path=/; SameSite=Lax; Secure; HttpOnly"⟩], [], false⟩ := by decide +kernel
  exact ⟨_, _, hcalls, rfl, (header_lines_iff .lf calls _ hcalls [] 8192 _ rfl).mpr (by decide +kernel)⟩

/-- A redirect to a string with CR LF in it adds a header. -/
theorem redirect_adds_header :
    ¬∀ (e : LineEnd) (calls : List HeaderCall) (resp : Response),
      applyCalls calls responseInit = .ok resp → ∀ (body : Bytes) (size : ℕ) (out : Bytes),
        serializeResponse (responseSetBody resp body) size = some out → OneLineEach e resp out := by
  intro h
  have hcalls : applyCalls [.redirect 302 (bytes "/b\r\nX: y")] responseInit =
      .ok ⟨302, [⟨bytes "Location", bytes "/b\r\nX: y"⟩], [], false⟩ := by decide +kernel
  obtain ⟨auto, rest, _, hhead⟩ := h .crlf _ _ hcalls [] 8192 _ rfl
  have hfree := LineEnd.free_of_mem_head hhead (fieldLine (bytes "Location") (bytes "/b\r\nX: y"))
    (by simp)
  exact absurd hfree (by decide +kernel)

end Iohttp
