/-
# The special headers

While it copies the headers `ioh_http1_parse_request` reads two of them for the
server itself. It takes `keep_alive` from the version and lets each
`Connection` header whose whole value is `close` or `keep-alive` override it,
so a token in a longer list is not seen and a later header undoes an earlier
one. It sets `host` at each `Host` header, so the last one counts, while
`ioh_request_header` returns the first one.
-/
import Iohttp.Http.Smuggling

namespace Iohttp

open Pico List

section Override

variable {α β : Type}

theorem foldl_override {step : β → α → β} {sets : α → Option β} (h : ∀ b a, step b a = (sets a).getD b) :
    ∀ (l : List α) (b : β), l.foldl step b = ((l.filterMap sets).getLast?).getD b
  | [], _ => rfl
  | a :: l, b => by
    rw [foldl_cons, foldl_override h l, h]
    cases ha : sets a with
    | none => rw [filterMap_cons_none ha, Option.getD_none]
    | some c => rw [filterMap_cons_some ha, getLast?_cons, Option.getD_some, Option.getD_some]

theorem find?_reverse_of_one {p : α → Bool} {l : List α} (h : (l.filter p).length ≤ 1) :
    l.reverse.find? p = l.find? p := by
  rw [← head?_filter, ← head?_filter, filter_reverse]
  match l.filter p, h with
  | [], _ | [a], _ => rfl

end Override

/-! ### Connection -/

abbrev isConnection (h : Header) : Bool := eqIgnoreCase h.name.bytes (bytes "Connection")

/-- The tokens of all `Connection` headers. -/
def connectionTokens (req : Request) : List Bytes :=
  (req.headers.filter isConnection).flatMap fun h => codings h.value.bytes

/-- One of them is `token`, in upper or lower case. -/
def Request.Says (req : Request) (token : Bytes) : Prop :=
  ∃ t ∈ connectionTokens req, eqIgnoreCase t token = true

/-- The connection ends with the request if a token asks for it; if none does
it stays open in HTTP/1.1, and in HTTP/1.0 if a token asks for that. -/
structure Honoured (req : Request) : Prop where
  close : req.Says (bytes "close") → req.keepAlive = false
  stay : ¬req.Says (bytes "close") → req.httpVersionMinor = 1 → req.keepAlive = true
  old : ¬req.Says (bytes "close") → req.httpVersionMinor = 0 →
    (req.keepAlive = true ↔ req.Says (bytes "keep-alive"))

/-- What a header sets `keep_alive` to, if it does. -/
def wholeValue (h : Header) : Option Bool :=
  if isConnection h then
    if eqIgnoreCase h.value.bytes (bytes "close") then some false
    else if eqIgnoreCase h.value.bytes (bytes "keep-alive") then some true
    else none
  else none

def lastWhole (req : Request) : Option Bool := (req.headers.filterMap wholeValue).getLast?

theorem connectionHeader_eq (b : Bool) (h : Header) : connectionHeader b h = (wholeValue h).getD b := by
  unfold connectionHeader wholeValue
  split_ifs <;> rfl

variable {req : Request} {buf : Bytes} {n : ℕ}

/-- **What `keep_alive` is**: what the last of these headers says, or the
default of the version. -/
theorem keepAlive_eq (h : http1ParseRequest buf = .ok (req, n)) :
    req.keepAlive = (lastWhole req).getD (decide (req.httpVersionMinor ≥ 1)) := by
  obtain ⟨q, hs, s, head, t, -, -, rfl, -, -⟩ := http1ParseRequest_eq_ok.mp h
  exact foldl_override connectionHeader_eq hs _

theorem codings_word {v t : Bytes} (hv : eqIgnoreCase v t = true)
    (hplain : ∀ c ∈ t.map lower, c ≠ 44 ∧ isBlank c = false) : codings v = [v] := by
  have hmap : v.map lower = t.map lower := beq_iff_eq.mp hv
  have hword : ∀ c ∈ v, lower c ≠ 44 ∧ isBlank (lower c) = false := fun c hc =>
    hplain _ (hmap ▸ mem_map_of_mem hc)
  refine codings_eq_singleton (fun hcomma => (hword 44 hcomma).1 (by decide)) fun c hc => ?_
  by_contra hblank
  rw [Bool.not_eq_false, isBlank, Bool.or_eq_true, beq_iff_eq, beq_iff_eq] at hblank
  rcases hblank with rfl | rfl
  · exact absurd (hword sp hc).2 (by decide)
  · exact absurd (hword ht hc).2 (by decide)

/-- The token with which a header sets `keep_alive`. -/
def connectionWord : Bool → Bytes
  | false => bytes "close"
  | true => bytes "keep-alive"

theorem connectionWord_plain (b : Bool) : ∀ c ∈ (connectionWord b).map lower, c ≠ 44 ∧
    isBlank c = false := by
  cases b <;> decide +kernel

variable {h : Header} {b : Bool}

theorem wholeValue_eq_some (hw : wholeValue h = some b) :
    isConnection h = true ∧ eqIgnoreCase h.value.bytes (connectionWord b) = true := by
  unfold wholeValue at hw
  split_ifs at hw with hc hclose hkeep
  · cases hw
    exact ⟨hc, hclose⟩
  · cases hw
    exact ⟨hc, hkeep⟩

theorem says_of_wholeValue (hmem : h ∈ req.headers)
    (hw : wholeValue h = some b) : req.Says (connectionWord b) := by
  obtain ⟨hc, hv⟩ := wholeValue_eq_some hw
  refine ⟨h.value.bytes, mem_flatMap.mpr ⟨h, mem_filter.mpr ⟨hmem, hc⟩, ?_⟩, hv⟩
  rw [codings_word hv (connectionWord_plain b)]
  exact mem_singleton_self _

theorem exists_of_lastWhole (h : lastWhole req = some b) : ∃ hd ∈ req.headers, wholeValue hd = some b :=
  mem_filterMap.mp (mem_of_getLast? h)

theorem says_of_lastWhole (h : lastWhole req = some b) : req.Says (connectionWord b) := by
  obtain ⟨hd, hmem, hw⟩ := exists_of_lastWhole h
  exact says_of_wholeValue hmem hw

theorem lastWhole_ne_none (hmem : h ∈ req.headers) (hw : wholeValue h = some b) :
    lastWhole req ≠ none := by
  rw [lastWhole, ne_eq, getLast?_eq_none_iff]
  exact ne_nil_of_mem (mem_filterMap.mpr ⟨h, hmem, hw⟩)

/-- A token that matters stands alone in its header, and no later header takes
back a `close`. HTTP/1.0 closes anyway if no header stands alone. -/
structure SaidWhole (req : Request) : Prop where
  close : req.Says (bytes "close") →
    lastWhole req = some false ∨ (lastWhole req = none ∧ req.httpVersionMinor = 0)
  keep : ¬req.Says (bytes "close") → req.httpVersionMinor = 0 → req.Says (bytes "keep-alive") →
    ∃ h ∈ req.headers, wholeValue h = some true

theorem lastWhole_of_not_close (h : ¬req.Says (bytes "close")) :
    lastWhole req = none ∨ lastWhole req = some true := by
  match hl : lastWhole req with
  | none => exact .inl rfl
  | some true => exact .inr rfl
  | some false => exact absurd (says_of_lastWhole hl) h

/-- **When a request to close is honoured**: exactly if the tokens that matter
stand alone in their headers and no later header takes back a `close`. -/
theorem close_honoured_iff {buf : Bytes} {req : Request} {n : ℕ}
    (h : http1ParseRequest buf = .ok (req, n)) :
    Honoured req ↔ SaidWhole req := by
  have hkeep := keepAlive_eq h
  constructor
  · intro hon
    constructor
    · intro hclose
      have hoff := hon.close hclose
      rw [hkeep] at hoff
      cases hl : lastWhole req with
      | none => exact .inr ⟨rfl, by simpa [hl] using hoff⟩
      | some b => exact .inl (by simpa [hl] using hoff)
    · intro hclose hold hsays
      have hon := (hon.old hclose hold).mpr hsays
      rw [hkeep, hold] at hon
      rcases lastWhole_of_not_close hclose with hl | hl
      · simp [hl] at hon
      · exact exists_of_lastWhole hl
  · intro hsaid
    constructor
    · intro hclose
      rw [hkeep]
      rcases hsaid.close hclose with hl | ⟨hl, hold⟩
      · rw [hl, Option.getD_some]
      · simp [hl, hold]
    · intro hclose hnew
      rw [hkeep]
      rcases lastWhole_of_not_close hclose with hl | hl <;> simp [hl, hnew]
    · intro hclose hold
      rw [hkeep, hold]
      constructor
      · intro hon
        rcases lastWhole_of_not_close hclose with hl | hl
        · simp [hl] at hon
        · exact says_of_lastWhole hl
      · intro hsays
        obtain ⟨hd, hmem, hw⟩ := hsaid.keep hclose hold hsays
        rw [(lastWhole_of_not_close hclose).resolve_left (lastWhole_ne_none hmem hw), Option.getD_some]

/-- A request that asks to close in the second of two headers. -/
def closingRequest : Bytes :=
  bytes "GET / HTTP/1.1\r\nHost: a\r\nConnection: TE\r\nConnection: Close\r\n\r\n"

/-- The connection ends with it. -/
theorem close_honoured_closing :
    ∃ req n, http1ParseRequest closingRequest = .ok (req, n) ∧
    connectionTokens req = [bytes "TE", bytes "Close"] ∧
      req.keepAlive = false := by
  have haccepted : ofAccepted (fun req => (connectionTokens req, lastWhole req)) closingRequest =
      some ([bytes "TE", bytes "Close"], some false) := by decide +kernel
  obtain ⟨req, n, hok, hreq⟩ := ofAccepted_eq_some haccepted
  rw [Prod.mk.injEq] at hreq
  have hsays : req.Says (bytes "close") := ⟨bytes "Close", by simp [hreq.1], by decide +kernel⟩
  have hsaid : SaidWhole req := ⟨fun _ => .inl hreq.2, fun hno => absurd hsays hno⟩
  exact ⟨req, n, hok, hreq.1, ((close_honoured_iff hok).mpr hsaid).close hsays⟩

/-- A request that asks to close, and names another option. -/
def closingListRequest : Bytes := bytes "GET / HTTP/1.1\r\nHost: a\r\nConnection: close, TE\r\n\r\n"

/-- The connection stays open. -/
theorem close_in_list_ignored :
    ¬∀ (buf : Bytes) (req : Request) (n : ℕ), http1ParseRequest buf = .ok (req, n) → Honoured req := by
  intro h
  have haccepted : ofAccepted (fun req => (connectionTokens req, req.keepAlive)) closingListRequest =
      some ([bytes "close", bytes "TE"], true) := by decide +kernel
  obtain ⟨req, n, hok, hreq⟩ := ofAccepted_eq_some haccepted
  rw [Prod.mk.injEq] at hreq
  have hclosed :=
    (h closingListRequest req n hok).close ⟨bytes "close", by simp [hreq.1], by decide +kernel⟩
  rw [hreq.2] at hclosed
  cases hclosed

/-! ### Host -/

abbrev isHost (h : Header) : Bool := eqIgnoreCase h.name.bytes (bytes "Host")

theorem not_isHost_of_isLength (hl : isLength h = true) : isHost h = false := by
  simp only [isLength, isHost, eqIgnoreCase, beq_iff_eq] at hl ⊢
  rw [hl]
  decide +kernel

theorem not_isHost_of_isCoding (hc : isCoding h = true) : isHost h = false := by
  simp only [isCoding, isHost, eqIgnoreCase, beq_iff_eq] at hc ⊢
  rw [hc]
  decide +kernel

theorem scanHeader_host {s s' : Scan} (hs : scanHeader s h = some s') :
    s'.hasHost = (s.hasHost || isHost h) := by
  unfold scanHeader at hs
  split_ifs at hs with hl _ hc _ hh
  · cases hs
    simp [not_isHost_of_isLength hl]
  · cases hs
    simp [not_isHost_of_isCoding hc]
  · cases hs
    simp [hh]
  · cases hs
    simp [hh]

theorem scanHeaders_host : ∀ {hs : List Header} {s s' : Scan}, hs.foldlM scanHeader s = some s' →
    s'.hasHost = (s.hasHost || hs.any isHost)
  | [], s, s', h => by
    cases h
    simp
  | hd :: hs, s, s', h => by
    rw [foldlM_cons, Option.bind_eq_bind, Option.bind_eq_some_iff] at h
    obtain ⟨s₁, h₁, h₂⟩ := h
    rw [scanHeaders_host h₂, scanHeader_host h₁, any_cons, Bool.or_assoc]

/-- There is one `Host`, and `req->host` and `ioh_request_header` point to its
value. -/
structure OneHost (req : Request) : Prop where
  one : (req.headers.filter isHost).length = 1
  same : ∀ mem, requestHeader mem req (bytes "Host") = req.host.map fun off => mem.drop off

theorem exists_host (h : http1ParseRequest buf = .ok (req, n))
    (hv : req.httpVersionMinor ≥ 1) : ∃ hd ∈ req.headers, isHost hd = true := by
  obtain ⟨q, hs, s, head, t, -, hadm, rfl, -, -⟩ := http1ParseRequest_eq_ok.mp h
  have hhost := hadm.host hv
  rw [scanHeaders_host hadm.scan, Bool.false_or] at hhost
  exact any_eq_true.mp hhost

theorem host_eq (h : http1ParseRequest buf = .ok (req, n)) :
    req.host = lastHeader (bytes "Host") req.headers := by
  obtain ⟨q, hs, s, head, t, -, -, rfl, -, -⟩ := http1ParseRequest_eq_ok.mp h
  rfl

/-- **When a request has one host.** An accepted request of HTTP/1.1 has one
`Host`, and `req->host` and `ioh_request_header` both point to it, exactly if no
second header is a `Host`. -/
theorem one_host_iff {buf : Bytes} {req : Request} {n : ℕ} (h : http1ParseRequest buf = .ok (req, n))
    (hv : req.httpVersionMinor = 1) : OneHost req ↔ (req.headers.filter isHost).length ≤ 1 := by
  constructor
  · exact fun hone => hone.one.le
  · intro hle
    obtain ⟨hd, hmem, hhost⟩ := exists_host h hv.ge
    have hpos := length_pos_of_mem (mem_filter.mpr ⟨hmem, hhost⟩)
    refine ⟨by omega, fun mem => ?_⟩
    have hfirst :
        findHeader (bytes "Host") req.headers.reverse = findHeader (bytes "Host") req.headers :=
      find?_reverse_of_one hle
    rw [host_eq h, lastHeader, hfirst, Option.map_map]
    rfl

def hostRequest : Bytes := bytes "GET / HTTP/1.1\r\nhOST: a\r\nAccept: b\r\n\r\n"

/-- It is the host that both readers see. -/
theorem one_host_a :
    ∃ req n, http1ParseRequest hostRequest = .ok (req, n) ∧ req.host = some 22 ∧
      requestHeader hostRequest req (bytes "Host") = some (bytes "a\r\nAccept: b\r\n\r\n") := by
  have haccepted :
    ofAccepted (fun req => (req.httpVersionMinor, (req.headers.filter isHost).length, req.host))
      hostRequest = some (1, 1, some 22) := by decide +kernel
  obtain ⟨req, n, hok, hreq⟩ := ofAccepted_eq_some haccepted
  rw [Prod.mk.injEq, Prod.mk.injEq] at hreq
  obtain ⟨hv, hone, hhost⟩ := hreq
  refine ⟨req, n, hok, hhost, ?_⟩
  rw [((one_host_iff hok hv).mpr hone.le).same hostRequest, hhost]
  decide +kernel

def twoHostsRequest : Bytes := bytes "GET / HTTP/1.1\r\nHost: a\r\nHost: b\r\n\r\n"

/-- It is accepted, `ioh_request_header` sees the host `a` and `req->host` is
`b`. -/
theorem two_hosts_accepted :
    ∃ req n, http1ParseRequest twoHostsRequest = .ok (req, n) ∧ req.httpVersionMinor = 1 ∧
      (req.headers.filter isHost).length = 2 ∧
      requestHeader twoHostsRequest req (bytes "Host") = some (bytes "a\r\nHost: b\r\n\r\n") ∧
      (req.host.map fun off => twoHostsRequest.drop off) = some (bytes "b\r\n\r\n") ∧ ¬OneHost req := by
  have haccepted : ofAccepted (fun req => (req.httpVersionMinor, (req.headers.filter isHost).length,
      requestHeader twoHostsRequest req (bytes "Host"), req.host.map fun off =>
      twoHostsRequest.drop off))
      twoHostsRequest = some (1, 2, some (bytes "a\r\nHost: b\r\n\r\n"), some (bytes "b\r\n\r\n")) := by
    decide +kernel
  obtain ⟨req, n, hok, hreq⟩ := ofAccepted_eq_some haccepted
  rw [Prod.mk.injEq, Prod.mk.injEq, Prod.mk.injEq] at hreq
  obtain ⟨hv, htwo, hfirst, hlast⟩ := hreq
  refine ⟨req, n, hok, hv, htwo, hfirst, hlast, fun hone => ?_⟩
  have hsame := hone.one
  omega

end Iohttp
