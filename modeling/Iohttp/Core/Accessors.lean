/-
# Header values and the memory behind them

The parser does not terminate a header's value, and `ioh_request_header`
returns a bare pointer. `ioh_request_cookie`, `ioh_request_accepts` and the
copy of `X-Request-Id` in `dispatch_request` read from there to the next NUL:
the rest of the head, the body and whatever lies behind it in memory.

So what they return is determined by the header alone only in a few cases,
which `accessors_contained_iff` lists for the requests whose head fits into
the receive buffer.
-/
import Iohttp.Core.Dispatch
import Iohttp.Http.Grammar

namespace Iohttp

open Pico List

/-- The value of a header, without what lies behind it. -/
def valueOf (name : Bytes) (req : Request) : Option Bytes :=
  (findHeader name req.headers).map (·.value.bytes)

def headerNames (req : Request) : List Bytes := req.headers.map (·.name.bytes)

/-- The text of a cookie up to the end of its header. -/
def cookieText (mem : Bytes) (req : Request) (name : Bytes) : Option Bytes :=
  (requestCookie mem req name).map fun k => ((valueOf (bytes "Cookie") req).getD []).drop k

/-- The id that `dispatch_request` copies from the request. -/
def echoedId (mem : Bytes) (req : Request) : Option Bytes :=
  (requestHeader mem req (bytes "X-Request-Id")).map (strn maxHeaderSize)

/-- The readers of `Cookie`, `Accept` and `X-Request-Id` stay within the
header: they return the same for every request with the same header names and
the same value, and the id that is echoed is the value. -/
def Contained (mem : Bytes) (req : Request) : Prop :=
  (∀ mem' len' req' n', http1ParseRequest (mem'.take len') = .ok (req', n') →
    headerNames req = headerNames req' →
    (valueOf (bytes "Cookie") req = valueOf (bytes "Cookie") req' →
      ∀ name, cookieText mem req name = cookieText mem' req' name) ∧
    (valueOf (bytes "Accept") req = valueOf (bytes "Accept") req' →
      ∀ types, requestAccepts mem req types = requestAccepts mem' req' types) ∧
    (valueOf (bytes "X-Request-Id") req = valueOf (bytes "X-Request-Id") req' →
      echoedId mem req = echoedId mem' req')) ∧
  echoedId mem req = valueOf (bytes "X-Request-Id") req

/-- An `Accept` value that has an answer for every list of types before its
end: it contains the range `*/*`, followed by a comma or a semicolon. -/
def Decided (v : Bytes) : Prop :=
  (∃ item ∈ (v.splitOn 44).dropLast, mediaType item = bytes "*/*") ∨
    59 ∈ (v.splitOn 44).getLastD [] ∧ mediaType ((v.splitOn 44).getLastD []) = bytes "*/*"
  deriving Decidable

theorem splitOn_append (a : UInt8) (w : Bytes) : ∀ v : Bytes,
    (v ++ w).splitOn a =
      (v.splitOn a).dropLast ++ (w.splitOn a).modifyHead ((v.splitOn a).getLastD [] ++ ·)
  | [] => by
    rw [nil_append]
    cases h : w.splitOn a with
    | nil => exact absurd h (splitOn_ne_nil _ _)
    | cons x xs => simp
  | c :: v => by
    rw [cons_append, splitOn_cons_eq_if_modifyHead, splitOn_cons_eq_if_modifyHead,
      splitOn_append a w v]
    cases hv : v.splitOn a with
    | nil => exact absurd hv (splitOn_ne_nil _ _)
    | cons x xs =>
      cases hw : w.splitOn a with
      | nil => exact absurd hw (splitOn_ne_nil _ _)
      | cons y ys =>
        split_ifs
        · simp [dropLast_cons_of_ne_nil]
        · cases xs with
          | nil => simp
          | cons z zs => simp [dropLast_cons_of_ne_nil]

variable {a c : UInt8} {item mem t v : Bytes}

theorem splitOn_of_notMem : ∀ {w : Bytes}, a ∉ w → w.splitOn a = [w]
  | [], _ => by simp
  | c :: w, h => by
    have hc : ¬c = a := fun h0 => h (by simp [h0])
    have hw : a ∉ w := fun h0 => h (by simp [h0])
    rw [splitOn_cons_eq_if_modifyHead, splitOn_of_notMem hw]
    simp [hc]

theorem mem_of_mem_splitOn : ∀ {v item : Bytes}, item ∈ v.splitOn a → c ∈ item → c ∈ v
  | [], item, hi, hc => by simp_all
  | d :: v, item, hi, hc => by
    rw [splitOn_cons_eq_if_modifyHead] at hi
    cases hv : v.splitOn a with
    | nil => exact absurd hv (splitOn_ne_nil _ _)
    | cons x xs =>
      have ih : ∀ item ∈ x :: xs, c ∈ item → c ∈ v := fun item hi => mem_of_mem_splitOn (hv ▸ hi)
      rw [hv] at hi
      split_ifs at hi
      · rcases mem_cons.mp hi with rfl | hi
        · simp at hc
        · exact mem_cons_of_mem _ (ih item hi hc)
      · rcases mem_cons.mp hi with rfl | hi
        · rcases mem_cons.mp hc with rfl | hc
          · exact mem_cons_self
          · exact mem_cons_of_mem _ (ih x mem_cons_self hc)
        · exact mem_cons_of_mem _ (ih item (mem_cons_of_mem _ hi) hc)

/-! ### `Accept` -/

theorem mediaType_append {l : Bytes} (h : 59 ∈ l) : mediaType (l ++ t) = mediaType l := by
  have hd : 59 ∈ l.dropWhile (· == 32) := mem_dropWhile h (by decide)
  have hne : (l.dropWhile (· == 32)).isEmpty = false := by
    rw [isEmpty_eq_false_iff]
    exact ne_nil_of_mem hd
  have hlt : ((l.dropWhile (· == 32)).takeWhile (· ≠ 59)).length ≠ (l.dropWhile (· == 32)).length := by
    intro h0
    have := takeWhile_prefix (fun c : UInt8 => decide (c ≠ 59)) |>.eq_of_length h0
    rw [← this] at hd
    exact absurd (mem_takeWhile_imp hd) (by decide)
  rw [mediaType, mediaType, dropWhile_append, hne]
  simp only [Bool.false_eq_true, if_false]
  rw [takeWhile_append, if_neg hlt]

theorem mem_of_mem_mediaType (h : c ∈ mediaType item) : c ∈ item := by
  have hfront := rdropWhile_prefix (· == 32) ((item.dropWhile (· == 32)).takeWhile (· ≠ 59))
  exact (dropWhile_suffix _).subset ((takeWhile_sublist _).subset (hfront.subset h))

theorem mem_mediaType (h : c ∈ item) (hc : c ≠ 32) (hs : 59 ∉ item) : c ∈ mediaType item := by
  have htake : (item.dropWhile (· == 32)).takeWhile (· ≠ 59) = item.dropWhile (· == 32) := by
    rw [takeWhile_eq_self_iff]
    intro d hd
    simpa using fun h0 : d = 59 => hs (h0 ▸ (dropWhile_suffix _).subset hd)
  rw [mediaType, htake, List.rdropWhile, mem_reverse]
  exact mem_dropWhile (mem_reverse.mpr (mem_dropWhile h (by simpa using hc))) (by simpa using hc)

/-- The items of a value, with something appended: those that a comma ends,
then what starts with the last one. -/
theorem acceptItems_append (v t : Bytes) :
    ∃ rest, acceptItems (v ++ t) = (v.splitOn 44).dropLast ++ rest ∧
    ((v.splitOn 44).getLastD [] ≠ [] → ∃ u, rest.head? = some ((v.splitOn 44).getLastD [] ++ u)) := by
  unfold acceptItems
  rw [splitOn_append]
  cases ht : t.splitOn 44 with
  | nil => exact absurd ht (splitOn_ne_nil _ _)
  | cons x xs =>
    simp only [modifyHead_cons]
    split_ifs with hlast
    · rw [dropLast_append_of_ne_nil (by simp)]
      refine ⟨_, rfl, fun hne => ?_⟩
      cases xs with
      | nil =>
        have : (v.splitOn 44).getLastD [] ++ x = [] := by simpa using hlast
        exact absurd (append_eq_nil_iff.mp this).1 hne
      | cons y ys => exact ⟨x, by simp [dropLast_cons_of_ne_nil]⟩
    · exact ⟨_, rfl, fun _ => ⟨x, rfl⟩⟩

/-- **A decided value has its answer**, whatever follows it. -/
theorem Decided.acceptsIn (h : Decided v) {types : List Bytes} (ht : types ≠ []) (t t' : Bytes) :
    acceptsIn types (v ++ t) = acceptsIn types (v ++ t') := by
  obtain ⟨x, xs, rfl⟩ := exists_cons_of_ne_nil ht
  have hany : ∀ item, mediaType item = bytes "*/*" → acceptItem (x :: xs) item = some x := by
    intro item hi
    simp [acceptItem, hi]
  obtain ⟨r, hr, hr0⟩ := acceptItems_append v t
  obtain ⟨r', hr', hr0'⟩ := acceptItems_append v t'
  unfold Iohttp.acceptsIn
  rw [hr, hr', findSome?_append, findSome?_append]
  rcases h with ⟨item, hi, hm⟩ | ⟨hs, hm⟩
  · have : ((v.splitOn 44).dropLast.findSome? (acceptItem (x :: xs))).isSome := by
      rw [findSome?_isSome_iff]
      exact ⟨item, hi, by rw [hany item hm]; rfl⟩
    obtain ⟨y, hy⟩ := Option.isSome_iff_exists.mp this
    simp [hy]
  · have hne : (v.splitOn 44).getLastD [] ≠ [] := ne_nil_of_mem hs
    have hfirst : ∀ {rest : List Bytes}, (∃ u, rest.head? = some ((v.splitOn 44).getLastD [] ++ u)) →
        rest.findSome? (acceptItem (x :: xs)) = some x := by
      rintro rest ⟨u, hu⟩
      cases rest with
      | nil => simp at hu
      | cons y ys =>
        obtain rfl : y = (v.splitOn 44).getLastD [] ++ u := by simpa using hu
        rw [findSome?_cons, hany _ ((mediaType_append hs).trans hm)]
    rw [hfirst (hr0 hne), hfirst (hr0' hne)]

theorem acceptItem_one (h1 : mediaType item ≠ [1]) (h2 : mediaType item ≠ bytes "*/*") :
    acceptItem [[1]] item = none := by
  have hexact : eqIgnoreCase (strn maxHeaderSize [1]) (mediaType item) = false := by
    rw [show strn maxHeaderSize [1] = [1] by decide, eqIgnoreCase, beq_eq_false_iff_ne]
    intro h
    cases hm : mediaType item with
    | nil => simp [hm] at h
    | cons c cs =>
      rw [hm] at h
      obtain ⟨hc, rfl⟩ : lower 1 = lower c ∧ cs = [] := by simpa using h
      exact h1 (by rw [hm, eq_of_lower_eq (c := c) (d := 1) (by decide) (by rw [← hc]; decide)])
  have hwild : (mediaType item).length > 2 →
      eqIgnoreCase (strn ((mediaType item).length - 1) [1]) (mediaType item).dropLast = false := by
    intro hl
    rw [eqIgnoreCase, beq_eq_false_iff_ne]
    intro h
    have := congrArg List.length h
    have h1 : (strn ((mediaType item).length - 1) [1]).length ≤ 1 :=
      (takeWhile_sublist _).length_le.trans (by simp [length_take])
    simp at this
    omega
  unfold acceptItem
  simp only [h2, if_false, find?_cons, hexact, find?_nil, Option.or_none]
  split_ifs with hw
  · simp [hwild hw.1]
  · rfl

/-- With nothing decided, a tail without commas and semicolons has no answer
for that type, and one that adds it after a comma has. -/
theorem acceptsIn_undecided {w : Bytes} (hv : ¬Decided v) (hctl : ∀ c ∈ v, isCtl c = false)
    (hw : ∀ c ∈ w, c ≠ 44 ∧ c ≠ 59) :
    acceptsIn [[1]] (v ++ (lf :: w ++ [lf])) = none ∧
      acceptsIn [[1]] (v ++ (lf :: w ++ [lf, 44, 1])) = some [1] := by
  obtain ⟨hcl, hlast⟩ := not_or.mp hv
  set L := (v.splitOn 44).getLastD [] with hL
  have hLmem : ∀ c ∈ L, isCtl c = false := by
    intro c hc
    rw [hL, getLastD_eq_getLast?] at hc
    cases hg : (v.splitOn 44).getLast? with
    | none => simp [hg] at hc
    | some l => exact hctl c (mem_of_mem_splitOn (mem_of_getLast? hg) (by simpa [hg] using hc))
  have hno : ∀ {item : Bytes}, (∀ c ∈ item, isCtl c = false) → mediaType item ≠ [1] := by
    intro item hi h1
    exact absurd (hi 1 (mem_of_mem_mediaType (by simp [h1]))) (by decide)
  have hclosed : (v.splitOn 44).dropLast.findSome? (acceptItem [[1]]) = none := by
    rw [findSome?_eq_none_iff]
    intro item hi
    exact acceptItem_one
      (hno fun c hc => hctl c (mem_of_mem_splitOn (dropLast_subset _ hi) hc)) fun h => hcl ⟨item, hi, h⟩
  -- the last item of the value runs into the tail
  have hrun : acceptItem [[1]] (L ++ (lf :: w ++ [lf])) = none := by
    by_cases hsemi : 59 ∈ L
    · have hm := mediaType_append (t := lf :: w ++ [lf]) hsemi
      exact acceptItem_one (by rw [hm]; exact hno hLmem) (by rw [hm]; exact fun h => hlast ⟨hsemi, h⟩)
    · have hmem : lf ∈ mediaType (L ++ (lf :: w ++ [lf])) := by
        refine mem_mediaType (by simp) (by decide) ?_
        simp only [cons_append, mem_append, mem_cons, not_or]
        exact ⟨hsemi, by decide, fun h => (hw 59 h).2 rfl, by decide, by simp⟩
      refine acceptItem_one ?_ ?_
      · intro h
        rw [h] at hmem
        exact absurd hmem (by decide)
      · intro h
        rw [h] at hmem
        exact absurd hmem (by decide)
  have hw44 : 44 ∉ lf :: w ++ [lf] := by
    simp only [cons_append, mem_cons, mem_append, not_or]
    exact ⟨by decide, fun h => (hw 44 h).1 rfl, by decide, by simp⟩
  constructor
  · have : acceptItems (v ++ (lf :: w ++ [lf])) = (v.splitOn 44).dropLast ++
        [L ++ (lf :: w ++ [lf])] := by
      unfold acceptItems
      rw [splitOn_append, splitOn_of_notMem hw44]
      simp [hL, getLastD_eq_getLast?]
    rw [acceptsIn, this, findSome?_append, hclosed, findSome?_singleton, hrun]
    rfl
  · have : acceptItems (v ++ (lf :: w ++ [lf, 44, 1])) =
        (v.splitOn 44).dropLast ++ [L ++ (lf :: w ++ [lf]), [1]] := by
      have heq : v ++ (lf :: w ++ [lf, 44, 1]) = (v ++ (lf :: w ++ [lf])) ++ [44, 1] := by simp
      unfold acceptItems
      rw [heq, splitOn_append, splitOn_append, splitOn_of_notMem hw44]
      simp [show List.splitOn (44 : UInt8) [44, 1] = [[], [1]] by decide, hL, getLastD_eq_getLast?]
    rw [acceptsIn, this, findSome?_append, hclosed, findSome?_cons, hrun]
    decide

/-! ### Another request with the same header names

The values of the other headers are left out, but for the `Content-Length`
that the checks look at. -/

def plainLine (name value : Bytes) : Bytes := name ++ colon :: value ++ [lf]

def plainLines (fs : List (Bytes × Bytes)) : Bytes := fs.flatMap fun f => plainLine f.1 f.2

/-- The headers of plain lines at position `n`. -/
def layout : ℕ → List (Bytes × Bytes) → List Header
  | _, [] => []
  | n, f :: fs => ⟨⟨n, f.1⟩, ⟨n + f.1.length + 1, f.2⟩⟩ :: layout (n + (plainLine f.1 f.2).length) fs

theorem layout_names : ∀ (fs : List (Bytes × Bytes)) (n : ℕ), (layout n fs).map (·.name.bytes) =
    fs.map (·.1)
  | [], _ => rfl
  | f :: fs, n => by simp [layout, layout_names fs]

theorem layout_append : ∀ (fs gs : List (Bytes × Bytes)) (n : ℕ),
    layout n (fs ++ gs) = layout n fs ++ layout (n + (plainLines fs).length) gs
  | [], gs, n => by simp [layout, plainLines]
  | f :: fs, gs, n => by
    simp [layout, layout_append fs gs, plainLines, Nat.add_assoc]

theorem layout_lines : ∀ {fs : List (Bytes × Bytes)} {n : ℕ}, (∀ f ∈ fs, ProperField f.1 f.2) →
    HeaderLines n (layout n fs) (plainLines fs)
  | [], _, _ => rfl
  | f :: fs, n, h => by
    have hf := h f mem_cons_self
    refine ⟨plainLine f.1 f.2, plainLines fs, by simp [plainLines], ?_,
      layout_lines (forall_mem_cons.mp h).2⟩
    exact ⟨[], f.2, [lf], by simp [plainLine], .inr rfl, rfl, hf.ne_nil, hf.token, by simp, hf.head,
      hf.not_ctl, by simp [hf.trimmed]⟩

/-- The header without its value, which only the length of the body keeps. -/
def emptied (h : Header) : Bytes × Bytes :=
  (h.name.bytes, if eqIgnoreCase h.name.bytes (bytes "Content-Length") then h.value.bytes else [])

variable {h : Header} {name : Bytes}

theorem emptied_proper (hp : ProperField h.name.bytes h.value.bytes) :
    ProperField (emptied h).1 (emptied h).2 := by
  unfold emptied
  split
  · exact hp
  · exact ⟨hp.ne_nil, hp.token, by simp, by simp, rfl⟩

theorem emptied_length : ∀ {hs : List Header} {n : ℕ} {ls : Bytes}, HeaderLines n hs ls →
    (plainLines (hs.map emptied)).length ≤ ls.length
  | [], _, _, _ => by simp [plainLines]
  | h :: hs, n, _, ⟨l, ls, rfl, hl, hls⟩ => by
    have h1 := hl.proper.2
    have h2 := emptied_length hls
    have h3 : (emptied h).2.length ≤ h.value.bytes.length := by
      unfold emptied
      split <;> simp
    simp only [plainLines, map_cons, flatMap_cons, length_append, plainLine,
      length_cons, length_nil] at h2 ⊢
    have h4 : (emptied h).1.length = h.name.bytes.length := rfl
    omega

theorem scan_emptied : ∀ {hs : List Header} {s t : Scan} (n : ℕ), hs.foldlM scanHeader s = some t →
    (layout n (hs.map emptied)).foldlM scanHeader s = some t
  | [], _, _, _, h => h
  | h :: hs, s, t, n, hf => by
    obtain ⟨s₁, hs₁, hf⟩ := Option.bind_eq_some_iff.mp hf
    rw [map_cons, layout, foldlM_cons]
    have : scanHeader s ⟨⟨n, (emptied h).1⟩, ⟨n + (emptied h).1.length + 1, (emptied h).2⟩⟩ =
        some s₁ := by
      unfold scanHeader emptied at *
      split_ifs at hs₁ ⊢ with h1 h2 h3 h4 h5 <;> first | exact hs₁ | simp_all [chunkedLast, afterChunked]
    rw [this]
    exact scan_emptied _ hf

theorem scan_valid : ∀ {hs : List Header} {s t : Scan}, hs.foldlM scanHeader s = some t →
    ∀ h ∈ hs, eqIgnoreCase h.name.bytes (bytes "Content-Length") → isValidContentLength h.value.bytes
  | h :: hs, s, t, hf, h', hm, hcl => by
    obtain ⟨s₁, hs₁, hf⟩ := Option.bind_eq_some_iff.mp hf
    rcases mem_cons.mp hm with rfl | hm
    · unfold scanHeader at hs₁
      split_ifs at hs₁ with h1
      simpa using (not_or.mp h1).2
    · exact scan_valid hf h' hm hcl

variable {hs : List Header}

theorem emptied_chars {s t : Scan} (hf : hs.foldlM scanHeader s = some t)
    (hp : ∀ h ∈ hs, ProperField h.name.bytes h.value.bytes) :
    ∀ c ∈ plainLines (hs.map emptied), c ≠ 0 ∧ c ≠ 44 ∧ c ≠ 59 := by
  intro c hc
  simp only [plainLines, mem_flatMap, mem_map] at hc
  obtain ⟨f, ⟨h, hh, rfl⟩, hc⟩ := hc
  simp only [plainLine, mem_append, mem_cons, not_mem_nil, or_false] at hc
  rcases hc with (hc | rfl | hc) | rfl
  · have := (hp h hh).token c hc
    refine ⟨?_, ?_, ?_⟩ <;> (rintro rfl; exact absurd this (by decide))
  · decide
  · unfold emptied at hc
    split_ifs at hc with hcl
    · have hv := scan_valid hf h hh hcl
      have := all_eq_true.mp (Bool.and_eq_true_iff.mp hv).2 c hc
      refine ⟨?_, ?_, ?_⟩ <;> (rintro rfl; exact absurd this (by decide))
    · simp at hc
  · decide

variable {req : Request}

theorem parsed_head {len : ℕ} {n : ℕ}
    (h : http1ParseRequest (mem.take len) = .ok (req, n)) : ∃ q hs s head t,
      RequestHead http1MaxHeaders q hs head ∧ Admitted q hs s ∧ req = requestOf q hs s ∧
      mem = head ++ t ∧ n = head.length := by
  obtain ⟨q, hs, s, head, t, hh, ha, hr, hb, hn⟩ := http1ParseRequest_eq_ok.mp h
  refine ⟨q, hs, s, head, t ++ mem.drop len, hh, ha, hr, ?_, hn⟩
  rw [← append_assoc, ← hb, take_append_drop]

variable {q : PhrRequest} {head : Bytes} {s : Scan}

theorem head_parsed (hh : RequestHead http1MaxHeaders q hs head) (ha : Admitted q hs s) (t : Bytes) :
    http1ParseRequest ((head ++ t).take head.length) = .ok (requestOf q hs s, head.length) :=
  http1ParseRequest_eq_ok.mpr ⟨q, hs, s, head, [], hh, ha, rfl, by simp, rfl⟩

/-- The value of a header in a head: from its offset on, with something other
than a NUL behind it, and no NUL up to the end of the head. -/
theorem value_in_head (hh : RequestHead http1MaxHeaders q hs head) (hm : h ∈ hs) :
    ∃ u, (∀ t, (head ++ t).drop h.value.off = h.value.bytes ++ (u ++ t)) ∧ u ≠ [] ∧ 0 ∉ u ∧
      (∀ c ∈ h.value.bytes, isCtl c = false) ∧ h.value.bytes.length + u.length + 2 ≤ head.length := by
  obtain ⟨a, ls, e, rfl, ha, hls, he, -⟩ := hh.split
  obtain ⟨h0, hv⟩ := hls.value
  obtain ⟨p, u, rfl, ho, hu, hctl⟩ := hv h hm
  refine ⟨u ++ e, fun t => ?_, by simp [hu], ?_, hctl, by simp; omega⟩
  · have heq : a ++ (p ++ (h.value.bytes ++ u) ++ e) ++ t = (a ++ p) ++
        (h.value.bytes ++ (u ++ e ++ t)) := by
      simp
    rw [heq, ho, ← length_append, drop_left]
  · have h1 : 0 ∉ u := fun h => h0 (by simp [h])
    have h2 : 0 ∉ e := by rcases he with rfl | rfl <;> decide
    simp [h1, h2]

theorem findHeader_none {req' : Request} (h : headerNames req = headerNames req') :
    findHeader name req.headers = none → findHeader name req'.headers = none := by
  simp only [findHeader, find?_eq_none]
  intro hn x hx
  have : x.name.bytes ∈ headerNames req := by
    rw [h]
    exact mem_map_of_mem hx
  obtain ⟨y, hy, hyx⟩ := mem_map.mp this
  have := hn y hy
  rwa [hyx] at this

theorem cookieLoop_short : ∀ {p : Bytes} (start : Bool) (k : ℕ), p.length ≤ name.length →
    cookieLoop name start k p = none
  | [], _, _, _ => rfl
  | c :: p, start, k, h => by
    have hlen : p.length ≤ name.length := by
      rw [length_cons] at h
      omega
    have hpre : (name ++ [61]).isPrefixOf (c :: p) = false := by
      rw [Bool.eq_false_iff, ne_eq, isPrefixOf_iff_prefix]
      intro h0
      have := h0.length_le
      simp at this h
      omega
    rw [cookieLoop]
    split_ifs with h1 h2 h3
    · rfl
    · exact cookieLoop_short true (k + 1) hlen
    · exact absurd h3.2 (by simp [hpre])
    · exact cookieLoop_short _ (k + 1) hlen

theorem cookieLoop_found (name : Bytes) (hn : ∃ c ∈ name.head?, c ≠ 59 ∧ c ≠ 32 ∧ c ≠ 0) :
    ∀ {p : Bytes} (start : Bool) (k : ℕ), 0 ∉ p →
      (cookieLoop name start k (p ++ 59 :: (name ++ [61]))).isSome
  | [], start, k, _ => by
    obtain ⟨c, hc, h1, h2, h3⟩ := hn
    obtain ⟨cs, rfl⟩ : ∃ cs, name = c :: cs := by
      cases name with
      | nil => simp at hc
      | cons d ds => exact ⟨ds, by simpa using hc⟩
    have hpre : (c :: cs ++ [61]).isPrefixOf (59 :: (c :: cs ++ [61])) = false := by
      simp [List.isPrefixOf, h1]
    have hself : (c :: cs ++ [61]).isPrefixOf (c :: cs ++ [61]) = true :=
      isPrefixOf_iff_prefix.mpr prefix_rfl
    rw [nil_append, cookieLoop, if_neg (by decide), if_neg (by simp),
      if_neg (fun h => absurd h.2 (by rw [hpre]; decide))]
    rw [cons_append, cookieLoop, if_neg h3, if_neg (by simp [h2])]
    rw [← cons_append, if_pos ⟨by decide, hself⟩]
    rfl
  | c :: p, start, k, h0 => by
    have hc : c ≠ 0 := fun h => h0 (by simp [h])
    have hp : 0 ∉ p := fun h => h0 (by simp [h])
    rw [cons_append, cookieLoop, if_neg hc]
    split_ifs
    · exact cookieLoop_found name hn true (k + 1) hp
    · rfl
    · exact cookieLoop_found name hn _ (k + 1) hp

def longName : Bytes := List.replicate maxHeaderSize 120

theorem strn_longName : strn maxHeaderSize longName = longName := by
  simp [strn, longName]

theorem cookie_not_contained (hh : RequestHead http1MaxHeaders q hs head) (ha : Admitted q hs s)
    (hlen : head.length ≤ maxHeaderSize) (hf : findHeader (bytes "Cookie") hs = some h) :
    ¬Contained mem (requestOf q hs s) := by
  intro hc
  have hm : h ∈ hs := mem_of_find?_eq_some hf
  obtain ⟨u, hu, -, hu0, hctl, hul⟩ := value_in_head hh hm
  have hv : 0 ∉ h.value.bytes := zero_notMem_of_not_ctl hctl
  have htext : ∀ t, cookieText mem (requestOf q hs s) longName =
      (cookieLoop longName true 0 (h.value.bytes ++ (u ++ t))).map fun k => h.value.bytes.drop k := by
    intro t
    rw [(hc.1 _ _ _ _ (head_parsed hh ha t) rfl).1 rfl longName]
    have hfr : findHeader (bytes "Cookie") (requestOf q hs s).headers = some h := hf
    simp [cookieText, requestCookie, requestHeader, hfr, hu t, strn_longName, valueOf]
  have h1 := htext []
  rw [append_nil, cookieLoop_short true 0 (by simp [longName]; omega)] at h1
  have h2 := htext (59 :: (longName ++ [61]))
  rw [h1, ← append_assoc] at h2
  obtain ⟨k, hk⟩ := Option.isSome_iff_exists.mp (cookieLoop_found longName
    ⟨120, by simp [longName, head?_replicate], by decide, by decide, by decide⟩ true 0
    (show 0 ∉ h.value.bytes ++ u by simp [hv, hu0]))
  rw [hk] at h2
  simp at h2

theorem echo_not_contained (hh : RequestHead http1MaxHeaders q hs head)
    (hlen : head.length ≤ maxHeaderSize) (hf : findHeader (bytes "X-Request-Id") hs = some h) :
    echoedId (head ++ t) (requestOf q hs s) ≠ valueOf (bytes "X-Request-Id") (requestOf q hs s) := by
  have hfr : findHeader (bytes "X-Request-Id") (requestOf q hs s).headers = some h := hf
  obtain ⟨u, hu, hne, hu0, hctl, hul⟩ := value_in_head hh (mem_of_find?_eq_some hf)
  obtain ⟨c, cs, rfl⟩ := exists_cons_of_ne_nil hne
  have hc : c ≠ 0 := fun h => hu0 (by simp [h])
  simp only [echoedId, requestHeader, valueOf, hfr, Option.map_some, hu t]
  rw [strn_append (zero_notMem_of_not_ctl hctl) (by omega)]
  intro heq
  obtain ⟨k, hk⟩ : ∃ k, maxHeaderSize - h.value.bytes.length = k + 1 :=
    ⟨maxHeaderSize - h.value.bytes.length - 1, by omega⟩
  simp [strn, hk, hc] at heq

/-! ### Content negotiation -/

/-- The fields of the headers, with the value of `h` and the others emptied. -/
def onlyValue (as : List Header) (h : Header) (bs : List Header) : List (Bytes × Bytes) :=
  as.map emptied ++ (h.name.bytes, h.value.bytes) :: bs.map emptied

section

variable {as bs : List Header} {h : Header}

theorem onlyValue_proper (hproper : ∀ x ∈ as ++ h :: bs, ProperField x.name.bytes x.value.bytes) :
    ∀ f ∈ onlyValue as h bs, ProperField f.1 f.2 := by
  intro f hmem
  rcases mem_append.mp hmem with hmem | hmem
  · obtain ⟨x, hx, rfl⟩ := mem_map.mp hmem
    exact emptied_proper (hproper x (by simp [hx]))
  · rcases mem_cons.mp hmem with rfl | hmem
    · exact hproper h (by simp)
    · obtain ⟨x, hx, rfl⟩ := mem_map.mp hmem
      exact emptied_proper (hproper x (by simp [hx]))

theorem onlyValue_names (n : ℕ) :
    (layout n (onlyValue as h bs)).map (·.name.bytes) = (as ++ h :: bs).map (·.name.bytes) := by
  rw [layout_names]
  simp only [onlyValue, map_append, map_cons, map_map]
  rfl

/-- Where the value of `h` is. -/
def valueAt (n : ℕ) (as : List Header) (h : Header) : ℕ :=
  n + (plainLines (as.map emptied)).length + h.name.bytes.length + 1

theorem layout_onlyValue (n : ℕ) : layout n (onlyValue as h bs) = layout n (as.map emptied) ++
    ⟨⟨n + (plainLines (as.map emptied)).length, h.name.bytes⟩, ⟨valueAt n as h, h.value.bytes⟩⟩ ::
    layout (n + (plainLines (as.map emptied)).length + (plainLine h.name.bytes h.value.bytes).length)
      (bs.map emptied) := by
  rw [onlyValue, layout_append, layout]
  rfl

theorem scan_onlyValue (n : ℕ) {s₀ s₁ : Scan} (hname : ∀ s, scanHeader s h = some s)
    (has : as.foldlM scanHeader s₀ = some s₁) (hbs : bs.foldlM scanHeader s₁ = some s) :
    (layout n (onlyValue as h bs)).foldlM scanHeader s₀ = some s := by
  have hpass : scanHeader s₁ ⟨⟨n + (plainLines (as.map emptied)).length, h.name.bytes⟩,
      ⟨valueAt n as h, h.value.bytes⟩⟩ = some s₁ := hname s₁
  rw [layout_onlyValue, List.foldlM_append, scan_emptied _ has, Option.bind_eq_bind, Option.bind_some,
    foldlM_cons, hpass, Option.bind_eq_bind, Option.bind_some]
  exact scan_emptied _ hbs

theorem findHeader_onlyValue (n : ℕ) (hp : eqIgnoreCase h.name.bytes name = true)
    (has : ∀ x ∈ as, eqIgnoreCase x.name.bytes name = false) :
    (findHeader name (layout n (onlyValue as h bs))).map (·.value) = some
    ⟨valueAt n as h, h.value.bytes⟩ := by
  have hnone : findHeader name (layout n (as.map emptied)) = none := by
    rw [findHeader, find?_eq_none]
    intro x hx
    have hxn : x.name.bytes ∈ (layout n (as.map emptied)).map (·.name.bytes) := mem_map_of_mem hx
    rw [layout_names, map_map] at hxn
    obtain ⟨y, hy, hyx⟩ := mem_map.mp hxn
    rw [← hyx]
    exact Bool.eq_false_iff.mp (has y hy)
  rw [layout_onlyValue]
  unfold findHeader at hnone ⊢
  rw [find?_append, hnone, Option.none_or, find?_cons, hp]
  rfl

theorem drop_valueAt (a : Bytes) (t : Bytes) :
    (a ++ (plainLines (onlyValue as h bs) ++ [lf]) ++ t).drop (valueAt a.length as h) =
      h.value.bytes ++ (lf :: plainLines (bs.map emptied) ++ [lf] ++ t) := by
  have heq : a ++ (plainLines (onlyValue as h bs) ++ [lf]) ++ t =
      (a ++ (plainLines (as.map emptied) ++ (h.name.bytes ++ [colon]))) ++
        (h.value.bytes ++ (lf :: plainLines (bs.map emptied) ++ [lf] ++ t)) := by
    simp [onlyValue, plainLines, plainLine]
  rw [heq]
  refine drop_left' ?_
  simp only [valueAt, length_append, length_singleton]
  omega

end

theorem emptied_request (hh : RequestHead http1MaxHeaders q hs head) (ha : Admitted q hs s)
    (hf : findHeader name hs = some h) (hname : ∀ s, scanHeader s h = some s) :
    ∃ req' w head' off, (∀ t, http1ParseRequest ((head' ++ t).take head'.length) = .ok
      (req', head'.length)) ∧
      headerNames req' = hs.map (·.name.bytes) ∧
      (findHeader name req'.headers).map (·.value) = some ⟨off, h.value.bytes⟩ ∧
      (∀ t, (head' ++ t).drop off = h.value.bytes ++ (lf :: w ++ [lf] ++ t)) ∧
      (∀ c ∈ w, c ≠ 0 ∧ c ≠ 44 ∧ c ≠ 59) ∧ h.value.bytes.length + w.length + 4 ≤ head.length ∧
      ∀ c ∈ h.value.bytes, isCtl c = false := by
  obtain ⟨hp, as, bs, rfl, has⟩ := find?_eq_some_iff_append.mp hf
  obtain ⟨a, ls, e, rfl, ha2, hls, he, hother⟩ := hh.split
  have hproper := hls.proper
  obtain ⟨l₁, _, rfl, hl₁, l, l₃, rfl, hl, hl₃⟩ := hls.append
  obtain ⟨s₁, hs₁, hs₂⟩ : ∃ s₁, as.foldlM scanHeader ⟨false, false, false, 0⟩ = some s₁ ∧
      bs.foldlM scanHeader s₁ = some s := by
    have := ha.scan
    rw [List.foldlM_append] at this
    obtain ⟨s₁, h1, h2⟩ := Option.bind_eq_some_iff.mp this
    rw [foldlM_cons, hname s₁] at h2
    exact ⟨s₁, h1, h2⟩
  have hnames : (layout a.length (onlyValue as h bs)).map (·.name.bytes) = (as ++ h :: bs).map
      (·.name.bytes) :=
    onlyValue_names a.length
  have hroom : (layout a.length (onlyValue as h bs)).length ≤ http1MaxHeaders := by
    have h1 := congrArg List.length hnames
    have h2 := hh.room
    simp only [length_map] at h1
    omega
  have hhead := hother _ _ hroom (layout_lines (onlyValue_proper hproper))
  have hadm : Admitted { q with headers := (layout a.length (onlyValue as h bs)).map toPhr }
      (layout a.length (onlyValue as h bs)) s :=
    ⟨ha.path, scan_onlyValue a.length hname hs₁ hs₂, ha.framing, ha.host⟩
  refine ⟨requestOf _ (layout a.length (onlyValue as h bs)) s, plainLines (bs.map emptied), _,
    valueAt a.length as h, head_parsed hhead hadm, hnames,
    findHeader_onlyValue a.length hp fun x hx => by simpa using has x hx, drop_valueAt a,
    emptied_chars hs₂ fun x hx => hproper x (by simp [hx]), ?_, (hproper h (by simp)).not_ctl⟩
  have h1 := hl.proper.2
  have h2 := emptied_length hl₃
  simp only [length_append]
  omega

/-- An `Accept` value that is not decided leaves the answer to the bytes
behind it. -/
theorem accept_not_contained (hh : RequestHead http1MaxHeaders q hs head) (ha : Admitted q hs s)
    (hlen : head.length ≤ maxHeaderSize) (hf : findHeader (bytes "Accept") hs = some h)
    (hd : ¬Decided h.value.bytes) : ¬Contained mem (requestOf q hs s) := by
  intro hc
  have hname : ∀ s, scanHeader s h = some s := by
    have hn : h.name.bytes.map lower = (bytes "Accept").map lower := by
      simpa [eqIgnoreCase] using find?_some hf
    intro s
    unfold scanHeader eqIgnoreCase
    rw [hn, if_neg (by decide), if_neg (by decide), if_neg (by decide)]
  obtain ⟨req', w, head', off, hparse, hnames, hval, hmem, hw, hwl, hctl⟩ :=
    emptied_request hh ha hf hname
  obtain ⟨h', hf', hv'⟩ := Option.map_eq_some_iff.mp hval
  have hacc : ∀ t, 0 ∉ t → t.length ≤ 2 → requestAccepts mem (requestOf q hs s) [[1]] =
      acceptsIn [[1]] (h.value.bytes ++ (lf :: w ++ [lf] ++ t)) := by
    intro t ht0 ht
    have hsame : valueOf (bytes "Accept") (requestOf q hs s) = valueOf (bytes "Accept") req' := by
      have hfr : findHeader (bytes "Accept") (requestOf q hs s).headers = some h := hf
      simp [valueOf, hfr, hf', hv']
    have h0 : 0 ∉ h.value.bytes ++ (lf :: w ++ [lf] ++ t) := by
      have hw0 : 0 ∉ w := fun h => (hw 0 h).1 rfl
      have hv0 := zero_notMem_of_not_ctl hctl
      have hlf : (0 : UInt8) ≠ lf := by decide
      simp [hw0, hv0, ht0, hlf]
    rw [((hc.1 _ _ _ _ (hparse t) hnames.symm).2.1 hsame) [[1]]]
    have hstr := strn_append (n := maxHeaderSize) (u := []) h0 (by simp; omega)
    rw [append_nil] at hstr
    simp only [requestAccepts, requestHeader, hf', hv', Option.map_some, Option.bind_some, hmem t, hstr]
    simp [strn]
  have hq := acceptsIn_undecided hd hctl fun c hc => (hw c hc).2
  have h1 := hacc [] (by simp) (by simp)
  have h2 := hacc [44, 1] (by decide) (by simp)
  rw [append_nil, hq.1] at h1
  rw [h1, append_assoc] at h2
  rw [show [lf] ++ [44, 1] = [lf, 44, 1] from rfl, hq.2] at h2
  simp at h2

/-- **The readers of the headers stay within them** exactly for the requests
that have neither a `Cookie` nor an `X-Request-Id` header and whose `Accept`
header, if any, is decided. -/
theorem accessors_contained_iff {mem : Bytes} (len : ℕ) {req : Request} {n : ℕ}
    (h : http1ParseRequest (mem.take len) = .ok (req, n)) (hn : n ≤ maxHeaderSize) :
    Contained mem req ↔ valueOf (bytes "Cookie") req = none ∧ valueOf (bytes "X-Request-Id") req = none ∧
      ∀ v, valueOf (bytes "Accept") req = some v → Decided v := by
  obtain ⟨q, hs, s, head, t, hh, ha, rfl, rfl, rfl⟩ := parsed_head h
  constructor
  · intro hc
    refine ⟨?_, ?_, ?_⟩
    · by_contra hne
      obtain ⟨x, hx⟩ := Option.ne_none_iff_exists'.mp hne
      obtain ⟨h', hf, -⟩ := Option.map_eq_some_iff.mp hx
      exact cookie_not_contained hh ha hn hf hc
    · by_contra hne
      obtain ⟨x, hx⟩ := Option.ne_none_iff_exists'.mp hne
      obtain ⟨h', hf, -⟩ := Option.map_eq_some_iff.mp hx
      exact echo_not_contained hh hn hf hc.2
    · intro v hv
      by_contra hd
      obtain ⟨h', hf, rfl⟩ := Option.map_eq_some_iff.mp hv
      exact accept_not_contained hh ha hn hf hd hc
  · rintro ⟨hck, hid, hacc⟩
    have hck' := Option.map_eq_none_iff.mp hck
    have hid' := Option.map_eq_none_iff.mp hid
    refine ⟨fun mem' len' req' n' hp hnames => ⟨fun _ name => ?_, fun hv types => ?_, fun _ => ?_⟩, ?_⟩
    · have hck2 := findHeader_none hnames hck'
      simp [cookieText, requestCookie, requestHeader, hck', hck2]
    · cases hf : findHeader (bytes "Accept") (requestOf q hs s).headers with
      | none =>
        have hf2 := findHeader_none hnames hf
        simp [requestAccepts, requestHeader, hf, hf2]
      | some h' =>
        obtain ⟨q', hs', s', head', t', hh', -, rfl, rfl, rfl⟩ := parsed_head hp
        have hv1 : valueOf (bytes "Accept") (requestOf q hs s) = some h'.value.bytes := by
          simp [valueOf, hf]
        obtain ⟨h₂, hf₂, hv2⟩ := Option.map_eq_some_iff.mp (hv.symm.trans hv1)
        have hd := hacc _ hv1
        obtain ⟨u, hu, -, -, hctl, hul⟩ := value_in_head hh (mem_of_find?_eq_some hf)
        obtain ⟨u', hu', -, -, -, -⟩ := value_in_head hh' (mem_of_find?_eq_some hf₂)
        have hlen : h'.value.bytes.length ≤ maxHeaderSize := by omega
        have h0 := zero_notMem_of_not_ctl hctl
        by_cases ht : types = []
        · simp [requestAccepts, ht]
        · simp only [requestAccepts, if_neg ht, requestHeader, hf, hf₂, Option.map_some,
            Option.bind_some,
            hu, hu', hv2, strn_append h0 hlen]
          exact hd.acceptsIn ht _ _
    · have hid2 := findHeader_none hnames hid'
      simp [echoedId, requestHeader, hid', hid2]
    · rw [hid]
      simp [echoedId, requestHeader, hid']

/-- A request with a decided `Accept` header. -/
theorem accessors_contained_decided :
    let mem := bytes "GET / HTTP/1.1\r\nHost: a\r\nAccept: */*, text/html\r\n\r\n"
    let req : Request := ⟨.get, ⟨4, bytes "/"⟩, none,
      [⟨⟨16, bytes "Host"⟩, ⟨22, bytes "a"⟩⟩, ⟨⟨25, bytes "Accept"⟩, ⟨33, bytes "*/*, text/html"⟩⟩],
      [], [], 1,
      1, true, 0, none, some 22⟩
    http1ParseRequest (mem.take 51) = .ok (req, 51) ∧ Contained mem req := by
  refine ⟨by decide +kernel,
    (accessors_contained_iff 51 (n := 51) (by decide +kernel) (by decide)).mpr ⟨rfl, rfl, ?_⟩⟩
  intro v hv
  cases hv
  decide +kernel

/-- The id of `X-Request-Id: 7` is echoed together with the end of the head. -/
theorem accessors_not_contained :
    ¬∀ (mem : Bytes) (len : ℕ) (req : Request) (n : ℕ),
      http1ParseRequest (mem.take len) = .ok (req, n) → Contained mem req := by
  intro h
  have := (h (bytes "GET / HTTP/1.1\r\nHost: a\r\nX-Request-Id: 7\r\n\r\n") 44
    ⟨.get, ⟨4, bytes "/"⟩, none,
      [⟨⟨16, bytes "Host"⟩, ⟨22, bytes "a"⟩⟩, ⟨⟨25, bytes "X-Request-Id"⟩, ⟨39, bytes "7"⟩⟩], [],
      [], 1, 1,
      true, 0, none, some 22⟩ 44 (by decide +kernel)).2
  revert this
  decide +kernel

end Iohttp
