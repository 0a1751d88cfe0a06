/-
# What a client reads in `Set-Cookie`

The algorithm of RFC 6265 for a user agent: the text is split at semicolons,
each part at its first `=`, and blanks around names and values are dropped.
`ioh_cookie_serialize` checks only the name of a cookie; its value, domain and
path are copied as they are, so one that holds a semicolon or the end of a
line, or that begins or ends with a blank, is read as something else.
-/
import Iohttp.Http.Client

namespace Iohttp

open Pico List

structure ReadCookie where
  name : Bytes
  value : Bytes
  attrs : List (Bytes × Bytes)
  deriving DecidableEq, Repr

/-- The name and the value around the first `=`; without one, all is the name. -/
def splitPair (s : Bytes) : Bytes × Bytes :=
  (trimBlanks (s.takeWhile (· ≠ 61)), trimBlanks ((s.dropWhile (· ≠ 61)).drop 1))

/-- The parts of a `Set-Cookie` text: the cookie, and the attributes in order. -/
def readSetCookie (text : Bytes) : Option ReadCookie :=
  match text.splitOn 59 with
  | [] => none
  | pair :: attrs =>
    if 61 ∈ pair ∧ (splitPair pair).1 ≠ [] then
      some ⟨(splitPair pair).1, (splitPair pair).2, attrs.map splitPair⟩
    else none

/-- The attribute `SameSite`. -/
def sameSiteAttr : SameSite → List (Bytes × Option Bytes)
  | .default => []
  | .lax => [(bytes "SameSite", some (bytes "Lax"))]
  | .strict => [(bytes "SameSite", some (bytes "Strict"))]
  | .none => [(bytes "SameSite", some (bytes "None"))]

def cookieFlags (c : Cookie) : List (Bytes × Option Bytes) :=
  (c.domain.map fun d => (bytes "Domain", some (stringAt d))).toList ++
    (c.path.map fun p => (bytes "Path", some (stringAt p))).toList ++
    (if 0 ≤ c.maxAge then [(bytes "Max-Age", some (dec c.maxAge.toNat))] else []) ++
    sameSiteAttr c.sameSite ++
    (if c.secure ∨ c.sameSite = .none then [(bytes "Secure", none)] else []) ++
    if c.httpOnly then [(bytes "HttpOnly", none)] else []

/-- The attributes that were asked for, as a client is to read them. -/
def cookieAttrs (c : Cookie) : List (Bytes × Bytes) := (cookieFlags c).map fun a => (a.1, a.2.getD [])

/-- A text that can stand between semicolons. -/
def CleanField (s : Bytes) : Prop := 59 ∉ s ∧ 13 ∉ s ∧ 10 ∉ s ∧ trimBlanks s = s
  deriving Decidable

def SaysWhatWasAsked (c : Cookie) (text : Bytes) : Prop :=
  readSetCookie text = some ⟨stringAt c.name, stringAt c.value, cookieAttrs c⟩ ∧ 13 ∉ text ∧ 10 ∉ text

def flagText (a : Bytes × Option Bytes) : Bytes := 32 :: a.1 ++ a.2.elim [] (61 :: ·)

theorem intercalate_semicolon (x : Bytes) (xs : List Bytes) :
    [59].intercalate (x :: xs) = x ++ xs.flatMap (59 :: ·) := by
  induction xs generalizing x with
  | nil => simp
  | cons y ys ih => simp [intercalate_cons_cons, ih]

/-- **The text is its parts, joined by semicolons.** -/
theorem cookiePieces_flatten (c : Cookie) : (cookiePieces c).flatten =
    [59].intercalate ((stringAt c.name ++ 61 :: stringAt c.value) :: (cookieFlags c).map flagText) := by
  have hvalue : ∀ (piece name : Bytes) (value : Option Bytes), piece = 59 :: 32 :: name ++ [61] →
      (value.map (piece ++ stringAt ·)).toList.flatten =
        (value.map fun v => (name, some (stringAt v))).toList.flatMap (59 :: flagText ·) := by
    rintro _ name value rfl
    cases value <;> simp [flagText]
  have hflag : ∀ (b : Prop) [Decidable b] (piece : Bytes) (a : Bytes × Option Bytes),
    piece = 59 :: flagText a →
      (if b then [piece] else []).flatten = (if b then [a] else []).flatMap (59 :: flagText ·) := by
    rintro b _ _ a rfl
    split <;> simp
  have hsite : [sameSiteText c.sameSite].flatten = (sameSiteAttr c.sameSite).flatMap
      (59 :: flagText ·) := by
    cases c.sameSite <;> decide +kernel
  have hdomain := hvalue (bytes "; Domain=") (bytes "Domain") c.domain (by decide +kernel)
  have hpath := hvalue (bytes "; Path=") (bytes "Path") c.path (by decide +kernel)
  have hage := hflag (0 ≤ c.maxAge) (bytes "; Max-Age=" ++ dec c.maxAge.toNat)
    (bytes "Max-Age", some (dec c.maxAge.toNat)) rfl
  have hsecure := hflag (c.secure ∨ c.sameSite = .none) (bytes "; Secure") (bytes "Secure", none)
    (by decide +kernel)
  have hhttp := hflag c.httpOnly (bytes "; HttpOnly") (bytes "HttpOnly", none) (by decide +kernel)
  rw [intercalate_semicolon, flatMap_map, cookiePieces, cookieFlags]
  simp only [flatten_append, flatMap_append, hdomain, hpath, hsite, hage, hsecure, hhttp]
  simp only [flatten_singleton, append_assoc, singleton_append]

theorem trimBlanks_trimBlanks (b : Bytes) : trimBlanks (trimBlanks b) = trimBlanks b := by
  have hdrop : (trimBlanks b).dropWhile isBlank = trimBlanks b := by
    obtain ⟨rest, hrest⟩ := rdropWhile_prefix isBlank (b.dropWhile isBlank)
    rw [← trimBlanks] at hrest
    cases htrim : trimBlanks b with
    | nil => rfl
    | cons c cs =>
      rw [htrim, cons_append] at hrest
      refine dropWhile_cons_of_neg fun hc => ?_
      have := head?_dropWhile_not isBlank b
      rw [← hrest] at this
      simp [hc] at this
  rw [trimBlanks, hdrop, trimBlanks, rdropWhile_idempotent]

variable {name text : Bytes} {c : Cookie} {a : Bytes × Option Bytes}

/-- **What a client reads is clean**: between semicolons, without blanks around it. -/
theorem readSetCookie_clean {r : ReadCookie} (h : readSetCookie text = some r) :
    (59 ∉ r.value ∧ trimBlanks r.value = r.value) ∧ ∀ a ∈ r.attrs, 59 ∉ a.2 ∧ trimBlanks a.2 = a.2 := by
  have hsplit : ∀ part : Bytes, 59 ∉ part → 59 ∉ (splitPair part).2 ∧
      trimBlanks (splitPair part).2 = (splitPair part).2 := by
    refine fun part hpart => ⟨fun hmem => hpart ?_, trimBlanks_trimBlanks _⟩
    have hinside := trimBlanks_infix (part.dropWhile (· ≠ 61) |>.drop 1)
    exact (dropWhile_suffix _).mem (mem_of_mem_drop (hinside.mem hmem))
  have hparts : ∀ p ∈ text.splitOn 59, (59 : UInt8) ∉ p := notMem_of_mem_splitOn text
  rw [readSetCookie] at h
  split at h
  · cases h
  case h_2 pair attrs hp =>
    rw [hp] at hparts
    split at h
    · cases h
      refine ⟨hsplit pair (hparts pair mem_cons_self), fun a ha => ?_⟩
      obtain ⟨part, hpart, rfl⟩ := mem_map.mp ha
      exact hsplit part (hparts part (mem_cons_of_mem _ hpart))
    · cases h

theorem trimBlanks_append {pre : Bytes} (hpre : ∀ c ∈ pre, isBlank c = true)
    (hname : ∀ c ∈ name, isBlank c = false) : trimBlanks (pre ++ name) = name := by
  have hdrop : (pre ++ name).dropWhile isBlank = name.dropWhile isBlank := dropWhile_append_of_pos hpre
  rw [trimBlanks, hdrop, ← trimBlanks, trimBlanks_eq_self hname]

theorem splitPair_eq (pre : Bytes) (value : Option Bytes) (hpre : ∀ c ∈ pre, isBlank c = true)
    (hname : ∀ c ∈ name, isBlank c = false ∧ c ≠ 61) :
    splitPair (pre ++ name ++ value.elim [] (61 :: ·)) = (name, trimBlanks (value.getD [])) := by
  have hfree : ∀ c ∈ pre ++ name, decide (c ≠ 61) = true := by
    intro c hc
    rw [decide_eq_true_iff]
    obtain hc | hc := mem_append.mp hc
    · rintro rfl
      exact absurd (hpre _ hc) (by decide)
    · exact (hname c hc).2
  have hvalue : ∀ v : Option Bytes, (v.elim [] (61 :: ·)).takeWhile (· ≠ 61) = [] ∧
      ((v.elim [] (61 :: ·)).dropWhile (· ≠ 61)).drop 1 = v.getD [] := by
    intro v
    cases v <;> simp
  rw [splitPair, takeWhile_append_of_pos hfree, dropWhile_append_of_pos hfree, (hvalue value).1,
    (hvalue value).2, append_nil, trimBlanks_append hpre fun c hc => (hname c hc).1]

/-! ### The round trip -/

/-- The name of an attribute is plain, and its value can stand between semicolons. -/
def FlagOk (a : Bytes × Option Bytes) : Prop :=
  (∀ c ∈ a.1, isBlank c = false ∧ c ≠ 61 ∧ c ≠ 59 ∧ c ≠ 13 ∧ c ≠ 10) ∧ ∀ v ∈ a.2, CleanField v

theorem cleanField_of_plain {s : Bytes}
    (h : ∀ c ∈ s, isBlank c = false ∧ c ≠ 59 ∧ c ≠ 13 ∧ c ≠ 10) : CleanField s :=
  ⟨fun hc => (h _ hc).2.1 rfl, fun hc => (h _ hc).2.2.1 rfl, fun hc => (h _ hc).2.2.2 rfl,
    trimBlanks_eq_self fun c hc => (h c hc).1⟩

theorem flagOk_of_mem (hdomain : ∀ d ∈ c.domain, CleanField (stringAt d))
    (hpath : ∀ p ∈ c.path, CleanField (stringAt p)) : ∀ a ∈ cookieFlags c, FlagOk a := by
  have hdec : CleanField (dec c.maxAge.toNat) := cleanField_of_plain fun b hb => by
    have hdigit := dec_digit hb
    refine ⟨isBlank_of_mem_dec hb, ?_, ?_, ?_⟩ <;>
      · rintro rfl
        revert hdigit
        decide
  have hword : ∀ s ∈ ["Lax", "Strict", "None"], CleanField (bytes s) := by
    intro s hs
    refine cleanField_of_plain ?_
    revert s
    decide +kernel
  have hname : ∀ s ∈ ["Domain", "Path", "Max-Age", "SameSite", "Secure", "HttpOnly"],
      ∀ c ∈ bytes s, isBlank c = false ∧ c ≠ 61 ∧ c ≠ 59 ∧ c ≠ 13 ∧ c ≠ 10 := by
    decide +kernel
  intro a ha
  simp only [cookieFlags, mem_append, Option.mem_toList, Option.map_eq_some_iff] at ha
  obtain ((((⟨d, hd, rfl⟩ | ⟨p, hp, rfl⟩) | ha) | ha) | ha) | ha := ha
  · exact ⟨hname "Domain" (by decide), by rintro _ ⟨⟩; exact hdomain d hd⟩
  · exact ⟨hname "Path" (by decide), by rintro _ ⟨⟩; exact hpath p hp⟩
  · split at ha
    · rw [mem_singleton.mp ha]
      exact ⟨hname "Max-Age" (by decide), by rintro _ ⟨⟩; exact hdec⟩
    · cases ha
  · cases hs : c.sameSite <;> rw [hs] at ha
    · cases ha
    all_goals
      rw [sameSiteAttr, mem_singleton] at ha
      subst ha
      exact ⟨hname "SameSite" (by decide), by rintro _ ⟨⟩; exact hword _ (by decide)⟩
  · split at ha
    · rw [mem_singleton.mp ha]
      exact ⟨hname "Secure" (by decide), by rintro _ ⟨⟩⟩
    · cases ha
  · split at ha
    · rw [mem_singleton.mp ha]
      exact ⟨hname "HttpOnly" (by decide), by rintro _ ⟨⟩⟩
    · cases ha

theorem notMem_flagText {b : UInt8} (hname : b ∉ a.1) (hvalue : ∀ v ∈ a.2, b ∉ v)
    (hb : b ≠ 32 ∧ b ≠ 61) : b ∉ flagText a := by
  obtain ⟨name, value⟩ := a
  cases value with
  | none => simpa [flagText, hb.1] using hname
  | some v => simpa [flagText, hb] using ⟨hname, hvalue v rfl⟩

theorem FlagOk.flagText_free (h : FlagOk a) : 59 ∉ flagText a ∧ 13 ∉ flagText a ∧ 10 ∉ flagText a :=
  ⟨notMem_flagText (fun hc => (h.1 _ hc).2.2.1 rfl) (fun v hv => (h.2 v hv).1) (by decide),
    notMem_flagText (fun hc => (h.1 _ hc).2.2.2.1 rfl) (fun v hv => (h.2 v hv).2.1) (by decide),
    notMem_flagText (fun hc => (h.1 _ hc).2.2.2.2 rfl) (fun v hv => (h.2 v hv).2.2.1) (by decide)⟩

theorem FlagOk.splitPair_flagText (h : FlagOk a) : splitPair (flagText a) = (a.1, a.2.getD []) := by
  have hsplit := splitPair_eq [32] a.2 (by decide +kernel) fun c hc => ⟨(h.1 c hc).1, (h.1 c hc).2.1⟩
  rw [flagText, ← singleton_append, hsplit]
  congr 1
  cases hv : a.2 with
  | none => rfl
  | some v => exact (h.2 v hv).2.2.2

theorem cookieSerialize_eq {size : ℕ} (h : cookieSerialize c size = .ok text) :
    cookieValidateName c.name = true ∧
    text = [59].intercalate ((stringAt c.name ++ 61 :: stringAt c.value) :: (cookieFlags c).map
      flagText) := by
  rw [← cookiePieces_flatten]
  rw [cookieSerialize] at h
  split_ifs at h with hsize hname
  refine ⟨hname, ?_⟩
  rw [foldlM_put _ _ (Nat.pos_of_ne_zero hsize)] at h
  split_ifs at h
  exact (Except.ok.inj h).symm

theorem cookieValidateName_spec (h : cookieValidateName name = true) :
    stringAt name ≠ [] ∧ ∀ c ∈ stringAt name, isBlank c = false ∧ c ≠ 61 ∧ c ≠ 59 ∧ c ≠ 13 ∧ c ≠ 10 := by
  obtain ⟨hne, hlen, hany⟩ : strn 257 name ≠ [] ∧ (strn 257 name).length ≤ 256 ∧
      ¬(strn 257 name).any cookieNameReject := by simpa [cookieValidateName] using h
  have hall : strn 257 name = stringAt name := by
    rw [strn] at hlen ⊢
    rw [stringAt]
    obtain hshort | hlong := Nat.lt_or_ge 257 name.length
    · conv_rhs => rw [← take_append_drop 257 name, takeWhile_append]
      rw [if_neg]
      rw [length_take]
      omega
    · rw [take_of_length_le hlong]
  rw [hall] at hne hany
  refine ⟨hne, fun c hc => ?_⟩
  have hok : cookieNameReject c = false := by
    rw [Bool.eq_false_iff]
    exact fun hbad => hany (any_eq_true.mpr ⟨c, hc, hbad⟩)
  simp only [cookieNameReject, decide_eq_false_iff_not, not_or] at hok
  obtain ⟨hctl, -, heq, hsemi, hsp, hht⟩ := hok
  refine ⟨?_, heq, hsemi, ?_, ?_⟩
  · simp [isBlank, hsp, hht]
  · rintro rfl
    exact hctl (by decide)
  · rintro rfl
    exact hctl (by decide)

/-- **When `Set-Cookie` says what was asked**: for every cookie that is serialized, a client
reads its name, its value and exactly its attributes, and the text is one line, if and only if
the value, the domain and the path hold no semicolon, CR or LF and neither begin nor end with
a blank. -/
theorem set_cookie_faithful_iff {c : Cookie} {size : ℕ} {text : Bytes}
    (h : cookieSerialize c size = .ok text) :
    SaysWhatWasAsked c text ↔ CleanField (stringAt c.value) ∧ (∀ d ∈ c.domain, CleanField (stringAt d)) ∧
      ∀ p ∈ c.path, CleanField (stringAt p) := by
  obtain ⟨hname, htext⟩ := cookieSerialize_eq h
  obtain ⟨hne, hplain⟩ := cookieValidateName_spec hname
  constructor
  · rintro ⟨hread, hcr, hlf⟩
    obtain ⟨hvalue, hattrs⟩ := readSetCookie_clean hread
    -- what is in the text has no end of a line in it
    have hline : ∀ s : Bytes, s ⊆ text → 59 ∉ s ∧ trimBlanks s = s → CleanField s :=
      fun s hs h => ⟨h.1, fun hc => hcr (hs hc), fun hc => hlf (hs hc), h.2⟩
    have hflag : ∀ name v, (name, some v) ∈ cookieFlags c → CleanField v := by
      intro name v hmem
      refine hline v ?_ (hattrs _ (mem_map.mpr ⟨_, hmem, rfl⟩))
      rw [htext, intercalate_semicolon]
      intro b hb
      refine mem_append_right _ (mem_flatMap.mpr ⟨_, mem_map_of_mem hmem, ?_⟩)
      simp [flagText, hb]
    refine ⟨hline _ ?_ hvalue, fun d hd => hflag (bytes "Domain") _ ?_, fun p hp =>
      hflag (bytes "Path") _ ?_⟩
    · rw [htext, intercalate_semicolon]
      intro b hb
      simp [hb]
    · rw [Option.mem_def] at hd
      simp [cookieFlags, hd]
    · rw [Option.mem_def] at hp
      simp [cookieFlags, hp]
  · rintro ⟨hvalue, hdomain, hpath⟩
    have hflags := flagOk_of_mem hdomain hpath
    have hpair : FlagOk (stringAt c.name, some (stringAt c.value)) :=
      ⟨hplain, by rintro _ ⟨⟩; exact hvalue⟩
    -- no part holds a semicolon or the end of a line
    have hparts : ∀ part ∈ (stringAt c.name ++ 61 :: stringAt c.value) :: (cookieFlags c).map flagText,
        59 ∉ part ∧ 13 ∉ part ∧ 10 ∉ part := by
      intro part hpart
      obtain rfl | hpart := mem_cons.mp hpart
      · have hfree := hpair.flagText_free
        simpa [flagText] using hfree
      · obtain ⟨a, ha, rfl⟩ := mem_map.mp hpart
        exact (hflags a ha).flagText_free
    have hsplit := splitOn_intercalate 59 (fun part hpart => (hparts part hpart).1) (cons_ne_nil _ _)
    have hread : splitPair (stringAt c.name ++ 61 :: stringAt c.value) =
        (stringAt c.name, stringAt c.value) := by
      have heq := splitPair_eq [] (some (stringAt c.value)) (by simp) fun b hb =>
        ⟨(hplain b hb).1, (hplain b hb).2.1⟩
      rwa [nil_append, Option.getD_some, hvalue.2.2.2] at heq
    have hline : ∀ b : UInt8, b ≠ 59 → (∀ part ∈ (stringAt c.name ++ 61 :: stringAt c.value) ::
        (cookieFlags c).map flagText, b ∉ part) → b ∉ text := by
      intro b hb hfree hmem
      rw [htext, intercalate_semicolon, mem_append, mem_flatMap] at hmem
      obtain hmem | ⟨part, hpart, hmem⟩ := hmem
      · exact hfree _ mem_cons_self hmem
      · exact hfree _ (mem_cons_of_mem _ hpart) ((mem_cons.mp hmem).resolve_left hb)
    refine ⟨?_, hline 13 (by decide) fun part hpart => (hparts part hpart).2.1,
      hline 10 (by decide) fun part hpart => (hparts part hpart).2.2⟩
    rw [readSetCookie, htext, hsplit]
    dsimp only
    rw [if_pos ⟨by simp, by rw [hread]; exact hne⟩, hread, map_map, cookieAttrs]
    congr 2
    exact map_congr_left fun a ha => (hflags a ha).splitPair_flagText

theorem set_cookie_faithful_session :
    SaysWhatWasAsked ⟨bytes "sid", bytes "31d4", none, some (bytes "/"), -1, .lax, true, true⟩
      (bytes "sid=31d4; Path=/; SameSite=Lax; Secure; HttpOnly") := by
  have hser :
    cookieSerialize ⟨bytes "sid", bytes "31d4", none, some (bytes "/"), -1, .lax, true, true⟩ 512 =
      .ok (bytes "sid=31d4; Path=/; SameSite=Lax; Secure; HttpOnly") := by
    rfl
  refine (set_cookie_faithful_iff hser).mpr ⟨by decide +kernel, ?_, ?_⟩
  · decide +kernel
  · decide +kernel

/-- A value with a semicolon: the client reads a domain that was not asked for. -/
theorem set_cookie_injects :
    (cookieSerialize ⟨bytes "sid", bytes "1; Domain=x", none, none, -1, .default, false, false⟩
      512).toOption.bind
      readSetCookie = some ⟨bytes "sid", bytes "1", [(bytes "Domain", bytes "x")]⟩ := by
  decide +kernel

end Iohttp
