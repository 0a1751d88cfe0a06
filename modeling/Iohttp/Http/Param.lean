/-
# Unsigned path parameters

`ioh_request_param_u64` of `src/http/ioh_request.c`: a captured parameter as an
unsigned number. The value is not terminated, so `strtoull` may read on behind
it. The check for a minus sign skips spaces only, while `strtoull` skips every
white space, and negates modulo `2 ^ 64`: a sign behind a tab gets through.
-/
import Iohttp.Static.Serve
import Iohttp.Router.Router

namespace Iohttp

open List

/-- `ERANGE`. -/
abbrev ERANGE : ℤ := 34

/-- The white space of `strtoull`. -/
def isSpace (c : UInt8) : Bool := c = 32 ∨ (9 ≤ c ∧ c ≤ 13)

def isDigit (c : UInt8) : Bool := 48 ≤ c ∧ c ≤ 57

/-- The number that digits stand for. -/
def digitsValue (digits : Bytes) : ℕ := digits.foldl (fun n c => 10 * n + (c.toNat - 48)) 0

/-- What `strtoull` reads: a minus sign or not, the digits, and what is behind. -/
def numeral (p : Bytes) : Bool × Bytes × Bytes :=
  let p := p.dropWhile isSpace
  let negative : Bool := p.head? = some 45
  let p := if negative ∨ p.head? = some 43 then p.tail else p
  (negative, p.takeWhile isDigit, p.dropWhile isDigit)

/-- `ioh_request_param_u64`, where `behind` is the memory behind the value. -/
def requestParamU64 (params : List Radix.Param) (name behind : Bytes) : Except ℤ ℕ :=
  match params.find? fun p => p.name = strn maxUriSize name with
  | none => .error (-EINVAL)
  | some p =>
    if p.value = [] then .error (-EINVAL)
    else if (p.value.dropWhile (· = 32)).head? = some 45 then .error (-EINVAL)
    else if 2 ^ 64 ≤ digitsValue (numeral (p.value ++ behind)).2.1 then .error (-ERANGE)
    else
      match strtoul (p.value ++ behind) with
      | some (value, rest) => if rest.length = behind.length then .ok value else .error (-EINVAL)
      | none => .error (-EINVAL)

/-- The value is white space, a plus sign or none, and the digits of `n`. -/
def Written (value : Bytes) (n : ℕ) : Prop :=
  ∃ space sign digits, value = space ++ sign ++ digits ∧ (∀ c ∈ space, isSpace c = true) ∧
    (sign = [] ∨ sign = [43]) ∧ digits ≠ [] ∧ (∀ c ∈ digits, isDigit c = true) ∧
    n = digitsValue digits ∧ n < 2 ^ 64

/-- A minus sign behind white space that is not spaces only, and digits that end
with the value. -/
def NegativeSlip (value behind : Bytes) : Prop :=
  ∃ space digits, value = space ++ 45 :: digits ∧ (∀ c ∈ space, isSpace c = true) ∧
  (∃ c ∈ space, c ≠ 32) ∧
    digits ≠ [] ∧ (∀ c ∈ digits, isDigit c = true) ∧ digitsValue digits < 2 ^ 64 ∧
    ∀ c ∈ behind.head?, isDigit c = false

/-- The value that `strtoull` gives for a sign and digits. -/
def signedValue (negative : Bool) (digits : Bytes) : ℕ :=
  if 2 ^ 64 ≤ digitsValue digits then 2 ^ 64 - 1
  else if negative then (2 ^ 64 - digitsValue digits) % 2 ^ 64
  else digitsValue digits

theorem strtoul_eq (p : Bytes) :
    strtoul p = if (numeral p).2.1 = [] then none else
      some (signedValue (numeral p).1 (numeral p).2.1, (numeral p).2.2) := by
  have hdrop (q : Bytes) : q.drop (q.takeWhile isDigit).length = q.dropWhile isDigit := by
    calc q.drop (q.takeWhile isDigit).length
        = (q.takeWhile isDigit ++ q.dropWhile isDigit).drop (q.takeWhile isDigit).length := by
          rw [takeWhile_append_dropWhile]
      _ = q.dropWhile isDigit := drop_left
  simp only [numeral, signedValue, ← hdrop, decide_eq_true_eq]
  rfl

theorem numeral_split (p : Bytes) :
    ∃ space sign, p = space ++ sign ++ (numeral p).2.1 ++ (numeral p).2.2 ∧
    (∀ c ∈ space, isSpace c = true) ∧ (∀ c ∈ (numeral p).2.1, isDigit c = true) ∧
    ((numeral p).1 = true ∧ sign = [45] ∨ (numeral p).1 = false ∧ (sign = [] ∨ sign = [43])) := by
  have hp := (takeWhile_append_dropWhile (p := isSpace) (l := p)).symm
  have hspace : ∀ c ∈ p.takeWhile isSpace, isSpace c = true := fun c hc => mem_takeWhile_imp hc
  have hdigits (q : Bytes) : ∀ c ∈ q.takeWhile isDigit, isDigit c = true :=
    fun c hc => mem_takeWhile_imp hc
  unfold numeral
  generalize p.dropWhile isSpace = q at hp ⊢
  dsimp only
  by_cases hsign : q.head? = some 45 ∨ q.head? = some 43
  · obtain ⟨c, q', rfl⟩ := exists_cons_of_ne_nil (show q ≠ [] by rintro rfl; simp at hsign)
    simp only [head?_cons, Option.some.injEq, decide_eq_true_eq] at hsign ⊢
    rw [if_pos hsign, tail_cons]
    refine ⟨p.takeWhile isSpace, [c], ?_, hspace, hdigits q', ?_⟩
    · rw [append_assoc _ (takeWhile _ _), takeWhile_append_dropWhile, append_assoc]
      exact hp
    · rcases hsign with rfl | rfl
      · exact .inl ⟨rfl, rfl⟩
      · exact .inr ⟨rfl, .inr rfl⟩
  · simp only [decide_eq_true_eq]
    rw [if_neg hsign]
    refine ⟨p.takeWhile isSpace, [], ?_, hspace, hdigits q, .inr ⟨?_, .inl rfl⟩⟩
    · rw [append_nil, append_assoc, takeWhile_append_dropWhile]
      exact hp
    · exact decide_eq_false fun h => hsign (.inl h)

theorem numeral_negative {space digits behind : Bytes} (hs : ∀ c ∈ space, isSpace c = true)
    (hd : ∀ c ∈ digits, isDigit c = true) (hb : ∀ c ∈ behind.head?, isDigit c = false) :
    numeral (space ++ 45 :: digits ++ behind) = (true, digits, behind) := by
  have hskip : (space ++ 45 :: digits ++ behind).dropWhile isSpace = 45 :: (digits ++ behind) := by
    rw [append_assoc, dropWhile_append_of_pos hs, cons_append, dropWhile_cons_of_neg (by decide)]
  have hend : behind.takeWhile isDigit = [] ∧ behind.dropWhile isDigit = behind := by
    cases behind with
    | nil => simp
    | cons c behind => simp [hb c rfl]
  unfold numeral
  rw [hskip]
  simp [takeWhile_append_of_pos hd, dropWhile_append_of_pos hd, hend.1, hend.2]

theorem Written.no_sign {value : Bytes} {n : ℕ} (h : Written value n) : 45 ∉ value := by
  obtain ⟨space, sign, digits, rfl, hs, hsign, -, hd, -⟩ := h
  simp only [mem_append, not_or]
  refine ⟨⟨fun h => absurd (hs 45 h) (by decide), ?_⟩, fun h => absurd (hd 45 h) (by decide)⟩
  rcases hsign with rfl | rfl <;> decide

/-- What the check for a minus sign finds behind white space. -/
theorem check_iff {space : Bytes} (hs : ∀ c ∈ space, isSpace c = true) (rest : Bytes) :
    ((space ++ 45 :: rest).dropWhile (· = 32)).head? = some 45 ↔ ∀ c ∈ space, c = 32 := by
  constructor
  · intro h
    by_contra hno
    have hne : space.dropWhile (· = 32) ≠ [] := fun he => hno (by simpa [dropWhile_eq_nil_iff] using he)
    obtain ⟨a, x, hx⟩ := exists_cons_of_ne_nil hne
    have ha : a ∈ space := (dropWhile_suffix _).subset (hx ▸ mem_cons_self)
    rw [dropWhile_append, hx] at h
    simp only [isEmpty_cons, Bool.false_eq_true, if_false, cons_append, head?_cons,
      Option.some.injEq] at h
    exact absurd (h ▸ hs a ha) (by decide)
  · intro h
    rw [dropWhile_append_of_pos (by simpa using h), dropWhile_cons_of_neg (by decide)]
    rfl

theorem numeral_rest (p : Bytes) : ∀ c ∈ (numeral p).2.2.head?, isDigit c = false := by
  intro c hc
  have h := head?_dropWhile_not isDigit (if (p.dropWhile isSpace).head? = some 45 ∨
    (p.dropWhile isSpace).head? = some 43 then (p.dropWhile isSpace).tail else p.dropWhile isSpace)
  unfold numeral at hc
  simp only [decide_eq_true_eq] at hc
  rw [Option.mem_def.mp hc] at h
  simpa using h

/-- **Unsigned parameters are what was written**, exactly if no minus sign slips
through behind another white space than a space. -/
theorem param_written_iff {params : List Radix.Param} {name : Bytes} {p : Radix.Param} (behind : Bytes)
    (hp : (params.find? fun p => p.name = strn maxUriSize name) = some p) :
    (∀ v, requestParamU64 params name behind = .ok v → Written p.value v) ↔
    ¬NegativeSlip p.value behind := by
  unfold requestParamU64
  simp only [hp, strtoul_eq]
  constructor
  · rintro h ⟨space, digits, hv, hs, ⟨c, hc, hne⟩, hd0, hd, hn, hb⟩
    have hnum := numeral_negative hs hd hb
    rw [← hv] at hnum
    have hcheck : ¬(p.value.dropWhile (· = 32)).head? = some 45 := by
      rw [hv, check_iff hs]
      exact fun h => hne (h c hc)
    simp only [hnum] at h
    rw [if_neg (by simp [hv]), if_neg hcheck, if_neg (not_le.mpr hn), if_neg hd0] at h
    exact (h _ (if_pos rfl)).no_sign (by simp [hv])
  · intro hslip v hv
    obtain ⟨space, sign, hparts, hs, hd, hsign⟩ := numeral_split (p.value ++ behind)
    have hrest := numeral_rest (p.value ++ behind)
    generalize numeral (p.value ++ behind) = num at hv hparts hd hsign hrest
    obtain ⟨negative, digits, rest⟩ := num
    split_ifs at hv with h0 hcheck hrange hd0
    simp only at hv hparts hd hsign hrest
    split_ifs at hv with hlen
    cases hv
    -- the digits end with the value
    obtain ⟨hvalue, rfl⟩ := append_inj' hparts hlen.symm
    rw [not_le] at hrange
    rcases hsign with ⟨rfl, rfl⟩ | ⟨rfl, hsign⟩
    · rw [append_assoc, singleton_append] at hvalue
      rw [hvalue, check_iff hs] at hcheck
      push Not at hcheck
      exact absurd ⟨space, digits, hvalue, hs, hcheck, hd0, hd, hrange, hrest⟩ hslip
    · refine ⟨space, sign, digits, hvalue, hs, hsign, hd0, hd, ?_, ?_⟩
      all_goals rw [signedValue, if_neg (not_le.mpr hrange)]
      · rfl
      · exact hrange

/-- The values `7` and a tab with `-5`, in front of a slash. -/
def twoParams : List Radix.Param := [⟨bytes "id", bytes "7"⟩, ⟨bytes "n", bytes "\t-5"⟩]

theorem param_written_seven :
    requestParamU64 twoParams (bytes "id") (bytes "/") = .ok 7 ∧ Written (bytes "7") 7 := by
  have hvalue : requestParamU64 twoParams (bytes "id") (bytes "/") = .ok 7 := by decide +kernel
  refine ⟨hvalue, (param_written_iff (p := ⟨bytes "id", bytes "7"⟩) (bytes "/")
    (by decide +kernel)).mpr ?_ 7 hvalue⟩
  rintro ⟨space, digits, hv, -⟩
  have hminus : 45 ∈ space ++ 45 :: digits := by simp
  rw [← hv] at hminus
  exact absurd hminus (by decide +kernel)

/-- A minus sign behind a tab is accepted. -/
theorem param_tab_minus_five :
    requestParamU64 twoParams (bytes "n") (bytes "/") = .ok (2 ^ 64 - 5) ∧ 45 ∈ bytes "\t-5" := by
  decide +kernel

end Iohttp
