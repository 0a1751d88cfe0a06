/-
# The negotiation of a coding

`ioh_compress_negotiate` reads a valid `Accept-Encoding` as the list it is: a round of
its loop takes the next coding with its weight, whatever spaces, tabs and empty
elements are around, and a coding that is not named takes the weight of the
star. What it returns follows the weights, brotli before gzip where they are
equal.
-/
import Iohttp.Lib.Weighted
import Iohttp.Static.Compress
import Mathlib.Data.FinEnum

namespace Iohttp

open List

open Weighted (ows ows_nil Qvalue Weight Elem Item listText elems joined)

variable {strtod : Bytes → Double} {s t : Bytes}

/-- `strtod` reads every weight as the number it writes. Tabs may stand behind it in
the buffer. -/
def ReadsWeights (strtod : Bytes → Double) : Prop :=
  ∀ (q : Qvalue) (k : ℕ), strtod (q.text ++ List.replicate k 9) = .finite q.value

theorem isSpaceOrTab_eq : isSpaceOrTab = ows := rfl

/-! ### A round of the loop -/

/-- What is behind an item starts with a comma, if there is anything. -/
def BehindItem (s : Bytes) : Prop := ∀ c ∈ s.head?, c = 44

theorem dropWhile_ows (hs : ∀ c ∈ s, ows c = true) (ht : ∀ c ∈ t.head?, ows c = false) :
    (s ++ t).dropWhile isSpaceOrTab = t := by
  rw [isSpaceOrTab_eq, dropWhile_append_of_pos hs]
  cases t with
  | nil => rfl
  | cons c t => rw [dropWhile_cons_of_neg (by simp [ht c rfl])]

theorem BehindItem.ows (h : BehindItem t) : ∀ c ∈ t.head?, Weighted.ows c = false := fun c hc => by
  rw [h c hc]
  rfl

theorem BehindItem.dropWhile (h : BehindItem t) (hs : ∀ c ∈ s, c ≠ 44) :
    (s ++ t).dropWhile (· ≠ 44) = t := by
  rw [dropWhile_append_of_pos (by simpa using hs)]
  cases t with
  | nil => rfl
  | cons c t => rw [dropWhile_cons_of_neg (by simp [h c rfl])]

theorem takeWhile_trail (ht : BehindItem t) : ∀ {s : Bytes} (n : ℕ), (∀ c ∈ s, ows c = true) →
    ∃ k, ((s ++ t).take n).takeWhile (fun c => c ≠ 44 ∧ c ≠ 32) = List.replicate k 9
  | _, 0, _ => ⟨0, rfl⟩
  | [], n + 1, _ => by
    refine ⟨0, ?_⟩
    cases t with
    | nil => rfl
    | cons c t => simp [ht c rfl]
  | c :: s, n + 1, hs => by
    rcases Weighted.ows_cases (hs c mem_cons_self) with rfl | rfl
    · exact ⟨0, by simp⟩
    · obtain ⟨k, hk⟩ := takeWhile_trail ht n (forall_mem_cons.mp hs).2
      refine ⟨k + 1, ?_⟩
      rw [cons_append, take_succ_cons, takeWhile_cons_of_pos (by decide), hk, replicate_succ]

theorem parseWeight_text (w : Weight) (x : Bytes) :
    parseWeight strtod (w.text ++ x) =
      (strtod (((w.q.text ++ x).take 15).takeWhile fun c => c ≠ 44 ∧ c ≠ 32),
        (w.q.text ++ x).drop (((w.q.text ++ x).take 15).takeWhile fun c => c ≠ 44 ∧ c ≠ 32).length) := by
  have htext : w.text ++ x =
      w.before ++ 59 :: (w.after ++ (if w.capital then 81 else 113) :: 61 :: (w.q.text ++ x)) := by
    simp [Weight.text]
  rw [parseWeight, htext, dropWhile_ows w.before_ows (by simp [ows])]
  split
  next _ after hafter =>
    obtain rfl := (List.cons.inj hafter).2
    rw [dropWhile_ows w.after_ows (by cases w.capital <;> simp [ows]),
      if_pos (by cases w.capital <;> simp)]
    simp only [drop_succ_cons, drop_zero, Nat.add_comm 2]
  next hne => exact absurd rfl (hne _)

theorem parseWeight_some (hread : ReadsWeights strtod) (w : Weight) (hs : ∀ c ∈ s, ows c = true)
    (ht : BehindItem t) :
    (parseWeight strtod (w.text ++ (s ++ t))).1 = .finite w.q.value ∧
      (parseWeight strtod (w.text ++ (s ++ t))).2.dropWhile (· ≠ 44) = t := by
  have hq : ∀ c ∈ w.q.text, decide (c ≠ 44 ∧ c ≠ 32) = true := fun c hc => by
    have hle := (Qvalue.mem_text hc).1
    refine decide_eq_true ⟨?_, ?_⟩ <;> rintro rfl <;> exact absurd hle (by decide)
  have hlen := w.q.length_text
  obtain ⟨k, hk⟩ := takeWhile_trail ht (15 - w.q.text.length) hs
  -- the buffer holds the weight and the tabs behind it
  have hbuf : ((w.q.text ++ (s ++ t)).take 15).takeWhile (fun c => c ≠ 44 ∧ c ≠ 32) =
      w.q.text ++ List.replicate k 9 := by
    rw [take_append, take_of_length_le (by omega), takeWhile_append_of_pos hq, hk]
  obtain ⟨r, hr⟩ : List.replicate k 9 <+: s ++ t := by
    rw [← hk]
    exact takeWhile_prefix _ |>.trans <| take_prefix _ _
  have hrest : r.dropWhile (· ≠ 44) = t := by
    rw [← ht.dropWhile fun c hc => (Weighted.inner_of_ows (hs c hc)).1, ← hr,
      dropWhile_append_of_pos (by simp)]
  rw [parseWeight_text, hbuf]
  refine ⟨hread w.q k, ?_⟩
  rw [← hr, ← append_assoc, drop_left]
  exact hrest

theorem parseWeight_none (hs : ∀ c ∈ s, ows c = true) (ht : BehindItem t) :
    parseWeight strtod (s ++ t) = (.finite 1, t) := by
  rw [parseWeight, dropWhile_ows hs ht.ows]
  split
  next => exact absurd (ht 59 rfl) (by decide)
  next => rfl

theorem head?_ows {c : UInt8} (hs : ∀ c ∈ s, ows c = true) (hc : c ∈ (s ++ t).head?) :
    ows c = true ∨ c ∈ t.head? := by
  cases s with
  | nil => exact .inr hc
  | cons d s =>
    obtain rfl : d = c := by simpa using hc
    exact .inl (hs d mem_cons_self)

theorem stops_behind_name {c : UInt8} (weight : Option Weight) (hs : ∀ c ∈ s, ows c = true)
    (ht : BehindItem t) (hc : c ∈ (weight.elim [] Weight.text ++ (s ++ t)).head?) :
    (isSpaceOrTab c || c = 44 || c = 59) = true := by
  cases weight with
  | none =>
    rcases head?_ows hs hc with h | h
    · simp [isSpaceOrTab_eq, h]
    · simp [ht c h]
  | some w =>
    rw [Option.elim_some, Weight.text, append_assoc, append_assoc] at hc
    rcases head?_ows w.before_ows hc with h | h
    · simp [isSpaceOrTab_eq, h]
    · obtain rfl : 59 = c := by simpa using h
      rfl

/-- **A round of the loop takes an element**: its name, its weight, and what is behind its
item. -/
theorem parseEncodingToken_item (hread : ReadsWeights strtod) {i : Item} {e : Elem}
    (he : i.elem = some e) (ht : BehindItem t) :
    parseEncodingToken strtod (44 :: (i.text ++ t)) = some (e.name, .finite e.value, t) := by
  have htext : 44 :: (i.text ++ t) = (44 :: i.lead) ++
      (e.name ++ (e.weight.elim [] Weight.text ++ (i.trail ++ t))) := by
    simp [Item.text, he, Elem.text]
  have hlead : ∀ c ∈ 44 :: i.lead, (isSpaceOrTab c || decide (c = 44)) = true := by
    simp only [mem_cons, forall_eq_or_imp]
    exact ⟨by decide, fun c hc => by simp [isSpaceOrTab_eq, i.lead_ows c hc]⟩
  have hskip : (44 :: (i.text ++ t)).dropWhile (fun c => isSpaceOrTab c || decide (c = 44)) =
      e.name ++ (e.weight.elim [] Weight.text ++ (i.trail ++ t)) := by
    rw [htext, dropWhile_append_of_pos hlead]
    obtain ⟨c, name, hname⟩ := exists_cons_of_ne_nil e.name_ne
    have hc := e.name_ok c (by simp [hname])
    rw [hname, cons_append, dropWhile_cons_of_neg (by simp [isSpaceOrTab_eq, hc])]
  have htoken : (e.name ++ (e.weight.elim [] Weight.text ++ (i.trail ++ t))).takeWhile
      (fun c => !(isSpaceOrTab c || decide (c = 44) || decide (c = 59))) = e.name := by
    rw [takeWhile_append_of_pos fun c hc => by simp [isSpaceOrTab_eq, e.name_ok c hc]]
    have hstop := fun c => stops_behind_name (c := c) e.weight i.trail_ows ht
    cases hx : e.weight.elim [] Weight.text ++ (i.trail ++ t) with
    | nil => simp
    | cons c x => rw [takeWhile_cons_of_neg (by simp [hstop c (by simp [hx])]), append_nil]
  rw [parseEncodingToken, hskip, htoken, drop_left, if_neg e.name_ne]
  cases hw : e.weight with
  | none =>
    rw [Option.elim_none, nil_append, parseWeight_none i.trail_ows ht, Elem.value, hw]
    simp only [Option.elim_none, Option.some.injEq, Prod.mk.injEq, true_and]
    exact ht.dropWhile (s := []) (by simp)
  | some w =>
    obtain ⟨hvalue, hrest⟩ := parseWeight_some hread w i.trail_ows ht
    rw [Option.elim_some, hvalue, hrest, Elem.value, hw, Option.elim_some]

theorem negotiateLoop_skip (hs : ∀ c ∈ s, (isSpaceOrTab c || decide (c = 44)) = true) (fuel : ℕ)
    (w : Weights) : negotiateLoop strtod fuel (s ++ t) w = negotiateLoop strtod fuel t w := by
  have hparse : parseEncodingToken strtod (s ++ t) = parseEncodingToken strtod t := by
    rw [parseEncodingToken, dropWhile_append_of_pos hs]
    rfl
  cases fuel with
  | zero => rfl
  | succ fuel => rw [negotiateLoop, negotiateLoop, hparse]

theorem skips_empty {i : Item} (he : i.elem = none) :
    ∀ c ∈ 44 :: i.text, (isSpaceOrTab c || decide (c = 44)) = true := by
  simp only [Item.text, he, Option.elim_none, append_nil, mem_cons, mem_append, forall_eq_or_imp]
  refine ⟨by decide, ?_⟩
  rintro c (hc | hc)
  · simp [isSpaceOrTab_eq, i.lead_ows c hc]
  · simp [isSpaceOrTab_eq, i.trail_ows c hc]

/-- **The loop notes every element of the list.** -/
theorem negotiateLoop_joined (hread : ReadsWeights strtod) :
    ∀ (items : List Item) (fuel : ℕ) (w : Weights),
    (elems items).length ≤ fuel →
    negotiateLoop strtod fuel (joined items) w =
      (elems items).foldl (fun w e => w.note e.name (.finite e.value)) w
  | [], 0, w, _ | [], fuel + 1, w, _ => rfl
  | i :: items, fuel, w, hfuel => by
    rw [Weighted.joined_cons]
    cases he : i.elem with
    | none =>
      have helems : elems (i :: items) = elems items := by simp [elems, he]
      rw [helems] at hfuel ⊢
      rw [← cons_append, negotiateLoop_skip (skips_empty he), negotiateLoop_joined hread items fuel
        w hfuel]
    | some e =>
      have helems : elems (i :: items) = e :: elems items := by simp [elems, he]
      rw [helems] at hfuel ⊢
      cases fuel with
      | zero => simp at hfuel
      | succ fuel =>
        rw [negotiateLoop, parseEncodingToken_item hread he fun c => Weighted.head?_joined]
        exact negotiateLoop_joined hread items fuel _ (by simpa using hfuel)

/-! ### The weights -/

/-- An element of this name, in any case of the letters. -/
def named (name : Bytes) (e : Elem) : Bool := eqIgnoreCase e.name name

/-- The weight of a coding: that of the element of its name, else that of the star,
else none. -/
def codingWeight (es : List Elem) (name : Bytes) : ℚ :=
  match es.find? (named name), es.find? (named (bytes "*")) with
  | some e, _ | none, some e => e.value
  | none, none => 0

/-- Each coding is named at most once. -/
def Distinct (es : List Elem) : Prop := es.Pairwise fun e e' => eqIgnoreCase e.name e'.name = false
  deriving Decidable

theorem codingWeight_nonneg (es : List Elem) (name : Bytes) : 0 ≤ codingWeight es name := by
  unfold codingWeight
  split
  · exact Elem.value_nonneg _
  · exact Elem.value_nonneg _
  · exact le_rfl

variable {get : Weights → Double} {name : Bytes} {items : List Item}

theorem foldl_note
    (hget : ∀ w token q, get (w.note token q) = if eqIgnoreCase token name then q else get w) :
    ∀ (es : List Elem), Distinct es → ∀ w,
    get (es.foldl (fun w e => w.note e.name (.finite e.value)) w) =
      (es.find? (named name)).elim (get w) fun e => .finite e.value
  | [], _, _ => rfl
  | e :: es, hd, w => by
    obtain ⟨hfirst, hrest⟩ := pairwise_cons.mp hd
    rw [foldl_cons, foldl_note hget es hrest, hget]
    by_cases hn : named name e = true
    · have hnone : es.find? (named name) = none := by
        rw [find?_eq_none]
        intro e' he' hn'
        have hsame : eqIgnoreCase e.name e'.name = true := by
          simp only [named, eqIgnoreCase, beq_iff_eq] at hn hn' ⊢
          rw [hn, hn']
        rw [hfirst e' he'] at hsame
        cases hsame
      rw [hnone, find?_cons_of_pos hn]
      exact if_pos hn
    · rw [show (if eqIgnoreCase e.name name = true then _ else get w) = get w from if_neg hn,
        find?_cons_of_neg hn]

theorem gzip_note (w : Weights) (token : Bytes) (q : Double) :
    (w.note token q).gzip = if eqIgnoreCase token (bytes "gzip") then q else w.gzip := by
  unfold Weights.note
  split_ifs <;> rfl

theorem br_note (w : Weights) (token : Bytes) (q : Double) :
    (w.note token q).br = if eqIgnoreCase token (bytes "br") then q else w.br := by
  unfold Weights.note
  by_cases hgzip : eqIgnoreCase token (bytes "gzip") = true
  · have hbr : ¬eqIgnoreCase token (bytes "br") = true := by
      simp only [eqIgnoreCase, beq_iff_eq] at hgzip ⊢
      rw [hgzip]
      decide +kernel
    rw [if_pos hgzip, if_neg hbr]
  · rw [if_neg hgzip]
    split_ifs <;> rfl

theorem eqIgnoreCase_star {token : Bytes} : eqIgnoreCase token (bytes "*") = true ↔ token = [42] := by
  have hlower : ∀ c : UInt8, lower c = 42 ↔ c = 42 := fun c =>
    ⟨eq_of_lower_eq (by decide), fun h => by rw [h]; rfl⟩
  rw [eqIgnoreCase, beq_iff_eq, show (bytes "*").map lower =
    [42] by decide +kernel, map_eq_singleton_iff]
  simp [hlower]

theorem star_note (w : Weights) (token : Bytes) (q : Double) :
    (w.note token q).star = if eqIgnoreCase token (bytes "*") then q else w.star := by
  unfold Weights.note
  by_cases hstar : token = [42]
  · subst hstar
    rw [if_neg (by decide +kernel), if_neg (by decide +kernel), if_pos rfl, if_pos (by decide +kernel)]
  · rw [if_neg (mt eqIgnoreCase_star.mp hstar)]
    split_ifs <;> rfl

theorem finalWeight_eq (es : List Elem) (name : Bytes) :
    finalWeight ((es.find? (named name)).elim (.finite (-1)) fun e => .finite e.value)
      ((es.find? (named (bytes "*"))).elim (.finite (-1)) fun e => .finite e.value) =
    .finite (if codingWeight es name = 0 then -1 else codingWeight es name) := by
  unfold finalWeight codingWeight
  cases es.find? (named name) with
  | some e =>
    have he : ¬e.value < 0 := not_lt.mpr e.value_nonneg
    simp only [Option.elim_some, Double.lt, he, decide_false, Bool.false_eq_true, and_false, if_false,
      Double.finite.injEq]
    split_ifs <;> rfl
  | none =>
    cases es.find? (named (bytes "*")) with
    | some e =>
      simp only [Option.elim_some, Option.elim_none, Double.lt, Double.le, e.value_nonneg]
      norm_num
      split_ifs <;> rfl
    | none =>
      simp [Double.le, Double.lt]

theorem length_elems_le : ∀ items :
    List Item, (elems items).length + items.length ≤ (joined items).length
  | [] => le_rfl
  | i :: items => by
    have ih := length_elems_le items
    rw [Weighted.joined_cons, length_cons, length_cons, length_append]
    cases he : i.elem with
    | none =>
      rw [show elems (i :: items) = elems items by simp [elems, he]]
      omega
    | some e =>
      have hpos : 0 < i.text.length := by
        have := length_pos_iff.mpr e.name_ne
        simp only [Item.text, he, Option.elim_some, Elem.text, length_append]
        omega
      rw [show elems (i :: items) = e :: elems items by simp [elems, he], length_cons]
      omega

theorem negotiateLoop_listText (hread : ReadsWeights strtod) (items : List Item) (w : Weights) :
    negotiateLoop strtod (listText items).length (listText items) w =
      (elems items).foldl (fun w e => w.note e.name (.finite e.value)) w := by
  cases items with
  | nil => rfl
  | cons i items =>
    have hjoined := Weighted.cons_listText (cons_ne_nil i items)
    have hlen := length_elems_le (i :: items)
    rw [← hjoined, length_cons, length_cons] at hlen
    rw [← negotiateLoop_joined hread (i :: items) _ w
      (show _ ≤ (listText (i :: items)).length by omega), ← hjoined]
    exact (negotiateLoop_skip (s := [44]) (by simp) _ w).symm

/-- Where nothing was found. -/
abbrev noWeights : Weights := ⟨.finite (-1), .finite (-1), .finite (-1)⟩

theorem compressNegotiate_some (p : Bytes) :
    compressNegotiate strtod (some p) =
      let w := negotiateLoop strtod (stringAt p).length (stringAt p) noWeights
      if Double.lt (.finite 0) (finalWeight w.br w.star) ∧
          Double.le (finalWeight w.gzip w.star) (finalWeight w.br w.star) then .brotli
      else if Double.lt (.finite 0) (finalWeight w.gzip w.star) then .gzip
      else .none := by
  unfold compressNegotiate
  cases hs : stringAt p with
  | nil =>
    have hnone : finalWeight (.finite (-1)) (.finite (-1)) = .finite (-1) := by
      simp [finalWeight, Double.le, Double.lt]
    norm_num [hs, negotiateLoop, hnone, Double.lt]
  | cons c s => simp only [Option.map_some, hs]

theorem finalWeight_listText (hread : ReadsWeights strtod) (hd : Distinct (elems items))
    (hget : ∀ w token q, get (w.note token q) = if eqIgnoreCase token name then q else get w)
    (hinit : get noWeights = .finite (-1)) :
    finalWeight (get (negotiateLoop strtod (listText items).length (listText items) noWeights))
        (negotiateLoop strtod (listText items).length (listText items) noWeights).star =
      .finite (if codingWeight (elems items) name = 0 then -1 else codingWeight (elems items) name) := by
  rw [negotiateLoop_listText hread, foldl_note hget _ hd, foldl_note star_note _ hd, hinit,
    finalWeight_eq]

theorem compressNegotiate_eq (hread : ReadsWeights strtod) (hd : Distinct (elems items))
    (rest : Bytes) :
    compressNegotiate strtod (some (listText items ++ 0 :: rest)) =
      if 0 < codingWeight (elems items) (bytes "br") ∧
          codingWeight (elems items) (bytes "gzip") ≤ codingWeight (elems items)
          (bytes "br") then .brotli
      else if 0 < codingWeight (elems items) (bytes "gzip") then .gzip
      else .none := by
  have hstr : stringAt (listText items ++ 0 :: rest) = listText items := by
    rw [stringAt, takeWhile_append_of_pos fun c hc => by simpa using Weighted.ne_zero_of_mem_listText hc]
    simp
  have hgzip := codingWeight_nonneg (elems items) (bytes "gzip")
  rw [compressNegotiate_some, hstr]
  dsimp only
  rw [finalWeight_listText hread hd gzip_note rfl, finalWeight_listText hread hd br_note rfl]
  have hpos : ∀ v : ℚ, 0 < (if v = 0 then -1 else v) ↔ 0 < v := fun v => by
    split_ifs with h <;> norm_num [h]
  -- a weight that does not count is below every weight that does
  have hle : ∀ v : ℚ,
      0 < v → ∀ u, 0 ≤ u → ((if u = 0 then -1 else u) ≤ (if v = 0 then -1 else v) ↔ u ≤ v) :=
    fun v hv u hu => by
      rw [if_neg hv.ne']
      split_ifs with h
      · exact ⟨fun _ => h ▸ hv.le, fun _ => by linarith⟩
      · rfl
  simp only [Double.lt, Double.le, decide_eq_true_eq, hpos]
  by_cases hb : 0 < codingWeight (elems items) (bytes "br")
  · simp only [hle _ hb _ hgzip]
  · simp only [hb, false_and]

/-- **The negotiation follows the weights.** For every list of codings in which each is
named at most once, whatever is behind its NUL: brotli exactly if it has a weight that is
not below that of gzip, gzip exactly if its weight is greater than that of
brotli, and none exactly if neither has a weight. -/
theorem negotiation_follows_weights (hread : ReadsWeights strtod) (items : List Item)
    (hd : Distinct (elems items))
    (rest : Bytes) :
    (compressNegotiate strtod (some (listText items ++ 0 :: rest)) = .brotli ↔
      0 < codingWeight (elems items) (bytes "br") ∧
        codingWeight (elems items) (bytes "gzip") ≤ codingWeight (elems items) (bytes "br")) ∧
    (compressNegotiate strtod (some (listText items ++ 0 :: rest)) = .gzip ↔
      0 < codingWeight (elems items) (bytes "gzip") ∧
        codingWeight (elems items) (bytes "br") < codingWeight (elems items) (bytes "gzip")) ∧
    (compressNegotiate strtod (some (listText items ++ 0 :: rest)) = .none ↔
      codingWeight (elems items) (bytes "br") = 0 ∧ codingWeight (elems items) (bytes "gzip") = 0) := by
  have hgzip := codingWeight_nonneg (elems items) (bytes "gzip")
  have hbr := codingWeight_nonneg (elems items) (bytes "br")
  rw [compressNegotiate_eq hread hd rest]
  generalize codingWeight (elems items) (bytes "gzip") = gzip at *
  generalize codingWeight (elems items) (bytes "br") = br at *
  by_cases hfirst : 0 < br ∧ gzip ≤ br
  · rw [if_pos hfirst]
    refine ⟨by simp [hfirst], ?_, ?_⟩
    · simp [hfirst.2]
    · simp [hfirst.1.ne']
  · rw [if_neg hfirst]
    rw [not_and, not_le] at hfirst
    by_cases hsecond : 0 < gzip
    · have hlt : br < gzip := hbr.eq_or_lt.elim (fun h => h ▸ hsecond) hfirst
      rw [if_pos hsecond]
      refine ⟨by simp [hlt], by simp [hsecond, hlt], by simp [hsecond.ne']⟩
    · have hzero : gzip = 0 := le_antisymm (not_lt.mp hsecond) hgzip
      have hbr0 : br = 0 :=
        hbr.eq_or_lt.elim Eq.symm fun h => absurd ((hfirst h).trans_le hzero.le) hbr.not_gt
      simp [hzero, hbr0]

/-- A `strtod` that reads decimals exactly. -/
def exactStrtod (b : Bytes) : Double :=
  let digit : UInt8 → Bool := fun c => 48 ≤ c && c ≤ 57
  let whole := b.takeWhile digit
  let frac :=
    match b.drop whole.length with
    | 46 :: r => r.takeWhile digit
    | _ => []
  .finite (Decimal.number 10 (whole.map fun c => c.toNat - 48) + Weighted.fraction frac)

theorem exactStrtod_readsWeights : ReadsWeights exactStrtod := by
  intro q k
  have htabs : ∀ f : Bytes, (∀ c ∈ f, 48 ≤ c ∧ c ≤ 57) →
      (f ++ List.replicate k 9).takeWhile (fun c => 48 ≤ c && c ≤ 57) = f := fun f hf => by
    rw [takeWhile_append_of_pos (by simpa using hf)]
    cases k <;> simp [replicate_succ]
  have hfirst : 48 ≤ (if q.one then (49 : UInt8) else 48) ∧ (if q.one then (49 : UInt8) else 48) ≤
      57 := by
    cases q.one <;> decide
  have hnumber : (Decimal.number 10 [(if q.one then (49 : UInt8) else 48).toNat - 48] : ℚ) =
      if q.one then 1 else 0 := by
    cases q.one <;> rfl
  cases hf : q.frac with
  | none =>
    have hwhole := htabs [if q.one then 49 else 48] (by simpa using hfirst)
    have hrest : (match List.replicate k (9 : UInt8) with
        | 46 :: r => r.takeWhile fun c => 48 ≤ c && c ≤ 57
        | _ => []) = [] := by
      cases k <;> rfl
    rw [exactStrtod, Qvalue.value, Qvalue.text, hf]
    simp only [Option.elim_none, hwhole, drop_left]
    rw [hrest, map_singleton, hnumber]
    simp [Weighted.fraction, Decimal.number]
  | some f =>
    have hwhole : ((if q.one then 49 else 48) :: 46 :: (f ++ List.replicate k 9)).takeWhile
        (fun c => 48 ≤ c && c ≤ 57) = [if q.one then 49 else 48] := by
      rw [takeWhile_cons_of_pos (by simpa using hfirst)]
      simp
    rw [exactStrtod, Qvalue.value, Qvalue.text, hf]
    simp only [Option.elim_some, cons_append, hwhole, length_singleton, drop_succ_cons, drop_zero]
    rw [htabs f (q.digit f hf), map_singleton, hnumber]

/-- Half for gzip and eight tenths for brotli. -/
def twoCodings : List Item :=
  [⟨[], some ⟨bytes "gzip", some ⟨[], [], false, ⟨false, some [53], by decide +kernel, by decide +kernel,
      by decide +kernel⟩, ows_nil, ows_nil⟩, by decide +kernel, by decide +kernel⟩, [], ows_nil,
      ows_nil⟩,
    ⟨[32], some
      ⟨bytes "br", some ⟨[], [32], false, ⟨false, some [56], by decide +kernel, by decide +kernel,
      by decide +kernel⟩, ows_nil, by decide +kernel⟩, by decide +kernel, by decide +kernel⟩,
      [], by decide +kernel,
      ows_nil⟩]

/-- The greater weight is preferred. -/
theorem negotiation_follows_weights_two :
    listText twoCodings = bytes "gzip;q=0.5, br; q=0.8" ∧
    compressNegotiate exactStrtod (some (listText twoCodings ++ [0])) = .brotli :=
  ⟨by decide +kernel, (negotiation_follows_weights exactStrtod_readsWeights twoCodings
    (by decide +kernel) []).1.mpr
    ⟨by decide +kernel, by decide +kernel⟩⟩

end Iohttp
