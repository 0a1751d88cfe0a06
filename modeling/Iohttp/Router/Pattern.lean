/-
# What a route pattern means

A pattern is a list of labels, one per segment: a literal, a `:name` that
takes one segment, a `*name` that takes the rest (`matchLabels`). The trie
keeps neither segments nor slashes, only the tokens of the labels one after
the other (`key`), so that `/a/b` and `/ab` are the same place in it.

The last section says when the tokens determine the labels all the same: for
a pattern with no two neighbouring literals (`NoAdjacent`) of which no other
pattern leaves a literal half way (`Clear`), a path through the trie that
spells its tokens and turns only at places where some pattern ends a segment
or two patterns part (`Placed`) has its labels (`labels_eq`).
-/
import Iohttp.Router.Radix

namespace Iohttp
namespace Radix

open List

/-- The segments of a pattern or path that starts with a slash; `/` has none. -/
def segments (p : Bytes) : List Bytes := (p.tail.splitOn slash).filter (· ≠ [])

/-- `p` is `/`, or nothing between two of its slashes or after the last one
is empty. -/
def NoEmptySegment (p : Bytes) : Prop := p = [slash] ∨ ∀ s ∈ p.tail.splitOn slash, s ≠ []
  deriving Decidable

variable {p : Bytes}

theorem segments_of_noEmpty (h : ∀ s ∈ p.tail.splitOn slash, s ≠ []) :
    segments p = p.tail.splitOn slash := by
  rw [segments, filter_eq_self]
  intro s hs
  simpa using h s hs

variable {s : Bytes}

theorem segments_ne_nil (hs : s ∈ segments p) : s ≠ [] := by
  simpa using (mem_filter.mp hs).2

theorem slash_notMem_segments (hs : s ∈ segments p) : slash ∉ s :=
  notMem_of_mem_splitOn _ s (mem_filter.mp hs).1

theorem segmentTail_eq : ∀ (s : Bytes) (ss : List Bytes),
    s ++ segmentTail ss = [slash].intercalate (s :: ss)
  | s, [] => by simp [segmentTail]
  | s, t :: ss => by simp [segmentTail, ← segmentTail_eq t ss]

theorem eq_segmentTail (hp : p.head? = some slash) (hne : NoEmptySegment p) :
    p = [slash] ∧ segments p = [] ∨ p = segmentTail (segments p) := by
  rcases hne with rfl | hne
  · exact .inl ⟨rfl, by decide⟩
  · right
    rw [segments_of_noEmpty hne]
    obtain ⟨c, p', rfl⟩ : ∃ c p', p = c :: p' := by
      cases p with
      | nil => simp at hp
      | cons c p' => exact ⟨c, p', rfl⟩
    simp only [head?_cons, Option.some.injEq] at hp
    subst hp
    simp only [tail_cons] at hne ⊢
    cases hs : p'.splitOn slash with
    | nil => exact absurd hs (splitOn_ne_nil _ _)
    | cons s ss =>
      have h : [slash].intercalate (p'.splitOn slash) = p' := intercalate_splitOn slash
      rw [hs] at h
      rw [segmentTail, cons_append, segmentTail_eq, h]

/-- A segment of a pattern, or an edge of the trie. -/
inductive Label where
  | lit (s : Bytes)
  | par (name : Bytes)
  | wild (name : Bytes)
  deriving DecidableEq, Repr

def label (seg : Bytes) : Label :=
  if seg.head? = some star then .wild seg.tail
  else if seg.head? = some colon then .par seg.tail
  else .lit seg

def labels (pattern : Bytes) : List Label := (segments pattern).map label

/-- The pattern `ls` takes the segments `ts` with these captures: a literal
equals its segment, a parameter takes one segment, a last wildcard takes the
rest, at least one segment. -/
def matchLabels : List Label → List Bytes → Option (List Param)
  | [], [] => some []
  | .lit s :: ls, t :: ts => if s = t then matchLabels ls ts else none
  | .par n :: ls, t :: ts => (matchLabels ls ts).map fun caps => ⟨n, t⟩ :: caps
  | [.wild n], t :: ts => some [⟨n, [slash].intercalate (t :: ts)⟩]
  | _, _ => none

def Label.isLit : Label → Bool
  | .lit _ => true
  | _ => false

/-- The number of segments a pattern captures. -/
def captures (ls : List Label) : ℕ := (ls.filter fun l => !l.isLit).length

theorem label_ne_lit_nil {seg : Bytes} (h : seg ≠ []) : label seg ≠ .lit [] := by
  unfold label
  split_ifs <;> simp [h]

theorem labels_ne {pattern : Bytes} : ∀ l ∈ labels pattern, l ≠ .lit [] := by
  intro l hl
  obtain ⟨s, hs, rfl⟩ := mem_map.mp hl
  exact label_ne_lit_nil (segments_ne_nil hs)

/-! ### Tokens -/

/-- A step in the trie: a byte of a literal, a parameter or a wildcard. -/
inductive Tok where
  | ch (c : UInt8)
  | par (name : Bytes)
  | wild (name : Bytes)
  deriving DecidableEq, Repr

def Label.toks : Label → List Tok
  | .lit s => s.map .ch
  | .par n => [.par n]
  | .wild n => [.wild n]

def key (ls : List Label) : List Tok := ls.flatMap Label.toks

@[simp] theorem key_nil : key [] = [] := rfl

@[simp] theorem key_cons (l : Label) (ls : List Label) : key (l :: ls) = l.toks ++ key ls := by
  simp [key]

@[simp] theorem key_append (ls ms : List Label) : key (ls ++ ms) = key ls ++ key ms := by
  simp [key]

variable {t : Bytes}

theorem map_ch_inj : s.map Tok.ch = t.map Tok.ch ↔ s = t :=
  (map_injective_iff.mpr fun a b h => by simpa using h).eq_iff

theorem map_ch_prefix : s.map Tok.ch <+: t.map Tok.ch ↔ s <+: t := by
  constructor
  · intro h
    have : s.map Tok.ch = (t.take s.length).map Tok.ch := by
      rw [map_take]
      simpa using prefix_iff_eq_take.mp h
    rw [map_ch_inj.mp this]
    exact take_prefix _ _
  · exact fun h => h.map _

theorem captures_eq (ls : List Label) :
    captures ls = ((key ls).filter fun k => match k with | .ch _ => false | _ => true).length := by
  induction ls with
  | nil => rfl
  | cons l ls ih =>
    cases l <;> simp [captures, Label.isLit, Label.toks, filter_map, Function.comp_def] at ih ⊢ <;> omega

variable {P2 Q ls ms : List Label} {a r : Bytes} {K : List Tok} {A : List (List Label)}

theorem captures_congr (h : key ls = key ms) : captures ls = captures ms := by
  rw [captures_eq, captures_eq, h]

theorem commonPrefixLen_le : ∀ r t : Bytes, commonPrefixLen r t ≤ r.length ∧
    commonPrefixLen r t ≤ t.length
  | [], _ | _ :: _, [] => by simp [commonPrefixLen]
  | a :: r, b :: t => by
    have := commonPrefixLen_le r t
    unfold commonPrefixLen
    split
    · simp only [length_cons]; omega
    · simp

theorem commonPrefixLen_take : ∀ r t : Bytes,
    r.take (commonPrefixLen r t) = t.take (commonPrefixLen r t)
  | [], _ | _ :: _, [] => by simp [commonPrefixLen]
  | a :: r, b :: t => by
    unfold commonPrefixLen
    split
    · rename_i h
      simp [h, commonPrefixLen_take r t]
    · simp

theorem commonPrefixLen_drop : ∀ (r t : Bytes) {x y : UInt8} {r' t' : Bytes},
    r.drop (commonPrefixLen r t) = x :: r' → t.drop (commonPrefixLen r t) = y :: t' → x ≠ y
  | [], _, _, _, _, _, h, _ | _ :: _, [], _, _, _, _, _, h => by simp [commonPrefixLen] at h
  | a :: r, b :: t, x, y, r', t', hr, ht => by
    unfold commonPrefixLen at hr ht
    split at hr
    · rename_i h
      rw [if_pos h] at ht
      exact commonPrefixLen_drop r t (by simpa using hr) (by simpa using ht)
    · rename_i h
      rw [if_neg h] at ht
      simp only [drop_zero, List.cons.injEq] at hr ht
      exact hr.1 ▸ ht.1 ▸ h

theorem commonPrefixLen_eq_length : commonPrefixLen r t = r.length ↔ r <+: t := by
  constructor
  · intro h
    have := commonPrefixLen_take r t
    rw [h, take_length] at this
    rw [this]
    exact take_prefix _ _
  · rintro ⟨u, rfl⟩
    induction r with
    | nil => simp [commonPrefixLen]
    | cons a r ih => simp [commonPrefixLen, ih]

theorem commonPrefixLen_pos {c : UInt8} : 0 < commonPrefixLen (c :: r) (c :: t) := by
  simp [commonPrefixLen]

theorem commonPrefixLen_tail : ∀ (seg p : Bytes) (segs : List Bytes), slash ∉ p →
    commonPrefixLen (seg ++ segmentTail segs) p = commonPrefixLen seg p
  | [], [], _, _ => by simp [commonPrefixLen]
  | [], b :: p, [], _ => by simp [segmentTail]
  | [], b :: p, s :: segs, h => by
    have : slash ≠ b := fun hb => h (hb ▸ mem_cons_self)
    simp [segmentTail, commonPrefixLen, this]
  | a :: seg, [], _, _ => by simp [commonPrefixLen]
  | a :: seg, b :: p, segs, h => by
    have := commonPrefixLen_tail seg p segs fun hb => h (mem_cons_of_mem _ hb)
    simp [commonPrefixLen, this]

/-! ### When the tokens determine the labels -/

/-- No two neighbouring labels are literals. -/
def NoAdjacent (ls : List Label) : Prop := ls.IsChain fun a b => ¬(a.isLit = true ∧ b.isLit = true)
  deriving Decidable

/-- As far as `ms` agrees with `ls`, it never leaves a literal of `ls` half
way: where both go on with a literal, these share no byte, or the one of
`ms` starts with the one of `ls`. -/
def Clear : List Label → List Label → Prop
  | .lit r :: ls, .lit t :: ms =>
    (commonPrefixLen r t = 0 ∨ commonPrefixLen r t = r.length) ∧ (r = t → Clear ls ms)
  | a :: ls, b :: ms => a = b → Clear ls ms
  | _, _ => True

instance Clear.decidable : ∀ ls ms : List Label, Decidable (Clear ls ms)
  | .lit r :: ls, .lit t :: ms =>
    have := Clear.decidable ls ms
    inferInstanceAs (Decidable ((_ ∨ _) ∧ (r = t → _)))
  | .lit _ :: ls, .par _ :: ms => have := Clear.decidable ls ms; inferInstanceAs (Decidable (_ = _ → _))
  | .lit _ :: ls, .wild _ :: ms => have := Clear.decidable ls ms; inferInstanceAs (Decidable (_ = _ → _))
  | .par _ :: ls, b :: ms => have := Clear.decidable ls ms; inferInstanceAs (Decidable (_ = b → _))
  | .wild _ :: ls, b :: ms => have := Clear.decidable ls ms; inferInstanceAs (Decidable (_ = b → _))
  | [], _ | .lit _ :: _, [] | .par _ :: _, [] | .wild _ :: _, [] => inferInstanceAs (Decidable True)

theorem Clear.tail {a : Label} (h : Clear (a :: ls) (a :: ms)) : Clear ls ms := by
  cases a
  · exact h.2 rfl
  · exact h rfl
  · exact h rfl

/-- A place in the trie of the patterns `A`: one of them ends a segment
there, or two of them part there. -/
def Placed (A : List (List Label)) (K : List Tok) : Prop :=
  (∃ Q ∈ A, ∃ i, key (Q.take i) = K) ∨
  (∃ Q ∈ A, ∃ Q' ∈ A, ∃ x y, x ≠ y ∧ K ++ [.ch x] <+: key Q ∧ K ++ [.ch y] <+: key Q')

theorem key_head_ch {c : UInt8} (hne : ∀ l ∈ Q, l ≠ .lit [])
    (h : .ch c :: K <+: key Q) : ∃ t Q', Q = .lit (c :: t) :: Q' := by
  cases Q with
  | nil => simp at h
  | cons q Q =>
    rw [key_cons] at h
    cases q with
    | lit s =>
      cases s with
      | nil => exact absurd rfl (hne _ mem_cons_self)
      | cons d t =>
        simp only [Label.toks, map_cons, cons_append, cons_prefix_cons, Tok.ch.injEq] at h
        exact ⟨t, Q, by rw [h.1]⟩
    | par n | wild n => simp [Label.toks] at h

theorem key_head_named {l : Label} (hl : l.isLit = false)
    (hne : ∀ m ∈ Q, m ≠ .lit []) (h : l.toks ++ K <+: key Q) : ∃ Q', Q = l :: Q' := by
  cases Q with
  | nil => cases l <;> simp_all [Label.toks, Label.isLit]
  | cons q Q =>
    refine ⟨Q, ?_⟩
    cases l <;> rcases q with (_ | _) | _ | _ <;>
      simp_all [Label.toks, Label.isLit, cons_prefix_cons]

/-- A pattern that is clear of `Q` and whose tokens `Q` follows into its
literal `r` has `Q` follow it label by label and through all of `r`. -/
theorem forced (ha : a ≠ []) (har : a <+: r) :
    ∀ (P1 Q : List Label), NoAdjacent (P1 ++ .lit r :: P2) →
      (∀ l ∈ P1, l ≠ .lit []) → (∀ l ∈ Q, l ≠ .lit []) → Clear (P1 ++ .lit r :: P2) Q →
      key P1 ++ a.map .ch <+: key Q → ∃ t Q', Q = P1 ++ .lit t :: Q' ∧ r <+: t
  | [], Q, _, _, hQ, hc, h => by
    obtain ⟨c, a', rfl⟩ := exists_cons_of_ne_nil ha
    obtain ⟨r', rfl⟩ := har
    obtain ⟨t, Q', rfl⟩ := key_head_ch hQ (by simpa using h)
    refine ⟨c :: t, Q', rfl, commonPrefixLen_eq_length.mp ?_⟩
    rcases hc.1 with h0 | h0
    · exact absurd h0 commonPrefixLen_pos.ne'
    · exact h0
  | p :: P1, [], _, hP, _, _, h => by
    have := hP p mem_cons_self
    rcases p with s | n | n
    · cases s <;> simp_all [Label.toks]
    · simp [Label.toks] at h
    · simp [Label.toks] at h
  | p :: P1, q :: Q, hn, hP, hQ, hc, h => by
    have hn' : NoAdjacent (P1 ++ .lit r :: P2) := hn.tail
    have hP' := (forall_mem_cons.mp hP).2
    have hQ' := (forall_mem_cons.mp hQ).2
    suffices hpq : p = q by
      subst hpq
      rw [key_cons, key_cons, append_assoc, prefix_append_right_inj] at h
      obtain ⟨t, Q', rfl, ht⟩ := forced ha har P1 Q hn' hP' hQ' hc.tail h
      exact ⟨t, Q', rfl, ht⟩
    rw [key_cons] at h
    cases p with
    | lit s =>
      -- `q` starts with it, and what follows it is no literal
      have hs : s ≠ [] := fun hs => hP (.lit s) mem_cons_self (by rw [hs])
      obtain ⟨c, s', rfl⟩ := exists_cons_of_ne_nil hs
      obtain ⟨t, Q', hq⟩ := key_head_ch hQ (by simpa [Label.toks] using h)
      simp only [List.cons.injEq] at hq
      obtain ⟨rfl, rfl⟩ := hq
      have hst : c :: s' <+: c :: t := by
        rcases hc.1 with h0 | h0
        · exact absurd h0 commonPrefixLen_pos.ne'
        · exact commonPrefixLen_eq_length.mp h0
      obtain ⟨u, hu⟩ := hst
      cases u with
      | nil => rw [← hu, append_nil]
      | cons x u =>
        rw [key_cons, ← hu] at h
        simp only [Label.toks, append_assoc, map_append, prefix_append_right_inj] at h
        cases P1 with
        | nil => simp [NoAdjacent, Label.isLit] at hn
        | cons p' P1 =>
          have hp' : p'.isLit = false := by
            have := (isChain_cons_cons.mp hn).1
            simpa [Label.isLit] using this
          cases p' <;> simp [Label.isLit, Label.toks] at hp' h
    | par n | wild n =>
      rw [append_assoc] at h
      obtain ⟨Q', hq⟩ := key_head_named rfl hQ h
      exact (List.cons.inj hq).1.symm

theorem not_placed {P1 : List Label} {x : UInt8}
    (ha : a ≠ []) (hn : NoAdjacent (P1 ++ .lit (a ++ x :: r) :: P2))
    (hP1 : ∀ l ∈ P1, l ≠ .lit []) (hA : ∀ Q ∈ A, ∀ l ∈ Q, l ≠ .lit [])
    (hc : ∀ Q ∈ A, Clear (P1 ++ .lit (a ++ x :: r) :: P2) Q) : ¬Placed A (key P1 ++ a.map .ch) := by
  have hforced : ∀ Q ∈ A, key P1 ++ a.map .ch <+: key Q →
      ∃ t Q', Q = P1 ++ .lit (a ++ x :: t) :: Q' := by
    intro Q hQ hK
    obtain ⟨t, Q', rfl, u, rfl⟩ := forced ha ⟨_, rfl⟩ P1 Q hn hP1 (hA Q hQ) (hc Q hQ) hK
    exact ⟨r ++ u, Q', by simp⟩
  rintro (⟨Q, hQ, i, hi⟩ | ⟨Q, hQ, Q', hQ', y, z, hyz, hy, hz⟩)
  · -- a segment that ends inside the literal
    have hpre : key P1 ++ a.map .ch <+: key Q := by
      conv_rhs => rw [← take_append_drop i Q, key_append, hi]
      exact prefix_append _ _
    obtain ⟨t, Q', rfl⟩ := hforced Q hQ hpre
    have hlen := congrArg List.length hi
    rw [take_append] at hlen
    cases hk : i - P1.length with
    | zero =>
      have h1 : (key (P1.take i)).length ≤ (key P1).length := by
        conv_rhs => rw [← take_append_drop i P1, key_append]
        simp
      have h2 : 0 < a.length := length_pos_iff.mpr ha
      simp [hk] at hlen
      omega
    | succ k =>
      have h1 : P1.take i = P1 := take_of_length_le (by omega)
      simp [hk, h1, Label.toks] at hlen
  · -- two patterns that part inside the literal both go on with `x`
    have go : ∀ Q ∈ A, ∀ c, key P1 ++ a.map .ch ++ [.ch c] <+: key Q → c = x := by
      intro Q hQ c hcQ
      obtain ⟨t, Q', rfl⟩ := hforced Q hQ ((prefix_append _ _).trans hcQ)
      simpa [Label.toks] using hcQ
    exact hyz ((go Q hQ y hy).trans (go Q' hQ' z hz).symm)

/-- **The tokens determine the labels.** -/
theorem labels_eq (hA : ∀ Q ∈ A, ∀ l ∈ Q, l ≠ .lit []) :
    ∀ (L P1 P : List Label), key L = key P → NoAdjacent (P1 ++ P) →
      (∀ l ∈ L, l ≠ .lit []) → (∀ l ∈ P1 ++ P, l ≠ .lit []) → (∀ Q ∈ A, Clear (P1 ++ P) Q) →
      (∀ L1 L2, L = L1 ++ L2 → L1 ≠ [] → Placed A (key P1 ++ key L1)) → L = P
  | [], P1, P, hk, _, _, hP, _, _ => by
    cases P with
    | nil => rfl
    | cons p P =>
      have := hP p (by simp)
      rcases p with s | n | n
      · cases s <;> simp_all [Label.toks]
      · simp [Label.toks] at hk
      · simp [Label.toks] at hk
  | l :: L, P1, P, hk, hn, hL, hP, hc, hpl => by
    -- once the first label is that of `P`, the rest is the induction
    suffices h : ∃ P', P = l :: P' by
      obtain ⟨P', rfl⟩ := h
      rw [key_cons, key_cons, append_cancel_left_eq] at hk
      refine congrArg (l :: ·) (labels_eq hA L (P1 ++ [l]) P' hk (by simpa using hn)
        (forall_mem_cons.mp hL).2 (by simpa using hP) (by simpa using hc) ?_)
      intro L1 L2 hL12 hL1
      have := hpl (l :: L1) L2 (by rw [hL12, cons_append]) (by simp)
      simpa using this
    have hl := hL l mem_cons_self
    have hP' : ∀ m ∈ P, m ≠ .lit [] := fun m hm => hP m (mem_append_right _ hm)
    cases l with
    | par n | wild n => exact key_head_named rfl hP' (by rw [← hk, key_cons])
    | lit a =>
      have ha : a ≠ [] := fun ha => hl (by rw [ha])
      obtain ⟨c, a', rfl⟩ := exists_cons_of_ne_nil ha
      obtain ⟨r', P', rfl⟩ := key_head_ch hP'
        (show Tok.ch c :: (a'.map .ch ++ key L) <+: key P by
          rw [← hk]; simp [Label.toks])
      refine ⟨P', ?_⟩
      have hP'0 : ∀ p ∈ P'.head?, p.isLit = false := by
        intro p hp
        obtain ⟨P'', rfl⟩ : ∃ P'', P' = p :: P'' := by
          cases P' with
          | nil => simp at hp
          | cons q P'' => simp at hp; exact ⟨P'', by rw [hp]⟩
        have := (isChain_append.mp hn).2.1
        simpa [Label.isLit] using (isChain_cons_cons.mp this).1
      -- the bytes of `r` end where its tokens turn to a parameter or end
      have hbound : ∃ u, c :: r' = c :: a' ++ u := by
        rcases prefix_or_prefix_of_prefix
            (show (c :: a').map Tok.ch <+: key (.lit (c :: a') :: L) by simp [Label.toks])
            (show (c :: r').map Tok.ch <+: key
              (.lit (c :: a') :: L) by rw [hk]; simp [Label.toks]) with h | h
        · obtain ⟨u, hu⟩ := map_ch_prefix.mp h
          exact ⟨u, hu.symm⟩
        · obtain ⟨u, hu⟩ := map_ch_prefix.mp h
          cases u with
          | nil => exact ⟨[], by simpa using hu⟩
          | cons x u =>
            rw [key_cons, key_cons, ← hu] at hk
            simp only [Label.toks, map_append, append_assoc, map_cons,
              cons_append] at hk
            cases P' with
            | nil => simp at hk
            | cons p P' =>
              have := hP'0 p rfl
              cases p <;> simp [Label.isLit, Label.toks] at this hk
      obtain ⟨u, hu⟩ := hbound
      cases u with
      | nil => rw [hu, append_nil]
      | cons x u =>
        exfalso
        rw [hu] at hn hc
        refine not_placed (a := c :: a') (by simp) hn (fun l hl => hP l (mem_append_left _ hl)) hA hc ?_
        have := hpl [.lit (c :: a')] L rfl (by simp)
        simpa [Label.toks] using this

end Radix
end Iohttp
