/-
# Places in a compressed trie

A compressed trie is seen as the function that gives the value at every place
where it has a node (`View`). Its nodes are where a word that was put in ends,
and where two words part (`Fork`). To put a word in is to `grow` the trie by
these places; putting its first piece in and the rest below it is the same
(`graft_grow`), whatever nodes there were on the way. Two words may be put in in
either order (`put_comm`).

Key definitions: `View`, `Fork`, `graft`, `grow`, `put`.

Key theorems: `graft_grow`, `graft_update`, `put_comm`.
-/
import Mathlib.Tactic
import Mathlib.Data.List.Infix

namespace Trie

open List

open scoped Classical

variable {α β : Type*} {ss : List (List α)}

/-- The value at every place where there is a node. -/
abbrev View (α β : Type*) := List α → Option β

/-- What is below a place. -/
def sub (v : View α β) (s : List α) : View α β := fun K => v (s ++ K)

/-- A node at the top, with the value `d` if there was none. -/
def ensure (d : β) (v : View α β) : View α β
  | [] => some ((v []).getD d)
  | k :: K => v (k :: K)

/-- `v`, reached by an edge `s`. -/
noncomputable def under (s : List α) (v : View α β) : View α β := fun K =>
  if s <+: K then v (K.drop s.length) else none

/-- The word `T` and a place of `v` part at `K`. -/
def Fork (v : View α β) (T K : List α) : Prop :=
  ∃ k l, k ≠ l ∧ K ++ [k] <+: T ∧ ∃ K', v (K ++ l :: K') ≠ none

/-- `w` takes the place of what is below `s`; where `s` parts from the places of
`v` there is a node then. -/
noncomputable def graft (d : β) (v : View α β) (s : List α) (w : View α β) : View α β := fun K =>
  if s <+: K then w (K.drop s.length) else (v K).or (if Fork v s K then some d else none)

/-- The nodes that `v` has when the word `T` is put in, which ends its pieces at
the places `marks`. -/
noncomputable def grow (d : β) (v : View α β) (T : List α) (marks : List (List α)) : View α β := fun K =>
  (v K).or (if K ∈ marks ∨ Fork v T K then some d else none)

/-- Where the pieces of a word end. -/
def marks : List (List α) → List (List α)
  | [] => []
  | s :: ss => s :: (marks ss).map (s ++ ·)

variable {v w : View α β} {s T K : List α} {d : β}

@[simp] theorem sub_nil : sub v [] = v := rfl

@[simp] theorem sub_sub (s t : List α) : sub (sub v s) t = sub v (s ++ t) := by
  funext K
  simp [sub]

@[simp] theorem under_append (s K : List α) : under s v (s ++ K) = v K := by simp [under]

theorem under_of_not (h : ¬s <+: K) : under s v K = none := if_neg h

@[simp] theorem graft_append (s K : List α) : graft d v s w (s ++ K) = w K := by simp [graft]

theorem graft_of_not (h : ¬s <+: K) :
    graft d v s w K = (v K).or (if Fork v s K then some d else none) := if_neg h

theorem fork_append : Fork v (s ++ T) (s ++ K) ↔ Fork (sub v s) T K := by
  unfold Fork sub
  simp [append_assoc, prefix_append_right_inj]

theorem fork_ensure : Fork (ensure d v) T K ↔ Fork v T K := by
  cases K <;> rfl

/-- Before the end of the first piece, only that piece matters. -/
theorem fork_outside (h : ¬s <+: K) : Fork v (s ++ T) K ↔ Fork v s K := by
  refine exists_congr fun k => exists_congr fun l => and_congr_right fun _ => and_congr_left fun _ => ?_
  constructor
  · intro hk
    rcases prefix_or_prefix_of_prefix hk (prefix_append s T) with hks | hsk
    · exact hks
    · rcases prefix_concat_iff.mp hsk with rfl | hsK
      · exact prefix_rfl
      · exact absurd hsK h
  · exact fun hk => hk.trans (prefix_append s T)

/-- A word is put in by its first piece, and the rest of it below that. -/
theorem graft_grow (ss : List (List α)) (T : List α) :
    graft d v s (grow d (ensure d (sub v s)) T (marks ss)) = grow d v (s ++ T) (marks (s :: ss)) := by
  funext K
  by_cases h : s <+: K
  · obtain ⟨K, rfl⟩ := h
    rw [graft_append]
    unfold grow
    rw [fork_append, fork_ensure]
    cases K with
    | nil =>
      simp only [append_nil, marks, mem_cons, true_or, if_true, ensure, sub]
      cases v s <;> simp
    | cons k K => simp [marks, ensure, sub]
  · rw [graft_of_not h]
    unfold grow
    have hmark : K ∉ marks (s :: ss) := by
      intro hm
      rcases mem_cons.mp hm with rfl | hm
      · exact h prefix_rfl
      · obtain ⟨K', _, rfl⟩ := mem_map.mp hm
        exact h (prefix_append s K')
    simp only [hmark, false_or, fork_outside h]

theorem graft_update [DecidableEq (List α)] (x : Option β) :
    graft d v s (Function.update w K x) = Function.update (graft d v s w) (s ++ K) x := by
  funext K'
  by_cases h : s <+: K'
  · obtain ⟨K', rfl⟩ := h
    simp [Function.update_apply]
  · have hne : K' ≠ s ++ K := fun he => h (he ▸ prefix_append s K)
    rw [graft_of_not h, Function.update_of_ne hne, graft_of_not h]

/-! ### Grafts below an edge -/

theorem graft_congr {v' : View α β} {l : α} (h : ∀ K, v (l :: K) = v' (l :: K)) (K : List α) :
    graft d v s w (l :: K) = graft d v' s w (l :: K) := by
  have hf : Fork v s (l :: K) ↔ Fork v' s (l :: K) := by
    unfold Fork
    simp only [cons_append, h]
  unfold graft
  simp only [h, hf]

theorem sub_under_append (s q : List α) : sub (under (s ++ q) v) s = under q v := by
  funext K
  by_cases h : q <+: K
  · obtain ⟨K, rfl⟩ := h
    rw [sub, ← append_assoc, under_append, under_append]
  · rw [sub, under_of_not h, under_of_not fun hp => h ((prefix_append_right_inj s).mp hp)]

theorem sub_under_of_append (p s : List α) : sub (under p v) (p ++ s) = sub v s := by
  funext K
  simp [sub, append_assoc]

/-- Along its own edge a trie has no forks. -/
theorem not_fork_under {p : List α} (hT : ¬p <+: K) (h : T <+: p ∨ p <+: T) : ¬Fork (under p v) T K := by
  rintro ⟨k, l, hkl, hk, K', hv⟩
  have hp : p <+: K ++ l :: K' := by
    by_contra hno
    exact hv (under_of_not hno)
  -- both go on with the next letter of the edge
  have hKp : K <+: p := by
    rcases prefix_or_prefix_of_prefix hp (prefix_append K (l :: K')) with hpK | hKp
    · exact absurd hpK hT
    · exact hKp
  obtain ⟨q, rfl⟩ := hKp
  cases q with
  | nil => exact hT (by simp)
  | cons a q =>
    rw [prefix_append_right_inj, cons_prefix_cons] at hp
    have hkp : K ++ [k] <+: K ++ a :: q := by
      rcases h with h | h
      · exact hk.trans h
      · rcases prefix_or_prefix_of_prefix hk h with h' | h'
        · exact h'
        · have := h'.length_le
          simp only [length_append, length_cons, length_nil] at this
          have hq : q = [] := length_eq_zero_iff.mp (by omega)
          subst hq
          rw [h'.eq_of_length (by simp)]
    rw [prefix_append_right_inj, cons_prefix_cons] at hkp
    exact hkl (hkp.1.trans hp.1)

/-- The word ends on the edge. -/
theorem graft_under_within (s q : List α) : graft d (under (s ++ q) v) s w = under s w := by
  funext K
  by_cases h : s <+: K
  · obtain ⟨K, rfl⟩ := h
    simp
  · have hp : ¬s ++ q <+: K := fun hp => h ((prefix_append s q).trans hp)
    rw [graft_of_not h, under_of_not h, under_of_not hp,
      if_neg (not_fork_under hp (.inl (prefix_append s q)))]
    rfl

/-- The word goes beyond the edge. -/
theorem graft_under_beyond (p s : List α) :
    graft d (under p v) (p ++ s) w = under p (graft d v s w) := by
  funext K
  by_cases h : p <+: K
  · obtain ⟨K, rfl⟩ := h
    by_cases hs : s <+: K
    · obtain ⟨K, rfl⟩ := hs
      rw [← append_assoc, graft_append, append_assoc, under_append, graft_append]
    · have hsub : sub (under p v) p = v := by simpa using sub_under_of_append (v := v) p []
      rw [graft_of_not fun hp => hs ((prefix_append_right_inj p).mp hp), under_append, under_append,
        graft_of_not hs]
      simp only [fork_append, hsub]
  · have hp : ¬p ++ s <+: K := fun hp => h ((prefix_append p s).trans hp)
    rw [graft_of_not hp, under_of_not h, under_of_not h,
      if_neg (not_fork_under h (.inr (prefix_append p s)))]
    rfl

theorem under_under (r q : List α) : under (r ++ q) v = under r (under q v) := by
  funext K
  by_cases h : r <+: K
  · obtain ⟨K, rfl⟩ := h
    have := congrFun (sub_under_append (v := v) r q) K
    simpa [sub] using this
  · rw [under_of_not h, under_of_not fun hp => h ((prefix_append r q).trans hp)]

/-- Where a word parts from the trie there is a node anyway. -/
theorem graft_ensure (hs : s ≠ []) (h : Fork v s []) : graft d (ensure d v) s w = graft d v s w := by
  funext K
  cases K with
  | nil =>
    have hno : ¬s <+: [] := fun hp => hs (prefix_nil.mp hp)
    rw [graft_of_not hno, graft_of_not hno, if_pos h]
    cases hv : v [] <;> simp [ensure, hv]
  | cons k K => exact graft_congr (fun _ => rfl) K

/-- The word parts from the edge. -/
theorem graft_under_parting {a b : α} (hab : a ≠ b) (hv : v [] ≠ none) (r s q : List α) :
    graft d (under (r ++ b :: q) v) (r ++ a :: s) w =
      under r (graft d (ensure d (under (b :: q) v)) (a :: s) w) := by
  have hfork : Fork (under (b :: q) v) (a :: s) [] := by
    refine ⟨a, b, hab, by simp, q, ?_⟩
    have := under_append (v := v) (b :: q) []
    rw [append_nil] at this
    rwa [nil_append, this]
  rw [under_under, graft_under_beyond, graft_ensure (by simp) hfork]

theorem sub_under_parting {a b : α} (hab : a ≠ b) (r s q : List α) :
    sub (under (r ++ b :: q) v) (r ++ a :: s) = fun _ => none := by
  funext K
  rw [under_under, sub, append_assoc, under_append]
  exact under_of_not fun hp => hab (cons_prefix_cons.mp hp).1.symm

/-! ### The nodes of a trie that has grown -/

theorem mem_marks : ∀ {ss : List (List α)} {K : List α},
    K ∈ marks ss ↔ ∃ i < ss.length, K = (ss.take (i + 1)).flatten
  | [], K => by simp [marks]
  | s :: ss, K => by
    rw [marks, mem_cons, mem_map]
    constructor
    · rintro (rfl | ⟨K, hK, rfl⟩)
      · exact ⟨0, by simp, by simp⟩
      · obtain ⟨i, hi, rfl⟩ := mem_marks.mp hK
        exact ⟨i + 1, by simpa using hi, by simp⟩
    · rintro ⟨i, hi, rfl⟩
      cases i with
      | zero => exact .inl (by simp)
      | succ i =>
        refine .inr ⟨(ss.take (i + 1)).flatten, mem_marks.mpr ⟨i, ?_, rfl⟩, by simp⟩
        simpa using hi

/-- The pieces of a word end within it. -/
theorem prefix_of_mem_marks (h : K ∈ marks ss) : K <+: ss.flatten := by
  obtain ⟨i, _, rfl⟩ := mem_marks.mp h
  conv_rhs => rw [← take_append_drop (i + 1) ss, flatten_append]
  exact prefix_append _ _

theorem marks_length (ss : List (List α)) : (marks ss).length = ss.length := by
  induction ss with
  | nil => rfl
  | cons s ss ih => rw [marks, length_cons, length_map, ih, length_cons]

theorem ne_nil_of_mem_marks (hss : ∀ s ∈ ss, s ≠ []) (h : K ∈ marks ss) : K ≠ [] := by
  cases ss with
  | nil => simp [marks] at h
  | cons s ss =>
    have hs := hss s mem_cons_self
    rcases mem_cons.mp h with rfl | hK
    · exact hs
    · obtain ⟨K', _, rfl⟩ := mem_map.mp hK
      exact append_ne_nil_of_left_ne_nil hs K'

theorem marks_nodup : ∀ {ss : List (List α)}, (∀ s ∈ ss, s ≠ []) → (marks ss).Nodup
  | [], _ => nodup_nil
  | s :: ss, h => by
    have hss := (forall_mem_cons.mp h).2
    rw [marks, nodup_cons]
    refine ⟨fun hm => ?_, (marks_nodup hss).map (append_right_injective s)⟩
    obtain ⟨K, hK, he⟩ := mem_map.mp hm
    exact ne_nil_of_mem_marks hss hK (append_right_eq_self.mp he)

/-- The first piece ends before the others. -/
theorem prefix_of_mem_marks_cons (h : K ∈ marks (s :: ss)) : s <+: K := by
  rcases mem_cons.mp h with rfl | hK
  · exact prefix_rfl
  · obtain ⟨K', _, rfl⟩ := mem_map.mp hK
    exact prefix_append s K'

theorem mem_marks_of_append (hK : K ≠ []) (h : s ++ K ∈ marks (s :: ss)) : K ∈ marks ss := by
  rcases mem_cons.mp h with he | hm
  · exact absurd (append_right_eq_self.mp he) hK
  · obtain ⟨K', hK', he⟩ := mem_map.mp hm
    rwa [← append_cancel_left he]

/-- Where a word is cut determines its pieces. -/
theorem eq_of_marks : ∀ {ss ts : List (List α)}, (∀ s ∈ ss, s ≠ []) → (∀ t ∈ ts, t ≠ []) →
    marks ss ⊆ marks ts → marks ts ⊆ marks ss → ss = ts
  | [], [], _, _, _, _ => rfl
  | [], t :: ts, _, _, _, h | s :: ss, [], _, _, h, _ => absurd (h mem_cons_self) not_mem_nil
  | s :: ss, t :: ts, hss, hts, h, h' => by
    have hs : s <+: t := prefix_of_mem_marks_cons (h' mem_cons_self)
    have ht : t <+: s := prefix_of_mem_marks_cons (h mem_cons_self)
    obtain rfl : s = t := hs.eq_of_length_le ht.length_le
    have hss' := (forall_mem_cons.mp hss).2
    have hts' := (forall_mem_cons.mp hts).2
    -- behind the first piece the marks are those of the others
    have hrest : ∀ {as bs : List (List α)}, (∀ x ∈ as, x ≠ []) → marks (s :: as) ⊆ marks (s :: bs) →
        marks as ⊆ marks bs := fun has hsub K hK =>
      mem_marks_of_append (ne_nil_of_mem_marks has hK)
        (hsub (mem_cons_of_mem s (mem_map_of_mem hK)))
    rw [eq_of_marks hss' hts' (hrest hss' h) (hrest hts' h')]

/-- With no more of them it has the same. -/
theorem eq_of_marks_of_length {ts : List (List α)} (hss : ∀ s ∈ ss, s ≠ []) (hts : ∀ t ∈ ts, t ≠ [])
    (h : marks ss ⊆ marks ts) (hlen : ts.length ≤ ss.length) : ss = ts := by
  have hperm : (marks ss).Perm (marks ts) :=
    ((marks_nodup hss).subperm h).perm_of_length_le (by rwa [marks_length, marks_length])
  exact eq_of_marks hss hts h hperm.symm.subset

variable {ms : List (List α)}

theorem grow_of_some {b : β} (h : v K = some b) : grow d v T ms K = some b := by
  rw [grow, h]
  rfl

theorem grow_eq_none : grow d v T ms K = none ↔ v K = none ∧ K ∉ ms ∧ ¬Fork v T K := by
  unfold grow
  cases hv : v K with
  | some b => simp
  | none =>
    by_cases h : K ∈ ms ∨ Fork v T K
    · rw [if_pos h]
      simp only [Option.none_or, reduceCtorEq, true_and, false_iff, not_and_or, not_not]
      exact h
    · rw [if_neg h]
      simpa [not_or] using h

/-- A node that is new has the value `d`. -/
theorem grow_of_none (hv : v K = none) (h : K ∈ ms ∨ Fork v T K) : grow d v T ms K = some d := by
  rw [grow, hv, if_pos h]
  rfl

section Put

variable [DecidableEq (List α)] {ss ts : List (List α)} {a b : β}

/-- The word of the pieces `ss` is put in, and has the value `b` then. -/
noncomputable def put (d : β) (v : View α β) (ss : List (List α)) (b : β) : View α β :=
  Function.update (grow d v ss.flatten (marks ss)) ss.flatten (some b)

@[simp] theorem put_self : put d v ss b ss.flatten = some b := by simp [put]

theorem put_of_ne (h : K ≠ ss.flatten) : put d v ss b K = grow d v ss.flatten (marks ss) K :=
  Function.update_of_ne h _ _

/-- A new node lies on the word. -/
theorem prefix_of_put (h : put d v ss b K ≠ none) : v K ≠ none ∨ K <+: ss.flatten := by
  by_cases hK : K = ss.flatten
  · exact .inr (hK ▸ prefix_rfl)
  · rw [put_of_ne hK, ne_eq, grow_eq_none, not_and_or, not_and_or, not_not, not_not] at h
    rcases h with h | h | ⟨k, _, _, hk, _⟩
    · exact .inl h
    · exact .inr (prefix_of_mem_marks h)
    · exact .inr ((prefix_append K [k]).trans hk)

theorem put_ne_none (h : v K ≠ none) : put d v ss b K ≠ none := by
  by_cases hK : K = ss.flatten
  · simp [hK]
  · rw [put_of_ne hK]
    exact fun hn => h (grow_eq_none.mp hn).1

theorem put_mark (h : K ∈ marks ss) : put d v ss b K ≠ none := by
  by_cases hK : K = ss.flatten
  · simp [hK]
  · rw [put_of_ne hK]
    exact fun hn => (grow_eq_none.mp hn).2.1 h

/-- A second word parts from the trie where it did before, or from the first. -/
theorem fork_put : Fork (put d v ss b) T K ↔
    Fork v T K ∨ ∃ k l, k ≠ l ∧ K ++ [k] <+: T ∧ K ++ [l] <+: ss.flatten := by
  constructor
  · rintro ⟨k, l, hkl, hk, K', hv⟩
    rcases prefix_of_put hv with hv | hpre
    · exact .inl ⟨k, l, hkl, hk, K', hv⟩
    · exact .inr ⟨k, l, hkl, hk, (by simp : K ++ [l] <+: K ++ l :: K').trans hpre⟩
  · rintro (⟨k, l, hkl, hk, K', hv⟩ | ⟨k, l, hkl, hk, K', hK'⟩)
    · exact ⟨k, l, hkl, hk, K', put_ne_none hv⟩
    · refine ⟨k, l, hkl, hk, K', ?_⟩
      rw [show K ++ l :: K' = ss.flatten by rw [← hK']; simp]
      simp

/-- **Two words may be put in in either order.** -/
theorem put_comm (h : ss.flatten ≠ ts.flatten) :
    put d (put d v ss a) ts b = put d (put d v ts b) ss a := by
  funext K
  have hsymm : (∃ k l, k ≠ l ∧ K ++ [k] <+: ts.flatten ∧ K ++ [l] <+: ss.flatten) ↔
      ∃ k l, k ≠ l ∧ K ++ [k] <+: ss.flatten ∧ K ++ [l] <+: ts.flatten :=
    ⟨fun ⟨k, l, hkl, hk, hl⟩ => ⟨l, k, hkl.symm, hl, hk⟩, fun ⟨k, l, hkl, hk, hl⟩ =>
      ⟨l, k, hkl.symm, hl, hk⟩⟩
  by_cases hs : K = ss.flatten
  · rw [hs, put_self, put_of_ne h, grow_of_some put_self]
  by_cases ht : K = ts.flatten
  · rw [ht, put_self, put_of_ne h.symm, grow_of_some put_self]
  rw [put_of_ne ht, put_of_ne hs, grow, grow, put_of_ne hs, put_of_ne ht, grow, grow]
  cases v K with
  | some x => rfl
  | none =>
    simp only [fork_put, hsymm, Option.none_or]
    by_cases h₁ : K ∈ marks ss ∨ Fork v ss.flatten K <;> by_cases h₂ : K ∈ marks ts ∨ Fork v ts.flatten K
    · simp [h₁, h₂]
    · rw [if_pos h₁, if_neg h₂]
      rcases h₁ with h₁ | h₁ <;> simp [h₁]
    · rw [if_neg h₁, if_pos h₂]
      rcases h₂ with h₂ | h₂ <;> simp [h₂]
    · rw [not_or] at h₁ h₂
      simp [h₁, h₂]

end Put

end Trie
