/-
# When a lookup is sound

`lookup_static` goes on with the rest of a path segment in the static
children of the node it has reached, whether or not a pattern ended a segment
there, and `lookup_recursive` ends a path segment at any node, whether or not
a pattern did. So a lookup finds a pattern whose tokens the path spells, and
its labels only if these are determined by the tokens.

Every node is at a place of the patterns inserted so far, also of those whose
insertion failed, and a handler belongs to a pattern with the node's key whose
insertion succeeded (`Sound`). An insertion keeps that, and a lookup that
succeeds has gone from node to node (`Takes.labels`).
-/
import Iohttp.Router.Places

namespace Iohttp
namespace Radix

open Trie List

/-! ### The places of the nodes -/

variable {K : List Tok}

theorem Placed.through {A : List (List Label)} (h : Placed A K) : ∃ Q ∈ A, K <+: key Q := by
  rcases h with ⟨Q, hQ, i, rfl⟩ | ⟨Q, hQ, _, _, x, _, _, hx, _⟩
  · refine ⟨Q, hQ, ?_⟩
    conv_rhs => rw [← take_append_drop i Q, key_append]
    exact prefix_append _ _
  · exact ⟨Q, hQ, (prefix_append _ _).trans hx⟩

/-- The nodes are at places of the patterns `A`, and the handlers are those of
the calls `S`. -/
structure Sound (A : List (List Label)) (S : List Insert) (v : View Tok Entry) : Prop where
  placed : ∀ {K}, v K ≠ none → K ≠ [] → Placed A K
  entry : ∀ {K e}, v K = some e → e.handler ≠ 0 → ∃ i ∈ S, i.entry = e ∧ key (labels i.pattern) = K

section

variable {A : List (List Label)} {S : List Insert} {root : Node} {i : Insert}

theorem verdict_labels (hne : NoEmptySegment i.pattern) (v : View Tok Entry) :
    ∃ (n : ℕ) (segs : List Bytes),
    (verdict i.segs v).1 = pieces segs ∧ pieces segs = ((labels i.pattern).take n).map Label.toks := by
  obtain ⟨segs₁, segs₂, hsegs, hp, hnes, -, -⟩ := verdict_walk i.segs v
  have hall := pieces_labels hne
  rw [hsegs, pieces_append hnes] at hall
  refine ⟨(pieces segs₁).length, segs₁, hp, ?_⟩
  rw [map_take, ← hall, take_left]

/-- **A call makes nodes at places of its pattern only**, where a segment ends or
where it parts from another pattern. -/
theorem callView_placed (hw : Wf root) (hne : NoEmptySegment i.pattern)
    (hA : i.Given → labels i.pattern ∈ A) (h : ∀ {K}, view root K ≠ none → K ≠ [] → Placed A K)
    (hK : (callView (view root) i).1 K ≠ none) (hnil : K ≠ []) : Placed A K := by
  by_cases hold : view root K = none
  · unfold callView at hK
    split_ifs at hK with hg
    · obtain ⟨n, segs, hp, hlabels⟩ := verdict_labels hne (view root)
      have hflat : (pieces segs).flatten = key ((labels i.pattern).take n) := by
        rw [hlabels, flatten_toks]
      have hmark : K ∈ marks (pieces segs) → Placed A K := by
        intro hm
        obtain ⟨j, -, rfl⟩ := mem_marks.mp hm
        refine .inl ⟨_, hA hg, min (j + 1) n, ?_⟩
        rw [hlabels, ← map_take, flatten_toks, take_take]
      have hnode : K = (pieces segs).flatten ∨ K ∈ marks (pieces segs) ∨
          Fork (view root) (pieces segs).flatten K := by
        by_contra hn
        rw [not_or, not_or] at hn
        have hgrow := grow_eq_none (d := Entry.none).mpr ⟨hold, hn.2⟩
        simp only [insertView, hp] at hK
        split_ifs at hK
        · rw [Function.update_of_ne hn.1] at hK
          exact hK hgrow
        · exact hK hgrow
      rcases hnode with rfl | hm | ⟨k, l, hkl, hk, K', hl⟩
      · exact .inl ⟨_, hA hg, n, hflat.symm⟩
      · exact hmark hm
      · -- both go on with a byte
        rcases mark_after hk with rfl | hm | ⟨_, -, hbyte⟩
        · exact absurd rfl hnil
        · exact hmark hm
        · obtain ⟨hbyte', -, -⟩ := compact_view root hw K l K' hl hold
          cases k <;> cases l <;> simp [Tok.isNamed] at hbyte hbyte'
          rename_i x y
          obtain ⟨Q', hQ', hpre'⟩ := (h hl (by simp)).through
          refine .inr ⟨_, hA hg, Q', hQ', x, y, fun hxy => hkl (by rw [hxy]), ?_, ?_⟩
          · rw [hflat] at hk
            refine hk.trans ?_
            conv_rhs => rw [← take_append_drop n (labels i.pattern), key_append]
            exact prefix_append _ _
          · refine List.IsPrefix.trans ?_ hpre'
            exact ⟨K', by simp⟩
    · exact h hK hnil
  · exact h hold hnil

theorem Sound.call (h : Sound A S (view root)) (hw : Wf root)
    (hne : i.pattern.head? = some slash → NoEmptySegment i.pattern)
    (hA : i.Given → labels i.pattern ∈ A) :
    Sound A (if (insertOne root i).2 = 0 then i :: S else S) (view (insertOne root i).1) := by
  obtain ⟨-, hv, hrc⟩ := insertOne_view hw i
  rw [hv, hrc]
  constructor
  · intro K hK hnil
    by_cases hg : i.Given
    · exact callView_placed hw (hne hg.2) hA h.placed hK hnil
    · rw [callView, if_neg hg] at hK
      exact h.placed hK hnil
  · intro K e hK he
    rcases callView_entry hK he with hold | ⟨hz, rfl, rfl⟩
    · obtain ⟨j, hj, hje⟩ := h.entry hold he
      refine ⟨j, ?_, hje⟩
      split_ifs
      · exact mem_cons_of_mem i hj
      · exact hj
    · rw [if_pos hz]
      exact ⟨i, mem_cons_self, rfl, (place_eq (hne (callView_zero.mp hz).1.2)).symm⟩

end

/-- The patterns `insert_recursive` was called with. -/
def attempted (is : List Insert) : List (List Label) :=
  (is.filter fun i => i.entry.handler ≠ 0 ∧ i.pattern.head? = some slash).map fun i => labels i.pattern

variable {is : List Insert}

theorem mem_attempted {i : Insert} (hi : i ∈ is) (hg : i.Given) : labels i.pattern ∈ attempted is :=
  mem_map.mpr ⟨i, mem_filter.mpr ⟨hi, by simpa [Insert.Given] using hg⟩, rfl⟩

theorem foldl_sound {A : List (List Label)} : ∀ (is : List Insert) (t : Node × List Insert),
    (∀ i ∈ is, i.pattern.head? = some slash → NoEmptySegment i.pattern) →
    (∀ i ∈ is, i.Given → labels i.pattern ∈ A) → Wf t.1 → Sound A t.2 (view t.1) →
    Sound A (is.foldl insertStep t).2 (view (is.foldl insertStep t).1)
  | [], _, _, _, _, h => h
  | i :: is, t, hne, hA, hw, h => by
    have hcall := h.call hw (hne i mem_cons_self) (hA i mem_cons_self)
    exact foldl_sound is (insertStep t i) (forall_mem_cons.mp hne).2
      (forall_mem_cons.mp hA).2 (insertOne_view hw i).1 hcall

theorem insertAll_sound (hne : ∀ i ∈ is, i.pattern.head? = some slash → NoEmptySegment i.pattern) :
    Sound (attempted is) (insertAll is).2 (view (insertAll is).1) := by
  refine foldl_sound is (radixCreate, []) hne (fun i hi hg => mem_attempted hi hg) wf_create
    ⟨fun {K} hK hnil => ?_,
    fun {K e} hK he => ?_⟩
  · obtain ⟨k, K, rfl⟩ := exists_cons_of_ne_nil hnil
    exact absurd rfl hK
  · cases K with
    | nil =>
      cases hK
      exact absurd rfl he
    | cons k K => cases hK

theorem Leads.entry : ∀ {L : List Label} {v : View Tok Entry} {e : Entry}, Leads v L e →
    v (key L) = some e
  | [], _, _, h => h
  | l :: L, v, e, ⟨_, h⟩ => by
    rw [key_cons]
    exact h.entry

theorem Leads.nodes : ∀ {L₁ L₂ : List Label} {v : View Tok Entry} {e : Entry},
    Leads v (L₁ ++ L₂) e → L₁ ≠ [] →
    v (key L₁) ≠ none
  | [], _, _, _, _, hne => absurd rfl hne
  | [l], _, v, _, ⟨hnode, _⟩, _ => by simpa using hnode
  | l :: l' :: L₁, _, v, _, ⟨_, h⟩, _ => by
    rw [key_cons]
    exact Leads.nodes h (cons_ne_nil l' L₁)

theorem key_ne_nil {L : List Label} (hL : L ≠ []) (h : ∀ l ∈ L, l ≠ .lit []) : key L ≠ [] := by
  obtain ⟨l, L, rfl⟩ := exists_cons_of_ne_nil hL
  refine append_ne_nil_of_left_ne_nil ?_ _
  cases l <;> simp_all [Label.toks]

theorem Takes.labels : ∀ {ts : List Bytes} {v : View Tok Entry} {hit : Hit}, (∀ t ∈ ts, t ≠ []) →
    Takes v ts hit →
    hit.entry.handler ≠ 0 ∧ ∃ L, Leads v L hit.entry ∧ matchLabels L ts = some hit.params ∧
      captures L = hit.params.length ∧ ∀ l ∈ L, l ≠ .lit []
  | [], v, ⟨[], [], e⟩, _, ⟨hv, he⟩ => ⟨he, [], hv, rfl, rfl, by simp⟩
  | t :: ts, v, ⟨.static :: ks, ps, e⟩, hts, ⟨hnode, h⟩ => by
    obtain ⟨he, L, hl, hm, hc, hne⟩ := h.labels (forall_mem_cons.mp hts).2
    refine ⟨he, .lit t :: L,
      ⟨hnode, hl⟩, by simpa [matchLabels] using hm, by simpa [captures, Label.isLit] using hc, ?_⟩
    simpa using ⟨hts t mem_cons_self, hne⟩
  | t :: ts, v, ⟨.param :: ks, p :: ps, e⟩, hts, ⟨hval, hnode, h⟩ => by
    obtain ⟨he, L, hl, hm, hc, hne⟩ := h.labels (forall_mem_cons.mp hts).2
    refine ⟨he, .par p.name :: L, ⟨hnode, hl⟩,
      ?_, by simpa [captures, Label.isLit] using hc, by simpa using hne⟩
    rw [matchLabels, hm, ← hval]
    rfl
  | t :: ts, v, ⟨.wildcard :: ks, [p], e⟩, hts, ⟨hval, hks, hv, he⟩ => by
    refine ⟨he, [.wild p.name],
      ⟨by simp [Label.toks, hv], by simpa [Leads, Trie.sub, Label.toks] using hv⟩, ?_, rfl, by simp⟩
    rw [matchLabels, ← hval]

theorem find_room : ∀ {ts : List Bytes} {v : View Tok Entry} {c : ℕ} {hit : Hit}, c ≤ maxPathParams →
    find v ts c = some hit → c + hit.params.length ≤ maxPathParams
  | [], v, c, hit, hc, h => by
    rw [(done_eq_some h).2.1]
    exact hc
  | t :: ts, v, c, hit, hc, h => by
    by_cases hlast : t = [] ∧ ts = []
    · rw [find, if_pos hlast] at h
      rw [(done_eq_some h).2.1]
      exact hc
    rw [find_cons hlast, Option.or_eq_some_iff, Option.or_eq_some_iff] at h
    rcases h with h | ⟨-, h | ⟨-, h⟩⟩
    · unfold findLit at h
      split_ifs at h
      obtain ⟨rest, hf, rfl⟩ := Option.map_eq_some_iff.mp h
      exact (find_room hc hf : c + rest.params.length ≤ maxPathParams)
    · obtain ⟨name, -, hf⟩ := Option.bind_eq_some_iff.mp h
      split_ifs at hf with hfull
      obtain ⟨rest, hrest, rfl⟩ := Option.map_eq_some_iff.mp hf
      have hroom := find_room (Nat.succ_le_of_lt (not_le.mp hfull)) hrest
      rw [length_cons]
      omega
    · obtain ⟨name, -, hf⟩ := Option.bind_eq_some_iff.mp h
      split_ifs at hf with hfull
      obtain ⟨rest, -, rfl⟩ := Option.map_eq_some_iff.mp hf
      rw [length_singleton]
      omega

/-- The router keeps the segments of a pattern apart from those of the
patterns it was asked to insert: the pattern has no two neighbouring literal
segments, and no other one leaves it in the middle of a literal segment. -/
def Apart (is : List Insert) (P : List Label) : Prop := NoAdjacent P ∧ ∀ Q ∈ attempted is, Clear P Q
  deriving Decidable

/-- **Soundness of the router.** If every pattern inserted is kept apart from
all others, those with more captures than a match holds excepted, what a
lookup returns is the handler of a pattern that matches the path, with the
captures of that match. -/
theorem lookup_sound {is : List Insert}
    (hne : ∀ i ∈ is, i.pattern.head? = some slash → NoEmptySegment i.pattern)
    (hap : ∀ i ∈ (insertAll is).2, captures (labels i.pattern) ≤ maxPathParams →
      Apart is (labels i.pattern))
    {path : Bytes} (hp : path.head? = some slash) (hpne : NoEmptySegment path)
    (h : (radixLookup (insertAll is).1 path).1 = 0) :
    ∃ i ∈ (insertAll is).2, i.entry = (radixLookup (insertAll is).1 path).2.entry ∧
      matchLabels (labels i.pattern) (segments path) =
        some (radixLookup (insertAll is).1 path).2.params := by
  have hts : ∀ t ∈ segments path, t ≠ [] := fun t ht => segments_ne_nil ht
  have hsound := insertAll_sound hne
  rw [radixLookup_segments (insertAll_routed hne).1 hp hpne] at h ⊢
  obtain ⟨hit, hf⟩ : ∃ hit, find (view (insertAll is).1) (segments path) 0 = some hit := by
    rw [← Option.ne_none_iff_exists']
    intro hnone
    simp [hnone, result, ENOENT] at h
  rw [hf]
  obtain ⟨he, L, hl, hm, hc, hnonempty⟩ := (find_takes hts hf).labels hts
  obtain ⟨i, hi, hie, hk⟩ := hsound.entry hl.entry he
  have hroom : captures (labels i.pattern) ≤ maxPathParams := by
    have hroom := find_room (Nat.zero_le _) hf
    rw [captures_congr hk, hc]
    omega
  obtain ⟨hn, hclear⟩ := hap i hi hroom
  have hA : ∀ Q ∈ attempted is, ∀ l ∈ Q, l ≠ .lit [] := by
    intro Q hQ
    obtain ⟨j, _, rfl⟩ := mem_map.mp hQ
    exact labels_ne
  have hL : L = labels i.pattern := labels_eq hA L [] _ hk.symm hn hnonempty labels_ne hclear
    fun L₁ L₂ hsplit hne₁ => hsound.placed (Leads.nodes (hsplit ▸ hl) hne₁)
      (key_ne_nil hne₁ fun l hm => hnonempty l (hsplit ▸ mem_append_left L₂ hm))
  refine ⟨i, hi, hie, ?_⟩
  rw [← hL]
  exact hm

/-- Two routes with a parameter and a wildcard are kept apart; a request for
the first finds it. -/
theorem lookup_sound_users :
    let is : List Insert := [⟨bytes "/users/:id", ⟨1, 0, 0⟩⟩, ⟨bytes "/files/*path", ⟨2, 0, 0⟩⟩]
    (radixLookup (insertAll is).1 (bytes "/users/42")).1 = 0 ∧
      ∃ i ∈ (insertAll is).2, i.entry = (radixLookup (insertAll is).1 (bytes "/users/42")).2.entry ∧
        matchLabels (labels i.pattern) (segments (bytes "/users/42")) =
          some (radixLookup (insertAll is).1 (bytes "/users/42")).2.params :=
  ⟨by decide +kernel, lookup_sound (by decide +kernel) (by decide +kernel) (by decide +kernel)
    (by decide +kernel) (by decide +kernel)⟩

/-- The trie does not keep segment boundaries: with `/a/b` inserted, `/ab` is
found, which no pattern matches. -/
theorem lookup_not_sound :
    ¬∀ is : List Insert, (∀ i ∈ is, NoEmptySegment i.pattern) →
      ∀ path : Bytes, path.head? = some slash → NoEmptySegment path →
        (radixLookup (insertAll is).1 path).1 = 0 →
        ∃ i ∈ (insertAll is).2, i.entry = (radixLookup (insertAll is).1 path).2.entry ∧
          matchLabels (labels i.pattern) (segments path) =
            some (radixLookup (insertAll is).1 path).2.params := by
  intro h
  have := h [⟨bytes "/a/b", ⟨1, 0, 0⟩⟩] (by decide +kernel) (bytes "/ab") (by decide +kernel)
    (by decide +kernel) (by decide +kernel)
  revert this
  decide +kernel

end Radix
end Iohttp
