/-
# Places of the route tree

What the nodes of a tree say about the places of its view: a place below the
root continues one edge, between two nodes there are only bytes, and the walk
of an insert stops behind a part of its pattern (`verdict_walk`).
-/
import Iohttp.Router.Routes

namespace Iohttp
namespace Radix

open Trie List

variable {K : List Tok} {a : List Bytes}

def Tok.isNamed : Tok → Bool
  | .ch _ => false
  | _ => true

/-- The place is that of a parameter or a wildcard. -/
def endsNamed (K : List Tok) : Bool := K.getLast?.any Tok.isNamed

/-- Between the nodes there are bytes only, and no choice. -/
def Compact (v : View Tok Entry) : Prop :=
  ∀ K k K', v (K ++ k :: K') ≠ none → v K = none →
    k.isNamed = false ∧ endsNamed K = false ∧ ∀ l L, v (K ++ l :: L) ≠ none → l = k

theorem endsNamed_append {L : List Tok} (h : L ≠ []) : endsNamed (K ++ L) = endsNamed L := by
  rw [endsNamed, getLast?_append_of_ne_nil _ h, endsNamed]

theorem endsNamed_map_ch (s : Bytes) : endsNamed (s.map .ch) = false := by
  cases h : (s.map Tok.ch).getLast? with
  | none => simp [endsNamed, h]
  | some t =>
    obtain ⟨b, _, rfl⟩ := mem_map.mp (mem_of_getLast? h)
    simp [endsNamed, h, Tok.isNamed]

variable {c n : Node}

theorem view_child (h : Wf n) {k : Tok} (hv : view n (k :: K) ≠ none) :
    ∃ c ∈ n.children, c.branch = some k.branch ∧ edge c <+: k :: K := by
  by_cases hex : ∃ c ∈ n.children, c.branch = some k.branch
  · obtain ⟨c, hc, hk⟩ := hex
    refine ⟨c, hc, hk, Decidable.not_not.mp fun hn => hv ?_⟩
    rw [view_cons, viewIn_of_branch h.proper h.apart hc hk, under_of_not hn]
  · push Not at hex
    exact absurd (by rw [view_cons, viewIn_eq_none h.proper hex]) hv

theorem view_edge (h : Wf n) (hc : c ∈ n.children) (K : List Tok) :
    view n (edge c ++ K) = view c K := by
  obtain ⟨k, s, he⟩ := exists_cons_of_ne_nil (h.proper c hc).edge_ne
  have hk : c.branch = some k.branch := by rw [Node.branch, he]; rfl
  have hview := viewIn_of_branch h.proper h.apart hc hk (s ++ K)
  rw [← cons_append, ← he, under_append] at hview
  rw [← hview, he, cons_append, view_cons]

theorem edge_bytes {a : Tok} {k : Tok} {q : List Tok}
    (h : edge c = a :: K ++ k :: q) : k.isNamed = false ∧ endsNamed (a :: K) = false := by
  by_cases hst : c.type = .static
  · rw [edge_static hst] at h
    obtain ⟨s₁, s₂, _, h₁, h₂⟩ := map_eq_append_iff.mp h
    obtain ⟨b, s₃, _, hb, _⟩ := map_eq_cons_iff.mp h₂
    refine ⟨by rw [← hb]; rfl, ?_⟩
    rw [← h₁]
    exact endsNamed_map_ch s₁
  · rw [edge_named hst] at h
    simp at h

theorem compact_view : ∀ n : Node, Wf n → Compact (view n) :=
  Node.induct fun n ih h K k K' hv hno => by
    cases K with
    | nil => simp at hno
    | cons a K =>
      obtain ⟨c, hc, hk, hpre⟩ := view_child h hv
      rcases prefix_or_prefix_of_prefix hpre (prefix_append (a :: K) (k :: K')) with
        ⟨K₂, hK₂⟩ | ⟨q, hq⟩
      · -- beyond the edge: the place below the child
        rw [← hK₂, append_assoc, view_edge h hc] at hv
        rw [← hK₂, view_edge h hc] at hno
        obtain ⟨hn, hends, hone⟩ := ih c hc (h.kids c hc) K₂ k K' hv hno
        have hne : K₂ ≠ [] := by
          rintro rfl
          simp at hno
        refine ⟨hn, by rw [← hK₂, endsNamed_append hne, hends], fun l L hl => hone l L ?_⟩
        rwa [← hK₂, append_assoc, view_edge h hc] at hl
      · cases q with
        | nil =>
          rw [append_nil] at hq
          rw [hq, ← append_nil (edge c), view_edge h hc, view_nil] at hno
          simp at hno
        | cons k' q =>
          -- within the edge: it goes on in one way
          have hnext : ∀ l L, view n (a :: K ++ l :: L) ≠ none → l = k' := by
            intro l L hl
            obtain ⟨c', hc', hk', hpre'⟩ := view_child h hl
            obtain rfl := h.unique hc hc' (hk.trans hk'.symm)
            have hpq : a :: K ++ k' :: q <+: a :: K ++ l :: L := by
              rw [hq]
              exact hpre'
            rw [prefix_append_right_inj, cons_prefix_cons] at hpq
            exact hpq.1.symm
          obtain rfl := hnext k K' hv
          exact ⟨(edge_bytes hq.symm).1, (edge_bytes hq.symm).2, hnext⟩

theorem verdict_walk : ∀ (segs : List Bytes) (v : View Tok Entry), ∃ segs₁ segs₂, segs = segs₁ ++ segs₂ ∧
    (verdict segs v).1 = pieces segs₁ ∧ (∀ seg ∈ segs₁, seg ≠ []) ∧ WellNamed segs₁ ∧
      NoClash v (pieces segs₁).flatten
  | [], v => ⟨[], [], rfl, rfl, by simp, trivial, noClash_nil v⟩
  | seg :: segs, v => by
    have hstop : ∀ rc, verdict (seg :: segs) v = ([], rc) → ∃ segs₁ segs₂, seg :: segs = segs₁ ++ segs₂ ∧
        (verdict (seg :: segs) v).1 = pieces segs₁ ∧ (∀ seg ∈ segs₁, seg ≠ []) ∧ WellNamed segs₁ ∧
          NoClash v (pieces segs₁).flatten := fun rc he =>
      ⟨[], seg :: segs, rfl, by rw [he]; rfl, by simp, trivial, noClash_nil v⟩
    by_cases hne : seg = []
    · exact hstop _ (by rw [verdict, if_pos hne])
    by_cases hstar : seg.head? = some star
    · have hv := verdict_wild segs v hstar
      split_ifs at hv with hbad hcl
      · exact hstop _ hv
      · exact hstop _ hv
      · rw [not_or, not_not] at hbad
        have hp : pieces [seg] = [[.wild seg.tail]] := by
          rw [pieces_cons [] hne, toks_wild hstar]
          rfl
        refine ⟨[seg], segs, rfl, by rw [hv, hp], by simpa using hne, .inr ?_, ?_⟩
        · rw [if_pos hstar]
          exact ⟨rfl, hbad.2⟩
        · rw [hp]
          exact (noClash_named v .wildcard seg.tail []).mpr ⟨hcl, noClash_nil _⟩
    by_cases hcolon : seg.head? = some colon
    · have hv := verdict_par segs v hcolon
      split_ifs at hv with hname hcl
      · exact hstop _ hv
      · exact hstop _ hv
      · obtain ⟨segs₁, segs₂, rfl, hp, hnes, hw, hnc⟩ := verdict_walk segs (sub v [.par seg.tail])
        refine ⟨seg :: segs₁, segs₂, rfl, by rw [hv, hp, pieces_cons _ hne, toks_par hcolon],
          by simpa [hne] using hnes, .inr ?_, ?_⟩
        · rw [if_neg hstar]
          exact ⟨fun _ => hname, hw⟩
        · rw [pieces_cons _ hne, toks_par hcolon]
          exact (noClash_named v .param seg.tail _).mpr ⟨hcl, hnc⟩
    · obtain ⟨segs₁, segs₂, rfl, hp, hnes, hw, hnc⟩ := verdict_walk segs (sub v (seg.map .ch))
      refine ⟨seg :: segs₁, segs₂, rfl, ?_, by simpa [hne] using hnes, .inr ?_, ?_⟩
      · rw [verdict_lit _ v hne hstar hcolon, hp, pieces_cons _ hne, toks_lit hstar hcolon]
      · rw [if_neg hstar]
        exact ⟨fun h => absurd h hcolon, hw⟩
      · rw [pieces_cons _ hne, toks_lit hstar hcolon, flatten_cons, noClash_lit]
        exact hnc

theorem mark_after : ∀ {segs : List Bytes} {K : List Tok} {k : Tok}, K ++ [k] <+: (pieces segs).flatten →
    K = [] ∨ K ∈ marks (pieces segs) ∨ ∃ q : Bytes, K ++ k :: q.map .ch ∈ marks (pieces segs) ∧
    k.isNamed = false
  | [], K, k, h => by simp [pieces] at h
  | seg :: segs, K, k, h => by
    by_cases hne : seg = []
    · simp [pieces_end segs hne] at h
    rw [pieces_cons segs hne, flatten_cons] at h
    rw [pieces_cons segs hne, marks]
    rcases prefix_or_prefix_of_prefix ((prefix_append K [k]).trans h)
      (prefix_append (label seg).toks (pieces segs).flatten) with ⟨q, hq⟩ | ⟨K', rfl⟩
    · cases q with
      | nil =>
        rw [append_nil] at hq
        exact .inr (.inl (by simp [hq]))
      | cons k' q =>
        -- within the segment
        have hk : k = k' := by
          rw [← hq, append_assoc, prefix_append_right_inj, cons_append,
            cons_prefix_cons] at h
          exact h.1
        subst hk
        cases hlab : label seg with
        | lit s =>
          rw [hlab, Label.toks] at hq
          obtain ⟨s₁, s₂, _, h₁, h₂⟩ := map_eq_append_iff.mp hq.symm
          obtain ⟨b, s₃, _, hb, h₃⟩ := map_eq_cons_iff.mp h₂
          refine .inr (.inr ⟨s₃, ?_, by rw [← hb]; rfl⟩)
          rw [h₃, hq, Label.toks]
          simp
        | par n =>
          rw [hlab, Label.toks] at hq
          rcases append_eq_singleton_iff.mp hq with hq | hq
          · exact .inl hq.1
          · simp at hq
        | wild n =>
          rw [hlab, Label.toks] at hq
          rcases append_eq_singleton_iff.mp hq with hq | hq
          · exact .inl hq.1
          · simp at hq
    · rw [append_assoc, prefix_append_right_inj] at h
      right
      rcases mark_after h with rfl | hm | ⟨q, hm, hk⟩
      · exact .inl (by simp)
      · exact .inl (mem_cons_of_mem _ (mem_map.mpr ⟨K', hm, rfl⟩))
      · refine .inr ⟨q, mem_cons_of_mem _ (mem_map.mpr ⟨_, hm, ?_⟩), hk⟩
        simp

theorem pieces_append (ha : ∀ seg ∈ a, seg ≠ []) (b : List Bytes) :
    pieces (a ++ b) = pieces a ++ pieces b := by
  have htake : a.takeWhile (fun seg => decide (seg ≠ [])) = a :=
    takeWhile_eq_self_iff.mpr (by simpa using ha)
  unfold pieces
  rw [takeWhile_append_of_pos (by simpa using ha), map_append, htake]

end Radix
end Iohttp
