/-
# The nodes of a trie, one after the other

Every node of the trie with the edges that lead to it (`listNode`), in the order
in which a walk comes to them. There is one for every place of the view. The
edges to a place end where there are nodes on the way to it, so that they are the
segments of a pattern exactly if no node lies inside a segment (`Uncut`): another
pattern that parts from it there has cut the segment into several edges.
-/
import Iohttp.Router.Places

namespace Iohttp
namespace Radix

open Trie List

/-! ### The list of the nodes -/

mutual

/-- The nodes of a tree in preorder, with the labels of the edges to them. -/
def listNode : Node → List (List Label × Entry)
  | ⟨_, _, _, entry, children⟩ => ([], entry) :: listIn children

def listIn : List Node → List (List Label × Entry)
  | [] => []
  | c :: cs => (listNode c).map (fun x => (nodeLabel c :: x.1, x.2)) ++ listIn cs

end

theorem listNode_eq (n : Node) : listNode n = ([], n.entry) :: listIn n.children := by
  cases n
  rw [listNode]

variable {x : List Label × Entry} {c n : Node} {ls : List Label}

theorem mem_listIn : ∀ {cs : List Node},
    x ∈ listIn cs ↔ ∃ c ∈ cs, ∃ y ∈ listNode c, x = (nodeLabel c :: y.1, y.2)
  | [] => by simp [listIn]
  | c :: cs => by
    rw [listIn, mem_append, mem_map, mem_listIn]
    constructor
    · rintro (⟨y, hy, rfl⟩ | ⟨d, hd, hx⟩)
      · exact ⟨c, mem_cons_self, y, hy, rfl⟩
      · exact ⟨d, mem_cons_of_mem c hd, hx⟩
    · rintro ⟨d, hd, y, hy, rfl⟩
      rcases mem_cons.mp hd with rfl | hd
      · exact .inl ⟨y, hy, rfl⟩
      · exact .inr ⟨d, hd, y, hy, rfl⟩

theorem listNode_cases (h : x ∈ listNode n) :
    x = ([], n.entry) ∨ ∃ c ∈ n.children, ∃ y ∈ listNode c, x = (nodeLabel c :: y.1, y.2) := by
  rw [listNode_eq, mem_cons, mem_listIn] at h
  exact h

theorem mem_listNode_child (hc : c ∈ n.children) {e : Entry}
    (h : (ls, e) ∈ listNode c) : (nodeLabel c :: ls, e) ∈ listNode n := by
  rw [listNode_eq]
  exact mem_cons_of_mem _ (mem_listIn.mpr ⟨c, hc, _, h, rfl⟩)

theorem view_of_mem_listNode : ∀ n : Node, Wf n → ∀ x ∈ listNode n, view n (key x.1) = some x.2 :=
  Node.induct fun n ih h x hx => by
    rcases listNode_cases hx with rfl | ⟨c, hc, y, hy, rfl⟩
    · exact view_nil n
    · rw [key_cons]
      exact (view_edge h hc (key y.1)).trans (ih c hc (h.kids c hc) y hy)

theorem exists_mem_listNode : ∀ n : Node, Wf n → ∀ {K : List Tok} {e : Entry}, view n K = some e →
    ∃ ls, (ls, e) ∈ listNode n ∧ key ls = K :=
  Node.induct fun n ih h K e hv => by
    cases K with
    | nil =>
      rw [view_nil] at hv
      cases hv
      exact ⟨[], by rw [listNode_eq]; exact mem_cons_self, rfl⟩
    | cons k K =>
      obtain ⟨c, hc, _, K', hK⟩ := view_child h (by rw [hv]; simp)
      rw [← hK, view_edge h hc] at hv
      obtain ⟨ls, hls, hkey⟩ := ih c hc (h.kids c hc) hv
      refine ⟨_, mem_listNode_child hc hls, ?_⟩
      rw [key_cons, hkey]
      exact hK

theorem key_child (h : Wf n) {c' : Node} (hc : c ∈ n.children) (hc' : c' ∈ n.children)
    {K K' : List Tok} (he : edge c ++ K = edge c' ++ K') : c = c' := by
  obtain ⟨k, s, hk⟩ := exists_cons_of_ne_nil (h.proper c hc).edge_ne
  obtain ⟨k', s', hk'⟩ := exists_cons_of_ne_nil (h.proper c' hc').edge_ne
  rw [hk, hk', cons_append, cons_append, List.cons.injEq] at he
  refine h.unique hc hc' ?_
  rw [Node.branch, Node.branch, hk, hk', he.1]
  rfl

theorem listNode_inj : ∀ n : Node, Wf n → ∀ x ∈ listNode n, ∀ y ∈ listNode n, key x.1 = key y.1 →
    x = y :=
  Node.induct fun n ih h x hx y hy he => by
    have hne : ∀ c ∈ n.children, ∀ ls, key (nodeLabel c :: ls) ≠ [] := fun c hc ls =>
      append_ne_nil_of_left_ne_nil (h.proper c hc).edge_ne (key ls)
    rcases listNode_cases hx with rfl | ⟨c, hc, x', hx', rfl⟩
    · rcases listNode_cases hy with rfl | ⟨c', hc', y', _, rfl⟩
      · rfl
      · exact absurd he.symm (hne c' hc' y'.1)
    · rcases listNode_cases hy with rfl | ⟨c', hc', y', hy', rfl⟩
      · exact absurd he (hne c hc x'.1)
      · rw [key_cons, key_cons] at he
        obtain rfl := key_child h hc hc' he
        rw [ih c hc (h.kids c hc) x' hx' y' hy' (append_cancel_left he)]

theorem listIn_nodup : ∀ {cs : List Node}, (cs.map Node.branch).Nodup → (∀ c ∈ cs, (listNode c).Nodup) →
    (listIn cs).Nodup
  | [], _, _ => by simp [listIn]
  | c :: cs, hn, hk => by
    rw [map_cons, nodup_cons] at hn
    rw [listIn, nodup_append]
    refine ⟨(hk c mem_cons_self).map fun x y hxy => ?_,
      listIn_nodup hn.2 (forall_mem_cons.mp hk).2, ?_⟩
    · simp only [Prod.mk.injEq, List.cons.injEq, true_and] at hxy
      exact Prod.ext hxy.1 hxy.2
    · -- the edges of two children differ in how they go on
      intro x hx y hy hxy
      obtain ⟨x', _, rfl⟩ := mem_map.mp hx
      obtain ⟨d, hd, y', _, rfl⟩ := mem_listIn.mp hy
      have hlabel : nodeLabel c = nodeLabel d := (List.cons.inj (Prod.ext_iff.mp hxy).1).1
      refine hn.1 (mem_map.mpr ⟨d, hd, ?_⟩)
      rw [Node.branch, Node.branch, edge, edge, hlabel]

theorem listNode_nodup : ∀ n : Node, Wf n → (listNode n).Nodup :=
  Node.induct fun n ih h => by
    rw [listNode_eq, nodup_cons]
    refine ⟨fun hm => ?_, listIn_nodup h.apart fun c hc => ih c hc (h.kids c hc)⟩
    obtain ⟨c, _, y, _, hx⟩ := mem_listIn.mp hm
    exact absurd (Prod.ext_iff.mp hx).1 (by simp)

theorem toks_ne_nil : ∀ n : Node, Wf n → ∀ x ∈ listNode n, ∀ s ∈ x.1.map Label.toks, s ≠ [] :=
  Node.induct fun n ih h x hx s hs => by
    rcases listNode_cases hx with rfl | ⟨c, hc, y, hy, rfl⟩
    · simp at hs
    · rw [map_cons, mem_cons] at hs
      rcases hs with rfl | hs
      · exact (h.proper c hc).edge_ne
      · exact ih c hc (h.kids c hc) y hy s hs

/-- **The edges end where there are nodes.** On the way to a node, there is a node
exactly where an edge ends. -/
theorem mem_marks_chain : ∀ n : Node, Wf n → ∀ x ∈ listNode n, ∀ {K : List Tok}, K <+: key x.1 → K ≠ [] →
    (view n K ≠ none ↔ K ∈ marks (x.1.map Label.toks)) :=
  Node.induct fun n ih h x hx K hpre hK => by
    rcases listNode_cases hx with rfl | ⟨c, hc, y, hy, rfl⟩
    · exact absurd (prefix_nil.mp hpre) hK
    have hy_ne := toks_ne_nil c (h.kids c hc) y hy
    constructor
    · intro hv
      obtain ⟨k, K, rfl⟩ := exists_cons_of_ne_nil hK
      obtain ⟨c', hc', _, K', hK'⟩ := view_child h hv
      obtain ⟨L, hL⟩ := hpre
      rw [← hK', append_assoc] at hL
      obtain rfl := key_child h hc' hc hL
      rw [← hK', view_edge h hc'] at hv
      rw [← hK']
      by_cases hnil : K' = []
      · rw [hnil, append_nil]
        exact mem_cons_self
      · have hpre' : K' <+: key y.1 := ⟨L, append_cancel_left hL⟩
        exact mem_cons_of_mem _ (mem_map_of_mem
          ((ih c' hc' (h.kids c' hc') y hy hpre' hnil).mp hv))
    · intro hm
      rcases mem_cons.mp hm with rfl | hm
      · have hv := view_edge h hc []
        rw [append_nil, view_nil] at hv
        rw [show (nodeLabel c).toks = edge c from rfl, hv]
        simp
      · obtain ⟨K', hK', rfl⟩ := mem_map.mp hm
        rw [show view n ((nodeLabel c).toks ++ K') = view c K' from view_edge h hc K']
        refine (ih c hc (h.kids c hc) y hy ?_ (ne_nil_of_mem_marks hy_ne hK')).mpr hK'
        exact prefix_of_mem_marks hK'

/-- The edges that lead to a place. -/
def chainTo (root : Node) (K : List Tok) : List Label :=
  (((listNode root).find? fun x => key x.1 = K).map Prod.fst).getD []

section

variable {root : Node} (hw : Wf root)

include hw

theorem chainTo_of_mem (hx : x ∈ listNode root) : chainTo root (key x.1) = x.1 := by
  unfold chainTo
  cases hf : (listNode root).find? fun y => key y.1 = key x.1 with
  | none => exact absurd (decide_eq_true rfl) (find?_eq_none.mp hf x hx)
  | some y =>
    have hkey : key y.1 = key x.1 := by simpa using find?_some hf
    rw [listNode_inj root hw y (mem_of_find?_eq_some hf) x hx hkey]
    rfl

theorem mem_chainTo {K : List Tok} {e : Entry} (hv : view root K = some e) :
    (chainTo root K, e) ∈ listNode root ∧ key (chainTo root K) = K := by
  obtain ⟨ls, hls, rfl⟩ := exists_mem_listNode root hw hv
  have he : chainTo root (key ls) = ls := chainTo_of_mem hw hls
  rw [he]
  exact ⟨hls, rfl⟩

theorem mem_listNode {e : Entry} :
    (ls, e) ∈ listNode root ↔ view root (key ls) = some e ∧ chainTo root (key ls) = ls := by
  constructor
  · exact fun h => ⟨view_of_mem_listNode root hw _ h, chainTo_of_mem hw h⟩
  · rintro ⟨hv, hls⟩
    have hm := (mem_chainTo hw hv).1
    rwa [hls] at hm

end

/-- No node lies inside a segment: on the way to the place there are nodes only
where a segment ends. -/
def Uncut (root : Node) (ls : List Label) : Prop :=
  ∀ K ∈ (key ls).inits, K ≠ [] → view root K ≠ none → K ∈ marks (ls.map Label.toks)
  deriving Decidable

theorem toks_injective : Function.Injective Label.toks := by
  intro l l' h
  cases l with
  | lit s =>
    cases l' with
    | lit s' => rw [map_ch_inj.mp h]
    | par n' | wild n' => cases s <;> simp [Label.toks] at h
  | par n =>
    cases l' with
    | lit s' => cases s' <;> simp [Label.toks] at h
    | par n' => rw [Tok.par.inj (singleton_inj.mp h)]
    | wild n' => simp [Label.toks] at h
  | wild n =>
    cases l' with
    | lit s' => cases s' <;> simp [Label.toks] at h
    | par n' => simp [Label.toks] at h
    | wild n' => rw [Tok.wild.inj (singleton_inj.mp h)]

theorem labels_toks_ne {pattern : Bytes} : ∀ s ∈ (labels pattern).map Label.toks, s ≠ [] := by
  intro s hs
  obtain ⟨l, hl, rfl⟩ := mem_map.mp hs
  have hne := labels_ne l hl
  cases l with
  | lit t =>
    intro h
    exact hne (by rw [map_eq_nil_iff.mp h])
  | par n | wild n => simp [Label.toks]

section

variable {root : Node} {pattern : Bytes} {e : Entry} (hw : Wf root)
  (hr : Routed (view root) (labels pattern) e)

include hw hr

theorem marks_chainTo : marks ((labels pattern).map Label.toks) ⊆
    marks ((chainTo root (key (labels pattern))).map Label.toks) := by
  obtain ⟨hmem, hkey⟩ := mem_chainTo hw hr.entry
  intro K hK
  refine (mem_marks_chain root hw _ hmem ?_ (ne_nil_of_mem_marks labels_toks_ne hK)).mp ?_
  · rw [hkey, ← flatten_toks]
    exact prefix_of_mem_marks hK
  · obtain ⟨j, _, rfl⟩ := mem_marks.mp hK
    rw [← map_take, flatten_toks]
    exact hr.nodes (j + 1)

theorem chainTo_eq_of_length
    (hlen : (chainTo root (key (labels pattern))).length ≤ (labels pattern).length) :
    chainTo root (key (labels pattern)) = labels pattern := by
  have hne := toks_ne_nil root hw _ (mem_chainTo hw hr.entry).1
  have h := eq_of_marks_of_length labels_toks_ne hne (marks_chainTo hw hr)
    (by rwa [length_map, length_map])
  exact (map_injective_iff.mpr toks_injective h).symm

/-- **The edges to a route are its segments exactly if none of them is cut.** -/
theorem chainTo_eq_iff :
    chainTo root (key (labels pattern)) = labels pattern ↔ Uncut root (labels pattern) := by
  obtain ⟨hmem, hkey⟩ := mem_chainTo hw hr.entry
  have hchain := fun {K : List Tok} => mem_marks_chain root hw _ hmem (K := K)
  simp only [hkey] at hchain
  constructor
  · intro he K hK hne hv
    have hm := (hchain ((mem_inits K _).mp hK) hne).mp hv
    rwa [he] at hm
  · intro hcut
    have hsub : marks ((chainTo root (key (labels pattern))).map Label.toks) ⊆
        marks ((labels pattern).map Label.toks) := fun K hK => by
      have hpre : K <+: key (labels pattern) := by
        have := prefix_of_mem_marks hK
        rwa [flatten_toks, hkey] at this
      have hne := ne_nil_of_mem_marks (toks_ne_nil root hw _ hmem) hK
      exact hcut K ((mem_inits K _).mpr hpre) hne ((hchain hpre hne).mpr hK)
    have h := eq_of_marks labels_toks_ne (toks_ne_nil root hw _ hmem) (marks_chainTo hw hr) hsub
    exact (map_injective_iff.mpr toks_injective h).symm

end

end Radix
end Iohttp
