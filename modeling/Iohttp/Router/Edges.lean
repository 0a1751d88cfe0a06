/-
# The edges of the trie

The edge into a node has a label: a static node's bytes, the name of a parameter
or of a wildcard. A lookup that fails leaves the match as it was, so each loop
over the children can go on behind it.
-/
import Iohttp.Router.Pattern

namespace Iohttp
namespace Radix

def nodeLabel (n : Node) : Label :=
  match n.type with
  | .static => .lit n.pfx
  | .param => .par n.paramName
  | .wildcard => .wild n.paramName

def ProperEdge (n : Node) : Prop := n.type = .static → n.pfx ≠ [] ∧ slash ∉ n.pfx

theorem nodeLabel_congr {m n : Node} (h : m.pfx = n.pfx ∧ m.type = n.type ∧ m.paramName = n.paramName) :
    nodeLabel m = nodeLabel n := by
  simp [nodeLabel, h.1, h.2.1, h.2.2]

theorem ProperEdge.congr {m n : Node} (h : m.pfx = n.pfx ∧ m.type = n.type ∧ m.paramName = n.paramName)
    (hn : ProperEdge n) : ProperEdge m := by
  intro hm
  rw [h.1]
  exact hn (h.2.1 ▸ hm)

theorem lookupWildcardIn_fail : ∀ (cs : List Node) (rest : Bytes) (m : Match),
    (lookupWildcardIn cs rest m).1 ≠ 0 → (lookupWildcardIn cs rest m).2 = m
  | [], _, _, _ => rfl
  | c :: cs, rest, m, h => by
    rw [lookupWildcardIn] at h ⊢
    split_ifs at h ⊢
    · exact lookupWildcardIn_fail cs rest m h
    · rfl
    · exact absurd rfl h

mutual

/-- A lookup that fails leaves the match as it was. -/
theorem lookupRecursive_fail : ∀ (n : Node) (rest : Bytes) (m : Match),
    (lookupRecursive n rest m).1 ≠ 0 → (lookupRecursive n rest m).2 = m
  | ⟨_, _, _, entry, children⟩, rest, m, h => by
    rw [lookupRecursive] at h ⊢
    cases hr : skipSlash rest with
    | nil =>
      simp only [hr] at h ⊢
      split_ifs at h ⊢
      · exact absurd rfl h
      · rfl
    | cons c cs =>
      simp only [hr] at h ⊢
      have h1 := lookupStaticIn_fail children ((c :: cs).takeWhile (· ≠ slash))
        ((c :: cs).dropWhile (· ≠ slash)) m
      have h2 := lookupParamIn_fail children ((c :: cs).takeWhile (· ≠ slash))
        ((c :: cs).dropWhile (· ≠ slash))
        (lookupStaticIn children ((c :: cs).takeWhile (· ≠ slash)) ((c :: cs).dropWhile (· ≠ slash)) m).2
      split_ifs at h ⊢ with h0
      · exact absurd h0 h
      · rw [h1 h0] at h h2 ⊢
        generalize hp : lookupParamIn children _ _ m = r at h h2 ⊢
        obtain ⟨_ | rc, m'⟩ := r
        · simp only at h ⊢
          have hm : m' = m := h2 (by simp)
          rw [hm] at h ⊢
          exact lookupWildcardIn_fail _ _ _ h
        · exact h2 (by simpa using h)

theorem lookupStaticIn_fail : ∀ (cs : List Node) (seg next : Bytes) (m : Match),
    (lookupStaticIn cs seg next m).1 ≠ 0 → (lookupStaticIn cs seg next m).2 = m
  | [], _, _, _, _ => by rw [lookupStaticIn]
  | c :: cs, seg, next, m, h => by
    rw [lookupStaticIn] at h ⊢
    simp only at h ⊢
    split_ifs at h ⊢ with h0 h1 h2 h3
    · exact lookupStaticIn_fail cs seg next m h
    · exact absurd h2 h
    · rw [lookupRecursive_fail c next m h2] at h ⊢
      exact lookupStaticIn_fail cs seg next m h
    · exact absurd h3 h
    · rw [lookupStatic_fail c _ next m h3] at h ⊢
      exact lookupStaticIn_fail cs seg next m h

theorem lookupStatic_fail : ∀ (n : Node) (seg next : Bytes) (m : Match),
    (lookupStatic n seg next m).1 ≠ 0 → (lookupStatic n seg next m).2 = m
  | ⟨_, _, _, _, children⟩, seg, next, m, h => by
    exact lookupStaticIn_fail children seg next m h

theorem lookupParamIn_fail : ∀ (cs : List Node) (seg next : Bytes) (m : Match),
    (lookupParamIn cs seg next m).1 ≠ some 0 → (lookupParamIn cs seg next m).2 = m
  | [], _, _, _, _ => by rw [lookupParamIn]
  | c :: cs, seg, next, m, h => by
    rw [lookupParamIn] at h ⊢
    simp only at h ⊢
    split_ifs at h ⊢ with h0 h1 h2
    · exact lookupParamIn_fail cs seg next m h
    · rfl
    · exact absurd rfl h
    · rw [lookupRecursive_fail c next _ h2] at h ⊢
      simp only [List.take_left] at h ⊢
      exact lookupParamIn_fail cs seg next m h

end

def PathSegments (ts : List Bytes) : Prop := ∀ t ∈ ts, t ≠ [] ∧ slash ∉ t

theorem takeWhile_segment {t : Bytes} (h : slash ∉ t) (ts : List Bytes) :
    (t ++ segmentTail ts).takeWhile (· ≠ slash) = t ∧
      (t ++ segmentTail ts).dropWhile (· ≠ slash) = segmentTail ts := by
  have ht : ∀ x ∈ t, decide (x ≠ slash) = true := by
    intro x hx
    simpa using fun h0 : x = slash => h (h0 ▸ hx)
  constructor
  · rw [List.takeWhile_append_of_pos ht]
    cases ts <;> simp [segmentTail]
  · rw [List.dropWhile_append_of_pos ht]
    cases ts <;> simp [segmentTail]

theorem lookupStatic_edge {c : Node} {seg : Bytes} (hp : ProperEdge c)
    (h : ¬(c.type ≠ .static ∨ c.pfx.length > seg.length ∨ seg.take c.pfx.length ≠ c.pfx)) :
    nodeLabel c = .lit c.pfx ∧ c.pfx ≠ [] ∧ seg = c.pfx ++ seg.drop c.pfx.length := by
  rw [not_or, not_or, not_not, not_not] at h
  refine ⟨by simp [nodeLabel, h.1], (hp h.1).1, ?_⟩
  conv_lhs => rw [← List.take_append_drop c.pfx.length seg, h.2.2]

end Radix
end Iohttp
