/-
# What the nodes of the trie are

The tree of `ioh_radix.c` seen as the function that gives the entry at every
place with a node (`view`). `ioh_radix_insert` grows it by the places where a
segment of the pattern ends and where the pattern parts from another one
(`insertRecursive_view`): how the tree was built before, and in which order its
nodes were split, does not matter.

Key definitions: `view`, `Wf`, `verdict`, `insertView`.

Key theorems: `insertRecursive_view`.
-/
import Iohttp.Router.Edges
import Iohttp.Lib.Trie

namespace Iohttp
namespace Radix

open Trie List

/-! ### The view of a tree -/

def edge (n : Node) : List Tok := (nodeLabel n).toks

mutual

def view : Node → List Tok → Option Entry
  | ⟨_, _, _, entry, _⟩, [] => some entry
  | ⟨_, _, _, _, children⟩, k :: K => viewIn children (k :: K)

/-- The entry at a place below one of the children. -/
def viewIn : List Node → List Tok → Option Entry
  | [], _ => none
  | c :: cs, K => (if edge c <+: K then view c (K.drop (edge c).length) else none).or (viewIn cs K)

end

/-- How a token goes on: names do not matter. -/
inductive Branch where
  | ch (c : UInt8)
  | par
  | wild
  deriving DecidableEq

def Tok.branch : Tok → Branch
  | .ch c => .ch c
  | .par _ => .par
  | .wild _ => .wild

def Node.branch (n : Node) : Option Branch := (edge n).head?.map Tok.branch

/-- No two children of a node start with the same byte, and at most one of them
is a parameter and one a wildcard. -/
inductive Wf : Node → Prop
  | mk {n : Node} (proper : ∀ c ∈ n.children, ProperEdge c) (apart : (n.children.map Node.branch).Nodup)
      (kids : ∀ c ∈ n.children, Wf c) : Wf n

variable {n x : Node}

theorem Wf.proper (h : Wf n) : ∀ c ∈ n.children, ProperEdge c := by cases h; assumption

theorem Wf.apart (h : Wf n) : (n.children.map Node.branch).Nodup := by cases h; assumption

theorem Wf.kids (h : Wf n) : ∀ c ∈ n.children, Wf c := by cases h; assumption

@[simp] theorem view_nil (n : Node) : view n [] = some n.entry := by
  cases n
  simp [view]

theorem view_cons (n : Node) (k : Tok) (K : List Tok) :
    view n (k :: K) = viewIn n.children (k :: K) := by
  cases n
  simp [view]

theorem viewIn_cons (c : Node) (cs : List Node) (K : List Tok) :
    viewIn (c :: cs) K = (under (edge c) (view c) K).or (viewIn cs K) := by
  by_cases h : edge c <+: K <;> simp [viewIn, under, h]

theorem ProperEdge.edge_ne (h : ProperEdge n) : edge n ≠ [] := by
  unfold edge nodeLabel
  cases ht : n.type with
  | static => simpa [Label.toks] using (h ht).1
  | param | wildcard => simp [Label.toks]

variable {k : Tok} {c : Node}

theorem under_eq_none (hp : ProperEdge c) {K : List Tok}
    (h : c.branch ≠ some k.branch) (v : List Tok → Option Entry) : under (edge c) v (k :: K) = none := by
  refine under_of_not fun hpre => h ?_
  obtain ⟨l, L, he⟩ := exists_cons_of_ne_nil hp.edge_ne
  rw [he, cons_prefix_cons] at hpre
  rw [Node.branch, he, ← hpre.1]
  rfl

theorem viewIn_eq_none : ∀ {cs : List Node}, (∀ c ∈ cs, ProperEdge c) → ∀ {k : Tok} {K : List Tok},
    (∀ c ∈ cs, c.branch ≠ some k.branch) → viewIn cs (k :: K) = none
  | [], _, _, _, _ => by simp [viewIn]
  | c :: cs, hp, k, K, h => by
    rw [viewIn_cons, under_eq_none (hp c mem_cons_self) (h c mem_cons_self), Option.none_or]
    exact viewIn_eq_none (forall_mem_cons.mp hp).2
      (forall_mem_cons.mp h).2

theorem viewIn_of_branch : ∀ {cs : List Node}, (∀ c ∈ cs, ProperEdge c) → (cs.map Node.branch).Nodup →
    ∀ {c : Node}, c ∈ cs → ∀ {k : Tok}, c.branch = some k.branch → ∀ (K : List Tok),
    viewIn cs (k :: K) = under (edge c) (view c) (k :: K)
  | c :: cs, hp, hn, c', hc, k, hk, K => by
    rw [map_cons, nodup_cons] at hn
    have hp' := (forall_mem_cons.mp hp).2
    rw [viewIn_cons]
    rcases mem_cons.mp hc with rfl | hc
    · rw [viewIn_eq_none hp' fun x hx he => hn.1 (mem_map.mpr ⟨x, hx, he.trans hk.symm⟩), Option.or_none]
    · rw [under_eq_none (hp c mem_cons_self) fun he => hn.1 (mem_map.mpr ⟨c', hc, hk.trans he.symm⟩),
        Option.none_or]
      exact viewIn_of_branch hp' hn.2 hc hk K

variable {cs cs' : List Node}

theorem viewIn_congr (hp : ∀ c ∈ cs, ProperEdge c) (hn : (cs.map Node.branch).Nodup)
    (hp' : ∀ c ∈ cs', ProperEdge c) (hn' : (cs'.map Node.branch).Nodup)
    (h : ∀ c : Node, c.branch = some k.branch → (c ∈ cs ↔ c ∈ cs')) (K : List Tok) :
    viewIn cs (k :: K) = viewIn cs' (k :: K) := by
  by_cases hex : ∃ c ∈ cs, c.branch = some k.branch
  · obtain ⟨c, hc, hk⟩ := hex
    rw [viewIn_of_branch hp hn hc hk, viewIn_of_branch hp' hn' ((h c hk).mp hc) hk]
  · push Not at hex
    rw [viewIn_eq_none hp hex, viewIn_eq_none hp' fun c hc hk => hex c ((h c hk).mpr hc) hk]

/-! ### A child is put in -/

/-- `cs'` are the children `cs` with `c` in the place of the one that goes on
like it, or as a new one. -/
def Puts (cs : List Node) (c : Node) (cs' : List Node) : Prop :=
  cs'.Perm (c :: cs.filter fun x => x.branch ≠ c.branch)

theorem filter_branch {b : Option Branch} (h : ∀ x ∈ cs, x.branch ≠ b) :
    (cs.filter fun x => x.branch ≠ b) = cs :=
  filter_eq_self.mpr fun x hx => by simpa using h x hx

theorem insertChild_perm (c : Node) : ∀ cs : List Node, (insertChild c cs).Perm (c :: cs)
  | [] => List.Perm.refl _
  | x :: cs => by
    unfold insertChild
    split_ifs
    · exact List.Perm.refl _
    · exact ((insertChild_perm c cs).cons x).trans (List.Perm.swap c x cs)

theorem puts_insertChild (h : ∀ x ∈ cs, x.branch ≠ c.branch) : Puts cs c (insertChild c cs) := by
  rw [Puts, filter_branch h]
  exact insertChild_perm c cs

theorem puts_head (hx : x.branch = c.branch)
    (hn : ((x :: cs).map Node.branch).Nodup) : Puts (x :: cs) c (c :: cs) := by
  rw [map_cons, nodup_cons] at hn
  rw [Puts, filter_cons_of_neg (by simpa using hx), filter_branch]
  intro y hy he
  exact hn.1 (mem_map.mpr ⟨y, hy, he.trans hx.symm⟩)

theorem Puts.cons (h : Puts cs c cs') (hx : x.branch ≠ c.branch) : Puts (x :: cs) c (x :: cs') := by
  rw [Puts, filter_cons_of_pos (by simpa using hx)]
  exact (List.Perm.cons x h).trans (List.Perm.swap c x _)

section

variable {cs cs' : List Node} {c : Node}

theorem Puts.mem (h : Puts cs c cs') : x ∈ cs' ↔ x = c ∨ x ∈ cs ∧ x.branch ≠ c.branch := by
  rw [List.Perm.mem_iff h]
  simp

theorem Puts.proper (h : Puts cs c cs') (hp : ∀ x ∈ cs, ProperEdge x) (hc : ProperEdge c) :
    ∀ x ∈ cs', ProperEdge x := by
  intro x hx
  rcases h.mem.mp hx with rfl | ⟨hx, _⟩
  · exact hc
  · exact hp x hx

theorem Puts.apart (h : Puts cs c cs') (hn : (cs.map Node.branch).Nodup) :
    (cs'.map Node.branch).Nodup := by
  rw [(List.Perm.map _ h).nodup_iff, map_cons, nodup_cons]
  refine ⟨fun hm => ?_, hn.sublist (filter_sublist.map _)⟩
  obtain ⟨x, hx, he⟩ := mem_map.mp hm
  simp [he] at hx

theorem Puts.viewIn (h : Puts cs c cs') (hp : ∀ x ∈ cs, ProperEdge x) (hn : (cs.map Node.branch).Nodup)
    (hc : ProperEdge c) (k : Tok) (K : List Tok) :
    Radix.viewIn cs' (k :: K) =
      if c.branch = some k.branch then under (edge c) (view c) (k :: K) else Radix.viewIn cs
      (k :: K) := by
  split_ifs with hk
  · exact viewIn_of_branch (h.proper hp hc) (h.apart hn) (h.mem.mpr (.inl rfl)) hk K
  · refine viewIn_congr (h.proper hp hc) (h.apart hn) hp hn (fun x hx => ?_) K
    rw [h.mem, hx]
    constructor
    · rintro (rfl | ⟨hm, _⟩)
      · exact absurd hx hk
      · exact hm
    · exact fun hm => .inr ⟨hm, fun he => hk he.symm⟩

end

def SameEdge (m n : Node) : Prop := m.pfx = n.pfx ∧ m.type = n.type ∧ m.paramName = n.paramName

variable {c' m : Node} {rc : ℤ}

theorem SameEdge.edge (h : SameEdge m n) : edge m = edge n := by
  rw [Radix.edge, Radix.edge, nodeLabel_congr h]

theorem SameEdge.branch (h : SameEdge m n) : m.branch = n.branch := by
  rw [Node.branch, Node.branch, h.edge]

theorem not_fork_cons {v : List Tok → Option Entry} {l : Tok} {s K : List Tok} (h : k ≠ l) :
    ¬Fork v (k :: s) (l :: K) := by
  rintro ⟨a, b, _, hp, _⟩
  exact h (cons_prefix_cons.mp hp).1.symm

variable {s : List Tok} {w : List Tok → Option Entry} {q r : Bytes}

theorem Wf.put (h : Wf n) (hp : ProperEdge c) (hc : Wf c)
    (hcs : Puts n.children c cs') (hk : c.branch = some k.branch)
    (hw : ∀ l K, l.branch = k.branch →
      under (edge c) (view c) (l :: K) = graft Entry.none (view n) (k :: s) w (l :: K)) :
    Wf { n with children := cs' } ∧
      view { n with children := cs' } = graft Entry.none (view n) (k :: s) w := by
  refine ⟨.mk (hcs.proper h.proper hp) (hcs.apart h.apart) fun x hx => ?_, funext fun K => ?_⟩
  · rcases hcs.mem.mp hx with rfl | ⟨hx, _⟩
    · exact hc
    · exact h.kids x hx
  · cases K with
    | nil => rw [graft_of_not (by simp)]; simp
    | cons l K =>
      rw [view_cons, hcs.viewIn h.proper h.apart hp]
      split_ifs with hl
      · exact hw l K (Option.some.inj (hl.symm.trans hk))
      · have hkl : k ≠ l := fun he => hl (he ▸ hk)
        rw [graft_of_not fun hpre => hkl (cons_prefix_cons.mp hpre).1, if_neg (not_fork_cons hkl),
          Option.or_none, view_cons]

theorem view_of_no_children (h : n.children = []) : view n = ensure n.entry fun _ => none := by
  funext K
  cases K with
  | nil => simp [ensure]
  | cons k K => simp [view_cons, h, viewIn, ensure]

theorem wf_of_no_children (h : n.children = []) : Wf n :=
  .mk (by simp [h]) (by simp [h]) (by simp [h])

theorem edge_static (h : n.type = .static) : edge n = n.pfx.map .ch := by
  simp [edge, nodeLabel, h, Label.toks]

theorem view_pfx (n : Node) (pfx : Bytes) : view { n with pfx := pfx } = view n := by
  cases n
  funext K
  cases K <;> simp [view]

theorem wf_pfx (h : Wf n) (pfx : Bytes) : Wf { n with pfx := pfx } := .mk h.proper h.apart h.kids

theorem Wf.add (h : Wf n) (hp : ProperEdge c) (hc : Wf c)
    (hnew : ∀ x ∈ n.children, x.branch ≠ c.branch) :
    Wf (addChild n c) ∧ view (addChild n c) = graft Entry.none (view n) (edge c) (view c) := by
  obtain ⟨k, s, he⟩ := exists_cons_of_ne_nil hp.edge_ne
  have hk : c.branch = some k.branch := by rw [Node.branch, he]; rfl
  have hnone : ∀ l : Tok, l.branch = k.branch → ∀ K, view n (l :: K) = none := fun l hl K => by
    rw [view_cons, viewIn_eq_none h.proper fun x hx hb => hnew x hx (by rw [hb, hk, hl])]
  rw [he]
  refine h.put hp hc (puts_insertChild hnew) hk fun l K hl => ?_
  rw [he]
  by_cases hpre : k :: s <+: l :: K
  · obtain ⟨K', hK⟩ := hpre
    rw [← hK, under_append, graft_append]
  · rw [under_of_not hpre, graft_of_not hpre, hnone l hl, if_neg]
    · rfl
    · rintro ⟨a, b, _, _, K', hv⟩
      exact hv (hnone l hl _)

theorem sub_eq_none (h : Wf n) (hnew : ∀ x ∈ n.children, x.branch ≠ some k.branch)
    (s : List Tok) : sub (view n) (k :: s) = fun _ => none := by
  funext K
  rw [sub, cons_append, view_cons, viewIn_eq_none h.proper hnew]

theorem Wf.replace (h : Wf n) (hm : c ∈ n.children) (hb : c'.branch = c.branch)
    (hp : ProperEdge c') (hc : Wf c') (hcs : Puts n.children c' cs') (hk : c.branch = some k.branch)
    (hw : under (edge c') (view c') = graft Entry.none (under (edge c) (view c)) (k :: s) w) :
    Wf { n with children := cs' } ∧ view { n with children := cs' } = graft Entry.none (view n)
    (k :: s) w := by
  refine h.put hp hc hcs (hb.trans hk) fun l K hl => ?_
  rw [hw]
  refine graft_congr (fun K => ?_) K
  rw [view_cons, viewIn_of_branch h.proper h.apart hm (hk.trans (by rw [hl]))]

theorem sub_of_branch (h : Wf n) (hm : c ∈ n.children) (hk : c.branch = some k.branch) (s : List Tok) :
    sub (view n) (k :: s) = sub (under (edge c) (view c)) (k :: s) := by
  funext K
  rw [sub, sub, cons_append, view_cons, viewIn_of_branch h.proper h.apart hm hk]

theorem split_view (hc : Wf c) (hst : c.type = .static) (hpfx : c.pfx = r ++ q)
    (hq : q ≠ []) (hsl : slash ∉ c.pfx) :
    Wf (splitStaticNode c r.length) ∧ edge (splitStaticNode c r.length) = r.map .ch ∧
      view (splitStaticNode c r.length) = ensure Entry.none (under (q.map .ch) (view c)) := by
  have hdrop : c.pfx.drop r.length = q := by rw [hpfx, drop_left]
  have htake : c.pfx.take r.length = r := by rw [hpfx, take_left]
  have hproper : ProperEdge { c with pfx := q } := fun _ =>
    ⟨hq, fun hs => hsl (hpfx ▸ mem_append_right r hs)⟩
  unfold splitStaticNode
  rw [hdrop, htake]
  refine ⟨.mk ?_ ?_ ?_, rfl, ?_⟩
  · simpa [addChild, insertChild, nodeCreate] using hproper
  · simp [addChild, insertChild, nodeCreate]
  · simpa [addChild, insertChild, nodeCreate] using wf_pfx hc q
  · funext K
    cases K with
    | nil => simp [view_nil, addChild, nodeCreate, ensure, under, hq]
    | cons k K =>
      show viewIn [{ c with pfx := q }] (k :: K) = _
      rw [viewIn_cons, view_pfx, show edge { c with pfx := q } = q.map .ch from edge_static hst]
      simp [viewIn, ensure]

/-! ### A literal segment -/

theorem insertStaticIn_cases (descend : Node → Node × ℤ) (segs : List Bytes) {child : Node}
    (hp : ProperEdge child) (rest : List Node) (c : UInt8) (seg : Bytes) :
    (child.branch ≠ some (.ch c) ∧ insertStaticIn descend (segmentTail segs) (child :: rest) (c :: seg) =
      (insertStaticIn descend (segmentTail segs) rest (c :: seg)).map fun r => (child :: r.1, r.2)) ∨
    (child.type = .static ∧ child.branch = some (.ch c) ∧
      ((child.pfx = c :: seg ∧ insertStaticIn descend (segmentTail segs) (child :: rest) (c :: seg) =
        some ((descend child).1 :: rest, (descend child).2)) ∨
      (∃ q, q ≠ [] ∧ child.pfx = c :: seg ++ q ∧
        insertStaticIn descend (segmentTail segs) (child :: rest) (c :: seg) =
          some ((descend (splitStaticNode child (c :: seg).length)).1 :: rest,
            (descend (splitStaticNode child (c :: seg).length)).2)) ∨
      (∃ r a s b q, r ≠ [] ∧ a ≠ b ∧ c :: seg = r ++ a :: s ∧ child.pfx = r ++ b :: q ∧
        insertStaticIn descend (segmentTail segs) (child :: rest) (c :: seg) =
          some (addChild (splitStaticNode child r.length)
            (descend (nodeCreate (a :: s) .static)).1 :: rest,
            (descend (nodeCreate (a :: s) .static)).2)) ∨
      (∃ a s, c :: seg = child.pfx ++ a :: s ∧
        insertStaticIn descend (segmentTail segs) (child :: rest) (c :: seg) =
          some ((insertStaticSegment descend (segmentTail segs) child (a :: s)).1 :: rest,
            (insertStaticSegment descend (segmentTail segs) child (a :: s)).2)))) := by
  rw [insertStaticIn]
  by_cases hst : child.type = .static
  swap
  · left
    refine ⟨?_, by simp [hst]⟩
    unfold Node.branch edge nodeLabel
    cases ht : child.type <;> simp_all [Label.toks, Tok.branch]
  obtain ⟨hpne, hpsl⟩ := hp hst
  obtain ⟨b, p, hpfx⟩ := exists_cons_of_ne_nil hpne
  have hbr : child.branch = some (.ch b) := by
    rw [Node.branch, edge_static hst, hpfx]
    rfl
  rw [commonPrefixLen_tail (c :: seg) child.pfx segs hpsl]
  by_cases hcb : c = b
  swap
  · left
    have h0 : commonPrefixLen (c :: seg) child.pfx = 0 := by simp [hpfx, commonPrefixLen, hcb]
    refine ⟨by simpa [hbr] using fun h => hcb h.symm, ?_⟩
    simp [h0]
  right
  refine ⟨hst, by rw [hbr, hcb], ?_⟩
  have hpos : 0 < commonPrefixLen (c :: seg) child.pfx := by
    rw [hpfx, hcb]
    exact commonPrefixLen_pos
  have hle := commonPrefixLen_le (c :: seg) child.pfx
  have htake := commonPrefixLen_take (c :: seg) child.pfx
  have hdrop := @commonPrefixLen_drop (c :: seg) child.pfx
  generalize commonPrefixLen (c :: seg) child.pfx = n at hpos hle htake hdrop
  have hseg := take_append_drop n (c :: seg)
  have hchild := take_append_drop n child.pfx
  simp only [hst, ne_eq, not_true_eq_false, false_or, hpos.ne', if_false]
  by_cases hpl : n = child.pfx.length
  · rw [hpl, take_length] at htake
    by_cases hsl : n = (c :: seg).length
    · left
      rw [← hpl, hsl, take_length] at htake
      exact ⟨htake.symm, by rw [if_pos ⟨hpl, hsl⟩]⟩
    · right; right; right
      obtain ⟨a, s, has⟩ := exists_cons_of_ne_nil
        (show (c :: seg).drop n ≠ [] by rw [ne_eq, drop_eq_nil_iff]; omega)
      refine ⟨a, s, ?_, ?_⟩
      · rw [← has, ← htake, ← hpl, take_append_drop]
      · rw [if_neg (fun h => hsl h.2), if_neg (by omega), has]
  · have hlt : n < child.pfx.length := by omega
    obtain ⟨b', q, hbq⟩ := exists_cons_of_ne_nil
      (show child.pfx.drop n ≠ [] by rw [ne_eq, drop_eq_nil_iff]; omega)
    rw [if_neg (fun h => hpl h.1), if_pos hlt]
    by_cases hsl : n = (c :: seg).length
    · right; left
      rw [hsl, take_length] at htake
      refine ⟨b' :: q, by simp, ?_, by rw [if_pos hsl, hsl]⟩
      rw [← hbq, htake, ← hsl, take_append_drop]
    · right; right; left
      obtain ⟨a, s, has⟩ := exists_cons_of_ne_nil
        (show (c :: seg).drop n ≠ [] by rw [ne_eq, drop_eq_nil_iff]; omega)
      have hlen : ((c :: seg).take n).length = n := by rw [length_take]; omega
      refine ⟨(c :: seg).take n, a, s, b', q, ?_, hdrop has hbq, ?_, ?_, ?_⟩
      · exact ne_nil_of_length_pos (by omega)
      · rw [← has, hseg]
      · rw [← hbq, htake, hchild]
      · rw [if_neg hsl, hlen, has]

/-- A function that keeps nodes well formed, and their edges. -/
def Fine (descend : Node → Node × ℤ) : Prop :=
  ∀ x, Wf x → Wf (descend x).1 ∧ SameEdge (descend x).1 x

/-- Of the children, the one that goes on like `s` is replaced by what `descend`
makes of the place `s` below it; `none` if there is no such child. -/
def GraftsIn (descend : Node → Node × ℤ) (s : List Tok) (cs : List Node) :
    Option (List Node × ℤ) → Prop
  | none => ∀ c ∈ cs, c.branch ≠ s.head?.map Tok.branch
  | some (cs', rc) => ∃ c ∈ cs, ∃ c' x, c.branch = s.head?.map Tok.branch ∧ c'.branch = c.branch ∧
      ProperEdge c' ∧ Wf c' ∧ Puts cs c' cs' ∧ Wf x ∧
      view x = ensure Entry.none (sub (under (edge c) (view c)) s) ∧ rc = (descend x).2 ∧
      under (edge c') (view c') = graft Entry.none (under (edge c) (view c)) s (view (descend x).1)

/-- The node becomes the graft of what `descend` makes of the place `s`. -/
def Grafts (descend : Node → Node × ℤ) (s : List Tok) (n : Node) (r : Node × ℤ) : Prop :=
  ∃ x, Wf x ∧ view x = ensure Entry.none (sub (view n) s) ∧ r.2 = (descend x).2 ∧ Wf r.1 ∧
    SameEdge r.1 n ∧ view r.1 = graft Entry.none (view n) s (view (descend x).1)

variable {descend : Node → Node × ℤ}

theorem GraftsIn.cons
    (hc : c.branch ≠ s.head?.map Tok.branch) {r : Option (List Node × ℤ)} (h : GraftsIn descend s cs r) :
    GraftsIn descend s (c :: cs) (r.map fun r => (c :: r.1, r.2)) := by
  cases r with
  | none =>
    intro x hx
    rcases mem_cons.mp hx with rfl | hx
    · exact hc
    · exact h x hx
  | some r =>
    obtain ⟨x, hx, c', y, hb, hb', hp, hw, hputs, hrest⟩ := h
    exact ⟨x, mem_cons_of_mem c hx, c', y, hb, hb', hp, hw,
      hputs.cons (by rw [hb', hb]; exact hc), hrest⟩

theorem GraftsIn.grafts (h : Wf n) (hin : GraftsIn descend (k :: s) n.children (some (cs', rc))) :
    Grafts descend (k :: s) n ({ n with children := cs' }, rc) := by
  obtain ⟨c, hm, c', x, hb, hb', hp, hw, hputs, hwx, hvx, hrc, hview⟩ := hin
  have hput := h.replace hm hb' hp hw hputs hb hview
  exact ⟨x, hwx, by rw [hvx, sub_of_branch h hm hb], hrc, hput.1, ⟨rfl, rfl, rfl⟩, hput.2⟩

theorem grafts_new (hd : Fine descend) (h : Wf n) (hx : x.children = []) (he : x.entry = Entry.none)
    (hp : ProperEdge x) (hno : ∀ c ∈ n.children, c.branch ≠ x.branch) :
    Grafts descend (edge x) n (addChild n (descend x).1, (descend x).2) := by
  have hwx : Wf x := wf_of_no_children hx
  obtain ⟨hw, hedge⟩ := hd x hwx
  obtain ⟨k, s, hk⟩ := exists_cons_of_ne_nil hp.edge_ne
  have hbr : x.branch = some k.branch := by rw [Node.branch, hk]; rfl
  have hadd := h.add (hp.congr hedge) hw fun c hc => by rw [hedge.branch]; exact hno c hc
  rw [hedge.edge] at hadd
  refine ⟨x, hwx, ?_, rfl, hadd.1, ⟨rfl, rfl, rfl⟩, hadd.2⟩
  rw [hk, sub_eq_none h fun c hc => hbr ▸ hno c hc]
  rw [view_of_no_children hx, he]

theorem graftsIn_exact (hd : Fine descend) {child : Node} (hp : ProperEdge child) (hw : Wf child)
    {rest : List Node} (hn : ((child :: rest).map Node.branch).Nodup) :
    GraftsIn descend (edge child) (child :: rest)
      (some ((descend child).1 :: rest, (descend child).2)) := by
  obtain ⟨hw', he⟩ := hd child hw
  have hsub := sub_under_append (v := view child) (edge child) []
  have hgraft := graft_under_within (d := Entry.none) (v := view child) (w := view (descend child).1)
    (edge child) []
  rw [append_nil] at hsub hgraft
  refine ⟨child, mem_cons_self, (descend child).1, child, rfl, he.branch, hp.congr he, hw',
    puts_head he.branch.symm hn, hw, ?_, rfl, ?_⟩
  · rw [hsub]
    funext K
    cases K <;> simp [ensure, under]
  · rw [he.edge, hgraft]

section

variable {descend : Node → Node × ℤ} (hd : Fine descend) {child : Node} (hst : child.type = .static)
  (hp : ProperEdge child) (hw : Wf child) {rest : List Node}
  (hn : ((child :: rest).map Node.branch).Nodup) {s : Bytes}
  (hb : child.branch = (s.map Tok.ch).head?.map Tok.branch)

include hd hst hp hw hn hb

theorem graftsIn_within (hs : s ≠ []) (hq : q ≠ []) (hpfx : child.pfx = s ++ q) :
    GraftsIn descend (s.map .ch) (child :: rest)
      (some ((descend (splitStaticNode child s.length)).1 :: rest,
        (descend (splitStaticNode child s.length)).2)) := by
  have hsl := (hp hst).2
  obtain ⟨hws, hes, hvs⟩ := split_view hw hst hpfx hq hsl
  obtain ⟨hw', he⟩ := hd _ hws
  have hedge : edge child = s.map .ch ++ q.map .ch := by rw [edge_static hst, hpfx, map_append]
  have hbr : (splitStaticNode child s.length).branch = child.branch := by rw [Node.branch, hes, hb]
  have hps : ProperEdge (splitStaticNode child s.length) := fun _ => by
    rw [show (splitStaticNode child s.length).pfx = child.pfx.take s.length from rfl, hpfx, take_left]
    exact ⟨hs, fun h => hsl (hpfx ▸ mem_append_left q h)⟩
  refine ⟨child, mem_cons_self, _, _, hb, he.branch.trans hbr, hps.congr he, hw',
    puts_head (he.branch.trans hbr).symm hn, hws, ?_, rfl, ?_⟩
  · rw [hvs, hedge, sub_under_append]
  · rw [he.edge, hes, hedge, graft_under_within]

theorem graftsIn_parting {a b : UInt8} {s' : Bytes} (hr : r ≠ []) (hab : a ≠ b)
    (hs : s = r ++ a :: s') (hsl : slash ∉ s) (hpfx : child.pfx = r ++ b :: q) :
    GraftsIn descend (s.map .ch) (child :: rest)
      (some (addChild (splitStaticNode child r.length) (descend (nodeCreate (a :: s') .static)).1 ::
        rest,
        (descend (nodeCreate (a :: s') .static)).2)) := by
  have hslp := (hp hst).2
  obtain ⟨hws, hes, hvs⟩ := split_view hw hst hpfx (by simp) hslp
  have hwx : Wf (nodeCreate (a :: s') .static) := wf_of_no_children rfl
  obtain ⟨hw', he⟩ := hd _ hwx
  have hedge : edge child = r.map .ch ++ Tok.ch b :: q.map .ch := by
    rw [edge_static hst, hpfx, map_append, map_cons]
  have hseg : s.map Tok.ch = r.map .ch ++ Tok.ch a :: s'.map .ch := by
    rw [hs, map_append, map_cons]
  have hpx : ProperEdge (nodeCreate (a :: s') .static) := fun _ =>
    ⟨by simp [nodeCreate], fun h => hsl (hs ▸ mem_append_right r h)⟩
  -- the two ways part at different bytes
  have hnew : ∀ x ∈ (splitStaticNode child r.length).children,
      x.branch ≠ (descend (nodeCreate (a :: s') .static)).1.branch := by
    intro x hx
    rw [he.branch]
    have hx' : x = { child with pfx := b :: q } := by
      have : x = { child with pfx := child.pfx.drop r.length } := by
        simpa [splitStaticNode, addChild, insertChild, nodeCreate] using hx
      rw [this, hpfx, drop_left]
    rw [hx', Node.branch, edge_static (n := { child with pfx := b :: q }) hst, Node.branch,
      edge_static (n := nodeCreate (a :: s') .static) rfl]
    simpa [nodeCreate, Tok.branch] using hab.symm
  obtain ⟨hwc, hvc⟩ := hws.add (hpx.congr he) hw' hnew
  have hec :
    edge (addChild (splitStaticNode child r.length) (descend (nodeCreate (a :: s') .static)).1) =
      r.map .ch := hes
  have hpc : ProperEdge
      (addChild (splitStaticNode child r.length) (descend (nodeCreate (a :: s') .static)).1) := by
    intro _
    show child.pfx.take r.length ≠ [] ∧ slash ∉ child.pfx.take r.length
    rw [hpfx, take_left]
    exact ⟨hr, fun h => hslp (hpfx ▸ mem_append_left _ h)⟩
  have hbr : (addChild (splitStaticNode child r.length)
      (descend (nodeCreate (a :: s') .static)).1).branch = child.branch := by
    obtain ⟨c, r, rfl⟩ := exists_cons_of_ne_nil hr
    rw [Node.branch, hec, Node.branch, hedge]
    rfl
  refine ⟨child, mem_cons_self, _, _, hb, hbr, hpc, hwc, puts_head hbr.symm hn, hwx, ?_, rfl, ?_⟩
  · rw [hedge, hseg, sub_under_parting (by simpa using hab), view_of_no_children rfl]
    rfl
  · rw [hec, hvc, he.edge, hvs, hedge, hseg, graft_under_parting (by simpa using hab) (by simp)]
    rfl

end

mutual

/-- **A literal segment leads to its place, whatever nodes there are on the
way.** -/
theorem insertStaticSegment_grafts (hd : Fine descend) (segs : List Bytes) :
    ∀ (n : Node) (c : UInt8) (seg : Bytes), slash ∉ c :: seg → Wf n →
      Grafts descend ((c :: seg).map .ch) n (insertStaticSegment descend (segmentTail segs) n (c :: seg))
  | ⟨pfx, type, paramName, entry, children⟩, c, seg, hsl, h => by
    have hin := insertStaticIn_grafts hd segs children c seg hsl h.proper h.apart h.kids
    rw [insertStaticSegment]
    cases hr : insertStaticIn descend (segmentTail segs) children (c :: seg) with
    | some r =>
      rw [hr] at hin
      exact hin.grafts h
    | none =>
      rw [hr] at hin
      have hp : ProperEdge (nodeCreate (c :: seg) .static) := fun _ => ⟨by simp [nodeCreate], hsl⟩
      exact grafts_new hd h rfl rfl hp hin

theorem insertStaticIn_grafts (hd : Fine descend) (segs : List Bytes) :
    ∀ (cs : List Node) (c : UInt8) (seg : Bytes), slash ∉ c :: seg → (∀ x ∈ cs, ProperEdge x) →
      (cs.map Node.branch).Nodup → (∀ x ∈ cs, Wf x) →
      GraftsIn descend ((c :: seg).map .ch) cs (insertStaticIn descend (segmentTail segs) cs (c :: seg))
  | [], c, seg, _, _, _, _ => by
    rw [insertStaticIn]
    intro x hx
    cases hx
  | child :: rest, c, seg, hsl, hp, hn, hw => by
    have hpc := hp child mem_cons_self
    have hwc := hw child mem_cons_self
    rcases insertStaticIn_cases descend segs hpc rest c seg with ⟨hb, he⟩ | ⟨hst, hb, hcase⟩
    · rw [he]
      refine GraftsIn.cons hb (insertStaticIn_grafts hd segs rest c seg hsl ?_ ?_ ?_)
      · exact (forall_mem_cons.mp hp).2
      · exact (nodup_cons.mp hn).2
      · exact (forall_mem_cons.mp hw).2
    · rcases hcase with ⟨hpfx, he⟩ | ⟨q, hq, hpfx, he⟩ | ⟨r, a, s, b, q, hr, hab, hseg, hpfx,
        he⟩ | ⟨a, s, hseg, he⟩
      · rw [he, ← hpfx, ← edge_static hst]
        exact graftsIn_exact hd hpc hwc hn
      · rw [he]
        exact graftsIn_within hd hst hpc hwc hn hb (by simp) hq hpfx
      · rw [he]
        exact graftsIn_parting (s := c :: seg) hd hst hpc hwc hn hb hr hab hseg hsl hpfx
      · -- one level down
        rw [he]
        obtain ⟨x, hwx, hvx, hrc, hw', he', hview⟩ := insertStaticSegment_grafts hd segs child a s
          (fun h => hsl (hseg ▸ mem_append_right _ h)) hwc
        have htoks : (c :: seg).map Tok.ch = edge child ++ (a :: s).map .ch := by
          rw [hseg, map_append, edge_static hst]
        refine ⟨child, mem_cons_self, _, x, hb, he'.branch, hpc.congr he', hw',
          puts_head he'.branch.symm hn,
          hwx, ?_, hrc, ?_⟩
        · rw [hvx, htoks, sub_under_of_append]
        · rw [he'.edge, hview, htoks, graft_under_beyond]

end

/-! ### A parameter or a wildcard -/

/-- The token of a named segment. -/
def namedTok (type : NodeType) (name : Bytes) : Tok :=
  if type = .wildcard then .wild name else .par name

theorem edge_named (h : n.type ≠ .static) : edge n = [namedTok n.type n.paramName] := by
  unfold edge nodeLabel namedTok
  cases ht : n.type <;> simp_all [Label.toks]

variable {type : NodeType}

theorem branch_named (h : type ≠ .static) (name : Bytes) :
    n.branch = some (namedTok type name).branch ↔ n.type = type := by
  unfold Node.branch edge nodeLabel namedTok
  cases ht : n.type <;> cases type <;> simp_all [Label.toks, Tok.branch]

theorem properEdge_named (h : n.type ≠ .static) : ProperEdge n := fun hs => absurd hs h

def Clash (v : View Tok Entry) (type : NodeType) (name : Bytes) : Prop :=
  ∃ name', name' ≠ name ∧ v [namedTok type name'] ≠ none

theorem Wf.unique (h : Wf n) (hc : c ∈ n.children) (hc' : c' ∈ n.children)
    (hb : c.branch = c'.branch) : c = c' :=
  inj_on_of_nodup_map h.apart hc hc' hb

theorem namedTok_inj {name name' : Bytes} : namedTok type name = namedTok type name' ↔ name = name' := by
  unfold namedTok
  split_ifs <;> simp

theorem view_named (h : Wf n) (ht : type ≠ .static) (name : Bytes) :
    view n [namedTok type name] ≠ none ↔ ∃ c ∈ n.children, c.type = type ∧ c.paramName = name := by
  rw [view_cons]
  by_cases hex : ∃ c ∈ n.children, c.type = type
  · obtain ⟨c, hc, hct⟩ := hex
    have hb := (branch_named ht name).mpr hct
    have hedge : edge c = [namedTok type c.paramName] := by rw [edge_named (hct ▸ ht), hct]
    rw [viewIn_of_branch h.proper h.apart hc hb, hedge]
    constructor
    · intro hv
      refine ⟨c, hc, hct, ?_⟩
      by_contra hne
      refine hv (under_of_not fun hp => hne ?_)
      simpa [namedTok_inj] using hp
    · rintro ⟨c', hc', hct', rfl⟩
      obtain rfl := h.unique hc hc' (hb.trans ((branch_named ht c'.paramName).mpr hct').symm)
      simpa using (congrArg (· ≠ none) (under_append (v := view c) [namedTok type c.paramName]
        [])).mpr (by simp)
  · push Not at hex
    rw [viewIn_eq_none h.proper fun c hc hb => hex c hc ((branch_named ht name).mp hb)]
    simp only [ne_eq, not_true_eq_false, false_iff]
    rintro ⟨c, hc, hct, _⟩
    exact hex c hc hct

theorem insertNamedIn_cases (ht : type ≠ .static) (name : Bytes)
    (hd : Fine descend) : ∀ {cs : List Node}, (cs.map Node.branch).Nodup → (∀ x ∈ cs, Wf x) →
    (∃ c ∈ cs, c.type = type ∧ c.paramName ≠ name ∧
      insertNamedIn type name descend cs = some (cs, -EEXIST)) ∨
    (∀ c ∈ cs, c.type = type → c.paramName = name) ∧
      GraftsIn descend [namedTok type name] cs (insertNamedIn type name descend cs)
  | [], _, _ => by
    right
    refine ⟨by simp, ?_⟩
    intro c hc
    cases hc
  | child :: rest, hn, hw => by
    rw [insertNamedIn]
    have hwc := hw child mem_cons_self
    by_cases hct : child.type = type
    · have hb := (branch_named ht name).mpr hct
      rw [if_pos hct]
      by_cases hname : child.paramName = name
      · right
        have hedge : edge child = [namedTok type name] := by rw [edge_named (hct ▸ ht), hct, hname]
        rw [if_neg (not_not.mpr hname), ← hedge]
        refine ⟨fun c hc hct' => ?_, graftsIn_exact hd (properEdge_named (hct ▸ ht)) hwc hn⟩
        rcases mem_cons.mp hc with rfl | hc
        · exact hname
        · rw [map_cons, nodup_cons] at hn
          exact absurd (mem_map.mpr ⟨c, hc, ((branch_named ht name).mpr hct').trans hb.symm⟩) hn.1
      · left
        exact ⟨child, mem_cons_self, hct, hname, by rw [if_pos hname]⟩
    · rw [if_neg hct]
      rcases insertNamedIn_cases ht name hd (nodup_cons.mp hn).2
        (forall_mem_cons.mp hw).2 with ⟨c, hc, hct', hname, he⟩ | ⟨hall, hin⟩
      · left
        exact ⟨c, mem_cons_of_mem child hc, hct', hname, by rw [he]; rfl⟩
      · right
        refine ⟨fun c hc hct' => ?_, GraftsIn.cons (fun hb => hct ((branch_named ht name).mp hb)) hin⟩
        rcases mem_cons.mp hc with rfl | hc
        · exact absurd hct' hct
        · exact hall c hc hct'

theorem insertNamed_grafts (ht : type ≠ .static) (name : Bytes) (hd : Fine descend) (h : Wf n) :
    Clash (view n) type name ∧ insertNamed type name descend n = (n, -EEXIST) ∨
    ¬Clash (view n) type name ∧
        Grafts descend [namedTok type name] n (insertNamed type name descend n) := by
  unfold insertNamed
  rcases insertNamedIn_cases ht name hd h.apart h.kids with ⟨c, hc, hct, hname, he⟩ | ⟨hall, hin⟩
  · left
    refine ⟨⟨c.paramName, hname, (view_named h ht _).mpr ⟨c, hc, hct, rfl⟩⟩, ?_⟩
    simp only [he]
    cases n
    rfl
  · right
    refine ⟨?_, ?_⟩
    · rintro ⟨name', hne, hv⟩
      obtain ⟨c, hc, hct, rfl⟩ := (view_named h ht name').mp hv
      exact hne (hall c hc hct)
    · cases hr : insertNamedIn type name descend n.children with
      | some r =>
        rw [hr] at hin
        exact hin.grafts h
      | none =>
        rw [hr] at hin
        have hedge : edge { nodeCreate [] type with paramName := name } = [namedTok type name] :=
          edge_named (n := { nodeCreate [] type with paramName := name }) ht
        rw [← hedge]
        refine grafts_new hd h rfl rfl (properEdge_named ht) fun c hc => ?_
        show c.branch ≠ (edge { nodeCreate [] type with paramName := name }).head?.map Tok.branch
        rw [hedge]
        exact hin c hc

/-! ### A whole pattern -/

def topHandler (v : View Tok Entry) : Ptr := ((v []).getD Entry.none).handler

/-- The result at the end of a pattern. -/
def atEnd (v : View Tok Entry) : ℤ := if topHandler v ≠ 0 then -EEXIST else 0

open Classical in
/-- The pieces of a pattern that an insertion makes nodes for, and its result.
Neither depends on where the nodes of the tree lie on the way. -/
noncomputable def verdict : List Bytes → View Tok Entry → List (List Tok) × ℤ
  | [], v => ([], atEnd v)
  | seg :: segs, v =>
    if seg = [] then ([], atEnd v)
    else if seg.head? = some star then
      if segs ≠ [] ∨ seg.tail = [] then ([], -EINVAL)
      else if Clash v .wildcard seg.tail then ([], -EEXIST)
      else ([[.wild seg.tail]], atEnd (sub v [.wild seg.tail]))
    else if seg.head? = some colon then
      if seg.tail = [] then ([], -EINVAL)
      else if Clash v .param seg.tail then ([], -EEXIST)
      else
        let r := verdict segs (sub v [.par seg.tail])
        ([.par seg.tail] :: r.1, r.2)
    else
      let r := verdict segs (sub v (seg.map .ch))
      (seg.map .ch :: r.1, r.2)

section

variable {seg : Bytes} (segs : List Bytes) (v : View Tok Entry)

open Classical in
theorem verdict_wild (h : seg.head? = some star) :
    verdict (seg :: segs) v =
      if segs ≠ [] ∨ seg.tail = [] then ([], -EINVAL)
      else if Clash v .wildcard seg.tail then ([], -EEXIST)
      else ([[.wild seg.tail]], atEnd (sub v [.wild seg.tail])) := by
  rw [verdict, if_neg (by rintro rfl; cases h), if_pos h]

open Classical in
theorem verdict_par (h : seg.head? = some colon) :
    verdict (seg :: segs) v =
      if seg.tail = [] then ([], -EINVAL)
      else if Clash v .param seg.tail then ([], -EEXIST)
      else ([.par seg.tail] :: (verdict segs (sub v [.par seg.tail])).1,
        (verdict segs (sub v [.par seg.tail])).2) := by
  rw [verdict, if_neg (by rintro rfl; cases h), if_neg (by rw [h]; decide), if_pos h]

theorem verdict_lit (hne : seg ≠ []) (hstar : seg.head? ≠ some star) (hcolon : seg.head? ≠ some colon) :
    verdict (seg :: segs) v = (seg.map .ch :: (verdict segs (sub v (seg.map .ch))).1,
      (verdict segs (sub v (seg.map .ch))).2) := by
  rw [verdict, if_neg hne, if_neg hstar, if_neg hcolon]

end

/-- An insertion, on the view: there is a node where a piece of the pattern ends
and where the pattern parts from another one, and the last of them takes the
entry if the call succeeds. -/
noncomputable def insertView (e : Entry) (segs : List Bytes) (v : View Tok Entry) : View Tok Entry × ℤ :=
  let r := verdict segs v
  let v' := grow Entry.none v r.1.flatten (marks r.1)
  (if r.2 = 0 then Function.update v' r.1.flatten (some e) else v', r.2)

theorem topHandler_ensure (v : View Tok Entry) : topHandler (ensure Entry.none v) = topHandler v := by
  unfold topHandler
  cases h : v [] <;> simp [ensure, h]

theorem atEnd_ensure (v : View Tok Entry) : atEnd (ensure Entry.none v) = atEnd v := by
  rw [atEnd, atEnd, topHandler_ensure]

theorem verdict_ensure (segs : List Bytes) (v : View Tok Entry) :
    verdict segs (ensure Entry.none v) = verdict segs v := by
  cases segs with
  | nil => simp [verdict, atEnd_ensure]
  | cons seg segs =>
    cases seg with
    | nil => simp [verdict, atEnd_ensure]
    | cons c seg =>
      rfl

theorem grow_nil (v : View Tok Entry) : grow Entry.none v [] (marks []) = v := by
  funext K
  have hno : ¬Fork v [] K := by
    rintro ⟨k, l, _, hk, _⟩
    simp at hk
  simp [grow, marks, hno]

variable {e : Entry}

theorem insertView_nil {segs : List Bytes} {v : View Tok Entry} (h : verdict segs v = ([], rc)) :
    insertView e segs v = (if rc = 0 then Function.update v [] (some e) else v, rc) := by
  simp only [insertView, h, flatten_nil, grow_nil]

theorem insertView_cons {segs segs' : List Bytes} {v : View Tok Entry}
    (h : verdict segs v = (s :: (verdict segs' (sub v s)).1, (verdict segs' (sub v s)).2)) :
    insertView e segs v = (graft Entry.none v s (insertView e segs' (ensure Entry.none (sub v s))).1,
        (insertView e segs' (ensure Entry.none (sub v s))).2) := by
  unfold insertView
  simp only [h, verdict_ensure, flatten_cons]
  rw [← graft_grow]
  split_ifs
  · rw [graft_update]
  · rfl

theorem setHandler_view (e : Entry) (h : Wf n) : Wf (setHandler e n).1 ∧ SameEdge (setHandler e n).1 n ∧
      (view (setHandler e n).1, (setHandler e n).2) = insertView e [] (view n) := by
  have htop : topHandler (view n) = n.entry.handler := by simp [topHandler]
  rw [insertView_nil (show verdict [] (view n) = ([], atEnd (view n)) from rfl), atEnd, htop]
  unfold setHandler
  split_ifs with hh h0 h0
  · exact absurd h0 (by decide)
  · exact ⟨h, ⟨rfl, rfl, rfl⟩, rfl⟩
  · refine ⟨.mk h.proper h.apart h.kids, ⟨rfl, rfl, rfl⟩, Prod.ext (funext fun K => ?_) rfl⟩
    cases K with
    | nil => simp
    | cons k K => simp [view_cons]
  · exact absurd rfl h0

/-- What `descend` makes of the place, grafted into the node. -/
theorem Grafts.view {segs segs' : List Bytes} {r : Node × ℤ}
    (h : Grafts (insertRecursive e segs') s n r)
    (hd : ∀ x, Wf x → (Radix.view (insertRecursive e segs' x).1, (insertRecursive e segs' x).2) =
      insertView e segs' (Radix.view x)) (hv : verdict segs (Radix.view n) =
      (s :: (verdict segs' (sub (Radix.view n) s)).1, (verdict segs' (sub (Radix.view n) s)).2)) :
    Wf r.1 ∧ SameEdge r.1 n ∧ (Radix.view r.1, r.2) = insertView e segs (Radix.view n) := by
  obtain ⟨x, hwx, hvx, hrc, hw, he, hview⟩ := h
  refine ⟨hw, he, ?_⟩
  rw [insertView_cons hv, hview, hrc, ← hvx, ← hd x hwx]

/-- **An insertion grows the trie by the places of its pattern.** -/
theorem insertRecursive_view (e : Entry) : ∀ (segs : List Bytes), (∀ seg ∈ segs, slash ∉ seg) →
    ∀ {n : Node},
    Wf n → Wf (insertRecursive e segs n).1 ∧ SameEdge (insertRecursive e segs n).1 n ∧
      (view (insertRecursive e segs n).1, (insertRecursive e segs n).2) = insertView e segs (view n)
  | [], _, n, h => by
    exact setHandler_view e h
  | seg :: segs, hsl, n, h => by
    have ih := fun {x} (hx : Wf x) =>
      insertRecursive_view e segs (forall_mem_cons.mp hsl).2 hx
    have hfine : Fine (insertRecursive e segs) := fun x hx => ⟨(ih hx).1, (ih hx).2.1⟩
    have hend : ∀ rc, verdict (seg :: segs) (view n) = ([], rc) → rc ≠ 0 →
        Wf n ∧ SameEdge n n ∧ (view n, rc) = insertView e (seg :: segs) (view n) := by
      intro rc hv hrc
      rw [insertView_nil hv, if_neg hrc]
      exact ⟨h, ⟨rfl, rfl, rfl⟩, rfl⟩
    rw [insertRecursive]
    by_cases hne : seg = []
    · have := setHandler_view e h
      rw [insertView_nil (show verdict [] (view n) = ([], atEnd (view n)) from rfl)] at this
      rw [if_pos hne, insertView_nil (show verdict (seg :: segs) (view n) = ([], atEnd (view n)) by
        rw [verdict, if_pos hne])]
      exact this
    rw [if_neg hne]
    by_cases hstar : seg.head? = some star
    · have hv := verdict_wild segs (view n) hstar
      rw [if_pos hstar]
      by_cases hbad : segs ≠ [] ∨ seg.tail = []
      · rw [if_pos hbad] at hv
        rcases hbad with hbad | hbad
        · rw [if_pos hbad]
          exact hend (-EINVAL) hv (by decide)
        · split_ifs
          exacts [hend (-EINVAL) hv (by decide), hend (-EINVAL) hv (by decide)]
      rw [if_neg hbad] at hv
      rw [not_or, not_not] at hbad
      have hset : Fine (insertRecursive e []) := fun x hx =>
        ⟨(setHandler_view e hx).1, (setHandler_view e hx).2.1⟩
      rw [if_neg (not_not.mpr hbad.1), if_neg hbad.2]
      rcases insertNamed_grafts (show NodeType.wildcard ≠ .static by simp) seg.tail hset
        h with ⟨hcl, he⟩ | ⟨hcl, hg⟩
      · rw [if_pos hcl] at hv
        rw [show insertNamed .wildcard seg.tail (setHandler e) n = _ from he]
        exact hend (-EEXIST) hv (by decide)
      · rw [if_neg hcl] at hv
        have hg' : Grafts (insertRecursive e []) [namedTok .wildcard seg.tail] n
          (insertNamed .wildcard seg.tail (setHandler e) n) := hg
        exact hg'.view (fun x hx => (setHandler_view e hx).2.2) hv
    rw [if_neg hstar]
    by_cases hcolon : seg.head? = some colon
    · have hv := verdict_par segs (view n) hcolon
      rw [if_pos hcolon]
      by_cases hname : seg.tail = []
      · rw [if_pos hname] at hv
        rw [if_pos hname]
        exact hend (-EINVAL) hv (by decide)
      rw [if_neg hname] at hv
      rw [if_neg hname]
      rcases insertNamed_grafts (show NodeType.param ≠ .static by simp) seg.tail hfine
        h with ⟨hcl, he⟩ | ⟨hcl, hg⟩
      · rw [if_pos hcl] at hv
        rw [he]
        exact hend (-EEXIST) hv (by decide)
      · rw [if_neg hcl] at hv
        exact hg.view (fun x hx => (ih hx).2.2) hv
    · rw [if_neg hcolon]
      obtain ⟨c, seg, rfl⟩ := exists_cons_of_ne_nil hne
      have hg := insertStaticSegment_grafts hfine segs n c seg (hsl _ mem_cons_self) h
      exact hg.view (fun x hx => (ih hx).2.2) (verdict_lit segs (view n) hne hstar hcolon)

end Radix
end Iohttp
