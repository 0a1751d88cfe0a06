/-
# What one lookup enters

`ioh_radix_lookup` goes back from a branch that fails, and tries the next. The
places it enters, each the indices of the children on the way, are a part of
the places of the tree (`enters_subperm`): no node is entered twice, whatever
the tree and the path. What a successful lookup reports are the parameters on
one way down the tree (`lookupRecursive_reports`).
-/
import Iohttp.Router.Edges

namespace Iohttp
namespace Radix

open List

/-! ### Places -/

mutual

def places : Node → List (List ℕ)
  | ⟨_, _, _, _, children⟩ => placesIn 0 children

/-- The places of the children from the index `i` on, and below them. -/
def placesIn (i : ℕ) : List Node → List (List ℕ)
  | [] => []
  | c :: cs => ([i] :: (places c).map (i :: ·)) ++ placesIn (i + 1) cs

end

mutual

/-- The number of nodes of a tree. -/
def nodeCount : Node → ℕ
  | ⟨_, _, _, _, children⟩ => 1 + nodeCountIn children

def nodeCountIn : List Node → ℕ
  | [] => 0
  | c :: cs => nodeCount c + nodeCountIn cs

end

def placesAt (i : ℕ) (c : Node) : List (List ℕ) := [i] :: (places c).map (i :: ·)

def placesOf (type : NodeType) : ℕ → List Node → List (List ℕ)
  | _, [] => []
  | i, c :: cs => (if c.type = type then placesAt i c else []) ++ placesOf type (i + 1) cs

theorem placesIn_cons (i : ℕ) (c : Node) (cs : List Node) :
    placesIn i (c :: cs) = placesAt i c ++ placesIn (i + 1) cs := by
  rw [placesIn, placesAt]

theorem mem_placesIn : ∀ {i : ℕ} {cs : List Node} {a : List ℕ}, a ∈ placesIn i cs →
    ∃ j b, a = j :: b ∧ i ≤ j
  | _, [], _, h => by simp [placesIn] at h
  | i, c :: cs, a, h => by
    rw [placesIn_cons, placesAt, mem_append, mem_cons, mem_map] at h
    rcases h with (rfl | ⟨b, -, rfl⟩) | h
    · exact ⟨i, [], rfl, le_rfl⟩
    · exact ⟨i, b, rfl, le_rfl⟩
    · obtain ⟨j, b, rfl, hj⟩ := mem_placesIn h
      exact ⟨j, b, rfl, by omega⟩

theorem nil_notMem_places : ∀ n : Node, [] ∉ places n
  | ⟨_, _, _, _, children⟩, h => by
    obtain ⟨_, _, h, -⟩ := mem_placesIn (by rwa [places] at h)
    cases h

mutual

theorem places_nodup : ∀ n : Node, (places n).Nodup
  | ⟨_, _, _, _, children⟩ => by
    rw [places]
    exact placesIn_nodup 0 children

theorem placesIn_nodup : ∀ (i : ℕ) (cs : List Node), (placesIn i cs).Nodup
  | _, [] => by simp [placesIn]
  | i, c :: cs => by
    rw [placesIn, nodup_append']
    refine ⟨nodup_cons.mpr ⟨?_, (places_nodup c).map fun _ _ h => (cons.inj h).2⟩, placesIn_nodup
      (i + 1) cs, ?_⟩
    · intro h
      obtain ⟨b, hb, he⟩ := mem_map.mp h
      exact nil_notMem_places c ((cons.inj he).2 ▸ hb)
    · intro a ha hb
      obtain ⟨j, b, rfl, hj⟩ := mem_placesIn hb
      rcases mem_cons.mp ha with he | ha
      · have := (cons.inj he).1
        omega
      · obtain ⟨_, -, he⟩ := mem_map.mp ha
        have := (cons.inj he).1
        omega

end

mutual

theorem length_places : ∀ n : Node, (places n).length + 1 = nodeCount n
  | ⟨_, _, _, _, children⟩ => by
    rw [places, nodeCount, length_placesIn 0 children]
    omega

theorem length_placesIn : ∀ (i : ℕ) (cs : List Node), (placesIn i cs).length = nodeCountIn cs
  | _, [] => by simp [placesIn, nodeCountIn]
  | i, c :: cs => by
    rw [placesIn, nodeCountIn, length_append, length_cons, length_map, length_places c,
      length_placesIn (i + 1) cs]

end

theorem placesIn_perm : ∀ (i : ℕ) (cs : List Node),
    placesOf .static i cs ++ (placesOf .param i cs ++ placesOf .wildcard i cs) ~ placesIn i cs
  | _, [] => by simp [placesOf, placesIn]
  | i, c :: cs => by
    have ih := placesIn_perm (i + 1) cs
    rw [placesIn_cons]
    simp only [placesOf]
    cases c.type with
    | static => simpa using ih.append_left (placesAt i c)
    | param =>
      simp only [reduceCtorEq, if_false, if_true, nil_append, append_assoc]
      exact (perm_append_comm_assoc _ _ _).trans (ih.append_left _)
    | wildcard =>
      simp only [reduceCtorEq, if_false, if_true, nil_append]
      exact ((perm_append_comm_assoc _ _ _).append_left _).trans
        ((perm_append_comm_assoc _ _ _).trans (ih.append_left _))

/-! ### What a lookup enters -/

/-- The wildcard children that `lookup_recursive` tries. -/
def entersWildcardIn : ℕ → List Node → Match → List (List ℕ)
  | _, [], _ => []
  | i, child :: children, m =>
    if child.type ≠ .wildcard then entersWildcardIn (i + 1) children m
    else if child.entry.handler = 0 then [i] :: entersWildcardIn (i + 1) children m
    else [[i]]

mutual

/-- The places that `lookup_recursive` enters below its node. -/
def entersRecursive : Node → Bytes → Match → List (List ℕ)
  | ⟨_, _, _, _, children⟩, rest, m =>
    match skipSlash rest with
    | [] => []
    | c :: cs =>
      let seg := (c :: cs).takeWhile (· ≠ slash)
      let next := (c :: cs).dropWhile (· ≠ slash)
      let r := lookupStaticIn children seg next m
      entersStaticIn 0 children seg next m ++
        if r.1 = 0 then []
        else
          entersParamIn 0 children seg next r.2 ++
            match lookupParamIn children seg next r.2 with
            | (some _, _) => []
            | (none, m') => entersWildcardIn 0 children m'

/-- The loop of `lookup_static`: a child whose prefix matches is entered. -/
def entersStaticIn : ℕ → List Node → Bytes → Bytes → Match → List (List ℕ)
  | _, [], _, _, _ => []
  | i, child :: children, seg, next, m =>
    if child.type ≠ .static ∨ child.pfx.length > seg.length ∨
        seg.take child.pfx.length ≠ child.pfx then
      entersStaticIn (i + 1) children seg next m
    else
      let full := child.pfx.length = seg.length
      let r := if full then lookupRecursive child next m else lookupStatic child
        (seg.drop child.pfx.length) next m
      [i] :: ((if full then entersRecursive child next m
          else entersStatic child (seg.drop child.pfx.length) next m).map (i :: ·)) ++
        if r.1 = 0 then [] else entersStaticIn (i + 1) children seg next r.2

/-- The places that `lookup_static` enters below a node. -/
def entersStatic : Node → Bytes → Bytes → Match → List (List ℕ)
  | ⟨_, _, _, _, children⟩, seg, next, m => entersStaticIn 0 children seg next m

/-- The loop of `lookup_recursive` over the parameter children. -/
def entersParamIn : ℕ → List Node → Bytes → Bytes → Match → List (List ℕ)
  | _, [], _, _, _ => []
  | i, child :: children, seg, next, m =>
    if child.type ≠ .param then entersParamIn (i + 1) children seg next m
    else if m.params.length ≥ maxPathParams then [[i]]
    else
      let m' := { m with params := m.params ++ [⟨child.paramName, seg⟩] }
      let r := lookupRecursive child next m'
      [i] :: (entersRecursive child next m').map (i :: ·) ++
        if r.1 = 0 then []
        else entersParamIn (i + 1) children seg next { r.2 with params := r.2.params.take m.params.length }

end

/-- The places that `ioh_radix_lookup` enters. -/
def radixEnters (root : Node) (path : Bytes) : List (List ℕ) :=
  if path = [] then [] else entersRecursive root path ⟨Entry.none, []⟩

variable {type : NodeType} {i : ℕ} {l rest : List (List ℕ)}

/-- A loop over the children enters a child of its type and places below it, and
what it enters behind. -/
theorem subperm_placesOf {c : Node} {cs : List Node} {sub : List (List ℕ)}
    (ht : c.type = type) (hsub : sub <+~ places c) (hrest : rest <+~ placesOf type (i + 1) cs) :
    [i] :: sub.map (i :: ·) ++ rest <+~ placesOf type i (c :: cs) := by
  rw [placesOf, if_pos ht]
  exact ((subperm_cons [i]).mpr (hsub.map cons_injective)).append hrest

theorem subperm_placesOf_skip {c : Node} {cs : List Node}
    (h : l <+~ placesOf type (i + 1) cs) : l <+~ placesOf type i (c :: cs) :=
  h.trans (sublist_append_right _ _).subperm

theorem subperm_placesOf_alone {c : Node} {cs : List Node} (ht : c.type = type)
    (hrest : rest <+~ placesOf type (i + 1) cs) : [i] :: rest <+~ placesOf type i (c :: cs) :=
  subperm_placesOf ht nil_subperm hrest

theorem subperm_unless {p : Prop} [Decidable p] {L : List (List ℕ)} (h : l <+~ L) :
    (if p then [] else l) <+~ L := by
  split
  · exact nil_subperm
  · exact h

theorem entersWildcardIn_subperm : ∀ (i : ℕ) (cs : List Node) (m : Match),
    entersWildcardIn i cs m <+~ placesOf .wildcard i cs
  | _, [], _ => by simp [entersWildcardIn]
  | i, c :: cs, m => by
    have ih := entersWildcardIn_subperm (i + 1) cs m
    unfold entersWildcardIn
    split_ifs with ht h0
    · exact subperm_placesOf_skip ih
    · exact subperm_placesOf_alone (not_not.mp ht) ih
    · exact subperm_placesOf_alone (not_not.mp ht) nil_subperm

mutual

/-- **What a lookup enters is a part of the places of the tree.** -/
theorem entersRecursive_subperm :
    ∀ (n : Node) (rest : Bytes) (m : Match), entersRecursive n rest m <+~ places n
  | ⟨_, _, _, _, children⟩, rest, m => by
    rw [entersRecursive, places]
    split
    · exact nil_subperm
    · next c cs _ =>
      refine Subperm.trans ?_ (placesIn_perm 0 children).subperm
      refine (entersStaticIn_subperm 0 children _ _ m).append
        (subperm_unless ((entersParamIn_subperm 0 children _ _ _).append ?_))
      split
      · exact nil_subperm
      · exact entersWildcardIn_subperm 0 children _

theorem entersStaticIn_subperm : ∀ (i : ℕ) (cs : List Node) (seg next : Bytes) (m : Match),
    entersStaticIn i cs seg next m <+~ placesOf .static i cs
  | _, [], _, _, _ => by simp [entersStaticIn]
  | i, c :: cs, seg, next, m => by
    rw [entersStaticIn]
    split
    · exact subperm_placesOf_skip (entersStaticIn_subperm (i + 1) cs seg next m)
    · next h =>
      refine subperm_placesOf (not_not.mp (not_or.mp h).1) ?_
        (subperm_unless (entersStaticIn_subperm (i + 1) cs seg next _))
      split
      · exact entersRecursive_subperm c next m
      · exact entersStatic_subperm c _ next m

theorem entersStatic_subperm :
    ∀ (n : Node) (seg next : Bytes) (m : Match), entersStatic n seg next m <+~ places n
  | ⟨_, _, _, _, children⟩, seg, next, m => by
    rw [entersStatic, places]
    exact (entersStaticIn_subperm 0 children seg next m).trans
      ((sublist_append_left _ _).subperm.trans (placesIn_perm 0 children).subperm)

theorem entersParamIn_subperm : ∀ (i : ℕ) (cs : List Node) (seg next : Bytes) (m : Match),
    entersParamIn i cs seg next m <+~ placesOf .param i cs
  | _, [], _, _, _ => by simp [entersParamIn]
  | i, c :: cs, seg, next, m => by
    rw [entersParamIn]
    split_ifs with ht hfull
    · exact subperm_placesOf_skip (entersParamIn_subperm (i + 1) cs seg next m)
    · exact subperm_placesOf_alone (not_not.mp ht) nil_subperm
    · exact subperm_placesOf (not_not.mp ht) (entersRecursive_subperm c next _)
        (subperm_unless (entersParamIn_subperm (i + 1) cs seg next _))

end

/-- **A lookup enters no node twice**, so it enters at most as many as the tree
has, whatever the path. -/
theorem radixLookup_enters_once (root : Node) (path : Bytes) :
    (radixEnters root path).Nodup ∧ radixEnters root path ⊆ places root ∧
      (radixEnters root path).length ≤ nodeCount root := by
  have hsub : radixEnters root path <+~ places root := by
    unfold radixEnters
    split
    · exact nil_subperm
    · exact entersRecursive_subperm root path _
  refine ⟨?_, hsub.subset, ?_⟩
  · obtain ⟨l, hl, hs⟩ := hsub
    exact hl.nodup_iff.mp ((places_nodup root).sublist hs)
  · have := hsub.length_le
    have := length_places root
    omega

/-! ### What a lookup reports -/

def IsWay : Node → List Node → Prop
  | _, [] => True
  | n, c :: way => c ∈ n.children ∧ IsWay c way

def wayEnd (n : Node) : List Node → Node
  | [] => n
  | c :: way => wayEnd c way

def wayNames (way : List Node) : List Bytes := (way.filter (·.type ≠ .static)).map (·.paramName)

/-- The match `m'` is `m` with the route of the node `e` and parameters of the
given names, whose values are parts of the path. -/
structure Adds (path : Bytes) (m m' : Match) (e : Node) (names : List Bytes) : Prop where
  route : m'.entry = e.entry ∧ e.entry.handler ≠ 0
  params : ∃ ps, m'.params = m.params ++ ps ∧ ps.map (·.name) = names ∧ ∀ p ∈ ps, p.value <:+: path

/-- The match `m'` has the route at the end of one way from the node, and the
parameters on that way. -/
def Reports (path : Bytes) (m m' : Match) (n : Node) : Prop :=
  ∃ way, IsWay n way ∧ Adds path m m' (wayEnd n way) (wayNames way)

/-- The same for a way that starts with one of the children. -/
def ReportsIn (path : Bytes) (m m' : Match) (cs : List Node) : Prop :=
  ∃ c ∈ cs, ∃ way, IsWay c way ∧ Adds path m m' (wayEnd c way) (wayNames (c :: way))

variable {path : Bytes} {m m' : Match} {c n : Node} {cs : List Node}

theorem ReportsIn.reports (h : ReportsIn path m m' n.children) : Reports path m m' n := by
  obtain ⟨c, hc, way, hway, hadds⟩ := h
  exact ⟨c :: way, ⟨hc, hway⟩, hadds⟩

theorem ReportsIn.cons (h : ReportsIn path m m' cs) : ReportsIn path m m' (c :: cs) := by
  obtain ⟨x, hx, hrest⟩ := h
  exact ⟨x, mem_cons_of_mem c hx, hrest⟩

theorem Reports.static (h : Reports path m m' c) (ht : c.type = .static) :
    ReportsIn path m m' (c :: cs) := by
  obtain ⟨way, hway, hadds⟩ := h
  refine ⟨c, mem_cons_self, way, hway, ?_⟩
  rwa [wayNames, filter_cons_of_neg (by simp [ht])]

/-- A capture at a child, and what is captured below it. -/
theorem Reports.captured {value : Bytes} (ht : c.type ≠ .static) (hv : value <:+: path)
    (h : Reports path { m with params := m.params ++ [⟨c.paramName, value⟩] } m' c) :
    ReportsIn path m m' (c :: cs) := by
  obtain ⟨way, hway, hroute, ps, hps, hnames, hvalues⟩ := h
  refine ⟨c, mem_cons_self, way, hway, hroute, ⟨c.paramName, value⟩ :: ps, by simpa using hps, ?_, ?_⟩
  · rw [wayNames, filter_cons_of_pos (by simpa using ht), map_cons, map_cons, hnames, wayNames]
  · exact forall_mem_cons.mpr ⟨hv, hvalues⟩

theorem lookupWildcardIn_reports : ∀ {cs : List Node} {rest : Bytes} {m : Match},
    (lookupWildcardIn cs rest m).1 = 0 → rest <:+: path →
    ReportsIn path m (lookupWildcardIn cs rest m).2 cs
  | [], _, _, h, _ => by simp [lookupWildcardIn, ENOENT] at h
  | c :: cs, rest, m, h, hp => by
    rw [lookupWildcardIn] at h ⊢
    split_ifs at h ⊢ with hskip hfull
    · exact (lookupWildcardIn_reports h hp).cons
    · simp [ENOENT] at h
    · rw [not_or, not_not] at hskip
      refine Reports.captured (by simp [hskip.1]) hp ⟨[], trivial, ⟨rfl, hskip.2⟩, [], by simp, rfl, by simp⟩

mutual

/-- **What a successful lookup reports** are the route and the parameters of one
way down the tree. -/
theorem lookupRecursive_reports :
    ∀ (n : Node) (rest : Bytes) (m : Match), (lookupRecursive n rest m).1 = 0 →
    rest <:+: path → Reports path m (lookupRecursive n rest m).2 n
  | ⟨_, _, _, entry, children⟩, rest, m, h, hp => by
    have hskip : skipSlash rest <:+: path := by
      refine IsInfix.trans ?_ hp
      cases rest with
      | nil => exact infix_rfl
      | cons c cs =>
        rw [skipSlash]
        split
        · exact (suffix_cons c cs).isInfix
        · exact infix_rfl
    rw [lookupRecursive] at h ⊢
    cases hr : skipSlash rest with
    | nil =>
      simp only [hr] at h ⊢
      split_ifs at h ⊢ with hh
      · exact ⟨[], trivial, ⟨rfl, hh⟩, [], by simp, rfl, by simp⟩
      · simp [ENOENT] at h
    | cons c cs =>
      rw [hr] at hskip
      simp only [hr] at h ⊢
      have hfront : (c :: cs).takeWhile (· ≠ slash) <+: c :: cs := takeWhile_prefix _
      have hseg := hfront.isInfix.trans hskip
      have hnext := (dropWhile_suffix (· ≠ slash)).isInfix.trans hskip
      generalize (c :: cs).takeWhile (· ≠ slash) = seg at h hseg ⊢
      generalize (c :: cs).dropWhile (· ≠ slash) = next at h hnext ⊢
      split_ifs at h ⊢ with h0
      · exact (lookupStaticIn_reports children seg next m h0 hnext).reports
      · rw [lookupStaticIn_fail children seg next m h0] at h ⊢
        have hfail := lookupParamIn_fail children seg next m
        have hok := lookupParamIn_reports children seg next m
        generalize lookupParamIn children seg next m = r at h hfail hok ⊢
        obtain ⟨_ | rc, m'⟩ := r
        · have hm : m' = m := hfail (by simp)
          simp only [hm] at h ⊢
          exact (lookupWildcardIn_reports h hskip).reports
        · exact (hok (by simpa using h) hseg hnext).reports

theorem lookupStaticIn_reports : ∀ (cs : List Node) (seg next : Bytes) (m : Match),
    (lookupStaticIn cs seg next m).1 = 0 → next <:+: path →
    ReportsIn path m (lookupStaticIn cs seg next m).2 cs
  | [], _, _, _, h, _ => by simp [lookupStaticIn, ENOENT] at h
  | c :: cs, seg, next, m, h, hp => by
    rw [lookupStaticIn] at h ⊢
    simp only at h ⊢
    split_ifs at h ⊢ with h0 h1 h2 h3
    · exact (lookupStaticIn_reports cs seg next m h hp).cons
    · exact (lookupRecursive_reports c next m h hp).static (not_not.mp (not_or.mp h0).1)
    · rw [lookupRecursive_fail c next m h2] at h ⊢
      exact (lookupStaticIn_reports cs seg next m h hp).cons
    · exact (lookupStatic_reports c _ next m h hp).static (not_not.mp (not_or.mp h0).1)
    · rw [lookupStatic_fail c _ next m h3] at h ⊢
      exact (lookupStaticIn_reports cs seg next m h hp).cons

theorem lookupStatic_reports :
    ∀ (n : Node) (seg next : Bytes) (m : Match), (lookupStatic n seg next m).1 = 0 →
    next <:+: path → Reports path m (lookupStatic n seg next m).2 n
  | ⟨_, _, _, _, children⟩, seg, next, m, h, hp => by
    exact (lookupStaticIn_reports children seg next m h hp).reports

theorem lookupParamIn_reports : ∀ (cs : List Node) (seg next : Bytes) (m : Match),
    (lookupParamIn cs seg next m).1 = some 0 → seg <:+: path → next <:+: path →
      ReportsIn path m (lookupParamIn cs seg next m).2 cs
  | [], _, _, _, h, _, _ => by simp [lookupParamIn] at h
  | c :: cs, seg, next, m, h, hs, hp => by
    rw [lookupParamIn] at h ⊢
    simp only at h ⊢
    split_ifs at h ⊢ with h0 h1 h2
    · exact (lookupParamIn_reports cs seg next m h hs hp).cons
    · simp [ENOENT] at h
    · exact (lookupRecursive_reports c next _ h2 hp).captured (by simp [not_not.mp h0]) hs
    · rw [lookupRecursive_fail c next _ h2] at h ⊢
      simp only [take_left] at h ⊢
      exact (lookupParamIn_reports cs seg next m h hs hp).cons

end

/-- **A failed branch leaves no trace.** A call that fails leaves the match as it
was; so what a lookup reports belongs to one way down the tree, and a lookup
that fails reports no route and no parameters. -/
theorem failed_lookup_no_trace :
    (∀ n rest m, (lookupRecursive n rest m).1 = -ENOENT → (lookupRecursive n rest m).2 = m) ∧
    (∀ n seg next m, (lookupStatic n seg next m).1 = -ENOENT → (lookupStatic n seg next m).2 = m) ∧
    ∀ root path, ((radixLookup root path).1 = 0 ∧ Reports path ⟨Entry.none, []⟩
      (radixLookup root path).2 root) ∨
      ((radixLookup root path).1 ≠ 0 ∧ (radixLookup root path).2 = ⟨Entry.none, []⟩) := by
  have hne {rc : ℤ} (h : rc = -ENOENT) : rc ≠ 0 := by
    rw [h]
    decide
  refine ⟨fun n rest m h => lookupRecursive_fail n rest m (hne h),
    fun n seg next m h => lookupStatic_fail n seg next m (hne h), fun root path => ?_⟩
  unfold radixLookup
  split
  · exact .inr ⟨by decide, rfl⟩
  · by_cases h : (lookupRecursive root path ⟨Entry.none, []⟩).1 = 0
    · exact .inl ⟨h, lookupRecursive_reports root path _ h infix_rfl⟩
    · exact .inr ⟨h, lookupRecursive_fail root path _ h⟩

end Radix
end Iohttp
