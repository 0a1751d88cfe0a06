/-
# The representation of the route tree

What every node of a tree made by `ioh_radix_insert` keeps. Each child has a
slot, the first byte of a static child, or one of two slots behind them for a
parameter and a wildcard; the slots of siblings increase (`Rep`). A split
leaves a child in its slot, and `ioh_radix_node_add_child` puts a new child
where its slot is, so an insert keeps this, also one that fails.
-/
import Iohttp.Router.View

namespace Iohttp
namespace Radix

open List

/-! ### The invariant -/

/-- The slot of a child among its siblings. -/
def slot (n : Node) : ℕ :=
  match n.type with
  | .static => (n.pfx.headD 0).toNat
  | .param => 256
  | .wildcard => 257

/-- What the edge into a node is, and what is below a wildcard. -/
structure Kept (c : Node) : Prop where
  proper : ProperEdge c
  named : c.type ≠ .static → c.paramName ≠ [] ∧ slash ∉ c.paramName
  wild : c.type = .wildcard → c.entry.handler ≠ 0 ∧ c.children = []

/-- The slots of siblings increase, at every node. -/
inductive Rep : Node → Prop
  | mk {n : Node} (order : (n.children.map slot).Pairwise (· < ·)) (kept : ∀ c ∈ n.children, Kept c)
      (kids : ∀ c ∈ n.children, Rep c) : Rep n

variable {n c x : Node} {cs : List Node}

theorem Rep.order (h : Rep n) : (n.children.map slot).Pairwise (· < ·) := by cases h; assumption

theorem Rep.kept (h : Rep n) : ∀ c ∈ n.children, Kept c := by cases h; assumption

theorem Rep.kids (h : Rep n) : ∀ c ∈ n.children, Rep c := by cases h; assumption

theorem rep_of_no_children (h : n.children = []) : Rep n := .mk (by simp [h]) (by simp [h]) (by simp [h])

theorem slot_congr (h : SameEdge c x) : slot c = slot x := by
  simp only [slot, h.1, h.2.1]

theorem Kept.congr (h : Kept x) (he : SameEdge c x) (hw : x.type ≠ .wildcard) : Kept c :=
  ⟨h.proper.congr he, fun hc => he.2.2 ▸ h.named (he.2.1 ▸ hc), fun hc => absurd (he.2.1 ▸ hc) hw⟩

theorem slot_static (h : c.type = .static) {a : UInt8} {s : Bytes} (hp : c.pfx = a :: s) :
    slot c = a.toNat := by
  simp [slot, h, hp]

/-- `ioh_radix_node_add_child` stops at a child exactly if that has a later slot. -/
theorem insertChild_stops_iff (hc : ProperEdge c) (hx : ProperEdge x) (hne : slot c ≠ slot x) :
    (c.type.rank < x.type.rank ∨ (c.type = x.type ∧ c.type = .static ∧ c.pfx < x.pfx)) ↔
    slot c < slot x := by
  have hbc := (c.pfx.headD 0).toNat_lt
  have hbx := (x.pfx.headD 0).toNat_lt
  cases htc : c.type <;> cases htx : x.type
  case static.static =>
    obtain ⟨a, s, ha⟩ := exists_cons_of_ne_nil (hc htc).1
    obtain ⟨b, t, hb⟩ := exists_cons_of_ne_nil (hx htx).1
    rw [slot_static htc ha, slot_static htx hb] at hne ⊢
    have hab : a ≠ b := fun h => hne (by rw [h])
    simp [NodeType.rank, ha, hb, cons_lt_cons_iff, hab, UInt8.lt_iff_toNat_lt]
  all_goals
    simp only [slot, htc, htx] at hne ⊢
    simp [NodeType.rank] at hne hbc hbx ⊢
    try omega

theorem insertChild_order (hc : ProperEdge c) : ∀ {cs : List Node}, (∀ x ∈ cs, ProperEdge x) →
    (cs.map slot).Pairwise (· < ·) → slot c ∉ cs.map slot →
    ((insertChild c cs).map slot).Pairwise (· < ·)
  | [], _, _, _ => by simp [insertChild]
  | x :: cs, hp, ho, hno => by
    rw [map_cons, mem_cons, not_or] at hno
    rw [map_cons, pairwise_cons] at ho
    have hstop := insertChild_stops_iff hc (hp x mem_cons_self) hno.1
    unfold insertChild
    split
    · next h =>
      have hlt := hstop.mp h
      rw [map_cons, map_cons, pairwise_cons, pairwise_cons]
      refine ⟨?_, ho⟩
      rintro y (_ | ⟨_, hy⟩)
      · exact hlt
      · exact hlt.trans (ho.1 y hy)
    · next h =>
      have hgt : slot x < slot c := lt_of_le_of_ne (not_lt.mp fun hlt => h (hstop.mpr hlt)) fun h =>
        hno.1 h.symm
      have ih := insertChild_order hc (forall_mem_cons.mp hp).2 ho.2 hno.2
      rw [map_cons, pairwise_cons]
      refine ⟨fun y hy => ?_, ih⟩
      rw [((insertChild_perm c cs).map slot).mem_iff, map_cons, mem_cons] at hy
      rcases hy with rfl | hy
      · exact hgt
      · exact ho.1 y hy

theorem Rep.add (h : Rep n) (hk : Kept c) (hc : Rep c) (hno : slot c ∉ n.children.map slot) :
    Rep (addChild n c) := by
  have hmem (y : Node) : y ∈ (addChild n c).children ↔ y = c ∨ y ∈ n.children := by
    rw [addChild, (insertChild_perm c n.children).mem_iff, mem_cons]
  refine .mk (insertChild_order hk.proper (fun x hx => (h.kept x hx).proper) h.order hno) ?_ ?_
  · intro y hy
    rcases (hmem y).mp hy with rfl | hy
    · exact hk
    · exact h.kept y hy
  · intro y hy
    rcases (hmem y).mp hy with rfl | hy
    · exact hc
    · exact h.kids y hy

/-! ### A literal segment -/

def Keeps (descend : Node → Node × ℤ) : Prop := ∀ x, Rep x → Rep (descend x).1 ∧ SameEdge (descend x).1 x

/-- Children that keep their slots. -/
structure Stays (cs cs' : List Node) : Prop where
  slots : cs'.map slot = cs.map slot
  kept : ∀ c ∈ cs', Kept c
  kids : ∀ c ∈ cs', Rep c

theorem Stays.rep (h : Stays n.children cs) (hn : Rep n) : Rep { n with children := cs } :=
  .mk (by rw [h.slots]; exact hn.order) h.kept h.kids

theorem stays_cons (hk : ∀ y ∈ x :: cs, Kept y) (hr : ∀ y ∈ x :: cs, Rep y) {cs' : List Node}
    (h : Stays cs cs') : Stays (x :: cs) (x :: cs') :=
  ⟨by rw [map_cons, h.slots, map_cons], forall_mem_cons.mpr ⟨hk x mem_cons_self, h.kept⟩,
    forall_mem_cons.mpr ⟨hr x mem_cons_self, h.kids⟩⟩

theorem stays_head (hk : ∀ y ∈ x :: cs, Kept y) (hr : ∀ y ∈ x :: cs, Rep y) (hs : slot c = slot x)
    (hkc : Kept c) (hrc : Rep c) : Stays (x :: cs) (c :: cs) :=
  ⟨by rw [map_cons, hs, map_cons], forall_mem_cons.mpr ⟨hkc, (forall_mem_cons.mp hk).2⟩,
    forall_mem_cons.mpr ⟨hrc, (forall_mem_cons.mp hr).2⟩⟩

theorem kept_static {s : Bytes} (hne : s ≠ []) (hsl : slash ∉ s) (hp : n.pfx = s)
    (ht : n.type = .static) : Kept n :=
  ⟨fun _ => hp ▸ ⟨hne, hsl⟩, fun h => absurd ht h, fun h => by rw [ht] at h; cases h⟩

/-- A static child that is split: it is alone below the node that takes its place. -/
theorem split_rep (hst : x.type = .static) (hk : Kept x) (hr : Rep x) {r q : Bytes} (hr0 : r ≠ [])
    (hq : q ≠ []) (hp : x.pfx = r ++ q) :
    Rep (splitStaticNode x r.length) ∧ Kept (splitStaticNode x r.length) ∧
      slot (splitStaticNode x r.length) = slot x ∧
      (splitStaticNode x r.length).children = [{ x with pfx := q }] := by
  have hsl := hp ▸ (hk.proper hst).2
  rw [mem_append, not_or] at hsl
  have hpfx : (splitStaticNode x r.length).pfx = r := by
    rw [splitStaticNode, addChild, nodeCreate, hp, take_left]
  have hkids : (splitStaticNode x r.length).children = [{ x with pfx := q }] := by
    rw [splitStaticNode, addChild, nodeCreate, hp, drop_left]
    rfl
  refine ⟨.mk (by simp [hkids]) ?_ ?_, kept_static hr0 hsl.1 hpfx rfl, ?_, hkids⟩
  · rw [hkids, forall_mem_singleton]
    exact kept_static hq hsl.2 rfl hst
  · rw [hkids, forall_mem_singleton]
    exact .mk hr.order hr.kept hr.kids
  · obtain ⟨a, s, rfl⟩ := exists_cons_of_ne_nil hr0
    rw [slot_static rfl hpfx, slot_static hst (hp.trans (cons_append ..))]

theorem slot_of_branch (h : Kept c) (b : UInt8) (hb : c.branch ≠ some (.ch b)) : slot c ≠ b.toNat := by
  intro hs
  by_cases ht : c.type = .static
  · obtain ⟨a, s, ha⟩ := exists_cons_of_ne_nil (h.proper ht).1
    rw [slot_static ht ha, UInt8.toNat_inj] at hs
    exact hb (by rw [Node.branch, edge_static ht, ha, hs]; rfl)
  · have hlt := b.toNat_lt
    unfold slot at hs
    cases htc : c.type <;> simp_all
    all_goals omega

variable {descend : Node → Node × ℤ}

mutual

theorem insertStaticSegment_rep (hd : Keeps descend) (segs : List Bytes) :
    ∀ (n : Node) (c : UInt8) (seg : Bytes), slash ∉ c :: seg → Rep n →
      Rep (insertStaticSegment descend (segmentTail segs) n (c :: seg)).1 ∧
        SameEdge (insertStaticSegment descend (segmentTail segs) n (c :: seg)).1 n
  | ⟨pfx, type, paramName, entry, children⟩, c, seg, hsl, h => by
    obtain ⟨hno, hin⟩ := insertStaticIn_rep hd segs children c seg hsl h.kept h.kids
    rw [insertStaticSegment]
    cases hr : insertStaticIn descend (segmentTail segs) children (c :: seg) with
    | some r => exact ⟨(hin r hr).rep h, rfl, rfl, rfl⟩
    | none =>
      have hk : Kept (nodeCreate (c :: seg) .static) := kept_static (by simp) hsl rfl rfl
      obtain ⟨hrep, he⟩ := hd (nodeCreate (c :: seg) .static) (rep_of_no_children rfl)
      refine ⟨h.add (hk.congr he (by simp [nodeCreate])) hrep ?_, rfl, rfl, rfl⟩
      rw [slot_congr he, slot_static rfl rfl]
      exact hno hr

/-- The loop over the children: the child that shares a byte with the segment
stays in its slot. -/
theorem insertStaticIn_rep (hd : Keeps descend) (segs : List Bytes) :
    ∀ (cs : List Node) (c : UInt8) (seg : Bytes), slash ∉ c :: seg → (∀ x ∈ cs, Kept x) →
    (∀ x ∈ cs, Rep x) →
      (insertStaticIn descend (segmentTail segs) cs (c :: seg) = none → c.toNat ∉ cs.map slot) ∧
        ∀ r, insertStaticIn descend (segmentTail segs) cs (c :: seg) = some r → Stays cs r.1
  | [], c, seg, _, _, _ => by
    rw [insertStaticIn]
    exact ⟨fun _ => by simp, nofun⟩
  | child :: rest, c, seg, hsl, hk, hr => by
    have hkc := hk child mem_cons_self
    have hrc := hr child mem_cons_self
    rcases insertStaticIn_cases descend segs hkc.proper rest c seg with ⟨hb, he⟩ | ⟨hst, -, hcase⟩
    · -- another slot
      obtain ⟨hno, hin⟩ :=
        insertStaticIn_rep hd segs rest c seg hsl (forall_mem_cons.mp hk).2
        (forall_mem_cons.mp hr).2
      rw [he]
      refine ⟨fun h => ?_, fun r h => ?_⟩
      · rw [map_cons, mem_cons, not_or]
        exact ⟨(slot_of_branch hkc c hb).symm, hno (Option.map_eq_none_iff.mp h)⟩
      · obtain ⟨r', hr', rfl⟩ := Option.map_eq_some_iff.mp h
        exact stays_cons hk hr (hin r' hr')
    · have hw : child.type ≠ .wildcard := by simp [hst]
      -- in each case one node takes the child's slot
      have hone {c' : Node} {rc : ℤ} (hs : slot c' = slot child) (hkc' : Kept c') (hrc' : Rep c')
          (he : insertStaticIn descend (segmentTail segs) (child :: rest) (c :: seg) = some
            (c' :: rest, rc)) :
          (insertStaticIn descend (segmentTail segs) (child :: rest) (c :: seg) = none →
            c.toNat ∉ (child :: rest).map slot) ∧
          ∀ r, insertStaticIn descend (segmentTail segs) (child :: rest) (c :: seg) = some r →
            Stays (child :: rest) r.1 := by
        rw [he]
        refine ⟨nofun, fun r h => ?_⟩
        cases h
        exact stays_head hk hr hs hkc' hrc'
      rcases hcase with ⟨hpfx, he⟩ | ⟨q, hq, hpfx, he⟩ | ⟨r, a, s, b, q, hr0, hab, hseg, hpfx,
        he⟩ | ⟨a, s, hseg, he⟩
      · obtain ⟨hrep, hedge⟩ := hd child hrc
        exact hone (slot_congr hedge) (hkc.congr hedge hw) hrep he
      · obtain ⟨hrs, hks, hss, -⟩ := split_rep hst hkc hrc (by simp) hq hpfx
        obtain ⟨hrep, hedge⟩ := hd _ hrs
        refine hone ((slot_congr hedge).trans hss) (hks.congr hedge ?_) hrep he
        simp [splitStaticNode, addChild, nodeCreate]
      · obtain ⟨hrs, hks, hss, hkids⟩ := split_rep hst hkc hrc hr0 (by simp) hpfx
        have hkn : Kept (nodeCreate (a :: s) .static) :=
          kept_static (by simp) (fun h => hsl (hseg ▸ mem_append_right r h)) rfl rfl
        obtain ⟨hrep, hedge⟩ := hd (nodeCreate (a :: s) .static) (rep_of_no_children rfl)
        have hnew : slot (descend (nodeCreate (a :: s) .static)).1 ∉
            (splitStaticNode child r.length).children.map slot := by
          rw [hkids, slot_congr hedge, slot_static rfl rfl, map_singleton, mem_singleton]
          rw [slot_static (c := { child with pfx := b :: q }) hst rfl, UInt8.toNat_inj]
          exact hab
        have hedge' : SameEdge
          (addChild (splitStaticNode child r.length) (descend (nodeCreate (a :: s) .static)).1)
            (splitStaticNode child r.length) := ⟨rfl, rfl, rfl⟩
        refine hone ((slot_congr hedge').trans hss) (hks.congr hedge' ?_)
          (hrs.add (hkn.congr hedge (by simp [nodeCreate])) hrep hnew) he
        simp [splitStaticNode, addChild, nodeCreate]
      · obtain ⟨hrep, hedge⟩ := insertStaticSegment_rep hd segs child a s
          (fun h => hsl (hseg ▸ mem_append_right _ h)) hrc
        exact hone (slot_congr hedge) (hkc.congr hedge hw) hrep he

end

def KeepsNamed (type : NodeType) (descend : Node → Node × ℤ) : Prop :=
  ∀ x, x.type = type → x.paramName ≠ [] ∧ slash ∉ x.paramName →
  (type = .wildcard → x.children = []) → Rep x →
    Kept (descend x).1 ∧ Rep (descend x).1 ∧ SameEdge (descend x).1 x

variable {type : NodeType} {name : Bytes}

theorem insertNamedIn_rep (name : Bytes) (ht : type ≠ .static) (hd : KeepsNamed type descend) :
    ∀ {cs : List Node}, (∀ x ∈ cs, Kept x) → (∀ x ∈ cs, Rep x) →
      (insertNamedIn type name descend cs = none → ∀ x ∈ cs, x.type ≠ type) ∧
        ∀ r, insertNamedIn type name descend cs = some r → Stays cs r.1
  | [], _, _ => ⟨fun _ => by simp, nofun⟩
  | x :: cs, hk, hr => by
    have hkx := hk x mem_cons_self
    rw [insertNamedIn]
    by_cases hx : x.type = type
    · refine ⟨fun h => ?_, fun r h => ?_⟩
      · rw [if_pos hx] at h
        split at h <;> cases h
      · rw [if_pos hx] at h
        split at h
        · cases h
          exact ⟨rfl, hk, hr⟩
        · cases h
          obtain ⟨hk', hrep, he⟩ := hd x hx (hkx.named (hx ▸ ht)) (fun hw => (hkx.wild (hx.trans hw)).2)
            (hr x mem_cons_self)
          exact stays_head hk hr (slot_congr he) hk' hrep
    · obtain ⟨hno, hin⟩ := insertNamedIn_rep name ht hd (forall_mem_cons.mp hk).2
        (forall_mem_cons.mp hr).2
      rw [if_neg hx]
      refine ⟨fun h => forall_mem_cons.mpr ⟨hx, hno (Option.map_eq_none_iff.mp h)⟩, fun r h => ?_⟩
      obtain ⟨r', hr', rfl⟩ := Option.map_eq_some_iff.mp h
      exact stays_cons hk hr (hin r' hr')

theorem slot_named (ht : c.type ≠ .static) (h : slot x = slot c) : x.type = c.type := by
  have hb := (x.pfx.headD 0).toNat_lt
  unfold slot at h
  cases hx : x.type <;> cases hc : c.type <;> simp_all

theorem insertNamed_rep (ht : type ≠ .static) (hname : name ≠ [] ∧ slash ∉ name)
    (hd : KeepsNamed type descend) (h : Rep n) : Rep (insertNamed type name descend n).1 ∧
    SameEdge (insertNamed type name descend n).1 n := by
  obtain ⟨hno, hin⟩ := insertNamedIn_rep name ht hd h.kept h.kids
  unfold insertNamed
  split
  · next cs rc hr => exact ⟨(hin _ hr).rep h, rfl, rfl, rfl⟩
  · next hr =>
    obtain ⟨hk, hrep, he⟩ := hd { nodeCreate [] type with paramName := name } rfl hname (fun _ => rfl)
      (rep_of_no_children rfl)
    refine ⟨h.add hk hrep fun hm => ?_, rfl, rfl, rfl⟩
    obtain ⟨x, hx, hs⟩ := mem_map.mp hm
    rw [slot_congr he] at hs
    exact hno hr x hx (slot_named (c := { nodeCreate [] type with paramName := name }) ht hs)

theorem setHandler_rep (e : Entry) (h : Rep n) :
    Rep (setHandler e n).1 ∧ SameEdge (setHandler e n).1 n := by
  unfold setHandler
  split
  · exact ⟨h, rfl, rfl, rfl⟩
  · exact ⟨.mk h.order h.kept h.kids, rfl, rfl, rfl⟩

theorem setHandler_keepsWild {e : Entry} (he : e.handler ≠ 0) : KeepsNamed .wildcard (setHandler e) := by
  intro x hx hname hkids h
  obtain ⟨hrep, hedge⟩ := setHandler_rep e h
  have hset : (setHandler e x).1.entry.handler ≠ 0 ∧ (setHandler e x).1.children = [] := by
    unfold setHandler
    split
    · next hh => exact ⟨hh, hkids rfl⟩
    · exact ⟨he, hkids rfl⟩
  refine ⟨⟨(properEdge_named ?_).congr hedge, fun _ => hedge.2.2 ▸ hname, fun _ => hset⟩, hrep, hedge⟩
  simp [hx]

/-- **An insert keeps the representation**, and a node its edge. -/
theorem insertRecursive_rep {e : Entry} (he : e.handler ≠ 0) :
    ∀ (segs : List Bytes), (∀ seg ∈ segs, slash ∉ seg) →
    Keeps (insertRecursive e segs)
  | [], _, n, h => setHandler_rep e h
  | seg :: segs, hsl, n, h => by
    have hd := insertRecursive_rep he segs (forall_mem_cons.mp hsl).2
    have hseg := hsl seg mem_cons_self
    have hname (hne : seg.tail ≠ []) : seg.tail ≠ [] ∧ slash ∉ seg.tail :=
      ⟨hne, fun h => hseg (mem_of_mem_tail h)⟩
    rw [insertRecursive]
    split_ifs with h0 hstar hsegs hn hcolon hn
    · exact setHandler_rep e h
    · exact ⟨h, rfl, rfl, rfl⟩
    · exact ⟨h, rfl, rfl, rfl⟩
    · exact insertNamed_rep (by simp) (hname hn) (setHandler_keepsWild he) h
    · exact ⟨h, rfl, rfl, rfl⟩
    · refine insertNamed_rep (by simp) (hname hn) (fun x hx hnamed _ hr => ?_) h
      obtain ⟨hrep, hedge⟩ := hd x hr
      refine ⟨Kept.congr (x := x) ⟨properEdge_named (by simp [hx]), fun _ => hnamed, ?_⟩ hedge
        (by simp [hx]), hrep, hedge⟩
      simp [hx]
    · obtain ⟨c, s, rfl⟩ := exists_cons_of_ne_nil h0
      exact insertStaticSegment_rep hd segs n c s hseg h

theorem insertOne_rep (i : Insert) (h : Rep n) :
    Rep (insertOne n i).1 ∧ SameEdge (insertOne n i).1 n := by
  unfold insertOne radixInsert
  split_ifs with hh hp
  · exact ⟨h, rfl, rfl, rfl⟩
  · exact ⟨h, rfl, rfl, rfl⟩
  · exact insertRecursive_rep hh _ (notMem_of_mem_splitOn _) n h

theorem foldl_rep : ∀ (is : List Insert) {t : Node × List Insert}, Rep t.1 → t.1.type = .static →
    Rep (is.foldl insertStep t).1 ∧ (is.foldl insertStep t).1.type = .static
  | [], _, h, ht => ⟨h, ht⟩
  | i :: is, t, h, ht => by
    obtain ⟨hrep, he⟩ := insertOne_rep i h
    exact foldl_rep is (t := insertStep t i) hrep (he.2.1.trans ht)

/-! ### What a node is -/

inductive InTree : Node → Node → Prop
  | here {n : Node} : InTree n n
  | child {n c x : Node} : c ∈ n.children → InTree c x → InTree n x

/-- The representation of a node of the tree. -/
structure Represented (n : Node) : Prop where
  order : n.children.Pairwise fun a b => a.type.rank ≤ b.type.rank
  oneParam : n.children.countP (·.type = .param) ≤ 1
  oneWildcard : n.children.countP (·.type = .wildcard) ≤ 1
  proper : ∀ c ∈ n.children, c.type = .static → c.pfx ≠ [] ∧ slash ∉ c.pfx
  sorted : (n.children.filter (·.type = .static)).Pairwise fun a b => a.pfx.head? ≠ b.pfx.head? ∧
    a.pfx < b.pfx
  wild : n.type = .wildcard → n.entry.handler ≠ 0 ∧ n.children = []
  named : n.type ≠ .static → n.paramName ≠ [] ∧ slash ∉ n.paramName

theorem countP_type_le_one (h : (cs.map slot).Pairwise (· < ·)) (ht : type ≠ .static) :
    cs.countP (·.type = type) ≤ 1 := by
  have hiff (x : Node) : x.type = type ↔ slot x = slot (nodeCreate [] type) :=
    ⟨fun hx => by cases type <;> simp_all [slot, nodeCreate], fun hx =>
      slot_named (c := nodeCreate [] type) ht hx⟩
  calc cs.countP (·.type = type)
      = cs.countP (slot · == slot (nodeCreate [] type)) := countP_congr fun x _ => by simp [hiff]
    _ = (cs.map slot).count (slot (nodeCreate [] type)) := by
        rw [count, countP_map]
        rfl
    _ ≤ 1 := nodup_iff_count_le_one.mp (h.imp ne_of_lt) _

theorem Rep.represented (h : Rep n) (hk : n.type = .static ∨ Kept n) : Represented n := by
  have hpair := pairwise_map.mp h.order
  refine ⟨hpair.imp_of_mem fun {a b} ha hb hlt => ?_, countP_type_le_one h.order (by simp),
    countP_type_le_one h.order (by simp), fun c hc => (h.kept c hc).proper, ?_, ?_, ?_⟩
  · rcases (insertChild_stops_iff (h.kept a ha).proper (h.kept b hb).proper hlt.ne).mpr
      hlt with hr | ⟨he, -⟩
    · exact hr.le
    · exact (congrArg _ he).le
  · refine (hpair.filter _).imp_of_mem fun {a b} ha hb hlt => ?_
    rw [mem_filter, decide_eq_true_iff] at ha hb
    obtain ⟨ha, hta⟩ := ha
    obtain ⟨hb, htb⟩ := hb
    constructor
    · intro he
      simp [slot, hta, htb, he] at hlt
    · rcases (insertChild_stops_iff (h.kept a ha).proper (h.kept b hb).proper hlt.ne).mpr
        hlt with hr | ⟨-, -, hp⟩
      · simp [hta, htb] at hr
      · exact hp
  · intro ht
    rcases hk with hk | hk
    · simp [hk] at ht
    · exact hk.wild ht
  · intro ht
    rcases hk with hk | hk
    · exact absurd hk ht
    · exact hk.named ht

/-- **The representation of the route tree**, after any calls of
`ioh_radix_insert`, at every node. -/
theorem insertAll_represented (is : List Insert) {n : Node} (hn : InTree (insertAll is).1 n) :
    Represented n := by
  have hroot := foldl_rep is (t := (radixCreate, [])) (rep_of_no_children rfl) rfl
  suffices h : ∀ {m n : Node}, InTree m n → Rep m → m.type = .static ∨ Kept m → Represented n from
    h hn hroot.1 (.inl hroot.2)
  intro m n hmn
  induction hmn with
  | here => exact Rep.represented
  | child hc _ ih => exact fun h _ => ih (h.kids _ hc) (.inr (h.kept _ hc))

/-- A tree with a split, a parameter and a wildcard. -/
def mixedRoutes : List Insert :=
  ["/ab", "/ac", "/:id", "/*rest"].map fun p => ⟨bytes p, ⟨1, 0, 0⟩⟩

theorem mixedRoutes_represented : InTree (insertAll mixedRoutes).1 (insertAll mixedRoutes).1 ∧
    Represented (insertAll mixedRoutes).1 :=
  ⟨.here, insertAll_represented mixedRoutes .here⟩

end Radix
end Iohttp
