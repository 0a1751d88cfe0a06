/-
# What a lookup finds

`ioh_radix_lookup` in terms of the places with a node (`find`): segment by
segment, it first goes on literally, then by the parameter, then by the
wildcard, and comes back if that leads nowhere. So its answer depends on the
view of the tree only (`radixLookup_find`), and of all the ways in which the
tree can take a path it takes the first in this order (`find_complete`).

Key definitions: `find`, `Leads`.

Key theorems: `radixLookup_find`, `find_complete`.
-/
import Iohttp.Router.View

namespace Iohttp
namespace Radix

open Trie List

/-! ### The search on the view -/

/-- What a search has found: how each segment was taken, the captures and the
entry. -/
structure Hit where
  kinds : List NodeType
  params : List Param
  entry : Entry

/-- The return value of a lookup, and the match that it leaves. -/
def result (m : Match) : Option Hit → ℤ × Match
  | none => (-ENOENT, m)
  | some h => (0, ⟨h.entry, m.params ++ h.params⟩)

/-- The route at the top. -/
def done (v : View Tok Entry) : Option Hit :=
  (v []).bind fun e => if e.handler ≠ 0 then some ⟨[], [], e⟩ else none

open Classical in
/-- The name of the parameter or wildcard at the top. -/
noncomputable def nameAt (v : View Tok Entry) (type : NodeType) : Option Bytes :=
  if h : ∃ name, v [namedTok type name] ≠ none then some h.choose else none

open Classical in
/-- The search for the segments, with `c` captures made so far. A last empty
segment, behind a trailing slash, is none. -/
noncomputable def find : View Tok Entry → List Bytes → ℕ → Option Hit
  | v, [], _ => done v
  | v, t :: ts, c =>
    if t = [] ∧ ts = [] then done v
    else
      (if t = [] ∨ v (t.map .ch) = none then none
        else (find (sub v (t.map .ch)) ts c).map fun h => { h with kinds := .static :: h.kinds }).or
      (((nameAt v .param).bind fun name =>
          if c ≥ maxPathParams then none
          else (find (sub v [.par name]) ts (c + 1)).map fun h =>
            ⟨.param :: h.kinds, ⟨name, t⟩ :: h.params, h.entry⟩).or
        ((nameAt v .wildcard).bind fun name =>
          if c ≥ maxPathParams then none
          else (done (sub v [.wild name])).map fun h =>
            ⟨List.replicate (ts.length + 1) .wildcard, [⟨name, [slash].intercalate (t :: ts)⟩],
              h.entry⟩))

/-- The segments of what is left of a path. -/
def segsOf (rest : Bytes) : List Bytes := (skipSlash rest).splitOn slash

theorem find_nil (v : View Tok Entry) (c : ℕ) : find v [[]] c = find v [] c := by simp [find]

/-! ### The children of a node -/

variable {P : Node → Prop} {name seg : Bytes}

mutual

theorem Node.induct (h : ∀ n, (∀ c ∈ n.children, P c) → P n) : ∀ n, P n
  | ⟨_, _, _, _, children⟩ => h _ (Node.inductIn h children)

theorem Node.inductIn (h : ∀ n, (∀ c ∈ n.children, P c) → P n) :
    ∀ cs : List Node, ∀ c ∈ cs, P c
  | x :: cs, c, hc => by
    rcases mem_cons.mp hc with hcx | hc
    · rw [hcx]
      exact Node.induct h x
    · exact Node.inductIn h cs c hc

end

variable {type : NodeType} {n c : Node}

theorem nameAt_view (h : Wf n) (ht : type ≠ .static)
    (hc : c ∈ n.children) (hct : c.type = type) : nameAt (view n) type = some c.paramName := by
  have hex : ∃ name, view n [namedTok type name] ≠ none :=
    ⟨c.paramName, (view_named h ht _).mpr ⟨c, hc, hct, rfl⟩⟩
  obtain ⟨c', hc', hct', hname⟩ := (view_named h ht _).mp hex.choose_spec
  have hb := (branch_named ht c.paramName (n := c)).mpr hct
  obtain rfl := h.unique hc hc' (hb.trans ((branch_named ht c.paramName).mpr hct').symm)
  rw [nameAt, dif_pos hex, hname]

theorem nameAt_view_none (h : Wf n) (ht : type ≠ .static)
    (hno : ∀ c ∈ n.children, c.type ≠ type) : nameAt (view n) type = none := by
  rw [nameAt, dif_neg]
  rintro ⟨name, hv⟩
  obtain ⟨c, hc, hct, _⟩ := (view_named h ht name).mp hv
  exact hno c hc hct

theorem sub_named (h : Wf n) (ht : type ≠ .static)
    (hc : c ∈ n.children) (hct : c.type = type) : sub (view n) [namedTok type c.paramName] = view c := by
  have hedge : edge c = [namedTok type c.paramName] := by rw [edge_named (hct ▸ ht), hct]
  rw [sub_of_branch h hc ((branch_named ht c.paramName).mpr hct), hedge]
  simpa using sub_under_of_append (v := view c) [namedTok type c.paramName] []

theorem unique_named (h : Wf n) (ht : type ≠ .static) {c' : Node} (hc : c ∈ n.children)
    (hct : c.type = type) (hc' : c' ∈ n.children) (hct' : c'.type = type) : c = c' :=
  h.unique hc hc' (((branch_named ht []).mpr hct).trans ((branch_named ht []).mpr hct').symm)

theorem lookupWildcardIn_none (rest : Bytes) (m : Match) : ∀ {cs : List Node},
    (∀ c ∈ cs, c.type = .wildcard → c.entry.handler = 0) → lookupWildcardIn cs rest m = (-ENOENT, m)
  | [], _ => rfl
  | c :: cs, h => by
    rw [lookupWildcardIn, if_pos]
    · exact lookupWildcardIn_none rest m (forall_mem_cons.mp h).2
    · by_cases hct : c.type = .wildcard
      · exact .inr (h c mem_cons_self hct)
      · exact .inl hct

theorem lookupWildcardIn_some (rest : Bytes) (m : Match) (hct : c.type = .wildcard)
    (hh : c.entry.handler ≠ 0) : ∀ {cs : List Node}, c ∈ cs → (∀ x ∈ cs, x.type = .wildcard → x = c) →
    lookupWildcardIn cs rest m = if m.params.length ≥ maxPathParams then (-ENOENT, m)
      else (0, ⟨c.entry, m.params ++ [⟨c.paramName, rest⟩]⟩)
  | x :: cs, hc, hone => by
    rw [lookupWildcardIn]
    by_cases hx : x.type = .wildcard
    · rw [hone x mem_cons_self hx, if_neg (by simp [hct, hh])]
    · have hne : c ≠ x := fun he => hx (he ▸ hct)
      rw [if_pos (.inl hx)]
      exact lookupWildcardIn_some rest m hct hh ((mem_cons.mp hc).resolve_left hne)
        (forall_mem_cons.mp hone).2

theorem lookupParamIn_none (seg next : Bytes) (m : Match) : ∀ {cs : List Node},
    (∀ c ∈ cs, c.type ≠ .param) → lookupParamIn cs seg next m = (none, m)
  | [], _ => by rw [lookupParamIn]
  | c :: cs, h => by
    rw [lookupParamIn, if_pos (h c mem_cons_self)]
    exact lookupParamIn_none seg next m (forall_mem_cons.mp h).2

theorem lookupParamIn_some (seg next : Bytes) (m : Match) (hct : c.type = .param) :
    ∀ {cs : List Node}, c ∈ cs → (cs.map Node.branch).Nodup → lookupParamIn cs seg next m =
      if m.params.length ≥ maxPathParams then (some (-ENOENT), m) else
        let r := lookupRecursive c next { m with params := m.params ++ [⟨c.paramName, seg⟩] }
        if r.1 = 0 then (some 0, r.2) else (none, m)
  | x :: cs, hc, hn => by
    have hb := fun y : Node => branch_named (n := y) (show NodeType.param ≠ .static by simp) []
    rw [map_cons, nodup_cons] at hn
    rw [lookupParamIn]
    by_cases hx : x.type = .param
    · have hno : ∀ y ∈ cs, y.type ≠ .param := fun y hy hyt =>
        hn.1 (mem_map.mpr ⟨y, hy, ((hb y).mpr hyt).trans ((hb x).mpr hx).symm⟩)
      have hcx : c = x := (mem_cons.mp hc).resolve_right fun hm => hno c hm hct
      subst hcx
      rw [if_neg (not_not.mpr hx)]
      by_cases hlen : m.params.length ≥ maxPathParams
      · rw [if_pos hlen, if_pos hlen]
      by_cases hr : (lookupRecursive c next { m with params := m.params ++ [⟨c.paramName, seg⟩] }).1 = 0
      · rw [if_pos hr, if_pos hr]
      · rw [if_neg hr, if_neg hr, lookupRecursive_fail c next _ hr, lookupParamIn_none seg next _ hno]
        simp
    · have hne : c ≠ x := fun he => hx (he ▸ hct)
      rw [if_pos hx]
      exact lookupParamIn_some seg next m hct ((mem_cons.mp hc).resolve_left hne) hn.2

/-! ### The lookup is the search -/

theorem splitOn_takeWhile : ∀ r : Bytes, r.splitOn slash = r.takeWhile (· ≠ slash) ::
    match r.dropWhile (· ≠ slash) with
    | [] => []
    | _ :: next => next.splitOn slash
  | [] => by simp
  | c :: r => by
    rw [splitOn_cons_eq_if_modifyHead]
    by_cases hc : c = slash
    · simp [hc]
    · rw [splitOn_takeWhile r]
      simp [hc]

theorem segsOf_cons {rest : Bytes} {c : UInt8} {cs : Bytes} (h : skipSlash rest = c :: cs) :
    ∃ ts, segsOf rest = (c :: cs).takeWhile (· ≠ slash) :: ts ∧
      ¬((c :: cs).takeWhile (· ≠ slash) = [] ∧ ts = []) ∧
      [slash].intercalate ((c :: cs).takeWhile (· ≠ slash) :: ts) = c :: cs ∧
      ∀ v k, find v (segsOf ((c :: cs).dropWhile (· ≠ slash))) k = find v ts k := by
  have hsplit := splitOn_takeWhile (c :: cs)
  refine ⟨_, by rw [segsOf, h]; exact hsplit, ?_, ?_, ?_⟩
  · rintro ⟨hseg, hts⟩
    rw [hseg, hts] at hsplit
    have hjoin : [slash].intercalate ((c :: cs).splitOn slash) = c :: cs := intercalate_splitOn slash
    rw [hsplit] at hjoin
    simp at hjoin
  · rw [← hsplit]
    exact intercalate_splitOn slash
  · intro v k
    cases hd : (c :: cs).dropWhile (· ≠ slash) with
    | nil => exact find_nil v k
    | cons d next =>
      have hslash : d = slash := by
        have := head?_dropWhile_not (fun x => decide (x ≠ slash)) (c :: cs)
        rw [hd] at this
        simpa using this
      simp [segsOf, skipSlash, hslash]

noncomputable def findRest (v : View Tok Entry) (seg next : Bytes) (c : ℕ) : Option Hit :=
  open Classical in
  if v (seg.map .ch) = none then none else find (sub v (seg.map .ch)) (segsOf next) c

theorem findRest_congr {v w : View Tok Entry} {seg' : Bytes}
    (h : ∀ K, v (seg.map .ch ++ K) = w (seg'.map .ch ++ K)) (next : Bytes) (c : ℕ) :
    findRest v seg next c = findRest w seg' next c := by
  have h0 := h []
  rw [append_nil, append_nil] at h0
  have hsub : sub v (seg.map .ch) = sub w (seg'.map .ch) := funext h
  rw [findRest, findRest, h0, hsub]

def Searches (n : Node) : Prop :=
  (∀ rest m, lookupRecursive n rest m = result m (find (view n) (segsOf rest) m.params.length)) ∧
    ∀ seg next m, seg ≠ [] → lookupStatic n seg next m = result m
    (findRest (view n) seg next m.params.length)

theorem viewIn_children (hne : seg ≠ []) (K : List Tok) :
    viewIn n.children (seg.map .ch ++ K) = view n (seg.map .ch ++ K) := by
  obtain ⟨b, seg, rfl⟩ := exists_cons_of_ne_nil hne
  rw [map_cons, cons_append, view_cons]

theorem lookupStaticIn_find (hne : seg ≠ []) (next : Bytes) (m : Match) :
    ∀ {cs : List Node},
    (∀ c ∈ cs, ProperEdge c) → (cs.map Node.branch).Nodup → (∀ c ∈ cs, Searches c) →
    lookupStaticIn cs seg next m = result m (findRest (viewIn cs) seg next m.params.length)
  | [], _, _, _ => by simp [lookupStaticIn, findRest, viewIn, result]
  | c :: cs, hp, hn, hs => by
    have hpc := hp c mem_cons_self
    have hp' := (forall_mem_cons.mp hp).2
    rw [map_cons, nodup_cons] at hn
    have ih := lookupStaticIn_find hne next m hp' hn.2 (forall_mem_cons.mp hs).2
    obtain ⟨b, seg', hseg⟩ := exists_cons_of_ne_nil hne
    have htoks : seg.map Tok.ch = Tok.ch b :: seg'.map .ch := by rw [hseg]; rfl
    -- a child behind this one goes on with another byte
    have hother : c.branch = some (Tok.ch b).branch → ∀ K, viewIn cs (seg.map .ch ++ K) = none := by
      intro hb K
      rw [htoks, cons_append]
      exact viewIn_eq_none hp' fun x hx he => hn.1 (mem_map.mpr ⟨x, hx, he.trans hb.symm⟩)
    rw [lookupStaticIn]
    by_cases hskip : c.type ≠ .static ∨ c.pfx.length > seg.length ∨ seg.take c.pfx.length ≠ c.pfx
    · have hnone : under (edge c) (view c) (seg.map .ch) = none := by
        refine under_of_not fun hpre => ?_
        by_cases hst : c.type = .static
        · rw [edge_static hst, map_ch_prefix] at hpre
          rcases hskip with h | h | h
          · exact h hst
          · exact absurd hpre.length_le (not_le.mpr h)
          · exact h (prefix_iff_eq_take.mp hpre).symm
        · rw [edge_named hst, htoks, cons_prefix_cons] at hpre
          unfold namedTok at hpre
          split_ifs at hpre <;> cases hpre.1
      rw [if_pos hskip, ih]
      by_cases hv : viewIn cs (seg.map .ch) = none
      · rw [findRest, findRest, if_pos hv, if_pos (by rw [viewIn_cons, hnone, hv]; rfl)]
      · have hb : c.branch ≠ some (Tok.ch b).branch := fun hb => hv (by simpa using hother hb [])
        refine congrArg (result m) (findRest_congr (fun K => ?_) next _)
        rw [viewIn_cons, htoks, cons_append, under_eq_none hpc hb, Option.none_or]
    · rw [if_neg hskip]
      obtain ⟨hlab, hpne, hpre⟩ := lookupStatic_edge hpc hskip
      have hedge : edge c = c.pfx.map .ch := by rw [edge, hlab]; rfl
      have hb : c.branch = some (Tok.ch b).branch := by
        obtain ⟨x, p, hx⟩ := exists_cons_of_ne_nil hpne
        rw [Node.branch, hedge, hx]
        rw [hx, hseg] at hpre
        simp only [cons_append, List.cons.injEq] at hpre
        rw [hpre.1]
        rfl
      have hview : ∀ K, viewIn (c :: cs) (seg.map .ch ++ K) =
          view c ((seg.drop c.pfx.length).map .ch ++ K) := by
        intro K
        rw [viewIn_cons, hother hb K, Option.or_none, hpre, map_append, append_assoc, ← hedge,
          under_append]
        simp
      have hrest : lookupStaticIn cs seg next m = (-ENOENT, m) := by
        rw [ih, findRest, if_pos (by simpa using hother hb [])]
        rfl
      have hm : ∀ o, (result m o).1 ≠ 0 → (result m o).2 = m := by
        intro o ho
        cases o with
        | none => rfl
        | some h => exact absurd rfl ho
      have hfind : findRest (viewIn (c :: cs)) seg next m.params.length =
          findRest (view c) (seg.drop c.pfx.length) next m.params.length := findRest_congr hview next _
      have hr : (if c.pfx.length = seg.length then lookupRecursive c next m
          else lookupStatic c (seg.drop c.pfx.length) next m) =
          result m (findRest (viewIn (c :: cs)) seg next m.params.length) := by
        rw [hfind]
        split_ifs with hlen
        · rw [(hs c mem_cons_self).1, findRest, hlen, drop_length]
          simp
        · have hlt : c.pfx.length < seg.length := by
            omega
          exact (hs c mem_cons_self).2 _ next m (by simpa using hlt)
      simp only [hr]
      split_ifs with h0
      · rfl
      · rw [hm _ h0, hrest]
        cases ho : findRest (viewIn (c :: cs)) seg next m.params.length with
        | none => rfl
        | some h => rw [ho] at h0; exact absurd rfl h0

theorem lookupStaticIn_empty (next : Bytes) (m : Match) : ∀ {cs : List Node}, (∀ c ∈ cs, ProperEdge c) →
    lookupStaticIn cs [] next m = (-ENOENT, m)
  | [], _ => by rw [lookupStaticIn]
  | c :: cs, hp => by
    rw [lookupStaticIn, if_pos]
    · exact lookupStaticIn_empty next m (forall_mem_cons.mp hp).2
    · by_cases hst : c.type = .static
      · exact .inr (.inl (length_pos_iff.mpr (hp c mem_cons_self hst).1))
      · exact .inl hst

/-! The three ways to go on. -/

open Classical in
noncomputable def findLit (v : View Tok Entry) (t : Bytes) (ts : List Bytes) (c : ℕ) : Option Hit :=
  if t = [] ∨ v (t.map .ch) = none then none
  else (find (sub v (t.map .ch)) ts c).map fun h => { h with kinds := .static :: h.kinds }

noncomputable def findPar (v : View Tok Entry) (t : Bytes) (ts : List Bytes) (c : ℕ) : Option Hit :=
  (nameAt v .param).bind fun name =>
    if c ≥ maxPathParams then none
    else (find (sub v [.par name]) ts (c + 1)).map fun h =>
      ⟨.param :: h.kinds, ⟨name, t⟩ :: h.params, h.entry⟩

noncomputable def findWild (v : View Tok Entry) (t : Bytes) (ts : List Bytes) (c : ℕ) : Option Hit :=
  (nameAt v .wildcard).bind fun name =>
    if c ≥ maxPathParams then none
    else (done (sub v [.wild name])).map fun h =>
      ⟨List.replicate (ts.length + 1) .wildcard, [⟨name, [slash].intercalate (t :: ts)⟩], h.entry⟩

theorem find_cons {t : Bytes} {ts : List Bytes} (h : ¬(t = [] ∧ ts = [])) (v : View Tok Entry) (c : ℕ) :
    find v (t :: ts) c = (findLit v t ts c).or ((findPar v t ts c).or (findWild v t ts c)) := by
  rw [find, if_neg h]
  rfl

theorem findPar_full {c : ℕ} (hc : c ≥ maxPathParams) (v : View Tok Entry) (t : Bytes)
    (ts : List Bytes) : findPar v t ts c = none := by
  simp [findPar, hc]

theorem findWild_full {c : ℕ} (hc : c ≥ maxPathParams) (v : View Tok Entry) (t : Bytes)
    (ts : List Bytes) : findWild v t ts c = none := by
  simp [findWild, hc]

section

variable {n : Node} (h : Wf n) {t next : Bytes} {ts : List Bytes}
  (hts : ∀ v k, find v (segsOf next) k = find v ts k) (m : Match)

include h hts in
theorem lookupStaticIn_findLit (hs : ∀ c ∈ n.children, Searches c) :
    lookupStaticIn n.children t next m = result m (findLit (view n) t ts m.params.length) := by
  by_cases hne : t = []
  · rw [findLit, if_pos (.inl hne), hne, lookupStaticIn_empty next m h.proper]
    rfl
  · rw [lookupStaticIn_find hne next m h.proper h.apart hs, findRest_congr (viewIn_children hne),
      findRest,
      findLit]
    simp only [hne, false_or, hts]
    split_ifs
    · rfl
    · cases find (sub (view n) (t.map .ch)) ts m.params.length <;> rfl

include h hts in
theorem lookupParamIn_findPar (hs : ∀ c ∈ n.children, Searches c) (f : Match → ℤ × Match)
    (hf : m.params.length ≥ maxPathParams → f m = (-ENOENT, m)) :
    (match lookupParamIn n.children t next m with
      | (some rc, m') => (rc, m')
      | (none, m') => f m') =
    match findPar (view n) t ts m.params.length with
    | some hit => result m (some hit)
    | none => f m := by
  by_cases hex : ∃ c ∈ n.children, c.type = .param
  · obtain ⟨c, hc, hct⟩ := hex
    rw [lookupParamIn_some t next m hct hc h.apart]
    by_cases hlen : m.params.length ≥ maxPathParams
    · rw [if_pos hlen, findPar_full hlen]
      exact (hf hlen).symm
    · rw [if_neg hlen, findPar, nameAt_view h (by simp) hc hct]
      simp only [Option.bind_some, if_neg hlen]
      have hsub := sub_named h (show NodeType.param ≠ .static by simp) hc hct
      rw [show namedTok .param c.paramName = .par c.paramName from rfl] at hsub
      rw [hsub, (hs c hc).1, hts]
      simp only [length_append, length_singleton]
      cases find (view c) ts (m.params.length + 1) with
      | none => simp [result, ENOENT]
      | some hit => simp [result]
  · push Not at hex
    rw [lookupParamIn_none t next m hex, findPar, nameAt_view_none h (by simp) hex]
    rfl

include h in
theorem lookupWildcardIn_findWild (t : Bytes) (ts : List Bytes) :
    lookupWildcardIn n.children ([slash].intercalate (t :: ts)) m =
      result m (findWild (view n) t ts m.params.length) := by
  by_cases hex : ∃ c ∈ n.children, c.type = .wildcard
  · obtain ⟨c, hc, hct⟩ := hex
    have hone : ∀ x ∈ n.children, x.type = .wildcard → x = c := fun x hx hxt =>
      unique_named h (by simp) hx hxt hc hct
    have hsub := sub_named h (show NodeType.wildcard ≠ .static by simp) hc hct
    rw [show namedTok .wildcard c.paramName = .wild c.paramName from rfl] at hsub
    rw [findWild, nameAt_view h (by simp) hc hct]
    simp only [Option.bind_some, hsub, done, view_nil]
    by_cases hh : c.entry.handler = 0
    · rw [lookupWildcardIn_none _ m fun x hx hxt => by rw [hone x hx hxt]; exact hh]
      simp [hh, result]
    · rw [lookupWildcardIn_some _ m hct hh hc hone]
      by_cases hlen : m.params.length ≥ maxPathParams
      · simp [hlen, result]
      · simp [hlen, hh, result]
  · push Not at hex
    rw [lookupWildcardIn_none _ m fun x hx hxt => absurd hxt (hex x hx), findWild,
      nameAt_view_none h (by simp) hex]
    rfl

end

theorem searches_of_children (h : Wf n) (hs : ∀ c ∈ n.children, Searches c) : Searches n := by
  refine ⟨fun rest m => ?_, fun seg next m hne => ?_⟩
  · cases hr : skipSlash rest with
    | nil =>
      have hunfold : lookupRecursive n rest m =
          if n.entry.handler ≠ 0 then (0, ⟨n.entry, m.params⟩) else (-ENOENT, m) := by
        cases n
        simp only [lookupRecursive, hr]
      rw [hunfold, segsOf, hr]
      simp only [splitOn_nil, find_nil, find, done, view_nil, Option.bind_some]
      split_ifs <;> simp [result]
    | cons c cs =>
      have hunfold : lookupRecursive n rest m =
          let r := lookupStaticIn n.children ((c :: cs).takeWhile (· ≠ slash))
            ((c :: cs).dropWhile (· ≠ slash)) m
          if r.1 = 0 then r
          else
            match lookupParamIn n.children ((c :: cs).takeWhile (· ≠ slash))
              ((c :: cs).dropWhile (· ≠ slash)) r.2 with
            | (some rc, m') => (rc, m')
            | (none, m') => lookupWildcardIn n.children (c :: cs) m' := by
        have hdef := lookupRecursive.eq_def n rest m
        cases n
        simp only [hr] at hdef
        exact hdef
      obtain ⟨ts, hsegs, hlast, hjoin, hts⟩ := segsOf_cons hr
      rw [hunfold, hsegs, find_cons hlast]
      simp only
      rw [lookupStaticIn_findLit h hts m hs]
      cases hlit : findLit (view n) ((c :: cs).takeWhile (· ≠ slash)) ts m.params.length with
      | some hit => simp [result]
      | none =>
        rw [Option.none_or, if_neg (by simp [result, ENOENT])]
        show (match lookupParamIn n.children _ _ m with
          | (some rc, m') => (rc, m')
          | (none, m') => lookupWildcardIn n.children (c :: cs) m') = _
        rw [lookupParamIn_findPar h hts m hs (lookupWildcardIn n.children (c :: cs))]
        · cases findPar (view n) ((c :: cs).takeWhile (· ≠ slash)) ts m.params.length with
          | some hit => rfl
          | none =>
            rw [Option.none_or, ← lookupWildcardIn_findWild h m, hjoin]
        · intro hlen
          rw [← hjoin, lookupWildcardIn_findWild h m, findWild_full hlen]
          rfl
  · have hstatic : lookupStatic n seg next m = lookupStaticIn n.children seg next m := by
      cases n
      rw [lookupStatic]
    rw [hstatic, lookupStaticIn_find hne next m h.proper h.apart hs, findRest_congr
      (viewIn_children hne)]

/-- **The lookup is the search on the view.** -/
theorem searches_of_wf : ∀ n : Node, Wf n → Searches n :=
  Node.induct fun _ ih h => searches_of_children h fun c hc => ih c hc (h.kids c hc)

theorem radixLookup_find {root : Node} (h : Wf root) (path : Bytes) :
    radixLookup root path =
      if path = [] then (-ENOENT, ⟨Entry.none, []⟩)
      else result ⟨Entry.none, []⟩ (find (view root) (segsOf path) 0) := by
  unfold radixLookup
  split_ifs
  · rfl
  · exact (searches_of_wf root h).1 path _

/-- The tree takes the segments in this way: a literal by the nodes of its
bytes, a parameter by its node, a wildcard by its node and all the rest. -/
def Takes : View Tok Entry → List Bytes → Hit → Prop
  | v, [], ⟨[], [], e⟩ => v [] = some e ∧ e.handler ≠ 0
  | v, t :: ts, ⟨.static :: ks, ps, e⟩ => v (t.map .ch) ≠ none ∧ Takes (sub v (t.map .ch)) ts ⟨ks, ps, e⟩
  | v, t :: ts, ⟨.param :: ks, p :: ps, e⟩ =>
    p.value = t ∧ v [.par p.name] ≠ none ∧ Takes (sub v [.par p.name]) ts ⟨ks, ps, e⟩
  | v, t :: ts, ⟨.wildcard :: ks, [p], e⟩ =>
    p.value = [slash].intercalate (t :: ts) ∧ ks = List.replicate ts.length .wildcard ∧
      v [.wild p.name] = some e ∧ e.handler ≠ 0
  | _, _, _ => False

variable {v : View Tok Entry} {hit : Hit}

theorem done_eq_some (h : done v = some hit) :
    hit.kinds = [] ∧ hit.params = [] ∧ v [] = some hit.entry ∧ hit.entry.handler ≠ 0 := by
  obtain ⟨e, hv, he⟩ := Option.bind_eq_some_iff.mp h
  split_ifs at he with hh
  cases he
  exact ⟨rfl, rfl, hv, hh⟩

theorem nameAt_node (h : nameAt v type = some name) : v [namedTok type name] ≠ none := by
  unfold nameAt at h
  split_ifs at h with hex
  cases h
  exact hex.choose_spec

theorem find_takes : ∀ {ts : List Bytes} {v : View Tok Entry} {c : ℕ} {hit : Hit}, (∀ t ∈ ts, t ≠ []) →
    find v ts c = some hit → Takes v ts hit
  | [], v, c, hit, _, h => by
    obtain ⟨hk, hp, hv, hh⟩ := done_eq_some h
    obtain ⟨ks, ps, e⟩ := hit
    obtain rfl : ks = [] := hk
    obtain rfl : ps = [] := hp
    exact ⟨hv, hh⟩
  | t :: ts, v, c, hit, hts, h => by
    have hts' := (forall_mem_cons.mp hts).2
    rw [find_cons fun hn => hts t mem_cons_self hn.1] at h
    cases hlit : findLit v t ts c with
    | some hit' =>
      rw [hlit, Option.some_or] at h
      cases h
      unfold findLit at hlit
      split_ifs at hlit with hnone
      obtain ⟨rest, hf, rfl⟩ := Option.map_eq_some_iff.mp hlit
      exact ⟨fun hv => hnone (.inr hv), find_takes hts' hf⟩
    | none =>
      rw [hlit, Option.none_or] at h
      cases hpar : findPar v t ts c with
      | some hit' =>
        rw [hpar, Option.some_or] at h
        cases h
        obtain ⟨name, hname, hf⟩ := Option.bind_eq_some_iff.mp hpar
        split_ifs at hf
        obtain ⟨rest, hrest, rfl⟩ := Option.map_eq_some_iff.mp hf
        exact ⟨rfl, nameAt_node hname, find_takes hts' hrest⟩
      | none =>
        rw [hpar, Option.none_or] at h
        obtain ⟨name, hname, hf⟩ := Option.bind_eq_some_iff.mp h
        split_ifs at hf
        obtain ⟨rest, hd, rfl⟩ := Option.map_eq_some_iff.mp hf
        obtain ⟨_, _, hv, hh⟩ := done_eq_some hd
        exact ⟨rfl, rfl, by simpa [Trie.sub] using hv, hh⟩

/-! ### Completeness of the search -/

/-- How a pattern takes each of the segments. -/
def kindsOf : List Label → List Bytes → List NodeType
  | .lit _ :: ls, _ :: ts => .static :: kindsOf ls ts
  | .par _ :: ls, _ :: ts => .param :: kindsOf ls ts
  | .wild _ :: _, ts => ts.map fun _ => .wildcard
  | _, _ => []

/-- Segment by segment, `ks` takes a path no worse than `ks'`: the first
segment that they take differently it takes in the preferred way. -/
def NoWorse : List NodeType → List NodeType → Prop
  | [], [] => True
  | k :: ks, k' :: ks' => k.rank < k'.rank ∨ k = k' ∧ NoWorse ks ks'
  | _, _ => False

theorem NoWorse.refl : ∀ ks : List NodeType, NoWorse ks ks
  | [] => trivial
  | _ :: ks => .inr ⟨rfl, NoWorse.refl ks⟩

/-- The names at a place are unique. -/
def Named (v : View Tok Entry) : Prop :=
  ∀ K type name name', v (K ++ [namedTok type name]) ≠ none → v (K ++ [namedTok type name']) ≠ none →
    name = name'

theorem Named.sub (h : Named v) (s : List Tok) : Named (sub v s) := by
  intro K type name name' h₁ h₂
  unfold Trie.sub at h₁ h₂
  rw [← append_assoc] at h₁ h₂
  exact h _ type name name' h₁ h₂

theorem Named.nameAt (h : Named v)
    (hv : v [namedTok type name] ≠ none) : nameAt v type = some name := by
  have hex : ∃ name, v [namedTok type name] ≠ none := ⟨name, hv⟩
  rw [Radix.nameAt, dif_pos hex]
  exact congrArg some (h [] type _ _ hex.choose_spec hv)

/-- There are nodes where the labels end, and the last of them has the entry. -/
def Leads : View Tok Entry → List Label → Entry → Prop
  | v, [], e => v [] = some e
  | v, l :: ls, e => v l.toks ≠ none ∧ Leads (sub v l.toks) ls e

theorem done_of_entry {e : Entry} (he : e.handler ≠ 0) (hv : v [] = some e) :
    done v = some ⟨[], [], e⟩ := by
  rw [done, hv, Option.bind_some, if_pos he]

theorem findLit_kinds {t : Bytes} {ts : List Bytes} {c : ℕ}
    (h : findLit v t ts c = some hit) : ∃ ks, hit.kinds = .static :: ks := by
  unfold findLit at h
  split_ifs at h
  obtain ⟨hit', _, rfl⟩ := Option.map_eq_some_iff.mp h
  exact ⟨hit'.kinds, rfl⟩

theorem findPar_kinds {t : Bytes} {ts : List Bytes} {c : ℕ}
    (h : findPar v t ts c = some hit) : ∃ ks, hit.kinds = .param :: ks := by
  obtain ⟨name, _, h⟩ := Option.bind_eq_some_iff.mp h
  split_ifs at h
  obtain ⟨hit', _, rfl⟩ := Option.map_eq_some_iff.mp h
  exact ⟨hit'.kinds, rfl⟩

/-- **A route that takes the path is found, or one that takes it no worse.** -/
theorem find_complete {e : Entry} (he : e.handler ≠ 0) : ∀ {ls : List Label} {v : View Tok Entry}
    {ts : List Bytes} {c : ℕ} {caps : List Param}, Named v → Leads v ls e → (∀ t ∈ ts, t ≠ []) →
    matchLabels ls ts = some caps → c + captures ls ≤ maxPathParams →
    ∃ hit, find v ts c = some hit ∧ NoWorse hit.kinds (kindsOf ls ts)
  | [], v, [], c, caps, _, hv, _, _, _ => ⟨_, done_of_entry he hv, NoWorse.refl _⟩
  | [], v, t :: ts, c, caps, _, _, _, hm, _ => by simp [matchLabels] at hm
  | l :: ls, v, [], c, caps, _, _, _, hm, _ => by
    cases l <;> simp [matchLabels] at hm
  | l :: ls, v, t :: ts, c, caps, hn, hv, hts, hm, hc => by
    have ht := hts t mem_cons_self
    have hts' := (forall_mem_cons.mp hts).2
    obtain ⟨hv₁, hv₂⟩ := hv
    rw [find_cons fun h => ht h.1]
    cases l with
    | lit s =>
      simp only [matchLabels] at hm
      split_ifs at hm with hst
      subst hst
      obtain ⟨hit, hf, hle⟩ :=
        find_complete he (hn.sub _) hv₂ hts' hm (by simpa [captures, Label.isLit] using hc)
      simp only [Label.toks] at hf hv₁
      refine ⟨{ hit with kinds := .static :: hit.kinds }, ?_, .inr ⟨rfl, hle⟩⟩
      rw [findLit, if_neg (by simp [ht, hv₁]), hf]
      rfl
    | par name =>
      cases hlit : findLit v t ts c with
      | some hit =>
        obtain ⟨ks, hks⟩ := findLit_kinds hlit
        exact ⟨hit, rfl, hks ▸ .inl Nat.zero_lt_one⟩
      | none =>
        simp only [matchLabels, Option.map_eq_some_iff] at hm
        obtain ⟨caps', hm, _⟩ := hm
        have hroom : c + 1 + captures ls ≤ maxPathParams := by
          simp only [captures, filter_cons, Label.isLit, Bool.not_false, if_true, length_cons] at hc ⊢
          omega
        obtain ⟨hit, hf, hle⟩ := find_complete he (hn.sub _) hv₂ hts' hm hroom
        simp only [Label.toks] at hf
        refine ⟨⟨.param :: hit.kinds, ⟨name, t⟩ :: hit.params, hit.entry⟩, ?_, .inr ⟨rfl, hle⟩⟩
        have hpar :
            findPar v t ts c = some ⟨.param :: hit.kinds, ⟨name, t⟩ :: hit.params, hit.entry⟩ := by
          rw [findPar, hn.nameAt (show v [namedTok .param name] ≠ none from hv₁)]
          simp only [Option.bind_some]
          rw [if_neg (by omega), hf]
          rfl
        rw [hpar]
        rfl
    | wild name =>
      cases hlit : findLit v t ts c with
      | some hit =>
        obtain ⟨ks, hks⟩ := findLit_kinds hlit
        exact ⟨hit, rfl, hks ▸ .inl Nat.zero_lt_two⟩
      | none =>
        cases hpar : findPar v t ts c with
        | some hit =>
          obtain ⟨ks, hks⟩ := findPar_kinds hpar
          exact ⟨hit, rfl, hks ▸ .inl Nat.one_lt_two⟩
        | none =>
          have hls : ls = [] := by
            cases ls with
            | nil => rfl
            | cons l ls => simp [matchLabels] at hm
          subst hls
          have hroom : ¬c ≥ maxPathParams := by
            simp only [captures, filter_cons, Label.isLit, Bool.not_false, if_true, length_cons] at hc
            omega
          have hd : done (sub v [.wild name]) = some ⟨[], [], e⟩ := done_of_entry he hv₂
          have hkinds : List.replicate (ts.length + 1) NodeType.wildcard = kindsOf [.wild name]
              (t :: ts) := by
            simp [kindsOf, replicate_succ]
          refine ⟨⟨List.replicate (ts.length + 1) .wildcard,
            [⟨name, [slash].intercalate (t :: ts)⟩], e⟩, ?_, ?_⟩
          · rw [findWild, hn.nameAt (show v [namedTok .wildcard name] ≠ none from hv₁)]
            simp only [Option.bind_some]
            rw [if_neg hroom, hd]
            rfl
          · rw [hkinds]
            exact NoWorse.refl _

end Radix
end Iohttp
