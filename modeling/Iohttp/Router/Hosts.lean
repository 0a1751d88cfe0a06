/-
# The router of a host

`ioh_vhost_add` of `src/router/ioh_vhost.c` and what `ioh_vhost_dispatch` selects.
What a table is for is told by `selectRouter`: the first entry that names the
host, else the first `*.S` that covers it, else the default router. The code
does so for the part of the Host value before the port (`HostPart`). It looks
for the port by the last colon, or behind the first `]` if the value begins with
`[`, whether or not that is the end of a literal.
-/
import Iohttp.Router.Vhost

namespace Iohttp

open List

/-- `IOH_VHOST_MAX_HOSTS`. -/
abbrev vhostMaxHosts : ℕ := 32

/-- `ioh_vhost_create`. -/
def vhostCreate : Vhost := ⟨[], none⟩

/-- `ioh_vhost_add`; `none` is a null pointer. -/
def vhostAdd (v : Vhost) (host : Option Bytes) (router : Option Router) : Vhost × ℤ :=
  match host, router with
  | some host, some router =>
    if v.entries.length ≥ vhostMaxHosts then (v, -ENOSPC)
    else
      let host := strn 256 host
      if host.length = 0 ∨ host.length ≥ 256 then (v, -EINVAL)
      else ({ v with entries := v.entries ++ [⟨host, (bytes "*.").isPrefixOf host, router⟩] }, 0)
  | _, _ => (v, -EINVAL)

/-- `ioh_vhost_set_default`. -/
def vhostSetDefault (v : Vhost) (router : Option Router) : Vhost := { v with defaultRouter := router }

/-- The tables that calls make. -/
inductive Vhost.Built : Vhost → Prop where
  | create : Built vhostCreate
  | add {v : Vhost} (h : Built v) (host : Option Bytes) (router : Option Router) :
    Built (vhostAdd v host router).1
  | setDefault {v : Vhost} (h : Built v) (router : Option Router) : Built (vhostSetDefault v router)

theorem vhostAdd_entries (v : Vhost) (host : Option Bytes) (router : Option Router) :
    (vhostAdd v host router).1.entries = v.entries ∨
    ∃ name r, (vhostAdd v host router).1.entries = v.entries ++
    [⟨name, (bytes "*.").isPrefixOf name, r⟩] := by
  cases host with
  | none => exact .inl rfl
  | some host =>
    cases router with
    | none => exact .inl rfl
    | some router =>
      unfold vhostAdd
      simp only
      split_ifs
      · exact .inl rfl
      · exact .inl rfl
      · exact .inr ⟨strn 256 host, router, rfl⟩

variable {v : Vhost} {h h' host value : Bytes}

theorem Vhost.Built.isWildcard (h : v.Built) :
    ∀ e ∈ v.entries, e.isWildcard = true ↔ bytes "*." <+: e.host := by
  induction h with
  | create => exact fun e he => by cases he
  | @add v _ host router ih =>
    rcases vhostAdd_entries v host router with heq | ⟨name, r, heq⟩
    · rwa [heq]
    · rw [heq]
      intro e he
      rcases mem_append.mp he with he | he
      · exact ih e he
      · rw [mem_singleton.mp he]
        exact isPrefixOf_iff_prefix
  | setDefault _ _ ih => exact ih

/-! ### What a table is for -/

def VhostEntry.Names (e : VhostEntry) (host : Bytes) : Prop :=
  ¬bytes "*." <+: e.host ∧ e.host.map lower = host.map lower
  deriving Decidable

/-- The entry is `*.S` and the host is a nonempty text followed by `.S`, in any case. -/
def VhostEntry.Covers (e : VhostEntry) (host : Bytes) : Prop :=
  ∃ s x y, e.host = bytes "*." ++ s ∧ host = x ++ y ∧ x ≠ [] ∧ y.map lower = (bytes "." ++ s).map lower

theorem eqIgnoreCase_iff {a b : Bytes} : eqIgnoreCase a b = true ↔ a.map lower = b.map lower :=
  beq_iff_eq

/-- **A wildcard covers the hosts under its suffix.** -/
theorem covers_iff (e : VhostEntry) (host : Bytes) :
    e.Covers host ↔ bytes "*." <+: e.host ∧ wildcardMatch e.host host = true := by
  unfold wildcardMatch
  rw [Bool.and_eq_true, decide_eq_true_iff, eqIgnoreCase_iff]
  constructor
  · rintro ⟨s, x, y, he, rfl, hx, hy⟩
    have htail : e.host.tail = bytes "." ++ s := by rw [he]; rfl
    have hlen : y.length = (bytes "." ++ s).length := by
      rw [← length_map lower, hy, length_map]
    refine ⟨⟨s, he.symm⟩, ?_, ?_⟩
    · rw [htail, ← hlen, length_append]
      exact Nat.lt_add_of_pos_left (length_pos_iff.mpr hx)
    · rw [htail, ← hlen, length_append, Nat.add_sub_cancel, drop_left, hy]
  · rintro ⟨⟨s, he⟩, hlen, hy⟩
    have htail : e.host.tail = bytes "." ++ s := by rw [← he]; rfl
    rw [htail] at hlen hy
    refine ⟨s, _, _, he.symm, (take_append_drop _ _).symm, ?_, hy⟩
    intro hnil
    have := congrArg List.length hnil
    rw [length_take, length_nil] at this
    omega

instance (e : VhostEntry) (host : Bytes) : Decidable (e.Covers host) :=
  decidable_of_iff' _ (covers_iff e host)

def selectRouter (v : Vhost) (host : Bytes) : Option Router :=
  (((v.entries.find? fun e => e.Names host).or (v.entries.find? fun e => e.Covers host)).map
    (·.router)).or
    v.defaultRouter

variable {e : VhostEntry}

theorem VhostEntry.covers_lower (heq : h.map lower = h'.map lower)
    (hcov : e.Covers h) : e.Covers h' := by
  obtain ⟨s, x, y, he, rfl, hx, hy⟩ := hcov
  rw [map_append] at heq
  obtain ⟨x', y', rfl, hx', hy'⟩ := map_eq_append_iff.mp heq.symm
  refine ⟨s, x', y', he, rfl, ?_, hy'.trans hy⟩
  rintro rfl
  exact hx (map_eq_nil_iff.mp hx'.symm)

theorem selectRouter_lower (v : Vhost) (heq : h.map lower = h'.map lower) :
    selectRouter v h = selectRouter v h' := by
  have hnames : ∀ e ∈ v.entries, decide (e.Names h) = decide (e.Names h') := by
    intro e _
    rw [decide_eq_decide, VhostEntry.Names, VhostEntry.Names, heq]
  have hcovers : ∀ e ∈ v.entries, decide (e.Covers h) = decide (e.Covers h') := by
    intro e _
    exact decide_eq_decide.mpr ⟨VhostEntry.covers_lower heq, VhostEntry.covers_lower heq.symm⟩
  rw [selectRouter, selectRouter, find?_congr hnames, find?_congr hcovers]

theorem selectRouter_names (he : e ∈ v.entries) (hname : e.Names h) :
    ∃ e' ∈ v.entries, e'.Names h ∧ selectRouter v h = some e'.router := by
  cases hfind : v.entries.find? fun e => e.Names h with
  | none => exact absurd hname (by simpa using find?_eq_none.mp hfind e he)
  | some e' =>
    have hname' := find?_some hfind
    refine ⟨e', mem_of_find?_eq_some hfind, of_decide_eq_true hname', ?_⟩
    rw [selectRouter, hfind]
    rfl

/-- The part of a Host value before the port: a name without a colon that does not
begin with a bracket, or a literal in brackets. -/
inductive IsHost : Bytes → Prop where
  | name {h : Bytes} (hcolon : colon ∉ h) (hbracket : h.head? ≠ some 91) : IsHost h
  | literal {x : Bytes} (hx : 93 ∉ x) : IsHost (91 :: x ++ [93])

/-- `host` is the part of `value` before the port, if it has one. -/
def HostPart (value host : Bytes) : Prop :=
  IsHost host ∧ (value = host ∨ ∃ port, colon ∉ port ∧ value = host ++ colon :: port)

/-- **The port is stripped**, and nothing else. -/
theorem stripPort_hostPart (h : HostPart value host) : stripPort value = host := by
  obtain ⟨hhost, hvalue⟩ := h
  cases hhost with
  | name hcolon hbracket =>
    rcases hvalue with rfl | ⟨port, hport, rfl⟩
    · rw [stripPort, if_neg hbracket, if_neg hcolon]
    · have hhead : (host ++ colon :: port).head? ≠ some 91 := by
        cases host with
        | nil => exact fun h => absurd (Option.some.inj h) (by decide)
        | cons c cs => exact hbracket
      have hdrop : (host ++ colon :: port).rdropWhile (· ≠ colon) = host ++ [colon] := by
        have hport' : ∀ c ∈ port.reverse, decide (c ≠ colon) = true := fun c hc =>
          decide_eq_true fun he => hport (he ▸ mem_reverse.mp hc)
        rw [List.rdropWhile, reverse_append, reverse_cons, append_assoc,
          dropWhile_append_of_pos hport', singleton_append, dropWhile_cons_of_neg (by simp),
          reverse_cons, reverse_reverse]
      rw [stripPort, if_neg hhead, if_pos (by simp), hdrop, dropLast_concat]
  | @literal x hx =>
    obtain ⟨rest, rfl⟩ : ∃ rest, value = (91 :: x) ++ 93 :: rest := by
      rcases hvalue with rfl | ⟨port, _, rfl⟩
      · exact ⟨[], rfl⟩
      · exact ⟨colon :: port, by simp⟩
    have hnone : (91 :: x).findIdx? (· = 93) = none := by
      rw [findIdx?_eq_none_iff]
      intro c hc
      refine decide_eq_false fun he => ?_
      rcases mem_cons.mp hc with rfl | hc
      · exact absurd he (by decide)
      · exact hx (he ▸ hc)
    have hidx : ((91 :: x) ++ 93 :: rest).findIdx? (· = 93) = some (0 + (91 :: x).length) := by
      rw [findIdx?_append, hnone, Option.none_or, findIdx?_cons]
      rfl
    have hhead : ((91 :: x) ++ 93 :: rest).head? = some 91 := rfl
    rw [stripPort, if_pos hhead, hidx]
    simp only [Nat.zero_add]
    rw [take_length_add_append]
    rfl

/-- **The code selects the router that the table is meant to select**, for the
part before the port. -/
theorem vhostRouter_eq (hv : v.Built) (hlen : value.length ≤ 256) (hnul : 0 ∉ value)
    (hpart : HostPart value host) : vhostRouter v (some value) = selectRouter v host := by
  have hall : strn 256 value = value := by
    rw [strn, take_of_length_le hlen, takeWhile_eq_self_iff]
    exact fun c hc => decide_eq_true fun he => hnul (he ▸ hc)
  have hnames :
      ∀ e ∈ v.entries, (!e.isWildcard && eqIgnoreCase e.host host) = decide (e.Names host) := by
    intro e he
    rw [Bool.eq_iff_iff, Bool.and_eq_true, decide_eq_true_iff, eqIgnoreCase_iff, VhostEntry.Names,
      ← hv.isWildcard e he,
      Bool.not_eq_true', Bool.not_eq_true]
  have hcovers :
      ∀ e ∈ v.entries, (e.isWildcard && wildcardMatch e.host host) = decide (e.Covers host) := by
    intro e he
    rw [Bool.eq_iff_iff, Bool.and_eq_true, decide_eq_true_iff, covers_iff, hv.isWildcard e he]
  unfold vhostRouter selectRouter
  simp only [Option.bind_some]
  rw [hall, stripPort_hostPart hpart, find?_congr hnames, find?_congr hcovers]

/-- **Virtual host selection.** A request is dispatched by the router that the
table is meant to select for the part of the Host value before the port. So a
port and the case of the letters do not matter, and an entry that names the
host wins, wherever it stands. -/
theorem vhost_selects {v : Vhost} (hv : v.Built) {value host : Bytes} (hlen : value.length ≤ 256)
    (hnul : 0 ∉ value) (hpart : HostPart value host) (method : Method) (path : Bytes) :
    (Caller.vhost v (some value)).route method path =
      ((selectRouter v host).map fun r => routerDispatch r method path).getD noMatch ∧
    (∀ value' host', value'.length ≤ 256 → 0 ∉ value' → HostPart value' host' →
      host'.map lower = host.map lower →
      (Caller.vhost v (some value')).route method path = (Caller.vhost v (some value)).route
      method path) ∧
    ∀ e ∈ v.entries, e.Names host → ∃ e' ∈ v.entries, e'.Names host ∧
      (Caller.vhost v (some value)).route method path = routerDispatch e'.router method path := by
  have hroute : ∀ {value host : Bytes}, value.length ≤ 256 → 0 ∉ value → HostPart value host →
      (Caller.vhost v (some value)).route method path =
        ((selectRouter v host).map fun r => routerDispatch r method path).getD noMatch := by
    intro value host hlen hnul hpart
    rw [Caller.route, vhostRouter_eq hv hlen hnul hpart]
  refine ⟨hroute hlen hnul hpart, fun value' host' hlen' hnul' hpart' hlower => ?_, fun e he hname => ?_⟩
  · rw [hroute hlen hnul hpart, hroute hlen' hnul' hpart', selectRouter_lower v hlower]
  · obtain ⟨e', he', hname', hsel⟩ := selectRouter_names he hname
    refine ⟨e', he', hname', ?_⟩
    rw [hroute hlen hnul hpart, hsel]
    rfl

/-- A wildcard, and then a host under it. -/
def hostTable : Vhost :=
  (vhostAdd (vhostAdd vhostCreate (some (bytes "*.ex.org"))
    (some (routerHandle routerCreate .get (bytes "/x") 1).1)).1
    (some (bytes "a.ex.org")) (some (routerHandle routerCreate .get (bytes "/x") 2).1)).1

theorem vhost_selects_port :
    ((Caller.vhost hostTable (some (bytes "A.Ex.org:80"))).route .get (bytes "/x")).entry.handler = 2 ∧
    (Caller.vhost hostTable (some (bytes "a.ex.org"))).route .get (bytes "/x") =
      (Caller.vhost hostTable (some (bytes "A.Ex.org:80"))).route .get (bytes "/x") := by
  have hpart : HostPart (bytes "A.Ex.org:80") (bytes "A.Ex.org") :=
    ⟨.name (by decide) (by decide), .inr ⟨bytes "80", by decide, by decide⟩⟩
  have hpart' : HostPart (bytes "a.ex.org") (bytes "a.ex.org") :=
    ⟨.name (by decide) (by decide), .inl rfl⟩
  have hbuilt : hostTable.Built := .add (.add .create _ _) _ _
  obtain ⟨hroute, hsame, _⟩ := vhost_selects hbuilt (by decide) (by decide) hpart .get (bytes "/x")
  refine ⟨?_, hsame _ _ (by decide) (by decide) hpart' (by decide)⟩
  decide +kernel

/-- A value that begins with a bracket and is no literal: it is cut behind the first
`]`, and without one its port stays. -/
theorem bracket_not_literal :
    colon ∉ bytes "[a]b" ∧
    (∃ e ∈ (vhostAdd vhostCreate (some (bytes "[a]b")) (some routerCreate)).1.entries,
      e.Names (bytes "[a]b")) ∧
    (vhostRouter (vhostAdd vhostCreate (some (bytes "[a]b")) (some routerCreate)).1
      (some (bytes "[a]b"))).isNone = true ∧
    (vhostRouter (vhostAdd vhostCreate (some (bytes "[a")) (some routerCreate)).1
      (some (bytes "[a"))).isSome = true ∧
    (vhostRouter (vhostAdd vhostCreate (some (bytes "[a")) (some routerCreate)).1
      (some (bytes "[a:80"))).isNone = true := by
  refine ⟨by decide, ⟨_, mem_singleton_self _, ?_⟩, by decide, by decide, by decide⟩
  decide

end Iohttp
