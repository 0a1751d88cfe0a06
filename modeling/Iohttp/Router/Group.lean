/-
# Route groups

`src/router/ioh_route_group.c`. The groups of a router form a forest; a group
pointer is the path of indices to the group, so its ancestors are the
prefixes of the path. A `Registry` is a router with its groups, and `routes`
lists the registrations through a group that succeeded.
-/
import Iohttp.Middleware.Chain

namespace Iohttp

/-- `IOH_MAX_GROUP_PREFIX`. -/
abbrev maxGroupPrefix : ℕ := 256

/-- `struct ioh_group`. -/
structure Group where
  pfx : Bytes
  middleware : List Ptr
  subgroups : List Group

/-- A pointer to a group: its index among the subgroups, from the top. -/
abbrev GroupPtr := List ℕ

def groupAt : List Group → GroupPtr → Option Group
  | _, [] => none
  | gs, [i] => gs[i]?
  | gs, i :: is => gs[i]?.bind fun g => groupAt g.subgroups is

def modifyGroup (f : Group → Group) : GroupPtr → List Group → List Group
  | [], gs => gs
  | [i], gs => gs.modify i f
  | i :: is, gs => gs.modify i fun g => { g with subgroups := modifyGroup f is g.subgroups }

/-- The middleware of the ancestors of a group, the outermost first, and its
own. -/
def groupMiddleware : List Group → GroupPtr → List Ptr
  | _, [] => []
  | gs, i :: is =>
    match gs[i]? with
    | none => []
    | some g => g.middleware ++ groupMiddleware g.subgroups is

structure GroupRoute where
  group : GroupPtr
  method : Method
  pattern : Bytes
  handler : Ptr
  deriving DecidableEq, Repr

structure Registry where
  router : Router
  groups : List Group
  routes : List GroupRoute

/-- `ioh_router_group`. -/
def routerGroup (reg : Registry) (pfx : Bytes) : Registry × Option GroupPtr :=
  if pfx.length = 0 ∨ pfx.length ≥ maxGroupPrefix then (reg, none)
  else ({ reg with groups := reg.groups ++ [⟨pfx, [], []⟩] }, some [reg.groups.length])

/-- `ioh_group_subgroup`. -/
def groupSubgroup (reg : Registry) (g : GroupPtr) (pfx : Bytes) : Registry × Option GroupPtr :=
  match groupAt reg.groups g with
  | none => (reg, none)
  | some parent =>
    if pfx.length = 0 ∨ parent.pfx.length + pfx.length ≥ maxGroupPrefix then (reg, none)
    else
      ({ reg with
          groups := modifyGroup
            (fun p => { p with subgroups := p.subgroups ++ [⟨p.pfx ++ pfx, [], []⟩] }) g reg.groups },
        some (g ++ [parent.subgroups.length]))

/-- `ioh_group_use`. -/
def groupUse (reg : Registry) (g : GroupPtr) (mw : Ptr) : Registry × ℤ :=
  match groupAt reg.groups g with
  | none => (reg, -EINVAL)
  | some grp =>
    if mw = 0 then (reg, -EINVAL)
    else if grp.middleware.length ≥ maxGroupMiddleware then (reg, -ENOSPC)
    else
      ({ reg with
          groups := modifyGroup (fun p => { p with middleware := p.middleware ++ [mw] }) g reg.groups },
        0)

/-- What `ioh_group_get` and its siblings do for their method: the prefix of
the group in front of the pattern, and `ioh_router_handle`. -/
def groupHandle (method : Method) (reg : Registry) (g : GroupPtr) (pattern : Bytes) (h : Ptr) :
    Registry × ℤ :=
  match groupAt reg.groups g with
  | none => (reg, -EINVAL)
  | some grp =>
    if h = 0 then (reg, -EINVAL)
    else if (grp.pfx ++ pattern).length ≥ maxGroupPrefix + maxUriSize then (reg, -EINVAL)
    else
      let r := routerHandle reg.router method (grp.pfx ++ pattern) h
      ({ reg with
          router := r.1
          routes := if r.2 = 0 then reg.routes ++ [⟨g, method, pattern, h⟩] else reg.routes },
        r.2)

/-- `ioh_group_get`. -/
def groupGet := groupHandle .get

/-- `ioh_group_post`. -/
def groupPost := groupHandle .post

/-- `ioh_group_put`. -/
def groupPut := groupHandle .put

/-- `ioh_group_delete`. -/
def groupDelete := groupHandle .delete

/-- `ioh_group_patch`. -/
def groupPatch := groupHandle .patch

/-- A call that registers something. -/
inductive RegOp where
  | routerGroup (pfx : Bytes)
  | subgroup (g : GroupPtr) (pfx : Bytes)
  | groupUse (g : GroupPtr) (mw : Ptr)
  | groupGet (g : GroupPtr) (pattern : Bytes) (h : Ptr)
  | groupPost (g : GroupPtr) (pattern : Bytes) (h : Ptr)
  | groupPut (g : GroupPtr) (pattern : Bytes) (h : Ptr)
  | groupDelete (g : GroupPtr) (pattern : Bytes) (h : Ptr)
  | groupPatch (g : GroupPtr) (pattern : Bytes) (h : Ptr)
  | routerUse (mw : Ptr)
  | routerHandle (method : Method) (pattern : Bytes) (h : Ptr)
  | setNotFound (h : Ptr)
  | setMethodNotAllowed (h : Ptr)

def register (reg : Registry) : RegOp → Registry
  | .routerGroup pfx => (routerGroup reg pfx).1
  | .subgroup g pfx => (groupSubgroup reg g pfx).1
  | .groupUse g mw => (groupUse reg g mw).1
  | .groupGet g pattern h => (groupGet reg g pattern h).1
  | .groupPost g pattern h => (groupPost reg g pattern h).1
  | .groupPut g pattern h => (groupPut reg g pattern h).1
  | .groupDelete g pattern h => (groupDelete reg g pattern h).1
  | .groupPatch g pattern h => (groupPatch reg g pattern h).1
  | .routerUse mw => { reg with router := (routerUse reg.router mw).1 }
  | .routerHandle method pattern h => { reg with router := (routerHandle reg.router method pattern h).1 }
  | .setNotFound h => { reg with router := { reg.router with notFoundHandler := h } }
  | .setMethodNotAllowed h => { reg with router := { reg.router with methodNotAllowedHandler := h } }

/-- A router without groups. -/
def registryCreate : Registry := ⟨routerCreate, [], []⟩

def registerAll (ops : List RegOp) : Registry := ops.foldl register registryCreate

def HasHandlers (reg : Registry) : Prop := ∀ r ∈ reg.routes, r.handler ≠ 0

theorem groupHandle_handlers {reg : Registry} (h : HasHandlers reg) (method : Method) (g : GroupPtr)
    (pattern : Bytes) (hd : Ptr) : HasHandlers (groupHandle method reg g pattern hd).1 := by
  unfold groupHandle
  split
  · exact h
  · split_ifs with h0 h1
    · exact h
    · exact h
    · intro r hr
      simp only at hr
      split_ifs at hr
      · rcases List.mem_append.mp hr with hr | hr
        · exact h r hr
        · rw [List.mem_singleton.mp hr]
          exact h0
      · exact h r hr

theorem register_handlers {reg : Registry} (h : HasHandlers reg) (op : RegOp) :
    HasHandlers (register reg op) := by
  cases op with
  | routerGroup pfx =>
    simp only [register, routerGroup]
    split_ifs <;> exact h
  | subgroup g pfx =>
    simp only [register, groupSubgroup]
    split
    · exact h
    · split_ifs <;> exact h
  | groupUse g mw =>
    simp only [register, groupUse]
    split
    · exact h
    · split_ifs <;> exact h
  | groupGet g pattern hd => exact groupHandle_handlers h _ _ _ _
  | groupPost g pattern hd => exact groupHandle_handlers h _ _ _ _
  | groupPut g pattern hd => exact groupHandle_handlers h _ _ _ _
  | groupDelete g pattern hd => exact groupHandle_handlers h _ _ _ _
  | groupPatch g pattern hd => exact groupHandle_handlers h _ _ _ _
  | routerUse mw => exact h
  | routerHandle method pattern hd => exact h
  | setNotFound hd => exact h
  | setMethodNotAllowed hd => exact h

/-- After any calls, every route that was registered through a group has a
handler. -/
theorem registerAll_handlers (ops : List RegOp) : HasHandlers (registerAll ops) := by
  suffices h : ∀ reg, HasHandlers reg → HasHandlers (ops.foldl register reg) from
    h _ (by simp [HasHandlers, registryCreate])
  induction ops with
  | nil => exact fun _ h => h
  | cons op ops ih => exact fun reg h => ih _ (register_handlers h op)

end Iohttp
