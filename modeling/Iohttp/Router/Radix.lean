/-
# The radix trie of the router

`src/router/ioh_radix.c`: a compressed prefix tree over the segments of the
route patterns. A static edge carries a piece of a literal segment, a
parameter and a wildcard edge carry their name. Allocation succeeds here, so
`-ENOMEM` does not occur, and `priority`, which nothing reads, is left out.

Key definitions: `insertRecursive`, `radixInsert`, `lookupRecursive`,
`radixLookup`.
-/
import Iohttp.Bytes

namespace Iohttp
namespace Radix

/-- `ioh_node_type_t`, in the order of its values. -/
inductive NodeType where
  | static
  | param
  | wildcard
  deriving DecidableEq, Repr

/-- The value of the enumerator. -/
def NodeType.rank : NodeType → ℕ
  | .static => 0
  | .param => 1
  | .wildcard => 2

/-- What a node stores for a route: `handler`, `metadata` and `meta` of
`ioh_radix_node_t`, which are set and copied together. A null `handler`
means that no route ends here. -/
structure Entry where
  handler : Ptr
  metadata : Ptr
  routeMeta : Ptr
  deriving DecidableEq, Repr

/-- No route. -/
def Entry.none : Entry := ⟨0, 0, 0⟩

/-- `ioh_radix_node_t`. -/
structure Node where
  pfx : Bytes
  type : NodeType
  paramName : Bytes
  entry : Entry
  children : List Node

/-- `ioh_param_t`: a captured parameter. -/
structure Param where
  name : Bytes
  value : Bytes
  deriving DecidableEq, Repr

/-- `ioh_radix_match_t`. The parameters are the first `param_count` of the
array. -/
structure Match where
  entry : Entry
  params : List Param
  deriving DecidableEq, Repr

/-- `IOH_MAX_PATH_PARAMS`. -/
abbrev maxPathParams : ℕ := 8

/-- `ioh_radix_node_create`. -/
def nodeCreate (pfx : Bytes) (type : NodeType) : Node := ⟨pfx, type, [], Entry.none, []⟩

/-- Where `ioh_radix_node_add_child` puts the child: before the first child of
a greater type, or of a greater prefix among the static ones. -/
def insertChild (child : Node) : List Node → List Node
  | [] => [child]
  | existing :: rest =>
    if child.type.rank < existing.type.rank ∨
        (child.type = existing.type ∧ child.type = .static ∧ child.pfx < existing.pfx) then
      child :: existing :: rest
    else existing :: insertChild child rest

/-- `ioh_radix_node_add_child`. -/
def addChild (parent child : Node) : Node :=
  { parent with children := insertChild child parent.children }

/-- `common_prefix_len`. -/
def commonPrefixLen : Bytes → Bytes → ℕ
  | a :: as, b :: bs => if a = b then commonPrefixLen as bs + 1 else 0
  | _, _ => 0

/-- `split_static_node`: the node that takes the place of `existing`, which
keeps the rest of its prefix below it. -/
def splitStaticNode (existing : Node) (splitPos : ℕ) : Node :=
  addChild (nodeCreate (existing.pfx.take splitPos) .static)
    { existing with pfx := existing.pfx.drop splitPos }

/-! ### Insertion

`next_segment` walks the pattern from `/` to `/`, so the calls of
`insert_recursive` see the pieces of the pattern between its slashes one
after the other: a trailing slash is an empty last piece. An insertion that
fails keeps the nodes it made on its way, so every function returns the node
as it left it together with its result. -/

def segmentTail : List Bytes → Bytes
  | [] => []
  | seg :: segs => slash :: seg ++ segmentTail segs

mutual

/-- `insert_static_segment`. `descend` is `insert_recursive` on the segments
after this one, `tail` their bytes: `seg` is not NUL-terminated, so
`common_prefix_len` may look at them. -/
def insertStaticSegment (descend : Node → Node × ℤ) (tail : Bytes) : Node → Bytes → Node × ℤ
  | ⟨pfx, type, paramName, entry, children⟩, seg =>
    match insertStaticIn descend tail children seg with
    | some (children', rc) => (⟨pfx, type, paramName, entry, children'⟩, rc)
    | none =>
      -- no static child shares a byte: a new one
      let r := descend (nodeCreate seg .static)
      (addChild ⟨pfx, type, paramName, entry, children⟩ r.1, r.2)

/-- The loop of `insert_static_segment` over the children: `none` if no
static child shares a first byte with the segment. -/
def insertStaticIn (descend : Node → Node × ℤ) (tail : Bytes) :
    List Node → Bytes → Option (List Node × ℤ)
  | [], _ => none
  | child :: rest, seg =>
    let cplen := commonPrefixLen (seg ++ tail) child.pfx
    if child.type ≠ .static ∨ cplen = 0 then
      (insertStaticIn descend tail rest seg).map fun r => (child :: r.1, r.2)
    else if cplen = child.pfx.length ∧ cplen = seg.length then
      let r := descend child
      some (r.1 :: rest, r.2)
    else if cplen < child.pfx.length then
      if cplen = seg.length then
        let r := descend (splitStaticNode child cplen)
        some (r.1 :: rest, r.2)
      else
        let r := descend (nodeCreate (seg.drop cplen) .static)
        some (addChild (splitStaticNode child cplen) r.1 :: rest, r.2)
    else
      let r := insertStaticSegment descend tail child (seg.drop cplen)
      some (r.1 :: rest, r.2)

end

def setHandler (e : Entry) (n : Node) : Node × ℤ :=
  if n.entry.handler ≠ 0 then (n, -EEXIST) else ({ n with entry := e }, 0)

/-- The loops of `insert_recursive` for a child of type `type`: the first one
is taken if its name is `name` and is a conflict otherwise, `none` if there
is none. -/
def insertNamedIn (type : NodeType) (name : Bytes) (descend : Node → Node × ℤ) :
    List Node → Option (List Node × ℤ)
  | [] => none
  | child :: rest =>
    if child.type = type then
      if child.paramName ≠ name then some (child :: rest, -EEXIST)
      else
        let r := descend child
        some (r.1 :: rest, r.2)
    else (insertNamedIn type name descend rest).map fun r => (child :: r.1, r.2)

/-- A `:name` or `*name` segment: into the child of that type, or into a new
one. -/
def insertNamed (type : NodeType) (name : Bytes) (descend : Node → Node × ℤ) (n : Node) :
    Node × ℤ :=
  match insertNamedIn type name descend n.children with
  | some (children', rc) => ({ n with children := children' }, rc)
  | none =>
    let r := descend { nodeCreate [] type with paramName := name }
    (addChild n r.1, r.2)

/-- `insert_recursive`. -/
def insertRecursive (e : Entry) : List Bytes → Node → Node × ℤ
  | [], n => setHandler e n
  | seg :: segs, n =>
    if seg = [] then setHandler e n
    else if seg.head? = some star then
      -- a wildcard ends the pattern and has a name
      if segs ≠ [] then (n, -EINVAL)
      else if seg.tail = [] then (n, -EINVAL)
      else insertNamed .wildcard seg.tail (setHandler e) n
    else if seg.head? = some colon then
      if seg.tail = [] then (n, -EINVAL)
      else insertNamed .param seg.tail (insertRecursive e segs) n
    else
      insertStaticSegment (insertRecursive e segs) (segmentTail segs) n seg

/-- `ioh_radix_create`: the root. -/
def radixCreate : Node := nodeCreate [] .static

/-- `ioh_radix_insert` on the tree's root. -/
def radixInsert (root : Node) (pattern : Bytes) (e : Entry) : Node × ℤ :=
  if e.handler = 0 then (root, -EINVAL)
  else if pattern.head? ≠ some slash then (root, -EINVAL)
  else insertRecursive e (pattern.tail.splitOn slash) root

/-! ### Lookup

`rest` is the path from the current position on. A failed call returns the
match as it left it. -/

/-- The leading slash is consumed. -/
def skipSlash : Bytes → Bytes
  | [] => []
  | c :: cs => if c = slash then cs else c :: cs

/-- The loop over the wildcard children: the first with a handler takes the
rest of the path. -/
def lookupWildcardIn : List Node → Bytes → Match → ℤ × Match
  | [], _, m => (-ENOENT, m)
  | child :: children, rest, m =>
    if child.type ≠ .wildcard ∨ child.entry.handler = 0 then lookupWildcardIn children rest m
    else if m.params.length ≥ maxPathParams then (-ENOENT, m)
    else (0, ⟨child.entry, m.params ++ [⟨child.paramName, rest⟩]⟩)

mutual

/-- `lookup_recursive`. -/
def lookupRecursive : Node → Bytes → Match → ℤ × Match
  | ⟨_, _, _, entry, children⟩, rest, m =>
    match skipSlash rest with
    | [] => if entry.handler ≠ 0 then (0, ⟨entry, m.params⟩) else (-ENOENT, m)
    | c :: cs =>
      let seg := (c :: cs).takeWhile (· ≠ slash)
      let next := (c :: cs).dropWhile (· ≠ slash)
      let r := lookupStaticIn children seg next m
      if r.1 = 0 then r
      else
        match lookupParamIn children seg next r.2 with
        | (some rc, m') => (rc, m')
        | (none, m') => lookupWildcardIn children (c :: cs) m'

/-- `lookup_static`: the loop over the static children. -/
def lookupStaticIn : List Node → Bytes → Bytes → Match → ℤ × Match
  | [], _, _, m => (-ENOENT, m)
  | child :: children, seg, next, m =>
    if child.type ≠ .static ∨ child.pfx.length > seg.length ∨
        seg.take child.pfx.length ≠ child.pfx then
      lookupStaticIn children seg next m
    else
      let r :=
        if child.pfx.length = seg.length then lookupRecursive child next m
        else lookupStatic child (seg.drop child.pfx.length) next m
      if r.1 = 0 then r else lookupStaticIn children seg next r.2

/-- `lookup_static` on a node. -/
def lookupStatic : Node → Bytes → Bytes → Match → ℤ × Match
  | ⟨_, _, _, _, children⟩, seg, next, m => lookupStaticIn children seg next m

/-- The loop of `lookup_recursive` over the parameter children: `some` if the
call returns from inside it. -/
def lookupParamIn : List Node → Bytes → Bytes → Match → Option ℤ × Match
  | [], _, _, m => (none, m)
  | child :: children, seg, next, m =>
    if child.type ≠ .param then lookupParamIn children seg next m
    else if m.params.length ≥ maxPathParams then (some (-ENOENT), m)
    else
      let r := lookupRecursive child next { m with params := m.params ++ [⟨child.paramName, seg⟩] }
      if r.1 = 0 then (some 0, r.2)
      else
        -- backtrack: `param_count` goes back to what it was
        lookupParamIn children seg next { r.2 with params := r.2.params.take m.params.length }

end

/-- `ioh_radix_lookup`. -/
def radixLookup (root : Node) (path : Bytes) : ℤ × Match :=
  if path = [] then (-ENOENT, ⟨Entry.none, []⟩) else lookupRecursive root path ⟨Entry.none, []⟩

/-- The arguments of one `ioh_radix_insert` call. -/
structure Insert where
  pattern : Bytes
  entry : Entry
  deriving DecidableEq, Repr

/-- One call. -/
def insertOne (root : Node) (i : Insert) : Node × ℤ :=
  radixInsert root i.pattern i.entry

/-- One call, with the calls that have returned 0 so far, the last first. -/
def insertStep (t : Node × List Insert) (i : Insert) : Node × List Insert :=
  let r := insertOne t.1 i
  (r.1, if r.2 = 0 then i :: t.2 else t.2)

/-- The tree after the calls, one after the other, and the calls among them
that returned 0. -/
def insertAll (is : List Insert) : Node × List Insert := is.foldl insertStep (radixCreate, [])

end Radix
end Iohttp
