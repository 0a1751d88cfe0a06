/-
# The strings of an HTTP/2 or HTTP/3 request

The header callbacks of `src/http/ioh_http2.c` and `src/http/ioh_http3.c` copy
every name and value into the arena of the stream and store pointers to the
copies in the request. The arena is one buffer, which grows with `realloc`;
when that returns another address, the pointers that were stored before are
not changed. Sizes are natural numbers here, and allocation succeeds.

What the request is to hold is given by the same callbacks on strings that
never move: `Str` says which of the copies a string is.

Key definitions: `arenaCopy`, `headerCallback`, `HeaderBlock`, `Intact`, `Moved`.

Key theorem: `strings_intact_iff`.
-/
import Iohttp.Http.Request
import Iohttp.Lib.Memory

namespace Iohttp

open List

open Memory (Mem overwrite)

/-- What `realloc` does in the `n`-th copy, if it is called: whether it returns
another address, and what the new memory has in it. -/
structure Allocator where
  moves : ℕ → Bool
  fill : ℕ → ℕ → UInt8

/-- `h2_arena_t` and `h3_arena_t` with the memory around them. `copies` counts
the calls of `arena_copy`; a new buffer is known by the call that has
allocated it. -/
structure Arena where
  mem : Mem UInt8
  buf : Option ℕ
  len : ℕ
  cap : ℕ
  copies : ℕ

/-- The arena after `calloc`. -/
def arenaNew : Arena := ⟨Mem.empty, none, 0, 0, 0⟩

/-- The loop of `arena_copy` that doubles the capacity. -/
def doubleCap (need : ℕ) : ℕ → ℕ → ℕ
  | 0, cap => cap
  | fuel + 1, cap => if cap < need then doubleCap need fuel (cap * 2) else cap

/-- The capacity of a buffer that is to hold `need` bytes. -/
def newCap (cap need : ℕ) : ℕ := doubleCap need need (if cap = 0 then 4096 else cap * 2)

/-- `realloc` to `cap` bytes. -/
def arenaGrow (A : Allocator) (a : Arena) (cap : ℕ) : Arena :=
  let fresh (n : ℕ) : Bytes := (List.range (cap - n)).map (A.fill a.copies)
  match a.buf with
  | none => { a with mem := a.mem.set a.copies (fresh 0), buf := some a.copies, cap := cap }
  | some b =>
    let old := (a.mem b).getD []
    if A.moves a.copies then
      { a with mem := (a.mem.kill b).set a.copies (old ++ fresh old.length), buf := some a.copies, cap := cap }
    else { a with mem := a.mem.set b (old ++ fresh old.length), cap := cap }

/-- The copy, once there is room for it. -/
def arenaPut (a : Arena) (src : Bytes) : Arena × Memory.Ptr :=
  let b := a.buf.getD 0
  ({ a with
      mem := a.mem.set b (overwrite ((a.mem b).getD []) a.len (src ++ [0]))
      len := a.len + src.length + 1, copies := a.copies + 1 }, ⟨b, a.len⟩)

/-- `arena_copy`. -/
def arenaCopy (A : Allocator) (a : Arena) (src : Bytes) : Arena × Memory.Ptr :=
  if a.len + src.length + 1 > a.cap then
    arenaPut (arenaGrow A a (newCap a.cap (a.len + src.length + 1))) src
  else arenaPut a src

/-! ### The callbacks -/

/-- The names that the callbacks know, as a token of nghttp3. -/
inductive Token where
  | method
  | path
  | authority
  | contentType
  | contentLength
  | other
  deriving DecidableEq, Repr

/-- A header of a request, with its token. -/
structure HeaderLine where
  token : Token
  name : Bytes
  value : Bytes
  deriving DecidableEq, Repr

/-- `ioh_header_t` of a request, with strings of any kind. -/
structure HeaderOf (σ : Type) where
  name : σ
  nameLen : ℕ
  value : σ
  valueLen : ℕ

/-- What the callbacks write of `ioh_request_t`, with strings of any kind. -/
structure FieldsOf (σ : Type) where
  method : Method
  path : Option σ
  pathLen : ℕ
  query : Option σ
  queryLen : ℕ
  host : Option σ
  headers : List (HeaderOf σ)
  contentLength : ℕ
  contentType : Option σ

/-- The request after `ioh_request_init`. -/
def fieldsNew {σ : Type} : FieldsOf σ := ⟨.get, none, 0, none, 0, none, [], 0, none⟩

/-- `IOH_MAX_HEADERS`. -/
abbrev maxHeaders : ℕ := 64

/-- The loop that reads a length: `none` if there is something else than a digit,
or if the length has more than 64 bits. -/
def lengthLoop : ℕ → Bytes → Option ℕ
  | n, [] => some n
  | n, c :: cs =>
    if c < 48 ∨ 57 < c ∨ 2 ^ 64 ≤ n * 10 + (c.toNat - 48) then none
    else lengthLoop (n * 10 + (c.toNat - 48)) cs

/-- How strings are copied: the copy, and the string from its `n`-th byte on. -/
structure Copier (S σ : Type) where
  copy : S → Bytes → S × σ
  after : σ → ℕ → σ

variable {S σ : Type} {srcs : List Bytes} {src content : Bytes} {b : ℕ}

/-- A pseudo-header. The copy has the bytes of the value, in which the question
mark is looked for. -/
def pseudoHeader (C : Copier S σ) (l : HeaderLine) (val : σ) (f : FieldsOf σ) : FieldsOf σ :=
  match l.token with
  | .method => { f with method := methodParse l.value }
  | .path =>
    match l.value.findIdx? (· = 63) with
    | some i =>
      { f with
        path := some val, pathLen := i
        query := some (C.after val (i + 1)), queryLen := l.value.length - i - 1 }
    | none => { f with path := some val, pathLen := l.value.length }
  | .authority => { f with host := some val }
  | _ => f

/-- A regular header, which is there already. -/
def knownHeader (l : HeaderLine) (val : σ) (f : FieldsOf σ) : Option (FieldsOf σ) :=
  match l.token with
  | .contentType => some { f with contentType := some val }
  | .contentLength => (lengthLoop 0 l.value).map fun n => { f with contentLength := n }
  | _ => some f

/-- What `on_header_cb` and `h3_recv_header_cb` have in common; `none` is a
failure of the callback. -/
def headerCallback (C : Copier S σ) (s : S × FieldsOf σ) (l : HeaderLine) : Option (S × FieldsOf σ) :=
  let v := C.copy s.1 l.value
  if l.name.head? = some colon then some (v.1, pseudoHeader C l v.2 s.2)
  else if s.2.headers.length < maxHeaders then
    let n := C.copy v.1 l.name
    let f := { s.2 with headers := s.2.headers ++ [⟨n.2, l.name.length, v.2, l.value.length⟩] }
    (knownHeader l v.2 f).map fun f => (n.1, f)
  else some (v.1, s.2)

/-- The comparisons of `on_header_cb`. -/
def h2Token (name : Bytes) : Token :=
  if name = bytes ":method" then .method
  else if name = bytes ":path" then .path
  else if name = bytes ":authority" then .authority
  else if name = bytes "content-type" then .contentType
  else if name = bytes "content-length" then .contentLength
  else .other

/-- `arena_copy` as the callbacks use it. -/
def arenaCopier (A : Allocator) : Copier Arena Memory.Ptr := ⟨arenaCopy A, Memory.Ptr.add⟩

/-- `on_header_cb`. -/
def h2OnHeader (A : Allocator) (s : Arena × FieldsOf Memory.Ptr) (name value : Bytes) :
    Option (Arena × FieldsOf Memory.Ptr) :=
  headerCallback (arenaCopier A) s ⟨h2Token name, name, value⟩

/-- `h3_recv_header_cb`. The token comes from nghttp3. -/
def h3RecvHeader (A : Allocator) (s : Arena × FieldsOf Memory.Ptr) (token : Token) (name value : Bytes) :
    Option (Arena × FieldsOf Memory.Ptr) :=
  headerCallback (arenaCopier A) s ⟨token, name, value⟩

/-- The headers of a request, as the callbacks get them. -/
inductive HeaderBlock where
  | h2 (fields : List (Bytes × Bytes))
  | h3 (fields : List (Token × Bytes × Bytes))

/-- The stream when its request is dispatched, unless a callback has failed. -/
def HeaderBlock.run (A : Allocator) : HeaderBlock → Option (Arena × FieldsOf Memory.Ptr)
  | .h2 fields => fields.foldlM (fun s f => h2OnHeader A s f.1 f.2) (arenaNew, fieldsNew)
  | .h3 fields => fields.foldlM (fun s f => h3RecvHeader A s f.1 f.2.1 f.2.2) (arenaNew, fieldsNew)

/-- The headers with their tokens. -/
def HeaderBlock.lines : HeaderBlock → List HeaderLine
  | .h2 fields => fields.map fun f => ⟨h2Token f.1, f.1, f.2⟩
  | .h3 fields => fields.map fun f => ⟨f.1, f.2.1, f.2.2⟩

theorem HeaderBlock.run_eq (A : Allocator) (b : HeaderBlock) :
    b.run A = b.lines.foldlM (headerCallback (arenaCopier A)) (arenaNew, fieldsNew) := by
  cases b <;> simp [run, lines, foldlM_map] <;> rfl

/-! ### What the request is to hold -/

/-- A string that was received: the copy that it comes from, by its number, and
its bytes. -/
structure Str where
  copy : ℕ
  bytes : Bytes
  deriving DecidableEq, Repr

/-- Strings that never move. -/
def strCopier : Copier (List Bytes) Str :=
  ⟨fun copied b => (copied ++ [b], ⟨copied.length, b⟩), fun s n => ⟨s.copy, s.bytes.drop n⟩⟩

/-- What the request is to hold, and all strings that were copied. -/
def HeaderBlock.received (b : HeaderBlock) : Option (List Bytes × FieldsOf Str) :=
  b.lines.foldlM (headerCallback strCopier) ([], fieldsNew)

def FieldsOf.strings (f : FieldsOf σ) : List σ :=
  f.path.toList ++ f.query.toList ++ f.host.toList ++ f.contentType.toList ++
    f.headers.flatMap fun h => [h.name, h.value]

/-- Two requests have related strings in the same places. -/
structure FieldsRel {σ' : Type} (R : σ → σ' → Prop) (f : FieldsOf σ) (g : FieldsOf σ') : Prop where
  path : Option.Rel R f.path g.path
  query : Option.Rel R f.query g.query
  host : Option.Rel R f.host g.host
  contentType : Option.Rel R f.contentType g.contentType
  headers : List.Forall₂ (fun h h' => R h.name h'.name ∧ R h.value h'.value) f.headers g.headers

/-- The pointer is into the current buffer of the arena, and reads the bytes of
the string and a NUL. -/
def Intact (a : Arena) (p : Memory.Ptr) (s : Str) : Prop :=
  a.buf = some p.obj ∧ a.mem.load p (s.bytes.length + 1) = some (s.bytes ++ [0])

/-- The length and the capacity of the arena behind another copy. -/
def sizesStep (z : ℕ × ℕ) (src : Bytes) : ℕ × ℕ :=
  let need := z.1 + src.length + 1
  (need, if need > z.2 then newCap z.2 need else z.2)

/-- The length and the capacity of the arena behind the copies. -/
def sizes (srcs : List Bytes) : ℕ × ℕ := srcs.foldl sizesStep (0, 0)

/-- The `m`-th copy is not the first one, has no room in the buffer, and
`realloc` returns another address. -/
def Moved (A : Allocator) (srcs : List Bytes) (m : ℕ) : Prop :=
  0 < m ∧ (∃ src ∈ srcs[m]?, (sizes (srcs.take m)).2 < (sizes (srcs.take m)).1 + src.length + 1) ∧
    A.moves m = true
  deriving Decidable

/-! ### Related copies -/

variable {f : FieldsOf σ} {α β γ δ : Type} {p : Memory.Ptr} {m n : ℕ}

section

variable {S' σ' : Type}

theorem optionRel_map {R : α → β → Prop} {Q : γ → δ → Prop} {f : α → γ} {g : β → δ}
    (hfg : ∀ a b, R a b → Q (f a) (g b)) {x : Option α} {y : Option β} (h : Option.Rel R x y) :
    Option.Rel Q (x.map f) (y.map g) := by
  cases h with
  | some h => exact .some (hfg _ _ h)
  | none => exact .none

theorem optionRel_bind {R : α → β → Prop} {Q : γ → δ → Prop} {f : α → Option γ}
    {g : β → Option δ} (hfg : ∀ a b, R a b → Option.Rel Q (f a) (g b)) {x : Option α} {y : Option β}
    (h : Option.Rel R x y) : Option.Rel Q (x.bind f) (y.bind g) := by
  cases h with
  | some h => exact hfg _ _ h
  | none => exact .none

/-- Two ways to copy strings, step by step. -/
structure Simulates (C : Copier S σ) (C' : Copier S' σ') (RS : S → S' → Prop)
    (R : S → S' → σ → σ' → Prop) : Prop where
  copy : ∀ {s s'} (b : Bytes), RS s s' → RS (C.copy s b).1 (C'.copy s' b).1
  after : ∀ {s s'} (b : Bytes), RS s s' → ∀ n ≤ b.length,
    R (C.copy s b).1 (C'.copy s' b).1 (C.after (C.copy s b).2 n) (C'.after (C'.copy s' b).2 n)
  value : ∀ {s s'} (b : Bytes), RS s s' →
    R (C.copy s b).1 (C'.copy s' b).1 (C.copy s b).2 (C'.copy s' b).2
  keep : ∀ {s s' v v'} (b : Bytes), RS s s' → R s s' v v' → R (C.copy s b).1 (C'.copy s' b).1 v v'

theorem FieldsRel.mono {R R' : σ → σ' → Prop} {g : FieldsOf σ'} (h : FieldsRel R f g)
    (hR : ∀ v v', R v v' → R' v v') : FieldsRel R' f g := by
  have opt : ∀ {x : Option σ} {y : Option σ'}, Option.Rel R x y → Option.Rel R' x y := by
    intro x y hr
    have := optionRel_map (f := id) (g := id) hR hr
    rwa [Option.map_id, id, Option.map_id, id] at this
  exact ⟨opt h.path, opt h.query, opt h.host, opt h.contentType,
    h.headers.imp fun _ _ hr => ⟨hR _ _ hr.1, hR _ _ hr.2⟩⟩

theorem fieldsRel_new (R : σ → σ' → Prop) : FieldsRel R fieldsNew fieldsNew :=
  ⟨.none, .none, .none, .none, .nil⟩

theorem FieldsRel.pseudo {R : σ → σ' → Prop} {C : Copier S σ} {C' : Copier S' σ'}
    {g : FieldsOf σ'} (h : FieldsRel R f g) {l : HeaderLine} {v : σ} {v' : σ'} (hv : R v v')
    (hafter : ∀ n ≤ l.value.length, R (C.after v n) (C'.after v' n)) :
    FieldsRel R (pseudoHeader C l v f) (pseudoHeader C' l v' g) := by
  unfold pseudoHeader
  cases l.token with
  | method => exact ⟨h.path, h.query, h.host, h.contentType, h.headers⟩
  | path =>
    simp only
    cases hq : l.value.findIdx? (· = 63) with
    | none => exact ⟨.some hv, h.query, h.host, h.contentType, h.headers⟩
    | some i =>
      have hi : i < l.value.length := (findIdx?_eq_some_iff_getElem.mp hq).1
      exact ⟨.some hv, .some (hafter _ hi), h.host, h.contentType, h.headers⟩
  | authority => exact ⟨h.path, h.query, .some hv, h.contentType, h.headers⟩
  | contentType | contentLength | other => exact h

theorem FieldsRel.addHeader {R : σ → σ' → Prop} {g : FieldsOf σ'} (h : FieldsRel R f g)
    {n v : σ} {n' v' : σ'} (hn : R n n') (hv : R v v') (i j : ℕ) :
    FieldsRel R { f with headers := f.headers ++ [⟨n, i, v, j⟩] }
      { g with headers := g.headers ++ [⟨n', i, v', j⟩] } :=
  ⟨h.path, h.query, h.host, h.contentType, rel_append h.headers (.cons ⟨hn, hv⟩ .nil)⟩

theorem FieldsRel.known {R : σ → σ' → Prop} {g : FieldsOf σ'} (h : FieldsRel R f g)
    (l : HeaderLine) {v : σ} {v' : σ'} (hv : R v v') :
    Option.Rel (FieldsRel R) (knownHeader l v f) (knownHeader l v' g) := by
  unfold knownHeader
  cases l.token with
  | contentType => exact .some ⟨h.path, h.query, h.host, .some hv, h.headers⟩
  | contentLength =>
    simp only
    cases lengthLoop 0 l.value with
    | none => exact .none
    | some n => exact .some ⟨h.path, h.query, h.host, h.contentType, h.headers⟩
  | method | path | authority | other => exact .some h

/-- The states of two streams. -/
def StreamRel (RS : S → S' → Prop) (R : S → S' → σ → σ' → Prop) (s : S × FieldsOf σ)
    (s' : S' × FieldsOf σ') : Prop :=
  RS s.1 s'.1 ∧ FieldsRel (R s.1 s'.1) s.2 s'.2

variable {C : Copier S σ} {C' : Copier S' σ'} {RS : S → S' → Prop} {R : S → S' → σ → σ' → Prop}

/-- **One callback**: both fail, or the streams are related again. -/
theorem Simulates.headerCallback (H : Simulates C C' RS R) {s : S × FieldsOf σ} {s' : S' × FieldsOf σ'}
    (h : StreamRel RS R s s') (l : HeaderLine) :
    Option.Rel (StreamRel RS R) (headerCallback C s l) (headerCallback C' s' l) := by
  obtain ⟨hS, hF⟩ := h
  have hcopy := H.copy l.value hS
  have hval := H.value l.value hS
  have hkept := hF.mono fun v v' => H.keep l.value hS
  have hlen : s.2.headers.length = s'.2.headers.length := hF.headers.length_eq
  unfold Iohttp.headerCallback
  simp only [hlen]
  split_ifs
  · exact .some ⟨hcopy, hkept.pseudo hval (H.after l.value hS)⟩
  · have hagain := hkept.mono fun v v' => H.keep l.name hcopy
    have hval' := H.keep l.name hcopy hval
    have hknown :=
      (hagain.addHeader (H.value l.name hcopy) hval' l.name.length l.value.length).known l hval'
    exact optionRel_map (fun _ _ hf => ⟨H.copy l.name hcopy, hf⟩) hknown
  · exact .some ⟨hcopy, hkept⟩

/-- **All callbacks of a block.** -/
theorem Simulates.foldlM (H : Simulates C C' RS R) : ∀ (ls : List HeaderLine) {s : S × FieldsOf σ}
    {s' : S' × FieldsOf σ'}, StreamRel RS R s s' →
    Option.Rel (StreamRel RS R) (ls.foldlM (Iohttp.headerCallback C) s)
    (ls.foldlM (Iohttp.headerCallback C') s')
  | [], _, _, h => .some h
  | l :: ls, _, _, h => by
    rw [foldlM_cons, foldlM_cons]
    exact optionRel_bind (fun _ _ ht => H.foldlM ls ht) (H.headerCallback h l)

end

/-! ### The buffer -/

theorem le_doubleCap (need : ℕ) : ∀ (fuel cap : ℕ), cap ≤ doubleCap need fuel cap
  | 0, _ => le_rfl
  | fuel + 1, cap => by
    unfold doubleCap
    split_ifs
    · have := le_doubleCap need fuel (cap * 2)
      omega
    · exact le_rfl

theorem need_le_doubleCap (need : ℕ) : ∀ (fuel cap : ℕ), 0 < cap → need ≤ cap + fuel →
    need ≤ doubleCap need fuel cap
  | 0, cap, _, h => h
  | fuel + 1, cap, hpos, h => by
    unfold doubleCap
    split_ifs with hlt
    · exact need_le_doubleCap need fuel (cap * 2) (by omega) (by omega)
    · omega

theorem need_le_newCap (cap need : ℕ) : need ≤ newCap cap need := by
  unfold newCap
  refine need_le_doubleCap need need _ ?_ (Nat.le_add_left ..)
  split_ifs <;> omega

theorem le_newCap (cap need : ℕ) : cap ≤ newCap cap need := by
  refine le_trans ?_ (le_doubleCap need need _)
  split_ifs <;> omega

/-- The buffer of the arena is the only object, and has its capacity. -/
structure Contents (a : Arena) (b : ℕ) (content : Bytes) : Prop where
  buf : a.buf = some b
  mem : a.mem b = some content
  others : ∀ o, o ≠ b → a.mem o = none
  length : content.length = a.cap

variable {a : Arena}

theorem Contents.grow (A : Allocator) (h : Contents a b content) {cap : ℕ} (hcap : a.cap ≤ cap) :
    ∃ tail, Contents (arenaGrow A a cap) (if A.moves a.copies then a.copies else b)
    (content ++ tail) := by
  have hlen : (content ++ (List.range (cap - content.length)).map (A.fill a.copies)).length = cap := by
    have := h.length
    rw [length_append, length_map, length_range]
    omega
  refine ⟨(List.range (cap - content.length)).map (A.fill a.copies), ?_⟩
  unfold arenaGrow
  simp only [h.buf, h.mem, Option.getD_some]
  split_ifs
  · refine ⟨rfl, Mem.set_same .., fun o ho => (Mem.set_other _ _ ho).trans ?_, hlen⟩
    by_cases hob : o = b
    · rw [hob, Mem.kill_same]
    · rw [Mem.kill_other _ hob]
      exact h.others o hob
  · exact ⟨rfl, Mem.set_same .., fun o ho => (Mem.set_other _ _ ho).trans (h.others o ho), hlen⟩

variable {A : Allocator}

theorem contents_first (hbuf : a.buf = none) (hmem : ∀ o, a.mem o = none) (cap : ℕ) :
    ∃ content, Contents (arenaGrow A a cap) a.copies content := by
  refine ⟨(List.range (cap - 0)).map (A.fill a.copies), ?_⟩
  unfold arenaGrow
  simp only [hbuf]
  exact ⟨rfl, Mem.set_same .., fun o ho => (Mem.set_other _ _ ho).trans (hmem o), by simp⟩

theorem Contents.put (h : Contents a b content) (src : Bytes) (hroom : a.len + src.length + 1 ≤ a.cap) :
    Contents (arenaPut a src).1 b (overwrite content a.len (src ++ [0])) ∧
    (arenaPut a src).2 = ⟨b, a.len⟩ := by
  unfold arenaPut
  simp only [h.buf, h.mem, Option.getD_some]
  refine ⟨⟨rfl, Mem.set_same .., fun o ho => (Mem.set_other _ _ ho).trans (h.others o ho), ?_⟩, trivial⟩
  have hlen := h.length
  rw [Memory.length_overwrite]
  · exact hlen
  · simp only [length_append, length_singleton]
    omega

theorem Contents.load (h : Contents a b content) (hp : p.obj = b) (hn : p.off + n ≤ a.cap) :
    a.mem.load p n = some ((content.drop p.off).take n) := by
  rw [Mem.load_eq (hp ▸ h.mem), if_pos (by rw [h.length]; exact hn)]

theorem drop_take_append {tail : Bytes} {q : ℕ} (h : q + n ≤ content.length) :
    ((content ++ tail).drop q).take n = (content.drop q).take n := by
  rw [drop_append_of_le_length (by omega), take_append_of_le_length (by rw [length_drop]; omega)]

/-- There is no room in the buffer for the copy. -/
def Arena.Full (a : Arena) (src : Bytes) : Prop := a.cap < a.len + src.length + 1
  deriving Decidable

theorem arenaCopy_full (A : Allocator) (h : a.Full src) :
    arenaCopy A a src = arenaPut (arenaGrow A a (newCap a.cap (a.len + src.length + 1))) src := if_pos h

theorem arenaCopy_room (A : Allocator) (h : ¬a.Full src) : arenaCopy A a src = arenaPut a src := if_neg h

theorem arenaGrow_sizes (A : Allocator) (a : Arena) (cap : ℕ) :
    (arenaGrow A a cap).len = a.len ∧ (arenaGrow A a cap).cap = cap ∧
      (arenaGrow A a cap).copies = a.copies := by
  unfold arenaGrow
  simp only
  split
  · exact ⟨rfl, rfl, rfl⟩
  · split_ifs <;> exact ⟨rfl, rfl, rfl⟩

theorem arenaCopy_sizes (A : Allocator) (a : Arena) (src : Bytes) :
    ((arenaCopy A a src).1.len, (arenaCopy A a src).1.cap) = sizesStep (a.len, a.cap) src ∧
      (arenaCopy A a src).1.copies = a.copies + 1 := by
  by_cases hfull : a.Full src
  · obtain ⟨hlen, hcap, hcopies⟩ := arenaGrow_sizes A a (newCap a.cap (a.len + src.length + 1))
    have hstep : sizesStep (a.len, a.cap) src =
        (a.len + src.length + 1, newCap a.cap (a.len + src.length + 1)) := Prod.ext rfl (if_pos hfull)
    rw [arenaCopy_full A hfull, hstep]
    simp only [arenaPut, hlen, hcap, hcopies, and_self]
  · have hstep : sizesStep (a.len, a.cap) src = (a.len + src.length + 1, a.cap) :=
      Prod.ext rfl (if_neg hfull)
    rw [arenaCopy_room A hfull, hstep]
    simp only [arenaPut, and_self]

theorem overwrite_copy {off : ℕ} (h : off + src.length + 1 ≤ content.length) :
    ((overwrite content off (src ++ [0])).drop off).take (src.length + 1) = src ++ [0] := by
  have hl : (src ++ [0]).length = src.length + 1 := by simp
  rw [← hl]
  exact Memory.overwrite_same (by rw [hl]; omega)

/-- The buffer in which the copy is. -/
def Arena.target (A : Allocator) (a : Arena) (b : ℕ) (src : Bytes) : ℕ :=
  if a.Full src ∧ A.moves a.copies = true then a.copies else b

/-- **A copy into a buffer**: the new string is there, and so are the old ones,
in the same buffer unless it was full and `realloc` has moved it. -/
theorem Contents.copy (A : Allocator) (h : Contents a b content) (hfits : a.len ≤ a.cap) (src : Bytes) :
    ∃ content', Contents (arenaCopy A a src).1 (a.target A b src) content' ∧
      (arenaCopy A a src).2 = ⟨a.target A b src, a.len⟩ ∧
      (content'.drop a.len).take (src.length + 1) = src ++ [0] ∧
      ∀ q n, q + n ≤ a.len → (content'.drop q).take n = (content.drop q).take n := by
  have hlength := h.length
  by_cases hfull : a.Full src
  · have hneed := need_le_newCap a.cap (a.len + src.length + 1)
    obtain ⟨tail, hgrown⟩ := h.grow A (le_newCap a.cap (a.len + src.length + 1))
    obtain ⟨hlen, hcap, _⟩ := arenaGrow_sizes A a (newCap a.cap (a.len + src.length + 1))
    have htarget : a.target A b src = if A.moves a.copies then a.copies else b := by
      simp only [Arena.target, hfull, true_and]
    obtain ⟨hput, hptr⟩ := hgrown.put src (by rw [hlen, hcap]; exact hneed)
    rw [hlen] at hput hptr
    rw [arenaCopy_full A hfull, htarget]
    refine ⟨_, hput, hptr, overwrite_copy ?_, fun q n hq => ?_⟩
    · rw [hgrown.length, hcap]
      exact hneed
    · rw [Memory.overwrite_before (by rw [length_append]; omega) hq, drop_take_append (by omega)]
  · have hroom : a.len + src.length + 1 ≤ a.cap := not_lt.mp hfull
    have htarget : a.target A b src = b := by simp only [Arena.target, hfull, false_and, if_false]
    obtain ⟨hput, hptr⟩ := h.put src hroom
    rw [arenaCopy_room A hfull, htarget]
    refine ⟨_, hput, hptr, overwrite_copy (by rw [hlength]; exact hroom), fun q n hq => ?_⟩
    exact Memory.overwrite_before (by rw [hlength]; exact hfits) hq

theorem contents_first_copy (A : Allocator) (hbuf : a.buf = none) (hmem : ∀ o, a.mem o = none)
    (hcap : a.cap = 0) (src : Bytes) : ∃ content, Contents (arenaCopy A a src).1 a.copies content ∧
      (arenaCopy A a src).2 = ⟨a.copies, a.len⟩ ∧
      (content.drop a.len).take (src.length + 1) = src ++ [0] := by
  have hfull : a.Full src := by
    unfold Arena.Full
    omega
  have hneed := need_le_newCap a.cap (a.len + src.length + 1)
  obtain ⟨content, hgrown⟩ := contents_first (A := A) hbuf hmem (newCap a.cap (a.len + src.length + 1))
  obtain ⟨hlen, hc, _⟩ := arenaGrow_sizes A a (newCap a.cap (a.len + src.length + 1))
  obtain ⟨hput, hptr⟩ := hgrown.put src (by rw [hlen, hc]; exact hneed)
  rw [hlen] at hput hptr
  rw [arenaCopy_full A hfull]
  exact ⟨_, hput, hptr, overwrite_copy (by rw [hgrown.length, hc]; exact hneed)⟩

/-! ### Runs of callbacks -/

theorem moved_append : Moved A (srcs ++ [src]) m ↔ Moved A srcs m ∨
      (m = srcs.length ∧ 0 < m ∧ (sizes srcs).2 < (sizes srcs).1 + src.length + 1 ∧
        A.moves m = true) := by
  unfold Moved
  rcases lt_trichotomy m srcs.length with hlt | rfl | hgt
  · rw [getElem?_append_left hlt, take_append_of_le_length hlt.le]
    constructor
    · exact .inl
    · rintro (h | ⟨he, _⟩)
      · exact h
      · omega
  · simp
  · have hnone : (srcs ++ [src])[m]? = none := getElem?_eq_none (by simp; omega)
    have hnone' : srcs[m]? = none := getElem?_eq_none hgt.le
    rw [hnone, hnone']
    constructor
    · rintro ⟨_, ⟨_, h, _⟩, _⟩
      cases h
    · rintro (⟨_, ⟨_, h, _⟩, _⟩ | ⟨he, _⟩)
      · cases h
      · omega

theorem Moved.lt (h : Moved A srcs m) : m < srcs.length := by
  obtain ⟨_, ⟨_, hm, _⟩, _⟩ := h
  exact (List.getElem?_eq_some_iff.mp hm).1

/-- The arena has the copies of `srcs` in it; its buffer is not older than its
last move. -/
structure Stored (A : Allocator) (a : Arena) (srcs : List Bytes) : Prop where
  copies : a.copies = srcs.length
  sizes : (a.len, a.cap) = sizes srcs
  fits : a.len ≤ a.cap
  state : (srcs = [] ∧ a.buf = none ∧ ∀ o, a.mem o = none) ∨
    ∃ b content, srcs ≠ [] ∧ Contents a b content ∧ b < a.copies ∧ ∀ m, Moved A srcs m → m ≤ b

/-- The pointer was made for the string, and is good while the buffer has not
moved since. -/
structure Points (A : Allocator) (a : Arena) (srcs : List Bytes) (p : Memory.Ptr) (s : Str) : Prop where
  copied : s.copy < srcs.length
  obj : p.obj ≤ s.copy
  fits : p.off + (s.bytes.length + 1) ≤ a.len
  intact : (∀ m, s.copy < m → ¬Moved A srcs m) → Intact a p s

section

variable (h : Stored A a srcs)

include h

theorem Stored.next (src : Bytes) :
    (arenaCopy A a src).1.copies = (srcs ++ [src]).length ∧
      ((arenaCopy A a src).1.len, (arenaCopy A a src).1.cap) = Iohttp.sizes (srcs ++ [src]) ∧
      (arenaCopy A a src).1.len = a.len + (src.length + 1) ∧
      (arenaCopy A a src).1.len ≤ (arenaCopy A a src).1.cap := by
  obtain ⟨hsizes, hcopies⟩ := arenaCopy_sizes A a src
  have hlen := congrArg Prod.fst hsizes
  have hcap := congrArg Prod.snd hsizes
  refine ⟨by rw [hcopies, h.copies, length_append]; rfl, ?_, ?_, ?_⟩
  · rw [hsizes, h.sizes, Iohttp.sizes, Iohttp.sizes, foldl_append]
    rfl
  · exact hlen
  · simp only at hlen hcap
    rw [hlen, hcap]
    simp only [sizesStep]
    split_ifs with hfull
    · exact need_le_newCap ..
    · exact not_lt.mp hfull

theorem Stored.target_eq (hne : srcs ≠ []) (b : ℕ) (src : Bytes) :
    (Moved A (srcs ++ [src]) srcs.length ∧ a.target A b src = srcs.length) ∨
      (¬Moved A (srcs ++ [src]) srcs.length ∧ a.target A b src = b) := by
  have hlen : a.len = (Iohttp.sizes srcs).1 := congrArg Prod.fst h.sizes
  have hcap : a.cap = (Iohttp.sizes srcs).2 := congrArg Prod.snd h.sizes
  have hpos : 0 < srcs.length := length_pos_of_ne_nil hne
  have hiff : Moved A (srcs ++ [src]) srcs.length ↔ a.Full src ∧ A.moves a.copies = true := by
    rw [moved_append, Arena.Full, hlen, hcap, h.copies]
    constructor
    · rintro (hm | ⟨_, _, hfull, hmoves⟩)
      · exact absurd hm.lt (lt_irrefl _)
      · exact ⟨hfull, hmoves⟩
    · rintro ⟨hfull, hmoves⟩
      exact .inr ⟨rfl, hpos, hfull, hmoves⟩
  unfold Arena.target
  by_cases hm : a.Full src ∧ A.moves a.copies = true
  · exact .inl ⟨hiff.mpr hm, by rw [if_pos hm, h.copies]⟩
  · exact .inr ⟨fun hmoved => hm (hiff.mp hmoved), if_neg hm⟩

theorem Stored.copied (src : Bytes) :
    ∃ b content, Contents (arenaCopy A a src).1 b content ∧ (arenaCopy A a src).2 = ⟨b, a.len⟩ ∧
      b ≤ srcs.length ∧ (∀ m, Moved A (srcs ++ [src]) m → m ≤ b) ∧
      (content.drop a.len).take (src.length + 1) = src ++ [0] := by
  rcases h.state with ⟨rfl, hbuf, hmem⟩ | ⟨b, content, hne, hb, hlt, hmoved⟩
  · have hcap : a.cap = 0 := congrArg Prod.snd h.sizes
    obtain ⟨content, hfirst, hptr, hread⟩ := contents_first_copy A hbuf hmem hcap src
    refine ⟨a.copies, content, hfirst, hptr, h.copies.le, fun m hm => ?_, hread⟩
    -- the first copy does not move anything
    rcases moved_append.mp hm with hm | ⟨he, hpos, _⟩
    · exact absurd hm.lt (Nat.not_lt_zero m)
    · rw [he] at hpos
      exact absurd hpos (lt_irrefl 0)
  · obtain ⟨content', hcopy, hptr, hread, _⟩ := hb.copy A h.fits src
    have hold : ∀ m, Moved A (srcs ++ [src]) m → m = srcs.length ∨ m ≤ b := by
      intro m hm
      rcases moved_append.mp hm with hm | ⟨he, _⟩
      · exact .inr (hmoved m hm)
      · exact .inl he
    rw [h.copies] at hlt
    refine ⟨_, content', hcopy, hptr, ?_, fun m hm => ?_, hread⟩
    · rcases h.target_eq hne b src with ⟨_, he⟩ | ⟨_, he⟩
      · exact he.le
      · exact he.trans_le hlt.le
    · rcases h.target_eq hne b src with ⟨_, he⟩ | ⟨hno, he⟩
      · rw [he]
        rcases hold m hm with rfl | hle
        · exact le_rfl
        · exact hle.trans hlt.le
      · rw [he]
        rcases hold m hm with rfl | hle
        · exact absurd hm hno
        · exact hle

theorem Stored.copy (src : Bytes) : Stored A (arenaCopy A a src).1 (srcs ++ [src]) := by
  obtain ⟨hcopies, hsizes, _, hfits⟩ := h.next src
  obtain ⟨b, content, hb, _, hle, hmoved, _⟩ := h.copied src
  refine ⟨hcopies, hsizes, hfits, .inr ⟨b, content, by simp, hb, ?_, hmoved⟩⟩
  rw [hcopies, length_append, length_singleton]
  omega

theorem Stored.points (src : Bytes) (hn : n ≤ src.length) :
    Points A (arenaCopy A a src).1 (srcs ++ [src]) ((arenaCopy A a src).2.add n)
      ⟨srcs.length, src.drop n⟩ := by
  obtain ⟨_, _, hlen, hfits⟩ := h.next src
  obtain ⟨b, content, hb, hptr, hle, _, hread⟩ := h.copied src
  rw [hptr]
  refine ⟨by simp, hle, ?_, fun _ => ⟨hb.buf, ?_⟩⟩
  · simp only [Memory.Ptr.add, length_drop]
    omega
  · have hdrop : ((content.drop (a.len + n)).take ((src.drop n).length + 1)) = src.drop n ++ [0] := by
      have hcut := congrArg (List.drop n) hread
      rw [drop_take, drop_drop, drop_append_of_le_length hn] at hcut
      rw [length_drop, ← hcut]
      congr 1
      omega
    refine (hb.load rfl ?_).trans (congrArg some hdrop)
    simp only [Memory.Ptr.add, length_drop]
    omega

end

theorem Points.copy {s : Str} (ht : Points A a srcs p s) (h : Stored A a srcs) (src : Bytes) :
    Points A (arenaCopy A a src).1 (srcs ++ [src]) p s := by
  obtain ⟨_, _, hlen, _⟩ := h.next src
  have hcopied := ht.copied
  refine ⟨by rw [length_append]; omega, ht.obj, by have := ht.fits; omega, fun hnone => ?_⟩
  obtain ⟨hbuf, hload⟩ := ht.intact fun m hm hmoved => hnone m hm (moved_append.mpr (.inl hmoved))
  rcases h.state with ⟨rfl, _, _⟩ | ⟨b, content, hne, hb, _, _⟩
  · exact absurd hcopied (Nat.not_lt_zero _)
  obtain rfl : b = p.obj := Option.some.inj (hb.buf.symm.trans hbuf)
  obtain ⟨content', hcopy, _, _, hold⟩ := hb.copy A h.fits src
  -- the buffer has not moved in this copy either
  have htarget : a.target A p.obj src = p.obj := by
    rcases h.target_eq hne p.obj src with ⟨hm, _⟩ | ⟨_, he⟩
    · exact absurd hm (hnone _ hcopied)
    · exact he
  rw [htarget] at hcopy
  refine ⟨hcopy.buf, ?_⟩
  have hfits := ht.fits
  have hcap := h.fits
  rw [hcopy.load rfl (by omega), hold _ _ hfits, ← hload, hb.load rfl (by omega)]

theorem arena_simulates (A : Allocator) : Simulates (arenaCopier A) strCopier (Stored A) (Points A) where
  copy b h := h.copy b
  after b h _ hn := h.points b hn
  value b h := h.points b (Nat.zero_le _)
  keep b h ht := ht.copy h b

theorem Points.intact_iff {s : Str} (ht : Points A a srcs p s) (h : Stored A a srcs) :
    Intact a p s ↔ ∀ m, s.copy < m → ¬Moved A srcs m := by
  refine ⟨fun hi m hm hmoved => ?_, ht.intact⟩
  rcases h.state with ⟨rfl, _, _⟩ | ⟨b, content, _, hb, _, hle⟩
  · exact absurd hmoved.lt (Nat.not_lt_zero m)
  · obtain rfl : b = p.obj := Option.some.inj (hb.buf.symm.trans hi.1)
    have := hle m hmoved
    have := ht.obj
    omega

theorem FieldsRel.iff {σ' : Type} {T I : σ → σ' → Prop} {P : σ' → Prop} {g : FieldsOf σ'}
    (h : FieldsRel T f g) (hiff : ∀ v v', T v v' → (I v v' ↔ P v')) :
    FieldsRel I f g ↔ ∀ s ∈ g.strings, P s := by
  have opt : ∀ {x : Option σ} {y : Option σ'}, Option.Rel T x y →
      (Option.Rel I x y ↔ ∀ s ∈ y.toList, P s) := by
    intro x y hr
    cases hr with
    | none => simp
    | some hr =>
      rw [Option.toList_some, forall_mem_singleton, ← hiff _ _ hr]
      exact ⟨fun hi => by cases hi; assumption, .some⟩
  have list : ∀ {x : List (HeaderOf σ)} {y : List (HeaderOf σ')},
      List.Forall₂ (fun h h' => T h.name h'.name ∧ T h.value h'.value) x y →
      (List.Forall₂ (fun h h' => I h.name h'.name ∧ I h.value h'.value) x y ↔
        ∀ s ∈ y.flatMap fun h => [h.name, h.value], P s) := by
    intro x y hr
    induction hr with
    | nil => simp
    | cons hh _ ih =>
      rw [forall₂_cons, ih, hiff _ _ hh.1, hiff _ _ hh.2]
      simp only [flatMap_cons, forall_mem_append, forall_mem_cons, not_mem_nil,
        IsEmpty.forall_iff, implies_true, and_true]
  simp only [FieldsOf.strings, forall_mem_append, ← opt h.path, ← opt h.query, ← opt h.host,
    ← opt h.contentType, ← list h.headers]
  exact ⟨fun hi => ⟨⟨⟨⟨hi.path, hi.query⟩, hi.host⟩, hi.contentType⟩, hi.headers⟩,
    fun ⟨⟨⟨⟨h₁, h₂⟩, h₃⟩, h₄⟩, h₅⟩ => ⟨h₁, h₂, h₃, h₄, h₅⟩⟩

theorem HeaderBlock.points {b : HeaderBlock} {f : FieldsOf Memory.Ptr}
    {g : FieldsOf Str} (hrun : b.run A = some (a, f))
    (hrec : b.received = some (srcs, g)) : Stored A a srcs ∧ FieldsRel (Points A a srcs) f g := by
  have hstart : StreamRel (Stored A) (Points A) (arenaNew, fieldsNew) ([], fieldsNew) :=
    ⟨⟨rfl, rfl, le_rfl, .inl ⟨rfl, rfl, fun _ => rfl⟩⟩, fieldsRel_new _⟩
  have hrel := (arena_simulates A).foldlM b.lines hstart
  rw [HeaderBlock.run_eq] at hrun
  rw [HeaderBlock.received] at hrec
  rw [hrun, hrec] at hrel
  cases hrel with
  | some h => exact h

/-- **The strings of a request stay intact** if and only if, from the copy of
each string that the request has on, `realloc` does not move the arena. -/
theorem strings_intact_iff {A : Allocator} {b : HeaderBlock} {a : Arena} {f : FieldsOf Memory.Ptr}
    {srcs : List Bytes} {g : FieldsOf Str} (hrun : b.run A = some (a, f))
    (hrec : b.received = some (srcs, g)) :
    FieldsRel (Intact a) f g ↔ ∀ s ∈ g.strings, ∀ m, s.copy < m → ¬Moved A srcs m := by
  obtain ⟨hhold, hpoints⟩ := HeaderBlock.points hrun hrec
  exact hpoints.iff fun _ _ ht => ht.intact_iff hhold

/-- `realloc` always returns another address. -/
def restless : Allocator := ⟨fun _ => true, fun _ _ => 0⟩

/-- A request with a query and a header, which fit into the first buffer. -/
def shortBlock : HeaderBlock :=
  .h2 [(bytes ":method", bytes "GET"), (bytes ":path", bytes "/a?b"),
    (bytes "content-type", bytes "text/plain")]

/-- Its five strings, of which the value of the header is stored twice. -/
theorem strings_intact_short :
    ∃ (a : Arena) (f : FieldsOf Memory.Ptr) (srcs : List Bytes) (g : FieldsOf Str),
      shortBlock.run restless = some (a, f) ∧ shortBlock.received = some (srcs, g) ∧
      g.strings.length = 5 ∧
        FieldsRel (Intact a) f g := by
  obtain ⟨⟨a, f⟩, hrun⟩ := Option.isSome_iff_exists.mp
    (show (shortBlock.run restless).isSome = true by decide +kernel)
  obtain ⟨⟨srcs, g⟩, hrec⟩ := Option.isSome_iff_exists.mp
    (show shortBlock.received.isSome = true by decide +kernel)
  have hfacts : ∀ r ∈ shortBlock.received, r.2.strings.length = 5 ∧ ∀ m < r.1.length,
      ¬Moved restless r.1 m := by
    decide +kernel
  obtain ⟨hfive, hstill⟩ := hfacts _ hrec
  exact ⟨a, f, srcs, g, hrun, hrec, hfive,
    (strings_intact_iff hrun hrec).mpr fun _ _ m _ hm => hstill m hm.lt hm⟩

def longBlock : HeaderBlock := .h2 [(bytes ":path", bytes "/"), (bytes "x", List.replicate 4096 121)]

/-- The path is in the first buffer when the request is dispatched, the arena in
another one. -/
theorem path_dangles :
    ¬∀ (A : Allocator) (b : HeaderBlock) (a : Arena) (f : FieldsOf Memory.Ptr) (srcs : List Bytes)
      (g : FieldsOf Str), b.run A = some (a, f) → b.received = some (srcs, g) →
      FieldsRel (Intact a) f g := by
  intro h
  obtain ⟨⟨a, f⟩, hrun⟩ := Option.isSome_iff_exists.mp
    (show (longBlock.run restless).isSome = true by decide +kernel)
  obtain ⟨⟨srcs, g⟩, hrec⟩ := Option.isSome_iff_exists.mp
    (show longBlock.received.isSome = true by decide +kernel)
  have hfacts : ∀ r ∈ longBlock.run restless, r.1.buf = some 1 ∧ r.2.path = some ⟨0, 0⟩ := by
    decide +kernel
  obtain ⟨hbuf, hpath⟩ := hfacts _ hrun
  have hrel := (h restless longBlock a f srcs g hrun hrec).path
  simp only at hbuf hpath
  rw [hpath] at hrel
  generalize g.path = path at hrel
  cases hrel with
  | some hi =>
    have := hi.1
    rw [hbuf] at this
    cases this

end Iohttp
