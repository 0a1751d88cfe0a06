/-
# Middleware that is created with a configuration

`ioh_auth.c`, `ioh_cors.c` and `ioh_ratelimit.c`. Each create function copies
its configuration to the heap, puts the pointer into a thread-local variable of
its file and returns the one middleware function of that file. So the function
that an earlier call returned works on the configuration of the latest call.

What a middleware is for is to decide by the configuration of its own create
call and by the requests it has seen itself (`Own.serve`, `own`). It does as long
as requests go to the latest middleware of each kind only
(`decided_by_own_configuration`).

Arithmetic on `double` and the clock are parameters: nothing here depends on
their laws.
-/
import Iohttp.Http.Response

namespace Iohttp

/-- `ioh_cors_config_t`; an array that is null is an empty one. -/
structure CorsConfig where
  allowedOrigins : List Bytes
  allowedMethods : List Bytes
  allowedHeaders : List Bytes
  allowCredentials : Bool
  maxAgeSeconds : ℕ
  deriving DecidableEq, Repr

namespace Instance

open List

/-- The C string at a pointer. -/
def cstr (p : Bytes) : Bytes := p.takeWhile (· ≠ 0)

/-- `struct timespec`. -/
structure Timespec where
  sec : ℤ
  nsec : ℤ

/-- One call of a middleware: the request and the memory that its header values
point into, the response so far, `next`, the bytes that the stack holds where
`decoded` lies, and the clock when a bucket is found and when it is filled. -/
structure Visit where
  mem : Bytes
  req : Request
  resp : Response
  next : Response → Response × ℤ
  stack : Bytes
  found : Timespec
  now : Timespec

/-- `ioh_request_header`. -/
def Visit.header (v : Visit) (name : Bytes) : Option Bytes := requestHeader v.mem v.req name

/-- The response and the result; `none` where the source's behaviour is
undefined. -/
abbrev Outcome := Option (Response × ℤ)

/-- The middleware calls `next` and returns what it does. -/
def Visit.pass (v : Visit) : Outcome := some (v.next v.resp)

/-! ### Authentication -/

/-- `ioh_auth_state_t`. -/
structure AuthState where
  verify : Ptr
  ctx : Ptr

/-- `B64_TABLE`. -/
def b64Value (c : UInt8) : ℕ :=
  if 65 ≤ c ∧ c ≤ 90 then c.toNat - 65
  else if 97 ≤ c ∧ c ≤ 122 then c.toNat - 97 + 26
  else if 48 ≤ c ∧ c ≤ 57 then c.toNat - 48 + 52
  else if c = 43 then 62
  else if c = 47 then 63
  else 0

/-- The loop of `b64_decode`. -/
def b64Loop : Bytes → Bytes → ℕ → ℕ → Option Bytes
  | [], out, _, _ => some out
  | c :: cs, out, accum, bits =>
    if b64Value c = 0 ∧ c ≠ 65 then none
    else
      let accum := accum * 64 + b64Value c
      let bits := bits + 6
      if bits ≥ 8 then
        b64Loop cs (out ++ [UInt8.ofNat (accum / 2 ^ (bits - 8))]) (accum % 2 ^ (bits - 8)) (bits - 8)
      else b64Loop cs out accum bits

/-- `b64_decode`: what `out` holds afterwards, which held `stack`. -/
def b64Decode (src stack : Bytes) (outSize : ℕ) : Option Bytes :=
  -- nothing is written for the empty text, not even the NUL
  if src = [] then some stack
  else
    let src := src.rdropWhile (· == 61)
    if src.length * 3 / 4 ≥ outSize then none else b64Loop src [] 0 0

def credentials (scheme : Bytes) (v : Visit) : Option Bytes :=
  (v.header (bytes "Authorization")).bind fun auth =>
    if scheme.isPrefixOf (cstr auth) then some ((cstr auth).drop scheme.length) else none

/-- The answer 401. -/
def unauthorized (challenge : Bytes) (v : Visit) : Outcome :=
  some (responseSetHeader { v.resp with status := 401 } (bytes "WWW-Authenticate") challenge, 0)

section Middleware

-- the functions behind the pointers: function, credentials, context
variable (verify : Ptr → Bytes → Ptr → Bool)

/-- `basic_middleware`. -/
def basicMiddleware (st : AuthState) (v : Visit) : Outcome :=
  match (credentials (bytes "Basic ") v).bind fun enc => b64Decode enc v.stack 512 with
  | none => unauthorized (bytes "Basic realm=\"iohttp\"") v
  | some decoded =>
    if verify st.verify (cstr decoded) st.ctx then v.pass
    else unauthorized (bytes "Basic realm=\"iohttp\"") v

/-- `bearer_middleware`. -/
def bearerMiddleware (st : AuthState) (v : Visit) : Outcome :=
  match credentials (bytes "Bearer ") v with
  | none => unauthorized (bytes "Bearer") v
  | some token => if verify st.verify token st.ctx then v.pass else unauthorized (bytes "Bearer") v

/-! ### CORS -/

/-- `origin_allowed`. -/
def originAllowed (cfg : CorsConfig) (origin : Bytes) : Bool :=
  cfg.allowedOrigins.isEmpty || cfg.allowedOrigins.contains origin

/-- `set_origin_header` for a given origin. -/
def setOriginHeader (resp : Response) (cfg : CorsConfig) (origin : Bytes) : Response :=
  let value :=
    if cfg.allowCredentials then origin
    else if cfg.allowedOrigins.isEmpty then [star]
    else origin
  responseSetHeader resp (bytes "Access-Control-Allow-Origin") value

/-- The loop that joins the names in a buffer of 512 bytes; `text` is what was
printed so far, whether it fitted or not. Beyond the buffer the room that is
left wraps around, and the next `snprintf` writes outside. -/
def joinLoop : Bool → List Bytes → Bytes → Option Bytes
  | _, [], text => some (text.take 511)
  | first, item :: items, text =>
    if text.length > 512 then none
    else
      let text := if first then text else text ++ bytes ", "
      if text.length > 512 then none else joinLoop false items (text ++ item)

def namesOr (names : List Bytes) (default : Bytes) : Option Bytes :=
  if names.isEmpty then some default else joinLoop true names []

/-- The answer to a preflight request. -/
def preflight (resp : Response) (cfg : CorsConfig) (origin : Bytes) : Outcome :=
  let resp := setOriginHeader { resp with status := 204 } cfg origin
  (namesOr cfg.allowedMethods (bytes "GET, POST, PUT, DELETE, PATCH")).bind fun methods =>
    let resp := responseSetHeader resp (bytes "Access-Control-Allow-Methods") methods
    (namesOr cfg.allowedHeaders (bytes "Content-Type, Authorization")).bind fun headers =>
      let resp := responseSetHeader resp (bytes "Access-Control-Allow-Headers") headers
      let resp := responseSetHeader resp (bytes "Access-Control-Max-Age") (dec cfg.maxAgeSeconds)
      let resp :=
        if cfg.allowCredentials then
          responseSetHeader resp (bytes "Access-Control-Allow-Credentials") (bytes "true")
        else resp
      some (resp, 0)

/-- `cors_middleware`. -/
def corsMiddleware (cfg : CorsConfig) (v : Visit) : Outcome :=
  match (v.header (bytes "Origin")).map cstr with
  | none => v.pass
  | some origin =>
    if !originAllowed cfg origin then
      if v.req.method = .options then some ({ v.resp with status := 204 }, 0) else v.pass
    else if v.req.method = .options then preflight v.resp cfg origin
    else
      let r := v.next v.resp
      if r.2 ≠ 0 then some r else some (setOriginHeader r.1 cfg origin, 0)

/-! ### Rate limits -/

/-- `ioh_ratelimit_config_t`. -/
structure RatelimitConfig where
  requestsPerSecond : ℕ
  burst : ℕ

/-- `ioh_bucket_t`, in use; `D` is `double`. -/
structure Bucket (D : Type) where
  key : Bytes
  tokens : D
  lastRefill : Timespec

/-- `ioh_ratelimit_state_t`. -/
structure RatelimitState (D : Type) where
  cfg : RatelimitConfig
  buckets : ℕ → Option (Bucket D)

/-- `IOH_RATELIMIT_BUCKETS`. -/
abbrev ratelimitBuckets : ℕ := 1024

/-- `hash_key`. -/
def hashKey (key : Bytes) : ℕ :=
  (key.foldl (fun h c => (h * 33 + c.toNat) % 2 ^ 32) 5381) % ratelimitBuckets

variable {D : Type} [NatCast D] [IntCast D] [Add D] [Sub D] [Mul D] [Div D] [LT D] [DecidableLT D] [LE D]
  [DecidableLE D]

/-- `find_bucket`, from the `i`-th probe on: the slot, and the table with a new
bucket in a slot that was free. -/
def findBucket (st : RatelimitState D) (key : Bytes) (found : Timespec) :
    ℕ → List ℕ → Option (ℕ × (ℕ → Option (Bucket D)))
  | _, [] => none
  | idx, i :: is =>
    let slot := (idx + i) % ratelimitBuckets
    match st.buckets slot with
    | none =>
      some (slot, Function.update st.buckets slot (some ⟨key.take 127, (st.cfg.burst : D), found⟩))
    -- the stored key ends within the 128 bytes that are compared
    | some b => if b.key = key then some (slot, st.buckets) else findBucket st key found idx is

/-- `refill_bucket`. -/
def refillBucket (b : Bucket D) (cfg : RatelimitConfig) (now : Timespec) : Bucket D :=
  let elapsed : D := ((now.sec - b.lastRefill.sec : ℤ) : D) +
    ((now.nsec - b.lastRefill.nsec : ℤ) : D) / ((1000000000 : ℕ) : D)
  if ((0 : ℕ) : D) < elapsed then
    let tokens := b.tokens + elapsed * (cfg.requestsPerSecond : D)
    { b with tokens := if (cfg.burst : D) < tokens then (cfg.burst : D) else tokens, lastRefill := now }
  else b

/-- `ioh_ratelimit_check` on a state and a key. -/
def ratelimitCheck (st : RatelimitState D) (key : Bytes) (v : Visit) : RatelimitState D × Bool :=
  match findBucket st key v.found (hashKey key) (List.range ratelimitBuckets) with
  | none => (st, false)
  | some (slot, buckets) =>
    match buckets slot with
    | none => (st, false)
    | some b =>
      let b := refillBucket b st.cfg v.now
      if ((1 : ℕ) : D) ≤ b.tokens then
        ({ st with buckets := Function.update buckets slot (some { b with tokens := b.tokens - ((1 : ℕ) : D) }) },
          true)
      else ({ st with buckets := Function.update buckets slot (some b) }, false)

/-- `ratelimit_middleware`. -/
def ratelimitMiddleware (st : RatelimitState D) (v : Visit) : RatelimitState D × Outcome :=
  let key := ((v.header (bytes "Host")).map cstr).getD (bytes "default")
  let r := ratelimitCheck st key v
  if r.2 then (r.1, v.pass)
  else (r.1, some (responseSetHeader { v.resp with status := 429 } (bytes "Retry-After") (bytes "1"), 0))

/-- The function pointers that the create functions return. -/
inductive Kind where
  | basic
  | bearer
  | cors
  | ratelimit
  deriving DecidableEq

/-- `tl_basic_state`, `tl_bearer_state`, `tl_cors_cfg` and `tl_rl_state`. -/
structure Slots (D : Type) where
  basic : Option AuthState
  bearer : Option AuthState
  cors : Option CorsConfig
  ratelimit : Option (RatelimitState D)

inductive Create where
  | basic (verify ctx : Ptr)
  | bearer (verify ctx : Ptr)
  | cors (cfg : Option CorsConfig)
  | ratelimit (cfg : Option RatelimitConfig)

/-- The four create functions; `alloc` says whether `malloc` succeeds. -/
def create (s : Slots D) (alloc : Bool) : Create → Slots D × Option Kind
  | .basic verify ctx =>
    if verify = 0 ∨ !alloc then (s, none) else ({ s with basic := some ⟨verify, ctx⟩ }, some .basic)
  | .bearer verify ctx =>
    if verify = 0 ∨ !alloc then (s, none) else ({ s with bearer := some ⟨verify, ctx⟩ }, some .bearer)
  | .cors cfg =>
    match cfg with
    | none => (s, none)
    | some cfg => if !alloc then (s, none) else ({ s with cors := some cfg }, some .cors)
  | .ratelimit cfg =>
    match cfg with
    | none => (s, none)
    | some cfg =>
      if !alloc then (s, none) else ({ s with ratelimit := some ⟨cfg, fun _ => none⟩ }, some .ratelimit)

/-- A call of a middleware function. -/
def serve (s : Slots D) (kind : Kind) (v : Visit) : Slots D × Outcome :=
  match kind with
  | .basic => (s, s.basic.bind fun st => basicMiddleware verify st v)
  | .bearer => (s, s.bearer.bind fun st => bearerMiddleware verify st v)
  | .cors => (s, s.cors.bind fun cfg => corsMiddleware cfg v)
  | .ratelimit =>
    match s.ratelimit with
    | none =>
      (s, some (responseSetHeader { v.resp with status := 429 } (bytes "Retry-After")
        (bytes "1"), 0))
    | some st =>
      let r := ratelimitMiddleware st v
      ({ s with ratelimit := some r.1 }, r.2)

/-- A middleware with a configuration of its own. -/
inductive Own (D : Type) where
  | basic (st : AuthState)
  | bearer (st : AuthState)
  | cors (cfg : CorsConfig)
  | ratelimit (st : RatelimitState D)

def Own.kind : Own D → Kind
  | .basic _ => .basic
  | .bearer _ => .bearer
  | .cors _ => .cors
  | .ratelimit _ => .ratelimit

/-- It decides by its own configuration. -/
def Own.serve : Own D → Visit → Own D × Outcome
  | .basic st, v => (.basic st, basicMiddleware verify st v)
  | .bearer st, v => (.bearer st, bearerMiddleware verify st v)
  | .cors cfg, v => (.cors cfg, corsMiddleware cfg v)
  | .ratelimit st, v => (.ratelimit (ratelimitMiddleware st v).1, (ratelimitMiddleware st v).2)

/-- The middleware that a create call is meant to return. -/
def Create.own (alloc : Bool) : Create → Option (Own D)
  | .basic verify ctx => if verify = 0 ∨ !alloc then none else some (.basic ⟨verify, ctx⟩)
  | .bearer verify ctx => if verify = 0 ∨ !alloc then none else some (.bearer ⟨verify, ctx⟩)
  | .cors cfg => cfg.bind fun cfg => if !alloc then none else some (.cors cfg)
  | .ratelimit cfg => cfg.bind fun cfg => if !alloc then none else some (.ratelimit ⟨cfg, fun _ => none⟩)

/-- The middleware after the requests it has seen. -/
def Own.after (o : Own D) (vs : List Visit) : Own D := vs.foldl (fun o v => (o.serve verify v).1) o

/-! ### Runs -/

/-- A create call, or a request to the `i`-th middleware that was returned. -/
inductive Step where
  | create (alloc : Bool) (c : Create)
  | serve (i : ℕ) (v : Visit)

/-- The thread-local variables and the functions returned so far. -/
structure Thread (D : Type) where
  slots : Slots D
  made : List Kind

def Thread.start : Thread D := ⟨⟨none, none, none, none⟩, []⟩

def step (t : Thread D) : Step → Thread D × Option Outcome
  | .create alloc c =>
    let r := create t.slots alloc c
    (⟨r.1, t.made ++ r.2.toList⟩, none)
  | .serve i v =>
    match t.made[i]? with
    | none => (t, none)
    | some kind =>
      let r := Instance.serve verify t.slots kind v
      ({ t with slots := r.1 }, some r.2)

def run (t : Thread D) (steps : List Step) : Thread D := steps.foldl (fun t s => (step verify t s).1) t

/-- The middleware that were created, with the requests that went to each. -/
def record (rs : List (Own D × List Visit)) : Step → List (Own D × List Visit)
  | .create alloc c => rs ++ ((c.own alloc).map fun o => (o, [])).toList
  | .serve i v => rs.modify i fun r => (r.1, r.2 ++ [v])

def records (steps : List Step) : List (Own D × List Visit) := steps.foldl record []

def kinds (rs : List (Own D × List Visit)) : List Kind := rs.map fun r => r.1.kind

/-- Since the middleware of a request was created, none of its kind has been. -/
def Latest (rs : List (Own D × List Visit)) : Step → Prop
  | .create _ _ => True
  | .serve i _ => ∀ kind, (kinds rs)[i]? = some kind → kind ∉ (kinds rs).drop (i + 1)

def AllLatest (rs : List (Own D × List Visit)) : List Step → Prop
  | [] => True
  | s :: steps => Latest rs s ∧ AllLatest (record rs s) steps

/-! ### The latest of each kind -/

/-- The middleware that a function pointer works for. -/
def Slots.get (s : Slots D) : Kind → Option (Own D)
  | .basic => s.basic.map .basic
  | .bearer => s.bearer.map .bearer
  | .cors => s.cors.map .cors
  | .ratelimit => s.ratelimit.map .ratelimit

def Slots.set (s : Slots D) : Own D → Slots D
  | .basic st => { s with basic := some st }
  | .bearer st => { s with bearer := some st }
  | .cors cfg => { s with cors := some cfg }
  | .ratelimit st => { s with ratelimit := some st }

-- no arithmetic here
variable {E : Type}

theorem Slots.get_set (s : Slots E) (o : Own E) (kind : Kind) :
    (s.set o).get kind = if kind = o.kind then some o else s.get kind := by
  cases o <;> cases kind <;> rfl

theorem create_own (s : Slots E) (alloc : Bool) (c : Create) :
    create s alloc c =
      match (c.own alloc : Option (Own E)) with
      | none => (s, none)
      | some o => (s.set o, some o.kind) := by
  cases c with
  | basic verify ctx =>
    by_cases h : verify = 0 ∨ !alloc
    · simp only [create, Create.own, if_pos h]
    · simp only [create, Create.own, if_neg h, Slots.set, Own.kind]
  | bearer verify ctx =>
    by_cases h : verify = 0 ∨ !alloc
    · simp only [create, Create.own, if_pos h]
    · simp only [create, Create.own, if_neg h, Slots.set, Own.kind]
  | cors cfg =>
    cases cfg with
    | none => rfl
    | some cfg => cases alloc <;> rfl
  | ratelimit cfg =>
    cases cfg with
    | none => rfl
    | some cfg => cases alloc <;> rfl

theorem kinds_serve (rs : List (Own E × List Visit)) (i : ℕ) (v : Visit) :
    kinds (record rs (.serve i v)) = kinds rs := by
  refine ext_getElem? fun j => ?_
  rw [record, kinds, kinds, getElem?_map, getElem?_map, getElem?_modify]
  cases rs[j]? with
  | none => rfl
  | some r => by_cases hij : i = j <;> simp [hij]

theorem allLatest_append : ∀ {steps steps' : List Step} {rs : List (Own E × List Visit)},
    AllLatest rs (steps ++ steps') → AllLatest rs steps ∧ AllLatest (steps.foldl record rs) steps'
  | [], _, _, h => ⟨trivial, h⟩
  | _ :: _, _, _, h => by
    obtain ⟨h₁, h₂⟩ := allLatest_append h.2
    exact ⟨⟨h.1, h₁⟩, h₂⟩

variable {t : Thread D} {rs : List (Own D × List Visit)}

theorem Own.serve_kind (o : Own D) (v : Visit) : (o.serve verify v).1.kind = o.kind := by
  cases o <;> simp only [Own.serve, Own.kind]

theorem Own.after_kind (o : Own D) : ∀ vs : List Visit, (o.after verify vs).kind = o.kind := by
  intro vs
  induction vs using List.reverseRecOn with
  | nil => rfl
  | append_singleton vs v ih =>
    rw [Own.after, foldl_append]
    exact (Own.serve_kind verify _ v).trans ih

/-- The function works on what is in its slot, and puts it back. -/
theorem serve_own {s : Slots D} {kind : Kind} {o : Own D} (h : s.get kind = some o) (v : Visit) :
    serve verify s kind v = (s.set (o.serve verify v).1, (o.serve verify v).2) := by
  cases kind with
  | basic =>
    obtain ⟨st, hst, rfl⟩ := Option.map_eq_some_iff.mp h
    cases s
    simp only at hst
    simp [serve, Own.serve, Slots.set, hst]
  | bearer =>
    obtain ⟨st, hst, rfl⟩ := Option.map_eq_some_iff.mp h
    cases s
    simp only at hst
    simp [serve, Own.serve, Slots.set, hst]
  | cors =>
    obtain ⟨cfg, hcfg, rfl⟩ := Option.map_eq_some_iff.mp h
    cases s
    simp only at hcfg
    simp [serve, Own.serve, Slots.set, hcfg]
  | ratelimit =>
    obtain ⟨st, hst, rfl⟩ := Option.map_eq_some_iff.mp h
    simp only [serve, hst, Own.serve, Slots.set]

/-- The slots hold the latest middleware of each kind, each as it is after the
requests to it. -/
structure Holds (t : Thread D) (rs : List (Own D × List Visit)) : Prop where
  made : t.made = kinds rs
  slot : ∀ {i r}, rs[i]? = some r → r.1.kind ∉ (kinds rs).drop (i + 1) →
    t.slots.get r.1.kind = some (r.1.after verify r.2)

theorem Holds.create (h : Holds verify t rs) (alloc : Bool) (c : Create) :
    Holds verify (step verify t (.create alloc c)).1 (record rs (.create alloc c)) := by
  simp only [step, record, create_own]
  cases (c.own alloc : Option (Own D)) with
  | none =>
    simp only [Option.map_none, Option.toList_none, append_nil]
    exact ⟨h.made, h.slot⟩
  | some o =>
    have hkinds : kinds (rs ++ [(o, [])]) = kinds rs ++ [o.kind] := by simp [kinds]
    refine ⟨by simp [h.made, kinds], fun {i r} hr hlast => ?_⟩
    simp only [Option.map_some, Option.toList_some] at hr hlast ⊢
    rw [Slots.get_set]
    rcases Nat.lt_or_ge i rs.length with hi | hi
    · -- an older one that is still the latest of its kind is of another kind
      rw [hkinds, drop_append_of_le_length (by simp [kinds]; omega), mem_append, not_or] at hlast
      rw [getElem?_append_left hi] at hr
      rw [if_neg fun he => hlast.2 (by simp [he])]
      exact h.slot hr hlast.1
    · rw [getElem?_append_right hi] at hr
      obtain ⟨hlt, rfl⟩ := List.getElem?_eq_some_iff.mp hr
      simp [Own.after]

theorem Holds.serve (h : Holds verify t rs) {i : ℕ} {v : Visit} (hl : Latest rs (.serve i v)) :
    Holds verify (step verify t (.serve i v)).1 (record rs (.serve i v)) ∧
      (step verify t (.serve i v)).2 =
        rs[i]?.map fun r => ((r.1.after verify r.2).serve verify v).2 := by
  cases hr : rs[i]? with
  | none =>
    have hmade : t.made[i]? = none := by simp [h.made, kinds, hr]
    have hrec : rs.modify i (fun r => (r.1, r.2 ++ [v])) = rs := modify_eq_self (by simpa using hr)
    simp only [step, record, hmade, hrec]
    exact ⟨h, rfl⟩
  | some r =>
    have hkind : (kinds rs)[i]? = some r.1.kind := by simp [kinds, hr]
    have hmade : t.made[i]? = some r.1.kind := by rw [h.made, hkind]
    have hslot := h.slot hr (hl _ hkind)
    simp only [step, hmade, serve_own verify hslot]
    refine ⟨⟨by rw [kinds_serve, h.made], fun {j r'} hr' hlast => ?_⟩, rfl⟩
    rw [kinds_serve] at hlast
    rw [record, getElem?_modify] at hr'
    rw [Slots.get_set, Own.serve_kind, Own.after_kind]
    by_cases hij : i = j
    · subst hij
      simp only [if_true, hr, Option.map_eq_map, Option.map_some, Option.some.injEq] at hr'
      subst hr'
      rw [if_pos rfl, Own.after, Own.after, foldl_append]
      rfl
    · simp only [hij, if_false, id_map'] at hr'
      have hkind' : (kinds rs)[j]? = some r'.1.kind := by simp [kinds, hr']
      rw [if_neg, h.slot hr' hlast]
      -- of two latest ones of a kind, one would be older
      intro he
      rcases Nat.lt_or_ge j i with hlt | hge
      · refine hlast (he ▸ mem_of_getElem? (i := i - (j + 1)) ?_)
        rw [getElem?_drop, show j + 1 + (i - (j + 1)) = i by omega, hkind]
      · refine hl _ hkind (he ▸ mem_of_getElem? (i := j - (i + 1)) ?_)
        rw [getElem?_drop, show i + 1 + (j - (i + 1)) = j by omega, hkind']

/-- In a run that only goes to the latest middleware, the slots hold them. -/
theorem holds_run : ∀ (steps : List Step) {t : Thread D} {rs : List (Own D × List Visit)},
    Holds verify t rs →
    AllLatest rs steps → Holds verify (run verify t steps) (steps.foldl record rs)
  | [], _, _, h, _ => h
  | .create alloc c :: steps, _, _, h, hl => holds_run steps (h.create verify alloc c) hl.2
  | .serve _ _ :: steps, _, _, h, hl => holds_run steps (h.serve verify hl.1).1 hl.2

/-- **A middleware decides by its own configuration** and the requests it has
seen itself, in a run in which every request goes to the latest middleware of
its kind. -/
theorem decided_by_own_configuration (steps : List Step) (i : ℕ) (v : Visit)
    (h : AllLatest ([] : List (Own D × List Visit)) (steps ++ [.serve i v])) :
    (step verify (run verify (.start : Thread D) steps) (.serve i v)).2 =
      (records steps : List (Own D × List Visit))[i]?.map fun r =>
      ((r.1.after verify r.2).serve verify v).2 := by
  obtain ⟨hsteps, hlast⟩ := allLatest_append h
  have hstart : Holds verify (.start : Thread D) [] := ⟨rfl, fun hr => by simp at hr⟩
  exact ((holds_run verify steps hstart hsteps).serve verify hlast.1).2

end Middleware

/-- A request with the header `Authorization: Bearer t`, to a handler that
leaves the response as it is. -/
def tokenVisit : Visit where
  mem := bytes "Bearer t"
  req :=
    { method := .get, path := ⟨0, []⟩, query := none
      headers := [⟨⟨0, bytes "Authorization"⟩, ⟨0, bytes "Bearer t"⟩⟩], body := [], params := []
      httpVersionMajor := 1, httpVersionMinor := 1, keepAlive := true, contentLength := 0
      contentType := none, host := none }
  resp := responseInit
  next resp := (resp, 0)
  stack := []
  found := ⟨0, 0⟩
  now := ⟨0, 0⟩

/-- The verify function at 1 accepts everything, any other nothing. -/
def onlyFirst (f : Ptr) (_ : Bytes) (_ : Ptr) : Bool := f == 1

/-- One middleware for each scheme; the request goes to the first. -/
theorem decided_by_own_configuration_bearer :
    let steps : List Step := [.create true (.bearer 1 0), .create true (.basic 2 0)]
    (step onlyFirst (run onlyFirst (.start : Thread ℚ) steps) (.serve 0 tokenVisit)).2 =
      (records steps : List (Own ℚ × List Visit))[0]?.map fun r =>
        ((r.1.after onlyFirst r.2).serve onlyFirst tokenVisit).2 :=
  decided_by_own_configuration onlyFirst _ 0 tokenVisit
    (by simp [AllLatest, Latest, record, kinds, Create.own, Own.kind])

/-- A second bearer middleware is created, and the first one asks its verify
function: it answers 401 where its own would let the request pass. -/
theorem decided_by_later_configuration :
    ¬∀ (verify : Ptr → Bytes → Ptr → Bool) (steps : List Step) (i : ℕ) (v : Visit),
      (step verify (run verify (.start : Thread ℚ) steps) (.serve i v)).2 =
        (records steps : List (Own ℚ × List Visit))[i]?.map fun r =>
          ((r.1.after verify r.2).serve verify v).2 := by
  intro h
  have := h onlyFirst [.create true (.bearer 1 0), .create true (.bearer 2 0)] 0 tokenVisit
  revert this
  decide +kernel

end Instance
end Iohttp
