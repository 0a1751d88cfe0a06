/-
# Chains as compositions

`chain_next` finds its chain through the thread-local `tl_chain`, and the
chain holds one position for all of its middleware (`ioh_middleware.c`, 15-72).
Here the thread runs code that may call `next` any number of times and may run
other chains (`Code`), with the chain objects on its stack and `tl_chain` as the
source has them (`perform`). Beside it stands what a chain is for: middleware
`i` runs with a `next` that is the composition of the middleware behind it and
the handler (`composed`).

The two do the same, in the same order, exactly if no middleware but the last of
its chain calls `next` a second time (`chain_composed_iff`). The second call of
another one goes on behind what the first call has run. A nested chain leaves
the chains outside as they were, whatever it does (`perform_frame`).

Key definitions: `Code`, `perform`, `composed`.

Key theorems: `perform_frame`, `perform_composed`, `chain_composed_iff`.
-/
import Iohttp.Middleware.Chain

namespace Iohttp
namespace Compose

open List

/-- The arguments of an `ioh_chain_execute` call, but for the context. -/
structure ChainArgs where
  globalMw : List Ptr
  groupMw : List Ptr
  handler : Ptr

/-- What a middleware may call: its `next` argument, or a chain of its own. -/
inductive Op where
  | next
  | execute (args : ChainArgs)

/-- Code at work on a context `σ`: it returns, or makes one of the calls `α` and
goes on with the context and the result that this leaves. -/
inductive Code (α σ : Type) where
  | ret (ctx : σ) (rc : ℤ)
  | call (ctx : σ) (op : α) (k : σ → ℤ → Code α σ)

/-- The functions behind the pointers. A handler has no `next`. -/
structure Callbacks (σ : Type) where
  middleware : Ptr → σ → Code Op σ
  handler : Ptr → σ → Code ChainArgs σ

/-- What happens, in order: a middleware is entered, with its position in its
chain, a handler is, or an `ioh_chain_execute` call returns. -/
inductive Event where
  | middleware (pos : ℕ) (mw : Ptr)
  | handler (h : Ptr)
  | executed (rc : ℤ)
  deriving DecidableEq

/-- A call, and what is done with its result. Without one the fuel has run out. -/
def andThen {X : Type} (r : X × Option ℤ) (f : X → ℤ → X × Option ℤ) : X × Option ℤ :=
  match r with
  | (x, some rc) => f x rc
  | (x, none) => (x, none)

/-- `ioh_chain_t`; `count` is the length of `middleware`. -/
structure ChainObj where
  middleware : List Ptr
  current : ℕ
  handler : Ptr
  deriving DecidableEq

/-- The context, the chain objects on the stack with the oldest first, the index
that `tl_chain` points to, and what has happened. -/
structure Thread (σ : Type) where
  ctx : σ
  chains : List ChainObj
  tlChain : Option ℕ
  trace : List Event

variable {σ : Type} {a : ℕ}

/-- Runs code, with `call` for its calls. -/
def runCode {α : Type} (call : α → Thread σ → Thread σ × Option ℤ) :
    Code α σ → Thread σ → Thread σ × Option ℤ
  | .ret ctx rc, t => ({ t with ctx := ctx }, some rc)
  | .call ctx op k, t =>
    andThen (call op { t with ctx := ctx }) fun t' rc => runCode call (k t'.ctx rc) t'

/-- The chain is longer than `ioh_chain_execute` takes. -/
def ChainArgs.tooLong (args : ChainArgs) : Bool :=
  decide (args.globalMw.length > maxGlobalMiddleware ∨ args.groupMw.length > maxGroupMiddleware)

/-- A call of `ioh_chain_execute` returns. -/
def Thread.executed (t : Thread σ) (rc : ℤ) : Thread σ × Option ℤ :=
  ({ t with trace := t.trace ++ [.executed rc] }, some rc)

/-- The chain of a call of `ioh_chain_execute`, global middleware first, is the
current one. -/
def Thread.push (t : Thread σ) (args : ChainArgs) : Thread σ :=
  { t with
    chains := t.chains ++ [⟨args.globalMw ++ args.groupMw, 0, args.handler⟩]
    tlChain := some t.chains.length }

/-- The chain goes out of scope, and `tl_chain` is what it was at `t`. -/
def Thread.pop (t u : Thread σ) : Thread σ :=
  { u with chains := u.chains.take t.chains.length, tlChain := t.tlChain }

/-- `chain_next` and `ioh_chain_execute`, with calls nested at most `fuel` deep. -/
def perform (fns : Callbacks σ) : ℕ → Op → Thread σ → Thread σ × Option ℤ
  | 0, _, t => (t, none)
  | fuel + 1, .next, t =>
    match t.tlChain with
    | none => (t, none)
    | some a =>
      match t.chains[a]? with
      | none => (t, none)
      | some chain =>
        match chain.middleware[chain.current]? with
        | none =>
          runCode (fun args => perform fns fuel (.execute args)) (fns.handler chain.handler t.ctx)
            { t with trace := t.trace ++ [.handler chain.handler] }
        | some mw =>
          runCode (perform fns fuel) (fns.middleware mw t.ctx)
            { t with
              chains := t.chains.set a { chain with current := chain.current + 1 }
              trace := t.trace ++ [.middleware chain.current mw] }
  | fuel + 1, .execute args, t =>
    if args.handler = 0 then t.executed (-EINVAL)
    else if args.globalMw.length > maxGlobalMiddleware then t.executed (-ENOSPC)
    else if args.groupMw.length > maxGroupMiddleware then t.executed (-ENOSPC)
    else
      andThen (perform fns fuel .next (t.push args)) fun u rc => (t.pop u).executed rc

/-- The context and what has happened; `plain` as long as no middleware but the
last of its chain has called `next` again, and no chain was too long. -/
structure Run (σ : Type) where
  ctx : σ
  trace : List Event
  plain : Bool

def Run.executed (s : Run σ) (rc : ℤ) : Run σ × Option ℤ :=
  ({ s with trace := s.trace ++ [.executed rc] }, some rc)

def runHandler (execute : ChainArgs → Run σ → Run σ × Option ℤ) :
    Code ChainArgs σ → Run σ → Run σ × Option ℤ
  | .ret ctx rc, s => ({ s with ctx := ctx }, some rc)
  | .call ctx args k, s =>
    andThen (execute args { s with ctx := ctx }) fun s' rc => runHandler execute (k s'.ctx rc) s'

/-- Runs a middleware; `next` is told whether it has been called before. -/
def runMiddleware (next : Bool → Run σ → Run σ × Option ℤ)
    (execute : ChainArgs → Run σ → Run σ × Option ℤ) :
    Bool → Code Op σ → Run σ → Run σ × Option ℤ
  | _, .ret ctx rc, s => ({ s with ctx := ctx }, some rc)
  | again, .call ctx .next k, s =>
    andThen (next again { s with ctx := ctx }) fun s' rc => runMiddleware next execute true
      (k s'.ctx rc) s'
  | again, .call ctx (.execute args) k, s =>
    andThen (execute args { s with ctx := ctx }) fun s' rc =>
      runMiddleware next execute again (k s'.ctx rc) s'

/-- What is run: the middleware `mws`, the first of them at `pos`, around the
handler, or a whole chain. -/
inductive Job where
  | chain (pos : ℕ) (mws : List Ptr) (handler : Ptr) (again : Bool)
  | execute (args : ChainArgs)

/-- `m₁ (m₂ (… (mₙ handler)))`, with calls nested at most `fuel` deep. A second
`next` is noted when there is a middleware that it has to run again. -/
def composed (fns : Callbacks σ) : ℕ → Job → Run σ → Run σ × Option ℤ
  | 0, _, s => (s, none)
  | fuel + 1, .chain _ [] h _, s =>
    runHandler (fun args => composed fns fuel (.execute args)) (fns.handler h s.ctx)
      { s with trace := s.trace ++ [.handler h] }
  | fuel + 1, .chain pos (mw :: mws) h again, s =>
    runMiddleware (fun again => composed fns fuel (.chain (pos + 1) mws h again))
      (fun args => composed fns fuel (.execute args)) false (fns.middleware mw s.ctx)
      { s with trace := s.trace ++ [.middleware pos mw], plain := s.plain && !again }
  | fuel + 1, .execute args, s =>
    if args.handler = 0 then s.executed (-EINVAL)
    else
      andThen
        (composed fns fuel (.chain 0 (args.globalMw ++ args.groupMw) args.handler false)
          { s with plain := s.plain && !args.tooLong })
        Run.executed

/-! ### What a call leaves -/

theorem andThen_keeps {X : Type} (R : X → X → Prop) (htrans : ∀ {x y z}, R x y → R y z → R x z) {x : X}
    {r : X × Option ℤ} {f : X → ℤ → X × Option ℤ} (h : R x r.1) (hf : ∀ y rc, R y (f y rc).1) :
    R x (andThen r f).1 := by
  rcases r with ⟨y, _ | rc⟩
  · exact h
  · exact htrans h (hf y rc)

def Extends (t t' : Thread σ) : Prop := t.trace <+: t'.trace

theorem Extends.trans {t t' t'' : Thread σ} (h : Extends t t') (h' : Extends t' t'') : Extends t t'' :=
  List.IsPrefix.trans h h'

theorem Extends.executed (t : Thread σ) (rc : ℤ) : Extends t (t.executed rc).1 := prefix_append _ _

theorem runCode_extends {α : Type} {call : α → Thread σ → Thread σ × Option ℤ}
    (hcall : ∀ op t, Extends t (call op t).1) :
    ∀ (p : Code α σ) (t : Thread σ), Extends t (runCode call p t).1
  | .ret ctx rc, t => prefix_rfl
  | .call ctx op k, t => by
    exact andThen_keeps Extends Extends.trans (hcall op { t with ctx := ctx })
      fun t' rc => runCode_extends hcall (k t'.ctx rc) t'

theorem perform_extends (fns : Callbacks σ) : ∀ (fuel : ℕ) (op : Op) (t : Thread σ),
    Extends t (perform fns fuel op t).1
  | 0, _, t => by
    exact prefix_rfl
  | fuel + 1, .next, t => by
    rw [perform]
    split
    · exact prefix_rfl
    split
    · exact prefix_rfl
    split
    · refine Extends.trans ?_ (runCode_extends
      (fun args t => perform_extends fns fuel (.execute args) t) _ _)
      exact prefix_append _ _
    · refine Extends.trans ?_ (runCode_extends (perform_extends fns fuel) _ _)
      exact prefix_append _ _
  | fuel + 1, .execute args, t => by
    rw [perform]
    split_ifs
    · exact .executed t _
    · exact .executed t _
    · exact .executed t _
    · exact andThen_keeps Extends Extends.trans (perform_extends fns fuel .next (t.push args))
        fun u rc => Extends.executed (t.pop u) rc

/-- The trace goes on, and what was not plain stays so. -/
structure Later (s s' : Run σ) : Prop where
  trace : s.trace <+: s'.trace
  plain : s'.plain = true → s.plain = true

theorem Later.trans {s s' s'' : Run σ} (h : Later s s') (h' : Later s' s'') : Later s s'' :=
  ⟨h.trace.trans h'.trace, fun hp => h.plain (h'.plain hp)⟩

theorem Later.ctx (s : Run σ) (ctx : σ) : Later s { s with ctx := ctx } := ⟨prefix_rfl, id⟩

theorem Later.executed (s : Run σ) (rc : ℤ) : Later s (s.executed rc).1 := ⟨prefix_append _ _, id⟩

variable {execute : ChainArgs → Run σ → Run σ × Option ℤ} {k pos : ℕ}
  {f : Thread σ → ℤ → Thread σ × Option ℤ} {g : Run σ → ℤ → Run σ × Option ℤ} {mws : List Ptr}

theorem runHandler_later (he : ∀ args s, Later s (execute args s).1) :
    ∀ (p : Code ChainArgs σ) (s : Run σ), Later s (runHandler execute p s).1
  | .ret ctx rc, s => .ctx s ctx
  | .call ctx args k, s => by
    exact andThen_keeps Later Later.trans ((Later.ctx s ctx).trans (he args _))
      fun s' rc => runHandler_later he (k s'.ctx rc) s'

theorem runMiddleware_later {next : Bool → Run σ → Run σ × Option ℤ}
    (hn : ∀ again s, Later s (next again s).1) (he : ∀ args s, Later s (execute args s).1) :
    ∀ (p : Code Op σ) (again : Bool) (s : Run σ), Later s (runMiddleware next execute again p s).1
  | .ret ctx rc, _, s => .ctx s ctx
  | .call ctx .next k, again, s => by
    exact andThen_keeps Later Later.trans ((Later.ctx s ctx).trans (hn again _))
      fun s' rc => runMiddleware_later hn he (k s'.ctx rc) true s'
  | .call ctx (.execute args) k, again, s => by
    exact andThen_keeps Later Later.trans ((Later.ctx s ctx).trans (he args _))
      fun s' rc => runMiddleware_later hn he (k s'.ctx rc) again s'

theorem composed_later (fns : Callbacks σ) : ∀ (fuel : ℕ) (job : Job) (s : Run σ),
    Later s (composed fns fuel job s).1
  | 0, _, s => by
    exact .ctx s s.ctx
  | fuel + 1, .chain pos [] h again, s => by
    refine Later.trans ?_ (runHandler_later
      (fun args s => composed_later fns fuel (.execute args) s) _ _)
    exact ⟨prefix_append _ _, id⟩
  | fuel + 1, .chain pos (mw :: mws) h again, s => by
    refine Later.trans ?_
      (runMiddleware_later (fun again s => composed_later fns fuel (.chain (pos + 1) mws h again) s)
        (fun args s => composed_later fns fuel (.execute args) s) _ _ _)
    exact ⟨prefix_append _ _, fun hp => (Bool.and_eq_true_iff.mp hp).1⟩
  | fuel + 1, .execute args, s => by
    rw [composed]
    split_ifs
    · exact .executed s _
    · refine andThen_keeps Later Later.trans (Later.trans ?_ (composed_later fns fuel _ _)) Later.executed
      exact ⟨prefix_rfl, fun hp => (Bool.and_eq_true_iff.mp hp).1⟩

/-! ### The chains on the stack -/

theorem andThen_eq_some {X : Type} {r : X × Option ℤ} {f : X → ℤ → X × Option ℤ} {rc : ℤ}
    (h : (andThen r f).2 = some rc) : ∃ x rc', r = (x, some rc') ∧ (f x rc').2 = some rc ∧
      (andThen r f).1 = (f x rc').1 := by
  rcases r with ⟨x, _ | rc'⟩
  · cases h
  · exact ⟨x, rc', rfl, h, rfl⟩

/-- The chain `c` at `a` is the current one in both, and it has gone on, but not
beyond its end; the others are as they were. -/
def Moves (a : ℕ) (c : ChainObj) (t t' : Thread σ) : Prop :=
  ∃ k, c.current ≤ k ∧ (c.middleware.length ≤ c.current → k = c.current) ∧ t'.tlChain = some a ∧
    t'.chains = t.chains.set a { c with current := k }

variable {c : ChainObj}

theorem Moves.refl {t t' : Thread σ} (ht : t'.tlChain = some a)
    (hc : t.chains[a]? = some c) (heq : t'.chains = t.chains) : Moves a c t t' := by
  obtain ⟨hlt, rfl⟩ := List.getElem?_eq_some_iff.mp hc
  exact ⟨_, le_refl _, fun _ => rfl, ht, by rw [heq]; exact (set_getElem_self hlt).symm⟩

theorem Moves.get {t t' : Thread σ} (hc : t.chains[a]? = some c)
    (h : t'.chains = t.chains.set a { c with current := k }) :
    t'.chains[a]? = some { c with current := k } := by
  obtain ⟨hlt, _⟩ := List.getElem?_eq_some_iff.mp hc
  rw [h, getElem?_set_self hlt]

theorem Moves.trans {t t' t'' : Thread σ} (hk : c.current ≤ k)
    (hend : c.middleware.length ≤ c.current → k = c.current)
    (ht : t'.chains = t.chains.set a { c with current := k })
    (h : Moves a { c with current := k } t' t'') : Moves a c t t'' := by
  obtain ⟨k', hk', hend', htl, hch⟩ := h
  exact ⟨k', hk.trans hk', fun hl => by rw [hend' (by rw [hend hl]; exact hl), hend hl], htl, by
    rw [hch, ht, set_set]⟩

/-- The stack and `tl_chain` are as they were. -/
def SameStack (t t' : Thread σ) : Prop := t'.tlChain = t.tlChain ∧ t'.chains = t.chains

/-- Calls leave the other chains as they were: a whole chain changes none on the
stack, `next` only the position of the current one. -/
structure Framed (fns : Callbacks σ) (fuel : ℕ) : Prop where
  execute : ∀ {args t rc}, (perform fns fuel (.execute args) t).2 = some rc →
    SameStack t (perform fns fuel (.execute args) t).1
  next : ∀ {t a c rc}, t.tlChain = some a → t.chains[a]? = some c →
    (perform fns fuel .next t).2 = some rc → ∃ k, c.current ≤ k ∧
      (c.middleware.length ≤ c.current → k = c.current) ∧
      (c.current < c.middleware.length → c.current < k) ∧
      (perform fns fuel .next t).1.tlChain = some a ∧
      (perform fns fuel .next t).1.chains = t.chains.set a { c with current := k }

variable {fns : Callbacks σ} {fuel : ℕ}

section

variable (hf : Framed fns fuel)

include hf

theorem runCode_handler_frame : ∀ (p : Code ChainArgs σ) {t : Thread σ} {rc : ℤ},
    (runCode (fun args => perform fns fuel (.execute args)) p t).2 = some rc →
    SameStack t (runCode (fun args => perform fns fuel (.execute args)) p t).1
  | .ret ctx rc', t, rc, _ => ⟨rfl, rfl⟩
  | .call ctx args k, t, rc, h => by
    rw [runCode] at h ⊢
    obtain ⟨t', rc', hcall, h, heq⟩ := andThen_eq_some h
    have hfst := congrArg Prod.fst hcall
    obtain ⟨htl, hch⟩ := hf.execute (congrArg Prod.snd hcall)
    obtain ⟨htl', hch'⟩ := runCode_handler_frame (k t'.ctx rc') h
    rw [heq]
    rw [hfst] at htl hch
    exact ⟨htl'.trans htl, hch'.trans hch⟩

theorem runCode_middleware_frame : ∀ (p : Code Op σ) {t : Thread σ} {a : ℕ} {c : ChainObj} {rc : ℤ},
    t.tlChain = some a → t.chains[a]? = some c → (runCode (perform fns fuel) p t).2 = some rc →
    Moves a c t (runCode (perform fns fuel) p t).1
  | .ret ctx rc', t, a, c, rc, ht, hc, _ => .refl ht hc rfl
  | .call ctx op k, t, a, c, rc, ht, hc, h => by
    rw [runCode] at h ⊢
    obtain ⟨t', rc', hcall, h, heq⟩ := andThen_eq_some h
    have hmoves : Moves a c { t with ctx := ctx } t' := by
      have hsnd := congrArg Prod.snd hcall
      rw [← show (perform fns fuel op { t with ctx := ctx }).1 = t' from congrArg Prod.fst hcall]
      cases op with
      | next =>
        obtain ⟨j, hj, hend, _, hframe⟩ := hf.next (t := { t with ctx := ctx }) ht hc hsnd
        exact ⟨j, hj, hend, hframe⟩
      | execute args =>
        obtain ⟨htl, hch⟩ := hf.execute hsnd
        exact .refl (htl.trans ht) hc hch
    obtain ⟨j, hj, hend, htl, hch⟩ := hmoves
    rw [heq]
    exact .trans hj hend hch (runCode_middleware_frame (k t'.ctx rc') htl (Moves.get hc hch) h)

end

/-- **A call leaves the other chains as they were.** -/
theorem perform_frame (fns : Callbacks σ) : ∀ fuel : ℕ, Framed fns fuel
  | 0 => by
    constructor
    · intro args t rc h
      rw [perform] at h
      cases h
    · intro t a c rc _ _ h
      rw [perform] at h
      cases h
  | fuel + 1 => by
    have hf := perform_frame fns fuel
    constructor
    · intro args t rc h
      rw [perform] at h ⊢
      split_ifs at h ⊢
      · exact ⟨rfl, rfl⟩
      · exact ⟨rfl, rfl⟩
      · exact ⟨rfl, rfl⟩
      · obtain ⟨u, rc', hcall, _, heq⟩ := andThen_eq_some h
        have hpush : (t.push args).chains[t.chains.length]? =
            some ⟨args.globalMw ++ args.groupMw, 0, args.handler⟩ := by simp [Thread.push]
        obtain ⟨k, _, _, _, _, hch⟩ := hf.next (t := t.push args) rfl hpush (congrArg Prod.snd hcall)
        rw [heq]
        refine ⟨rfl, ?_⟩
        rw [hcall] at hch
        show u.chains.take t.chains.length = t.chains
        rw [show u.chains = _ from hch, Thread.push]
        simp
    · intro t a c rc ht hc h
      rw [perform] at h ⊢
      simp only [ht, hc] at h ⊢
      cases hm : c.middleware[c.current]? with
      | none =>
        simp only [hm] at h ⊢
        obtain ⟨htl, hch⟩ := runCode_handler_frame hf _ h
        have hlen : c.middleware.length ≤ c.current := by simpa using hm
        obtain ⟨hlt, rfl⟩ := List.getElem?_eq_some_iff.mp hc
        exact ⟨_, le_refl _, fun _ => rfl, fun hlt => absurd hlt (by omega), htl, by
          rw [hch]
          exact (set_getElem_self hlt).symm⟩
      | some mw =>
        simp only [hm] at h ⊢
        obtain ⟨hlt, _⟩ := List.getElem?_eq_some_iff.mp hc
        obtain ⟨hlen, _⟩ := List.getElem?_eq_some_iff.mp hm
        obtain ⟨k, hk, _, htl, hch⟩ := runCode_middleware_frame hf _ (a := a)
          (c := { c with current := c.current + 1 }) rfl (by simp [hlt]) h
        simp only [set_set] at hk hch
        exact ⟨k, by omega, fun hl => absurd hl (by omega), fun _ => by omega, htl, hch⟩

/-! ### The code and the composition -/

/-- The same has happened so far. -/
def Same (t : Thread σ) (s : Run σ) : Prop := t.ctx = s.ctx ∧ t.trace = s.trace

/-- The code has done something that the composition has not: it has done
something else there, or nothing for want of fuel. -/
def Differ (r : Thread σ × Option ℤ) (r' : Run σ × Option ℤ) : Prop :=
  ∃ T x, T ++ [x] <+: r.1.trace ∧
    ((∃ y, y ≠ x ∧ T ++ [y] <+: r'.1.trace) ∨ (r'.2 = none ∧ r'.1.trace = T))

/-- As long as the run is plain they do the same, and differ from then on. -/
def Agree (r : Thread σ × Option ℤ) (r' : Run σ × Option ℤ) : Prop :=
  (r'.1.plain = true ∧ Same r.1 r'.1 ∧ r.2 = r'.2) ∨ (r'.1.plain = false ∧ Differ r r')

variable {s : Run σ} {r' : Run σ × Option ℤ} {r : Thread σ × Option ℤ}

theorem Agree.of_differ (hs : s.plain = false) (hl : Later s r'.1) (h : Differ r r') : Agree r r' := by
  refine .inr ⟨?_, h⟩
  by_contra hp
  rw [Bool.not_eq_false] at hp
  rw [hl.plain hp] at hs
  exact Bool.noConfusion hs

theorem Differ.andThen (h : Differ r r') (hf : ∀ t rc, Extends t (f t rc).1)
    (hg : ∀ s rc, Later s (g s rc).1) : Differ (andThen r f) (andThen r' g) := by
  obtain ⟨T, x, hx, hy⟩ := h
  have hx' : T ++ [x] <+: (Compose.andThen r f).1.trace := by
    refine hx.trans ?_
    exact andThen_keeps Extends Extends.trans (prefix_rfl : Extends r.1 r.1) hf
  refine ⟨T, x, hx', ?_⟩
  rcases hy with ⟨y, hne, hy⟩ | ⟨hnone, hT⟩
  · refine .inl ⟨y, hne, hy.trans ?_⟩
    exact (andThen_keeps Later Later.trans (⟨prefix_rfl, id⟩ : Later r'.1 r'.1) hg).trace
  · rcases r' with ⟨s, _ | rc⟩
    · exact .inr ⟨rfl, hT⟩
    · cases hnone

theorem Agree.andThen (h : Agree r r')
    (hf : ∀ t rc, Extends t (f t rc).1) (hg : ∀ s rc, Later s (g s rc).1)
    (hfg : ∀ t s rc, r = (t, some rc) → r' = (s, some rc) → Same t s → s.plain = true →
      Agree (f t rc) (g s rc)) : Agree (andThen r f) (andThen r' g) := by
  rcases h with ⟨hp, hsame, hrc⟩ | ⟨hp, hd⟩
  · rcases r with ⟨t, _ | rc⟩ <;> rcases r' with ⟨s, _ | rc'⟩ <;> simp only at hrc
    · exact .inl ⟨hp, hsame, rfl⟩
    · cases hrc
    · cases hrc
    · cases hrc
      exact hfg t s rc rfl rfl hsame hp
  · refine Agree.of_differ hp ?_ (hd.andThen hf hg)
    exact andThen_keeps Later Later.trans ⟨prefix_rfl, id⟩ hg

/-- The current chain of `t` has the middleware `mws` from `pos` on, and stands
there; a middleware before `pos` that has called `next` already has left it
further on. -/
structure Stands (t : Thread σ) (a : ℕ) (c : ChainObj) (pos : ℕ) (mws : List Ptr) (again : Bool) :
    Prop where
  tl : t.tlChain = some a
  get : t.chains[a]? = some c
  rest : c.middleware.drop pos = mws
  here : again = false ∨ mws = [] → c.current = pos
  beyond : again = true → mws ≠ [] → pos < c.current

/-- From a plain run, calls nested at most `fuel` deep do what the composition does. -/
structure Agreed (fns : Callbacks σ) (fuel : ℕ) : Prop where
  execute : ∀ (args : ChainArgs) {t : Thread σ} {s : Run σ}, Same t s → s.plain = true →
    Agree (perform fns fuel (.execute args) t) (composed fns fuel (.execute args) s)
  next : ∀ {t : Thread σ} {s : Run σ} {a c pos mws again}, Stands t a c pos mws again → Same t s →
    s.plain = true →
    Agree (perform fns fuel .next t) (composed fns fuel (.chain pos mws c.handler again) s)

section

variable (hag : Agreed fns fuel)

include hag

theorem runHandler_agree : ∀ (p : Code ChainArgs σ) {t : Thread σ} {s : Run σ}, Same t s →
    s.plain = true →
    Agree (runCode (fun args => perform fns fuel (.execute args)) p t)
      (runHandler (fun args => composed fns fuel (.execute args)) p s)
  | .ret ctx rc, t, s, h, hp => .inl ⟨hp, ⟨rfl, h.2⟩, rfl⟩
  | .call ctx args k, t, s, h, hp => by
    have hcall := hag.execute args (t := { t with ctx := ctx }) (s := { s with ctx := ctx }) ⟨rfl, h.2⟩ hp
    refine hcall.andThen (fun t rc => runCode_extends (fun _ _ => perform_extends fns fuel _ _) _ t)
      (fun s rc => runHandler_later (fun _ _ => composed_later fns fuel _ _) _ s)
      fun t' s' rc _ _ h' hp' => ?_
    rw [h'.1]
    exact runHandler_agree (k s'.ctx rc) h' hp'

theorem runMiddleware_agree : ∀ (p : Code Op σ) {t : Thread σ} {s : Run σ}
    {c : ChainObj} {again : Bool}, Stands t a c pos mws again → Same t s → s.plain = true →
    Agree (runCode (perform fns fuel) p t)
      (runMiddleware (fun again => composed fns fuel (.chain pos mws c.handler again))
        (fun args => composed fns fuel (.execute args)) again p s)
  | .ret ctx rc, t, s, c, again, _, h, hp => .inl ⟨hp, ⟨rfl, h.2⟩, rfl⟩
  | .call ctx .next k, t, s, c, again, hst, h, hp => by
    have hst' : Stands { t with ctx := ctx } a c pos mws again :=
      ⟨hst.tl, hst.get, hst.rest, hst.here, hst.beyond⟩
    have hcall := hag.next (s := { s with ctx := ctx }) hst' ⟨rfl, h.2⟩ hp
    rw [runCode, runMiddleware]
    refine hcall.andThen (fun t rc => runCode_extends (fun _ _ => perform_extends fns fuel _ _) _ t)
      (fun s rc => runMiddleware_later (fun _ _ => composed_later fns fuel _ _)
        (fun _ _ => composed_later fns fuel _ _) _ _ s) fun t' s' rc hr _ h' hp' => ?_
    -- the chain has gone on, unless it was at its end
    obtain ⟨j, hj, hend, hstrict, htl, hch⟩ :=
      (perform_frame fns fuel).next hst'.tl hst'.get (congrArg Prod.snd hr)
    rw [hr] at htl hch
    have hlen : mws ≠ [] → pos < c.middleware.length := fun hne => by
      have hpos := length_pos_of_ne_nil hne
      rw [← hst.rest, length_drop] at hpos
      omega
    have hst'' : Stands t' a { c with current := j } pos mws true := by
      refine ⟨htl, Moves.get hst'.get hch, hst.rest, fun hor => ?_, fun _ hne => ?_⟩
      · have hnil := hor.resolve_left (by simp)
        have hcur := hst.here (.inr hnil)
        have hl : c.middleware.length ≤ c.current := by
          have := congrArg List.length (hst.rest.trans hnil)
          rw [length_drop, length_nil] at this
          omega
        exact (hend hl).trans hcur
      · show pos < j
        cases again with
        | false =>
          have hcur := hst.here (.inl rfl)
          have := hstrict (by rw [hcur]; exact hlen hne)
          omega
        | true => exact lt_of_lt_of_le (hst.beyond rfl hne) hj
    rw [h'.1]
    have hrest := runMiddleware_agree (k s'.ctx rc) hst'' h' hp'
    exact hrest
  | .call ctx (.execute args) k, t, s, c, again, hst, h, hp => by
    have hcall := hag.execute args (t := { t with ctx := ctx }) (s := { s with ctx := ctx }) ⟨rfl, h.2⟩ hp
    rw [runCode, runMiddleware]
    refine hcall.andThen (fun t rc => runCode_extends (fun _ _ => perform_extends fns fuel _ _) _ t)
      (fun s rc => runMiddleware_later (fun _ _ => composed_later fns fuel _ _)
        (fun _ _ => composed_later fns fuel _ _) _ _ s) fun t' s' rc hr _ h' hp' => ?_
    obtain ⟨htl, hch⟩ := (perform_frame fns fuel).execute (congrArg Prod.snd hr)
    rw [hr] at htl hch
    have hst' : Stands t' a c pos mws again :=
      ⟨htl.trans
        hst.tl, by rw [show t'.chains = _ from hch]; exact hst.get, hst.rest, hst.here, hst.beyond⟩
    rw [h'.1]
    exact runMiddleware_agree (k s'.ctx rc) hst' h' hp'

end

/-- The middleware, or the handler, that `next` enters. -/
def ChainObj.entered (c : ChainObj) : Event :=
  match c.middleware[c.current]? with
  | none => .handler c.handler
  | some mw => .middleware c.current mw

variable {t : Thread σ}

theorem perform_entered (fns : Callbacks σ) (fuel : ℕ)
    (ht : t.tlChain = some a) (hc : t.chains[a]? = some c) :
    t.trace ++ [c.entered] <+: (perform fns (fuel + 1) .next t).1.trace := by
  rw [perform]
  simp only [ht, hc, ChainObj.entered]
  cases hm : c.middleware[c.current]? with
  | none =>
    have := runCode_extends (fun args t => perform_extends fns fuel (.execute args) t)
      (fns.handler c.handler t.ctx) { t with trace := t.trace ++ [.handler c.handler] }
    simpa only [ht, Extends] using this
  | some mw =>
    have := runCode_extends (perform_extends fns fuel) (fns.middleware mw t.ctx)
      { t with
        chains := t.chains.set a { c with current := c.current + 1 }
        trace := t.trace ++ [.middleware c.current mw] }
    simpa only [ht, Extends] using this

theorem composed_entered (fns : Callbacks σ) (fuel pos : ℕ) (mw : Ptr) (mws : List Ptr) (h : Ptr)
    (again : Bool) (s : Run σ) :
    Later { s with trace := s.trace ++ [.middleware pos mw], plain := s.plain && !again }
      (composed fns (fuel + 1) (.chain pos (mw :: mws) h again) s).1 := by
  exact runMiddleware_later (fun again s => composed_later fns fuel (.chain (pos + 1) mws h again) s)
    (fun args s => composed_later fns fuel (.execute args) s) _ _ _

theorem executed_agree (rc : ℤ) (h : Same t s) (hp : s.plain = true) :
    Agree (t.executed rc) (s.executed rc) :=
  .inl ⟨hp, ⟨h.1, by rw [Thread.executed, Run.executed, h.2]⟩, rfl⟩

variable {args : ChainArgs}

theorem tooLong_differ (fns : Callbacks σ) (fuel : ℕ) (hlong : args.tooLong = true)
    (h : Same t s) : Differ (t.executed (-ENOSPC))
      (andThen (composed fns fuel (.chain 0 (args.globalMw ++ args.groupMw) args.handler false)
        { s with plain := s.plain && !args.tooLong }) Run.executed) := by
  obtain ⟨mw, mws, hmws⟩ : ∃ mw mws, args.globalMw ++ args.groupMw = mw :: mws := by
    refine exists_cons_of_ne_nil fun hnil => ?_
    rw [ChainArgs.tooLong, decide_eq_true_eq] at hlong
    obtain ⟨h₁, h₂⟩ := append_eq_nil_iff.mp hnil
    rw [h₁, h₂] at hlong
    simp at hlong
  refine ⟨t.trace, .executed (-ENOSPC), prefix_rfl, ?_⟩
  rw [hmws]
  cases fuel with
  | zero =>
    exact .inr ⟨rfl, h.2.symm⟩
  | succ fuel =>
    refine .inl ⟨.middleware 0 mw, by simp, ?_⟩
    rw [h.2]
    have hentered := composed_entered fns fuel 0 mw mws args.handler false
      { s with plain := s.plain && !args.tooLong }
    exact (andThen_keeps Later Later.trans hentered Later.executed).trace

section

variable (hag : Agreed fns fuel)

include hag

theorem perform_execute_agree (h : Same t s) (hp : s.plain = true) :
    Agree (perform fns (fuel + 1) (.execute args) t) (composed fns (fuel + 1) (.execute args) s) := by
  rw [perform, composed]
  by_cases hh : args.handler = 0
  · rw [if_pos hh, if_pos hh]
    exact executed_agree _ h hp
  rw [if_neg hh, if_neg hh]
  by_cases hlong : args.tooLong = true
  · have hd := tooLong_differ fns fuel hlong h
    have hl : Later { s with plain := s.plain && !args.tooLong }
        (andThen (composed fns fuel (.chain 0 (args.globalMw ++ args.groupMw) args.handler false)
          { s with plain := s.plain && !args.tooLong }) Run.executed).1 :=
      andThen_keeps Later Later.trans (composed_later fns fuel _ _) Later.executed
    have ha := Agree.of_differ (by simp [hlong]) hl hd
    rw [ChainArgs.tooLong, decide_eq_true_eq] at hlong
    split_ifs with h₁ h₂
    · exact ha
    · exact ha
    · exact absurd hlong (by simp [h₁, h₂])
  · have hshort := hlong
    rw [ChainArgs.tooLong, decide_eq_true_eq, not_or] at hshort
    rw [if_neg hshort.1, if_neg hshort.2]
    have hst : Stands (t.push args) t.chains.length
        ⟨args.globalMw ++ args.groupMw, 0, args.handler⟩ 0 (args.globalMw ++ args.groupMw) false :=
      ⟨rfl, by simp [Thread.push], rfl, fun _ => rfl, fun hf => Bool.noConfusion hf⟩
    have hcall := hag.next (s := { s with plain := s.plain && !args.tooLong }) hst h (by simp [hp, hlong])
    exact hcall.andThen (fun u rc => Extends.executed (t.pop u) rc) Later.executed
      fun u s' rc _ _ h' hp' => executed_agree (t := t.pop u) rc h' hp'

theorem perform_next_agree
    {again : Bool} (hst : Stands t a c pos mws again) (h : Same t s) (hp : s.plain = true) :
    Agree (perform fns (fuel + 1) .next t)
      (composed fns (fuel + 1) (.chain pos mws c.handler again) s) := by
  have hget : c.middleware[pos]? = mws[0]? := by rw [← hst.rest, getElem?_drop]; rfl
  cases mws with
  | nil =>
    have hnone : c.middleware[c.current]? = none := by
      rw [hst.here (.inr rfl), hget]
      rfl
    rw [perform, composed]
    simp only [hst.tl, hst.get, hnone, h.1]
    exact runHandler_agree hag _ ⟨rfl, by rw [h.2]⟩ hp
  | cons mw mws =>
    cases again with
    | false =>
      have hcur := hst.here (.inl rfl)
      obtain ⟨hlt, _⟩ := List.getElem?_eq_some_iff.mp hst.get
      have hst' : Stands
          { t with
            chains := t.chains.set a { c with current := pos + 1 }
            trace := t.trace ++ [.middleware pos mw] }
          a { c with current := pos + 1 } (pos + 1) mws false := by
        refine ⟨hst.tl, getElem?_set_self hlt, ?_, fun _ => rfl, fun hf => Bool.noConfusion hf⟩
        rw [← drop_drop, show c.middleware.drop pos = _ from hst.rest]
        rfl
      have hrun := runMiddleware_agree hag (fns.middleware mw s.ctx)
        (s := { s with trace := s.trace ++ [.middleware pos mw], plain := s.plain && !false }) hst'
        ⟨h.1, by rw [h.2]⟩ (by simp [hp])
      rw [perform, composed]
      simp only [hst.tl, hst.get, hcur, show c.middleware[pos]? = some mw from hget, h.1] at hrun ⊢
      exact hrun
    | true =>
      -- the code goes on behind this middleware, or at the handler
      have hcur := hst.beyond rfl (by simp)
      have hl := composed_entered fns fuel pos mw mws c.handler true s
      refine Agree.of_differ (by simp) hl
        ⟨t.trace, c.entered, perform_entered fns fuel hst.tl hst.get, .inl ⟨.middleware pos mw, ?_, ?_⟩⟩
      · unfold ChainObj.entered
        cases c.middleware[c.current]? with
        | none => simp
        | some mw' =>
          intro he
          cases he
          omega
      · rw [h.2]
        exact hl.trace

end

/-- **A chain is the composition of its middleware**, as long as the run is
plain. -/
theorem perform_composed (fns : Callbacks σ) : ∀ fuel : ℕ, Agreed fns fuel
  | 0 => by
    constructor
    · intro args t s h hp
      rw [perform, composed]
      exact .inl ⟨hp, h, rfl⟩
    · intro t s a c pos mws again _ h hp
      rw [perform, composed]
      exact .inl ⟨hp, h, rfl⟩
  | fuel + 1 => by
    have hag := perform_composed fns fuel
    exact ⟨fun _ => perform_execute_agree hag, perform_next_agree hag⟩

/-- However deep the calls go, the chain leaves the context, has the effects in
the order and returns the result of the composition, and when it returns, the
chains outside are as they were. -/
def IsComposition (fns : Callbacks σ) (args : ChainArgs) (t : Thread σ) : Prop :=
  ∀ fuel, (perform fns fuel (.execute args) t).1.ctx =
        (composed fns fuel (.execute args) ⟨t.ctx, t.trace, true⟩).1.ctx ∧
      (perform fns fuel (.execute args) t).1.trace =
        (composed fns fuel (.execute args) ⟨t.ctx, t.trace, true⟩).1.trace ∧
      (perform fns fuel (.execute args) t).2 =
        (composed fns fuel (.execute args) ⟨t.ctx, t.trace, true⟩).2 ∧
      ∀ rc, (perform fns fuel (.execute args) t).2 = some rc →
        (perform fns fuel (.execute args) t).1.chains = t.chains ∧
          (perform fns fuel (.execute args) t).1.tlChain = t.tlChain

theorem Differ.ne (h : Differ r r') : r.1.trace ≠ r'.1.trace := by
  obtain ⟨T, x, hx, hy⟩ := h
  intro he
  rw [he] at hx
  rcases hy with ⟨y, hne, hy⟩ | ⟨_, hT⟩
  · have heq := (prefix_of_prefix_length_le hx hy (by simp)).eq_of_length (by simp)
    exact hne (by simpa using heq.symm)
  · have hlen := hx.length_le
    rw [hT, length_append, length_singleton] at hlen
    omega

/-- **When `ioh_chain_execute` is the composition of its functions**: no
middleware but the last one of its chain calls `next` a second time, and no
chain has more middleware than fits. -/
theorem chain_composed_iff (fns : Callbacks σ) (args : ChainArgs) (t : Thread σ) :
    IsComposition fns args t ↔
      ∀ fuel, (composed fns fuel (.execute args) ⟨t.ctx, t.trace, true⟩).1.plain = true := by
  have hagree := fun fuel =>
    (perform_composed fns fuel).execute args (t := t) (s := ⟨t.ctx, t.trace, true⟩) ⟨rfl, rfl⟩ rfl
  constructor
  · intro h fuel
    rcases hagree fuel with ⟨hp, _⟩ | ⟨_, hd⟩
    · exact hp
    · exact absurd (h fuel).2.1 hd.ne
  · intro h fuel
    rcases hagree fuel with ⟨_, hsame, hrc⟩ | ⟨hp, _⟩
    · refine ⟨hsame.1, hsame.2, hrc, fun rc hr => ?_⟩
      obtain ⟨htl, hch⟩ := (perform_frame fns fuel).execute hr
      exact ⟨hch, htl⟩
    · rw [h fuel] at hp
      exact Bool.noConfusion hp

/-- The middleware at 1 calls `next` twice, any other once. -/
def twiceThenOnce : Callbacks Unit where
  middleware mw _ :=
    if mw = 1 then .call () .next fun _ _ => .call () .next fun _ rc => .ret () rc
    else .call () .next fun _ rc => .ret () rc
  handler _ _ := .ret () 0

/-- The second `next` of the first middleware goes to the handler and leaves the
second middleware out. -/
theorem second_next_skips :
    ¬∀ (fns : Callbacks Unit) (args : ChainArgs) (t : Thread Unit), IsComposition fns args t := by
  intro h
  have := (h twiceThenOnce ⟨[1, 2], [], 3⟩ ⟨(), [], none, []⟩ 5).2.1
  revert this
  decide +kernel

end Compose
end Iohttp
