/-
# The middleware chain

`src/middleware/ioh_middleware.c`. A middleware is code that may call `next`
any number of times, so it is a program whose steps are these calls. They
share one position in the chain: a second call goes on behind what the first
one has run. `trace` lists the functions that were called.
-/
import Iohttp.Router.Router

namespace Iohttp

open List

/-- `IOH_MAX_GROUP_MIDDLEWARE`. -/
abbrev maxGroupMiddleware : ℕ := 16

/-- A middleware at work on a context `σ`: it returns, or calls `next` and
goes on with the context and the result that this leaves. -/
inductive Prog (σ : Type) where
  | ret (ctx : σ) (rc : ℤ)
  | next (ctx : σ) (k : σ → ℤ → Prog σ)

structure Functions (σ : Type) where
  middleware : Ptr → σ → Prog σ
  handler : Ptr → σ → σ × ℤ

/-- The context, `chain->current` and the calls so far. -/
structure ChainState (σ : Type) where
  ctx : σ
  current : ℕ
  trace : List Ptr

variable {σ : Type}

/-- Runs a middleware, with `next` for its calls. -/
def runProg (next : ChainState σ → Option (ChainState σ × ℤ)) :
    Prog σ → ChainState σ → Option (ChainState σ × ℤ)
  | .ret ctx rc, st => some ({ st with ctx := ctx }, rc)
  | .next ctx k, st =>
    (next { st with ctx := ctx }).bind fun r => runProg next (k r.1.ctx r.2) r.1

/-- `chain_next`, with calls nested at most `fuel` deep. -/
def chainNext (fns : Functions σ) (mws : List Ptr) (handler : Ptr) :
    ℕ → ChainState σ → Option (ChainState σ × ℤ)
  | fuel, st =>
    match mws[st.current]? with
    | none =>
      let r := fns.handler handler st.ctx
      some ({ st with ctx := r.1, trace := st.trace ++ [handler] }, r.2)
    | some mw =>
      match fuel with
      | 0 => none
      | fuel + 1 =>
        runProg (chainNext fns mws handler fuel) (fns.middleware mw st.ctx)
          { st with current := st.current + 1, trace := st.trace ++ [mw] }

/-- A run with a `next` that returns and never goes back in the chain does so
too. -/
theorem runProg_total (next : ChainState σ → Option (ChainState σ × ℤ)) {c : ℕ}
    (hnext : ∀ st, c ≤ st.current → ∃ r, next st = some r ∧ c ≤ r.1.current) :
    ∀ (p : Prog σ) (st : ChainState σ), c ≤ st.current →
      ∃ r, runProg next p st = some r ∧ c ≤ r.1.current
  | .ret ctx rc, st, h => ⟨_, rfl, h⟩
  | .next ctx k, st, h => by
    obtain ⟨r, hr, hc⟩ := hnext { st with ctx := ctx } h
    rw [runProg, hr, Option.bind_some]
    exact runProg_total next hnext (k r.1.ctx r.2) r.1 hc

/-- **The chain returns**: the nesting is at most as deep as the chain is long,
whatever the middleware does. -/
theorem chainNext_total (fns : Functions σ) (mws : List Ptr) (handler : Ptr) :
    ∀ (fuel : ℕ) (st : ChainState σ), mws.length ≤ st.current + fuel →
      ∃ r, chainNext fns mws handler fuel st = some r ∧ st.current ≤ r.1.current
  | 0, st, h => by
    rw [chainNext, getElem?_eq_none (by omega)]
    exact ⟨_, rfl, le_refl _⟩
  | fuel + 1, st, h => by
    rw [chainNext]
    cases hm : mws[st.current]? with
    | none => exact ⟨_, rfl, le_refl _⟩
    | some mw =>
      obtain ⟨r, hr, hc⟩ := runProg_total (c := st.current + 1) (chainNext fns mws handler fuel)
        (fun st' h' => by
          obtain ⟨r, hr, hc⟩ := chainNext_total fns mws handler fuel st' (by omega)
          exact ⟨r, hr, by omega⟩)
        (fns.middleware mw st.ctx)
        { st with current := st.current + 1, trace := st.trace ++ [mw] } (le_refl _)
      exact ⟨r, hr, by omega⟩

/-- `ioh_chain_execute`: the context, the result and the functions called. -/
def chainExecute (fns : Functions σ) (ctx : σ) (globalMw groupMw : List Ptr) (handler : Ptr) :
    σ × ℤ × List Ptr :=
  if handler = 0 then (ctx, -EINVAL, [])
  else if globalMw.length > maxGlobalMiddleware then (ctx, -ENOSPC, [])
  else if groupMw.length > maxGroupMiddleware then (ctx, -ENOSPC, [])
  else
    let mws := globalMw ++ groupMw
    let r := (chainNext fns mws handler mws.length ⟨ctx, 0, []⟩).get (by
      obtain ⟨r, hr, _⟩ := chainNext_total fns mws handler mws.length ⟨ctx, 0, []⟩ (by simp)
      rw [hr]
      rfl)
    (r.1.ctx, r.2, r.1.trace)

/-- The middleware calls `next` exactly once, whatever it does before and
after. -/
def CallsNextOnce (mw : σ → Prog σ) : Prop :=
  ∀ ctx, ∃ ctx' k, mw ctx = .next ctx' k ∧ ∀ c rc, ∃ c' rc', k c rc = .ret c' rc'

theorem chainNext_trace {fns : Functions σ} {mws : List Ptr} (handler : Ptr)
    (h : ∀ mw ∈ mws, CallsNextOnce (fns.middleware mw)) :
    ∀ (fuel : ℕ) (st : ChainState σ), mws.length ≤ st.current + fuel →
      ∃ r, chainNext fns mws handler fuel st = some r ∧
        r.1.trace = st.trace ++ mws.drop st.current ++ [handler]
  | 0, st, hf => by
    rw [chainNext, getElem?_eq_none (by omega)]
    exact ⟨_, rfl, by rw [drop_eq_nil_of_le (by omega), append_nil]⟩
  | fuel + 1, st, hf => by
    rw [chainNext]
    cases hm : mws[st.current]? with
    | none =>
      have hlen : mws.length ≤ st.current := by simpa using hm
      exact ⟨_, rfl, by rw [drop_eq_nil_of_le hlen, append_nil]⟩
    | some mw =>
      obtain ⟨hlt, hmw⟩ := List.getElem?_eq_some_iff.mp hm
      obtain ⟨ctx', k, hp, hk⟩ := h mw (mem_of_getElem? hm) st.ctx
      obtain ⟨r, hr, ht⟩ := chainNext_trace handler h fuel ⟨ctx', st.current + 1, st.trace ++ [mw]⟩
        (by simp; omega)
      obtain ⟨c', rc', hret⟩ := hk r.1.ctx r.2
      refine ⟨({ r.1 with ctx := c' }, rc'), ?_, ?_⟩
      · simp only [hp, runProg, hr, Option.bind_some, hret]
      · rw [ht, ← cons_getElem_drop_succ (h := hlt), hmw]
        simp

/-- **The functions run in order**: global middleware, group middleware,
handler. -/
theorem chainExecute_trace {fns : Functions σ} {ctx : σ} {globalMw groupMw : List Ptr} {handler : Ptr}
    (hh : handler ≠ 0) (hg : globalMw.length ≤ maxGlobalMiddleware)
    (hr : groupMw.length ≤ maxGroupMiddleware)
    (h : ∀ mw ∈ globalMw ++ groupMw, CallsNextOnce (fns.middleware mw)) :
    (chainExecute fns ctx globalMw groupMw handler).2.2 = globalMw ++ groupMw ++ [handler] := by
  obtain ⟨r, hr', ht⟩ := chainNext_trace handler h (globalMw ++ groupMw).length ⟨ctx, 0, []⟩
    (by simp)
  rw [chainExecute, if_neg hh, if_neg (by omega), if_neg (by omega)]
  simp only [hr', Option.get_some, ht]
  simp

end Iohttp
