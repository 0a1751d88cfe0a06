/-
# Runs of a transition system

A system is a function from a state and an event to the next state, if the
event is possible there. `Reaches next ok s₀ s` says that a run from `s₀`,
all of whose steps meet `ok`, reaches `s`.

Key theorems: `Reaches.invariant`, `exists_reaches`.
-/
import Mathlib.Tactic

namespace Runs

variable {σ ε : Type*} {next : σ → ε → Option σ} {ok : σ → ε → Prop} {s₀ : σ}

/-- `s` is reached from `s₀` by steps that meet `ok`. -/
inductive Reaches (next : σ → ε → Option σ) (ok : σ → ε → Prop) (s₀ : σ) : σ → Prop where
  | start : Reaches next ok s₀ s₀
  | step {s s' : σ} (e : ε) : Reaches next ok s₀ s → ok s e → next s e = some s' → Reaches next ok s₀ s'

/-- What holds at the start and is kept by every step holds in every state that
is reached. -/
theorem Reaches.invariant {s : σ} (h : Reaches next ok s₀ s) (inv : σ → Prop) (start : inv s₀)
    (step : ∀ s e s', inv s → ok s e → next s e = some s' → inv s') : inv s := by
  induction h with
  | start => exact start
  | step e _ he hn ih => exact step _ e _ ih he hn

/-- Steps that meet one condition also meet a weaker one. -/
theorem Reaches.mono {ok' : σ → ε → Prop} (h : ∀ s e, ok s e → ok' s e) {s : σ}
    (hs : Reaches next ok s₀ s) : Reaches next ok' s₀ s := by
  induction hs with
  | start => exact .start
  | step e _ he hn ih => exact .step e ih (h _ e he) hn

/-- A run goes on from the state that another one reaches. -/
theorem Reaches.trans {s s' : σ} (h : Reaches next ok s₀ s) (h' : Reaches next ok s s') :
    Reaches next ok s₀ s' := by
  induction h' with
  | start => exact h
  | step e _ he hn ih => exact .step e ih he hn

/-- The state after a list of events. -/
def run (next : σ → ε → Option σ) (s : σ) (es : List ε) : Option σ := es.foldlM next s

theorem run_cons (s : σ) (e : ε) (es : List ε) :
    run next s (e :: es) = (next s e).bind fun s' => run next s' es := by
  simp [run, List.foldlM_cons]

theorem run_concat (s : σ) (es : List ε) (e : ε) :
    run next s (es ++ [e]) = (run next s es).bind fun s' => next s' e := by
  simp [run, List.foldlM_append]

/-- Every step of the run meets `ok`. -/
def runOk (next : σ → ε → Option σ) (ok : σ → ε → Prop) : σ → List ε → Prop
  | _, [] => True
  | s, e :: es => ok s e ∧ ∀ s', next s e = some s' → runOk next ok s' es

theorem runOk_cons {s s' : σ} {e : ε} {es : List ε} (h : next s e = some s') :
    runOk next ok s (e :: es) ↔ ok s e ∧ runOk next ok s' es := by
  simp only [runOk, h, Option.some.injEq, forall_eq']

instance instDecidableRunOk [∀ s e, Decidable (ok s e)] :
    ∀ (es : List ε) (s : σ), Decidable (runOk next ok s es)
  | [], _ => isTrue trivial
  | e :: es, s =>
    match h : next s e with
    | none =>
      decidable_of_iff (ok s e) ⟨fun hok => ⟨hok, fun s' hs => by rw [h] at hs; cases hs⟩,
        fun hok => hok.1⟩
    | some s' =>
      have := instDecidableRunOk es s'
      decidable_of_iff (ok s e ∧ runOk next ok s' es) (runOk_cons h).symm

/-- The list of events is a run whose steps meet `ok`, to a state with `p`. -/
def RunsTo (next : σ → ε → Option σ) (ok : σ → ε → Prop) (p : σ → Prop) : σ → List ε → Prop
  | s, [] => p s
  | s, e :: es => ok s e ∧ ∃ s' ∈ next s e, RunsTo next ok p s' es

instance instDecidableRunsTo {p : σ → Prop} [∀ s e, Decidable (ok s e)] [DecidablePred p] :
    ∀ (s : σ) (es : List ε), Decidable (RunsTo next ok p s es)
  | s, [] => inferInstanceAs (Decidable (p s))
  | s, e :: es =>
    have (s' : σ) : Decidable (RunsTo next ok p s' es) := instDecidableRunsTo s' es
    inferInstanceAs (Decidable (ok s e ∧ ∃ s' ∈ next s e, RunsTo next ok p s' es))

theorem exists_reaches (next : σ → ε → Option σ) (ok : σ → ε → Prop) (s : σ) (es : List ε)
    (p : σ → Prop) (h : RunsTo next ok p s es) : ∃ s', Reaches next ok s s' ∧ p s' := by
  induction es generalizing s with
  | nil => exact ⟨s, .start, h⟩
  | cons e es ih =>
    obtain ⟨hok, s₁, hn, h⟩ := h
    obtain ⟨s', hs, hp⟩ := ih s₁ h
    exact ⟨s', (Reaches.step e .start hok hn).trans hs, hp⟩

end Runs
