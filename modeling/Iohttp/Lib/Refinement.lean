/-
# Machines with results

A machine takes an event to its next state and a result, or fails: then it has
done what its program must not do. A specification is a machine that does not
fail. The machine refines it if each step gives the result of the specification
and leaves the states related.

Key definitions: `results`, `Refines`.

Key theorems: `Refines.results`, `Refines.same_results`.
-/
import Mathlib.Tactic

namespace Refinement

variable {σ τ ε ρ : Type*}

/-- The results of a sequence of events, and the state behind it. -/
def trace (next : σ → ε → Option (σ × ρ)) : σ → List ε → Option (σ × List ρ)
  | s, [] => some (s, [])
  | s, e :: es =>
    (next s e).bind fun x => (trace next x.1 es).map fun y => (y.1, x.2 :: y.2)

/-- The same for a specification. -/
def specTrace (spec : τ → ε → τ × ρ) : τ → List ε → τ × List ρ
  | t, [] => (t, [])
  | t, e :: es =>
    ((specTrace spec (spec t e).1 es).1, (spec t e).2 :: (specTrace spec (spec t e).1 es).2)

/-- What is seen from outside. -/
def results (next : σ → ε → Option (σ × ρ)) (s : σ) (es : List ε) : Option (List ρ) :=
  (trace next s es).map Prod.snd

/-- **The machine refines the specification**: from a state with the invariant each
step does what the specification does, and keeps the invariant. -/
structure Refines (next : σ → ε → Option (σ × ρ)) (spec : τ → ε → τ × ρ) (inv : σ → Prop)
    (abs : σ → τ) : Prop where
  step : ∀ s e, inv s → ∃ s', next s e = some (s', (spec (abs s) e).2) ∧ inv s' ∧
    abs s' = (spec (abs s) e).1

variable {next : σ → ε → Option (σ × ρ)} {spec : τ → ε → τ × ρ} {inv : σ → Prop} {abs : σ → τ}

/-- A refinement carries over to whole sequences. -/
theorem Refines.trace (h : Refines next spec inv abs) : ∀ (es : List ε) {s : σ}, inv s →
    ∃ s', Refinement.trace next s es = some (s', (specTrace spec (abs s) es).2) ∧ inv s' ∧
      abs s' = (specTrace spec (abs s) es).1
  | [], s, hs => ⟨s, rfl, hs, rfl⟩
  | e :: es, s, hs => by
    obtain ⟨s₁, hstep, hs₁, habs₁⟩ := h.step s e hs
    obtain ⟨s₂, htrace, hs₂, habs₂⟩ := h.trace es hs₁
    rw [habs₁] at htrace habs₂
    refine ⟨s₂, ?_, hs₂, habs₂⟩
    rw [Refinement.trace, hstep, Option.bind_some, htrace]
    rfl

theorem Refines.results (h : Refines next spec inv abs) (es : List ε) {s : σ} (hs : inv s) :
    Refinement.results next s es = some (specTrace spec (abs s) es).2 := by
  obtain ⟨s', htrace, -, -⟩ := h.trace es hs
  rw [Refinement.results, htrace]
  rfl

/-- Two states that stand for the same cannot be told apart. -/
theorem Refines.same_results (h : Refines next spec inv abs) {s s' : σ} (hs : inv s) (hs' : inv s')
    (habs : abs s' = abs s) (es : List ε) :
    Refinement.results next s' es = Refinement.results next s es := by
  rw [h.results es hs, h.results es hs', habs]

end Refinement
