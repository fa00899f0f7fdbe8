import Mathlib.Logic.Relation

namespace SystemProgramming.Lib

/-!
# Runs and simulations

A run is a list of labelled steps; a label says what is asked for and what is answered.  A
simulation relates the states of two systems so that each step of the one is a step of the other
with the same label, and then so are the runs.

* `Runs` — the steps of a run.
* `Runs.invariant` — what each step keeps, a run keeps.
* `Runs.simulation` — what each step simulates, a run simulates.
-/

variable {σ α ε : Type*} {step : σ → ε → σ → Prop} {spec : α → ε → α → Prop} {s s' : σ} {a : α}
  {es : List ε}

/-- The states at both ends of a run, and the labels of its steps. -/
inductive Runs (step : σ → ε → σ → Prop) : σ → List ε → σ → Prop
  | nil (s : σ) : Runs step s [] s
  | cons {s s₁ s' : σ} {e : ε} {es : List ε} (h : step s e s₁) (hrest : Runs step s₁ es s') :
    Runs step s (e :: es) s'

theorem Runs.append {s₁ : σ} {es' : List ε} (h : Runs step s es s₁) (h' : Runs step s₁ es' s') :
    Runs step s (es ++ es') s' := by
  induction h with
  | nil => exact h'
  | cons hstep _ ih => exact .cons hstep (ih h')

theorem Runs.invariant {I : σ → Prop} (h : Runs step s es s') (hs : I s)
    (hstep : ∀ s e s', I s → step s e s' → I s') : I s' := by
  induction h with
  | nil => exact hs
  | cons h _ ih => exact ih (hstep _ _ _ hs h)

/-- **The simulation rule.** -/
theorem Runs.simulation {R : σ → α → Prop} (h : Runs step s es s') (hs : R s a)
    (hstep : ∀ s a e s', R s a → step s e s' → ∃ a', spec a e a' ∧ R s' a') :
    ∃ a', Runs spec a es a' ∧ R s' a' := by
  induction h generalizing a with
  | nil s => exact ⟨a, .nil a, hs⟩
  | cons h _ ih =>
    obtain ⟨a₁, hspec, hs₁⟩ := hstep _ _ _ _ hs h
    obtain ⟨a', hruns, hs'⟩ := ih hs₁
    exact ⟨a', .cons hspec hruns, hs'⟩

end SystemProgramming.Lib
