import Mathlib.Algebra.BigOperators.Group.Finset.Basic
import Mathlib.Data.Nat.Basic

namespace SystemProgramming.Lib

/-!
# Labelled transition systems

A system is a predicate on initial states and a partial step function of a label.  What a
run may do is cut down by a guard on labels, so that one system carries results about all
its runs and about those whose steps meet a further condition.

* `Lts.Reach` — the states that guarded runs reach.
* `Lts.Reach.invariant` — what holds initially and is kept by every guarded step holds in
  every state reached.
* `Lts.run` — a guarded run, computed.
* `Lts.run_length_le` — a measure that every step lowers bounds every run.
* `Lts.wellFounded_of_lex` — two measures bound the runs too, one after the other.
* `sum_change` — a measure that sums over the parties, when one of them makes a step.
* `Lts.Reach.eventually` — with such a measure, a run that can always be continued until a
  goal is met meets it.
-/

/-- A labelled transition system. -/
structure Lts (σ ε : Type*) where
  init : σ → Prop
  step : σ → ε → Option σ

namespace Lts

variable {σ ε : Type*} {T : Lts σ ε} {ok ok' : σ → ε → Prop} {I : σ → Prop} {s s' : σ} {e : ε}

/-- The states reached from an initial one by steps whose labels the guard allows. -/
inductive Reach (T : Lts σ ε) (ok : σ → ε → Prop) : σ → Prop
  | init {s : σ} (h : T.init s) : Reach T ok s
  | step {s s' : σ} {e : ε} (hr : Reach T ok s) (hok : ok s e) (hs : T.step s e = some s') :
      Reach T ok s'

/-- **The invariant rule.** -/
theorem Reach.invariant (hr : Reach T ok s) (h0 : ∀ s, T.init s → I s)
    (hstep : ∀ s e s', I s → ok s e → T.step s e = some s' → I s') : I s := by
  induction hr with
  | init h => exact h0 _ h
  | step _ hok hs ih => exact hstep _ _ _ ih hok hs

/-- A weaker guard reaches more. -/
theorem Reach.mono (hr : Reach T ok s) (hle : ∀ s e, ok s e → ok' s e) : Reach T ok' s := by
  induction hr with
  | init h => exact .init h
  | step _ hok hs ih => exact .step ih (hle _ _ hok) hs

/-- Run a list of events, each of which the guard must allow. -/
def run (T : Lts σ ε) (ok : σ → ε → Prop) [∀ s e, Decidable (ok s e)] (s : σ) :
    List ε → Option σ
  | [] => some s
  | e :: es => if ok s e then (T.step s e).bind (fun s' => run T ok s' es) else none

/-- What a run computes is reached. -/
theorem Reach.of_run [∀ s e, Decidable (ok s e)] {es : List ε} (hr : Reach T ok s)
    (hrun : T.run ok s es = some s') : Reach T ok s' := by
  induction es generalizing s with
  | nil => exact Option.some.inj hrun ▸ hr
  | cons e es ih =>
    rw [run] at hrun
    split at hrun
    · rename_i hok
      obtain ⟨s₁, hs, hrun⟩ := Option.bind_eq_some_iff.mp hrun
      exact ih (hr.step hok hs) hrun
    · exact absurd hrun (by simp)

/-- **The measure rule.**  If every step lowers a measure, no run is longer than the measure
    of the state where it begins. -/
theorem run_length_le [∀ s e, Decidable (ok s e)] (μ : σ → ℕ)
    (hμ : ∀ s e s', T.step s e = some s' → μ s' < μ s) {es : List ε}
    (hrun : T.run ok s es = some s') : es.length + μ s' ≤ μ s := by
  induction es generalizing s with
  | nil =>
    obtain rfl := Option.some.inj hrun
    exact Nat.le_of_eq (Nat.zero_add _)
  | cons e es ih =>
    rw [run] at hrun
    split at hrun
    · obtain ⟨s₁, hs, hrun⟩ := Option.bind_eq_some_iff.mp hrun
      have hlt := hμ _ _ _ hs
      have hle := ih hrun
      rw [List.length_cons]
      omega
    · exact absurd hrun (by simp)

/-- **The progress rule.**  If every step lowers a measure, and short of the goal `P` some
    allowed step keeps `I`, a state with `I` leads to one with `I` and `P`. -/
theorem Reach.eventually {P : σ → Prop} (μ : σ → ℕ)
    (hμ : ∀ s e s', T.step s e = some s' → μ s' < μ s)
    (hprog : ∀ s, Reach T ok s → I s → ¬ P s → ∃ e s', ok s e ∧ T.step s e = some s' ∧ I s')
    (hr : Reach T ok s) (hI : I s) : ∃ s', Reach T ok s' ∧ I s' ∧ P s' := by
  induction hn : μ s using Nat.strong_induction_on generalizing s with
  | _ m ih =>
    by_cases hP : P s
    · exact ⟨s, hr, hI, hP⟩
    · obtain ⟨e, s', hok, hs, hI'⟩ := hprog s hr hI hP
      exact ih (μ s') (hn ▸ hμ s e s' hs) (hr.step hok hs) hI' rfl

/-- **The termination rule.**  If each step from a reached state lowers the first of two measures,
    or keeps it and lowers the second, no run goes on for ever. -/
theorem wellFounded_of_lex (rank weight : σ → ℕ)
    (h : ∀ s e s', T.Reach ok s → ok s e → T.step s e = some s' →
      rank s' < rank s ∨ rank s' = rank s ∧ weight s' < weight s) :
    WellFounded fun s' s => T.Reach ok s ∧ ∃ e, ok s e ∧ T.step s e = some s' := by
  have hlex := (Prod.lex Nat.lt_wfRel Nat.lt_wfRel).wf
  refine Subrelation.wf ?_ (InvImage.wf (fun s => (rank s, weight s)) hlex)
  rintro s' s ⟨hr, e, hok, hs⟩
  obtain hlt | ⟨heq, hlt⟩ := h s e s' hr hok hs
  · exact Prod.Lex.left _ _ hlt
  · show Prod.Lex _ _ (rank s', weight s') (rank s, weight s)
    rw [heq]
    exact Prod.Lex.right _ hlt

end Lts

/-- **One party makes a step**: a sum over the parties changes by what it had and what it has. -/
theorem sum_change {ι M : Type*} [Fintype ι] [DecidableEq ι] [AddCommMonoid M] {f f' : ι → M}
    (i : ι) (h : ∀ j ≠ i, f' j = f j) : ∑ j, f' j + f i = ∑ j, f j + f' i := by
  have hrest : ∑ j ∈ Finset.univ.erase i, f' j = ∑ j ∈ Finset.univ.erase i, f j :=
    Finset.sum_congr rfl fun j hj => h j (Finset.ne_of_mem_erase hj)
  rw [← Finset.add_sum_erase Finset.univ f (Finset.mem_univ i),
    ← Finset.add_sum_erase Finset.univ f' (Finset.mem_univ i), hrest, add_right_comm,
    add_comm (f' i), add_right_comm]

end SystemProgramming.Lib
