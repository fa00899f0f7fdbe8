import Mathlib.Data.Finset.Card
import Mathlib.Data.Fintype.Basic
import Mathlib.Logic.Relation

namespace SystemProgramming.Lib

open Relation

/-!
# Finite directed graphs

Paths and cycles of a relation whose edges stay inside a finite set.

* `Acyclic r` — no vertex reaches itself by one or more edges.
* `Acyclic.exists_rank` — a finite acyclic relation decreases a rank.
* `Acyclic.minimal` — a non-empty set of vertices has one with no successor in the set.
* `Acyclic.exists_fold` — a function of a vertex may be defined from its values at the
  successors.
-/

variable {V : Type*} {r r' : V → V → Prop} {a b : V}

/-- No vertex lies on a cycle. -/
def Acyclic (r : V → V → Prop) : Prop := ∀ a, ¬ TransGen r a a

/-- Fewer edges make no new cycle. -/
theorem Acyclic.mono (h : Acyclic r) (hle : ∀ a b, r' a b → r a b) : Acyclic r' :=
  fun a hc => h a (TransGen.mono hle a a hc)

/-- **Ranks.**  Along an edge of a finite acyclic relation the rank goes down. -/
theorem Acyclic.exists_rank (h : Acyclic r) (vs : Finset V) (hvs : ∀ a b, r a b → b ∈ vs) :
    ∃ rank : V → ℕ, ∀ a b, r a b → rank b < rank a := by
  classical
  have hmem : ∀ {a b}, TransGen r a b → b ∈ vs := by
    intro a b hab
    cases hab with
    | single hab => exact hvs _ _ hab
    | tail _ hab => exact hvs _ _ hab
  refine ⟨fun a => (vs.filter (fun b => TransGen r a b)).card, fun a b hab => ?_⟩
  refine Finset.card_lt_card (Finset.ssubset_iff_subset_ne.mpr ⟨fun c hc => ?_, fun heq => ?_⟩)
  · rw [Finset.mem_filter] at hc ⊢
    exact ⟨hc.1, TransGen.head hab hc.2⟩
  · have hb : b ∈ vs.filter (fun c => TransGen r a c) :=
      Finset.mem_filter.mpr ⟨hvs _ _ hab, TransGen.single hab⟩
    rw [← heq, Finset.mem_filter] at hb
    exact h b hb.2

/-- **Minimal vertices.**  A set that is not empty has a member none of whose successors is
    in the set. -/
theorem Acyclic.minimal (h : Acyclic r) (vs : Finset V) (hvs : ∀ a b, r a b → b ∈ vs)
    {P : V → Prop} (ha : P a) : ∃ m, P m ∧ ∀ b, r m b → ¬ P b := by
  obtain ⟨rank, hrank⟩ := h.exists_rank vs hvs
  induction hn : rank a using Nat.strong_induction_on generalizing a with
  | _ n ih =>
    by_cases hmin : ∀ b, r a b → ¬ P b
    · exact ⟨a, ha, hmin⟩
    · obtain ⟨b, hb⟩ := not_forall.mp hmin
      obtain ⟨hab, hPb⟩ := Classical.not_imp.mp hb
      exact ih (rank b) (hn ▸ hrank a b hab) (not_not.mp hPb) rfl

/-- **Recursion along the edges.** -/
theorem Acyclic.exists_fold {α : Type*} {next : V → List V} (h : Acyclic (fun a b => b ∈ next a))
    (vs : Finset V) (hvs : ∀ a, ∀ b ∈ next a, b ∈ vs) (F : V → List α → α) :
    ∃ f : V → α, ∀ a, f a = F a ((next a).map f) := by
  obtain ⟨rank, hrank⟩ := h.exists_rank vs hvs
  let step (a : V) (rec : ∀ b, rank b < rank a → α) : α :=
    F a ((next a).attach.map (fun b => rec b.1 (hrank a b.1 b.2)))
  refine ⟨(measure rank).wf.fix step, fun a => ?_⟩
  rw [WellFounded.fix_eq]
  exact congrArg (F a) (List.attach_map_val)

end SystemProgramming.Lib
