import Mathlib.Data.List.Range

namespace SystemProgramming.Lib

/-!
# Counted loops

A `for` loop over a counter is a fold over a range.

* `foldl_range'_rule` — what holds before the loop for its first value, and is carried by its
  body from each value to the next, holds after it.
-/

/-- **The loop rule.** -/
theorem foldl_range'_rule {σ : Type*} {body : σ → ℕ → σ} {I : ℕ → σ → Prop} {s : σ} {a : ℕ} :
    ∀ (n : ℕ), I a s → (∀ i t, a ≤ i → i < a + n → I i t → I (i + 1) (body t i)) →
      I (a + n) ((List.range' a n).foldl body s)
  | 0, h0, _ => h0
  | n + 1, h0, hstep => by
    have ih : I (a + n) ((List.range' a n).foldl body s) :=
      foldl_range'_rule n h0 (fun i t hle hlt => hstep i t hle (by omega))
    rw [List.range'_1_concat, List.foldl_append]
    exact hstep (a + n) _ (by omega) (by omega) ih

/-- The loop rule for a counter that begins with zero. -/
theorem foldl_range_rule {σ : Type*} {body : σ → ℕ → σ} {I : ℕ → σ → Prop} {s : σ} (n : ℕ)
    (h0 : I 0 s) (hstep : ∀ i t, i < n → I i t → I (i + 1) (body t i)) :
    I n ((List.range n).foldl body s) := by
  rw [List.range_eq_range']
  have hrule := foldl_range'_rule n h0 (fun i t _ hlt => hstep i t (by omega))
  rwa [Nat.zero_add] at hrule

end SystemProgramming.Lib
