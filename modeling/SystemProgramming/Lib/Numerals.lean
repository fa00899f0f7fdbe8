import Mathlib.Algebra.Group.Nat.Defs
import Mathlib.Data.List.Induction
import Mathlib.Data.Nat.Basic

namespace SystemProgramming.Lib

/-!
# Numerals

The numerals with a given number of digits in base `b`, the most significant digit first.

* `numeral b u k` — the numeral of `k` with `u` digits.
* `numeral_inj`, `exists_numeral` — up to `b ^ u`, each list of `u` digits is the numeral of one
  number.
* `numeral_zero`, `numeral_last` — the first numeral and the last.
* `numeral_succ_of_lt`, `numeral_succ_of_carry` — how the next numeral is made.
-/

def numeral (b : ℕ) : ℕ → ℕ → List ℕ
  | 0, _ => []
  | u + 1, k => numeral b u (k / b) ++ [k % b]

variable {b u k l d : ℕ} {ds : List ℕ}

@[simp] theorem length_numeral (b u k : ℕ) : (numeral b u k).length = u := by
  induction u generalizing k with
  | zero => rfl
  | succ u ih => rw [numeral, List.length_append, ih, List.length_singleton]

theorem lt_of_mem_numeral (hb : 0 < b) (h : d ∈ numeral b u k) : d < b := by
  induction u generalizing k with
  | zero => cases h
  | succ u ih =>
    rw [numeral, List.mem_append, List.mem_singleton] at h
    obtain h | rfl := h
    · exact ih h
    · exact Nat.mod_lt k hb

theorem numeral_inj (hk : k < b ^ u) (hl : l < b ^ u) (h : numeral b u k = numeral b u l) :
    k = l := by
  induction u generalizing k l with
  | zero => exact (Nat.lt_one_iff.mp hk).trans (Nat.lt_one_iff.mp hl).symm
  | succ u ih =>
    obtain ⟨hdiv, hmod⟩ := List.append_inj' h rfl
    have hquot := ih (Nat.div_lt_of_lt_mul (Nat.pow_succ' ▸ hk))
      (Nat.div_lt_of_lt_mul (Nat.pow_succ' ▸ hl)) hdiv
    rw [← Nat.div_add_mod k b, ← Nat.div_add_mod l b, hquot, (List.cons.inj hmod).1]

theorem exists_numeral (h : ∀ d ∈ ds, d < b) : ∃ k < b ^ ds.length, numeral b ds.length k = ds := by
  induction ds using List.reverseRecOn with
  | nil => exact ⟨0, Nat.one_pos, rfl⟩
  | append_singleton ds d ih =>
    obtain ⟨k, hk, hnumeral⟩ := ih fun d hd => h d (List.mem_append_left _ hd)
    have hd : d < b := h d (by simp)
    refine ⟨b * k + d, ?_, ?_⟩
    · rw [List.length_append, List.length_singleton, Nat.pow_succ']
      calc b * k + d < b * (k + 1) := by rw [Nat.mul_succ]; omega
        _ ≤ b * b ^ ds.length := Nat.mul_le_mul_left b hk
    · rw [List.length_append, List.length_singleton, numeral, Nat.mul_add_mod,
        Nat.mod_eq_of_lt hd, Nat.mul_add_div (Nat.zero_lt_of_lt hd), Nat.div_eq_of_lt hd,
        Nat.add_zero, hnumeral]

theorem numeral_zero (b u : ℕ) : numeral b u 0 = List.replicate u 0 := by
  induction u with
  | zero => rfl
  | succ u ih => rw [numeral, Nat.zero_div, Nat.zero_mod, ih, List.replicate_succ']

theorem numeral_last (hb : 0 < b) (u : ℕ) :
    numeral b u (b ^ u - 1) = List.replicate u (b - 1) := by
  induction u with
  | zero => rfl
  | succ u ih =>
    have hpow : 0 < b ^ u := Nat.pow_pos hb
    have hlast : b ^ (u + 1) - 1 = b * (b ^ u - 1) + (b - 1) := by
      rw [Nat.pow_succ', Nat.mul_sub_one]
      have hle : b ≤ b * b ^ u := Nat.le_mul_of_pos_right b hpow
      omega
    rw [numeral, hlast, Nat.mul_add_div hb, Nat.div_eq_of_lt (Nat.sub_lt hb Nat.one_pos),
      Nat.add_zero, Nat.mul_add_mod, Nat.mod_eq_of_lt (Nat.sub_lt hb Nat.one_pos), ih,
      List.replicate_succ']

/-- The last digit is not the greatest. -/
theorem numeral_succ_of_lt (h : k % b + 1 < b) :
    numeral b (u + 1) (k + 1) = numeral b u (k / b) ++ [k % b + 1] := by
  have hb : 0 < b := Nat.zero_lt_of_lt h
  have hsucc : k + 1 = b * (k / b) + (k % b + 1) := by
    rw [← Nat.add_assoc, Nat.div_add_mod]
  rw [numeral, hsucc, Nat.mul_add_div hb, Nat.div_eq_of_lt h, Nat.add_zero, Nat.mul_add_mod,
    Nat.mod_eq_of_lt h]

/-- The last digit is the greatest. -/
theorem numeral_succ_of_carry (hb : 0 < b) (h : k % b + 1 = b) :
    numeral b (u + 1) (k + 1) = numeral b u (k / b + 1) ++ [0] := by
  have hsucc : k + 1 = b * (k / b + 1) := by
    rw [Nat.mul_succ]
    have hdiv := Nat.div_add_mod k b
    omega
  rw [numeral, hsucc, Nat.mul_div_cancel_left _ hb, Nat.mul_mod_right]

end SystemProgramming.Lib
