import Mathlib.Data.Nat.Bitwise
import Mathlib.Tactic.IntervalCases
import Mathlib.Tactic.Ring

namespace SystemProgramming.PerilousPointers

/-!
# `part1-functions.c` — `clear_bits`

The function takes the bits of `value` and `flag` by division and remainder, which truncate
towards zero, and puts the result together with an `int` multiplier.

* `clear_bits` — the function.
* `toInt_clear_bits` — its result for a `value` that is not negative.
* `clear_bits_iff` — for which arguments it is `value & ~flag`.
-/

/-- What a round of the loop makes of the two last bits. -/
def clear_bit (value flag : Int64) : Int32 :=
  let v := (value % 2).toInt32
  let f := (flag % 2).toInt32
  if v &&& f ≠ 0 then 0 else if v = 1 ∧ f = 0 then 1 else 0

/-- The loop of `clear_bits`. -/
def clear_bits_loop (value flag : Int64) (multiplier : Int32) (out : Int64) : Int64 :=
  if 0 < value then
    clear_bits_loop (value / 2) (flag / 2) (multiplier * 2)
      (out + (multiplier * clear_bit value flag).toInt64)
  else out
termination_by value.toInt.toNat
decreasing_by
  rename_i h
  have hpos : 0 < value.toInt := by simpa [Int64.lt_iff_toInt_lt] using h
  have hdiv : (value / 2).toInt = value.toInt.tdiv 2 :=
    Int64.toInt_div_of_ne_right value 2 (by decide)
  rw [hdiv, Int.tdiv_eq_ediv_of_nonneg (by omega)]
  omega

def clear_bits (value flag : Int64) : Int64 := clear_bits_loop value flag 1 0

/-- Bit `i` of a `long`. -/
def bit (x : Int64) (i : ℕ) : Bool := x.toBitVec.getLsbD i

variable {value flag : Int64} {multiplier : Int32} {out : Int64} {a m i p : ℕ}

/-! ### One round -/

/-- The bits of the first number that the second does not have, from the lowest up. -/
theorem ldiff_eq (a m : ℕ) :
    a.ldiff m = 2 * (a / 2).ldiff (m / 2) + if a % 2 = 1 ∧ m % 2 = 0 then 1 else 0 := by
  refine Nat.eq_of_testBit_eq fun i => ?_
  cases i with
  | zero =>
    rw [Nat.testBit_ldiff]
    split
    · rename_i h
      simp [Nat.testBit_zero, h.1, h.2]
    · rename_i h
      rcases Nat.mod_two_eq_zero_or_one a with ha | ha
      · simp [Nat.testBit_zero, ha]
      · have hm : m % 2 = 1 := by omega
        simp [Nat.testBit_zero, ha, hm]
  | succ i =>
    rw [Nat.testBit_ldiff, Nat.testBit_succ, Nat.testBit_succ, Nat.testBit_succ,
      ← Nat.testBit_ldiff]
    congr 1
    split <;> omega

/-- The sum of a round, at the width of the multiplier. -/
theorem bmod_add_pow (hp : p < 2 ^ i) :
    (p : ℤ).bmod (2 ^ 32) + ((2 ^ i : ℕ) : ℤ).bmod (2 ^ 32) =
      ((p + 2 ^ i : ℕ) : ℤ).bmod (2 ^ 32) := by
  rcases Nat.lt_or_ge i 32 with hi | hi
  · rcases Nat.lt_or_ge i 31 with hi' | hi'
    · have hlt : 2 ^ i ≤ 2 ^ 30 := Nat.pow_le_pow_right (by omega) (by omega)
      rw [Int.bmod_def, Int.bmod_def, Int.bmod_def]
      omega
    · obtain rfl : i = 31 := by omega
      rw [Int.bmod_def, Int.bmod_def, Int.bmod_def]
      omega
  · obtain ⟨k, rfl⟩ := Nat.exists_eq_add_of_le hi
    have hmod : ((2 ^ (32 + k) : ℕ) : ℤ) = ((2 ^ 32 : ℕ) : ℤ) * 2 ^ k := by
      rw [pow_add, Nat.cast_mul, Nat.cast_pow, Nat.cast_pow]
      rfl
    rw [Nat.cast_add, hmod, Int.add_mul_bmod_self_left, Int.mul_bmod_right, Int.add_zero]

/-- An `int` is a `long`. -/
theorem bmod_bmod (x : ℤ) : (x.bmod (2 ^ 32)).bmod (2 ^ 64) = x.bmod (2 ^ 32) := by
  have hle : -2147483648 ≤ x.bmod (2 ^ 32) := Int.le_bmod (by decide)
  have hlt : x.bmod (2 ^ 32) < 2147483648 := Int.bmod_lt (by decide)
  generalize x.bmod (2 ^ 32) = y at hle hlt
  exact Int.bmod_eq_of_le (by omega) (by omega)

theorem toInt_div_two (x : Int64) : (x / 2).toInt = x.toInt.tdiv 2 :=
  Int64.toInt_div_of_ne_right x 2 (by decide)

theorem eq_of_toInt {x : Int64} {k : ℤ} (h : x.toInt = k) : x = Int64.ofInt k := by
  rw [← h, Int64.ofInt_toInt]

/-- A round takes a bit that `value` has and the magnitude of `flag` does not. -/
theorem clear_bit_eq (hv : value.toInt = a) (hf : flag.toInt.natAbs = m) :
    clear_bit value flag = if a % 2 = 1 ∧ m % 2 = 0 then 1 else 0 := by
  have hvalue : (value % 2).toInt = (a % 2 : ℕ) := by
    rw [Int64.toInt_mod, hv]
    rfl
  have hflag : (flag % 2).toInt.natAbs = m % 2 := by
    rw [Int64.toInt_mod, Int.natAbs_tmod, hf]
    rfl
  rw [clear_bit]
  rcases Nat.mod_two_eq_zero_or_one a with ha | ha <;>
    rcases Nat.mod_two_eq_zero_or_one m with hm | hm <;>
    rw [ha] at hvalue <;> rw [hm] at hflag <;> rw [eq_of_toInt hvalue, ha, hm]
  · rw [eq_of_toInt (Int.natAbs_eq_zero.mp hflag)]
    decide
  · rcases Int.natAbs_eq_iff.mp hflag with h | h <;> rw [eq_of_toInt h] <;> decide
  · rw [eq_of_toInt (Int.natAbs_eq_zero.mp hflag)]
    decide
  · rcases Int.natAbs_eq_iff.mp hflag with h | h <;> rw [eq_of_toInt h] <;> decide

/-! ### The loop -/

/-- What the loop adds to `out` are the bits of `value` outside the magnitude of `flag`, at
    their places as far as the multiplier reaches. -/
theorem clear_bits_loop_spec (hv : value.toInt = a) (hf : flag.toInt.natAbs = m)
    (hm : multiplier.toInt = ((2 ^ i : ℕ) : ℤ).bmod (2 ^ 32))
    (ho : out.toInt = (p : ℤ).bmod (2 ^ 32)) (hp : p < 2 ^ i) :
    (clear_bits_loop value flag multiplier out).toInt =
      ((p + 2 ^ i * a.ldiff m : ℕ) : ℤ).bmod (2 ^ 32) := by
  induction value, flag, multiplier, out using clear_bits_loop.induct generalizing a m i p with
  | case1 value flag multiplier out hpos ih =>
    rw [clear_bits_loop, if_pos hpos]
    have hbit := clear_bit_eq hv hf
    -- the next round begins with the halves, and with one bit more in `out`
    have hv' : (value / 2).toInt = (a / 2 : ℕ) := by
      rw [toInt_div_two, hv]
      rfl
    have hf' : (flag / 2).toInt.natAbs = m / 2 := by
      rw [toInt_div_two, Int.natAbs_tdiv, hf]
      rfl
    have hm' : (multiplier * 2).toInt = ((2 ^ (i + 1) : ℕ) : ℤ).bmod (2 ^ 32) := by
      rw [Int32.toInt_mul, hm, Nat.pow_succ 2 i, Nat.cast_mul]
      exact Int.bmod_mul_bmod
    by_cases hc : a % 2 = 1 ∧ m % 2 = 0
    · rw [if_pos hc] at hbit
      have ho' : (out + (multiplier * clear_bit value flag).toInt64).toInt =
          ((p + 2 ^ i : ℕ) : ℤ).bmod (2 ^ 32) := by
        rw [hbit, Int32.mul_one, Int64.toInt_add, Int32.toInt_toInt64, ho, hm, bmod_add_pow hp,
          bmod_bmod]
      have hp' : p + 2 ^ i < 2 ^ (i + 1) := by rw [pow_succ]; omega
      rw [ih hv' hf' hm' ho' hp', ldiff_eq a m, if_pos hc]
      congr 2
      ring
    · rw [if_neg hc] at hbit
      have ho' : (out + (multiplier * clear_bit value flag).toInt64).toInt =
          (p : ℤ).bmod (2 ^ 32) := by
        rw [hbit, Int32.mul_zero]
        exact (congrArg Int64.toInt (Int64.add_zero out)).trans ho
      have hp' : p < 2 ^ (i + 1) := by rw [pow_succ]; omega
      rw [ih hv' hf' hm' ho' hp', ldiff_eq a m, if_neg hc]
      congr 2
      ring
  | case2 value flag multiplier out hpos =>
    rw [clear_bits_loop, if_neg hpos]
    have hzero : a = 0 := by
      rw [Int64.lt_iff_toInt_lt, hv, Int64.toInt_zero] at hpos
      omega
    have hnone : (0 : ℕ).ldiff m = 0 := by
      refine Nat.eq_of_testBit_eq fun k => ?_
      rw [Nat.testBit_ldiff, Nat.zero_testBit, Bool.false_and]
    rw [hzero, hnone, ho, Nat.mul_zero, Nat.add_zero]

/-- **`clear_bits`**, for a `value` that is not negative: the bits of `value` outside the
    magnitude of `flag`, as an `int`. -/
theorem toInt_clear_bits (hv : value.toInt = a) (hf : flag.toInt.natAbs = m) :
    (clear_bits value flag).toInt = (a.ldiff m : ℤ).bmod (2 ^ 32) := by
  rw [clear_bits, clear_bits_loop_spec hv hf (i := 0) (p := 0) rfl rfl Nat.one_pos, Nat.pow_zero,
    Nat.one_mul, Nat.zero_add]

/-! ### The bits of the result -/

theorem testBit_toNat (x : Int64) (h : x.toInt = a) (i : ℕ) : bit x i = a.testBit i := by
  have hbits : x.toBitVec = BitVec.ofNat 64 a := by
    rw [← BitVec.ofInt_natCast, ← h]
    exact (BitVec.ofInt_toInt).symm
  have ha : a < 2 ^ 64 := by
    have hlt := x.toInt_lt
    omega
  rw [bit, ← BitVec.testBit_toNat, hbits, BitVec.toNat_ofNat, Nat.mod_eq_of_lt ha]

/-- From bit 31 on the result repeats its bit 31. -/
theorem bit_clear_bits (hv : value.toInt = a) (hf : flag.toInt.natAbs = m) (hi : i < 64) :
    bit (clear_bits value flag) i = (a.ldiff m).testBit (min i 31) := by
  have hbits : (clear_bits value flag).toBitVec = (BitVec.ofNat 32 (a.ldiff m)).signExtend 64 := by
    refine BitVec.eq_of_toInt_eq ?_
    rw [BitVec.toInt_signExtend_of_le (by omega)]
    exact (toInt_clear_bits hv hf).trans (BitVec.toInt_ofNat (a.ldiff m)).symm
  rw [bit, hbits, BitVec.getLsbD_signExtend, decide_eq_true hi, Bool.true_and]
  split
  · rename_i hlow
    rw [BitVec.getLsbD_ofNat, decide_eq_true hlow, Bool.true_and, Nat.min_eq_left (by omega)]
  · rw [BitVec.msb_eq_getLsbD_last, BitVec.getLsbD_ofNat, Nat.min_eq_right (by omega)]
    rfl

/-- The result has the bits of `value` that `flag` does not have. -/
def Clears (value flag result : Int64) : Prop :=
  ∀ i < 64, bit result i = (bit value i && !bit flag i)

/-- Nothing is lost: no bit of `value` is at a place where `flag` and its magnitude differ as
    far as the multiplier reaches, and the bits beyond it are bits of `flag`. -/
def Reached (value flag : Int64) : Prop :=
  if 0 < value then
    (∀ i < 32, bit value i → bit flag i = flag.toInt.natAbs.testBit i) ∧
      ∀ i < 64, 31 ≤ i → bit value i → bit flag i
  else ∀ i < 64, bit value i → bit flag i

theorem clears_iff_of_pos (hpos : 0 < value) :
    Clears value flag (clear_bits value flag) ↔ Reached value flag := by
  have hle : 0 < value.toInt := by simpa [Int64.lt_iff_toInt_lt] using hpos
  obtain ⟨a, ha⟩ := Int.eq_ofNat_of_zero_le hle.le
  have hlt : a < 2 ^ 63 := by
    have h := value.toInt_lt
    omega
  rw [Clears, Reached, if_pos hpos]
  have hresult : ∀ i < 64, bit (clear_bits value flag) i =
      (bit value (min i 31) && !flag.toInt.natAbs.testBit (min i 31)) := fun i hi => by
    rw [bit_clear_bits ha rfl hi, Nat.testBit_ldiff, testBit_toNat value ha]
  have hsign : bit value 63 = false := by
    rw [testBit_toNat value ha, Nat.testBit_lt_two_pow hlt]
  constructor
  · intro h
    -- bit 63 of the result is its bit 31
    have h31 : (bit value 31 && !flag.toInt.natAbs.testBit 31) = false := by
      have h63 := h 63 (by omega)
      rwa [hresult 63 (by omega), hsign, Bool.false_and] at h63
    constructor
    · intro i hi hbit
      have hi' := h i (by omega)
      rw [hresult i (by omega), Nat.min_eq_left (by omega), hbit] at hi'
      simpa using hi'.symm
    · intro i hi hle hbit
      have hi' := h i hi
      rw [hresult i hi, Nat.min_eq_right hle, h31, hbit] at hi'
      simpa using hi'
  · rintro ⟨hlow, hhigh⟩ i hi
    rw [hresult i hi]
    rcases Nat.lt_or_ge i 32 with hi' | hi'
    · rw [Nat.min_eq_left (by omega)]
      cases hbit : bit value i with
      | false => rfl
      | true => rw [hlow i hi' hbit]
    · rw [Nat.min_eq_right (by omega)]
      have hright : (bit value i && !bit flag i) = false := by
        cases hbit : bit value i with
        | false => rfl
        | true => rw [hhigh i hi (by omega) hbit]; rfl
      rw [hright]
      cases hbit : bit value 31 with
      | false => rfl
      | true =>
        rw [← hlow 31 (by omega) hbit, hhigh 31 (by omega) (by omega) hbit]
        rfl

/-- **`clear_bits`** is `value & ~flag` just when nothing is lost. -/
theorem clear_bits_iff (value flag : Int64) :
    Clears value flag (clear_bits value flag) ↔ Reached value flag := by
  by_cases hpos : 0 < value
  · exact clears_iff_of_pos hpos
  · have hout : clear_bits value flag = 0 := by rw [clear_bits, clear_bits_loop, if_neg hpos]
    rw [hout, Clears, Reached, if_neg hpos]
    refine forall₂_congr fun i hi => ?_
    have hzero : bit 0 i = false := BitVec.getLsbD_zero
    rw [hzero]
    cases bit value i <;> cases bit flag i <;> simp

/-- A negative value, a negative flag, and a bit that an `int` does not have. -/
theorem not_clears :
    ¬ Clears (-1) 0 (clear_bits (-1) 0) ∧ ¬ Clears 2 (-1) (clear_bits 2 (-1)) ∧
      ¬ Clears (2 ^ 31) 0 (clear_bits (2 ^ 31) 0) := by
  have hpos : ∀ {value flag : Int64}, 0 < value → ¬ Reached value flag →
      ¬ Clears value flag (clear_bits value flag) :=
    fun hp hr hc => hr ((clears_iff_of_pos hp).mp hc)
  refine ⟨fun h => ?_, hpos (by decide) fun h => ?_, hpos (by decide) fun h => ?_⟩
  · have hout : clear_bits (-1) 0 = 0 := by rw [clear_bits, clear_bits_loop, if_neg (by decide)]
    rw [hout] at h
    exact absurd (h 0 (by decide)) (by decide)
  · rw [Reached, if_pos (by decide)] at h
    exact absurd (h.1 1 (by decide) (by decide)) (by decide)
  · rw [Reached, if_pos (by decide)] at h
    exact absurd (h.2 31 (by decide) (by decide) (by decide)) (by decide)

end SystemProgramming.PerilousPointers
