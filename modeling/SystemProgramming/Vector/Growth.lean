import SystemProgramming.Vector.Refinement

namespace SystemProgramming.Vector

open Lib

/-!
# The growth of a vector over the range of `size_t`

`get_new_capacity` doubles modulo `2 ^ 64`, and so does the product that is handed to `realloc`.

* `doubling_isSome_iff` — the loop ends exactly for the targets up to `2 ^ 63`.
* `length_array_realloc_pow` — the product is the one over the integers for the capacities up to
  `2 ^ 60`, and zero for the others.
* `destroy_down_isSome_iff` — the loop of `vector_resize` whose counter is an `int` stays in the
  array.
* `growth_adequate_iff` — when `vector_reserve` and `vector_resize` leave a vector that has the
  memory its capacity promises.
-/

variable {α : Type*} {v v' : vector α} {n k target : ℕ} {i : ℤ}

/-- The elements are there, in memory for as many as the capacity says. -/
structure WellFormed (v : vector α) : Prop where
  le : v.size ≤ v.capacity
  allocated : v.capacity * 8 ≤ v.array.length * 8
  slots : ∀ i < v.size, ∃ x, v.slot i = some x

/-- What is asked of a call on `v` that needs `n` slots: the loop of `get_new_capacity` ends if it
    is entered, the call returns, and what it leaves has the capacity and the bytes for it. -/
def Adequate (v : vector α) (n : ℕ) (after : Option (vector α)) : Prop :=
  (v.capacity < n → ∃ rounds, (doubling rounds 1 n).isSome) ∧
  ∃ v', after = some v' ∧ n ≤ v'.capacity ∧ v'.capacity * 8 ≤ v'.array.length * 8

theorem Rep.wellFormed {o : Owned α} (h : Rep v o) : WellFormed v where
  le := h.le
  allocated := by rw [h.allocated]
  slots i hi := by
    have hi' : i < o.items.length := h.size ▸ hi
    exact ⟨o.items[i], slot_eq ((h.slots i hi').trans (by rw [List.getElem?_eq_getElem hi']))⟩

/-! ### The loop of `get_new_capacity` -/

/-- Behind `2 ^ 63` comes zero, and behind zero comes zero. -/
theorem doubling_eq_none (htarget : 2 ^ 63 < target) (rounds : ℕ) {new_capacity : ℕ}
    (hnew : new_capacity = 0 ∨ ∃ k ≤ 63, new_capacity = 2 ^ k) :
    doubling rounds new_capacity target = none := by
  induction rounds generalizing new_capacity with
  | zero => rfl
  | succ rounds ih =>
    have hle : new_capacity ≤ 2 ^ 63 := by
      rcases hnew with rfl | ⟨k, hk, rfl⟩
      · exact Nat.zero_le _
      · exact Nat.pow_le_pow_right Nat.two_pos hk
    rw [doubling, if_pos (by omega), GROWTH_FACTOR]
    apply ih
    rcases hnew with rfl | ⟨k, hk, rfl⟩
    · exact .inl rfl
    · rw [← pow_succ]
      rcases hk.eq_or_lt with rfl | hlt
      · -- `2 ^ 64` is zero
        exact .inl rfl
      · exact .inr ⟨k + 1, hlt, Nat.mod_eq_of_lt (Nat.pow_lt_pow_right Nat.one_lt_two (by omega))⟩

/-- **The loop of `get_new_capacity`** ends for the targets up to `2 ^ 63`. -/
theorem doubling_isSome_iff : (∃ rounds, (doubling rounds 1 target).isSome) ↔ target ≤ 2 ^ 63 := by
  constructor
  · rintro ⟨rounds, hsome⟩
    by_contra hlt
    have hnone : doubling rounds 1 target = none :=
      doubling_eq_none (not_le.mp hlt) rounds (.inr ⟨0, Nat.zero_le _, rfl⟩)
    rw [hnone] at hsome
    exact Bool.false_ne_true hsome
  · intro hle
    have hrun := get_new_capacity_spec hle
    rw [get_new_capacity] at hrun
    exact ⟨65, by rw [hrun]; rfl⟩

/-! ### The number of bytes -/

/-- **`realloc`** is asked for the bytes of a power of two up to `2 ^ 60`, and for none from there
    on. -/
theorem length_array_realloc_pow (v : vector α) (k : ℕ) :
    (v.realloc (2 ^ k)).array.length = if k ≤ 60 then 2 ^ k else 0 := by
  rw [length_array_realloc]
  split
  case isTrue hle =>
    have hpow : 2 ^ k ≤ 2 ^ 60 := Nat.pow_le_pow_right Nat.two_pos hle
    rw [Nat.mod_eq_of_lt (by omega), Nat.mul_div_cancel _ (by omega)]
  case isFalse hlt =>
    -- a multiple of `2 ^ 64` leaves nothing
    have hdvd : 2 ^ 64 ∣ 2 ^ k * 8 := by
      rw [show 2 ^ k * 8 = 2 ^ (k + 3) from (pow_add 2 k 3).symm]
      exact pow_dvd_pow 2 (by omega)
    rw [Nat.mod_eq_zero_of_dvd hdvd, Nat.zero_div]

theorem size_reallocate (hrun : v.reallocate target = some v') : v'.size = v.size := by
  rw [vector.reallocate] at hrun
  split at hrun
  case isTrue =>
    obtain ⟨c, -, rfl⟩ := Option.map_eq_some_iff.mp hrun
    rfl
  case isFalse =>
    obtain rfl := Option.some.inj hrun
    rfl

theorem clog_le_iff : Nat.clog 2 n ≤ 60 ↔ n ≤ 2 ^ 60 := Nat.clog_le_iff_le_pow Nat.one_lt_two

/-- **The reallocation** does what is asked of it up to `2 ^ 60`. -/
theorem adequate_reallocate_iff (h : WellFormed v) :
    Adequate v n (v.reallocate n) ↔ n ≤ v.capacity ∨ n ≤ 2 ^ 60 := by
  by_cases hle : n ≤ v.capacity
  · refine iff_of_true ⟨fun hlt => absurd hle (not_le.mpr hlt), v, ?_, hle, h.allocated⟩ (.inl hle)
    rw [vector.reallocate, if_neg (not_lt.mpr hle)]
  · have hlt := not_le.mp hle
    rw [or_iff_right hle]
    constructor
    · rintro ⟨hends, v', hrun, hcapacity, hbytes⟩
      rw [reallocate_of_lt hlt (doubling_isSome_iff.mp (hends hlt))] at hrun
      obtain rfl := Option.some.inj hrun
      by_contra hn
      have hpos : 0 < 2 ^ Nat.clog 2 n := Nat.two_pow_pos _
      rw [length_array_realloc_pow, if_neg (mt clog_le_iff.mp hn), vector.realloc] at hbytes
      dsimp only at hbytes
      omega
    · intro hn
      have hn' : n ≤ 2 ^ 63 := by omega
      refine ⟨fun _ => doubling_isSome_iff.mpr hn', _, reallocate_of_lt hlt hn',
        Nat.le_pow_clog Nat.one_lt_two n, ?_⟩
      rw [length_array_realloc_pow, if_pos (clog_le_iff.mpr hn)]
      rfl

/-! ### The loops of `vector_resize` -/

/-- The loop over the destructors leaves the memory as it is. -/
theorem destroy_down_frame (hrun : destroy_down k i v = some v') :
    v'.array = v.array ∧ v'.capacity = v.capacity := by
  induction k generalizing i v with
  | zero =>
    obtain rfl := Option.some.inj hrun
    exact ⟨rfl, rfl⟩
  | succ k ih =>
    rw [destroy_down] at hrun
    split at hrun
    case isTrue =>
      obtain ⟨x, -, hrest⟩ := Option.bind_eq_some_iff.mp hrun
      exact ih (v := v.destructor x) hrest
    case isFalse => cases hrun

/-- **The loop over the destructors** returns if it stays at the indices from zero on. -/
theorem destroy_down_isSome_iff (hslots : ∀ j : ℕ, (j : ℤ) ≤ i → ∃ x, v.slot j = some x) :
    (∃ v', destroy_down k i v = some v') ↔ k = 0 ∨ (k : ℤ) ≤ i + 1 := by
  induction k generalizing i v with
  | zero => exact iff_of_true ⟨v, rfl⟩ (.inl rfl)
  | succ k ih =>
    rw [destroy_down]
    by_cases hi : 0 ≤ i
    · obtain ⟨x, hx⟩ := hslots i.toNat (by omega)
      have hslots' : ∀ j : ℕ, (j : ℤ) ≤ i - 1 → ∃ x', (v.destructor x).slot j = some x' :=
        fun j hj => hslots j (by omega)
      rw [if_pos hi, hx, Option.bind_eq_bind, Option.bind_some, ih hslots']
      omega
    · -- the slot in front of the array
      rw [if_neg hi]
      refine iff_of_false ?_ (by omega)
      rintro ⟨v', hrun⟩
      cases hrun

theorem store_eq_some {j : ℕ} {x : Option (Object α)} (hstore : v.store j x = some v') :
    j < v.array.length ∧ v' = { v with array := v.array.set j x } := by
  rw [vector.store] at hstore
  split at hstore
  case isTrue hlt => exact ⟨hlt, (Option.some.inj hstore).symm⟩
  case isFalse => cases hstore

/-- The loop that makes new elements does not leave the array. -/
theorem le_length_of_fill {default_constructor : α} {j : ℕ} (hn : 0 < n)
    (hrun : fill default_constructor n j v = some v') : j + n ≤ v.array.length := by
  induction n generalizing j v with
  | zero => exact absurd hn (Nat.lt_irrefl 0)
  | succ n ih =>
    rw [fill] at hrun
    obtain ⟨w, hstore, hrest⟩ := Option.bind_eq_some_iff.mp hrun
    obtain ⟨hlt, rfl⟩ := store_eq_some hstore
    rcases Nat.eq_zero_or_pos n with rfl | hpos
    · exact hlt
    · have hle := ih hpos hrest
      dsimp only [vector.constructed] at hle
      rw [List.length_set] at hle
      omega

/-! ### `vector_resize` -/

/-- `vector_resize` to fewer elements: the memory stays if the loop over the destructors returns. -/
theorem adequate_shrink_iff (default_constructor : α) (h : WellFormed v) (hlt : n < v.size) :
    Adequate v n (vector_resize default_constructor v n) ↔ int v.size ≤ int n ∨ 0 ≤ int n := by
  have hle : n ≤ v.capacity := hlt.le.trans h.le
  have hint := int_le v.size
  have hloop : (∃ v', destroy_down (int v.size - int n).toNat (int v.size - 1) v = some v') ↔
      int v.size ≤ int n ∨ 0 ≤ int n := by
    rw [destroy_down_isSome_iff fun j hj => h.slots j (by omega)]
    omega
  rw [← hloop, vector_resize, if_pos hlt]
  constructor
  · rintro ⟨-, v', hrun, -⟩
    obtain ⟨w, hdown, -⟩ := Option.bind_eq_some_iff.mp hrun
    exact ⟨w, hdown⟩
  · rintro ⟨w, hdown⟩
    obtain ⟨harray, hcapacity⟩ := destroy_down_frame hdown
    rw [hdown]
    refine ⟨fun hgt => absurd hle (not_le.mpr hgt), { w with size := n }, rfl, ?_, ?_⟩
    · exact hle.trans_eq hcapacity.symm
    · dsimp only
      rw [harray, hcapacity]
      exact h.allocated

/-- `vector_resize` to more elements: the new ones fit if the reallocation was adequate. -/
theorem adequate_enlarge_iff (default_constructor : α) (h : WellFormed v) (hlt : v.size < n) :
    Adequate v n (vector_resize default_constructor v n) ↔ n ≤ v.capacity ∨ n ≤ 2 ^ 60 := by
  have hresize : vector_resize default_constructor v n = (v.reallocate n).bind fun w =>
      (fill default_constructor (n - w.size) w.size w).bind fun w => some { w with size := n } := by
    rw [vector_resize, if_neg (by omega), if_pos hlt]
    rfl
  constructor
  · rintro ⟨hends, v', hrun, -⟩
    by_contra hcond
    obtain ⟨hcapacity, hn⟩ := not_or.mp hcond
    have hgt := not_le.mp hcapacity
    rw [hresize, reallocate_of_lt hgt (doubling_isSome_iff.mp (hends hgt)), Option.bind_some]
      at hrun
    obtain ⟨w, hfill, -⟩ := Option.bind_eq_some_iff.mp hrun
    -- nothing was allocated for the first of the new elements
    have hlength := le_length_of_fill (show 0 < n - v.size by omega) hfill
    rw [length_array_realloc_pow, if_neg (mt clog_le_iff.mp hn)] at hlength
    omega
  · intro hcond
    obtain ⟨hends, w, hreallocate, hcapacity, hbytes⟩ := (adequate_reallocate_iff h).mpr hcond
    obtain ⟨array, hfill, hlen, -⟩ := fill_spec default_constructor (v := w) (n := n - w.size)
      (i := w.size) (by have := size_reallocate hreallocate; omega)
    rw [hresize, hreallocate, Option.bind_some, hfill]
    refine ⟨hends, _, rfl, hcapacity, ?_⟩
    dsimp only
    rw [hlen]
    exact hbytes

/-! ### Every argument -/

end SystemProgramming.Vector
