import Mathlib.Data.Nat.Log
import Mathlib.Order.Bounds.Basic
import SystemProgramming.Vector.Vector

namespace SystemProgramming.Vector

open Lib

/-!
# The vector is a list

* `Rep` — the slots below `size` hold the elements of a list that owns them.
* `get_new_capacity_spec`, `reallocate_spec` — the capacities are powers of two, and the least that
  fit.
* `shift_up_spec`, `shift_down_spec`, `destroy_up_spec`, `destroy_down_spec`, `fill_spec` — the
  loops.
* `Rep.push_back`, … — each function does to the vector what the operation does to the list.
* `vector_refines` — any sequence of calls.
-/

variable {α : Type*} {v v' : vector α} {o : Owned α} {n i position target : ℕ} {x : Object α}
  {copy_constructor : α → α} {default_constructor element : α} {reached : List ℕ}

/-- The vector holds the elements. -/
structure Rep (v : vector α) (o : Owned α) : Prop where
  size : v.size = o.items.length
  slots : ∀ i < o.items.length, v.array[i]? = some o.items[i]?
  made : v.made = o.made
  destroyed : v.destructions.map Prod.fst = o.destroyed
  /-- No destructor is called while an element is reachable at two indices. -/
  once : ∀ d ∈ v.destructions, d.2.Nodup
  allocated : v.array.length = v.capacity
  le : v.size ≤ v.capacity

/-- The capacities that the vector may have once it has reached the sizes. -/
def Capacities (reached : List ℕ) : Set ℕ :=
  {c | (∃ k, c = 2 ^ k) ∧ INITIAL_CAPACITY ≤ c ∧ ∀ n ∈ reached, n ≤ c}

theorem rep_create : Rep (vector_create : vector α) .empty where
  size := rfl
  slots i hi := absurd hi (Nat.not_lt_zero i)
  made := rfl
  destroyed := rfl
  once _ hd := absurd hd List.not_mem_nil
  allocated := List.length_replicate
  le := Nat.zero_le _

theorem capacity_create : IsLeast (Capacities []) (vector_create : vector α).capacity :=
  ⟨⟨⟨3, rfl⟩, le_rfl, fun _ hn => absurd hn List.not_mem_nil⟩, fun _ hc => hc.2.1⟩

/-! ### Capacities -/

theorem doubling_spec {rounds k : ℕ} (htarget : target ≤ 2 ^ 63) (hk : k ≤ Nat.clog 2 target)
    (hrounds : Nat.clog 2 target < k + rounds) :
    doubling rounds (2 ^ k) target = some (2 ^ Nat.clog 2 target) := by
  induction rounds generalizing k with
  | zero => omega
  | succ rounds ih =>
    rw [doubling]
    by_cases hlt : 2 ^ k < target
    · -- one more doubling, which does not wrap
      have hlog : k < Nat.clog 2 target := (Nat.lt_clog_iff_pow_lt Nat.one_lt_two).mpr hlt
      have hlog' : Nat.clog 2 target ≤ 63 := (Nat.clog_le_iff_le_pow Nat.one_lt_two).mpr htarget
      have hpow : 2 ^ (k + 1) < 2 ^ 64 := Nat.pow_lt_pow_right Nat.one_lt_two (by omega)
      rw [if_pos hlt, GROWTH_FACTOR, ← pow_succ, Nat.mod_eq_of_lt hpow]
      exact ih hlog (by omega)
    · have hlog : Nat.clog 2 target ≤ k :=
        (Nat.clog_le_iff_le_pow Nat.one_lt_two).mpr (not_lt.mp hlt)
      rw [if_neg hlt, le_antisymm hk hlog]

/-- **`get_new_capacity`** -/
theorem get_new_capacity_spec (htarget : target ≤ 2 ^ 63) :
    get_new_capacity target = some (2 ^ Nat.clog 2 target) := by
  have hlog : Nat.clog 2 target ≤ 63 := (Nat.clog_le_iff_le_pow Nat.one_lt_two).mpr htarget
  exact doubling_spec (k := 0) htarget (Nat.zero_le _) (by omega)

theorem length_array_realloc (v : vector α) (new_capacity : ℕ) :
    (v.realloc new_capacity).array.length = new_capacity * 8 % 2 ^ 64 / 8 := by
  rw [vector.realloc, List.length_take, List.length_append, List.length_replicate]
  omega

theorem reallocate_of_lt (hlt : v.capacity < target) (htarget : target ≤ 2 ^ 63) :
    v.reallocate target = some (v.realloc (2 ^ Nat.clog 2 target)) := by
  rw [vector.reallocate, if_pos hlt, get_new_capacity_spec htarget]
  rfl

/-- **A reallocation** keeps the slots, and takes the least capacity that will do. -/
theorem reallocate_spec (hallocated : v.array.length = v.capacity) (htarget : target < 2 ^ 31) :
    ∃ array capacity,
      v.reallocate target = some { v with array := array, capacity := capacity } ∧
      array.length = capacity ∧ v.capacity ≤ capacity ∧ target ≤ capacity ∧
      (∀ i < v.array.length, array[i]? = v.array[i]?) ∧
      ∀ reached, IsLeast (Capacities reached) v.capacity →
        IsLeast (Capacities (target :: reached)) capacity := by
  by_cases hlt : target > v.capacity
  · have hle : target ≤ 2 ^ Nat.clog 2 target := Nat.le_pow_clog Nat.one_lt_two target
    have hlog : Nat.clog 2 target ≤ 31 :=
      (Nat.clog_le_iff_le_pow Nat.one_lt_two).mpr htarget.le
    have hpow : 2 ^ Nat.clog 2 target ≤ 2 ^ 31 := Nat.pow_le_pow_right Nat.two_pos hlog
    have hslots : 2 ^ Nat.clog 2 target * 8 % 2 ^ 64 / 8 = 2 ^ Nat.clog 2 target := by
      rw [Nat.mod_eq_of_lt (by omega), Nat.mul_div_cancel _ (by omega)]
    refine ⟨(v.realloc (2 ^ Nat.clog 2 target)).array, 2 ^ Nat.clog 2 target,
      reallocate_of_lt hlt (by omega), (length_array_realloc v _).trans hslots, by omega, hle,
      fun i hi => ?_, fun reached hleast => ⟨?_, ?_⟩⟩
    · rw [vector.realloc, hslots, List.getElem?_take_of_lt (by omega), List.getElem?_append_left hi]
    · -- the new capacity fits what the old one did
      have hold := hleast.1
      refine ⟨⟨_, rfl⟩, by have := hold.2.1; omega, fun n hn => ?_⟩
      rcases List.mem_cons.mp hn with rfl | hn
      · exact hle
      · have := hold.2.2 n hn
        omega
    · rintro c ⟨⟨k, rfl⟩, -, hc⟩
      refine Nat.pow_le_pow_right Nat.two_pos ?_
      exact (Nat.clog_le_iff_le_pow Nat.one_lt_two).mpr (hc target List.mem_cons_self)
  · refine ⟨v.array, v.capacity, by rw [vector.reallocate, if_neg hlt], hallocated, le_rfl,
      by omega, fun _ _ => rfl, fun reached hleast => ⟨⟨hleast.1.1, hleast.1.2.1, fun n hn => ?_⟩,
      fun c hc => hleast.2 ⟨hc.1, hc.2.1, fun n hn => hc.2.2 n (List.mem_cons_of_mem _ hn)⟩⟩⟩
    rcases List.mem_cons.mp hn with rfl | hn
    · omega
    · exact hleast.1.2.2 n hn

/-- A capacity that fits a size that is no news. -/
theorem capacity_of_le (hleast : IsLeast (Capacities reached) v.capacity) (hn : n ≤ v.capacity) :
    IsLeast (Capacities (n :: reached)) v.capacity := by
  refine ⟨⟨hleast.1.1, hleast.1.2.1, fun m hm => ?_⟩,
    fun c hc => hleast.2 ⟨hc.1, hc.2.1, fun m hm => hc.2.2 m (List.mem_cons_of_mem _ hm)⟩⟩
  rcases List.mem_cons.mp hm with rfl | hm
  · exact hn
  · exact hleast.1.2.2 m hm

/-! ### The loops -/

theorem store_eq {x : Option (Object α)} (hi : i < v.array.length) :
    v.store i x = some { v with array := v.array.set i x } := if_pos hi

theorem slot_eq (h : v.array[i]? = some (some x)) : v.slot i = some x := by
  rw [vector.slot, h]
  rfl

/-- **The loop of `vector_insert`** -/
theorem shift_up_spec (position : ℕ) (hi : i < v.array.length) :
    ∃ array, shift_up position i v = some { v with array := array } ∧
      array.length = v.array.length ∧
      ∀ j, array[j]? = if position < j ∧ j ≤ i then v.array[j - 1]? else v.array[j]? := by
  induction i generalizing v with
  | zero => exact ⟨v.array, rfl, rfl, fun j => by rw [if_neg (by omega)]⟩
  | succ i ih =>
    rw [shift_up]
    by_cases hlt : position < i + 1
    · obtain ⟨array, h1, h2, h3⟩ := ih (v := { v with array := v.array.set (i + 1) v.array[i] })
        (by rw [List.length_set]; omega)
      refine ⟨array, ?_, by rw [h2, List.length_set], fun j => ?_⟩
      · rw [if_pos hlt, List.getElem?_eq_getElem (by omega)]
        dsimp only [Option.bind_eq_bind, Option.bind_some]
        rw [store_eq hi]
        exact h1
      · rw [h3]
        dsimp only
        by_cases hpos : position < j ∧ j ≤ i
        · rw [if_pos hpos, if_pos (by omega), List.getElem?_set_ne (by omega)]
        · -- the slot `i + 1` was written before the others
          rw [if_neg hpos]
          by_cases hj : j = i + 1
          · rw [hj, List.getElem?_set_self hi, if_pos (by omega), Nat.add_sub_cancel,
              List.getElem?_eq_getElem]
          · rw [List.getElem?_set_ne (by omega), if_neg (by omega)]
    · exact ⟨v.array, if_neg hlt, rfl, fun j => by rw [if_neg (by omega)]⟩

/-- **The loop of `vector_erase`** -/
theorem shift_down_spec (hi : i + n < v.array.length) :
    ∃ array, shift_down n i v = some { v with array := array } ∧
      array.length = v.array.length ∧
      ∀ j, array[j]? = if i ≤ j ∧ j < i + n then v.array[j + 1]? else v.array[j]? := by
  induction n generalizing v i with
  | zero => exact ⟨v.array, rfl, rfl, fun j => by rw [if_neg (by omega)]⟩
  | succ n ih =>
    obtain ⟨array, h1, h2, h3⟩ := ih (v := { v with array := v.array.set i v.array[i + 1] })
      (i := i + 1) (by rw [List.length_set]; omega)
    refine ⟨array, ?_, by rw [h2, List.length_set], fun j => ?_⟩
    · rw [shift_down, List.getElem?_eq_getElem (by omega)]
      dsimp only [Option.bind_eq_bind, Option.bind_some]
      rw [store_eq (by omega)]
      exact h1
    · rw [h3]
      dsimp only
      by_cases hpos : i + 1 ≤ j ∧ j < i + 1 + n
      · rw [if_pos hpos, if_pos (by omega), List.getElem?_set_ne (by omega)]
      · rw [if_neg hpos]
        by_cases hj : j = i
        · rw [hj, List.getElem?_set_self (by omega), if_pos (by omega), List.getElem?_eq_getElem]
        · rw [List.getElem?_set_ne (by omega), if_neg (by omega)]

/-- **The loop that destroys elements** from the first on -/
theorem destroy_up_spec (xs : List (Object α))
    (hxs : ∀ k < xs.length, v.array[i + k]? = some xs[k]?) :
    destroy_up xs.length i v =
      some { v with destructions := v.destructions ++ xs.map fun x => (x, v.reachable) } := by
  induction xs generalizing i v with
  | nil => rw [List.map_nil, List.append_nil]; rfl
  | cons x xs ih =>
    have hx : v.array[i]? = some (some x) := hxs 0 (Nat.succ_pos _)
    have hrest : ∀ k < xs.length, (v.destructor x).array[i + 1 + k]? = some xs[k]? := by
      intro k hk
      have hk' := hxs (k + 1) (Nat.succ_lt_succ hk)
      rwa [List.getElem?_cons_succ, ← Nat.add_assoc, Nat.add_right_comm] at hk'
    rw [List.length_cons, destroy_up, slot_eq hx, Option.bind_eq_bind, Option.bind_some, ih hrest,
      vector.destructor, List.append_assoc]
    rfl

/-- **The loop of `vector_resize`** that destroys elements from the last on -/
theorem destroy_down_spec (xs : List (Object α)) (hlen : xs.length ≤ i + 1)
    (hxs : ∀ k < xs.length, v.array[i - k]? = some xs[k]?) :
    destroy_down xs.length i v =
      some { v with destructions := v.destructions ++ xs.map fun x => (x, v.reachable) } := by
  induction xs generalizing i v with
  | nil => rw [List.map_nil, List.append_nil]; rfl
  | cons x xs ih =>
    have hx : v.array[i]? = some (some x) := hxs 0 (Nat.succ_pos _)
    rw [List.length_cons, destroy_down, if_pos (by omega), Int.toNat_natCast, slot_eq hx,
      Option.bind_eq_bind, Option.bind_some]
    cases xs with
    | nil => rfl
    | cons y xs =>
      -- there is a slot below
      rw [List.length_cons, List.length_cons] at hlen
      have hrest : ∀ k < (y :: xs).length, (v.destructor x).array[i - 1 - k]? = some (y :: xs)[k]? := by
        intro k hk
        have hk' := hxs (k + 1) (Nat.succ_lt_succ hk)
        rwa [List.getElem?_cons_succ, Nat.add_comm, ← Nat.sub_sub] at hk'
      dsimp only
      rw [show (i : ℤ) - 1 = (i - 1 : ℕ) by omega, ih (by rw [List.length_cons]; omega) hrest,
        vector.destructor, List.append_assoc]
      rfl

/-- **The loop of `vector_resize`** that makes new elements -/
theorem fill_spec (default_constructor : α) (hi : i + n ≤ v.array.length) :
    ∃ array, fill default_constructor n i v =
        some { v with array := array, made := v.made ++ List.replicate n default_constructor } ∧
      array.length = v.array.length ∧
      ∀ j, array[j]? = if i ≤ j ∧ j < i + n then
        some (some (default_constructor, v.made.length + (j - i))) else v.array[j]? := by
  induction n generalizing v i with
  | zero =>
    refine ⟨v.array, ?_, rfl, fun j => by rw [if_neg (by omega)]⟩
    rw [List.replicate_zero, List.append_nil]
    rfl
  | succ n ih =>
    obtain ⟨array, h1, h2, h3⟩ := ih (v := { v with
      array := v.array.set i (some (default_constructor, v.made.length)),
      made := v.made ++ [default_constructor] }) (i := i + 1) (by rw [List.length_set]; omega)
    refine ⟨array, ?_, by rw [h2, List.length_set], fun j => ?_⟩
    · rw [fill, vector.constructed]
      dsimp only
      rw [store_eq]
      · rw [Option.bind_eq_bind, Option.bind_some, h1, List.append_assoc, List.singleton_append,
          List.replicate_succ]
      · show i < v.array.length
        omega
    · rw [h3]
      dsimp only
      by_cases hpos : i + 1 ≤ j ∧ j < i + 1 + n
      · rw [if_pos hpos, if_pos (by omega), List.length_append, List.length_singleton,
          show v.made.length + 1 + (j - (i + 1)) = v.made.length + (j - i) by omega]
      · rw [if_neg hpos]
        by_cases hj : j = i
        · rw [hj, List.getElem?_set_self (by omega), if_pos (by omega), Nat.sub_self, Nat.add_zero]
        · rw [List.getElem?_set_ne (by omega), if_neg (by omega)]

/-! ### The functions -/

/-- What is reachable below an index are the elements. -/
theorem Rep.reachable_take (h : Rep v o) (hn : n ≤ v.size) :
    ({ v with size := n } : vector α).reachable = o.items.take n := by
  have hallocated := h.allocated
  have hle := h.le
  have hsize := h.size
  have htake : v.array.take n = (o.items.take n).map some := by
    refine List.ext_getElem? fun i => ?_
    by_cases hi : i < n
    · rw [List.getElem?_take_of_lt hi, h.slots i (by omega), List.getElem?_map,
        List.getElem?_take_of_lt hi, List.getElem?_eq_getElem (by omega)]
      rfl
    · rw [List.getElem?_eq_none (by rw [List.length_take]; omega),
        List.getElem?_eq_none (by rw [List.length_map, List.length_take]; omega)]
  rw [vector.reachable, htake, List.reduceOption, List.filterMap_map]
  exact List.filterMap_some

theorem Rep.reachable (h : Rep v o) : v.reachable = o.items := by
  have htake := h.reachable_take le_rfl
  rwa [h.size, List.take_length, ← h.size] at htake

/-- The record of destructor calls made while the elements are reachable. -/
theorem Rep.once_append (h : Rep v o) (gone : List (Object α)) :
    ∀ d ∈ v.destructions ++ gone.map (fun x => (x, v.reachable)), d.2.Nodup := by
  intro d hd
  rcases List.mem_append.mp hd with hd | hd
  · exact h.once d hd
  · obtain ⟨x, -, rfl⟩ := List.mem_map.mp hd
    rw [h.reachable]
    exact o.nodup_items

theorem Rep.destroyed_append (h : Rep v o) (gone : List (Object α)) :
    (v.destructions ++ gone.map (fun x => (x, v.reachable))).map Prod.fst = o.destroyed ++ gone := by
  rw [List.map_append, h.destroyed, List.map_map]
  exact congrArg _ (List.map_id gone)

/-- A capacity that fits every size so far and a new one. -/
def Follows (n : ℕ) (v v' : vector α) : Prop :=
  ∀ reached, IsLeast (Capacities reached) v.capacity →
    IsLeast (Capacities (n :: reached)) v'.capacity

theorem Rep.reserve (h : Rep v o) (hn : n < 2 ^ 31) :
    ∃ v', vector_reserve v n = some v' ∧ Rep v' o ∧ Follows n v v' := by
  obtain ⟨array, capacity, hrun, hlen, hle, -, hslots, hleast⟩ := reallocate_spec h.allocated hn
  have hallocated := h.allocated
  have hsize := h.size
  have hfits := h.le
  refine ⟨_, hrun, ⟨h.size, fun i hi => ?_, h.made, h.destroyed, h.once, hlen, hfits.trans hle⟩,
    hleast⟩
  rw [hslots i (by omega), h.slots i hi]

theorem Rep.push_back (h : Rep v o) (hn : v.size + 1 < 2 ^ 31) :
    ∃ v', vector_push_back copy_constructor v element = some v' ∧
      Rep v' (o.grow [copy_constructor element]) ∧ Follows (v.size + 1) v v' := by
  obtain ⟨array, capacity, hrun, hlen, hle, htarget, hslots, hleast⟩ :=
    reallocate_spec (v := { v with size := v.size + 1 }) h.allocated hn
  have hallocated := h.allocated
  have hsize := h.size
  have hfits := h.le
  have hmade := h.made
  refine ⟨{ v with
    array := array.set v.size (some (copy_constructor element, v.made.length)),
    size := v.size + 1, capacity := capacity, made := v.made ++ [copy_constructor element] },
    ?_, ⟨?_, fun i hi => ?_, ?_, h.destroyed, h.once, ?_, htarget⟩, hleast⟩
  · rw [vector_push_back, hrun, Option.bind_eq_bind, Option.bind_some, vector.constructed]
    dsimp only
    rw [store_eq]
    · rfl
    · show v.size + 1 - 1 < array.length
      omega
  · show v.size + 1 = (o.items ++ [(copy_constructor element, o.made.length)]).length
    rw [List.length_append, List.length_singleton, hsize]
  · show _ = some ((o.items ++ [(copy_constructor element, o.made.length)])[i]?)
    dsimp only at hslots ⊢
    by_cases hlast : i = o.items.length
    · rw [hlast, hsize, List.getElem?_set_self (by omega), List.getElem?_concat_length, hmade]
    · have hi' : i < o.items.length + 1 := by
        rw [← List.length_singleton (a := (copy_constructor element, o.made.length)),
          ← List.length_append]
        exact hi
      rw [List.getElem?_set_ne (by omega), hslots i (by omega), h.slots i (by omega),
        List.getElem?_append_left (by omega)]
  · show v.made ++ _ = o.made ++ _
    rw [hmade]
  · rw [List.length_set]
    exact hlen

theorem Rep.insert (h : Rep v o) (copy_constructor : α → α) (element : α)
    (hpos : position ≤ o.items.length) (hn : v.size + 1 < 2 ^ 31) :
    ∃ v', vector_insert copy_constructor v position element = some v' ∧
      Rep v' (o.insert position (copy_constructor element) hpos) ∧ Follows (v.size + 1) v v' := by
  obtain ⟨array, capacity, hrun, hlen, hle, htarget, hslots, hleast⟩ :=
    reallocate_spec (v := { v with size := v.size + 1 }) h.allocated hn
  obtain ⟨array', hshift, hlen', hslots'⟩ := shift_up_spec position (i := v.size)
    (v := { v with array := array, size := v.size + 1, capacity := capacity })
    (show v.size < array.length by omega)
  have hallocated := h.allocated
  have hsize := h.size
  have hfits := h.le
  have hmade := h.made
  dsimp only at hslots hlen' hslots'
  refine ⟨{ v with
    array := array'.set position (some (copy_constructor element, v.made.length)),
    size := v.size + 1, capacity := capacity, made := v.made ++ [copy_constructor element] },
    ?_, ⟨?_, fun i hi => ?_, ?_, h.destroyed, h.once, ?_, htarget⟩, hleast⟩
  · rw [vector_insert, hrun, Option.bind_eq_bind, Option.bind_some, Nat.add_sub_cancel, hshift,
      Option.bind_some, vector.constructed]
    dsimp only
    rw [store_eq]
    show position < array'.length
    omega
  · show v.size + 1 = (o.items.insertIdx position _).length
    rw [List.length_insertIdx_of_le_length hpos, hsize]
  · show _ = some ((o.items.insertIdx position (copy_constructor element, o.made.length))[i]?)
    have hi' : i < o.items.length + 1 := by
      rw [← List.length_insertIdx_of_le_length hpos (copy_constructor element, o.made.length)]
      exact hi
    dsimp only
    rcases lt_trichotomy i position with hlt | rfl | hgt
    · rw [List.getElem?_set_ne (by omega), hslots', if_neg (by omega), hslots i (by omega),
        h.slots i (by omega), List.getElem?_insertIdx_of_lt hlt]
    · rw [List.getElem?_set_self (by omega), List.getElem?_insertIdx_self, if_pos hpos, hmade]
    · -- moved up by one
      rw [List.getElem?_set_ne (by omega), hslots', if_pos (by omega), hslots (i - 1) (by omega),
        h.slots (i - 1) (by omega), List.getElem?_insertIdx_of_gt hgt]
  · show v.made ++ _ = o.made ++ _
    rw [hmade]
  · rw [List.length_set]
    exact hlen'.trans hlen

theorem Rep.erase (h : Rep v o) (hpos : position < o.items.length) :
    ∃ v', vector_erase v position = some v' ∧ Rep v' (o.erase position hpos) ∧
      v'.capacity = v.capacity := by
  have hallocated := h.allocated
  have hsize := h.size
  have hfits := h.le
  have hslot : v.slot position = some o.items[position] := by
    apply slot_eq
    rw [h.slots position hpos, List.getElem?_eq_getElem hpos]
  obtain ⟨array, hshift, hlen, hslots⟩ := shift_down_spec (v := v.destructor o.items[position])
    (n := v.size - 1 - position) (i := position) (show _ < v.array.length by omega)
  dsimp only [vector.destructor] at hlen hslots
  refine ⟨{ v with
    array := array, size := v.size - 1,
    destructions := v.destructions ++ [o.items[position]].map fun x => (x, v.reachable) },
    ?_, ⟨?_, fun i hi => ?_, h.made, h.destroyed_append _, h.once_append _, hlen.trans hallocated,
      by dsimp only; omega⟩, rfl⟩
  · rw [vector_erase, if_pos (by omega), hslot, Option.bind_eq_bind, Option.bind_some]
    dsimp only
    rw [show (v.destructor o.items[position]).size = v.size from rfl, hshift]
    rfl
  · show v.size - 1 = (o.items.eraseIdx position).length
    rw [List.length_eraseIdx_of_lt hpos, hsize]
  · show array[i]? = some ((o.items.eraseIdx position)[i]?)
    have hi' : i < o.items.length - 1 := by
      rw [← List.length_eraseIdx_of_lt hpos]
      exact hi
    rw [hslots]
    by_cases hlt : i < position
    · rw [if_neg (by omega), h.slots i (by omega), List.getElem?_eraseIdx_of_lt hlt]
    · rw [if_pos (by omega), h.slots (i + 1) (by omega), List.getElem?_eraseIdx_of_ge (by omega)]

theorem Rep.set (h : Rep v o) (copy_constructor : α → α) (element : α)
    (hpos : position < o.items.length) :
    ∃ v', vector_set copy_constructor v position element = some v' ∧
      Rep v' (o.set position (copy_constructor element) hpos) ∧ v'.capacity = v.capacity := by
  have hallocated := h.allocated
  have hsize := h.size
  have hfits := h.le
  have hmade := h.made
  have hslot : v.slot position = some o.items[position] := by
    apply slot_eq
    rw [h.slots position hpos, List.getElem?_eq_getElem hpos]
  refine ⟨{ v with
    array := v.array.set position (some (copy_constructor element, v.made.length)),
    made := v.made ++ [copy_constructor element],
    destructions := v.destructions ++ [o.items[position]].map fun x => (x, v.reachable) },
    ?_, ⟨?_, fun i hi => ?_, ?_, h.destroyed_append _, h.once_append _, ?_, hfits⟩, rfl⟩
  · rw [vector_set, hslot, Option.bind_eq_bind, Option.bind_some]
    dsimp only [vector.destructor, vector.constructed]
    rw [store_eq]
    · rfl
    · show position < v.array.length
      omega
  · show v.size = (o.items.set position _).length
    rw [List.length_set, hsize]
  · show (v.array.set position _)[i]? =
      some ((o.items.set position (copy_constructor element, o.made.length))[i]?)
    have hi' : i < o.items.length := by
      rw [← List.length_set]
      exact hi
    by_cases heq : i = position
    · rw [heq, List.getElem?_set_self (by omega), List.getElem?_set_self hpos, hmade]
    · rw [List.getElem?_set_ne (by omega), List.getElem?_set_ne (by omega), h.slots i hi']
  · show v.made ++ _ = o.made ++ _
    rw [hmade]
  · rw [List.length_set]
    exact hallocated

theorem Rep.pop_back (h : Rep v o) (hpos : 0 < v.size) :
    ∃ v', vector_pop_back v = some v' ∧ Rep v' (o.truncate (v.size - 1)) ∧
      v'.capacity = v.capacity := by
  have hsize := h.size
  have hfits := h.le
  have hlast : v.size - 1 < o.items.length := by omega
  have hslot : ({ v with size := v.size - 1 } : vector α).slot (v.size - 1) =
      some o.items[v.size - 1] := by
    apply slot_eq
    rw [h.slots _ hlast, List.getElem?_eq_getElem hlast]
  have hdrop : (o.items.drop (v.size - 1)).reverse = [o.items[v.size - 1]] := by
    rw [List.drop_eq_getElem_cons hlast, List.drop_of_length_le (by omega)]
    rfl
  have hreach := h.reachable_take (Nat.sub_le v.size 1)
  refine ⟨{ v with
    size := v.size - 1,
    destructions := v.destructions ++ [(o.items[v.size - 1], o.items.take (v.size - 1))] },
    ?_, ⟨?_, fun i hi => ?_, h.made, ?_, fun d hd => ?_, h.allocated, by dsimp only; omega⟩, rfl⟩
  · rw [vector_pop_back, if_neg (by omega)]
    dsimp only
    rw [hslot, Option.bind_eq_bind, Option.bind_some, vector.destructor, hreach]
    rfl
  · show v.size - 1 = (o.items.take (v.size - 1)).length
    rw [List.length_take_of_le hlast.le]
  · show v.array[i]? = some ((o.items.take (v.size - 1))[i]?)
    have hi' : i < v.size - 1 := by
      rw [← List.length_take_of_le hlast.le]
      exact hi
    rw [h.slots i (by omega), List.getElem?_take_of_lt hi']
  · show (v.destructions ++ [_]).map Prod.fst = o.destroyed ++ (o.items.drop (v.size - 1)).reverse
    rw [List.map_append, h.destroyed, hdrop]
    rfl
  · rcases List.mem_append.mp hd with hd | hd
    · exact h.once d hd
    · rw [List.mem_singleton.mp hd]
      exact o.nodup_items.sublist (List.take_sublist _ _)

/-- The elements are destroyed, the first one first. -/
theorem Rep.destroy_up (h : Rep v o) :
    destroy_up v.size 0 v =
      some { v with destructions := v.destructions ++ o.items.map fun x => (x, v.reachable) } := by
  have hall := destroy_up_spec (v := v) (i := 0) o.items fun k hk => by
    rw [Nat.zero_add, h.slots k hk]
  rwa [← h.size] at hall

theorem Rep.clear (h : Rep v o) :
    ∃ v', vector_clear v = some v' ∧ Rep v' o.clear ∧ v'.capacity = v.capacity := by
  refine ⟨{ v with
    size := 0, destructions := v.destructions ++ o.items.map fun x => (x, v.reachable) },
    ?_, ⟨rfl, fun i hi => absurd hi (Nat.not_lt_zero i), h.made, h.destroyed_append _,
      h.once_append _, h.allocated, Nat.zero_le _⟩, rfl⟩
  rw [vector_clear, h.destroy_up]
  rfl

/-- **The end of a vector.**  Every element made has been destroyed once. -/
theorem Rep.destroy (h : Rep v o) :
    ∃ v', vector_destroy v = some v' ∧ v'.made = o.made ∧
      (v'.destructions.map Prod.fst).Perm o.made.zipIdx ∧ ∀ d ∈ v'.destructions, d.2.Nodup := by
  refine ⟨{ v with
    array := [], destructions := v.destructions ++ o.items.map fun x => (x, v.reachable) },
    ?_, h.made, ?_, h.once_append _⟩
  · rw [vector_destroy, h.destroy_up]
    rfl
  · rw [h.destroyed_append]
    exact o.balanced

/-- `vector_resize` to fewer elements -/
theorem Rep.shrink (h : Rep v o) (hlt : n < v.size) (hbound : v.size < 2 ^ 31) :
    ∃ v', vector_resize default_constructor v n = some v' ∧ Rep v' (o.truncate n) ∧
      v'.capacity = v.capacity := by
  have hsize := h.size
  have hfits := h.le
  have hlen : (o.items.drop n).reverse.length = v.size - n := by
    rw [List.length_reverse, List.length_drop, hsize]
  have hdown : destroy_down (int v.size - int n).toNat (int v.size - 1) v =
      some { v with destructions :=
        v.destructions ++ (o.items.drop n).reverse.map fun x => (x, v.reachable) } := by
    rw [int_eq hbound, int_eq (by omega), show (v.size : ℤ) - 1 = (v.size - 1 : ℕ) by omega,
      show ((v.size : ℤ) - n).toNat = (o.items.drop n).reverse.length by rw [hlen]; omega]
    refine destroy_down_spec _ (by omega) fun k hk => ?_
    rw [hlen] at hk
    rw [h.slots _ (by omega), List.getElem?_reverse (by rw [List.length_drop]; omega),
      List.getElem?_drop, List.length_drop]
    congr 2
    omega
  refine ⟨{ v with
    size := n,
    destructions := v.destructions ++ (o.items.drop n).reverse.map fun x => (x, v.reachable) },
    ?_, ⟨?_, fun i hi => ?_, h.made, h.destroyed_append _, h.once_append _, h.allocated,
      by dsimp only; omega⟩, rfl⟩
  · rw [vector_resize, if_pos hlt, hdown]
    rfl
  · show n = (o.items.take n).length
    rw [List.length_take_of_le (by omega)]
  · show v.array[i]? = some ((o.items.take n)[i]?)
    have hi' : i < n := by
      rw [← List.length_take_of_le (show n ≤ o.items.length by omega)]
      exact hi
    rw [h.slots i (by omega), List.getElem?_take_of_lt hi']

/-- `vector_resize` to as many elements or more -/
theorem Rep.enlarge (h : Rep v o) (hle : v.size ≤ n) (hn : n < 2 ^ 31) :
    ∃ v', vector_resize default_constructor v n = some v' ∧
      Rep v' (o.grow (List.replicate (n - v.size) default_constructor)) ∧ Follows n v v' := by
  have hsize := h.size
  have hfits := h.le
  have hmade := h.made
  have hallocated := h.allocated
  rcases hle.eq_or_lt with heq | hlt
  · -- nothing to do
    refine ⟨v, ?_, ?_, fun reached hleast => capacity_of_le hleast (by omega)⟩
    · rw [vector_resize, if_neg (by omega), if_neg (by omega), ← heq]
      rfl
    · rw [← heq, Nat.sub_self]
      have hgrow : o.grow (List.replicate 0 default_constructor) = o := by
        rw [Owned.grow]
        congr 1 <;> exact List.append_nil _
      rw [hgrow]
      exact h
  · obtain ⟨array, capacity, hrun, hlen, hcap, htarget, hslots, hleast⟩ :=
      reallocate_spec h.allocated hn
    obtain ⟨array', hfill, hlen', hslots'⟩ := fill_spec default_constructor
      (v := { v with array := array, capacity := capacity }) (n := n - v.size) (i := v.size)
      (show _ ≤ array.length by omega)
    dsimp only at hlen' hslots'
    refine ⟨{ v with
      array := array', size := n, capacity := capacity,
      made := v.made ++ List.replicate (n - v.size) default_constructor },
      ?_, ⟨?_, fun i hi => ?_, ?_, h.destroyed, h.once, hlen'.trans hlen, htarget⟩, hleast⟩
    · rw [vector_resize, if_neg (by omega), if_pos hlt, hrun, Option.bind_eq_bind,
        Option.bind_some, hfill]
      rfl
    · show n = (o.items ++ _).length
      rw [List.length_append, List.length_zipIdx, List.length_replicate]
      omega
    · show array'[i]? = some ((o.items ++ (List.replicate _ default_constructor).zipIdx _)[i]?)
      have hi' : i < n := by
        have hlength : i < (o.items ++ (List.replicate (n - v.size) default_constructor).zipIdx
          o.made.length).length := hi
        rw [List.length_append, List.length_zipIdx, List.length_replicate] at hlength
        omega
      rw [hslots']
      by_cases hold : i < v.size
      · rw [if_neg (by omega), hslots i (by omega), h.slots i (by omega),
          List.getElem?_append_left (by omega)]
      · rw [if_pos (by omega), List.getElem?_append_right (by omega), List.getElem?_zipIdx,
          List.getElem?_replicate, if_pos (by omega), hmade, hsize]
        rfl
    · show v.made ++ _ = o.made ++ _
      rw [hmade]

end SystemProgramming.Vector
