import Mathlib.Algebra.Order.Ring.Nat
import Mathlib.Data.Int.DivMod
import Mathlib.Data.List.ReduceOption
import SystemProgramming.Lib.Owned

namespace SystemProgramming.Vector

open Lib

/-!
# `vector/vector.c`

The dynamic array of pointers.  A slot of the allocated memory holds a pointer that a constructor
has returned, or was never written; the number of the constructor call that goes with a pointer is
a ghost.  A function has no result where it reads a slot that was never written or steps out of the
allocated memory, where an assertion fails, and where it does not return.

The allocator does not fail.  The sizes never get near the range of `size_t`; the capacities and the
numbers of bytes are computed modulo `2 ^ 64`, and the counters that the source converts to `int`
are converted.
-/

def INITIAL_CAPACITY : ℕ := 8

def GROWTH_FACTOR : ℕ := 2

structure vector (α : Type*) where
  /-- the slots of the allocated memory; `none` was never written -/
  array : List (Option (Object α))
  size : ℕ
  capacity : ℕ
  /-- ghost: what the constructors have returned, call by call -/
  made : List α
  /-- ghost: the calls of the destructor, each with what is reachable at an index below `size`
      when it is made -/
  destructions : List (Object α × List (Object α))

variable {α : Type*}

/-! ### Memory and the user's functions -/

/-- `*(this->array + i)`, for a pointer that is used -/
def vector.slot (v : vector α) (i : ℕ) : Option (Object α) := v.array[i]?.join

/-- `*(this->array + i) = x` -/
def vector.store (v : vector α) (i : ℕ) (x : Option (Object α)) : Option (vector α) :=
  if i < v.array.length then some { v with array := v.array.set i x } else none

/-- What is reachable at an index below `size`. -/
def vector.reachable (v : vector α) : List (Object α) := (v.array.take v.size).reduceOption

/-- `this->destructor(x)` -/
def vector.destructor (v : vector α) (x : Object α) : vector α :=
  { v with destructions := v.destructions ++ [(x, v.reachable)] }

/-- A constructor returns `x`. -/
def vector.constructed (v : vector α) (x : α) : Object α × vector α :=
  ((x, v.made.length), { v with made := v.made ++ [x] })

/-- `this->array = realloc(this->array, new_capacity*sizeof(void*))`, and
    `this->capacity = new_capacity` -/
def vector.realloc (v : vector α) (new_capacity : ℕ) : vector α :=
  let slots := new_capacity * 8 % 2 ^ 64 / 8
  { v with array := (v.array ++ List.replicate slots none).take slots, capacity := new_capacity }

/-- The loop of `get_new_capacity`.  From `2 ^ 63` on the capacity becomes zero and stays so. -/
def doubling : ℕ → ℕ → ℕ → Option ℕ
  | 0, _, _ => none
  | rounds + 1, new_capacity, target =>
    if new_capacity < target then doubling rounds (new_capacity * GROWTH_FACTOR % 2 ^ 64) target
    else some new_capacity

/-- A loop that is not over after 65 rounds does not end. -/
def get_new_capacity (target : ℕ) : Option ℕ := doubling 65 1 target

/-- The reallocation for a new size, the same in four functions. -/
def vector.reallocate (v : vector α) (target : ℕ) : Option (vector α) :=
  if target > v.capacity then (get_new_capacity target).map v.realloc else some v

/-- The value of a `size_t` as an `int`. -/
def int (n : ℕ) : ℤ := (n : ℤ).bmod (2 ^ 32)

/-- A size below `2 ^ 31` is the same as an `int`. -/
theorem int_eq {n : ℕ} (hn : n < 2 ^ 31) : int n = n :=
  Int.bmod_eq_of_le (by omega) (by omega)

theorem int_le (n : ℕ) : int n ≤ n := by
  rw [show int n = (n : ℤ).bmod 4294967296 from rfl, Int.bmod_def]
  split <;> omega

theorem int_lt (n : ℕ) : int n < 2 ^ 31 := by
  have hlt : int n < ((2 ^ 32 : ℕ) + 1) / 2 := Int.bmod_lt (by decide)
  omega

/-! ### The loops -/

/-- `this->destructor(*(this->array + i))` for `n` slots from `i` up -/
def destroy_up : ℕ → ℕ → vector α → Option (vector α)
  | 0, _, v => some v
  | n + 1, i, v => do
    let x ← v.slot i
    destroy_up n (i + 1) (v.destructor x)

/-- The same for `n` slots from `i` down. -/
def destroy_down : ℕ → ℤ → vector α → Option (vector α)
  | 0, _, v => some v
  | n + 1, i, v => do
    let x ← if 0 ≤ i then v.slot i.toNat else none
    destroy_down n (i - 1) (v.destructor x)

/-- `*(this->array + i) = this->default_constructor()` for `n` slots from `i` up -/
def fill (default_constructor : α) : ℕ → ℕ → vector α → Option (vector α)
  | 0, _, v => some v
  | n + 1, i, v => do
    let (x, v) := v.constructed default_constructor
    let v ← v.store i (some x)
    fill default_constructor n (i + 1) v

/-- `*(this->array + i) = *(this->array + (i-1))` from `i` down to the slot behind `position` -/
def shift_up (position : ℕ) : ℕ → vector α → Option (vector α)
  | 0, v => some v
  | i + 1, v =>
    if position < i + 1 then do
      let x ← v.array[i]?
      let v ← v.store (i + 1) x
      shift_up position i v
    else some v

/-- `*(this->array + i) = *(this->array + i + 1)` for `n` slots from `i` up -/
def shift_down : ℕ → ℕ → vector α → Option (vector α)
  | 0, _, v => some v
  | n + 1, i, v => do
    let x ← v.array[i + 1]?
    let v ← v.store i x
    shift_down n (i + 1) v

/-! ### The functions -/

def vector_create : vector α := ⟨List.replicate INITIAL_CAPACITY none, 0, INITIAL_CAPACITY, [], []⟩

/-- The elements are destroyed; the memory is freed. -/
def vector_destroy (v : vector α) : Option (vector α) := do
  let v ← destroy_up v.size 0 v
  pure { v with array := [] }

def vector_resize (default_constructor : α) (v : vector α) (n : ℕ) : Option (vector α) := do
  let v ←
    if v.size > n then destroy_down (int v.size - int n).toNat (int v.size - 1) v
    else if v.size < n then do
      let v ← v.reallocate n
      fill default_constructor (n - v.size) v.size v
    else pure v
  pure { v with size := n }

def vector_reserve (v : vector α) (n : ℕ) : Option (vector α) := v.reallocate n

def vector_set (copy_constructor : α → α) (v : vector α) (position : ℕ) (element : α) :
    Option (vector α) := do
  let x ← v.slot position
  let v := v.destructor x
  let (x, v) := v.constructed (copy_constructor element)
  v.store position (some x)

def vector_push_back (copy_constructor : α → α) (v : vector α) (element : α) :
    Option (vector α) := do
  let v := { v with size := v.size + 1 }
  let v ← v.reallocate v.size
  let (x, v) := v.constructed (copy_constructor element)
  v.store (v.size - 1) (some x)

/-- An empty vector has the last slot of the address space before its first. -/
def vector_pop_back (v : vector α) : Option (vector α) :=
  if v.size = 0 then none
  else do
    let v := { v with size := v.size - 1 }
    let x ← v.slot v.size
    pure (v.destructor x)

def vector_insert (copy_constructor : α → α) (v : vector α) (position : ℕ) (element : α) :
    Option (vector α) := do
  let v := { v with size := v.size + 1 }
  let v ← v.reallocate v.size
  let v ← shift_up position (v.size - 1) v
  let (x, v) := v.constructed (copy_constructor element)
  v.store position (some x)

def vector_erase (v : vector α) (position : ℕ) : Option (vector α) :=
  if position < v.size then do
    let x ← v.slot position
    let v := v.destructor x
    let v ← shift_down (v.size - 1 - position) position v
    pure { v with size := v.size - 1 }
  else none

def vector_clear (v : vector α) : Option (vector α) := do
  let v ← destroy_up v.size 0 v
  pure { v with size := 0 }

end SystemProgramming.Vector
