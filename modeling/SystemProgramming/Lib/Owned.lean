import Mathlib.Data.List.Enum
import Mathlib.Data.List.InsertIdx
import Mathlib.Data.List.Perm.Basic
import Mathlib.Data.List.Sigma

namespace SystemProgramming.Lib

/-!
# Lists that own their elements

A container whose elements come from a constructor and go to a destructor.  An element is known by
its constructor call, so that two equal values are still two elements.

* `Owned` — the elements, with what was constructed and what was destroyed; the two together are
  exactly the elements made, which is carried as a field.
* `Owned.insert`, `Owned.set`, `Owned.erase`, `Owned.truncate`, `Owned.grow`, `Owned.clear` — the
  operations, and `values_…` for what they do to the list of values.
* `Owned.nodup`, `Owned.not_mem_destroyed` — an element is there once, and is not destroyed.
-/

/-- A value, with the number of the constructor call that returned it. -/
abbrev Object (α : Type*) := α × ℕ

/-- The elements of a container, what the constructor has returned so far, and what the destructor
    has been called on. -/
structure Owned (α : Type*) where
  items : List (Object α)
  made : List α
  destroyed : List (Object α)
  balanced : (destroyed ++ items).Perm made.zipIdx

namespace Owned

variable {α : Type*} {o : Owned α} {pos n : ℕ} {x : α} {a : Object α}

def values (o : Owned α) : List α := o.items.map Prod.fst

/-- The next element to be made. -/
theorem zipIdx_concat (made : List α) (x : α) :
    (made ++ [x]).zipIdx = made.zipIdx ++ [(x, made.length)] := by
  rw [List.zipIdx_append, Nat.zero_add]
  rfl

/-- One more element. -/
theorem balanced_cons {items : List (Object α)} (h : items.Perm ((x, o.made.length) :: o.items)) :
    (o.destroyed ++ items).Perm (o.made ++ [x]).zipIdx := by
  rw [zipIdx_concat]
  calc (o.destroyed ++ items).Perm (o.destroyed ++ (x, o.made.length) :: o.items) :=
        h.append_left o.destroyed
    _ |>.Perm ((x, o.made.length) :: (o.destroyed ++ o.items)) := List.perm_middle
    _ |>.Perm (o.made.zipIdx ++ [(x, o.made.length)]) :=
        (o.balanced.cons _).trans (List.perm_append_singleton _ _).symm

/-- Elements that go from the container to the destructor. -/
theorem balanced_move {items gone : List (Object α)} (h : (gone ++ items).Perm o.items) :
    ((o.destroyed ++ gone) ++ items).Perm o.made.zipIdx := by
  rw [List.append_assoc]
  exact (h.append_left o.destroyed).trans o.balanced

/-! ### The operations -/

def empty : Owned α := ⟨[], [], [], .refl _⟩

/-- A new element before the position. -/
def insert (o : Owned α) (pos : ℕ) (x : α) (h : pos ≤ o.items.length) : Owned α where
  items := o.items.insertIdx pos (x, o.made.length)
  made := o.made ++ [x]
  destroyed := o.destroyed
  balanced := balanced_cons (List.perm_insertIdx _ _ h)

/-- The element at the position is destroyed. -/
def erase (o : Owned α) (pos : ℕ) (h : pos < o.items.length) : Owned α where
  items := o.items.eraseIdx pos
  made := o.made
  destroyed := o.destroyed ++ [o.items[pos]]
  balanced := balanced_move (List.getElem_cons_eraseIdx_perm h)

/-- The element at the position is destroyed and a new one put there. -/
def set (o : Owned α) (pos : ℕ) (x : α) (h : pos < o.items.length) : Owned α where
  items := o.items.set pos (x, o.made.length)
  made := o.made ++ [x]
  destroyed := o.destroyed ++ [o.items[pos]]
  balanced := by
    have hset : (o.items.set pos (x, o.made.length)).Perm
        ((x, o.made.length) :: (o.erase pos h).items) :=
      List.set_perm_cons_eraseIdx h _
    exact balanced_cons (o := o.erase pos h) hset

/-- The elements from `n` on are destroyed, the last one first. -/
def truncate (o : Owned α) (n : ℕ) : Owned α where
  items := o.items.take n
  made := o.made
  destroyed := o.destroyed ++ (o.items.drop n).reverse
  balanced := by
    refine balanced_move ?_
    calc ((o.items.drop n).reverse ++ o.items.take n).Perm (o.items.drop n ++ o.items.take n) :=
          (List.reverse_perm _).append_right _
      _ |>.Perm (o.items.take n ++ o.items.drop n) := List.perm_append_comm
      _ |>.Perm o.items := by rw [List.take_append_drop]

/-- New elements at the end. -/
def grow (o : Owned α) (xs : List α) : Owned α where
  items := o.items ++ xs.zipIdx o.made.length
  made := o.made ++ xs
  destroyed := o.destroyed
  balanced := by
    rw [List.zipIdx_append, Nat.zero_add, ← List.append_assoc]
    exact o.balanced.append_right _

/-- All elements are destroyed, the first one first. -/
def clear (o : Owned α) : Owned α where
  items := []
  made := o.made
  destroyed := o.destroyed ++ o.items
  balanced := balanced_move (by rw [List.append_nil])

/-! ### The values -/

theorem length_values (o : Owned α) : o.values.length = o.items.length := List.length_map _

@[simp] theorem values_empty : (empty : Owned α).values = [] := rfl

@[simp] theorem values_insert (h : pos ≤ o.items.length) :
    (o.insert pos x h).values = o.values.insertIdx pos x := List.map_insertIdx ..

@[simp] theorem values_erase (h : pos < o.items.length) :
    (o.erase pos h).values = o.values.eraseIdx pos := (List.eraseIdx_map ..).symm

@[simp] theorem values_set (h : pos < o.items.length) :
    (o.set pos x h).values = o.values.set pos x := List.map_set

@[simp] theorem values_truncate : (o.truncate n).values = o.values.take n := List.map_take

@[simp] theorem values_grow (xs : List α) : (o.grow xs).values = o.values ++ xs := by
  rw [values, grow, List.map_append, List.zipIdx_map_fst]
  rfl

@[simp] theorem values_clear : o.clear.values = [] := rfl

/-! ### Ownership -/

/-- An element made is there once or was destroyed once. -/
theorem nodup (o : Owned α) : (o.destroyed ++ o.items).Nodup :=
  o.balanced.nodup_iff.mpr (List.Nodup.of_map _ (List.nodup_zipIdx_map_snd o.made))

theorem nodup_items (o : Owned α) : o.items.Nodup := (List.nodup_append.mp o.nodup).2.1

theorem not_mem_destroyed (ha : a ∈ o.items) : a ∉ o.destroyed :=
  fun hd => (List.nodup_append.mp o.nodup).2.2 a hd a ha rfl

end Owned

end SystemProgramming.Lib
