import Mathlib.Data.List.Sort
import Mathlib.Data.Prod.Lex

namespace SystemProgramming.Lib

/-!
# Stable priority queues

A priority queue is told of an order by a comparer, a function of two elements whose sign says
which of them goes first.  Its contents are a list, and what a queue keeps sorted under a
consistent comparer is fixed by two laws: a new element goes behind every element that is not
greater, and the front element is the one taken.

* `Consistent` — the comparers whose signs are those of a linear preorder.
* `StableQueue` — a queue with its laws.
* `StableQueue.sorting` — a queue that inserts.
* `StableQueue.offer_sorted`, `pair_offer`, `front_le` — what the laws give: offering keeps the
  queue sorted, an element goes behind those not greater, and the front is a least element.
-/

variable {α β : Type*}

/-- A comparer whose signs are those of a linear preorder. -/
structure Consistent (cmp : α → α → ℤ) : Prop where
  swap : ∀ a b, cmp a b < 0 ↔ 0 < cmp b a
  trans : ∀ a b c, cmp a b ≤ 0 → cmp b c ≤ 0 → cmp a c ≤ 0

namespace Consistent

variable {cmp : α → α → ℤ}

/-- A comparer that decides a linear order on keys is consistent. -/
theorem of_key {κ : Type*} [LinearOrder κ] (key : α → κ) (hlt : ∀ a b, cmp a b < 0 ↔ key a < key b)
    (hgt : ∀ a b, 0 < cmp a b ↔ key b < key a) : Consistent cmp where
  swap a b := (hlt a b).trans (hgt b a).symm
  trans a b c hab hbc := by
    rw [← not_lt, hgt, not_lt] at hab hbc ⊢
    exact hab.trans hbc

/-- Comparing what a function reads of the elements. -/
theorem comap (h : Consistent cmp) (f : β → α) : Consistent (fun a b => cmp (f a) (f b)) where
  swap a b := h.swap (f a) (f b)
  trans a b c := h.trans (f a) (f b) (f c)

/-- What does not go first goes after or ties. -/
theorem not_lt_iff (h : Consistent cmp) (a b : α) : ¬ cmp a b < 0 ↔ cmp b a ≤ 0 := by
  rw [h.swap, not_lt]

end Consistent

/-- A priority queue: `offer` adds an element under a comparer and `poll` takes the front. -/
structure StableQueue (α : Type*) where
  offer : (α → α → ℤ) → List α → α → List α
  poll : List α → Option (α × List α)
  /-- A new element goes behind those that are not greater and before the greater ones. -/
  offer_spec : ∀ {cmp : α → α → ℤ} {q : List α} (x : α), Consistent cmp →
    q.Pairwise (fun a b => cmp a b ≤ 0) →
    ∃ q₁ q₂, q = q₁ ++ q₂ ∧ offer cmp q x = q₁ ++ x :: q₂ ∧
      (∀ y ∈ q₁, cmp y x ≤ 0) ∧ ∀ y ∈ q₂, cmp x y < 0
  poll_nil : poll [] = none
  poll_cons : ∀ x q, poll (x :: q) = some (x, q)

namespace StableQueue

/-- The queue that puts a new element in front of the first one it precedes. -/
def sorting : StableQueue α where
  offer cmp q x := q.orderedInsert (fun a b => cmp a b < 0) x
  poll
    | [] => none
    | x :: q => some (x, q)
  offer_spec := by
    intro cmp q x hcmp hq
    induction q with
    | nil => exact ⟨[], [], rfl, rfl, by simp, by simp⟩
    | cons b q ih =>
      rw [List.orderedInsert_cons]
      by_cases hxb : cmp x b < 0
      · refine ⟨[], b :: q, rfl, if_pos hxb, by simp, ?_⟩
        intro y hy
        -- the tail is not before `b`, which is after `x`
        rcases List.mem_cons.mp hy with rfl | hy
        · exact hxb
        · have hby := List.rel_of_pairwise_cons hq hy
          by_contra hxy
          have hyx := (hcmp.not_lt_iff x y).mp hxy
          exact absurd hxb ((hcmp.not_lt_iff x b).mpr (hcmp.trans b y x hby hyx))
      · obtain ⟨q₁, q₂, hq', hins, h₁, h₂⟩ := ih hq.of_cons
        refine ⟨b :: q₁, q₂, by rw [hq', List.cons_append], ?_, ?_, h₂⟩
        · rw [if_neg hxb, hins, List.cons_append]
        · intro y hy
          rcases List.mem_cons.mp hy with rfl | hy
          · exact (hcmp.not_lt_iff x y).mp hxb
          · exact h₁ y hy
  poll_nil := rfl
  poll_cons _ _ := rfl

variable (P : StableQueue α) {cmp : α → α → ℤ} {q : List α} {x : α}

/-- Only an empty queue has nothing to take. -/
theorem poll_eq_none : P.poll q = none ↔ q = [] := by
  cases q with
  | nil => simp [P.poll_nil]
  | cons y q => simp [P.poll_cons]

theorem poll_eq_some {q' : List α} : P.poll q = some (x, q') ↔ q = x :: q' := by
  cases q with
  | nil => simp [P.poll_nil]
  | cons y q => simp [P.poll_cons]

/-- The front of a sorted queue is a least element. -/
theorem front_le (hcmp : Consistent cmp) (hq : (x :: q).Pairwise (fun a b => cmp a b ≤ 0)) {y : α}
    (hy : y ∈ x :: q) : cmp x y ≤ 0 := by
  rcases List.mem_cons.mp hy with rfl | hy
  · by_contra hyy
    exact absurd ((hcmp.swap y y).mpr (not_le.mp hyy)) (by omega)
  · exact List.rel_of_pairwise_cons hq hy

variable {P} (hcmp : Consistent cmp) (hq : q.Pairwise (fun a b => cmp a b ≤ 0))
include hcmp hq

theorem offer_perm (P : StableQueue α) (x : α) : (P.offer cmp q x).Perm (x :: q) := by
  obtain ⟨q₁, q₂, rfl, hins, -, -⟩ := P.offer_spec x hcmp hq
  rw [hins]
  exact List.perm_middle

/-- The elements already there keep their order. -/
theorem sublist_offer (P : StableQueue α) (x : α) : q.Sublist (P.offer cmp q x) := by
  obtain ⟨q₁, q₂, rfl, hins, -, -⟩ := P.offer_spec x hcmp hq
  rw [hins]
  exact List.Sublist.append (List.Sublist.refl q₁) (List.sublist_cons_self x q₂)

theorem offer_sorted (P : StableQueue α) (x : α) :
    (P.offer cmp q x).Pairwise (fun a b => cmp a b ≤ 0) := by
  obtain ⟨q₁, q₂, rfl, hins, h₁, h₂⟩ := P.offer_spec x hcmp hq
  rw [hins]
  obtain ⟨hq₁, hq₂, h₁₂⟩ := List.pairwise_append.mp hq
  refine List.pairwise_append.mpr ⟨hq₁, List.pairwise_cons.mpr ⟨?_, hq₂⟩, ?_⟩
  · intro y hy
    exact (h₂ y hy).le
  · intro y hy z hz
    rcases List.mem_cons.mp hz with rfl | hz
    · exact h₁ y hy
    · exact h₁₂ y hy z hz

/-- An element goes behind those that are not greater. -/
theorem pair_offer {y : α} (hy : y ∈ q) (hyx : cmp y x ≤ 0) : [y, x].Sublist (P.offer cmp q x) := by
  obtain ⟨q₁, q₂, rfl, hins, -, h₂⟩ := P.offer_spec x hcmp hq
  rw [hins]
  have hy₁ : y ∈ q₁ := by
    refine (List.mem_append.mp hy).resolve_right fun hy₂ => ?_
    exact (hcmp.not_lt_iff x y).mpr hyx (h₂ y hy₂)
  exact List.Sublist.append (List.singleton_sublist.mpr hy₁) (List.cons_sublist_cons.mpr
    (List.nil_sublist q₂))

end StableQueue

end SystemProgramming.Lib
