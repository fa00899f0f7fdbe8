import Mathlib.Data.Fintype.Card

namespace SystemProgramming.Lib

/-!
# Rendezvous

Participants wait at a place until enough of them are there, and then go on together.

* `arrive` — a participant comes.
* `arrive_early`, `arrive_last` — in a rendezvous of all it waits for the others, and the last one
  takes all of them on.
-/

variable {P α : Type*} [Fintype P] [DecidableEq P] [DecidableEq α]

/-- How many are at a place. -/
def present (place : P → α) (w : α) : ℕ := (Finset.univ.filter fun p => place p = w).card

/-- `p` comes to a rendezvous of `need` at `w`; they go on to `v`. -/
def arrive (need : ℕ) (w v : α) (place : P → α) (p : P) : P → α :=
  if present place w + 1 = need then fun q => if q = p ∨ place q = w then v else place q
  else Function.update place p w

variable {need : ℕ} {w v : α} {place : P → α} {p : P}

theorem present_add_one_iff (hp : place p ≠ w) :
    present place w + 1 = Fintype.card P ↔ ∀ q, q ≠ p → place q = w := by
  have hsub : (Finset.univ.filter fun q => place q = w) ⊆ Finset.univ.erase p := by
    intro q hq
    refine Finset.mem_erase.mpr ⟨?_, Finset.mem_univ q⟩
    rintro rfl
    exact hp (Finset.mem_filter.mp hq).2
  have hcard : (Finset.univ.erase p).card + 1 = Fintype.card P :=
    Finset.card_erase_add_one (Finset.mem_univ p)
  constructor
  · intro h q hq
    have heq := Finset.eq_of_subset_of_card_le hsub (by rw [present] at h; omega)
    have hmem : q ∈ Finset.univ.erase p := Finset.mem_erase.mpr ⟨hq, Finset.mem_univ q⟩
    rw [← heq] at hmem
    exact (Finset.mem_filter.mp hmem).2
  · intro hall
    have heq : (Finset.univ.filter fun q => place q = w) = Finset.univ.erase p :=
      hsub.antisymm fun q hq =>
        Finset.mem_filter.mpr ⟨Finset.mem_univ q, hall q (Finset.ne_of_mem_erase hq)⟩
    rw [present, heq, hcard]

/-- Somebody else is still missing. -/
theorem arrive_early (hneed : need = Fintype.card P) (hp : place p ≠ w)
    (h : ∃ q, q ≠ p ∧ place q ≠ w) : arrive need w v place p = Function.update place p w := by
  obtain ⟨q, hq, hw⟩ := h
  rw [arrive, hneed, if_neg]
  exact fun hlast => hw ((present_add_one_iff hp).mp hlast q hq)

/-- The others are waiting. -/
theorem arrive_last (hneed : need = Fintype.card P) (hp : place p ≠ w)
    (h : ∀ q, q ≠ p → place q = w) : arrive need w v place p = fun _ => v := by
  rw [arrive, hneed, if_pos ((present_add_one_iff hp).mpr h)]
  funext q
  by_cases hq : q = p
  · rw [if_pos (.inl hq)]
  · rw [if_pos (.inr (h q hq))]

end SystemProgramming.Lib
