import Mathlib.Data.List.Basic
import Mathlib.Algebra.Order.Ring.Nat

namespace SystemProgramming.Lib

/-!
# Sending pieces over a non-blocking descriptor

What a sender puts on a descriptor that takes any part of what it is offered, when it offers
one piece after the other and resumes exactly where it was stopped.

* `Answer` — what a `read` or a `write` is answered; a turn is the list of the answers up to
  the next `EAGAIN`.
* `accept` — what is left of a list of pieces after a turn, and `acceptAll` after several.
* `accept_flatten` — what was taken is a prefix; `acceptAll_eq_nil` — with enough answers
  everything is.
* `chunks` — a list cut into pieces of one length.
-/

/-- The answer to a `read` or a `write`: `EINTR`, another error than `EAGAIN`, or a number of
    elements (at most what is asked for). -/
inductive Answer
  | intr
  | fail
  | bytes (k : ℕ)
  deriving DecidableEq

/-- No error, and no empty answer to a request that is not empty. -/
def Answer.Steady : Answer → Prop
  | intr => True
  | fail => False
  | bytes k => 0 < k

/-- No empty answer to a request that is not empty. -/
def Answer.Moves (a : Answer) : Prop := a ≠ .bytes 0

theorem Answer.Steady.moves {a : Answer} (h : a.Steady) : a.Moves := by
  rintro rfl
  exact absurd h (Nat.lt_irrefl 0)

/-- The answers of a turn that move something. -/
def capacity (answers : List Answer) : ℕ :=
  answers.countP (fun a => match a with | .bytes _ => true | _ => false)

@[simp] theorem capacity_nil : capacity [] = 0 := rfl

@[simp] theorem capacity_intr (as : List Answer) : capacity (.intr :: as) = capacity as := by
  simp [capacity]

@[simp] theorem capacity_fail (as : List Answer) : capacity (.fail :: as) = capacity as := by
  simp [capacity]

@[simp] theorem capacity_bytes (k : ℕ) (as : List Answer) :
    capacity (.bytes k :: as) = capacity as + 1 := by
  simp [capacity]

variable {α : Type*} {ps : List (List α)} {p : List α} {as : List Answer}

/-- What is left of the pieces after the answers of a turn.  No answer takes from two
    pieces. -/
def accept : List Answer → List (List α) → List (List α)
  | [], ps => ps
  | _ :: _, [] => []
  | .bytes k :: as, p :: ps => if k < p.length then accept as (p.drop k :: ps) else accept as ps
  | _ :: as, p :: ps => accept as (p :: ps)

@[simp] theorem accept_nil (as : List Answer) : accept as ([] : List (List α)) = [] := by
  cases as <;> rfl

@[simp] theorem accept_intr : accept (.intr :: as) ps = accept as ps := by
  cases ps with
  | nil => simp
  | cons p ps => rfl

theorem accept_bytes (k : ℕ) : accept (.bytes k :: as) (p :: ps) =
    if k < p.length then accept as (p.drop k :: ps) else accept as ps := rfl

/-- **A prefix is taken.** -/
theorem accept_flatten (as : List Answer) (ps : List (List α)) :
    ∃ taken, ps.flatten = taken ++ (accept as ps).flatten := by
  induction as generalizing ps with
  | nil => exact ⟨[], rfl⟩
  | cons a as ih =>
    match a, ps with
    | _, [] => exact ⟨[], by simp⟩
    | .bytes k, p :: ps =>
      rw [accept_bytes]
      split
      · obtain ⟨taken, h⟩ := ih (p.drop k :: ps)
        refine ⟨p.take k ++ taken, ?_⟩
        rw [List.append_assoc, ← h, List.flatten_cons, List.flatten_cons, ← List.append_assoc,
          List.take_append_drop]
      · obtain ⟨taken, h⟩ := ih ps
        exact ⟨p ++ taken, by rw [List.append_assoc, ← h, List.flatten_cons]⟩
    | .intr, p :: ps => exact ih (p :: ps)
    | .fail, p :: ps => exact ih (p :: ps)

/-- Every answer that moves something takes at least one element, until nothing is left. -/
theorem accept_length (has : ∀ a ∈ as, a.Steady) (hps : ∀ p ∈ ps, p ≠ []) :
    accept as ps = [] ∨ (accept as ps).flatten.length + capacity as ≤ ps.flatten.length := by
  induction as generalizing ps with
  | nil => exact .inr (by simp [accept])
  | cons a as ih =>
    have has' : ∀ a ∈ as, a.Steady := fun b hb => has b (List.mem_cons_of_mem a hb)
    match a, ps with
    | _, [] => exact .inl (by simp)
    | .intr, p :: ps => simpa using ih has' hps
    | .fail, p :: ps => exact (has .fail (by simp)).elim
    | .bytes k, p :: ps =>
      have hk : 0 < k := has (.bytes k) (by simp)
      rw [accept_bytes, capacity_bytes, List.flatten_cons, List.length_append]
      split
      · rename_i hlt
        -- part of the piece is taken
        have hrest : ∀ q ∈ p.drop k :: ps, q ≠ [] := by
          intro q hq
          rcases List.mem_cons.mp hq with rfl | hq
          · simpa using hlt
          · exact hps q (List.mem_cons_of_mem p hq)
        refine (ih has' hrest).imp_right (fun h => ?_)
        rw [List.flatten_cons, List.length_append, List.length_drop] at h
        omega
      · -- the whole piece is taken
        have hp : 0 < p.length := List.length_pos_iff.mpr (hps p (by simp))
        refine (ih has' (fun q hq => hps q (List.mem_cons_of_mem p hq))).imp_right (fun h => ?_)
        omega

/-- Pieces stay non-empty. -/
theorem accept_ne_nil (hps : ∀ p ∈ ps, p ≠ []) : ∀ p ∈ accept as ps, p ≠ [] := by
  induction as generalizing ps with
  | nil => exact hps
  | cons a as ih =>
    match a, ps with
    | _, [] => simp
    | .intr, p :: ps => exact ih hps
    | .fail, p :: ps => exact ih hps
    | .bytes k, p :: ps =>
      rw [accept_bytes]
      split
      · rename_i hlt
        apply ih
        intro q hq
        rcases List.mem_cons.mp hq with rfl | hq
        · simpa using hlt
        · exact hps q (List.mem_cons_of_mem p hq)
      · exact ih (fun q hq => hps q (List.mem_cons_of_mem p hq))

/-! ### Several turns -/

/-- What is left of the pieces after several turns. -/
def acceptAll (turns : List (List Answer)) (ps : List (List α)) : List (List α) :=
  turns.foldl (fun ps as => accept as ps) ps

@[simp] theorem acceptAll_nil (turns : List (List Answer)) :
    acceptAll turns ([] : List (List α)) = [] := by
  induction turns with
  | nil => rfl
  | cons as turns ih =>
    show acceptAll turns (accept as []) = []
    rw [accept_nil, ih]

/-- How much has been taken after several turns. -/
def accepted (turns : List (List Answer)) (ps : List (List α)) : ℕ :=
  ps.flatten.length - (acceptAll turns ps).flatten.length

/-- **With enough answers everything is taken.** -/
theorem acceptAll_eq_nil {turns : List (List Answer)} (has : ∀ as ∈ turns, ∀ a ∈ as, a.Steady)
    (hps : ∀ p ∈ ps, p ≠ []) (hcap : ps.flatten.length ≤ (turns.map capacity).sum) :
    acceptAll turns ps = [] := by
  induction turns generalizing ps with
  | nil =>
    have hlen : ps.flatten = [] := List.length_eq_zero_iff.mp (Nat.le_zero.mp hcap)
    -- a list of non-empty pieces with nothing in it has no pieces
    cases ps with
    | nil => rfl
    | cons p ps => exact absurd (List.append_eq_nil_iff.mp hlen).1 (hps p (by simp))
  | cons as turns ih =>
    show acceptAll turns (accept as ps) = []
    rcases accept_length (has as (by simp)) hps with h | h
    · rw [h, acceptAll_nil]
    · apply ih (fun bs hb => has bs (List.mem_cons_of_mem as hb)) (accept_ne_nil hps)
      rw [List.map_cons, List.sum_cons] at hcap
      omega

/-! ### Chunks -/

/-- A list cut into pieces of length `n + 1`; the last one may be shorter. -/
def chunks (n : ℕ) (l : List α) : List (List α) :=
  if l = [] then [] else l.take (n + 1) :: chunks n (l.drop (n + 1))
termination_by l.length
decreasing_by
  rename_i h
  have hpos := List.length_pos_iff.mpr h
  rw [List.length_drop]
  omega

@[simp] theorem chunks_nil (n : ℕ) : chunks n ([] : List α) = [] := by
  rw [chunks, if_pos rfl]

theorem chunks_of_ne_nil (n : ℕ) {l : List α} (h : l ≠ []) :
    chunks n l = l.take (n + 1) :: chunks n (l.drop (n + 1)) := by
  rw [chunks, if_neg h]

theorem flatten_chunks (n : ℕ) (l : List α) : (chunks n l).flatten = l := by
  induction hn : l.length using Nat.strong_induction_on generalizing l with
  | _ m ih =>
    by_cases h : l = []
    · simp [h]
    · have hpos := List.length_pos_iff.mpr h
      have hdrop := ih (l.drop (n + 1)).length (by rw [List.length_drop]; omega) _ rfl
      rw [chunks_of_ne_nil n h, List.flatten_cons, hdrop, List.take_append_drop]

theorem chunks_ne_nil (n : ℕ) (l : List α) : ∀ p ∈ chunks n l, p ≠ [] := by
  induction hn : l.length using Nat.strong_induction_on generalizing l with
  | _ m ih =>
    by_cases h : l = []
    · simp [h]
    · have hpos := List.length_pos_iff.mpr h
      rw [chunks_of_ne_nil n h]
      intro p hp
      rcases List.mem_cons.mp hp with rfl | hp
      · simpa using h
      · exact ih (l.drop (n + 1)).length (by rw [List.length_drop]; omega) _ rfl p hp

theorem chunks_of_le {n : ℕ} {l : List α} (h : l ≠ []) (hle : l.length ≤ n + 1) :
    chunks n l = [l] := by
  rw [chunks_of_ne_nil n h, List.take_of_length_le hle, List.drop_of_length_le hle, chunks_nil]

theorem length_chunks_le (n : ℕ) (l : List α) : ∀ p ∈ chunks n l, p.length ≤ n + 1 := by
  fun_induction chunks n l with
  | case1 => simp
  | case2 l h ih =>
    intro p hp
    rcases List.mem_cons.mp hp with rfl | hp
    · exact List.length_take_le _ _
    · exact ih p hp

/-- All pieces but the last one have the full length. -/
theorem length_of_mem_dropLast_chunks (n : ℕ) (l : List α) :
    ∀ p ∈ (chunks n l).dropLast, p.length = n + 1 := by
  fun_induction chunks n l with
  | case1 => simp
  | case2 l h ih =>
    intro p hp
    by_cases hrest : l.drop (n + 1) = []
    · rw [hrest, chunks_nil] at hp
      cases hp
    · have hne : chunks n (l.drop (n + 1)) ≠ [] := by
        rw [chunks_of_ne_nil n hrest]
        exact List.cons_ne_nil _ _
      rw [List.dropLast_cons_of_ne_nil hne] at hp
      rcases List.mem_cons.mp hp with rfl | hp
      · have hlt : n + 1 < l.length := by simpa using hrest
        exact List.length_take_of_le hlt.le
      · exact ih p hp

end SystemProgramming.Lib
