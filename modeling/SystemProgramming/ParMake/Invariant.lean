import Mathlib.Algebra.BigOperators.Fin
import SystemProgramming.ParMake.System

namespace SystemProgramming.ParMake

open SystemProgramming.Lib

/-!
# The invariant of the threads

`Inv` ties the counters, the two queues, the states and the threads' positions to what has
happened (`St.trace`).  The three facts that carry it:

* `places` — a rule that was pushed is in one place only: in `jobs`, with a worker, in
  `checked`, with the main thread, or taken;
* `satisfied` — the counter of a rule counts its dependencies taken with state 0;
* `blocked` — a rule whose state the main thread has set to -1 has a dependency taken with
  state -1, so its counter never reaches its bound.

`Inv.step` is proved field by field, from `step_cases`.
-/

variable {V : Type*} [DecidableEq V] {n : ℕ}

/-! ### Where a rule is -/

/-- The rule of a worker that has not set its state yet. -/
def Worker.busy : Worker V → Option V
  | checking r => some r
  | running r _ => some r
  | setting r _ => some r
  | _ => none

/-- The rule of a worker that has seen none of its commands fail. -/
def Worker.clean : Worker V → Option V
  | checking r => some r
  | running r _ => some r
  | setting r st => if st = 0 then some r else none
  | _ => none

/-- The workers that have the rule in hand. -/
def inWork (s : St V n) (r : V) : ℕ := ∑ i, if (s.workers i).job = some r then 1 else 0

/-- The main thread is out of its loop. -/
def Main.out : Main V → Prop
  | broke => True
  | joining _ => True
  | returned => True
  | _ => False

instance : (m : Main V) → Decidable m.out
  | .broke => inferInstanceAs (Decidable True)
  | .joining _ => inferInstanceAs (Decidable True)
  | .returned => inferInstanceAs (Decidable True)
  | .pulling => inferInstanceAs (Decidable False)
  | .pulled _ => inferInstanceAs (Decidable False)
  | .failing _ _ => inferInstanceAs (Decidable False)
  | .reporting _ _ _ => inferInstanceAs (Decidable False)
  | .counting _ _ => inferInstanceAs (Decidable False)

/-- The main thread has the rule in hand, or has left its loop on it. -/
def inHand (mk : Makefile V) (s : St V n) (r : V) : ℕ :=
  if s.main = .pulled r ∨ s.main.out ∧ r = mk.sentinel then 1 else 0

/-- In how many places the rule is. -/
def places (mk : Makefile V) (s : St V n) (r : V) : ℕ :=
  s.jobs.count (some r) + inWork s r + s.checked.count r + inHand mk s r +
    s.trace.count (.take r 0) + s.trace.count (.take r (-1))

/-- The parents that the main thread has yet to count for. -/
def pending (s : St V n) (p : V) : ℕ :=
  match s.main with
  | .counting _ ps => if p ∈ ps then 1 else 0
  | _ => 0

/-! ### What happens in order -/

/-- What must have happened before an event. -/
def Event.After (mk : Makefile V) (tr : List (Event V)) : Event V → Prop
  | start r => ∀ d ∈ mk.graph.neighbors r, .finish d 0 ∈ tr
  | cmd r _ _ => .start r ∈ tr ∧ ∀ j, .cmd r j false ∉ tr
  | finish r _ => .start r ∈ tr
  | _ => True

/-- Every event of the trace came after what it needs. -/
def Justified (mk : Makefile V) : List (Event V) → Prop
  | [] => True
  | e :: tr => e.After mk tr ∧ Justified mk tr

theorem Justified.after {mk : Makefile V} {post pre : List (Event V)} {e : Event V}
    (h : Justified mk (post ++ e :: pre)) : e.After mk pre := by
  induction post with
  | nil => exact h.1
  | cons _ post ih => exact ih h.2

/-- The invariant. -/
structure Inv (mk : Makefile V) (s : St V n) : Prop where
  /-- a rule is pushed when its counter has reached its bound -/
  pushed : ∀ p, .push p ∈ s.trace ↔
    p ∈ mk.graph.vertices ∧ (mk.graph.neighbors p).length ≤ s.satisfied p
  /-- the counter counts the dependencies taken with state 0 -/
  satisfied : ∀ p, s.satisfied p + pending s p =
    (mk.graph.neighbors p).countP (fun d => .take d 0 ∈ s.trace)
  counting : ∀ t ps, s.main = .counting t ps →
    ps.Nodup ∧ .take t 0 ∈ s.trace ∧ ∀ p ∈ ps, t ∈ mk.graph.neighbors p
  failing : ∀ t ps, s.main = .failing t ps →
    .take t (-1) ∈ s.trace ∧ ∀ p ∈ ps, t ∈ mk.graph.neighbors p
  reporting : ∀ t p ps, s.main = .reporting t p ps →
    .take t (-1) ∈ s.trace ∧ (∀ q ∈ p :: ps, t ∈ mk.graph.neighbors q) ∧ s.state p = -1
  /-- a rule that was pushed is in one place -/
  places : ∀ r, .push r ∈ s.trace → places mk s r = 1
  unpushed : ∀ r, .push r ∉ s.trace → s.jobs.count (some r) = 0 ∧ inWork s r = 0 ∧
    .start r ∉ s.trace ∧ ∀ st, .finish r st ∉ s.trace
  finish : ∀ r st, .finish r st ∈ s.trace → s.state r = st
  taken : ∀ r st, .take r st ∈ s.trace → s.state r = st
  takes : ∀ r st, .take r st ∈ s.trace → st = 0 ∨ st = -1
  zero : ∀ r, s.state r = 0 → .finish r 0 ∈ s.trace
  minus : ∀ r, .push r ∈ s.trace → s.state r = -1 → .finish r (-1) ∈ s.trace
  poisoned : ∀ r, .push r ∉ s.trace → r ∈ s.checked ∨ s.main = .pulled r → s.state r = -1
  blocked : ∀ r, .push r ∉ s.trace → s.state r = -1 →
    ∃ c ∈ mk.graph.neighbors r, .take c (-1) ∈ s.trace
  settled : ∀ r, (r ∈ s.checked ∨ s.main = .pulled r ∨ ∃ i, s.workers i = .pushing r) →
    s.state r = 0 ∨ s.state r = -1
  setting : ∀ i r st, s.workers i = .setting r st → st = 0 ∨ st = -1
  starts : ∀ r, s.jobs.count (some r) + s.trace.count (.start r) = s.trace.count (.push r)
  once : ∀ r, s.trace.count (.push r) ≤ 1
  busy : ∀ i r, (s.workers i).busy = some r → .start r ∈ s.trace ∧ ∀ st, .finish r st ∉ s.trace
  clean : ∀ i r, (s.workers i).clean = some r → ∀ j, .cmd r j false ∉ s.trace
  ran : ∀ r j ok, .cmd r j ok ∈ s.trace → .start r ∈ s.trace
  failed : ∀ r j, .cmd r j false ∈ s.trace → .finish r 0 ∉ s.trace
  broken : ∀ i r, s.workers i = .setting r (-1) → ∃ j, .cmd r j false ∈ s.trace
  finishFail : ∀ r, .finish r (-1) ∈ s.trace → ∃ j, .cmd r j false ∈ s.trace
  justified : Justified mk s.trace

variable {mk : Makefile V} {s s' : St V n} {l : Label n} {r p t d : V} {i : Fin n}

/-! ### Counting workers -/

theorem Worker.job_of_busy {V : Type*} {r : V} {w : Worker V} (h : w.busy = some r) :
    w.job = some r := by
  cases w <;> simp_all [busy, job]

theorem Worker.busy_of_clean {V : Type*} {r : V} {w : Worker V} (h : w.clean = some r) :
    w.busy = some r := by
  cases w with
  | setting q st =>
    simp only [clean] at h
    split at h
    · exact h
    · cases h
  | _ => exact h

omit [DecidableEq V] in
/-- One worker moves: a sum over the workers changes by what it had and what it has. -/
theorem sum_update (f : Worker V → ℕ) (ws : Fin n → Worker V) (i : Fin n) (w : Worker V) :
    ∑ j, f (Function.update ws i w j) + f (ws i) = ∑ j, f (ws j) + f w := by
  have h1 := Finset.add_sum_erase Finset.univ (fun j => f (Function.update ws i w j))
    (Finset.mem_univ i)
  have h2 := Finset.add_sum_erase Finset.univ (fun j => f (ws j)) (Finset.mem_univ i)
  have h3 : ∑ j ∈ Finset.univ.erase i, f (Function.update ws i w j) =
      ∑ j ∈ Finset.univ.erase i, f (ws j) := by
    refine Finset.sum_congr rfl (fun j hj => ?_)
    rw [Function.update_of_ne (Finset.ne_of_mem_erase hj)]
  rw [Function.update_self] at h1
  rw [← h1, ← h2, h3]
  omega

theorem inWork_update (w : Worker V) (r : V) :
    (∑ j, if ((Function.update s.workers i w) j).job = some r then 1 else 0) +
        (if (s.workers i).job = some r then 1 else 0) =
      inWork s r + if w.job = some r then 1 else 0 :=
  sum_update (fun w => if w.job = some r then 1 else 0) s.workers i w

theorem inWork_pos (h : (s.workers i).job = some r) : 1 ≤ inWork s r := by
  have h1 := Finset.add_sum_erase Finset.univ
    (fun j => if (s.workers j).job = some r then 1 else 0) (Finset.mem_univ i)
  rw [if_pos h] at h1
  rw [inWork, ← h1]
  omega

/-- Two workers with the same rule count twice. -/
theorem two_le_inWork {j : Fin n} (hij : i ≠ j) (hi : (s.workers i).job = some r)
    (hj : (s.workers j).job = some r) : 2 ≤ inWork s r := by
  have h := Finset.add_sum_erase Finset.univ
    (fun k => if (s.workers k).job = some r then 1 else 0) (Finset.mem_univ i)
  have h' := Finset.add_sum_erase (Finset.univ.erase i)
    (fun k => if (s.workers k).job = some r then 1 else 0)
    (Finset.mem_erase.mpr ⟨hij.symm, Finset.mem_univ j⟩)
  rw [if_pos hi] at h
  rw [if_pos hj] at h'
  rw [inWork, ← h, ← h']
  omega

/-- One more value counted. -/
theorem countP_insert {l : List V} {P Q : V → Bool} (hl : l.Nodup) (hr : P r = false)
    (hQ : ∀ d, Q d = (decide (d = r) || P d)) :
    l.countP Q = l.countP P + if r ∈ l then 1 else 0 := by
  induction l with
  | nil => rfl
  | cons a l ih =>
    obtain ⟨ha, hl⟩ := List.nodup_cons.mp hl
    rw [List.countP_cons, List.countP_cons, ih hl, hQ]
    by_cases har : a = r
    · subst har
      simp [hr, ha]
    · have hra : r ≠ a := fun hc => har hc.symm
      simp only [har, decide_false, Bool.false_or, List.mem_cons, hra, false_or]
      omega

/-! ### Facts that the invariant gives -/

namespace Inv

/-- A rule that failed and one that succeeded are different rules. -/
theorem take_exclusive (hI : Inv mk s) (h0 : .take r 0 ∈ s.trace) (h1 : .take r (-1) ∈ s.trace) :
    False := by
  have hsame := (hI.taken r 0 h0).symm.trans (hI.taken r (-1) h1)
  omega

theorem push_of_finish (hI : Inv mk s) {st : ℤ} (h : .finish r st ∈ s.trace) :
    .push r ∈ s.trace := by
  by_contra hc
  exact (hI.unpushed r hc).2.2.2 st h

theorem push_of_start (hI : Inv mk s) (h : .start r ∈ s.trace) : .push r ∈ s.trace := by
  by_contra hc
  exact (hI.unpushed r hc).2.2.1 h

theorem push_of_job (hI : Inv mk s) (h : (s.workers i).job = some r) : .push r ∈ s.trace := by
  by_contra hc
  have hnone := (hI.unpushed r hc).2.1
  have hsome := inWork_pos h
  omega

theorem push_of_queued (hI : Inv mk s) (h : some r ∈ s.jobs) : .push r ∈ s.trace := by
  by_contra hc
  have hnone := (hI.unpushed r hc).1
  have hsome := List.count_pos_iff.mpr h
  omega

/-- The worker that has a rule in hand is the only one, and nobody else has it. -/
theorem alone (hI : Inv mk s) (h : (s.workers i).job = some r) :
    some r ∉ s.jobs ∧ r ∉ s.checked ∧ s.main ≠ .pulled r ∧ .take r 0 ∉ s.trace ∧
      .take r (-1) ∉ s.trace ∧ ∀ j, (s.workers j).job = some r → j = i := by
  have hp := hI.places r (hI.push_of_job h)
  have hw := inWork_pos h
  simp only [ParMake.places] at hp
  refine ⟨fun hc => ?_, fun hc => ?_, fun hc => ?_, fun hc => ?_, fun hc => ?_, fun j hj => ?_⟩
  · have hsome := List.count_pos_iff.mpr hc; omega
  · have hsome := List.count_pos_iff.mpr hc; omega
  · have : inHand mk s r = 1 := if_pos (.inl hc)
    omega
  · have hsome := List.count_pos_iff.mpr hc; omega
  · have hsome := List.count_pos_iff.mpr hc; omega
  · by_contra hne
    have htwo := two_le_inWork hne hj h
    omega

/-- Every dependency of a rule that was pushed was taken with state 0. -/
theorem taken_of_push (hI : Inv mk s) (h : .push r ∈ s.trace) (hd : d ∈ mk.graph.neighbors r) :
    .take d 0 ∈ s.trace := by
  have hle := ((hI.pushed r).mp h).2
  have hcount := hI.satisfied r
  have hmax := List.countP_le_length (p := fun d => .take d 0 ∈ s.trace) (l := mk.graph.neighbors r)
  have hall := List.countP_eq_length.mp
    (Nat.le_antisymm hmax (hle.trans ((Nat.le_add_right _ _).trans hcount.le)))
  exact of_decide_eq_true (hall d hd)

/-- A parent of a failed rule is never pushed. -/
theorem not_push_of_failed (hI : Inv mk s) (hd : d ∈ mk.graph.neighbors r)
    (hf : .take d (-1) ∈ s.trace) : .push r ∉ s.trace :=
  fun hp => hI.take_exclusive (hI.taken_of_push hp hd) hf

/-- A rule that the main thread has pulled and that was pushed is nowhere else. -/
theorem alone_in_hand (hI : Inv mk s) (hm : s.main = .pulled r) (hp : .push r ∈ s.trace) :
    some r ∉ s.jobs ∧ inWork s r = 0 ∧ r ∉ s.checked ∧ .take r 0 ∉ s.trace ∧
      .take r (-1) ∉ s.trace := by
  have hone := hI.places r hp
  have hh : inHand mk s r = 1 := if_pos (.inl hm)
  simp only [ParMake.places] at hone
  refine ⟨fun hc => ?_, by omega, fun hc => ?_, fun hc => ?_, fun hc => ?_⟩
  all_goals
    have hsome := List.count_pos_iff.mpr hc
    omega

/-- The rule that is about to be counted for the last time was never pushed, and has no
    place yet. -/
theorem before_push (hI : Inv mk s) {ps : List V} (hm : s.main = .counting t (p :: ps))
    (hn : s.satisfied p + 1 = (mk.graph.neighbors p).length) :
    .push p ∉ s.trace ∧ (∀ d ∈ mk.graph.neighbors p, .take d 0 ∈ s.trace) ∧ s.state p ≠ -1 ∧
      ParMake.places mk s p = 0 := by
  have hnot : .push p ∉ s.trace := by
    intro hc
    have hall := ((hI.pushed p).mp hc).2
    omega
  -- the counter is one behind the dependencies that were taken, which are all of them
  have hpend : pending s p = 1 := by simp [pending, hm]
  have hall : ∀ d ∈ mk.graph.neighbors p, .take d 0 ∈ s.trace := by
    have hc := List.countP_eq_length.mp ((hI.satisfied p).symm.trans (by rw [hpend, hn]))
    exact fun d hd => of_decide_eq_true (hc d hd)
  have hstate : s.state p ≠ -1 := by
    intro hst
    -- else one of them would have failed
    obtain ⟨c, hc, hf⟩ := hI.blocked p hnot hst
    exact hI.take_exclusive (hall c hc) hf
  obtain ⟨h1, h2, -, h4⟩ := hI.unpushed p hnot
  refine ⟨hnot, hall, hstate, ?_⟩
  -- what was neither pushed nor poisoned is nowhere
  have h5 : s.checked.count p = 0 :=
    List.count_eq_zero.mpr (fun hc => hstate (hI.poisoned p hnot (.inl hc)))
  have h6 : inHand mk s p = 0 := by simp [inHand, hm, Main.out]
  have h7 : s.trace.count (.take p 0) = 0 := by
    refine List.count_eq_zero.mpr (fun hc => ?_)
    exact h4 0 (hI.zero p (hI.taken p 0 hc))
  have h8 : s.trace.count (.take p (-1)) = 0 :=
    List.count_eq_zero.mpr (fun hc => hstate (hI.taken p (-1) hc))
  simp only [ParMake.places, h1, h2, h5, h6, h7, h8]

end Inv

end SystemProgramming.ParMake
