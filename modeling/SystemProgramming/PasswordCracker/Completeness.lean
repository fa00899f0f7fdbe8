import SystemProgramming.PasswordCracker.Search
import Mathlib.Algebra.Order.BigOperators.Group.Finset

namespace SystemProgramming.PasswordCracker

open Lib
open SystemProgramming.Vector (int int_eq)

/-!
# The password search is complete

The loop of a thread ends at `(int)t->count`, and the main thread adds up the counts of hashes in an
`int`.  As long as these numbers are `int`s the summaries are right.

* `Fits` — the condition on a step.
* `Phase.progress`, `main_lt`, `worker_lt` — no thread waits for ever, and the search ends.
* `search_complete` — runs whose steps meet the condition give the right summaries.
* `fits_of_small` — the steps of small searches meet it.
-/

/-- **The condition** on a step: a thread begins its search with a `count` that is an `int`, and
    what the main thread adds up is one. -/
def Fits {n : ℕ} (s : State n) : Option (Fin n) → Prop
  | none => s.place none = .passed .barrier2 → s.totalHash < 2 ^ 31
  | some i => s.place (some i) = .passed .barrier1 → s.stop = false → (s.jobs i).count < 2 ^ 31

variable {U : Utils} {k : ℕ} {t : Task} {n thread_count : ℕ} {s s' : State n} {i : Fin n} {j : job}
  {v : Place} {find : Bool} {all : List Task}

/-! ### No thread waits for ever -/

theorem gather_moves (hi : Gathers (s.place (some i))) (hne : s.place (some i) ≠ .waiting .barrier1) :
    ∃ s', start_routine U thread_count s i = some s' := by
  rw [start_routine]
  cases hplace : s.place (some i) with
  | call b => exact ⟨_, rfl⟩
  | waiting b =>
    rw [hplace] at hi hne
    cases b with
    | barrier1 => exact absurd rfl hne
    | barrier2 => exact hi.elim
  | passed b =>
    rw [hplace] at hi
    cases b with
    | barrier1 => exact hi.elim
    | barrier2 => exact ⟨_, rfl⟩
  | _ =>
    rw [hplace] at hi
    exact hi.elim

theorem search_moves (hU : Documented U) (ht : t.pwd.length ≤ 8)
    (hi : Searches U find t j (s.place (some i))) (hne : s.place (some i) ≠ .waiting .barrier2)
    (hstop : s.stop = false) : ∃ s', start_routine U thread_count s i = some s' := by
  rw [start_routine]
  cases hplace : s.place (some i) with
  | call b => exact ⟨_, rfl⟩
  | waiting b =>
    rw [hplace] at hi hne
    cases b with
    | barrier1 => exact hi.elim
    | barrier2 => exact absurd rfl hne
  | passed b =>
    cases b with
    | barrier1 => exact ⟨_, if_neg (by simp [hstop])⟩
    | barrier2 => exact ⟨_, rfl⟩
  | head raw k =>
    dsimp only
    split
    · exact ⟨_, rfl⟩
    · exact ⟨_, rfl⟩
  | hash raw k =>
    dsimp only
    split
    · exact ⟨_, rfl⟩
    · exact ⟨_, rfl⟩
  | found raw =>
    rw [hplace] at hi
    have hhit : Hit U t raw := hi
    exact ⟨_, if_pos (Nat.lt_succ_of_le ((hhit.1.length_eq hU).trans_le ht))⟩
  | _ =>
    rw [hplace] at hi
    exact hi.elim

/-- If the main thread waits, somebody else is on the way. -/
theorem exists_worker (hmain : s.place none = v) (h : ∃ p, s.place p ≠ v) :
    ∃ i, s.place (some i) ≠ v := by
  obtain ⟨p, hp⟩ := h
  cases p with
  | none => exact absurd hmain hp
  | some i => exact ⟨i, hp⟩

/-- **Progress.**  Until the main thread is at its end some step is possible, if it meets the
    condition. -/
theorem Phase.progress (thread_count : ℕ) (hU : Documented U)
    (hshort : ∀ t ∈ all, t.pwd.length ≤ 8) (h : Phase U all s) : s.place none = .finished ∨
      (Fits s none → ∃ s', start U thread_count s = some s') ∨
      ∃ i s', start_routine U thread_count s i = some s' := by
  cases h with
  | between hmain hworkers hstop htasks =>
    refine .inr (.inl fun _ => ?_)
    rw [start, hmain]
    dsimp only
    split
    · exact ⟨_, rfl⟩
    · exact ⟨_, rfl⟩
  | ready hmain hworkers hstop htasks hjobs hfind hmissing =>
    obtain hmain | hmain | hmain := hmain
    · exact .inr (.inl fun _ => ⟨_, by rw [start, hmain]⟩)
    · exact .inr (.inl fun _ => ⟨_, by rw [start, hmain]⟩)
    · -- the main thread waits at a barrier that some worker has not reached
      obtain ⟨i, hi⟩ := exists_worker hmain hmissing
      exact .inr (.inr ⟨i, gather_moves (hworkers i) hi⟩)
  | search hmain hstop htasks hjobs hworkers hfound hmissing =>
    have hmem : s.task ∈ all := htasks ▸ List.mem_append_right _ (List.mem_cons_self ..)
    obtain hmain | hmain | hmain := hmain
    · exact .inr (.inl fun _ => ⟨_, by rw [start, hmain]⟩)
    · exact .inr (.inl fun _ => ⟨_, by rw [start, hmain]⟩)
    · obtain ⟨i, hi⟩ := exists_worker hmain hmissing
      exact .inr (.inr ⟨i, search_moves hU (hshort _ hmem) (hworkers i) hi hstop⟩)
  | judged hmain hworkers hstop htasks hjobs hdone hfound =>
    -- the report is the one step that asks for the condition
    refine .inr (.inl fun hfits => ?_)
    rw [start, hmain]
    exact ⟨_, if_pos (hfits hmain)⟩
  | stopping hmain hworkers hstop htasks hmissing =>
    obtain hmain | hmain := hmain
    · exact .inr (.inl fun _ => ⟨_, by rw [start, hmain]⟩)
    · obtain ⟨i, hi⟩ := exists_worker hmain hmissing
      exact .inr (.inr ⟨i, gather_moves (hworkers i) hi⟩)
  | ending hmain hworkers hstop htasks hend =>
    obtain hmain | hmain | hmain := hmain
    · exact .inr (.inl fun _ => ⟨_, by rw [start, hmain]⟩)
    · by_cases hfin : ∀ i, s.place (some i) = .finished
      · refine .inr (.inl fun _ => ?_)
        rw [start, hmain]
        exact ⟨_, if_pos hfin⟩
      · push Not at hfin
        obtain ⟨i, hi⟩ := hfin
        refine .inr (.inr ⟨i, ?_⟩)
        rw [start_routine, (hworkers i).resolve_right hi]
        exact ⟨_, if_pos hstop⟩
    · exact .inl hmain

/-! ### The search comes to an end -/

/-- How far the main thread is from the end of its loop. -/
def Place.rank : Place → ℕ
  | .reset => 7
  | .call .barrier1 => 6
  | .waiting .barrier1 => 5
  | .passed .barrier1 => 4
  | .call .barrier2 => 3
  | .join => 3
  | .waiting .barrier2 => 2
  | .passed .barrier2 => 1
  | _ => 0

/-- How far a thread is from the next barrier. -/
def Place.work (count : ℕ) : Place → ℕ
  | .passed .barrier1 => 2 * count + 4
  | .head _ k => 2 * (count - k) + 3
  | .hash _ k => 2 * (count - k) + 2
  | .found _ => 2
  | .passed .barrier2 => 2
  | .call _ => 1
  | _ => 0

namespace State

def rank (s : State n) : ℕ :=
  8 * s.tasks.length + (s.place none).rank + if s.stop then 0 else 8

def work (s : State n) : ℕ := ∑ i, (s.place (some i)).work (s.jobs i).count

end State

theorem work_lt {jobs : Fin n → job} (hcount : ∀ k, (jobs k).count = (s.jobs k).count)
    (hv : v.work (s.jobs i).count < (s.place (some i)).work (s.jobs i).count) :
    { s.move (some i) v with jobs := jobs }.work < s.work := by
  have hi : ((s.move (some i) v).place (some i)).work (jobs i).count <
      (s.place (some i)).work (s.jobs i).count := by
    rw [move_self, hcount]
    exact hv
  refine Finset.sum_lt_sum (fun k _ => ?_) ⟨i, Finset.mem_univ i, hi⟩
  by_cases hk : k = i
  · rw [hk]
    exact hi.le
  · show ((s.move (some i) v).place (some k)).work (jobs k).count ≤ _
    rw [move_of_ne (by simpa using hk), hcount]

/-- A thread of the search gets closer to the next barrier, or takes all over it. -/
theorem worker_lt (hneed : (thread_count + 1) % 2 ^ 32 = Fintype.card (Option (Fin n)))
    (hhash : ∀ raw k, s.place (some i) = .hash raw k → k < (s.jobs i).count)
    (hstep : start_routine U thread_count s i = some s') :
    s'.rank < s.rank ∨ s'.rank = s.rank ∧ s'.work < s.work := by
  have hrank : ∀ v, (s.move (some i) v).rank = s.rank := by
    intro v
    rw [State.rank, State.rank, main_move]
    rfl
  rw [start_routine] at hstep
  cases hplace : s.place (some i) with
  | call b =>
    rw [hplace] at hstep
    obtain rfl := Option.some.inj hstep
    obtain ⟨-, heq⟩ | ⟨hall, heq⟩ :=
      wait_cases hneed (show s.place (some i) ≠ .waiting b by simp [hplace])
    · rw [heq]
      exact .inr ⟨hrank _, work_lt (fun _ => rfl) (by rw [hplace]; exact Nat.one_pos)⟩
    · -- the barrier opens, and the main thread gets on by it
      rw [heq, State.rank, State.rank, hall none (by simp)]
      cases b with
      | barrier1 => exact .inl (Nat.add_lt_add_right (Nat.add_lt_add_left (Nat.lt_succ_self 4) _) _)
      | barrier2 => exact .inl (Nat.add_lt_add_right (Nat.add_lt_add_left (Nat.lt_succ_self 1) _) _)
  | waiting b =>
    rw [hplace] at hstep
    cases hstep
  | passed b =>
    rw [hplace] at hstep
    cases b with
    | barrier1 =>
      dsimp only at hstep
      split at hstep
      · obtain rfl := Option.some.inj hstep
        exact .inr ⟨hrank _, work_lt (fun _ => rfl) (by rw [hplace]; exact Nat.succ_pos _)⟩
      · obtain rfl := Option.some.inj hstep
        exact .inr ⟨hrank _, work_lt (fun _ => rfl) (by rw [hplace]; exact Nat.lt_succ_self _)⟩
    | barrier2 =>
      obtain rfl := Option.some.inj hstep
      exact .inr ⟨hrank _, work_lt (fun _ => rfl) (by rw [hplace]; exact Nat.lt_succ_self 1)⟩
  | head raw k =>
    rw [hplace] at hstep
    dsimp only at hstep
    split at hstep
    · obtain rfl := Option.some.inj hstep
      exact .inr ⟨hrank _, work_lt (fun _ => rfl) (by rw [hplace]; exact Nat.lt_succ_self _)⟩
    · obtain rfl := Option.some.inj hstep
      refine .inr ⟨hrank _, work_lt (fun _ => rfl) ?_⟩
      rw [hplace]
      exact Nat.succ_lt_succ (Nat.succ_pos _)
  | hash raw k =>
    have hk := hhash raw k hplace
    have hcount : ∀ hashes strings l, (Function.update s.jobs i { s.jobs i with
        hash_count := hashes, hashed := strings } l).count = (s.jobs l).count := by
      intro hashes strings l
      by_cases hl : l = i
      · subst hl
        rw [Function.update_self]
      · rw [Function.update_of_ne hl]
    rw [hplace] at hstep
    dsimp only at hstep
    split at hstep
    · obtain rfl := Option.some.inj hstep
      refine .inr ⟨hrank _, work_lt (hcount _ _) ?_⟩
      rw [hplace, Place.work, Place.work]
      omega
    · obtain rfl := Option.some.inj hstep
      refine .inr ⟨hrank _, work_lt (hcount _ _) ?_⟩
      rw [hplace, Place.work, Place.work]
      omega
  | found raw =>
    rw [hplace] at hstep
    dsimp only at hstep
    split at hstep
    · obtain rfl := Option.some.inj hstep
      refine .inr ⟨hrank (.call .barrier2), work_lt (v := .call .barrier2) (fun _ => rfl) ?_⟩
      rw [hplace]
      exact Nat.lt_succ_self 1
    · cases hstep
  | _ =>
    rw [hplace] at hstep
    cases hstep

/-- The main thread gets closer to its end. -/
theorem main_lt (hneed : (thread_count + 1) % 2 ^ 32 = Fintype.card (Option (Fin n)))
    (hread : s.place none = .read → s.stop = false) (hstep : start U thread_count s = some s') :
    s'.rank < s.rank := by
  -- the next place is closer, as long as no line is read
  have hcloser : ∀ v, v.rank < (s.place none).rank → (s.move none v).rank < s.rank := by
    intro v hv
    rw [State.rank, State.rank, move_self]
    exact Nat.add_lt_add_right (Nat.add_lt_add_left hv _) _
  rw [start] at hstep
  cases hplace : s.place none with
  | read =>
    have hstop := hread hplace
    rw [hplace] at hstep
    dsimp only at hstep
    split at hstep
    · obtain rfl := Option.some.inj hstep
      rw [State.rank, State.rank, hplace, hstop]
      show 8 * s.tasks.length + ((s.move none (.call .barrier1)).place none).rank + 0 <
        8 * s.tasks.length + 0 + 8
      rw [move_self]
      exact Nat.add_lt_add_left (by decide : 6 < 8) _
    · -- one line less, and at most eight steps more
      rename_i task tasks hcons
      obtain rfl := Option.some.inj hstep
      rw [State.rank, State.rank, hplace, hcons]
      refine Nat.add_lt_add_right ?_ _
      show 8 * tasks.length + ((s.move none .reset).place none).rank < 8 * (tasks.length + 1) + 0
      rw [move_self]
      exact Nat.add_lt_add_left (by decide : 7 < 8) _
  | call b =>
    rw [hplace] at hstep
    obtain rfl := Option.some.inj hstep
    obtain ⟨-, heq⟩ | ⟨-, heq⟩ := wait_cases hneed (show s.place none ≠ .waiting b by simp [hplace])
    · rw [heq]
      refine hcloser _ ?_
      rw [hplace]
      cases b with
      | barrier1 => exact Nat.lt_succ_self 5
      | barrier2 => exact Nat.lt_succ_self 2
    · rw [heq, State.rank, State.rank, hplace]
      cases b with
      | barrier1 => exact Nat.add_lt_add_right (Nat.add_lt_add_left (by decide : 4 < 6) _) _
      | barrier2 => exact Nat.add_lt_add_right (Nat.add_lt_add_left (by decide : 1 < 3) _) _
  | reset =>
    rw [hplace] at hstep
    obtain rfl := Option.some.inj hstep
    exact hcloser (.call .barrier1) (by rw [hplace]; exact Nat.lt_succ_self 6)
  | passed b =>
    rw [hplace] at hstep
    cases b with
    | barrier1 =>
      obtain rfl := Option.some.inj hstep
      refine hcloser _ ?_
      rw [hplace]
      split
      · exact Nat.lt_succ_self 3
      · exact Nat.lt_succ_self 3
    | barrier2 =>
      dsimp only at hstep
      split at hstep
      · obtain rfl := Option.some.inj hstep
        exact hcloser .read (by rw [hplace]; exact Nat.lt_succ_self 0)
      · cases hstep
  | join =>
    rw [hplace] at hstep
    dsimp only at hstep
    split at hstep
    · obtain rfl := Option.some.inj hstep
      exact hcloser .finished (by rw [hplace]; exact Nat.succ_pos 2)
    · cases hstep
  | _ =>
    rw [hplace] at hstep
    cases hstep

/-! ### Runs -/

theorem created_eq (hlt : thread_count < 2 ^ 31) : created thread_count = thread_count := by
  rw [created, int_eq hlt, Int.toNat_natCast]

theorem need_eq (hlt : thread_count < 2 ^ 31) : (thread_count + 1) % 2 ^ 32 =
    Fintype.card (Option (Fin (created thread_count))) := by
  rw [Fintype.card_option, Fintype.card_fin, created_eq hlt]
  omega

/-- The invariant of the runs. -/
theorem phase_of_reach (hU : Documented U) (hpos : 0 < thread_count) (hlt : thread_count < 2 ^ 31)
    (hshort : ∀ t ∈ all, t.pwd.length ≤ 8) {s : State (created thread_count)}
    (hr : (system U thread_count all).Reach Fits s) :
    Phase U all s ∧ ∀ r ∈ s.reports, Right U r := by
  refine hr.invariant (I := fun s => Phase U all s ∧ ∀ r ∈ s.reports, Right U r) ?_ ?_
  · rintro _ rfl
    exact ⟨.between rfl (fun _ => trivial) rfl rfl, fun r hr => absurd hr List.not_mem_nil⟩
  · rintro s p s' ⟨hphase, hright⟩ hfits hstep
    cases p with
    | none =>
      have hn : 0 < created thread_count := by
        rw [created_eq hlt]
        exact hpos
      obtain ⟨hphase', heq | ⟨r, heq, hr⟩⟩ := hphase.main hU hn (created_eq hlt) hshort
        (need_eq hlt) hstep
      · exact ⟨hphase', heq ▸ hright⟩
      · refine ⟨hphase', fun r' hr' => ?_⟩
        rw [heq] at hr'
        obtain hr' | hr' := List.mem_append.mp hr'
        · exact hright r' hr'
        · exact List.mem_singleton.mp hr' ▸ hr
    | some i =>
      obtain ⟨hphase', heq⟩ := hphase.worker hU hshort (need_eq hlt) hfits hstep
      exact ⟨hphase', heq ▸ hright⟩

/-- The tasks of the summaries, while the search is going on. -/
theorem Phase.tasks_so_far (h : Phase U all s) : s.reports.map Report.task <+: all := by
  cases h with
  | between _ _ _ htasks => exact ⟨_, htasks⟩
  | ready _ _ _ htasks _ _ _ => exact ⟨_, htasks⟩
  | search _ _ htasks _ _ _ _ => exact ⟨_, htasks⟩
  | judged _ _ _ htasks _ _ _ => exact ⟨_, htasks⟩
  | stopping _ _ _ htasks _ => exact ⟨[], by rw [List.append_nil, htasks]⟩
  | ending _ _ _ htasks _ => exact ⟨[], by rw [List.append_nil, htasks]⟩

theorem Phase.tasks_finished (h : Phase U all s) (hfin : s.place none = .finished) :
    s.reports.map Report.task = all := by
  cases h with
  | ending _ _ _ htasks _ => exact htasks
  | between hmain _ _ _ => rw [hfin] at hmain; cases hmain
  | ready hmain _ _ _ _ _ _ => simp [hfin] at hmain
  | search hmain _ _ _ _ _ _ => simp [hfin] at hmain
  | judged hmain _ _ _ _ _ _ => rw [hfin] at hmain; cases hmain
  | stopping hmain _ _ _ _ => simp [hfin] at hmain

/-- Where a search thread can be. -/
theorem Phase.worker_cases (h : Phase U all s) (i : Fin n) : Gathers (s.place (some i)) ∨
    (s.task ∈ all ∧ Assigned U s.task i (s.jobs i) ∧
      Searches U s.find s.task (s.jobs i) (s.place (some i))) ∨
    s.stop = true ∧ (s.place (some i) = .passed .barrier1 ∨ s.place (some i) = .finished) := by
  cases h with
  | between _ hworkers _ _ => exact .inl (hworkers i)
  | ready _ hworkers _ _ _ _ _ => exact .inl (hworkers i)
  | search _ _ htasks hjobs hworkers _ _ =>
    exact .inr (.inl ⟨htasks ▸ List.mem_append_right _ (List.mem_cons_self ..), hjobs i, hworkers i⟩)
  | judged _ hworkers _ _ _ _ _ => exact .inl (hworkers i)
  | stopping _ hworkers _ _ _ => exact .inl (hworkers i)
  | ending _ hworkers hstop _ _ => exact .inr (.inr ⟨hstop, hworkers i⟩)

/-- A string that is to be hashed is in the range of the thread. -/
theorem Phase.hash_lt (h : Phase U all s) {raw : Str} (hplace : s.place (some i) = .hash raw k) :
    k < (s.jobs i).count := by
  have hcases := h.worker_cases i
  rw [hplace] at hcases
  obtain hgathers | ⟨-, -, hsearches⟩ | ⟨-, hend⟩ := hcases
  · exact hgathers.elim
  · exact hsearches.2.2.1
  · simp at hend

theorem Phase.read_stop (h : Phase U all s) (hplace : s.place none = .read) : s.stop = false := by
  cases h with
  | between _ _ hstop _ => exact hstop
  | ready _ _ hstop _ _ _ _ => exact hstop
  | search _ hstop _ _ _ _ _ => exact hstop
  | judged _ _ hstop _ _ _ _ => exact hstop
  | stopping hmain _ _ _ _ => simp [hplace] at hmain
  | ending hmain _ _ _ _ => simp [hplace] at hmain

/-- **The search is complete.**  In a run whose steps meet the condition the summaries are right,
    and they are for the tasks in their order; no state is stuck before the end, unless the sum is
    no `int`; and no run goes on for ever. -/
theorem search_complete (hU : Documented U) (hpos : 0 < thread_count)
    (hlt : thread_count < 2 ^ 31) {tasks : List Task} (hshort : ∀ t ∈ tasks, t.pwd.length ≤ 8)
    {s : State (created thread_count)} (hr : (system U thread_count tasks).Reach Fits s) :
    (∀ r ∈ s.reports, Right U r) ∧ s.reports.map Report.task <+: tasks ∧
    (s.place none = .finished → s.reports.map Report.task = tasks) ∧
    (s.place none = .finished ∨ ¬Fits s none ∨
      ∃ p s', (system U thread_count tasks).step s p = some s') ∧
    WellFounded fun s' s => (system U thread_count tasks).Reach Fits s ∧
      ∃ p, Fits s p ∧ (system U thread_count tasks).step s p = some s' := by
  obtain ⟨hphase, hright⟩ := phase_of_reach hU hpos hlt hshort hr
  refine ⟨hright, hphase.tasks_so_far, hphase.tasks_finished, ?_, ?_⟩
  · obtain hfin | hmain | ⟨i, s', hstep⟩ := hphase.progress thread_count hU hshort
    · exact .inl hfin
    · by_cases hfits : Fits s none
      · obtain ⟨s', hstep⟩ := hmain hfits
        exact .inr (.inr ⟨none, s', hstep⟩)
      · exact .inr (.inl hfits)
    · exact .inr (.inr ⟨some i, s', hstep⟩)
  · refine Lts.wellFounded_of_lex State.rank State.work fun s p s' hr hfits hstep => ?_
    obtain ⟨hphase, -⟩ := phase_of_reach hU hpos hlt hshort hr
    cases p with
    | none => exact .inl (main_lt (need_eq hlt) hphase.read_stop hstep)
    | some i => exact worker_lt (need_eq hlt) (fun _ _ hplace => hphase.hash_lt hplace) hstep

/-! ### Small searches -/

/-- With fewer than `2 ^ 31` strings to search all the numbers are `int`s. -/
theorem Phase.fits (hU : Documented U) (hn : 0 < n) (hshort : ∀ t ∈ all, t.pwd.length ≤ 8)
    (hsmall : ∀ t ∈ all, 26 ^ U.unknown t < 2 ^ 31) (h : Phase U all s) (p : Option (Fin n)) :
    Fits s p := by
  cases p with
  | none =>
    intro hplace
    cases h with
    | judged _ _ _ htasks hjobs _ _ =>
      have hmem : s.task ∈ all := htasks ▸ List.mem_append_right _ (List.mem_cons_self ..)
      have hranges := congrArg List.length (ranges_all hU (unknown_le (U := U) (hshort _ hmem)) hn)
      rw [List.length_range, List.length_flatMap] at hranges
      refine lt_of_le_of_lt ?_ (hranges.trans_lt (hsmall _ hmem))
      refine List.sum_le_sum fun i _ => ?_
      rw [List.length_map, List.length_range, ← (hjobs i).range]
      exact (hjobs i).le
    | between hmain _ _ _ => rw [hplace] at hmain; cases hmain
    | ready hmain _ _ _ _ _ _ => simp [hplace] at hmain
    | search hmain _ _ _ _ _ _ => simp [hplace] at hmain
    | stopping hmain _ _ _ _ => simp [hplace] at hmain
    | ending hmain _ _ _ _ => simp [hplace] at hmain
  | some i =>
    intro hplace hstop
    obtain hgathers | ⟨hmem, hassigned, -⟩ | ⟨hstop', -⟩ := h.worker_cases i
    · rw [hplace] at hgathers
      exact hgathers.elim
    · obtain h0 | hpos := Nat.eq_zero_or_pos (s.jobs i).count
      · rw [h0]
        decide
      · -- the last string of the range is in the search space
        have hlast := hassigned.lt hU (hshort _ hmem) (Nat.sub_lt hpos Nat.one_pos)
        have hsize := hsmall _ hmem
        omega
    · rw [hstop'] at hstop
      cases hstop

/-- All steps of small searches meet the condition. -/
theorem fits_of_small (hU : Documented U) (hpos : 0 < thread_count) (hlt : thread_count < 2 ^ 31)
    (hshort : ∀ t ∈ all, t.pwd.length ≤ 8) (hsmall : ∀ t ∈ all, 26 ^ U.unknown t < 2 ^ 31)
    {s : State (created thread_count)}
    (hr : (system U thread_count all).Reach (fun _ _ => True) s) :
    (system U thread_count all).Reach Fits s := by
  have hn : 0 < created thread_count := by
    rw [created_eq hlt]
    exact hpos
  induction hr with
  | init h => exact .init h
  | step _ _ hstep ih =>
    exact .step ih ((phase_of_reach hU hpos hlt hshort ih).1.fits hU hn hshort hsmall _) hstep

/-! ### Two runs -/

/-- The next string of letters, from its end. -/
def increment : Str → Str
  | [] => []
  | c :: s => if c = 122 then 97 :: increment s else (c + 1) :: s

/-- The missing functions, with ranges as even as possible and without a hash function. -/
def plain : Utils where
  getPrefixLength s := (s.takeWhile (· ≠ 46)).length
  setStringPosition s k := combination s.length k
  incrementString s := (increment s.reverse).reverse
  getSubrange u m i := (26 ^ u * (i - 1) / m, 26 ^ u * i / m - 26 ^ u * (i - 1) / m)
  crypt_r s := s

theorem incrementString_plain {u k : ℕ} (s : Str) (hk : k + 1 < 26 ^ u) :
    plain.incrementString (s ++ combination u k) = s ++ combination u (k + 1) := by
  induction u generalizing k with
  | zero => exact absurd hk (by simp)
  | succ u ih =>
    have hmod : k % 26 < 26 := Nat.mod_lt k (by decide)
    have hletter : (UInt8.ofNat (97 + k % 26)).toNat = 97 + k % 26 := letter_toNat hmod
    have hlast : plain.incrementString (s ++ combination (u + 1) k) =
        (increment (UInt8.ofNat (97 + k % 26) :: (s ++ combination u (k / 26)).reverse)).reverse := by
      rw [combination, numeral, List.map_append, ← List.append_assoc]
      show (increment (_ ++ [_]).reverse).reverse = _
      rw [List.reverse_append]
      rfl
    rw [hlast, increment]
    by_cases hz : k % 26 + 1 = 26
    · -- the carry goes to the letters in front
      have hdiv : k / 26 + 1 < 26 ^ u := by
        rw [Nat.pow_succ'] at hk
        omega
      have h122 : UInt8.ofNat (97 + k % 26) = 122 := by
        rw [show 97 + k % 26 = 122 by omega]
        rfl
      rw [if_pos h122, List.reverse_cons]
      show plain.incrementString (s ++ combination u (k / 26)) ++ [97] = _
      rw [ih hdiv, combination, combination, numeral_succ_of_carry (by decide) hz, List.map_append,
        List.append_assoc]
      rfl
    · have hne : UInt8.ofNat (97 + k % 26) ≠ 122 := by
        intro h
        have htoNat := congrArg UInt8.toNat h
        rw [hletter] at htoNat
        exact absurd htoNat (by show 97 + k % 26 ≠ 122; omega)
      have hnext : UInt8.ofNat (97 + k % 26) + 1 = UInt8.ofNat (97 + (k % 26 + 1)) := by
        rw [← Nat.add_assoc, UInt8.ofNat_add _ 1]
        rfl
      rw [if_neg hne, hnext, List.reverse_cons, List.reverse_reverse, combination, combination,
        numeral_succ_of_lt (by omega), List.map_append, List.append_assoc]
      rfl

theorem plain_documented : Documented plain where
  getPrefixLength_le s := (List.takeWhile_sublist _).length_le
  position _ _ _ _ := rfl
  increment s _ _ _ hk := incrementString_plain s hk
  subrange_first u m _ _ := by simp [plain]
  subrange_next u m i _ _ _ := by
    have hle : 26 ^ u * (i - 1) / m ≤ 26 ^ u * i / m :=
      Nat.div_le_div_right (Nat.mul_le_mul_left _ (Nat.sub_le i 1))
    exact (Nat.add_sub_cancel' hle).symm
  subrange_last u m _ hm := by
    have hle : 26 ^ u * (m - 1) / m ≤ 26 ^ u * m / m :=
      Nat.div_le_div_right (Nat.mul_le_mul_left _ (Nat.sub_le m 1))
    exact (Nat.add_sub_cancel' hle).trans (Nat.mul_div_cancel _ hm)

instance (s : State n) : (p : Option (Fin n)) → Decidable (Fits s p)
  | none => inferInstanceAs (Decidable (_ → _))
  | some _ => inferInstanceAs (Decidable (_ → _ → _))

/-- The only search thread. -/
def only : Option (Fin (created 1)) := some ⟨0, by decide⟩

/-- The password is `"b"` and a letter, and it is `"ba"`. -/
def short_task : Task := ⟨[], [98, 97], [98, 46]⟩

/-- One thread finds the password, and the run comes to its end. -/
theorem search_complete_short : ∃ s, (system plain 1 [short_task]).Reach Fits s ∧
    s.place none = .finished ∧ (∀ r ∈ s.reports, Right plain r) ∧
    s.reports.map Report.task = [short_task] ∧ s.reports.map Report.found = [true] := by
  have hrun : ((system plain 1 [short_task]).run Fits (initial [short_task]) [none, none, none,
      only, only, only, only, only, none, none, only, none, none, none, only, only, only, none,
      none]).any (fun s => decide (s.place none = .finished ∧
        s.reports.map Report.found = [true])) = true := by
    decide +kernel
  obtain ⟨s, hs, hdone⟩ := (Option.any_eq_true _ _).mp hrun
  obtain ⟨hfin, hfound⟩ := of_decide_eq_true hdone
  have hr : (system plain 1 [short_task]).Reach Fits s := .of_run (.init rfl) hs
  obtain ⟨hright, -, htasks, -⟩ :=
    search_complete plain_documented Nat.one_pos (by decide) (by decide) hr
  exact ⟨s, hr, hfin, hright, htasks hfin, hfound⟩

/-- Seven unknown letters, and the password is `"aaaaaaa"`. -/
def long_task : Task := ⟨[], List.replicate 7 97, List.replicate 7 46⟩

/-- The only thread gets all the strings, `26 ^ 7` as an `int` is negative, and so not one of them
    is hashed. -/
theorem long_search_misses : Documented plain ∧ long_task.pwd.length = 7 ∧
    ∃ s, (system plain 1 [long_task]).Reach (fun _ _ => True) s ∧ ∃ r ∈ s.reports,
      r.task = long_task ∧ r.found = false ∧ r.hashed = [] ∧ r.totalHash = 0 ∧
      (∃ c, Candidate plain long_task c ∧ plain.crypt_r c = long_task.value) ∧ ¬Right plain r := by
  have hrun : ((system plain 1 [long_task]).run (fun _ _ => True) (initial [long_task]) [none,
      none, none, only, only, only, none, none, only, none]).any (fun s => decide (s.reports.map
        (fun r => (r.task, r.found, r.hashed, r.totalHash)) = [(long_task, false, [], 0)])) =
      true := by
    decide +kernel
  obtain ⟨s, hs, hdone⟩ := (Option.any_eq_true _ _).mp hrun
  obtain ⟨r, hreports, hsummary⟩ := List.map_eq_singleton_iff.mp (of_decide_eq_true hdone)
  obtain ⟨htask, hfound, hhashed, htotal⟩ : r.task = long_task ∧ r.found = false ∧ r.hashed = [] ∧
      r.totalHash = 0 := by
    simpa using hsummary
  have hletters : ∀ x ∈ long_task.value, 97 ≤ x ∧ x ≤ 122 := by
    intro x hx
    rw [List.eq_of_mem_replicate hx]
    decide
  have hcandidate : ∃ c, Candidate plain long_task c ∧ plain.crypt_r c = long_task.value :=
    ⟨long_task.value, ⟨long_task.value, rfl, hletters, rfl⟩, rfl⟩
  refine ⟨plain_documented, rfl, s, .of_run (.init rfl) hs, r, ?_, htask, hfound, hhashed, htotal,
    hcandidate, fun hright => ?_⟩
  · rw [hreports]
    exact List.mem_singleton_self r
  · have hfound' := hright.found_iff.mpr (htask ▸ hcandidate)
    rw [hfound] at hfound'
    cases hfound'

end SystemProgramming.PasswordCracker
