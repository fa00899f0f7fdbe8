import Mathlib.Algebra.BigOperators.Group.List.Basic
import SystemProgramming.SavvyScheduler.Order

namespace SystemProgramming.SavvyScheduler

open Lib Scheduler Run

/-!
# The statistics

The totals are sums over the finished jobs.  The time of a job's first dispatch is not kept as such:
`start_time` is written at every dispatch that finds no used time.  That is the first dispatch, and
any later one as long as the job's quanta had no length.

* `responses`, `turnarounds`, `waits` — what the totals are to be, by the history.
* `Prompt` — the runs in which a job without CPU time is dispatched at one time only.
* `statistics_exact`, `Exact.averages` — in these the totals are exact, and so are the averages.
* `not_statistics_exact` — a run in which they are not.
-/

/-- From arrival to first dispatch. -/
def responses (s : Run) : ℚ := (s.finished.map fun d => d.first.getD 0 - d.arrival).sum

/-- From arrival to finish. -/
def turnarounds (s : Run) : ℚ := (s.finished.map fun d => d.time - d.arrival).sum

def waits (s : Run) : ℚ := (s.finished.map fun d => d.time - d.arrival - d.running_time).sum

/-- The totals are what they say they are. -/
structure Exact (s : Run) : Prop where
  /-- Every finished job had been dispatched. -/
  dispatched : ∀ d ∈ s.finished, d.first.isSome
  response : s.sched.total_response_time = responses s
  turnaround : s.sched.total_turnaround_time = turnarounds s
  wait : s.sched.total_wait_time = waits s
  count : s.sched.job_count = s.finished.length

/-- The job in front of the queue when `quantum_expired` takes one, the evicted job put back. -/
def Run.front (P : StableQueue Job) (s : Run) (job_evicted : Option Job) (time : ℚ) : Option Job :=
  match preempts s.sched.pqueue_scheme, job_evicted with
  | true, some j => (evict P s.sched j time).bind fun c => c.pqueue.head?
  | false, some _ => none
  | _, none => s.sched.pqueue.head?

/-- A job that may be dispatched now: for the first time, or after time on the CPU, or again at the
    time of its first dispatch. -/
def Fits (s : Run) (j : Job) : Prop := s.first j = none ∨ s.held j ≠ 0 ∨ s.first j = some s.now

/-- Jobs finish after they have been dispatched, and those dispatched fit. -/
def Prompt (P : StableQueue Job) (s : Run) (e : Event) : Prop :=
  Called s e ∧
    match e with
    | .new_job _ _ _ _ => True
    | .quantum_expired job_evicted time =>
      ∀ j, s.front P job_evicted time = some j → Fits (s.tick time) j
    | .job_finished job_done _ => (s.first job_done).isSome

variable {P : StableQueue Job} {scheme : scheme_t} {s s' : Run} {c : Scheduler} {j : Job}
  {e : Event}

structure Started (s : Run) : Prop extends Exact s where
  started : ∀ j, s.sched.allocated j → ∀ time, s.first j = some time →
    (s.sched.metadata j).start_time = time

namespace Started

variable (hS : Started s) (hK : Known scheme s)
include hS

theorem tick (time : ℚ) : Started (s.tick time) :=
  ⟨⟨hS.dispatched, hS.response, hS.turnaround, hS.wait, hS.count⟩, hS.started⟩

theorem of_totals (hfin : s'.finished = s.finished)
    (hresponse : s'.sched.total_response_time = s.sched.total_response_time)
    (hturnaround : s'.sched.total_turnaround_time = s.sched.total_turnaround_time)
    (hwait : s'.sched.total_wait_time = s.sched.total_wait_time)
    (hcount : s'.sched.job_count = s.sched.job_count)
    (hstarted : ∀ j, s'.sched.allocated j → ∀ time, s'.first j = some time →
      (s'.sched.metadata j).start_time = time) : Started s' := by
  refine ⟨⟨hfin ▸ hS.dispatched, ?_, ?_, ?_, ?_⟩, hstarted⟩
  · rw [hresponse, hS.response, responses, responses, hfin]
  · rw [hturnaround, hS.turnaround, turnarounds, turnarounds, hfin]
  · rw [hwait, hS.wait, waits, waits, hfin]
  · rw [hcount, hS.count, hfin]

/-- What is offered keeps the statistics. -/
theorem offered {info : job_info} (hoff : Offers P s.sched j info c)
    (hfin : s'.finished = s.finished) (hsched : s'.sched = c) (hfirst : s'.first = s.first)
    (hj : ∀ time, s.first j = some time → info.start_time = time) : Started s' := by
  have hheap := hoff.heap
  refine hS.of_totals hfin ?_ ?_ ?_ ?_ fun k hk time htime => ?_
  · rw [hsched, hheap]
  · rw [hsched, hheap]
  · rw [hsched, hheap]
  · rw [hsched, hheap]
  · rw [hfirst] at htime
    rw [hsched] at hk ⊢
    by_cases hkj : k = j
    · subst hkj
      rw [hoff.metadata_self]
      exact hj time htime
    · rw [hoff.metadata_of_ne hkj]
      rw [hoff.allocated_of_ne hkj] at hk
      exact hS.started k hk time htime

include hK

theorem take {next : Option Job} (hrun : s.running = none) (hfits : ∀ j, next = some j → Fits s j)
    (hpoll : poll_next P s.sched s.now = some (c, next)) : Started (s.take next c) := by
  obtain ⟨rfl, -, rfl⟩ | ⟨j, q, rfl, -, hlive, rfl⟩ := poll_cases hpoll
  · refine hS.of_totals rfl rfl rfl rfl rfl fun k hk time htime => hS.started k hk time ?_
    simpa [Run.take] using htime
  · refine hS.of_totals rfl rfl rfl rfl rfl fun k hk time htime => ?_
    have htime : (if some j = some k then (s.first k).or (some s.now) else s.first k) = some time :=
      htime
    show (Function.update s.sched.metadata j (stamp (s.sched.metadata j) s.now) k).start_time = time
    by_cases hkj : k = j
    · subst hkj
      rw [if_pos rfl] at htime
      rw [Function.update_self]
      show (if (s.sched.metadata k).used_time = 0 then s.now else (s.sched.metadata k).start_time) =
        time
      have hrec := hK.record k hlive
      have hused := hrec.used
      rw [stretch_of_not_running (by simp [hrun]), add_zero] at hused
      rw [hused]
      cases hfirst : s.first k with
      | none =>
        -- the first dispatch finds no used time
        rw [hfirst] at htime
        rw [if_pos (hrec.fresh hfirst).1]
        exact Option.some.inj htime
      | some t =>
        rw [hfirst] at htime
        have ht : t = time := Option.some.inj htime
        have hstart := hS.started k hlive t hfirst
        -- a later one finds some, or is at the same time
        rcases hfits k rfl with hnone | hheld | hnow
        · rw [hfirst] at hnone
          cases hnone
        · rw [if_neg hheld, hstart, ht]
        · rw [hfirst] at hnow
          rw [← Option.some.inj hnow, hstart, ite_self, ht]
    · rw [if_neg fun h => hkj (Option.some.inj h).symm] at htime
      rw [Function.update_of_ne hkj]
      exact hS.started k hk time htime

theorem finish (hfirst : (s.first j).isSome)
    (hfin : scheduler_job_finished s.sched j s.now = some c) : Started (s.finish j c) := by
  obtain ⟨hlive, -, -, hmeta, halloc⟩ := finish_cases hfin
  obtain ⟨hcount, hresponse, hturnaround, hwait⟩ := finish_totals hfin
  have hrec := hK.record j hlive
  obtain ⟨t, ht⟩ := Option.isSome_iff_exists.mp hfirst
  have hstart := hS.started j hlive t ht
  refine ⟨⟨?_, ?_, ?_, ?_, ?_⟩, ?_⟩
  · intro d hd
    rcases List.mem_append.mp hd with hd | hd
    · exact hS.dispatched d hd
    · obtain rfl := List.mem_singleton.mp hd
      exact hfirst
  · show c.total_response_time = ((s.finished ++ [_]).map _).sum
    rw [hresponse, hS.response, hstart, hrec.arrival, List.map_append, List.sum_append,
      List.map_singleton, List.sum_singleton, ht]
    rfl
  · show c.total_turnaround_time = ((s.finished ++ [_]).map _).sum
    rw [hturnaround, hS.turnaround, hrec.arrival, List.map_append, List.sum_append,
      List.map_singleton, List.sum_singleton]
    rfl
  · show c.total_wait_time = ((s.finished ++ [_]).map _).sum
    rw [hwait, hS.wait, hrec.arrival, hrec.runtime, List.map_append, List.sum_append,
      List.map_singleton, List.sum_singleton]
    rfl
  · show c.job_count = ((s.finished ++ [_]).length : ℤ)
    rw [hcount, hS.count, List.length_append]
    rfl
  · intro k hk time htime
    change c.allocated k = true at hk
    -- the record of the finished job is freed
    have hkj : k ≠ j := by
      rintro rfl
      rw [halloc, Function.update_self] at hk
      cases hk
    rw [halloc, Function.update_of_ne hkj] at hk
    show (c.metadata k).start_time = time
    rw [hmeta, Function.update_of_ne hkj]
    exact hS.started k hk time htime

end Started

theorem Started.step (hS : Started s) (hK : Known scheme s) (hok : Prompt P s e)
    (h : s.step P e = some s') : Started s' := by
  cases step_cases hok.1 h with
  | @new_job j n time data c hfresh hnew =>
    refine (hS.tick time).offered (new_job_cases hnew) rfl rfl rfl fun t ht => ?_
    have hnone : s.first j = none := (hK.unsubmitted j hfresh).2
    exact absurd (hnone.symm.trans ht) (by simp)
  | stay => exact hS.tick _
  | @switch j time c next c' hpre hrun hevict hpoll =>
    obtain ⟨hlive, hoff⟩ := evict_cases hevict
    -- a charge leaves the start time alone
    have hS' : Started ((s.tick time).release j c) :=
      (hS.tick time).offered hoff rfl rfl rfl fun t ht => hS.started j hlive t ht
    refine hS'.take ((hK.tick time).release hrun hoff) rfl (fun k hk => ?_) hpoll
    refine hok.2 k ?_
    simp only [front, hpre, hevict, Option.bind_some]
    exact hk ▸ poll_head hpoll
  | @idle time next c hrun hpoll =>
    refine (hS.tick time).take (hK.tick time) hrun (fun k hk => ?_) hpoll
    refine hok.2 k ?_
    rw [front]
    exact hk ▸ poll_head hpoll
  | finish hfin => exact (hS.tick _).finish (hK.tick _) hok.2 hfin

theorem started_start (now : ℚ) : Started (start scheme now) :=
  ⟨⟨fun _ hd => absurd hd List.not_mem_nil, rfl, rfl, rfl, rfl⟩,
    fun _ hj => absurd hj Bool.false_ne_true⟩

/-- **The statistics are exact** in every run in which no job is dispatched again, at a later time,
    before it has had any time on the CPU. -/
theorem statistics_exact (hr : (runs P scheme).Reach (Prompt P) s) : Exact s :=
  (known_invariant hr (fun _ _ hok => hok.1) started_start
    fun _ _ _ hK hS hok h => hS.step hK hok h).2.toExact

/-- The averages are means over the finished jobs. -/
theorem Exact.averages (h : Exact s) (hne : s.finished ≠ []) :
    s.sched.scheduler_average_waiting_time = some (waits s / s.finished.length) ∧
    s.sched.scheduler_average_turnaround_time = some (turnarounds s / s.finished.length) ∧
    s.sched.scheduler_average_response_time = some (responses s / s.finished.length) := by
  have hcount : s.sched.job_count ≠ 0 := by
    rw [h.count, Nat.cast_ne_zero]
    exact fun hzero => hne (List.length_eq_zero_iff.mp hzero)
  have haverage : ∀ total, s.sched.average total = some (total / s.finished.length) := by
    intro total
    rw [average, if_neg hcount, h.count, Int.cast_natCast]
  refine ⟨?_, ?_, ?_⟩
  · rw [← h.wait]
    exact haverage _
  · rw [← h.turnaround]
    exact haverage _
  · rw [← h.response]
    exact haverage _

instance (s : Run) (j : Job) : Decidable (Fits s j) := by
  unfold Fits
  infer_instance

instance (s : Run) : ∀ e : Event, Decidable (Prompt P s e)
  | .new_job newjob job_number time sched_data =>
    inferInstanceAs (Decidable (Called s (.new_job newjob job_number time sched_data) ∧ True))
  | .quantum_expired job_evicted time =>
    inferInstanceAs (Decidable (Called s (.quantum_expired job_evicted time) ∧
      ∀ j, s.front P job_evicted time = some j → Fits (s.tick time) j))
  | .job_finished job_done time =>
    inferInstanceAs (Decidable (Called s (.job_finished job_done time) ∧
      (s.first job_done).isSome))

/-- Two jobs under preemption, one of them dispatched twice. -/
theorem statistics_exact_some : ∃ s : Run, s.sched.total_response_time = 1 ∧ Exact s := by
  have hrun : ((runs .sorting .PSRTF).run (Prompt .sorting) (start .PSRTF 0) [
      .new_job 1 1 0 ⟨10, 1⟩, .quantum_expired none 0, .new_job 2 2 1 ⟨3, 1⟩,
      .quantum_expired (some 1) 2, .job_finished 2 5, .quantum_expired none 5,
      .job_finished 1 13]).any (fun s => decide (s.sched.total_response_time = 1)) = true := by
    decide +kernel
  obtain ⟨s, hs, hdone⟩ := (Option.any_eq_true _ _).mp hrun
  have hr : (runs .sorting .PSRTF).Reach (Prompt .sorting) s := .of_run (.init ⟨0, rfl⟩) hs
  exact ⟨s, of_decide_eq_true hdone, statistics_exact hr⟩

/-- A job is dispatched at 0, evicted after a quantum of no length, and dispatched again at 5: it
    has waited for no time, and the total says 5. -/
theorem not_statistics_exact :
    ¬ ∀ s, (runs .sorting .RR).Reach Proper s → Exact s := by
  intro hall
  have hrun : ((runs .sorting .RR).run Proper (start .RR 0) [.new_job 1 1 0 ⟨1, 1⟩,
      .quantum_expired none 0, .new_job 2 2 0 ⟨9, 1⟩, .quantum_expired (some 1) 0,
      .quantum_expired (some 2) 5, .job_finished 1 6]).any
      (fun s => decide (s.sched.total_response_time = 5 ∧ responses s = 0)) = true := by
    decide +kernel
  obtain ⟨s, hs, hdone⟩ := (Option.any_eq_true _ _).mp hrun
  have hr : (runs .sorting .RR).Reach Proper s := .of_run (.init ⟨0, rfl⟩) hs
  obtain ⟨htotal, hresponses⟩ := of_decide_eq_true hdone
  have hexact := (hall s hr).response
  rw [htotal, hresponses] at hexact
  norm_num at hexact

end SystemProgramming.SavvyScheduler
