import SystemProgramming.SavvyScheduler.Run

namespace SystemProgramming.SavvyScheduler

open Lib Scheduler Run

/-!
# The records and the ready queue

What the records say of the jobs, in every run that keeps to the protocol.  A client may finish a
job that waits; its record is freed and its pointer stays in the queue, so the records are spoken
of as long as they are allocated, and the queue is sorted as long as all of its records are.

* `Run.jobs` — the jobs that wait or run.
* `Run.stretch` — for how long a job has been running since its last dispatch.
* `Record` — a record agrees with the history.
* `Known` — the invariant, and `known`: it holds in every state reached.
-/

/-- The jobs that wait or run. -/
def Run.jobs (s : Run) : List Job := s.running.toList ++ s.sched.pqueue

/-- How long a job has been running since its last dispatch. -/
def Run.stretch (s : Run) (j : Job) : ℚ := if s.running = some j then s.now - s.began else 0

/-- The record of a job agrees with what is known of the job. -/
structure Record (s : Run) (j : Job) : Prop where
  priority : (s.sched.metadata j).priority = (s.data j).priority
  runtime : (s.sched.metadata j).runtime = (s.data j).running_time
  arrival : (s.sched.metadata j).arrival_time = s.arrival j
  used : (s.sched.metadata j).used_time + s.stretch j = s.held j
  /-- A job never dispatched has not had the CPU. -/
  fresh : s.first j = none → s.held j = 0 ∧ s.running ≠ some j

structure Known (scheme : scheme_t) (s : Run) : Prop where
  scheme : s.sched.pqueue_scheme = scheme
  nodup : s.jobs.Nodup
  submitted : ∀ j ∈ s.jobs, j ∈ s.submitted
  unsubmitted : ∀ j ∉ s.submitted, s.held j = 0 ∧ s.first j = none
  running : ∀ j, s.running = some j → s.sched.allocated j ∧ (s.sched.metadata j).rr_time = s.began
  allocated : ∀ j, s.sched.allocated j → j ∈ s.jobs
  record : ∀ j, s.sched.allocated j → Record s j
  sorted : (∀ k ∈ s.sched.pqueue, s.sched.allocated k) →
    s.sched.pqueue.Pairwise (fun a b => s.sched.compare a b ≤ 0)

variable {P : StableQueue Job} {scheme : scheme_t} {s s' : Run} {c c' : Scheduler} {j k : Job}
  {e : Event} {time : ℚ}

theorem mem_jobs_of_running (hrun : s.running = some j) : j ∈ s.jobs := by
  rw [jobs, hrun]
  exact List.mem_cons_self

theorem stretch_of_running (hrun : s.running = some j) : s.stretch j = s.now - s.began :=
  if_pos hrun

theorem stretch_of_not_running (hrun : s.running ≠ some j) : s.stretch j = 0 := if_neg hrun

/-- A call that leaves alone what the record of a job and the history say of it. -/
theorem Record.congr (h : Record s k) (hinfo : s'.sched.metadata k = s.sched.metadata k)
    (hdata : s'.data k = s.data k) (harr : s'.arrival k = s.arrival k)
    (hheld : s'.held k = s.held k) (hfirst : s'.first k = s.first k)
    (hrun : s'.running = some k ↔ s.running = some k) (hstretch : s'.stretch k = s.stretch k) :
    Record s' k where
  priority := by rw [hinfo, hdata, h.priority]
  runtime := by rw [hinfo, hdata, h.runtime]
  arrival := by rw [hinfo, harr, h.arrival]
  used := by rw [hinfo, hstretch, hheld, h.used]
  fresh hf := by
    rw [hheld, Ne, hrun]
    exact h.fresh (hfirst ▸ hf)

namespace Known

variable (hK : Known scheme s)
include hK

theorem not_queued (hrun : s.running = some j) : j ∉ s.sched.pqueue := by
  have hnd := hK.nodup
  rw [jobs, hrun] at hnd
  exact (List.nodup_cons.mp hnd).1

/-- What is offered a job that is not in the queue has a sorted queue to put it in. -/
theorem offers_sorted {info : job_info} (hj : j ∉ s.sched.pqueue)
    (hoff : Offers P s.sched j info c) :
    s.sched.pqueue.Pairwise (fun a b => c.compare a b ≤ 0) := by
  have hne : ∀ k ∈ s.sched.pqueue, k ≠ j := fun k hk hkj => hj (hkj ▸ hk)
  have hsorted := hK.sorted fun k hk => hoff.live k hk (hne k hk)
  -- the record that is written is of none of these
  refine sorted_of_key hsorted hoff.pqueue_scheme fun k hk => ?_
  rw [hoff.metadata_of_ne (hne k hk)]

theorem tick (time : ℚ) : Known scheme (s.tick time) where
  scheme := hK.scheme
  nodup := hK.nodup
  submitted := hK.submitted
  unsubmitted j hj := by
    -- the running job was submitted
    have hrun : s.running ≠ some j := by
      intro hrun
      exact hj (hK.submitted j (mem_jobs_of_running hrun))
    simpa [Run.tick, hrun] using hK.unsubmitted j hj
  running := hK.running
  allocated := hK.allocated
  sorted := hK.sorted
  record j hj := by
    obtain ⟨hprio, hruntime, harr, hused, hfresh⟩ := hK.record j hj
    refine ⟨hprio, hruntime, harr, ?_, ?_⟩
    · show (s.sched.metadata j).used_time + (if s.running = some j then time - s.began else 0) =
        if s.running = some j then s.held j + (time - s.now) else s.held j
      rw [stretch] at hused
      split at hused
      · rename_i hrun
        simp only [hrun, if_true]
        linarith
      · rename_i hrun
        simp only [hrun, if_false]
        exact hused
    · intro hfirst
      obtain ⟨hheld, hrun⟩ := hfresh hfirst
      refine ⟨?_, hrun⟩
      show (if s.running = some j then s.held j + (time - s.now) else s.held j) = 0
      rw [if_neg hrun, hheld]

/-- Offering keeps the queue sorted. -/
theorem offered_sorted {info : job_info} (hj : j ∉ s.sched.pqueue)
    (hoff : Offers P s.sched j info c) : c.pqueue.Pairwise (fun a b => c.compare a b ≤ 0) := by
  rw [hoff.queue]
  exact StableQueue.offer_sorted (compare_consistent c) (hK.offers_sorted hj hoff) P j

theorem offered_perm {info : job_info} (hj : j ∉ s.sched.pqueue)
    (hoff : Offers P s.sched j info c) : c.pqueue.Perm (j :: s.sched.pqueue) := by
  rw [hoff.queue]
  exact StableQueue.offer_perm (compare_consistent c) (hK.offers_sorted hj hoff) P j

theorem mem_offered {info : job_info} (hj : j ∉ s.sched.pqueue)
    (hoff : Offers P s.sched j info c) : k ∈ c.pqueue ↔ k = j ∨ k ∈ s.sched.pqueue := by
  rw [(hK.offered_perm hj hoff).mem_iff, List.mem_cons]

/-- The jobs that waited wait in the same order. -/
theorem offered_sublist {info : job_info} (hj : j ∉ s.sched.pqueue)
    (hoff : Offers P s.sched j info c) : s.sched.pqueue.Sublist c.pqueue := by
  rw [hoff.queue]
  exact StableQueue.sublist_offer (compare_consistent c) (hK.offers_sorted hj hoff) P j

/-- A job goes behind one whose key is not greater. -/
theorem offered_behind {info : job_info} (hj : j ∉ s.sched.pqueue)
    (hoff : Offers P s.sched j info c) (hk : k ∈ s.sched.pqueue) (hkj : c.compare k j ≤ 0) :
    [k, j].Sublist c.pqueue := by
  rw [hoff.queue]
  exact StableQueue.pair_offer (compare_consistent c) (hK.offers_sorted hj hoff) hk hkj

theorem not_queued_of_fresh (hfresh : j ∉ s.submitted) : j ∉ s.sched.pqueue :=
  fun hj => hfresh (hK.submitted j (List.mem_append_right _ hj))

section Submit

variable {n : ℤ} {data : scheduler_info} (hfresh : j ∉ s.submitted)
  (hoff : Offers P s.sched j (jobinfo n s.now data) c)
include hfresh hoff

theorem jobs_submit : (s.submit j data c).jobs.Perm (j :: s.jobs) :=
  ((hK.offered_perm (hK.not_queued_of_fresh hfresh) hoff).append_left _).trans List.perm_middle

theorem submit : Known scheme (s.submit j data c) where
  scheme := hoff.pqueue_scheme.trans hK.scheme
  nodup := by
    rw [(hK.jobs_submit hfresh hoff).nodup_iff, List.nodup_cons]
    exact ⟨fun hj => hfresh (hK.submitted j hj), hK.nodup⟩
  submitted k hk := by
    rw [(hK.jobs_submit hfresh hoff).mem_iff] at hk
    rcases List.mem_cons.mp hk with rfl | hk
    · exact List.mem_cons_self
    · exact List.mem_cons_of_mem _ (hK.submitted k hk)
  unsubmitted k hk := hK.unsubmitted k fun hk' => hk (List.mem_cons_of_mem _ hk')
  running k hk := by
    have hkj : k ≠ j := by
      rintro rfl
      exact hfresh (hK.submitted k (mem_jobs_of_running hk))
    show c.allocated k ∧ (c.metadata k).rr_time = s.began
    rw [hoff.allocated_of_ne hkj, hoff.metadata_of_ne hkj]
    exact hK.running k hk
  allocated k hk := by
    rw [(hK.jobs_submit hfresh hoff).mem_iff, List.mem_cons]
    by_cases hkj : k = j
    · exact .inl hkj
    · exact .inr (hK.allocated k ((hoff.allocated_of_ne hkj) ▸ hk))
  record k hk := by
    by_cases hkj : k = j
    · -- a new job has not had the CPU, and its record says so
      subst hkj
      have hnot : s.running ≠ some k :=
        fun hrun => hfresh (hK.submitted k (mem_jobs_of_running hrun))
      obtain ⟨hheld, hfirst⟩ := hK.unsubmitted k hfresh
      have hinfo : (s.submit k data c).sched.metadata k = jobinfo n s.now data :=
        hoff.metadata_self
      refine ⟨?_, ?_, ?_, ?_, fun _ => ⟨hheld, hnot⟩⟩
      · rw [hinfo]
        show data.priority = (Function.update s.data k data k).priority
        rw [Function.update_self]
      · rw [hinfo]
        show data.running_time = (Function.update s.data k data k).running_time
        rw [Function.update_self]
      · rw [hinfo]
        show s.now = Function.update s.arrival k s.now k
        rw [Function.update_self]
      · rw [hinfo]
        show (0 : ℚ) + (if s.running = some k then s.now - s.began else 0) = s.held k
        rw [if_neg hnot, hheld, add_zero]
    · have hrec := hK.record k ((hoff.allocated_of_ne hkj) ▸ hk)
      refine hrec.congr (hoff.metadata_of_ne hkj) ?_ ?_ rfl rfl Iff.rfl rfl
      · exact Function.update_of_ne hkj ..
      · exact Function.update_of_ne hkj ..
  sorted _ := hK.offered_sorted (hK.not_queued_of_fresh hfresh) hoff

end Submit

section Release

variable (hrun : s.running = some j)
  (hoff : Offers P s.sched j (charge (s.sched.metadata j) s.now) c)
include hrun hoff

theorem jobs_release : (s.release j c).jobs.Perm s.jobs := by
  rw [jobs, jobs, hrun]
  exact hK.offered_perm (hK.not_queued hrun) hoff

theorem release : Known scheme (s.release j c) where
  scheme := hoff.pqueue_scheme.trans hK.scheme
  nodup := (hK.jobs_release hrun hoff).nodup_iff.mpr hK.nodup
  submitted k hk := hK.submitted k ((hK.jobs_release hrun hoff).mem_iff.mp hk)
  unsubmitted := hK.unsubmitted
  running k hk := by cases hk
  allocated k hk := by
    rw [(hK.jobs_release hrun hoff).mem_iff]
    by_cases hkj : k = j
    · exact hkj ▸ mem_jobs_of_running hrun
    · exact hK.allocated k ((hoff.allocated_of_ne hkj) ▸ hk)
  record k hk := by
    by_cases hkj : k = j
    · -- the stretch that ends is charged
      subst hkj
      obtain ⟨hlive, hbegan⟩ := hK.running k hrun
      obtain ⟨hprio, hruntime, harr, hused, hfresh⟩ := hK.record k hlive
      have hinfo : (s.release k c).sched.metadata k = charge (s.sched.metadata k) s.now :=
        hoff.metadata_self
      refine ⟨?_, ?_, ?_, ?_, fun hfirst => absurd hrun (hfresh hfirst).2⟩
      · rw [hinfo]
        exact hprio
      · rw [hinfo]
        exact hruntime
      · rw [hinfo]
        exact harr
      · rw [hinfo]
        show (s.sched.metadata k).used_time + (s.now - (s.sched.metadata k).rr_time) + 0 = s.held k
        rw [stretch_of_running hrun] at hused
        rw [hbegan, add_zero, hused]
    · have hrec := hK.record k ((hoff.allocated_of_ne hkj) ▸ hk)
      have hnot : s.running ≠ some k := by
        rw [hrun]
        exact fun h => hkj (Option.some.inj h).symm
      refine hrec.congr (hoff.metadata_of_ne hkj) rfl rfl rfl rfl ?_ ?_
      · exact iff_of_false (by simp [Run.release]) hnot
      · rw [stretch_of_not_running hnot]
        exact stretch_of_not_running (by simp [Run.release])
  sorted _ := hK.offered_sorted (hK.not_queued hrun) hoff

end Release

section Take

variable {next : Option Job} (hrun : s.running = none)
  (hpoll : poll_next P s.sched s.now = some (c, next))
include hrun hpoll

omit hK in
theorem jobs_take : (s.take next c).jobs = s.jobs := by
  rw [jobs, jobs, hrun]
  obtain ⟨rfl, hq, rfl⟩ | ⟨j, q, rfl, hq, -, rfl⟩ := poll_cases hpoll
  · rfl
  · rw [hq]
    rfl

theorem take : Known scheme (s.take next c) := by
  have hjobs := jobs_take hrun hpoll
  obtain ⟨rfl, hq, rfl⟩ | ⟨j, q, rfl, hq, hlive, rfl⟩ := poll_cases hpoll
  · -- nothing waits
    refine ⟨hK.scheme, hjobs ▸ hK.nodup, hjobs ▸ hK.submitted, ?_, fun k hk => ?_,
      hjobs ▸ hK.allocated, fun k hk => ?_, hK.sorted⟩
    · intro k hk
      simpa [Run.take] using hK.unsubmitted k hk
    · cases hk
    · have hnot : s.running ≠ some k := by simp [hrun]
      refine (hK.record k hk).congr rfl rfl rfl rfl (by simp [Run.take]) ?_ ?_
      · exact iff_of_false (by simp [Run.take]) hnot
      · rw [stretch_of_not_running hnot]
        exact stretch_of_not_running (by simp [Run.take])
  · have hnd := hK.nodup
    rw [jobs, hrun, hq] at hnd
    have hjq : j ∉ q := (List.nodup_cons.mp hnd).1
    have hsub : j ∈ s.submitted := hK.submitted j (by simp [jobs, hq])
    have hnot : ∀ k, k ≠ j → some j ≠ some k := fun k hkj h => hkj (Option.some.inj h).symm
    refine ⟨hK.scheme, hjobs ▸ hK.nodup, hjobs ▸ hK.submitted, ?_, ?_, hjobs ▸ hK.allocated, ?_, ?_⟩
    · intro k hk
      have hkj : k ≠ j := fun hkj => hk (hkj ▸ hsub)
      show s.held k = 0 ∧
        (if some j = some k then (s.first k).or (some s.now) else s.first k) = none
      rw [if_neg (hnot k hkj)]
      exact hK.unsubmitted k hk
    · intro k hk
      obtain rfl := Option.some.inj hk
      refine ⟨hlive, ?_⟩
      show (Function.update s.sched.metadata j (stamp (s.sched.metadata j) s.now) j).rr_time = s.now
      rw [Function.update_self]
      rfl
    · intro k hk
      have hrec := hK.record k hk
      by_cases hkj : k = j
      · -- a stretch begins
        subst hkj
        have hinfo : Function.update s.sched.metadata k (stamp (s.sched.metadata k) s.now) k =
            stamp (s.sched.metadata k) s.now := Function.update_self ..
        have hused := hrec.used
        rw [stretch_of_not_running (by simp [hrun]), add_zero] at hused
        refine ⟨?_, ?_, ?_, ?_, ?_⟩
        · exact (congrArg job_info.priority hinfo).trans hrec.priority
        · exact (congrArg job_info.runtime hinfo).trans hrec.runtime
        · exact (congrArg job_info.arrival_time hinfo).trans hrec.arrival
        · rw [stretch_of_running rfl]
          show (Function.update s.sched.metadata k (stamp (s.sched.metadata k) s.now) k).used_time +
            (s.now - s.now) = s.held k
          rw [hinfo, sub_self, add_zero]
          exact hused
        · intro hfirst
          have hfirst := (if_pos rfl).symm.trans hfirst
          rw [Option.or_eq_none_iff] at hfirst
          exact absurd hfirst.2 (by simp)
      · refine hrec.congr (Function.update_of_ne hkj ..) rfl rfl rfl (if_neg (hnot k hkj)) ?_ ?_
        · exact iff_of_false (hnot k hkj) (by simp [hrun])
        · rw [stretch_of_not_running (s := s) (by simp [hrun])]
          exact stretch_of_not_running (hnot k hkj)
    · intro hall
      -- with the front's record allocated too, the queue was sorted
      have hsorted := hK.sorted (by
        intro k hk
        rw [hq] at hk
        rcases List.mem_cons.mp hk with rfl | hk
        · exact hlive
        · exact hall k hk)
      rw [hq] at hsorted
      refine sorted_of_key hsorted.of_cons rfl fun k hk => ?_
      have hkj : k ≠ j := fun hkj => hjq (hkj ▸ hk)
      exact congrArg (key · _) (Function.update_of_ne hkj ..)

end Take

section Finish

omit hK

theorem running_finish : (s.finish j c).running = some k ↔ s.running = some k ∧ k ≠ j := by
  show (if s.running = some j then none else s.running) = some k ↔ _
  split
  · rename_i hrun
    rw [hrun]
    simp [eq_comm]
  · rename_i hrun
    refine ⟨fun hk => ⟨hk, ?_⟩, And.left⟩
    rintro rfl
    exact hrun hk

variable (hfin : scheduler_job_finished s.sched j s.now = some c)
include hfin

theorem sublist_finish : (s.finish j c).jobs.Sublist s.jobs := by
  obtain ⟨-, hqueue, -, -, -⟩ := finish_cases hfin
  rw [jobs, jobs, show (s.finish j c).sched.pqueue = s.sched.pqueue from hqueue]
  refine List.Sublist.append ?_ (List.Sublist.refl _)
  show (if s.running = some j then none else s.running).toList.Sublist s.running.toList
  split
  · exact List.nil_sublist _
  · exact List.Sublist.refl _

theorem mem_finish (hk : k ∈ s.jobs) (hkj : k ≠ j) : k ∈ (s.finish j c).jobs := by
  obtain ⟨-, hqueue, -, -, -⟩ := finish_cases hfin
  rw [jobs, List.mem_append, Option.mem_toList] at hk ⊢
  refine hk.imp (fun hk => ?_) fun hk => ?_
  · exact running_finish.mpr ⟨hk, hkj⟩
  · exact hqueue.symm ▸ hk

include hK

theorem finish : Known scheme (s.finish j c) := by
  obtain ⟨hlive, hqueue, hscheme, hmeta, halloc⟩ := finish_cases hfin
  -- what is still allocated is another job's record, and it is as it was
  have hother : ∀ k, c.allocated k = true → k ≠ j ∧ s.sched.allocated k = true := by
    intro k hk
    rw [halloc] at hk
    by_cases hkj : k = j
    · rw [hkj, Function.update_self] at hk
      cases hk
    · rw [Function.update_of_ne hkj] at hk
      exact ⟨hkj, hk⟩
  have hkept : ∀ k, k ≠ j → c.metadata k = s.sched.metadata k := by
    intro k hkj
    rw [hmeta, Function.update_of_ne hkj]
  refine ⟨hscheme.trans hK.scheme, hK.nodup.sublist (sublist_finish hfin), ?_, hK.unsubmitted,
    ?_, ?_, ?_, ?_⟩
  · intro k hk
    exact hK.submitted k ((sublist_finish hfin).subset hk)
  · intro k hk
    obtain ⟨hrun, hkj⟩ := running_finish.mp hk
    obtain ⟨hk, hbegan⟩ := hK.running k hrun
    refine ⟨?_, ?_⟩
    · show c.allocated k = true
      rw [halloc, Function.update_of_ne hkj]
      exact hk
    · show (c.metadata k).rr_time = s.began
      rw [hkept k hkj]
      exact hbegan
  · intro k hk
    obtain ⟨hkj, hk⟩ := hother k hk
    exact mem_finish hfin (hK.allocated k hk) hkj
  · intro k hk
    obtain ⟨hkj, hk⟩ := hother k hk
    have hrun : (s.finish j c).running = some k ↔ s.running = some k := by
      rw [running_finish]
      exact and_iff_left hkj
    refine (hK.record k hk).congr (hkept k hkj) rfl rfl rfl rfl hrun ?_
    rw [stretch, stretch]
    simp only [hrun]
    rfl
  · intro hall
    -- the queue is judged only where the finished job was not in it
    have hqueue : (s.finish j c).sched.pqueue = s.sched.pqueue := hqueue
    rw [hqueue] at hall ⊢
    refine sorted_of_key (hK.sorted fun k hk => (hother k (hall k hk)).2) hscheme fun k hk => ?_
    exact congrArg (key · _) (hkept k (hother k (hall k hk)).1)

end Finish

end Known

/-! ### Every run -/

theorem Known.step (hK : Known scheme s) (hok : Called s e) (h : s.step P e = some s') :
    Known scheme s' := by
  cases step_cases hok h with
  | new_job hfresh hnew => exact (hK.tick _).submit hfresh (new_job_cases hnew)
  | stay => exact hK.tick _
  | switch _ hrun hevict hpoll =>
    exact ((hK.tick _).release hrun (evict_cases hevict).2).take rfl hpoll
  | idle hrun hpoll => exact (hK.tick _).take hrun hpoll
  | finish hfin => exact (hK.tick _).finish hfin

theorem known_start (now : ℚ) : Known scheme (start scheme now) :=
  ⟨rfl, List.nodup_nil, fun _ hj => absurd hj List.not_mem_nil, fun _ _ => ⟨rfl, rfl⟩,
    fun _ hj => absurd hj (Option.some_ne_none _).symm, fun _ hj => absurd hj Bool.false_ne_true,
    fun _ hj => absurd hj Bool.false_ne_true, fun _ => List.Pairwise.nil⟩

/-- **The invariant rule of the runs.**  Where the protocol is kept, what is known of the records
    may be used to show that a call keeps an invariant. -/
theorem known_invariant {ok : Run → Event → Prop} {I : Run → Prop} (hr : (runs P scheme).Reach ok s)
    (hcalled : ∀ s e, ok s e → Called s e) (h0 : ∀ now, I (start scheme now))
    (hstep : ∀ s e s', Known scheme s → I s → ok s e → s.step P e = some s' → I s') :
    Known scheme s ∧ I s := by
  refine hr.invariant (I := fun s => Known scheme s ∧ I s) ?_ fun s e s' h hok hs =>
    ⟨h.1.step (hcalled s e hok) hs, hstep s e s' h.1 h.2 hok hs⟩
  rintro s ⟨now, rfl⟩
  exact ⟨known_start now, h0 now⟩

/-- **What the records say**, in every state reached. -/
theorem known (hr : (runs P scheme).Reach Called s) : Known scheme s :=
  (known_invariant (I := fun _ => True) hr (fun _ _ hok => hok) (fun _ => trivial)
    fun _ _ _ _ _ _ _ => trivial).1

end SystemProgramming.SavvyScheduler
