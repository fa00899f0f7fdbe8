import SystemProgramming.Lib.Lts
import SystemProgramming.SavvyScheduler.Scheduler

namespace SystemProgramming.SavvyScheduler

open Lib Scheduler

/-!
# Runs of the scheduler

A run begins with `scheduler_start_up` and goes on with the three calls, each at a time.  Beside
the scheduler the state has the job that runs, which the client keeps, and a history that the
library does not see: what was submitted, for how long each job has held the CPU, when it was
first dispatched, and how often others were dispatched while it waited.

* `Run`, `runs` — the state and the runs.
* `Called` — the protocol of the calls: time does not go back, a job is submitted once, and
  `quantum_expired` is told of the job that runs.
* `Step` — what a call does, by cases.
* `Known` — what holds of the records in every run.
-/

inductive Event
  | new_job (newjob : Job) (job_number : ℤ) (time : ℚ) (sched_data : scheduler_info)
  | quantum_expired (job_evicted : Option Job) (time : ℚ)
  | job_finished (job_done : Job) (time : ℚ)

def Event.time : Event → ℚ
  | .new_job _ _ time _ => time
  | .quantum_expired _ time => time
  | .job_finished _ time => time

/-- What the history and the record say of a job when it finishes. -/
structure Finished where
  job : Job
  arrival : ℚ
  running_time : ℚ
  first : Option ℚ
  held : ℚ
  time : ℚ
  info : job_info

structure Run where
  sched : Scheduler
  /-- The job `scheduler_quantum_expired` returned last, until it finishes. -/
  running : Option Job
  now : ℚ
  submitted : List Job
  arrival : Job → ℚ
  data : Job → scheduler_info
  /-- The time a job has had the CPU. -/
  held : Job → ℚ
  /-- The time of the last dispatch. -/
  began : ℚ
  /-- The time of a job's first dispatch. -/
  first : Job → Option ℚ
  /-- `since a b` counts the dispatches of `b` since `a` was last put in the ready queue. -/
  since : Job → Job → ℕ
  finished : List Finished

namespace Run

variable (P : StableQueue Job) (scheme : scheme_t)

/-- The state after `scheduler_start_up`. -/
def start (now : ℚ) : Run where
  sched := scheduler_start_up scheme
  running := none
  now := now
  submitted := []
  arrival := fun _ => 0
  data := fun _ => ⟨0, 0⟩
  held := fun _ => 0
  began := now
  first := fun _ => none
  since := fun _ _ => 0
  finished := []

/-- Time passes, and the running job holds the CPU. -/
def tick (s : Run) (time : ℚ) : Run :=
  { s with
    now := time
    held := fun j => if s.running = some j then s.held j + (time - s.now) else s.held j }

/-- A job is put in the ready queue. -/
def enqueued (s : Run) (j : Job) : Run :=
  { s with since := fun a b => if a = j then 0 else s.since a b }

def submit (s : Run) (j : Job) (sched_data : scheduler_info) (c : Scheduler) : Run :=
  { s.enqueued j with
    sched := c
    submitted := j :: s.submitted
    arrival := Function.update s.arrival j s.now
    data := Function.update s.data j sched_data }

/-- The running job goes back to the ready queue. -/
def release (s : Run) (j : Job) (c : Scheduler) : Run :=
  { s.enqueued j with sched := c, running := none }

/-- A job, if there is one, is dispatched. -/
def take (s : Run) (next : Option Job) (c : Scheduler) : Run :=
  { s with
    sched := c
    running := next
    began := s.now
    first := fun j => if next = some j then (s.first j).or (some s.now) else s.first j
    since := fun a b => if next = some b then s.since a b + 1 else s.since a b }

def finish (s : Run) (j : Job) (c : Scheduler) : Run :=
  { s with
    sched := c
    running := if s.running = some j then none else s.running
    finished := s.finished ++
      [{ job := j
         arrival := s.arrival j
         running_time := (s.data j).running_time
         first := s.first j
         held := s.held j
         time := s.now
         info := close (s.sched.metadata j) s.now }] }

/-- The call of an event, and what it adds to the history. -/
def step (s : Run) : Event → Option Run
  | .new_job newjob job_number time sched_data =>
    (scheduler_new_job P s.sched newjob job_number time sched_data).map
      ((s.tick time).submit newjob sched_data)
  | .quantum_expired job_evicted time =>
    (scheduler_quantum_expired P s.sched job_evicted time).map fun (c, next) =>
      match preempts s.sched.pqueue_scheme, job_evicted with
      | true, some j => ((s.tick time).release j c).take next c
      -- a job that stays is not dispatched again
      | false, some _ => { s.tick time with sched := c, running := next }
      | _, none => (s.tick time).take next c
  | .job_finished job_done time =>
    (scheduler_job_finished s.sched job_done time).map ((s.tick time).finish job_done)

end Run

open Run

variable {P : StableQueue Job} {scheme : scheme_t} {s s' : Run} {e : Event}

/-- The runs under a scheme, which may begin at any time. -/
def runs (P : StableQueue Job) (scheme : scheme_t) : Lts Run Event where
  init s := ∃ now, s = start scheme now
  step := step P

/-- The protocol of the calls. -/
def Called (s : Run) (e : Event) : Prop :=
  s.now ≤ e.time ∧
    match e with
    | .new_job newjob _ _ _ => newjob ∉ s.submitted
    | .quantum_expired job_evicted _ => job_evicted = s.running
    | .job_finished _ _ => True

instance (s : Run) (e : Event) : Decidable (Called s e) := by
  unfold Called
  cases e <;> infer_instance

/-- What a call does, by cases. -/
inductive Step (P : StableQueue Job) (s : Run) : Event → Run → Prop
  | new_job {j n time data c} (hfresh : j ∉ s.submitted)
      (h : scheduler_new_job P s.sched j n time data = some c) :
      Step P s (.new_job j n time data) ((s.tick time).submit j data c)
  | stay {j time} (hscheme : preempts s.sched.pqueue_scheme = false)
      (hrun : s.running = some j) :
      Step P s (.quantum_expired (some j) time) (s.tick time)
  | switch {j time c next c'} (hscheme : preempts s.sched.pqueue_scheme = true)
      (hrun : s.running = some j) (hevict : evict P s.sched j time = some c)
      (hpoll : poll_next P c time = some (c', next)) :
      Step P s (.quantum_expired (some j) time) (((s.tick time).release j c).take next c')
  | idle {time next c} (hrun : s.running = none)
      (hpoll : poll_next P s.sched time = some (c, next)) :
      Step P s (.quantum_expired none time) ((s.tick time).take next c)
  | finish {j time c} (h : scheduler_job_finished s.sched j time = some c) :
      Step P s (.job_finished j time) ((s.tick time).finish j c)

theorem step_cases (hok : Called s e) (h : s.step P e = some s') : Step P s e s' := by
  cases e with
  | new_job j n time data =>
    obtain ⟨c, hc, rfl⟩ := Option.map_eq_some_iff.mp h
    exact .new_job hok.2 hc
  | job_finished j time =>
    obtain ⟨c, hc, rfl⟩ := Option.map_eq_some_iff.mp h
    exact .finish hc
  | quantum_expired j time =>
    obtain ⟨⟨c, next⟩, hc, rfl⟩ := Option.map_eq_some_iff.mp h
    have hrun : j = s.running := hok.2
    cases hp : preempts s.sched.pqueue_scheme with
    | true =>
      cases j with
      | none =>
        simp only [scheduler_quantum_expired, hp] at hc ⊢
        exact .idle hrun.symm hc
      | some j =>
        simp only [scheduler_quantum_expired, hp] at hc ⊢
        obtain ⟨c₁, hevict, hpoll⟩ := Option.bind_eq_some_iff.mp hc
        show Step P s _ (((s.tick time).release j c₁).take next c)
        exact .switch hp hrun.symm hevict hpoll
    | false =>
      cases j with
      | none =>
        simp only [scheduler_quantum_expired, hp] at hc ⊢
        exact .idle hrun.symm hc
      | some j =>
        simp only [scheduler_quantum_expired, hp] at hc ⊢
        cases hc
        have hstay : { s.tick time with sched := s.sched, running := some j } = s.tick time := by
          rw [hrun]
          rfl
        exact (congrArg (Step P s _) hstay).mpr (.stay hp hrun.symm)

end SystemProgramming.SavvyScheduler
