import Mathlib.Algebra.Order.Ring.Rat
import Mathlib.Tactic.Linarith
import SystemProgramming.Lib.StableQueue

namespace SystemProgramming.SavvyScheduler

open Lib

/-!
# The scheduler's calls

The library keeps a record for each job and a priority queue of the jobs that wait.  A
`job *` is a name, and the record behind its `metadata` pointer is on the heap from
`scheduler_new_job` to `scheduler_job_finished`; a call that reads a freed record has no result.
The priority queue is a parameter, times are exact, and an `int` that would overflow ends the
call as a freed record does.

* `comparision_func` — the comparer of each scheme.
* `scheduler_new_job`, `scheduler_quantum_expired`, `scheduler_job_finished` — the three calls.
* `comparision_func_consistent` — each comparer's signs are those of an order on keys.
-/

/-- A pointer to a job. -/
abbrev Job := ℕ

inductive scheme_t
  | FCFS | PRI | PPRI | PSRTF | RR | SJF
  deriving DecidableEq, Repr

/-- What a client says of a new job. -/
structure scheduler_info where
  running_time : ℚ
  priority : ℤ
  deriving DecidableEq, Repr

structure job_info where
  id : ℤ
  priority : ℤ
  runtime : ℚ
  arrival_time : ℚ
  start_time : ℚ
  end_time : ℚ
  rr_time : ℚ
  used_time : ℚ
  deriving DecidableEq, Repr, Inhabited

/-! ### The comparers -/

section Comparers

/-- Every comparer's body: compare one field, and go on to `tie` where it is equal. -/
def compare_by {κ : Type} [LinearOrder κ] (field : job_info → κ) (tie : ℤ) (joba jobb : job_info) :
    ℤ :=
  if field joba < field jobb then -1
  else if field jobb < field joba then 1
  else tie

def comparer_fcfs (joba jobb : job_info) : ℤ :=
  compare_by job_info.arrival_time 0 joba jobb

def break_tie (a b : job_info) : ℤ := comparer_fcfs a b

def comparer_pri (joba jobb : job_info) : ℤ :=
  compare_by job_info.priority (break_tie joba jobb) joba jobb

def comparer_ppri (a b : job_info) : ℤ := comparer_pri a b

def comparer_psrtf (joba jobb : job_info) : ℤ :=
  compare_by (fun info => info.runtime - info.used_time) (break_tie joba jobb) joba jobb

def comparer_rr (joba jobb : job_info) : ℤ :=
  compare_by job_info.rr_time 0 joba jobb

def comparer_sjf (joba jobb : job_info) : ℤ :=
  compare_by job_info.runtime (break_tie joba jobb) joba jobb

/-- The comparer `scheduler_start_up` gives the priority queue. -/
def comparision_func : scheme_t → job_info → job_info → ℤ
  | .FCFS => comparer_fcfs
  | .PRI => comparer_pri
  | .PPRI => comparer_ppri
  | .PSRTF => comparer_psrtf
  | .RR => comparer_rr
  | .SJF => comparer_sjf

/-- What the comparer of a scheme goes by. -/
def key (info : job_info) : scheme_t → ℚ ×ₗ ℚ
  | .FCFS => toLex (info.arrival_time, 0)
  | .PRI => toLex (info.priority, info.arrival_time)
  | .PPRI => toLex (info.priority, info.arrival_time)
  | .PSRTF => toLex (info.runtime - info.used_time, info.arrival_time)
  | .RR => toLex (info.rr_time, 0)
  | .SJF => toLex (info.runtime, info.arrival_time)

variable {κ : Type} [LinearOrder κ] {field : job_info → κ} {tie : ℤ} {a b : job_info}

theorem compare_by_neg :
    compare_by field tie a b < 0 ↔ field a < field b ∨ field a = field b ∧ tie < 0 := by
  unfold compare_by
  rcases lt_trichotomy (field a) (field b) with h | h | h
  · simp [h]
  · simp [h]
  · simp [h.not_gt, h, h.ne']

theorem compare_by_pos :
    0 < compare_by field tie a b ↔ field b < field a ∨ field b = field a ∧ 0 < tie := by
  unfold compare_by
  rcases lt_trichotomy (field a) (field b) with h | h | h
  · simp [h, h.not_gt, h.ne']
  · simp [h]
  · simp [h.not_gt, h]

theorem comparision_func_neg (s : scheme_t) :
    comparision_func s a b < 0 ↔ key a s < key b s := by
  cases s <;> simp [comparision_func, key, comparer_fcfs, comparer_pri, comparer_ppri,
    comparer_psrtf, comparer_rr, comparer_sjf, break_tie, compare_by_neg, Prod.Lex.toLex_lt_toLex]

theorem comparision_func_pos (s : scheme_t) :
    0 < comparision_func s a b ↔ key b s < key a s := by
  cases s <;> simp [comparision_func, key, comparer_fcfs, comparer_pri, comparer_ppri,
    comparer_psrtf, comparer_rr, comparer_sjf, break_tie, compare_by_pos, Prod.Lex.toLex_lt_toLex]

theorem comparision_func_nonpos (s : scheme_t) :
    comparision_func s a b ≤ 0 ↔ key a s ≤ key b s := by
  rw [← not_lt, comparision_func_pos, not_lt]

/-- The comparers are orders, whatever the records hold. -/
theorem comparision_func_consistent (s : scheme_t) : Consistent (comparision_func s) :=
  Consistent.of_key (fun info => key info s) (fun _ _ => comparision_func_neg s)
    fun _ _ => comparision_func_pos s

end Comparers

/-! ### The scheduler -/

/-- The library's globals and the heap it keeps its records on. -/
structure Scheduler where
  pqueue : List Job
  pqueue_scheme : scheme_t
  metadata : Job → job_info
  allocated : Job → Bool
  job_count : ℤ
  total_wait_time : ℚ
  total_turnaround_time : ℚ
  total_response_time : ℚ

def scheduler_start_up (s : scheme_t) : Scheduler where
  pqueue := []
  pqueue_scheme := s
  metadata := fun _ => default
  allocated := fun _ => false
  job_count := 0
  total_wait_time := 0
  total_turnaround_time := 0
  total_response_time := 0

namespace Scheduler

variable (P : StableQueue Job)

/-- What the priority queue compares: the records behind two pointers. -/
def compare (c : Scheduler) (a b : Job) : ℤ :=
  comparision_func c.pqueue_scheme (c.metadata a) (c.metadata b)

/-- Write a record. -/
def write (c : Scheduler) (j : Job) (info : job_info) : Scheduler :=
  { c with metadata := Function.update c.metadata j info }

/-- The comparer may be called on anything in the queue. -/
def priqueue_offer (c : Scheduler) (j : Job) : Option Scheduler :=
  if ∀ k ∈ c.pqueue, c.allocated k then
    some { c with pqueue := P.offer c.compare c.pqueue j }
  else none

/-- The record of a new job. -/
def jobinfo (job_number : ℤ) (time : ℚ) (sched_data : scheduler_info) : job_info where
  id := job_number
  arrival_time := time
  priority := sched_data.priority
  runtime := sched_data.running_time
  start_time := 0
  end_time := 0
  rr_time := 0
  used_time := 0

def scheduler_new_job (c : Scheduler) (newjob : Job) (job_number : ℤ) (time : ℚ)
    (sched_data : scheduler_info) : Option Scheduler :=
  priqueue_offer P { c.write newjob (jobinfo job_number time sched_data) with
    allocated := Function.update c.allocated newjob true } newjob

/-- The schemes whose case of the `switch` puts the evicted job back. -/
def preempts : scheme_t → Bool
  | .PPRI => true
  | .PSRTF => true
  | .RR => true
  | _ => false

/-- `info->used_time += time - info->rr_time`. -/
def charge (info : job_info) (time : ℚ) : job_info :=
  { info with used_time := info.used_time + (time - info.rr_time) }

/-- Put the evicted job back. -/
def evict (c : Scheduler) (job_evicted : Job) (time : ℚ) : Option Scheduler :=
  if c.allocated job_evicted then
    priqueue_offer P (c.write job_evicted (charge (c.metadata job_evicted) time)) job_evicted
  else none

/-- The record of a job as it is dispatched. -/
def stamp (info : job_info) (time : ℚ) : job_info :=
  { info with
    start_time := if info.used_time = 0 then time else info.start_time
    rr_time := time }

/-- Take the next job; both cases of the `switch` end with these lines. -/
def poll_next (c : Scheduler) (time : ℚ) : Option (Scheduler × Option Job) :=
  match P.poll c.pqueue with
  | none => some (c, none)
  | some (next_job, q) =>
    if c.allocated next_job then
      some ({ c with pqueue := q }.write next_job (stamp (c.metadata next_job) time), some next_job)
    else none

def scheduler_quantum_expired (c : Scheduler) (job_evicted : Option Job) (time : ℚ) :
    Option (Scheduler × Option Job) :=
  match preempts c.pqueue_scheme, job_evicted with
  | true, some job_evicted => (evict P c job_evicted time).bind fun c => poll_next P c time
  | true, none => poll_next P c time
  | false, some job_evicted => some (c, some job_evicted)
  | false, none => poll_next P c time

/-- The record of a job as it is when it is freed. -/
def close (info : job_info) (time : ℚ) : job_info :=
  charge { info with end_time := time } time

def scheduler_job_finished (c : Scheduler) (job_done : Job) (time : ℚ) : Option Scheduler :=
  let info := close (c.metadata job_done) time
  if c.allocated job_done ∧ c.job_count < 2 ^ 31 - 1 then
    some { c.write job_done info with
      allocated := Function.update c.allocated job_done false
      total_response_time := c.total_response_time + (info.start_time - info.arrival_time)
      total_turnaround_time := c.total_turnaround_time + (info.end_time - info.arrival_time)
      total_wait_time := c.total_wait_time + (info.end_time - info.arrival_time - info.runtime)
      job_count := c.job_count + 1 }
  else none

/-! ### What the calls do -/

section Cases

variable {P} {c c' : Scheduler} {j : Job} {time : ℚ}

/-- A record is written and its job put in the queue. -/
structure Offers (P : StableQueue Job) (c : Scheduler) (j : Job) (info : job_info)
    (c' : Scheduler) : Prop where
  live : ∀ k ∈ c.pqueue, k ≠ j → c.allocated k
  queue : c'.pqueue = P.offer c'.compare c.pqueue j
  heap : c' = { c with
    pqueue := c'.pqueue
    metadata := Function.update c.metadata j info
    allocated := Function.update c.allocated j true }

namespace Offers

variable {k : Job} {info : job_info} (h : Offers P c j info c')
include h

theorem metadata_self : c'.metadata j = info := by
  rw [h.heap]
  exact Function.update_self ..

theorem metadata_of_ne (hk : k ≠ j) : c'.metadata k = c.metadata k := by
  rw [h.heap]
  exact Function.update_of_ne hk ..

theorem allocated_self : c'.allocated j := by
  rw [h.heap]
  exact Function.update_self ..

theorem allocated_of_ne (hk : k ≠ j) : c'.allocated k = c.allocated k := by
  rw [h.heap]
  exact Function.update_of_ne hk ..

/-- What was allocated still is. -/
theorem allocated_mono (hk : k = j ∨ c.allocated k) : c'.allocated k := by
  by_cases hkj : k = j
  · exact hkj ▸ h.allocated_self
  · rw [h.allocated_of_ne hkj]
    exact hk.resolve_left hkj

theorem pqueue_scheme : c'.pqueue_scheme = c.pqueue_scheme := by
  rw [h.heap]

end Offers

theorem new_job_cases {n : ℤ} {data : scheduler_info}
    (h : scheduler_new_job P c j n time data = some c') :
    Offers P c j (jobinfo n time data) c' := by
  obtain ⟨hlive, h⟩ := Option.ite_none_right_eq_some.mp h
  cases h
  refine ⟨fun k hk hkj => ?_, rfl, rfl⟩
  have hk : Function.update c.allocated j true k = true := hlive k hk
  rwa [Function.update_of_ne hkj] at hk

theorem evict_cases (h : evict P c j time = some c') :
    c.allocated j ∧ Offers P c j (charge (c.metadata j) time) c' := by
  obtain ⟨hj, h⟩ := Option.ite_none_right_eq_some.mp h
  obtain ⟨hlive, h⟩ := Option.ite_none_right_eq_some.mp h
  cases h
  refine ⟨hj, fun k hk _ => hlive k hk, rfl, ?_⟩
  have hkept : Function.update c.allocated j true = c.allocated :=
    Function.update_eq_self_iff.mpr hj.symm
  rw [hkept]
  rfl

theorem poll_cases {next : Option Job} (h : poll_next P c time = some (c', next)) :
    (next = none ∧ c.pqueue = [] ∧ c' = c) ∨
    ∃ j q, next = some j ∧ c.pqueue = j :: q ∧ c.allocated j ∧
      c' = { c with pqueue := q }.write j (stamp (c.metadata j) time) := by
  rw [poll_next] at h
  cases hq : P.poll c.pqueue with
  | none =>
    rw [hq] at h
    cases h
    exact .inl ⟨rfl, P.poll_eq_none.mp hq, rfl⟩
  | some r =>
    rw [hq] at h
    obtain ⟨hj, h⟩ := Option.ite_none_right_eq_some.mp h
    cases h
    exact .inr ⟨_, _, rfl, P.poll_eq_some.mp hq, hj, rfl⟩

/-- What is taken is the front of the queue. -/
theorem poll_head {next : Option Job} (h : poll_next P c time = some (c', next)) :
    c.pqueue.head? = next := by
  obtain ⟨rfl, hq, -⟩ | ⟨j, q, rfl, hq, -, -⟩ := poll_cases h
  · rw [hq]
    rfl
  · rw [hq]
    rfl

theorem finish_cases (h : scheduler_job_finished c j time = some c') :
    c.allocated j ∧ c'.pqueue = c.pqueue ∧ c'.pqueue_scheme = c.pqueue_scheme ∧
      c'.metadata = Function.update c.metadata j (close (c.metadata j) time) ∧
      c'.allocated = Function.update c.allocated j false := by
  obtain ⟨⟨hj, -⟩, h⟩ := Option.ite_none_right_eq_some.mp h
  cases h
  exact ⟨hj, rfl, rfl, rfl, rfl⟩

theorem finish_totals (h : scheduler_job_finished c j time = some c') :
    c'.job_count = c.job_count + 1 ∧
      c'.total_response_time = c.total_response_time +
        ((c.metadata j).start_time - (c.metadata j).arrival_time) ∧
      c'.total_turnaround_time = c.total_turnaround_time + (time - (c.metadata j).arrival_time) ∧
      c'.total_wait_time = c.total_wait_time +
        (time - (c.metadata j).arrival_time - (c.metadata j).runtime) := by
  obtain ⟨-, h⟩ := Option.ite_none_right_eq_some.mp h
  cases h
  exact ⟨rfl, rfl, rfl, rfl⟩

end Cases

/-! ### The order of the queue -/

section Order

variable {c c' : Scheduler} {j k : Job}

/-- The queue is compared by an order, whatever is on the heap. -/
theorem compare_consistent (c : Scheduler) : Consistent c.compare :=
  (comparision_func_consistent c.pqueue_scheme).comap c.metadata

theorem compare_nonpos :
    c.compare j k ≤ 0 ↔
      key (c.metadata j) c.pqueue_scheme ≤ key (c.metadata k) c.pqueue_scheme :=
  comparision_func_nonpos _

/-- A queue stays sorted while the keys of what is in it stay. -/
theorem sorted_of_key {q : List Job} (hq : q.Pairwise (fun a b => c.compare a b ≤ 0))
    (hscheme : c'.pqueue_scheme = c.pqueue_scheme)
    (hkey : ∀ k ∈ q, key (c'.metadata k) c.pqueue_scheme = key (c.metadata k) c.pqueue_scheme) :
    q.Pairwise (fun a b => c'.compare a b ≤ 0) := by
  refine hq.imp_of_mem fun {a b} ha hb hab => ?_
  rw [compare_nonpos, hscheme, hkey a ha, hkey b hb]
  exact compare_nonpos.mp hab

end Order

/-- With no job finished the quotient is not a number. -/
def average (c : Scheduler) (total : ℚ) : Option ℚ :=
  if c.job_count = 0 then none else some (total / c.job_count)

def scheduler_average_waiting_time (c : Scheduler) : Option ℚ := c.average c.total_wait_time

def scheduler_average_turnaround_time (c : Scheduler) : Option ℚ :=
  c.average c.total_turnaround_time

def scheduler_average_response_time (c : Scheduler) : Option ℚ := c.average c.total_response_time

end Scheduler

end SystemProgramming.SavvyScheduler
