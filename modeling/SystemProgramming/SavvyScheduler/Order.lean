import SystemProgramming.SavvyScheduler.Records

namespace SystemProgramming.SavvyScheduler

open Lib Scheduler Run

/-!
# The scheduler loses no job and picks the right one

Runs in which only the running job finishes.  Every job submitted is in one place, its record
says how long it has had the CPU, and the job a call dispatches is a least one by what the history
knows of the jobs.

* `Proper` — the protocol in which only the running job finishes.
* `Conserved`, `Placed` — every job is in one place, and what that rests on.
* `Picks` — which job a call leaves running.
* `scheduler_picks` — the result.
* `proper_defined` — no call reads a freed record.
-/

/-- Only the running job finishes. -/
def Proper (s : Run) (e : Event) : Prop :=
  Called s e ∧
    match e with
    | .job_finished job_done _ => s.running = some job_done
    | _ => True

instance (s : Run) : ∀ e : Event, Decidable (Proper s e)
  | .new_job newjob job_number time sched_data =>
    inferInstanceAs (Decidable (Called s (.new_job newjob job_number time sched_data) ∧ True))
  | .quantum_expired job_evicted time =>
    inferInstanceAs (Decidable (Called s (.quantum_expired job_evicted time) ∧ True))
  | .job_finished job_done time =>
    inferInstanceAs (Decidable (Called s (.job_finished job_done time) ∧
      s.running = some job_done))

/-- Every job submitted is one of running, queued and finished, and only one. -/
structure Conserved (s : Run) : Prop where
  nodup : (s.jobs ++ s.finished.map Finished.job).Nodup
  mem : ∀ j, j ∈ s.submitted ↔ j ∈ s.jobs ++ s.finished.map Finished.job

/-- The used time of a record and the current stretch make up the time the job has had the CPU. -/
structure Accounted (s : Run) : Prop where
  jobs : ∀ j ∈ s.jobs, (s.sched.metadata j).used_time + s.stretch j = s.held j
  finished : ∀ d ∈ s.finished, d.info.used_time = d.held

structure Placed (s : Run) : Prop extends Conserved s where
  live : ∀ j ∈ s.jobs, s.sched.allocated j
  count : s.sched.job_count = s.finished.length
  used : ∀ d ∈ s.finished, d.info.used_time = d.held

/-- The job that runs, if any, is a least one of those that were ready. -/
def Least (ready : List Job) (le : Job → Job → Prop) : Option Job → Prop
  | none => ready = []
  | some j => j ∈ ready ∧ ∀ k ∈ ready, le j k

/-- Which job runs after a call. -/
structure Picks (scheme : scheme_t) (s : Run) (e : Event) (s' : Run) : Prop where
  /-- Without preemption the running job runs until it finishes. -/
  stays : preempts scheme = false → ∀ j, s.running = some j →
    s'.running = some j ∨ ∃ time, e = .job_finished j time
  /-- Without preemption an idle CPU gets a least job of the queue. -/
  idle : preempts scheme = false → ∀ time, e = .quantum_expired none time →
    Least s.sched.pqueue (fun j k => s.sched.compare j k ≤ 0) s'.running
  ppri : scheme = .PPRI → ∀ j time, e = .quantum_expired j time →
    Least s.jobs (fun j k => toLex ((s.data j).priority, s.arrival j) ≤
      toLex ((s.data k).priority, s.arrival k)) s'.running
  psrtf : scheme = .PSRTF → ∀ j time, e = .quantum_expired j time →
    Least s.jobs (fun j k => toLex ((s.data j).running_time - s'.held j, s.arrival j) ≤
      toLex ((s.data k).running_time - s'.held k, s.arrival k)) s'.running

variable {P : StableQueue Job} {scheme : scheme_t} {s s' : Run} {c : Scheduler} {j k : Job}
  {e : Event} {time : ℚ}

/-! ### Every job is in one place -/

namespace Placed

variable (hP : Placed s) (hK : Known scheme s)
include hP

theorem tick (time : ℚ) : Placed (s.tick time) :=
  ⟨⟨hP.nodup, hP.mem⟩, hP.live, hP.count, hP.used⟩

/-- The jobs of a state in the order of another's. -/
theorem of_perm (hjobs : s'.jobs.Perm s.jobs) (hsub : s'.submitted = s.submitted)
    (hfin : s'.finished = s.finished) (hlive : ∀ j, s.sched.allocated j → s'.sched.allocated j)
    (hcount : s'.sched.job_count = s.sched.job_count) : Placed s' := by
  have hall := hjobs.append_right (s.finished.map Finished.job)
  refine ⟨⟨?_, ?_⟩, ?_, ?_, hfin ▸ hP.used⟩
  · rw [hfin, hall.nodup_iff]
    exact hP.nodup
  · intro j
    rw [hsub, hfin, hall.mem_iff]
    exact hP.mem j
  · intro j hj
    exact hlive j (hP.live j (hjobs.mem_iff.mp hj))
  · rw [hcount, hfin]
    exact hP.count

include hK

theorem submit {n : ℤ} {data : scheduler_info} (hfresh : j ∉ s.submitted)
    (hoff : Offers P s.sched j (jobinfo n s.now data) c) : Placed (s.submit j data c) := by
  have hjobs := hK.jobs_submit hfresh hoff
  have hall := hjobs.append_right (s.finished.map Finished.job)
  refine ⟨⟨?_, ?_⟩, ?_, ?_, hP.used⟩
  · show ((s.submit j data c).jobs ++ s.finished.map Finished.job).Nodup
    rw [hall.nodup_iff, List.cons_append, List.nodup_cons, ← hP.mem]
    exact ⟨hfresh, hP.nodup⟩
  · intro k
    show k ∈ j :: s.submitted ↔ k ∈ (s.submit j data c).jobs ++ s.finished.map Finished.job
    rw [hall.mem_iff, List.cons_append, List.mem_cons, List.mem_cons, hP.mem]
  · intro k hk
    exact hoff.allocated_mono ((List.mem_cons.mp (hjobs.mem_iff.mp hk)).imp id (hP.live k))
  · show c.job_count = s.finished.length
    rw [hoff.heap]
    exact hP.count

theorem release (hrun : s.running = some j)
    (hoff : Offers P s.sched j (charge (s.sched.metadata j) s.now) c) : Placed (s.release j c) := by
  refine hP.of_perm (hK.jobs_release hrun hoff) rfl rfl (fun k hk => ?_) ?_
  · exact hoff.allocated_mono (.inr hk)
  · show c.job_count = s.sched.job_count
    rw [hoff.heap]

omit hK in
theorem take {next : Option Job} (hrun : s.running = none)
    (hpoll : poll_next P s.sched s.now = some (c, next)) : Placed (s.take next c) := by
  have hjobs := Known.jobs_take hrun hpoll
  obtain ⟨-, -, rfl⟩ | ⟨j, q, -, -, -, rfl⟩ := poll_cases hpoll
  · exact hP.of_perm (hjobs ▸ List.Perm.refl _) rfl rfl (fun _ hk => hk) rfl
  · exact hP.of_perm (hjobs ▸ List.Perm.refl _) rfl rfl (fun _ hk => hk) rfl

theorem finish (hrun : s.running = some j)
    (hfin : scheduler_job_finished s.sched j s.now = some c) : Placed (s.finish j c) := by
  obtain ⟨hlive, hqueue, -, -, halloc⟩ := finish_cases hfin
  have hjobs : s.jobs = j :: (s.finish j c).jobs := by
    rw [jobs, jobs, hrun]
    show j :: s.sched.pqueue = j :: ((if s.running = some j then none else s.running).toList ++
      c.pqueue)
    rw [if_pos hrun, hqueue]
    rfl
  have hdone : (s.finish j c).finished.map Finished.job = s.finished.map Finished.job ++ [j] := by
    show (s.finished ++ [_]).map Finished.job = _
    rw [List.map_append]
    rfl
  -- the job moves from the front of one list to the end of the other
  have hall : ((s.finish j c).jobs ++ (s.finish j c).finished.map Finished.job).Perm
      (s.jobs ++ s.finished.map Finished.job) := by
    rw [hjobs, hdone, ← List.append_assoc]
    exact List.perm_append_singleton j _
  refine ⟨⟨hall.nodup_iff.mpr hP.nodup, fun k => ?_⟩, ?_, ?_, ?_⟩
  · rw [hall.mem_iff]
    exact hP.mem k
  · intro k hk
    have hkj : k ≠ j := by
      rintro rfl
      have hnd := hK.nodup
      rw [hjobs] at hnd
      exact (List.nodup_cons.mp hnd).1 hk
    show c.allocated k
    rw [halloc, Function.update_of_ne hkj]
    exact hP.live k (hjobs ▸ List.mem_cons_of_mem j hk)
  · show c.job_count = ((s.finished ++ [_]).length : ℤ)
    rw [(finish_totals hfin).1, hP.count, List.length_append]
    rfl
  · intro d hd
    rcases List.mem_append.mp hd with hd | hd
    · exact hP.used d hd
    · obtain rfl := List.mem_singleton.mp hd
      -- the last stretch is charged as the record is closed
      obtain ⟨-, hbegan⟩ := hK.running j hrun
      have hused := (hK.record j hlive).used
      rw [stretch_of_running hrun] at hused
      show (s.sched.metadata j).used_time + (s.now - (s.sched.metadata j).rr_time) = s.held j
      rw [hbegan, hused]

end Placed

theorem Placed.step (hP : Placed s) (hK : Known scheme s) (hok : Proper s e)
    (h : s.step P e = some s') : Placed s' := by
  cases step_cases hok.1 h with
  | new_job hfresh hnew => exact (hP.tick _).submit (hK.tick _) hfresh (new_job_cases hnew)
  | stay => exact hP.tick _
  | switch _ hrun hevict hpoll =>
    exact ((hP.tick _).release (hK.tick _) hrun (evict_cases hevict).2).take rfl hpoll
  | idle hrun hpoll => exact (hP.tick _).take hrun hpoll
  | finish hfin => exact (hP.tick _).finish (hK.tick _) hok.2 hfin

theorem called_of_proper (hr : (runs P scheme).Reach Proper s) : (runs P scheme).Reach Called s :=
  hr.mono fun _ _ hok => hok.1

theorem placed_start (now : ℚ) : Placed (start scheme now) :=
  ⟨⟨List.nodup_nil, fun _ => Iff.rfl⟩, fun _ hj => absurd hj List.not_mem_nil, rfl,
    fun _ hd => absurd hd List.not_mem_nil⟩

theorem placed (hr : (runs P scheme).Reach Proper s) : Placed s :=
  (known_invariant hr (fun _ _ hok => hok.1) placed_start
    fun _ _ _ hK hP hok h => hP.step hK hok h).2

theorem accounted (hr : (runs P scheme).Reach Proper s) : Accounted s where
  jobs j hj := ((known (called_of_proper hr)).record j ((placed hr).live j hj)).used
  finished := (placed hr).used

/-! ### The job that is dispatched -/

/-- What is taken from a sorted queue is a least element of it. -/
theorem take_least {next : Option Job} (hK : Known scheme s)
    (hlive : ∀ k ∈ s.sched.pqueue, s.sched.allocated k)
    (hpoll : poll_next P s.sched time = some (c, next)) :
    Least s.sched.pqueue (fun j k => s.sched.compare j k ≤ 0) next := by
  have hsorted := hK.sorted hlive
  obtain ⟨rfl, hq, -⟩ | ⟨j, q, rfl, hq, -, -⟩ := poll_cases hpoll
  · exact hq
  · rw [hq] at hsorted ⊢
    exact ⟨List.mem_cons_self, fun k hk =>
      StableQueue.front_le (compare_consistent s.sched) hsorted hk⟩

/-- A least element by one order is one by another that agrees with it, and where it is looked
    for does not depend on how the jobs are listed. -/
theorem Least.congr {q q' : List Job} {le le' : Job → Job → Prop} {next : Option Job}
    (h : Least q le next) (hq : q.Perm q') (hle : ∀ j ∈ q, ∀ k ∈ q, le j k → le' j k) :
    Least q' le' next := by
  cases next with
  | none =>
    obtain rfl : q = [] := h
    exact hq.nil_eq.symm
  | some j =>
    obtain ⟨hj, hleast⟩ := h
    refine ⟨hq.mem_iff.mp hj, fun k hk => ?_⟩
    have hk := hq.mem_iff.mpr hk
    exact hle j hj k hk (hleast k hk)

section Ranks

variable (hK : Known scheme s) (hidle : s.running = none) (hj : s.sched.allocated j)
  (hk : s.sched.allocated k) (hle : s.sched.compare j k ≤ 0)
include hK hj hk hle

/-- The keys of the priority scheme, in terms of the history. -/
theorem rank_ppri (hscheme : scheme = .PPRI) :
    toLex ((s.data j).priority, s.arrival j) ≤ toLex ((s.data k).priority, s.arrival k) := by
  have hrj := hK.record j hj
  have hrk := hK.record k hk
  rw [compare_nonpos, hK.scheme, hscheme] at hle
  simp only [key, Prod.Lex.toLex_le_toLex, Int.cast_lt, Int.cast_inj] at hle ⊢
  rwa [hrj.priority, hrj.arrival, hrk.priority, hrk.arrival] at hle

include hidle in
/-- With no job running, the used times are the times on the CPU. -/
theorem rank_psrtf (hscheme : scheme = .PSRTF) :
    toLex ((s.data j).running_time - s.held j, s.arrival j) ≤
      toLex ((s.data k).running_time - s.held k, s.arrival k) := by
  have hrj := hK.record j hj
  have hrk := hK.record k hk
  have hused : ∀ i, s.sched.allocated i → (s.sched.metadata i).used_time = s.held i := by
    intro i hi
    have hused := (hK.record i hi).used
    rwa [stretch_of_not_running (by simp [hidle]), add_zero] at hused
  rw [compare_nonpos, hK.scheme, hscheme] at hle
  simp only [key, Prod.Lex.toLex_le_toLex] at hle ⊢
  rwa [hrj.runtime, hrj.arrival, hrk.runtime, hrk.arrival, hused j hj, hused k hk] at hle

end Ranks

/-- A call that dispatches, from a state `s₁` with nothing running and the ready jobs of `s`. -/
theorem picks_of_take {s₁ : Run} {next : Option Job} (hK : Known scheme s₁) (hP : Placed s₁)
    (hidle : s₁.running = none) (hjobs : s₁.jobs.Perm s.jobs) (hdata : s₁.data = s.data)
    (harr : s₁.arrival = s.arrival) (hpoll : poll_next P s₁.sched s₁.now = some (c, next)) :
    (scheme = .PPRI → Least s.jobs (fun j k => toLex ((s.data j).priority, s.arrival j) ≤
      toLex ((s.data k).priority, s.arrival k)) next) ∧
    (scheme = .PSRTF → Least s.jobs (fun j k =>
      toLex ((s.data j).running_time - s₁.held j, s.arrival j) ≤
        toLex ((s.data k).running_time - s₁.held k, s.arrival k)) next) := by
  have hqueue : s₁.jobs = s₁.sched.pqueue := by
    rw [jobs, hidle]
    rfl
  rw [hqueue] at hjobs
  have hlive : ∀ k ∈ s₁.sched.pqueue, s₁.sched.allocated k := fun k hk => hP.live k (hqueue ▸ hk)
  have hleast := take_least hK hlive hpoll
  rw [← hdata, ← harr]
  refine ⟨fun hscheme => hleast.congr hjobs fun j hj k hk hle => ?_,
    fun hscheme => hleast.congr hjobs fun j hj k hk hle => ?_⟩
  · exact rank_ppri hK (hlive j hj) (hlive k hk) hle hscheme
  · exact rank_psrtf hK hidle (hlive j hj) (hlive k hk) hle hscheme

theorem picks_of_step (hK : Known scheme s) (hP : Placed s) (hok : Proper s e)
    (h : s.step P e = some s') : Picks scheme s e s' := by
  cases step_cases hok.1 h with
  | new_job _ hnew => exact ⟨fun _ _ hrun => .inl hrun, fun _ _ => nofun, fun _ _ _ => nofun,
      fun _ _ _ => nofun⟩
  | stay hpre hrun =>
    rw [hK.scheme] at hpre
    refine ⟨fun _ _ hrun => .inl hrun, fun _ _ => nofun, ?_, ?_⟩
    · rintro rfl
      cases hpre
    · rintro rfl
      cases hpre
  | @switch j time c next c' hpre hrun hevict hpoll =>
    rw [hK.scheme] at hpre
    -- the running job is queued again before the next one is taken
    have hoff := (evict_cases hevict).2
    have hjobs := (hK.tick time).jobs_release hrun hoff
    obtain ⟨hppri, hpsrtf⟩ := picks_of_take (s := s) ((hK.tick time).release hrun hoff)
      ((hP.tick time).release (hK.tick time) hrun hoff) rfl hjobs rfl rfl hpoll
    refine ⟨fun hnot => ?_, fun hnot => ?_, fun hs _ _ _ => hppri hs, fun hs _ _ _ => hpsrtf hs⟩
    · rw [hpre] at hnot
      cases hnot
    · rw [hpre] at hnot
      cases hnot
  | @idle time next c hrun hpoll =>
    obtain ⟨hppri, hpsrtf⟩ := picks_of_take (s := s) (hK.tick time) (hP.tick time) hrun
      (List.Perm.refl _) rfl rfl hpoll
    refine ⟨fun _ j hrun' => ?_, fun _ _ _ => ?_, fun hs _ _ _ => hppri hs,
      fun hs _ _ _ => hpsrtf hs⟩
    · rw [hrun] at hrun'
      cases hrun'
    · exact take_least hK (fun k hk => hP.live k (List.mem_append_right _ hk)) hpoll
  | @finish j time c hfin =>
    refine ⟨fun _ k hrun => .inr ?_, fun _ _ => nofun, fun _ _ _ => nofun, fun _ _ _ => nofun⟩
    have hrun' : s.running = some j := hok.2
    rw [hrun'] at hrun
    exact ⟨time, by rw [Option.some.inj hrun]⟩

/-! ### No call reads a freed record -/

theorem poll_defined {c : Scheduler} (hlive : ∀ k ∈ c.pqueue, c.allocated k) :
    ∃ r, poll_next P c time = some r := by
  rw [poll_next]
  cases hq : P.poll c.pqueue with
  | none => exact ⟨_, rfl⟩
  | some r =>
    have hfront := P.poll_eq_some.mp hq
    exact ⟨_, if_pos (hlive r.1 (hfront ▸ List.mem_cons_self))⟩

theorem evict_defined {c : Scheduler} (hj : c.allocated j)
    (hlive : ∀ k ∈ c.pqueue, c.allocated k) : ∃ c', evict P c j time = some c' :=
  ⟨_, (if_pos hj).trans (if_pos hlive)⟩

/-- **No call reads a freed record**, and short of `INT_MAX` finished jobs every call returns. -/
theorem proper_defined (hr : (runs P scheme).Reach Proper s) (hok : Proper s e)
    (hcount : s.finished.length < 2 ^ 31 - 1) : ∃ s', (runs P scheme).step s e = some s' := by
  have hK := known (called_of_proper hr)
  have hP := placed hr
  have hlive : ∀ k ∈ s.sched.pqueue, s.sched.allocated k :=
    fun k hk => hP.live k (List.mem_append_right _ hk)
  have hmap {α : Type} {o : Option α} {f : α → Run} (h : ∃ r, o = some r) :
      ∃ s', o.map f = some s' := by
    obtain ⟨r, rfl⟩ := h
    exact ⟨f r, rfl⟩
  cases e with
  | new_job j n time data =>
    refine hmap ⟨_, if_pos fun k hk => ?_⟩
    show Function.update s.sched.allocated j true k = true
    by_cases hkj : k = j
    · rw [hkj, Function.update_self]
    · rw [Function.update_of_ne hkj]
      exact hlive k hk
  | job_finished j time =>
    refine hmap ⟨_, if_pos ⟨hP.live j (mem_jobs_of_running hok.2), ?_⟩⟩
    rw [hP.count]
    omega
  | quantum_expired j time =>
    have hrun : j = s.running := hok.1.2
    refine hmap ?_
    unfold scheduler_quantum_expired
    split
    · rename_i j hj
      have hrun : s.running = some j := hrun.symm
      obtain ⟨c, hc⟩ : ∃ c, evict P s.sched j time = some c :=
        evict_defined (hP.live j (mem_jobs_of_running hrun)) hlive
      -- the evicted job is in the queue with its record
      have hP' := (hP.tick time).release (hK.tick time) hrun (evict_cases hc).2
      rw [hc]
      exact poll_defined fun k hk => hP'.live k (List.mem_append_right _ hk)
    · exact poll_defined hlive
    · exact ⟨_, rfl⟩
    · exact poll_defined hlive

/-- **The scheduler loses no job and picks the right one.** -/
theorem scheduler_picks (hr : (runs P scheme).Reach Proper s) :
    Conserved s ∧ Accounted s ∧
      ∀ e s', Proper s e → (runs P scheme).step s e = some s' → Picks scheme s e s' :=
  ⟨(placed hr).toConserved, accounted hr, fun _ _ hok h =>
    picks_of_step (known (called_of_proper hr)) (placed hr) hok h⟩

/-- A shorter job is taken up where a longer one is interrupted. -/
theorem scheduler_picks_some : ∃ s s' : Run,
    s.running = some 1 ∧ s'.running = some 2 ∧ Conserved s ∧ Accounted s ∧
      Picks .PSRTF s (.quantum_expired (some 1) 2) s' := by
  have hrun : ((runs .sorting .PSRTF).run Proper (start .PSRTF 0) [.new_job 1 1 0 ⟨10, 1⟩,
      .quantum_expired none 0, .new_job 2 2 1 ⟨5, 1⟩]).any (fun s => decide (s.running = some 1 ∧
        Proper s (.quantum_expired (some 1) 2) ∧
        ((runs .sorting .PSRTF).step s (.quantum_expired (some 1) 2)).any
          (fun s' => decide (s'.running = some 2)) = true)) = true := by
    decide +kernel
  obtain ⟨s, hs, hdone⟩ := (Option.any_eq_true _ _).mp hrun
  have hr : (runs .sorting .PSRTF).Reach Proper s := .of_run (.init ⟨0, rfl⟩) hs
  obtain ⟨hone, hok, hnext⟩ := of_decide_eq_true hdone
  obtain ⟨s', hs', htwo⟩ := (Option.any_eq_true _ _).mp hnext
  obtain ⟨hconserved, haccounted, hpicks⟩ := scheduler_picks hr
  exact ⟨s, s', hone, of_decide_eq_true htwo, hconserved, haccounted, hpicks _ s' hok hs'⟩

end SystemProgramming.SavvyScheduler
