import SystemProgramming.ParMake.Flow
import SystemProgramming.ParMake.Ordering
import SystemProgramming.ParMake.Preprocess

namespace SystemProgramming.ParMake

open SystemProgramming.Lib Relation

/-!
# `parallel_make/parmake.c` — the threads do not get stuck

For a graph that preprocessing has pruned:

* `Flow.not_stuck` — while the main thread waits for `checked`, a rule is in `jobs` or with
  a worker;
* `potential_lt` — every step lowers a potential, so no run goes on for ever;
* `Reachable.live` — both together: every run can be continued until the main thread has
  pulled the sentinel and all threads have ended, and every run that is continued does.

The argument for the first: with both queues empty, nothing is in hand.  If some rule was
taken with state -1, the failure has been taken from every rule above it, up to the
sentinel, on which the loop ends.  Otherwise a minimal rule that was never pushed has all
its dependencies counted, so it was pushed.
-/

variable {V : Type*} [DecidableEq V] {n : ℕ} {mk : Makefile V} {s s' : St V n} {l : Label n}
  {r p c : V} {i : Fin n}

/-! ### No deadlock -/

namespace Flow

/-- When nothing is on its way, a failure has reached every rule above. -/
theorem taken_above (hF : Flow mk s) (hm : s.main = .pulling) (hc : s.checked = [])
    (ht : .take c (-1) ∈ s.trace) (hp : ReflTransGen mk.graph.Dep p c) :
    .take p (-1) ∈ s.trace := by
  induction hp using ReflTransGen.head_induction_on with
  | refl => exact ht
  | @head a b hdep _ ih =>
    have hrep := (hF.reported b a ih hdep).resolve_left (by simp [hm, Main.out])
    cases hrep with
    | taken h => exact h
    | queued h => simp [hc] at h
    | pulled h | next _ h | now _ _ h => simp [hm] at h

/-- A rule that was pushed and is nowhere else has been taken. -/
theorem taken_of_quiet (hI : Inv mk s) (hm : s.main = .pulling) (hc : s.checked = [])
    (hj : s.jobs = []) (hw : ∀ i, (s.workers i).job = none) (hp : .push r ∈ s.trace) :
    .take r 0 ∈ s.trace ∨ .take r (-1) ∈ s.trace := by
  have hone := hI.places r hp
  have hwork : inWork s r = 0 := by simp [inWork, hw]
  have hhand : inHand mk s r = 0 := by simp [inHand, hm, Main.out]
  rw [places, hj, hc, hwork, hhand] at hone
  by_contra hno
  obtain ⟨h0, h1⟩ := not_or.mp hno
  rw [List.count_eq_zero.mpr h0, List.count_eq_zero.mpr h1] at hone
  simp at hone

/-- **No deadlock.**  While the main thread waits, a rule is queued or being processed. -/
theorem not_stuck (hF : Flow mk s) (hI : Inv mk s) (hg : Pruned mk.sentinel mk.graph)
    (hm : s.main = .pulling) (hc : s.checked = []) :
    s.jobs ≠ [] ∨ ∃ i, (s.workers i).job ≠ none := by
  by_contra hno
  obtain ⟨hj, hw⟩ := not_or.mp hno
  have hj : s.jobs = [] := not_not.mp hj
  have hw : ∀ i, (s.workers i).job = none := fun i => not_not.mp (not_exists.mp hw i)
  by_cases hfail : ∃ r ∈ mk.graph.vertices, .take r (-1) ∈ s.trace
  · -- the failure would have reached the sentinel
    obtain ⟨r, hr, ht⟩ := hfail
    exact hF.sentinel (-1) (hF.taken_above hm hc ht (hg.reach r hr))
  · have hok : ∀ d, .push d ∈ s.trace → .take d 0 ∈ s.trace := fun d hd =>
      (taken_of_quiet hI hm hc hj hw hd).resolve_right
        (fun h => hfail ⟨d, ((hI.pushed d).mp hd).1, h⟩)
    have hsent : .push mk.sentinel ∉ s.trace := fun h => hF.sentinel 0 (hok _ h)
    -- a minimal rule that was not pushed
    obtain ⟨m, ⟨hmv, hmp⟩, hmin⟩ := hg.acyclic.minimal mk.graph.vertices.toFinset
      (fun a b hab => List.mem_toFinset.mpr (mk.graph.target_mem a b hab))
      (P := fun r => r ∈ mk.graph.vertices ∧ .push r ∉ s.trace) ⟨hg.sentinel_mem, hsent⟩
    have hall : ∀ d ∈ mk.graph.neighbors m, .take d 0 ∈ s.trace := by
      intro d hd
      have hdp := not_and.mp (hmin d hd) (mk.graph.target_mem m d hd)
      exact hok d (not_not.mp hdp)
    have hcount := hI.satisfied m
    rw [show pending s m = 0 by simp [pending, hm],
      List.countP_eq_length.mpr (fun d hd => decide_eq_true (hall d hd))] at hcount
    exact hmp ((hI.pushed m).mpr ⟨hmv, hcount.ge⟩)

end Flow

/-! ### Every thread that is not blocked can move -/

/-- A worker with a rule or with `NULL` in hand can move, whatever it is told. -/
theorem workerStep_of_job (mk : Makefile V) (b : Bool)
    (h : (s.workers i).job ≠ none ∨ s.workers i = .stopping) :
    ∃ s', step mk s (.worker i b) = some s' := by
  show ∃ s', workerStep mk s i b = some s'
  unfold workerStep
  split
  · rename_i hw
    simp [hw, Worker.job] at h
  · exact ⟨_, rfl⟩
  · split <;> exact ⟨_, rfl⟩
  · exact ⟨_, rfl⟩
  · exact ⟨_, rfl⟩
  · exact ⟨_, rfl⟩
  · rename_i hw
    simp [hw, Worker.job] at h

/-- An idle worker can move when `jobs` is not empty. -/
theorem workerStep_of_idle (mk : Makefile V) (b : Bool) (hw : s.workers i = .idle)
    (hj : s.jobs ≠ []) :
    ∃ s', step mk s (.worker i b) = some s' := by
  show ∃ s', workerStep mk s i b = some s'
  unfold workerStep
  rw [hw]
  match hq : s.jobs with
  | [] => exact absurd hq hj
  | some r :: jobs => exact ⟨_, rfl⟩
  | none :: jobs => exact ⟨_, rfl⟩

/-- A worker that has not ended can move when `jobs` is not empty. -/
theorem workerStep_of_not_exited (mk : Makefile V) (b : Bool) (hw : s.workers i ≠ .exited)
    (hj : s.jobs ≠ []) :
    ∃ s', step mk s (.worker i b) = some s' := by
  cases hi : s.workers i with
  | idle => exact workerStep_of_idle mk b hi hj
  | exited => exact absurd hi hw
  | stopping => exact workerStep_of_job mk b (.inr hi)
  | checking | running | setting | pushing =>
    exact workerStep_of_job mk b (.inl (by simp [hi, Worker.job]))

/-- The main thread is blocked only in `queue_pull` and in `pthread_join`. -/
theorem mainStep_of_not_blocked (mk : Makefile V) (hp : s.main = .pulling → s.checked ≠ [])
    (hj : ∀ k (hk : k < n), s.main = .joining k → s.workers ⟨k, hk⟩ = .exited)
    (hr : s.main ≠ .returned) : ∃ s', step mk s .main = some s' := by
  show ∃ s', mainStep mk s = some s'
  unfold mainStep
  split
  · rename_i hm
    match hq : s.checked with
    | [] => exact absurd hq (hp hm)
    | r :: checked => exact ⟨_, rfl⟩
  · split
    · exact ⟨_, rfl⟩
    · split
      · exact ⟨_, rfl⟩
      · split <;> exact ⟨_, rfl⟩
  · exact ⟨_, rfl⟩
  · exact ⟨_, rfl⟩
  · exact ⟨_, rfl⟩
  · exact ⟨_, rfl⟩
  · dsimp only
    split <;> exact ⟨_, rfl⟩
  · exact ⟨_, rfl⟩
  · rename_i k hm
    split
    · rename_i hk
      rw [if_pos (hj k hk hm)]
      exact ⟨_, rfl⟩
    · exact ⟨_, rfl⟩
  · exact absurd ‹_› hr

/-- **Some thread can move.**  The worker may be told anything. -/
theorem Flow.exists_step (hF : Flow mk s) (hI : Inv mk s) (hg : Pruned mk.sentinel mk.graph)
    (hn : 0 < n) (hr : s.main ≠ .returned) (b : Bool) :
    ∃ l s', ParMake.step mk s l = some s' ∧ ∀ i b', l = .worker i b' → b' = b := by
  by_cases hpull : s.main = .pulling ∧ s.checked = []
  · obtain ⟨hm, hc⟩ := hpull
    have hended := (hF.inLoop (.inl (by simp [hm, Main.out]))).2
    rcases hF.not_stuck hI hg hm hc with hj | ⟨i, hi⟩
    · -- any worker will do: none has ended
      have hw : s.workers ⟨0, hn⟩ ≠ .exited := fun h => hended ⟨0, hn⟩ (by rw [h]; trivial)
      obtain ⟨s', hs⟩ := workerStep_of_not_exited mk b hw hj
      exact ⟨_, s', hs, fun i b' h => (Label.worker.inj h).2.symm⟩
    · obtain ⟨s', hs⟩ := workerStep_of_job mk b (.inl hi)
      exact ⟨_, s', hs, fun i b' h => (Label.worker.inj h).2.symm⟩
  · by_cases hjoin : ∃ k, ∃ hk : k < n, s.main = .joining k ∧ s.workers ⟨k, hk⟩ ≠ .exited
    · obtain ⟨k, hk, hm, hw⟩ := hjoin
      rcases hF.null (by simp [hm, Main.out]) (by simp [hm]) with hnull | ⟨j, hj⟩
      · obtain ⟨s', hs⟩ := workerStep_of_not_exited mk b hw (List.ne_nil_of_mem hnull)
        exact ⟨_, s', hs, fun i b' h => (Label.worker.inj h).2.symm⟩
      · obtain ⟨s', hs⟩ := workerStep_of_job mk b (.inr hj)
        exact ⟨_, s', hs, fun i b' h => (Label.worker.inj h).2.symm⟩
    · obtain ⟨s', hs⟩ := mainStep_of_not_blocked mk (fun hm hc => hpull ⟨hm, hc⟩)
        (fun k hk hm => by_contra (fun hw => hjoin ⟨k, hk, hm, hw⟩)) hr
      exact ⟨_, s', hs, fun i b' h => by cases h⟩

/-! ### Every step costs something -/

/-- What a rule in `checked` can still cause, when `job` is what a rule in `jobs` can. -/
def told (mk : Makefile V) (job : V → ℕ) (r : V) : ℕ :=
  3 + ((mk.graph.antineighbors r).map (fun p => 2 + job p)).sum

/-- What a worker can still cause. -/
def Worker.cost (mk : Makefile V) (job : V → ℕ) : Worker V → ℕ
  | idle => 2
  | checking r => told mk job r + (mk.commands r).length + 6
  | running r k => told mk job r + ((mk.commands r).length - k) + 5
  | setting r _ => told mk job r + 4
  | pushing r => told mk job r + 3
  | stopping => 1
  | exited => 0

section

variable (job : V → ℕ)

@[simp] theorem Worker.cost_idle : (idle : Worker V).cost mk job = 2 := rfl

@[simp] theorem Worker.cost_checking :
    (checking r).cost mk job = told mk job r + (mk.commands r).length + 6 := rfl

@[simp] theorem Worker.cost_running (k : ℕ) :
    (running r k).cost mk job = told mk job r + ((mk.commands r).length - k) + 5 := rfl

@[simp] theorem Worker.cost_setting (st : ℤ) : (setting r st).cost mk job = told mk job r + 4 := rfl

@[simp] theorem Worker.cost_pushing : (pushing r).cost mk job = told mk job r + 3 := rfl

@[simp] theorem Worker.cost_stopping : (stopping : Worker V).cost mk job = 1 := rfl

@[simp] theorem Worker.cost_exited : (exited : Worker V).cost mk job = 0 := rfl

end

/-- What the main thread can still cause; `n` threads are to be joined. -/
def Main.cost (mk : Makefile V) (job : V → ℕ) (n : ℕ) : Main V → ℕ
  | pulling => n + 2
  | pulled r => n + 1 + told mk job r
  | failing _ ps => n + 3 + (ps.map (fun p => 2 + job p)).sum
  | reporting _ p ps => n + 4 + job p + (ps.map (fun p => 2 + job p)).sum
  | counting _ ps => n + 3 + (ps.map (fun p => 2 + job p)).sum
  | broke => n + 2
  | joining k => n - k + 1
  | returned => 0

/-- What all of them can still cause. -/
def potential (mk : Makefile V) (job : V → ℕ) (s : St V n) : ℕ :=
  (s.jobs.map (fun j => j.elim 0 job)).sum + (s.checked.map (told mk job)).sum +
    ∑ i, (s.workers i).cost mk job + s.main.cost mk job n

/-- A rule in `jobs` can cause what its worker does, and what it causes in `checked`. -/
def Balanced (mk : Makefile V) (job : V → ℕ) : Prop :=
  ∀ r, job r = told mk job r + (mk.commands r).length + 5

/-- Costs can be chosen: the parents' are fixed first. -/
theorem exists_balanced (hg : Acyclic mk.graph.Dep) : ∃ job, Balanced mk job := by
  have hflip : Acyclic (fun a b => b ∈ mk.graph.antineighbors a) := by
    intro a ha
    refine hg a (transGen_swap.mp (TransGen.mono (fun x y h => ?_) a a ha))
    exact (mk.graph.mem_antineighbors y x).mp h
  obtain ⟨job, hjob⟩ := hflip.exists_fold mk.graph.vertices.toFinset
    (fun a b hb => List.mem_toFinset.mpr
      (mk.graph.source_mem b a ((mk.graph.mem_antineighbors b a).mp hb)))
    (fun r costs => 3 + (costs.map (2 + ·)).sum + (mk.commands r).length + 5)
  refine ⟨job, fun r => ?_⟩
  rw [hjob r, List.map_map]
  rfl

/-- **Every step lowers the potential.** -/
theorem potential_lt {job : V → ℕ} (hjob : Balanced mk job) (hs : Step mk s l s') :
    potential mk job s' < potential mk job s := by
  unfold potential
  cases hs with
  | pull hm hc =>
    simp only [hm, hc, List.map_cons, List.sum_cons, Main.cost]
    omega
  | leave hm | takeFailed hm | takeOk hm | skip hm | failDone hm | countDone hm =>
    simp only [hm, Main.cost, told]
    omega
  | poison hm =>
    simp only [hm, Main.cost, List.map_cons, List.sum_cons]
    omega
  | @report t p ps hm =>
    -- reporting a rule costs less than the job that it is not going to be
    have hcost := hjob p
    simp only [hm, Main.cost, List.map_append, List.sum_append, List.map_cons, List.sum_cons,
      List.map_nil, List.sum_nil]
    omega
  | countPush hm | count hm | sendNull hm | join hm | done hm =>
    simp only [hm, Main.cost, List.map_append, List.sum_append, List.map_cons, List.sum_cons,
      List.map_nil, List.sum_nil, Option.elim_some, Option.elim_none]
    omega
  | @start i b r jobs hw hj =>
    have hcost := hjob r
    have hsum := sum_update (fun w => w.cost mk job) s.workers i (.checking r)
    simp only [hw, Worker.cost_idle, Worker.cost_checking] at hsum
    simp only [hj, List.map_cons, List.sum_cons, Option.elim_some]
    omega
  | @getNull i b jobs hw hj =>
    have hsum := sum_update (fun w => w.cost mk job) s.workers i .stopping
    simp only [hw, Worker.cost_idle, Worker.cost_stopping] at hsum
    simp only [hj, List.map_cons, List.sum_cons, Option.elim_none]
    omega
  | @check i b r hw =>
    have hsum := sum_update (fun w => w.cost mk job) s.workers i
      (if b then .running r 0 else .setting r 0)
    cases b with
    | true | false =>
      simp only [hw, Worker.cost_checking, Worker.cost_running, Worker.cost_setting, if_true,
        if_false, Bool.false_eq_true] at hsum ⊢
      omega
  | @runOk i r k hw hk =>
    have hsum := sum_update (fun w => w.cost mk job) s.workers i (.running r (k + 1))
    simp only [hw, Worker.cost_running] at hsum
    dsimp only
    omega
  | @runFail i r k hw =>
    have hsum := sum_update (fun w => w.cost mk job) s.workers i (.setting r (-1))
    simp only [hw, Worker.cost_running, Worker.cost_setting] at hsum
    dsimp only
    omega
  | @runDone i b r k hw =>
    have hsum := sum_update (fun w => w.cost mk job) s.workers i (.setting r 0)
    simp only [hw, Worker.cost_running, Worker.cost_setting] at hsum
    dsimp only
    omega
  | @set i b r st hw =>
    have hsum := sum_update (fun w => w.cost mk job) s.workers i (.pushing r)
    simp only [hw, Worker.cost_setting, Worker.cost_pushing] at hsum
    dsimp only
    omega
  | @deliver i b r hw =>
    have hsum := sum_update (fun w => w.cost mk job) s.workers i .idle
    simp only [hw, Worker.cost_pushing, Worker.cost_idle] at hsum
    simp only [List.map_append, List.sum_append, List.map_cons, List.sum_cons, List.map_nil,
      List.sum_nil]
    omega
  | @exit i b hw =>
    have hsum := sum_update (fun w => w.cost mk job) s.workers i .exited
    simp only [hw, Worker.cost_stopping, Worker.cost_exited] at hsum
    simp only [List.map_append, List.sum_append, List.map_cons, List.sum_cons, List.map_nil,
      List.sum_nil, Option.elim_none]
    omega

/-! ### Liveness -/

/-- The threads are not stuck and do not go on for ever. -/
structure Live (mk : Makefile V) (s : St V n) : Prop where
  /-- while the main thread waits in its loop, a queue holds a rule or a worker has one -/
  busy : s.main = .pulling → s.checked ≠ [] ∨ s.jobs ≠ [] ∨ ∃ i, (s.workers i).job ≠ none
  /-- until `parmake` returns, some thread can move -/
  moves : s.main ≠ .returned → ∃ l s', step mk s l = some s'
  /-- no run goes on for ever -/
  ends : ∃ bound, ∀ ls s', (parmake mk n).run (fun _ _ => True) s ls = some s' → ls.length ≤ bound

/-- **`parmake` cannot get stuck.**  The graph is what preprocessing makes of any graph with
    the sentinel. -/
theorem Reachable.live {g : Graph V} (hg : mk.sentinel ∈ g.vertices)
    (hpre : preprocess mk.sentinel g = some mk.graph) (hn : 0 < n) (hr : Reachable mk s) :
    Live mk s := by
  have hpruned : Pruned mk.sentinel mk.graph := .of_preprocess hg hpre
  refine ⟨fun hm => ?_, fun hret => ?_, ?_⟩
  · exact or_iff_not_imp_left.mpr (fun hc => hr.flow.not_stuck hr.inv hpruned hm (not_not.mp hc))
  · obtain ⟨l, s', hs, -⟩ := hr.flow.exists_step hr.inv hpruned hn hret true
    exact ⟨l, s', hs⟩
  · obtain ⟨job, hjob⟩ := exists_balanced hpruned.acyclic
    refine ⟨potential mk job s, fun ls s' hrun => ?_⟩
    have hle := Lts.run_length_le (potential mk job)
      (fun s l s' hs => potential_lt hjob (step_cases hs)) hrun
    omega

theorem live_testfile7 : ∃ s : St Testfile7 2, s.main = .pulling ∧ s.checked = [] ∧
    Live testfile7 s := by
  have hrun : ((parmake testfile7 2).run (fun _ _ => True) (initial testfile7 2)
      [.worker 0 true, .worker 1 true, .worker 0 true]).map (fun s => (s.main, s.checked)) =
        some (.pulling, []) := by decide +kernel
  obtain ⟨s, hs, hobs⟩ := Option.map_eq_some_iff.mp hrun
  simp only [Prod.mk.injEq] at hobs
  have hpre : preprocess testfile7.sentinel testfile7.graph = some testfile7.graph := by rfl
  exact ⟨s, hobs.1, hobs.2, Reachable.live (by decide) hpre (by decide)
    (Lts.Reach.of_run (.init rfl) hs)⟩

end SystemProgramming.ParMake
