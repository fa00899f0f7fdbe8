import SystemProgramming.SavvyScheduler.Records

namespace SystemProgramming.SavvyScheduler

open Lib Scheduler Run

/-!
# Round robin is fair

The queue goes by the time of the last dispatch, which is 0 for a new job, so an arrival overtakes
every job that has run.  It does so once: a job dispatched while another waits has that dispatch's
time for its key, which no waiting job exceeds, and when it is put back it goes behind, also where
the keys are equal.

* `Timely` — the protocol with times that are not negative.
* `Behind`, `Turns` — a job dispatched once while another waited comes after it.
* `round_robin_fair` — the result.
-/

/-- The calls are at times that are not negative. -/
def Timely (s : Run) (e : Event) : Prop := Called s e ∧ 0 ≤ e.time

instance (s : Run) (e : Event) : Decidable (Timely s e) := by
  unfold Timely
  infer_instance

/-- `b` has been dispatched once since `a` was put in the queue, and comes after it. -/
structure Behind (s : Run) (a b : Job) : Prop where
  once : s.since a b = 1
  queued : b ∈ s.sched.pqueue → [a, b].Sublist s.sched.pqueue
  running : s.running = some b → (s.sched.metadata a).rr_time ≤ (s.sched.metadata b).rr_time

structure Turns (s : Run) : Prop where
  submitted : ∀ a b, b ∉ s.submitted → s.since a b = 0
  /-- No job was dispatched later than now. -/
  keys : ∀ j ∈ s.jobs, (s.sched.metadata j).rr_time ≤ s.now
  behind : ∀ a ∈ s.sched.pqueue, ∀ b, b ≠ a → s.since a b ≠ 0 → Behind s a b

variable {P : StableQueue Job} {s s' : Run} {c : Scheduler} {j : Job} {e : Event} {a b : Job}

namespace Turns

variable (hT : Turns s) (hK : Known .RR s)
include hT

theorem tick {time : ℚ} (htime : s.now ≤ time) : Turns (s.tick time) where
  submitted := hT.submitted
  keys j hj := (hT.keys j hj).trans htime
  behind a ha b hba hab := by
    obtain ⟨honce, hqueued, hrunning⟩ := hT.behind a ha b hba hab
    exact ⟨honce, hqueued, hrunning⟩

include hK

theorem submit {n : ℤ} {data : scheduler_info} (hfresh : j ∉ s.submitted) (hnow : 0 ≤ s.now)
    (hoff : Offers P s.sched j (jobinfo n s.now data) c) : Turns (s.submit j data c) := by
  have hjq := hK.not_queued_of_fresh hfresh
  refine ⟨?_, ?_, ?_⟩
  · intro a b hb
    show (if a = j then 0 else s.since a b) = 0
    rw [hT.submitted a b fun hb' => hb (List.mem_cons_of_mem _ hb')]
    exact ite_self 0
  · intro k hk
    show (c.metadata k).rr_time ≤ s.now
    by_cases hkj : k = j
    · rw [hkj, hoff.metadata_self]
      exact hnow
    · rw [hoff.metadata_of_ne hkj]
      have hk := (hK.jobs_submit hfresh hoff).mem_iff.mp hk
      exact hT.keys k ((List.mem_cons.mp hk).resolve_left hkj)
  · intro a ha b hba hab
    -- nothing has been dispatched since the new job came
    have hne : a ≠ j := by
      rintro rfl
      exact hab (if_pos rfl)
    have hsince : (s.submit j data c).since a b = s.since a b := if_neg hne
    rw [hsince] at hab
    -- and the new job has not been dispatched
    have hbj : b ≠ j := by
      rintro rfl
      exact hab (hT.submitted a b hfresh)
    have haq := ((hK.mem_offered hjq hoff).mp ha).resolve_left hne
    obtain ⟨honce, hqueued, hrunning⟩ := hT.behind a haq b hba hab
    refine ⟨hsince.trans honce, fun hb => ?_, fun hb => ?_⟩
    · have hbq := ((hK.mem_offered hjq hoff).mp hb).resolve_left hbj
      exact (hqueued hbq).trans (hK.offered_sublist hjq hoff)
    · show (c.metadata a).rr_time ≤ (c.metadata b).rr_time
      rw [hoff.metadata_of_ne hne, hoff.metadata_of_ne hbj]
      exact hrunning hb

theorem release (hrun : s.running = some j)
    (hoff : Offers P s.sched j (charge (s.sched.metadata j) s.now) c) : Turns (s.release j c) := by
  have hjq := hK.not_queued hrun
  -- a charge is not a dispatch
  have hkey : ∀ k, (c.metadata k).rr_time = (s.sched.metadata k).rr_time := by
    intro k
    by_cases hkj : k = j
    · rw [hkj, hoff.metadata_self]
      rfl
    · rw [hoff.metadata_of_ne hkj]
  refine ⟨?_, ?_, ?_⟩
  · intro a b hb
    show (if a = j then 0 else s.since a b) = 0
    rw [hT.submitted a b hb]
    exact ite_self 0
  · intro k hk
    show (c.metadata k).rr_time ≤ s.now
    rw [hkey k]
    exact hT.keys k ((hK.jobs_release hrun hoff).mem_iff.mp hk)
  · intro a ha b hba hab
    -- the count of the evicted job begins anew
    have hne : a ≠ j := by
      rintro rfl
      exact hab (if_pos rfl)
    have hsince : (s.release j c).since a b = s.since a b := if_neg hne
    rw [hsince] at hab
    have haq := ((hK.mem_offered hjq hoff).mp ha).resolve_left hne
    obtain ⟨honce, hqueued, hrunning⟩ := hT.behind a haq b hba hab
    refine ⟨hsince.trans honce, fun hb => ?_, nofun⟩
    rcases (hK.mem_offered hjq hoff).mp hb with rfl | hb
    · -- the evicted job goes behind those whose key its own is not less than
      have hle : c.compare a b ≤ 0 := by
        rw [compare_nonpos, hoff.pqueue_scheme, hK.scheme]
        show toLex ((c.metadata a).rr_time, (0 : ℚ)) ≤ toLex ((c.metadata b).rr_time, 0)
        rw [hkey, hkey, Prod.Lex.toLex_le_toLex]
        exact (hrunning hrun).lt_or_eq.imp id fun heq => ⟨heq, le_rfl⟩
      exact hK.offered_behind hjq hoff haq hle
    · exact (hqueued hb).trans (hK.offered_sublist hjq hoff)

theorem take {next : Option Job} (hrun : s.running = none)
    (hpoll : poll_next P s.sched s.now = some (c, next)) : Turns (s.take next c) := by
  have hjobs := Known.jobs_take hrun hpoll
  obtain ⟨rfl, hq, rfl⟩ | ⟨j, q, rfl, hq, -, rfl⟩ := poll_cases hpoll
  · refine ⟨fun a b hb => ?_, fun k hk => hT.keys k (hjobs ▸ hk), fun a ha => ?_⟩
    · simpa [Run.take] using hT.submitted a b hb
    · have ha : a ∈ s.sched.pqueue := ha
      rw [hq] at ha
      exact absurd ha List.not_mem_nil
  · have hnd := hK.nodup
    rw [jobs, hrun, hq] at hnd
    have hjq : j ∉ q := (List.nodup_cons.mp hnd).1
    have hother : ∀ k, k ≠ j →
        Function.update s.sched.metadata j (stamp (s.sched.metadata j) s.now) k =
          s.sched.metadata k := fun k hkj => Function.update_of_ne hkj ..
    have hself : (Function.update s.sched.metadata j (stamp (s.sched.metadata j) s.now) j).rr_time =
        s.now := by
      rw [Function.update_self]
      rfl
    refine ⟨?_, ?_, ?_⟩
    · intro a b hb
      have hbj : some j ≠ some b := by
        rintro h
        obtain rfl := Option.some.inj h
        exact hb (hK.submitted j (by simp [jobs, hq]))
      show (if some j = some b then s.since a b + 1 else s.since a b) = 0
      rw [if_neg hbj]
      exact hT.submitted a b hb
    · intro k hk
      show (Function.update s.sched.metadata j (stamp (s.sched.metadata j) s.now) k).rr_time ≤ s.now
      by_cases hkj : k = j
      · rw [hkj, hself]
      · rw [hother k hkj]
        exact hT.keys k (hjobs ▸ hk)
    · intro a ha b hba hab
      have ha : a ∈ q := ha
      have haj : a ≠ j := fun haj => hjq (haj ▸ ha)
      have haq : a ∈ s.sched.pqueue := hq ▸ List.mem_cons_of_mem j ha
      have htail : ∀ k, [a, k].Sublist s.sched.pqueue → [a, k].Sublist q := by
        intro k hk
        rw [hq] at hk
        cases hk with
        | cons _ hk => exact hk
        | cons_cons _ _ => exact absurd rfl haj
      by_cases hbj : b = j
      · -- the front of the queue had not been dispatched since `a` came
        subst hbj
        have hzero : s.since a b = 0 := by
          by_contra hsince
          have hpair := (hT.behind a haq b hba hsince).queued (hq ▸ List.mem_cons_self)
          exact hjq ((htail b hpair).subset (by simp))
        refine ⟨?_, fun hb => absurd hb hjq, fun _ => ?_⟩
        · show (if some b = some b then s.since a b + 1 else s.since a b) = 1
          rw [if_pos rfl, hzero]
        · refine le_of_le_of_eq ?_ hself.symm
          show (Function.update s.sched.metadata b (stamp (s.sched.metadata b) s.now) a).rr_time ≤ _
          rw [hother a haj]
          exact hT.keys a (List.mem_append_right _ haq)
      · have hne : some j ≠ some b := fun h => hbj (Option.some.inj h).symm
        have hsince : (if some j = some b then s.since a b + 1 else s.since a b) = s.since a b :=
          if_neg hne
        have hab : (if some j = some b then s.since a b + 1 else s.since a b) ≠ 0 := hab
        rw [hsince] at hab
        obtain ⟨honce, hqueued, -⟩ := hT.behind a haq b hba hab
        refine ⟨hsince.trans honce, fun hb => ?_, fun hb => absurd hb hne⟩
        exact htail b (hqueued (hq ▸ List.mem_cons_of_mem j hb))

omit hK in
theorem finish (hfin : scheduler_job_finished s.sched j s.now = some c) :
    Turns (s.finish j c) := by
  obtain ⟨-, hqueue, -, hmeta, -⟩ := finish_cases hfin
  have hkey : ∀ k, (c.metadata k).rr_time = (s.sched.metadata k).rr_time := by
    intro k
    rw [hmeta]
    by_cases hkj : k = j
    · rw [hkj, Function.update_self]
      rfl
    · rw [Function.update_of_ne hkj]
  refine ⟨hT.submitted, fun k hk => ?_, fun a ha b hba hab => ?_⟩
  · show (c.metadata k).rr_time ≤ s.now
    rw [hkey]
    exact hT.keys k ((Known.sublist_finish hfin).subset hk)
  · have ha : a ∈ c.pqueue := ha
    rw [hqueue] at ha
    obtain ⟨honce, hqueued, hrunning⟩ := hT.behind a ha b hba hab
    refine ⟨honce, fun hb => ?_, fun hb => ?_⟩
    · have hb : b ∈ c.pqueue := hb
      show [a, b].Sublist c.pqueue
      rw [hqueue] at hb ⊢
      exact hqueued hb
    · show (c.metadata a).rr_time ≤ (c.metadata b).rr_time
      rw [hkey, hkey]
      exact hrunning (Known.running_finish.mp hb).1

end Turns

theorem Turns.step (hT : Turns s) (hK : Known .RR s) (hok : Timely s e)
    (h : s.step P e = some s') : Turns s' := by
  have hle : s.now ≤ e.time := hok.1.1
  cases step_cases hok.1 h with
  | new_job hfresh hnew =>
    exact (hT.tick hle).submit (hK.tick _) hfresh hok.2 (new_job_cases hnew)
  | stay => exact hT.tick hle
  | switch _ hrun hevict hpoll =>
    have hoff := (evict_cases hevict).2
    have hK' := (hK.tick _).release hrun hoff
    exact ((hT.tick hle).release (hK.tick _) hrun hoff).take hK' rfl hpoll
  | idle hrun hpoll => exact (hT.tick hle).take (hK.tick _) hrun hpoll
  | finish hfin => exact (hT.tick hle).finish hfin

theorem turns_start (now : ℚ) : Turns (start .RR now) :=
  ⟨fun _ _ _ => rfl, fun _ hj => absurd hj List.not_mem_nil, fun _ ha => absurd ha List.not_mem_nil⟩

theorem turns (hr : (runs P .RR).Reach Timely s) : Turns s :=
  (known_invariant hr (fun _ _ hok => hok.1) turns_start
    fun _ _ _ hK hT hok h => hT.step hK hok h).2

/-- **Round robin is fair.**  While a job waits, every other job is dispatched at most once. -/
theorem round_robin_fair (hr : (runs P .RR).Reach Timely s) (ha : a ∈ s.sched.pqueue) (hb : b ≠ a) :
    s.since a b ≤ 1 := by
  by_cases hab : s.since a b = 0
  · rw [hab]
    exact Nat.zero_le 1
  · exact ((turns hr).behind a ha b hb hab).once.le

/-- All at time 0: while job 3 waits, job 2 is dispatched and job 1 put behind it. -/
theorem round_robin_fair_some : ∃ s : Run, s.sched.pqueue = [3, 1] ∧ s.running = some 2 ∧
    s.since 3 2 = 1 ∧ s.since 3 1 ≤ 1 := by
  have hrun : ((runs .sorting .RR).run Timely (start .RR 0) [.new_job 1 1 0 ⟨5, 1⟩,
      .new_job 2 2 0 ⟨5, 1⟩, .quantum_expired none 0, .new_job 3 3 0 ⟨5, 1⟩,
      .quantum_expired (some 1) 0]).any (fun s => decide (s.sched.pqueue = [3, 1] ∧
        s.running = some 2 ∧ s.since 3 2 = 1)) = true := by
    decide +kernel
  obtain ⟨s, hs, hdone⟩ := (Option.any_eq_true _ _).mp hrun
  have hr : (runs .sorting .RR).Reach Timely s := .of_run (.init ⟨0, rfl⟩) hs
  obtain ⟨hqueue, hrunning, hsince⟩ := of_decide_eq_true hdone
  have hwaits : 3 ∈ s.sched.pqueue := by
    rw [hqueue]
    decide
  exact ⟨s, hqueue, hrunning, hsince, round_robin_fair hr hwaits (by decide)⟩

end SystemProgramming.SavvyScheduler
