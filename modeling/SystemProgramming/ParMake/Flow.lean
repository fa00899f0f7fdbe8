import SystemProgramming.ParMake.Preservation

namespace SystemProgramming.ParMake

open SystemProgramming.Lib

/-!
# What keeps the threads going

A second invariant, `Flow`, on top of `Inv`: a failure that the main thread has read is on
its way to every parent of the rule, a rule that was started is with a worker or finished,
and `NULL` reaches `jobs` only when the main thread has left its loop, behind every rule.
-/

variable {V : Type*} [DecidableEq V] {n : ℕ} {mk : Makefile V} {s s' : St V n} {l : Label n}
  {r p c : V} {i : Fin n}

/-- The worker has pulled `NULL`. -/
def Worker.ended {V : Type*} : Worker V → Prop
  | stopping => True
  | exited => True
  | _ => False

/-- The failure of `c` has reached its parent `p`, or is about to. -/
inductive Reported (s : St V n) (c p : V) : Prop
  | queued (h : p ∈ s.checked)
  | pulled (h : s.main = .pulled p)
  | taken (h : .take p (-1) ∈ s.trace)
  | next (ps : List V) (h : s.main = .failing c ps) (hp : p ∈ ps)
  | now (q : V) (ps : List V) (h : s.main = .reporting c q ps) (hp : p ∈ q :: ps)

/-- The second invariant. -/
structure Flow (mk : Makefile V) (s : St V n) : Prop where
  /-- in the loop, every parent of a rule taken with state -1 is reported -/
  reported : ∀ c p, .take c (-1) ∈ s.trace → c ∈ mk.graph.neighbors p →
    s.main.out ∨ Reported s c p
  /-- the main thread leaves its loop on the sentinel -/
  sentinel : ∀ st, .take mk.sentinel st ∉ s.trace
  /-- a rule that was started is with a worker or finished -/
  started : ∀ r, .start r ∈ s.trace →
    (∃ i, (s.workers i).busy = some r) ∨ ∃ st, .finish r st ∈ s.trace
  /-- there is no `NULL` before the main thread has sent it -/
  inLoop : ¬ s.main.out ∨ s.main = .broke → none ∉ s.jobs ∧ ∀ i, ¬ (s.workers i).ended
  /-- after that, it is in `jobs` or with a worker that will push it back -/
  null : s.main.out → s.main ≠ .broke → none ∈ s.jobs ∨ ∃ i, s.workers i = .stopping
  /-- no rule is behind a `NULL` -/
  behind : s.jobs.Pairwise (fun a b => a = none → b = none)
  /-- once a worker has pulled `NULL`, no rule is left in `jobs` -/
  drained : ∀ i, (s.workers i).ended → ∀ r, some r ∉ s.jobs
  joined : ∀ k, s.main = .joining k → ∀ i : Fin n, i.val < k → s.workers i = .exited
  returned : s.main = .returned → ∀ i, s.workers i = .exited

/-! ### Reports -/

omit [DecidableEq V] in
/-- A report survives a step that only adds to `checked` and to what has happened, if it
    survives the main thread's move. -/
theorem Reported.step (h : Reported s c p) (hc : ∀ q ∈ s.checked, q ∈ s'.checked)
    (ht : ∀ e ∈ s.trace, e ∈ s'.trace) (hpulled : s.main = .pulled p → Reported s' c p)
    (hnext : ∀ ps, s.main = .failing c ps → p ∈ ps → Reported s' c p)
    (hnow : ∀ q ps, s.main = .reporting c q ps → p ∈ q :: ps → Reported s' c p) :
    Reported s' c p := by
  cases h with
  | queued h => exact .queued (hc p h)
  | pulled h => exact hpulled h
  | taken h => exact .taken (ht _ h)
  | next ps h hp => exact hnext ps h hp
  | now q ps h hp => exact hnow q ps h hp

omit [DecidableEq V] in
/-- The workers' steps keep every report. -/
theorem Reported.keep (h : Reported s c p) (hm : s'.main = s.main)
    (hc : ∀ q ∈ s.checked, q ∈ s'.checked) (ht : ∀ e ∈ s.trace, e ∈ s'.trace) :
    Reported s' c p :=
  h.step hc ht (fun h => .pulled (hm.trans h)) (fun ps h hp => .next ps (hm.trans h) hp)
    (fun q ps h hp => .now q ps (hm.trans h) hp)

namespace Flow

/-- A parent that waits with a report has the state -1. -/
theorem state_of_reported (hI : Inv mk s) (hc : c ∈ mk.graph.neighbors p)
    (ht : .take c (-1) ∈ s.trace) (hm : s.main = .pulled p) : s.state p = -1 :=
  hI.poisoned p (hI.not_push_of_failed hc ht) (.inr hm)

theorem step_reported (hF : Flow mk s) (hI : Inv mk s) (hs : Step mk s l s') (c p : V)
    (h : .take c (-1) ∈ s'.trace) (hc : c ∈ mk.graph.neighbors p) :
    s'.main.out ∨ Reported s' c p := by
  by_cases hold : .take c (-1) ∈ s.trace
  · have hr := hF.reported c p hold hc
    cases hs with
    | leave | sendNull | join | done => exact .inl trivial
    | @pull r checked hm hq =>
      right
      -- the first of `checked` is now in the main thread's hand
      have hr := hr.resolve_left (by simp [hm, Main.out])
      cases hr with
      | queued h =>
        rw [hq] at h
        rcases List.mem_cons.mp h with rfl | h
        · exact .pulled rfl
        · exact .queued h
      | taken h => exact .taken h
      | pulled h | next _ h | now _ _ h => simp [hm] at h
    | @takeFailed r hm =>
      right
      refine (hr.resolve_left (by simp [hm, Main.out])).step (fun _ h => h)
        (fun e he => by simp [he]) (fun h => ?_) (by simp [hm]) (by simp [hm])
      obtain rfl : r = p := by simpa [hm] using h
      exact .taken (by simp)
    | @takeOk r hm hne hst =>
      right
      refine (hr.resolve_left (by simp [hm, Main.out])).step (fun _ h => h)
        (fun e he => by simp [he]) (fun h => ?_) (by simp [hm]) (by simp [hm])
      -- what was reported has state -1, and this one has 0
      obtain rfl : r = p := by simpa [hm] using h
      have hreported := state_of_reported hI hc hold hm
      omega
    | @skip r hm hf hst =>
      right
      refine (hr.resolve_left (by simp [hm, Main.out])).step (fun _ h => h) (fun e he => he)
        (fun h => ?_) (by simp [hm]) (by simp [hm])
      obtain rfl : r = p := by simpa [hm] using h
      exact absurd (state_of_reported hI hc hold hm) hf
    | @failDone t hm =>
      right
      refine (hr.resolve_left (by simp [hm, Main.out])).step (fun _ h => h) (fun e he => he)
        (by simp [hm]) (fun ps h hp => ?_) (by simp [hm])
      obtain ⟨rfl, rfl⟩ : t = c ∧ [] = ps := by simpa [hm] using h
      exact absurd hp (by simp)
    | @poison t q ps hm =>
      right
      refine (hr.resolve_left (by simp [hm, Main.out])).step (fun _ h => h) (fun e he => he)
        (by simp [hm]) (fun ps' h hp => ?_) (by simp [hm])
      obtain ⟨rfl, rfl⟩ : t = c ∧ q :: ps = ps' := by simpa [hm] using h
      exact .now q ps rfl hp
    | @report t q ps hm =>
      right
      refine (hr.resolve_left (by simp [hm, Main.out])).step (fun _ h => by simp [h])
        (fun e he => he) (by simp [hm]) (by simp [hm]) (fun q' ps' h hp => ?_)
      obtain ⟨rfl, rfl, rfl⟩ : t = c ∧ q = q' ∧ ps = ps' := by simpa [hm] using h
      -- either it is reported just now, or it is one of those to come
      rcases List.mem_cons.mp hp with rfl | hp
      · exact .queued (by simp)
      · exact .next ps rfl hp
    | countDone hm | countPush hm | count hm =>
      right
      exact (hr.resolve_left (by simp [hm, Main.out])).step (fun _ h => h)
        (fun e he => by simp [he]) (by simp [hm]) (by simp [hm]) (by simp [hm])
    | deliver hw =>
      exact hr.imp id (fun hr => hr.keep rfl (fun _ h => by simp [h]) (fun _ he => he))
    | _ => exact hr.imp id (fun hr => hr.keep rfl (fun _ h => h) (fun _ he => by simp [he]))
  · -- only the main thread takes
    cases hs with
    | @takeFailed r hm =>
      obtain rfl : c = r := by simpa [hold] using h
      exact .inr (.next _ rfl ((mk.graph.mem_antineighbors p c).mpr hc))
    | _ => exact absurd (by simpa using h) hold

theorem step_sentinel (hF : Flow mk s) (hs : Step mk s l s') (st : ℤ) :
    .take mk.sentinel st ∉ s'.trace := by
  have h := hF.sentinel st
  cases hs with
  | takeFailed hm hr | takeOk hm hr =>
    intro hc
    rcases List.mem_cons.mp hc with hc | hc
    · exact hr (Event.take.inj hc).1.symm
    · exact h hc
  | _ => simpa using h

/-! ### Workers -/

theorem step_started (hF : Flow mk s) (hs : Step mk s l s') (r : V) (h : .start r ∈ s'.trace) :
    (∃ i, (s'.workers i).busy = some r) ∨ ∃ st, .finish r st ∈ s'.trace := by
  by_cases hold : .start r ∈ s.trace
  · rcases hF.started r hold with ⟨j, hj⟩ | ⟨st, hst⟩
    · rcases Inv.worker_step hs j with hw | ⟨b, rfl⟩
      · exact .inl ⟨j, hw ▸ hj⟩
      · -- its own worker moves: it keeps the rule until the state is set
        cases hs with
        | @check _ _ q hw =>
          refine .inl ⟨j, ?_⟩
          rw [hw] at hj
          simp only [Function.update_self]
          split <;> exact hj
        | runOk hw | runFail hw | runDone hw =>
          rw [hw] at hj
          exact .inl ⟨j, by simpa [Worker.busy] using hj⟩
        | @set _ _ q st hw =>
          rw [hw] at hj
          obtain rfl := Option.some.inj hj
          exact .inr ⟨st, by simp⟩
        | start hw | getNull hw | deliver hw | exit hw =>
          rw [hw] at hj
          cases hj
    · exact .inr ⟨st, Inv.mem_trace_step hs hst⟩
  · cases hs with
    | @start i b q jobs hw hj =>
      obtain rfl : r = q := by simpa [hold] using h
      exact .inl ⟨i, by simp [Worker.busy]⟩
    | _ => exact absurd (by simpa using h) hold

/-- A worker that has ended stays so, and one that ends has pulled `NULL`. -/
theorem ended_step (hs : Step mk s l s') {j : Fin n} (h : (s'.workers j).ended) :
    (s.workers j).ended ∨ ∃ jobs, s.jobs = none :: jobs ∧ s'.jobs = jobs := by
  rcases Inv.worker_step hs j with hw | ⟨b, rfl⟩
  · exact .inl (hw ▸ h)
  · cases hs with
    | getNull hw hj => exact .inr ⟨_, hj, rfl⟩
    | exit hw => exact .inl (by rw [hw]; trivial)
    | @check _ _ q hw =>
      simp only [Function.update_self] at h
      split at h <;> cases h
    | _ =>
      simp only [Function.update_self] at h
      cases h

/-- A thread that has exited does nothing. -/
theorem exited_step (hs : Step mk s l s') {j : Fin n} (h : s.workers j = .exited) :
    s'.workers j = .exited := by
  rcases Inv.worker_step hs j with hw | ⟨b, rfl⟩
  · rw [hw, h]
  · cases hs with
    | start hw | getNull hw | check hw | runOk hw | runFail hw | runDone hw | set hw | deliver hw
    | exit hw => rw [h] at hw; cases hw

/-! ### `NULL` -/

theorem step_inLoop (hF : Flow mk s) (hs : Step mk s l s') (h : ¬ s'.main.out ∨ s'.main = .broke) :
    none ∉ s'.jobs ∧ ∀ i, ¬ (s'.workers i).ended := by
  -- the main thread was in its loop, or at its end, before the step too
  have hbefore : ¬ s.main.out ∨ s.main = .broke := by
    cases hs with
    | pull hm | leave hm | takeFailed hm | takeOk hm | skip hm | failDone hm | poison hm | report hm
    | countDone hm | countPush hm | count hm => exact .inl (by simp [hm, Main.out])
    | sendNull hm => exact .inr hm
    | join | done => simp [Main.out] at h
    | _ => exact h
  obtain ⟨hnone, hended⟩ := hF.inLoop hbefore
  refine ⟨?_, fun j hj => ?_⟩
  · cases hs with
    | countPush => simpa using hnone
    | sendNull => simp [Main.out] at h
    | start hw hj => exact fun hc => hnone (by simp [hj, hc])
    | getNull hw hj => exact absurd (by simp [hj]) hnone
    | @exit i b hw => exact absurd (by rw [hw]; trivial) (hended i)
    | _ => exact hnone
  · rcases ended_step hs hj with hj | ⟨jobs, hjobs, -⟩
    · exact hended j hj
    · exact hnone (by simp [hjobs])

theorem step_null (hF : Flow mk s) (hs : Step mk s l s') (h : s'.main.out) (hb : s'.main ≠ .broke) :
    none ∈ s'.jobs ∨ ∃ i, s'.workers i = .stopping := by
  cases hs with
  | sendNull => exact .inl (by simp)
  | join hm | done hm => exact hF.null (by simp [hm, Main.out]) (by simp [hm])
  | leave => exact absurd rfl hb
  | pull | takeFailed | takeOk | skip | failDone | poison | report | countDone | countPush
  | count => exact h.elim
  | @getNull i => exact .inr ⟨i, by simp⟩
  | exit => exact .inl (by simp)
  | @start i b r jobs hw hj =>
    rcases hF.null h hb with hn | ⟨k, hk⟩
    · exact .inl (by simpa [hj] using hn)
    · have hki : k ≠ i := fun hc => by simp [hc, hw] at hk
      exact .inr ⟨k, by simpa [hki] using hk⟩
  | @check i _ _ hw | @runOk i _ _ hw | @runFail i _ _ hw | @runDone i _ _ _ hw | @set i _ _ _ hw
  | @deliver i _ _ hw =>
    rcases hF.null h hb with hn | ⟨k, hk⟩
    · exact .inl hn
    · have hki : k ≠ i := fun hc => by simp [hc, hw] at hk
      exact .inr ⟨k, by simpa [hki] using hk⟩

theorem step_behind (hF : Flow mk s) (hs : Step mk s l s') :
    s'.jobs.Pairwise (fun a b => a = none → b = none) := by
  have h := hF.behind
  cases hs with
  | @countPush t q ps hm =>
    have hnone := (hF.inLoop (.inl (by simp [hm, Main.out]))).1
    refine List.pairwise_append.mpr ⟨h, List.pairwise_singleton _ _, fun a ha b _ hn => ?_⟩
    exact absurd (hn ▸ ha) hnone
  | sendNull | exit =>
    refine List.pairwise_append.mpr ⟨h, List.pairwise_singleton _ _, fun a _ b hb _ => ?_⟩
    exact List.mem_singleton.mp hb
  | start hw hj | getNull hw hj =>
    rw [hj] at h
    exact h.of_cons
  | _ => exact h

theorem step_drained (hF : Flow mk s) (hs : Step mk s l s') (j : Fin n)
    (h : (s'.workers j).ended) (r : V) : some r ∉ s'.jobs := by
  rcases ended_step hs h with h | ⟨jobs, hjobs, heq⟩
  · have hno := hF.drained j h r
    cases hs with
    | countPush hm => exact absurd h ((hF.inLoop (.inl (by simp [hm, Main.out]))).2 j)
    | sendNull | exit => simpa using hno
    | start hw hj | getNull hw hj => exact fun hc => hno (by simp [hj, hc])
    | _ => exact hno
  · rw [heq]
    intro hc
    have hpair := hF.behind
    rw [hjobs] at hpair
    cases (List.pairwise_cons.mp hpair).1 _ hc rfl

theorem step_joined (hF : Flow mk s) (hs : Step mk s l s') (k : ℕ) (h : s'.main = .joining k)
    (j : Fin n) (hj : j.val < k) : s'.workers j = .exited := by
  have hkeep : s.workers j = .exited → s'.workers j = .exited := exited_step hs
  cases hs with
  | sendNull =>
    obtain rfl : 0 = k := by simpa using h
    omega
  | @join k' hm hk hw =>
    obtain rfl : k' + 1 = k := by simpa using h
    by_cases hjk : j.val = k'
    · obtain rfl : j = ⟨k', hk⟩ := Fin.ext hjk
      exact hw
    · exact hF.joined k' hm j (by omega)
  | pull | leave | takeFailed | takeOk | skip | failDone | poison | report | countDone | countPush
  | count | done => cases h
  | _ => exact hkeep (hF.joined k h j hj)

theorem step_returned (hF : Flow mk s) (hs : Step mk s l s') (h : s'.main = .returned) (j : Fin n) :
    s'.workers j = .exited := by
  have hkeep : s.workers j = .exited → s'.workers j = .exited := exited_step hs
  cases hs with
  | @done k hm hk => exact hF.joined k hm j (by omega)
  | pull | leave | takeFailed | takeOk | skip | failDone | poison | report | countDone | countPush
  | count | sendNull | join => cases h
  | _ => exact hkeep (hF.returned h j)

/-- **Every step keeps the second invariant.** -/
theorem step (hF : Flow mk s) (hI : Inv mk s) (hs : Step mk s l s') : Flow mk s' where
  reported := hF.step_reported hI hs
  sentinel := hF.step_sentinel hs
  started := hF.step_started hs
  inLoop := hF.step_inLoop hs
  null := hF.step_null hs
  behind := hF.step_behind hs
  drained := hF.step_drained hs
  joined := hF.step_joined hs
  returned := hF.step_returned hs

theorem initial (mk : Makefile V) (n : ℕ) : Flow mk (initial mk n) where
  reported c p h _ := by simp [ParMake.initial] at h
  sentinel st := by simp [ParMake.initial]
  started r h := by simp [ParMake.initial] at h
  inLoop _ := ⟨by simp [ParMake.initial], fun _ h => h⟩
  null h _ := h.elim
  behind := by
    refine List.pairwise_map.mpr (List.pairwise_of_forall (fun a b h => ?_))
    cases h
  drained _ h := h.elim
  joined k h := by cases h
  returned h := by cases h

end Flow

/-- **The second invariant holds in every reachable state.** -/
theorem Reachable.flow (hr : Reachable mk s) : Flow mk s := by
  refine (Lts.Reach.invariant (I := fun s => Inv mk s ∧ Flow mk s) hr (fun s h0 => ?_)
    (fun s l s' h _ hs => ⟨h.1.step (step_cases hs), h.2.step h.1 (step_cases hs)⟩)).2
  rw [show s = ParMake.initial mk n from h0]
  exact ⟨Inv.initial mk n, Flow.initial mk n⟩

end SystemProgramming.ParMake
