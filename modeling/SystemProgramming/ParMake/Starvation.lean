import SystemProgramming.ParMake.Completion

namespace SystemProgramming.ParMake

open SystemProgramming.Lib Relation

/-!
# `parallel_make/parmake.c` — a failure that cuts something off

The converse of `complete_of_harmless`, for two workers or more.  If the failure of `f` is
not harmless, some rule `u` that does not depend on `f` needs a rule `d` that `f` does not
need.  The schedule: whoever gets `d` is held in its staleness check, and `f` fails.  The
others carry on until the failure has taken the sentinel to the main thread, which leaves
its loop; `u` has not been pushed by then, and never will be.
-/

variable {V : Type*} [DecidableEq V] {n : ℕ} {mk : Makefile V} {s s' : St V n} {l : Label n}
  {r p c d f u : V} {i : Fin n}

/-- The steps of the schedule: `d` is held, all rules are stale, and only `f` fails. -/
structure Adverse (d f : V) (s : St V n) (l : Label n) : Prop where
  held : ∀ i b, l = .worker i b → s.workers i ≠ .checking d
  stale : ∀ i b r, l = .worker i b → s.workers i = .checking r → b = true
  only : ∀ i b r k, l = .worker i b → s.workers i = .running r k → b = decide (r ≠ f)

/-- What holds all along. -/
structure Starved (d f : V) (s : St V n) : Prop where
  held : ∀ i, (s.workers i).job = some d → s.workers i = .checking d
  unfinished : ∀ st, .finish d st ∉ s.trace
  first : ∀ i k, s.workers i = .running f k → k = 0
  fails : ∀ i, s.workers i ≠ .setting f 0
  failed : .finish f 0 ∉ s.trace
  only : ∀ r k, .cmd r k false ∈ s.trace → r = f

namespace Starved

/-- A step of the schedule keeps it up. -/
theorem step (hS : Starved d f s) (hcmd : mk.commands f ≠ []) (hs : Step mk s l s')
    (hA : Adverse d f s l) : Starved d f s' where
  held j hj := by
    rcases Inv.worker_step hs j with hw | ⟨b, rfl⟩
    · rw [hw] at hj ⊢
      exact hS.held j hj
    · cases hs with
      | @start _ _ q jobs hw hq =>
        obtain rfl : q = d := by simpa [Worker.job] using hj
        simp
      | @check _ _ q hw =>
        -- the worker that checks `d` is never scheduled
        have hqd : q ≠ d := fun h => hA.held j b rfl (h ▸ hw)
        obtain rfl := hA.stale j b q rfl hw
        simp [Worker.job, hqd] at hj
      | @runOk _ q k hw | @runFail _ q k hw | @runDone _ _ q k hw | @set _ _ q st hw =>
        have hqd : q ≠ d := fun h => by simpa [hw, h, Worker.job] using hS.held j
        simp [Worker.job, hqd] at hj
      | _ => simp [Worker.job] at hj
  unfinished st h := by
    cases hs with
    | @set i b q st' hw =>
      have hqd : q ≠ d := fun h => by simpa [hw, h, Worker.job] using hS.held i
      refine hS.unfinished st ?_
      simpa [hqd.symm] using h
    | _ => exact hS.unfinished st (by simpa using h)
  first j k h := by
    rcases Inv.worker_step hs j with hw | ⟨b, rfl⟩
    · exact hS.first j k (hw ▸ h)
    · cases hs with
      | check =>
        simp only [Function.update_self] at h
        split at h
        · exact (Worker.running.inj h).2.symm
        · cases h
      | @runOk _ q k' hw =>
        -- no command of `f` succeeds, and so it has no second one
        obtain ⟨rfl, -⟩ : q = f ∧ k' + 1 = k := by simpa using h
        simpa using hA.only j true q k' rfl hw
      | _ => simp at h
  fails j h := by
    rcases Inv.worker_step hs j with hw | ⟨b, rfl⟩
    · exact hS.fails j (hw ▸ h)
    · cases hs with
      | @check _ _ q hw =>
        obtain rfl := hA.stale j b q rfl hw
        simp at h
      | @runDone _ _ q k hw hk =>
        -- `f` has a command that is still to be run
        obtain rfl : q = f := by simpa using h
        obtain rfl := hS.first j k hw
        exact hk (List.length_pos_iff.mpr hcmd)
      | _ => simp at h
  failed h := by
    cases hs with
    | @set i b q st hw =>
      rcases List.mem_cons.mp h with h | h
      · obtain ⟨rfl, rfl⟩ := Event.finish.inj h
        exact hS.fails i hw
      · exact hS.failed h
    | _ => exact hS.failed (by simpa using h)
  only r k h := by
    by_cases hold : .cmd r k false ∈ s.trace
    · exact hS.only r k hold
    · obtain ⟨i, hi, -, rfl⟩ := Outcome.cmd_new hs h hold
      simpa using hA.only i false r k rfl hi

theorem initial (mk : Makefile V) (d f : V) : Starved d f (initial mk n) where
  held i h := by cases h
  unfinished st := by simp [ParMake.initial]
  first i k h := by cases h
  fails i h := by cases h
  failed := by simp [ParMake.initial]
  only r k h := by simp [ParMake.initial] at h

end Starved

/-! ### The schedule goes on until the main thread leaves its loop -/

/-- The main thread may do anything. -/
theorem Adverse.main (d f : V) (s : St V n) : Adverse d f s .main where
  held i b h := by cases h
  stale i b r h := by cases h
  only i b r k h := by cases h

/-- Only `f` fails. -/
theorem Adverse.onlyFail {F : Finset V} (hA : Adverse d f s l) (hf : f ∈ F) :
    mk.OnlyFail F s l := by
  match l, hA with
  | .main, _ => trivial
  | .worker i true, _ => trivial
  | .worker i false, hA =>
    intro r hr
    cases hw : s.workers i with
    | running q k =>
      rw [hw, Worker.next] at hr
      obtain ⟨-, rfl⟩ : k < (mk.commands q).length ∧ q = r := by simpa using hr
      have hqf := hA.only i false q k rfl hw
      rwa [show q = f by simpa using hqf]
    | _ =>
      rw [hw] at hr
      cases hr

/-- A worker that does not hold `d` can move, with the outcome of the schedule. -/
theorem exists_adverse (mk : Makefile V) (h : (s.workers i).job ≠ none)
    (hd : s.workers i ≠ .checking d) :
    ∃ b s', step mk s (.worker i b) = some s' ∧ Adverse d f s (.worker i b) := by
  -- the worker is told that its rule is stale, or how the command it runs ends
  obtain ⟨b, hstale, honly⟩ : ∃ b : Bool, (∀ r, s.workers i = .checking r → b = true) ∧
      ∀ r k, s.workers i = .running r k → b = decide (r ≠ f) := by
    by_cases hrun : ∃ r k, s.workers i = .running r k
    · obtain ⟨r, k, hrun⟩ := hrun
      exact ⟨decide (r ≠ f), by simp [hrun], by simp [hrun]⟩
    · exact ⟨true, by simp, fun r k hw => absurd ⟨r, k, hw⟩ hrun⟩
  obtain ⟨s', hs⟩ := workerStep_of_job mk b (.inl h)
  refine ⟨b, s', hs, fun j b' hl => ?_, fun j b' r hl hw => ?_, fun j b' r k hl hw => ?_⟩
  all_goals obtain ⟨rfl, rfl⟩ := Label.worker.inj hl
  · exact hd
  · exact hstale r hw
  · exact honly r k hw

/-- Nobody else is left to move: every other worker is idle, and only `d` is in hand. -/
theorem quiet_of_no_adverse (hF : Flow mk s) (hm : s.main = .pulling) (hn : 2 ≤ n)
    (hI : Inv mk s) (hno : ¬ ∃ l s', step mk s l = some s' ∧ Adverse d f s l) :
    s.jobs = [] ∧ ∀ i r, (s.workers i).job = some r → r = d := by
  have hhand : ∀ i, (s.workers i).job ≠ none → s.workers i = .checking d := by
    intro i hi
    by_contra hd
    obtain ⟨b, s', hs, hA⟩ := exists_adverse mk (f := f) hi hd
    exact hno ⟨_, s', hs, hA⟩
  have hall : ∀ i r, (s.workers i).job = some r → r = d := by
    intro i r hi
    have hd := hhand i (by simp [hi])
    simpa [hd, Worker.job, eq_comm] using hi
  refine ⟨?_, hall⟩
  by_contra hj
  -- of two workers one does not hold `d`, and has not ended: it would pull from `jobs`
  obtain ⟨i, hi⟩ : ∃ i, (s.workers i).job = none := by
    by_contra hne
    have hboth : ∀ i, (s.workers i).job = some d := fun i => by
      rw [hhand i (not_exists.mp hne i)]
      rfl
    have hsame := (hI.alone (hboth ⟨0, by omega⟩)).2.2.2.2.2 ⟨1, by omega⟩ (hboth _)
    simp at hsame
  have hidle : s.workers i = .idle := by
    have hended := (hF.inLoop (.inl (by simp [hm, Main.out]))).2 i
    cases hw : s.workers i with
    | idle => rfl
    | stopping | exited => exact absurd (by rw [hw]; trivial) hended
    | checking | running | setting | pushing => simp [hw, Worker.job] at hi
  obtain ⟨s', hs⟩ := workerStep_of_idle mk true hidle hj
  refine hno ⟨_, s', hs, fun j b hl => ?_, fun j b r hl hw => ?_, fun j b r k hl hw => ?_⟩
  all_goals obtain ⟨rfl, rfl⟩ := Label.worker.inj hl
  · simp [hidle]
  · simp [hidle] at hw
  · simp [hidle] at hw

/-- **The schedule goes on** while the main thread is in its loop. -/
theorem Starved.exists_step (hS : Starved d f s) (hF : Flow mk s) (hI : Inv mk s)
    (hg : Pruned mk.sentinel mk.graph) (hn : 2 ≤ n) (hf : f ∈ mk.graph.vertices) (hfd : f ≠ d)
    (hd : ¬ TransGen mk.graph.Dep f d) (hm : ¬ s.main.out) :
    ∃ l s', ParMake.step mk s l = some s' ∧ Adverse d f s l := by
  by_contra hno
  -- the main thread waits
  have hwait : s.main = .pulling ∧ s.checked = [] := by
    by_contra hw
    obtain ⟨s', hs⟩ := mainStep_of_not_blocked mk (fun hm hc => hw ⟨hm, hc⟩)
      (fun k hk h => absurd (by rw [h]; trivial) hm) (fun h => hm (by rw [h]; trivial))
    exact hno ⟨_, s', hs, .main d f s⟩
  obtain ⟨hm, hc⟩ := hwait
  obtain ⟨hj, hw⟩ := quiet_of_no_adverse hF hm hn hI hno
  have hfail : ∀ r ∈ mk.graph.vertices, .take r (-1) ∉ s.trace := fun r hr ht =>
    hF.sentinel (-1) (hF.taken_above hm hc ht (hg.reach r hr))
  -- what was pushed and is not `d` was taken with state 0
  have hok : ∀ r, .push r ∈ s.trace → r ≠ d → .take r 0 ∈ s.trace := by
    intro r hp hrd
    have hone := hI.places r hp
    have hwork : inWork s r = 0 := by
      refine Finset.sum_eq_zero (fun i _ => if_neg (fun hi => hrd (hw i r hi)))
    have hhand : inHand mk s r = 0 := by simp [inHand, hm, Main.out]
    have hneg := List.count_eq_zero.mpr (hfail r ((hI.pushed r).mp hp).1)
    rw [places, hj, hc, hwork, hhand, hneg] at hone
    exact List.count_pos_iff.mp (by simp at hone; omega)
  have hfp : .push f ∉ s.trace := fun hp =>
    hS.failed (hI.zero f (hI.taken f 0 (hok f hp hfd)))
  -- a minimal rule among `f` and what it needs that was not pushed
  obtain ⟨m, ⟨hfm, hmp⟩, hmin⟩ := hg.acyclic.minimal mk.graph.vertices.toFinset
    (fun a b hab => List.mem_toFinset.mpr (mk.graph.target_mem a b hab))
    (P := fun r => ReflTransGen mk.graph.Dep f r ∧ .push r ∉ s.trace) ⟨.refl, hfp⟩
  have hmv : m ∈ mk.graph.vertices := by
    cases hfm with
    | refl => exact hf
    | tail _ h => exact mk.graph.target_mem _ _ h
  have hall : ∀ b ∈ mk.graph.neighbors m, .take b 0 ∈ s.trace := by
    intro b hb
    have hbelow : TransGen mk.graph.Dep f b := TransGen.tail' hfm hb
    refine hok b (not_not.mp (fun hp => hmin b hb ⟨hbelow.to_reflTransGen, hp⟩)) ?_
    rintro rfl
    exact hd hbelow
  have hcount := hI.satisfied m
  rw [show pending s m = 0 by simp [pending, hm],
    List.countP_eq_length.mpr (fun b hb => decide_eq_true (hall b hb))] at hcount
  exact hmp ((hI.pushed m).mpr ⟨hmv, hcount.ge⟩)

/-! ### What it leaves undone -/

/-- The main thread is out of its loop, `u` was not pushed, and only `f` has failed. -/
structure Abandoned (f u : V) (s : St V n) : Prop where
  out : s.main.out
  unpushed : .push u ∉ s.trace
  only : ∀ r k, .cmd r k false ∈ s.trace → r = f

/-- It stays so, if no more commands fail. -/
theorem Abandoned.step (hA : Abandoned f u s) (hs : Step mk s l s')
    (hl : ∀ i b, l = .worker i b → b = true) : Abandoned f u s' := by
  have hout := hA.out
  refine ⟨?_, ?_, fun r k h => ?_⟩
  · cases hs with
    | pull hm | takeFailed hm | takeOk hm | skip hm | failDone hm | poison hm | report hm
    | countDone hm | countPush hm | count hm | leave hm => simp [hm, Main.out] at hout
    | sendNull | join | done => trivial
    | _ => exact hout
  · cases hs with
    | countPush hm => simp [hm, Main.out] at hout
    | _ => simpa using hA.unpushed
  · by_cases hold : .cmd r k false ∈ s.trace
    · exact hA.only r k hold
    · obtain ⟨i, -, -, rfl⟩ := Outcome.cmd_new hs h hold
      cases hl i false rfl

/-- **A failure that is not harmless leaves something undone** in some interleaving of two or
    more workers. -/
theorem exists_not_complete {F : Finset V} (hg : Pruned mk.sentinel mk.graph) (hn : 2 ≤ n)
    (hF : ¬ mk.Harmless F) :
    ∃ s : St V n,
      (parmake mk n).Reach (mk.OnlyFail F) s ∧ s.main = .returned ∧ ¬ Complete mk s := by
  simp only [Makefile.Harmless, Makefile.Covered, not_forall] at hF
  obtain ⟨f, hfF, hf, hcmd, u, hu, huf, hdep, d, hd, hnd⟩ := hF
  have hfd : f ≠ d := by
    rintro rfl
    exact hdep (.single hd)
  obtain ⟨job, hjob⟩ := exists_balanced hg.acyclic
  have hmeasure : ∀ (s : St V n) l s', (parmake mk n).step s l = some s' →
      potential mk job s' < potential mk job s :=
    fun s l s' hs => potential_lt hjob (step_cases hs)
  have hplain : ∀ {s : St V n}, (parmake mk n).Reach (mk.OnlyFail F) s → Reachable mk s :=
    fun hr => hr.mono (fun _ _ _ => trivial)
  -- first the schedule, until the main thread leaves its loop
  obtain ⟨s₁, hr₁, hS, hout⟩ := Lts.Reach.eventually (P := fun s => s.main.out)
    (I := Starved d f) (potential mk job) hmeasure
    (fun s hr hS hm => by
      obtain ⟨l, s', hs, hA⟩ := hS.exists_step (hplain hr).flow (hplain hr).inv hg hn hf
        hfd hnd hm
      exact ⟨l, s', hA.onlyFail hfF, hs, hS.step hcmd (step_cases hs) hA⟩)
    (.init rfl) (Starved.initial mk d f)
  have hu₁ : .push u ∉ s₁.trace := fun hp =>
    hS.unfinished 0 ((hplain hr₁).inv.zero d ((hplain hr₁).inv.taken d 0
      ((hplain hr₁).inv.taken_of_push hp hd)))
  -- then anything, without further failures
  obtain ⟨s₂, hr₂, hA, hm⟩ := Lts.Reach.eventually (P := fun s => s.main = .returned)
    (I := Abandoned f u) (potential mk job) hmeasure
    (fun s hr hA hm => by
      obtain ⟨l, s', hs, hl⟩ := (hplain hr).flow.exists_step (hplain hr).inv hg (by omega) hm true
      refine ⟨l, s', ?_, hs, hA.step (step_cases hs) hl⟩
      match l, hl with
      | .main, _ => trivial
      | .worker i true, _ => trivial
      | .worker i false, hl => cases hl i false rfl)
    hr₁ ⟨hout, hu₁, hS.only⟩
  have hI := (hplain hr₂).inv
  refine ⟨s₂, hr₂, hm, fun hC => ?_⟩
  -- only `f` has failed, and `u` does not need it
  have hclear : ∀ c, ReflTransGen mk.graph.Dep u c → ¬ Failed s₂ c := by
    intro c huc hfail
    obtain ⟨k, hk⟩ : ∃ k, .cmd c k false ∈ s₂.trace := hfail.elim id (hI.finishFail c)
    obtain rfl := hA.only c k hk
    rcases (reflTransGen_iff_eq_or_transGen.mp huc) with rfl | h
    · exact huf rfl
    · exact hdep h
  exact hA.unpushed (hI.push_of_finish (hC u hu hclear).1)

/-- **Exactly when.**  Every run of one worker or more in which only rules in `F` fail does all
    that is not blocked, if and only if the failures in `F` are harmless. -/
theorem complete_iff_harmless {F : Finset V} (hg : Pruned mk.sentinel mk.graph) :
    (∀ n ≥ 1, ∀ s : St V n, (parmake mk n).Reach (mk.OnlyFail F) s → s.main = .returned →
      Complete mk s) ↔ mk.Harmless F := by
  refine ⟨fun h => ?_, fun hF n hn s hr hm => complete_of_harmless hg hn hF hr hm⟩
  by_contra hF
  obtain ⟨s, hr, hm, hC⟩ := exists_not_complete (n := 2) hg le_rfl hF
  exact hC (h 2 (by omega) s hr hm)

/-- In `testfile7` the failure of `b` cuts nothing off: `c` needs nothing. -/
theorem testfile7_harmless : testfile7.Harmless {.b} := by
  intro f hf _ _ u _ huf hdep d hd
  obtain rfl := Finset.mem_singleton.mp hf
  have hab : testfile7.graph.Dep .a .b := by
    show Testfile7.b ∈ testfile7.graph.neighbors .a
    decide
  cases u with
  | b => exact absurd rfl huf
  | c => simp [testfile7, Graph.ofEdges] at hd
  | a => exact absurd (.single hab) hdep
  | sentinel =>
    have hsa : testfile7.graph.Dep .sentinel .a := by
      show Testfile7.a ∈ testfile7.graph.neighbors .sentinel
      decide
    exact absurd (.tail (.single hsa) hab) hdep

theorem complete_testfile7 : ∃ s : St Testfile7 2, s.main = .returned ∧
    .cmd .b 1 false ∈ s.trace ∧ Complete testfile7 s := by
  have hrun : ((parmake testfile7 2).run (testfile7.OnlyFail {.b}) (initial testfile7 2)
      testfile7Steps).map (fun s => (s.main, decide (.cmd .b 1 false ∈ s.trace))) =
        some (.returned, true) := by decide +kernel
  obtain ⟨s, hs, hobs⟩ := Option.map_eq_some_iff.mp hrun
  simp only [Prod.mk.injEq, decide_eq_true_eq] at hobs
  have hpruned : Pruned testfile7.sentinel testfile7.graph :=
    .of_preprocess (g := testfile7.graph) (by decide) rfl
  exact ⟨s, hobs.1, hobs.2, (complete_iff_harmless hpruned).mpr testfile7_harmless 2 (by decide) s
    (Lts.Reach.of_run (.init rfl) hs) hobs.1⟩

/-- The goals `a` and `b`, of which `a` depends on `c`; the command of `b` fails. -/
def twoGoals : Makefile Testfile7 where
  graph := Graph.ofEdges [(.sentinel, .b), (.sentinel, .a), (.a, .c)]
  sentinel := .sentinel
  commands
    | .sentinel => []
    | .a => ["echo"]
    | .b => ["cat asdf"]
    | .c => ["echo"]

/-- One worker on `twoGoals`: `b` fails, the main thread leaves its loop while the worker is
    still busy with `c`, and nobody pushes `a`. -/
def twoGoalsSteps : List (Label 1) :=
  List.flatten
    [[.worker 0 true, .worker 0 true, .worker 0 false, .worker 0 true, .worker 0 true],
     List.replicate 8 .main,
     List.replicate 8 (.worker 0 true),
     List.replicate 2 .main]

/-- **Not everything is done.**  `a` and the `c` that it needs do not fail, and `a` is not
    processed. -/
theorem not_complete : Pruned twoGoals.sentinel twoGoals.graph ∧
    ∃ s : St Testfile7 1, Reachable twoGoals s ∧ s.main = .returned ∧ ¬ Complete twoGoals s := by
  have hrun : ((parmake twoGoals 1).run (fun _ _ => True) (initial twoGoals 1) twoGoalsSteps).map
      (fun s => (s.main, s.trace)) = some (.returned,
        [.finish .c 0, .cmd .c 0 true, .start .c, .take .b (-1), .finish .b (-1), .cmd .b 0 false,
          .start .b, .push .c, .push .b]) := by decide +kernel
  obtain ⟨s, hs, hobs⟩ := Option.map_eq_some_iff.mp hrun
  obtain ⟨hm, htr⟩ := Prod.mk.inj hobs
  refine ⟨.of_preprocess (g := twoGoals.graph) (by decide) rfl, s,
    Lts.Reach.of_run (.init rfl) hs, hm, fun hC => ?_⟩
  -- `a` and `c` are all that `a` needs, and only `b` has failed
  have hbelow : ∀ d, ReflTransGen twoGoals.graph.Dep .a d → d = .a ∨ d = .c := by
    intro d hd
    induction hd with
    | refl => exact .inl rfl
    | tail _ h ih =>
      rcases ih with rfl | rfl
      · exact .inr (List.mem_singleton.mp h)
      · cases h
  have hclear : ∀ d, ReflTransGen twoGoals.graph.Dep .a d → ¬ Failed s d := by
    intro d hd hfail
    rcases hbelow d hd with rfl | rfl <;> simp [Failed, htr] at hfail
  have hdone := (hC .a (by decide) hclear).1
  simp [htr] at hdone

end SystemProgramming.ParMake
