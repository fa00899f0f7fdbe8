import SystemProgramming.ParMake.Progress

namespace SystemProgramming.ParMake

open SystemProgramming.Lib Relation

/-!
# `parallel_make/parmake.c` — what has been done when `parmake` returns

The loop of the main thread ends when it pulls the sentinel, and a failure takes the
sentinel there as soon as it has been passed up.  Rules that are not blocked by the failure
but still wait for a dependency are then never pushed.  `Makefile.Covered f` says that
there are no such rules when `f` fails, and `complete_of_harmless` that in every run in which
only such rules fail everything is done that is not blocked.
-/

variable {V : Type*} [DecidableEq V] {n : ℕ} {mk : Makefile V} {s s' : St V n} {l : Label n}
  {r p c f : V} {i : Fin n}

/-- All commands of the rule were run and succeeded, or, when it was up to date, none was
    run. -/
def AllOrNone (mk : Makefile V) (s : St V n) (r : V) : Prop :=
  (∀ k < (mk.commands r).length, .cmd r k true ∈ s.trace) ∨ ∀ k ok, .cmd r k ok ∉ s.trace

/-- A worker has processed the rule. -/
def Processed (mk : Makefile V) (s : St V n) (r : V) : Prop :=
  .finish r 0 ∈ s.trace ∧ AllOrNone mk s r

/-- Everything that is not blocked by a failure has been processed. -/
def Complete (mk : Makefile V) (s : St V n) : Prop :=
  ∀ r ∈ mk.graph.vertices, (∀ d, ReflTransGen mk.graph.Dep r d → ¬ Failed s d) → Processed mk s r

/-- The rule whose next command the worker is about to run. -/
def Worker.next (mk : Makefile V) : Worker V → Option V
  | running r k => if k < (mk.commands r).length then some r else none
  | _ => none

/-- A step in which a command fails only if its rule is in `F`. -/
def Makefile.OnlyFail (mk : Makefile V) (F : Finset V) (s : St V n) : Label n → Prop
  | .worker i false => ∀ r ∈ (s.workers i).next mk, r ∈ F
  | _ => True

instance (mk : Makefile V) (F : Finset V) (s : St V n) :
    (l : Label n) → Decidable (mk.OnlyFail F s l)
  | .main => inferInstanceAs (Decidable True)
  | .worker _ true => inferInstanceAs (Decidable True)
  | .worker i false => inferInstanceAs (Decidable (∀ r ∈ (s.workers i).next mk, r ∈ F))

/-- Every other rule that does not depend on `f` needs only what `f` needs. -/
def Makefile.Covered (mk : Makefile V) (f : V) : Prop :=
  ∀ u ∈ mk.graph.vertices, u ≠ f → ¬ TransGen mk.graph.Dep u f →
    ∀ d ∈ mk.graph.neighbors u, TransGen mk.graph.Dep f d

/-- The failure of a rule in `F` cuts nothing off that does not depend on it. -/
def Makefile.Harmless (mk : Makefile V) (F : Finset V) : Prop :=
  ∀ f ∈ F, f ∈ mk.graph.vertices → mk.commands f ≠ [] → mk.Covered f

/-! ### The outcome of a rule -/

/-- The commands of a rule that its worker has run. -/
structure Outcome (mk : Makefile V) (s : St V n) : Prop where
  finishes : ∀ r st, .finish r st ∈ s.trace → st = 0 ∨ st = -1
  untouched : ∀ i r, s.workers i = .checking r → ∀ k ok, .cmd r k ok ∉ s.trace
  sofar : ∀ i r k, s.workers i = .running r k → ∀ j < k, .cmd r j true ∈ s.trace
  through : ∀ i r, s.workers i = .setting r 0 → AllOrNone mk s r
  finished : ∀ r, .finish r 0 ∈ s.trace → AllOrNone mk s r
  /-- the main thread left its loop because all or something failed below the sentinel -/
  left : s.main.out → .push mk.sentinel ∈ s.trace ∨
    ∃ c ∈ mk.graph.neighbors mk.sentinel, .take c (-1) ∈ s.trace

/-- A rule stays done while none of its commands is run. -/
theorem AllOrNone.step (h : AllOrNone mk s r) (hs : Step mk s l s')
    (hno : ∀ k ok, .cmd r k ok ∈ s'.trace → .cmd r k ok ∈ s.trace) : AllOrNone mk s' r :=
  h.imp (fun hall k hk => Inv.mem_trace_step hs (hall k hk))
    (fun hnone k ok hc => hnone k ok (hno k ok hc))

namespace Outcome

theorem step_finishes (hO : Outcome mk s) (hI : Inv mk s) (hs : Step mk s l s') (r : V) (st : ℤ)
    (h : .finish r st ∈ s'.trace) : st = 0 ∨ st = -1 := by
  cases hs with
  | @set i b q st' hw =>
    rcases List.mem_cons.mp h with h | h
    · obtain ⟨rfl, rfl⟩ := Event.finish.inj h
      exact hI.setting i r st hw
    · exact hO.finishes r st h
  | _ => exact hO.finishes r st (by simpa using h)

/-- A command that was not run before is run by the worker that has its rule. -/
theorem cmd_new (hs : Step mk s l s') {k : ℕ} {ok : Bool}
    (h : .cmd r k ok ∈ s'.trace) (hnew : .cmd r k ok ∉ s.trace) :
    ∃ i, s.workers i = .running r k ∧ k < (mk.commands r).length ∧ l = .worker i ok := by
  cases hs with
  | @runOk i q k' hw hk | @runFail i q k' hw hk =>
    rcases List.mem_cons.mp h with h | h
    · obtain ⟨rfl, rfl, rfl⟩ := Event.cmd.inj h
      exact ⟨i, hw, hk, rfl⟩
    · exact absurd h hnew
  | _ => exact absurd (by simpa using h) hnew

/-- While its worker stays where it is and is not running it, no command of a rule is run. -/
theorem no_cmd (hI : Inv mk s) (hs : Step mk s l s') (hw : (s.workers i).job = some r)
    (hrun : ∀ k, s.workers i ≠ .running r k) {k : ℕ} {ok : Bool} (h : .cmd r k ok ∈ s'.trace) :
    .cmd r k ok ∈ s.trace := by
  by_contra hnew
  obtain ⟨j, hj, -⟩ := cmd_new hs h hnew
  obtain rfl := (hI.alone hw).2.2.2.2.2 j (by rw [hj]; rfl)
  exact hrun k hj

theorem step_untouched (hO : Outcome mk s) (hI : Inv mk s) (hs : Step mk s l s') (j : Fin n)
    (r : V) (h : s'.workers j = .checking r) (k : ℕ) (ok : Bool) : .cmd r k ok ∉ s'.trace := by
  rcases Inv.worker_step hs j with hw | ⟨b, rfl⟩
  · have hj : s.workers j = .checking r := hw ▸ h
    intro hc
    exact hO.untouched j r hj k ok
      (no_cmd hI hs (i := j) (by rw [hj]; rfl) (fun k hk => by simp [hj] at hk) hc)
  · cases hs with
    | @start _ _ q jobs hw hj =>
      obtain rfl : q = r := by simpa using h
      have hnot := hI.not_start_of_queued (r := q) (by simp [hj])
      exact fun hc => hnot (hI.ran q k ok (by simpa using hc))
    | check => simp only [Function.update_self] at h; split at h <;> cases h
    | _ => simp at h

theorem step_sofar (hO : Outcome mk s) (hs : Step mk s l s') (j : Fin n) (r : V) (k : ℕ)
    (h : s'.workers j = .running r k) (m : ℕ) (hm : m < k) : .cmd r m true ∈ s'.trace := by
  have hmono : .cmd r m true ∈ s.trace → .cmd r m true ∈ s'.trace := Inv.mem_trace_step hs
  rcases Inv.worker_step hs j with hw | ⟨b, rfl⟩
  · exact hmono (hO.sofar j r k (hw ▸ h) m hm)
  · cases hs with
    | check =>
      simp only [Function.update_self] at h
      split at h
      · obtain ⟨-, rfl⟩ := Worker.running.inj h
        omega
      · cases h
    | @runOk _ q k' hw =>
      obtain ⟨rfl, rfl⟩ : q = r ∧ k' + 1 = k := by simpa using h
      by_cases hmk : m = k'
      · simp [hmk]
      · exact hmono (hO.sofar j q k' hw m (by omega))
    | _ => simp at h

theorem step_through (hO : Outcome mk s) (hI : Inv mk s) (hs : Step mk s l s') (j : Fin n)
    (r : V) (h : s'.workers j = .setting r 0) : AllOrNone mk s' r := by
  rcases Inv.worker_step hs j with hw | ⟨b, rfl⟩
  · have hj : s.workers j = .setting r 0 := hw ▸ h
    exact (hO.through j r hj).step hs (fun k ok hc =>
      no_cmd hI hs (i := j) (by rw [hj]; rfl) (fun k hk => by simp [hj] at hk) hc)
  · cases hs with
    | @check _ _ q hw =>
      -- the rule is up to date
      simp only [Function.update_self] at h
      split at h
      · cases h
      · obtain ⟨rfl, -⟩ := Worker.setting.inj h
        exact .inr (hO.untouched j q hw)
    | @runDone _ _ q k hw hk =>
      obtain rfl : q = r := by simpa using h
      exact .inl (fun m hm => hO.sofar j q k hw m (by omega))
    | _ => simp at h

theorem step_finished (hO : Outcome mk s) (hI : Inv mk s) (hs : Step mk s l s') (r : V)
    (h : .finish r 0 ∈ s'.trace) : AllOrNone mk s' r := by
  by_cases hold : .finish r 0 ∈ s.trace
  · refine (hO.finished r hold).step hs (fun k ok hc => ?_)
    by_contra hnew
    obtain ⟨j, hj, -⟩ := cmd_new hs hc hnew
    exact (hI.busy j r (by rw [hj]; rfl)).2 0 hold
  · cases hs with
    | @set i b q st hw =>
      obtain ⟨rfl, rfl⟩ : r = q ∧ 0 = st := by simpa [hold] using h
      exact (hO.through i r hw).step (.set (b := b) hw) (fun k ok hc => by simpa using hc)
    | _ => exact absurd (by simpa using h) hold

theorem step_left (hO : Outcome mk s) (hI : Inv mk s) (hs : Step mk s l s') (h : s'.main.out) :
    .push mk.sentinel ∈ s'.trace ∨
      ∃ c ∈ mk.graph.neighbors mk.sentinel, .take c (-1) ∈ s'.trace := by
  by_cases hout : s.main.out
  · exact (hO.left hout).imp (Inv.mem_trace_step hs)
      (fun ⟨c, hc, ht⟩ => ⟨c, hc, Inv.mem_trace_step hs ht⟩)
  · cases hs with
    | @leave r hm hr =>
      -- the sentinel came by itself, or because something that it needs had failed
      subst hr
      by_cases hp : .push mk.sentinel ∈ s.trace
      · exact .inl hp
      · exact .inr (hI.blocked _ hp (hI.poisoned _ hp (.inr hm)))
    | sendNull hm | join hm | done hm => exact absurd (by rw [hm]; trivial) hout
    | pull | takeFailed | takeOk | skip | failDone | poison | report | countDone | countPush
    | count => exact h.elim
    | _ => exact absurd h hout

theorem step (hO : Outcome mk s) (hI : Inv mk s) (hs : Step mk s l s') : Outcome mk s' where
  finishes := hO.step_finishes hI hs
  untouched := hO.step_untouched hI hs
  sofar := hO.step_sofar hs
  through := hO.step_through hI hs
  finished := hO.step_finished hI hs
  left := hO.step_left hI hs

theorem initial (mk : Makefile V) (n : ℕ) : Outcome mk (initial mk n) where
  finishes r st h := by simp [ParMake.initial] at h
  untouched i r h := by cases h
  sofar i r k h := by cases h
  through i r h := by cases h
  finished r h := by simp [ParMake.initial] at h
  left h := h.elim

end Outcome

theorem Reachable.outcome (hr : Reachable mk s) : Outcome mk s := by
  refine (Lts.Reach.invariant (I := fun s => Inv mk s ∧ Outcome mk s) hr (fun s h0 => ?_)
    (fun s l s' h _ hs => ⟨h.1.step (step_cases hs), h.2.step h.1 (step_cases hs)⟩)).2
  rw [show s = ParMake.initial mk n from h0]
  exact ⟨Inv.initial mk n, Outcome.initial mk n⟩

/-! ### What is done at the end -/

/-- Only rules in `F` that have commands have failed. -/
theorem mem_of_failed {F : Finset V} (hr : (parmake mk n).Reach (mk.OnlyFail F) s) {k : ℕ}
    (h : .cmd f k false ∈ s.trace) : f ∈ F ∧ mk.commands f ≠ [] := by
  refine Lts.Reach.invariant
    (I := fun s => ∀ k, .cmd f k false ∈ s.trace → f ∈ F ∧ mk.commands f ≠ []) hr
    (fun s h0 k hc => ?_) (fun s l s' hI hok hs k hc => ?_) k h
  · rw [show s = initial mk n from h0] at hc
    simp [initial] at hc
  · by_cases hold : .cmd f k false ∈ s.trace
    · exact hI k hold
    · obtain ⟨i, hi, hlt, rfl⟩ := Outcome.cmd_new (step_cases hs) hc hold
      exact ⟨hok f (by simp [hi, Worker.next, hlt]), List.ne_nil_of_length_pos (by omega)⟩

namespace Inv

/-- Below a rule that was started everything was taken with state 0. -/
theorem taken_below (hI : Inv mk s) {d : V} (h : .start r ∈ s.trace)
    (hd : TransGen mk.graph.Dep r d) : .take d 0 ∈ s.trace := by
  cases hd with
  | single hd => exact hI.taken_of_push (hI.push_of_start h) hd
  | tail hd hlast =>
    exact hI.taken_of_push (hI.push_of_finish (hI.finish_below h hd)) hlast

/-- A failure that was passed on began with a rule below that failed itself. -/
theorem exists_failed (hI : Inv mk s) (hg : Acyclic mk.graph.Dep) (ht : .take c (-1) ∈ s.trace) :
    ∃ f, ReflTransGen mk.graph.Dep c f ∧ .finish f (-1) ∈ s.trace := by
  -- the lowest rule with a failure taken has failed itself: there is none below to blame
  obtain ⟨m, ⟨hcm, hm⟩, hmin⟩ := hg.minimal mk.graph.vertices.toFinset
    (fun a b hab => List.mem_toFinset.mpr (mk.graph.target_mem a b hab))
    (P := fun r => ReflTransGen mk.graph.Dep c r ∧ .take r (-1) ∈ s.trace) ⟨.refl, ht⟩
  have hstate := hI.taken m (-1) hm
  by_cases hp : .push m ∈ s.trace
  · exact ⟨m, hcm, hI.minus m hp hstate⟩
  · obtain ⟨d, hd, hdt⟩ := hI.blocked m hp hstate
    exact absurd ⟨hcm.tail hd, hdt⟩ (hmin d hd)

/-- Out of the loop, a rule whose dependencies were all taken with state 0 was pushed. -/
theorem push_of_taken (hI : Inv mk s) (hm : s.main.out) (hr : r ∈ mk.graph.vertices)
    (hall : ∀ d ∈ mk.graph.neighbors r, .take d 0 ∈ s.trace) : .push r ∈ s.trace := by
  have hcount := hI.satisfied r
  have hpend : pending s r = 0 := by
    unfold pending
    split
    · rename_i h
      rw [h] at hm
      exact hm.elim
    · rfl
  rw [hpend, List.countP_eq_length.mpr (fun d hd => decide_eq_true (hall d hd))] at hcount
  exact (hI.pushed r).mpr ⟨hr, hcount.ge⟩

end Inv

/-- When `parmake` has returned, every rule that was pushed is finished. -/
theorem Flow.finish_of_push (hF : Flow mk s) (hI : Inv mk s) (hn : 0 < n) (hm : s.main = .returned)
    (hp : .push r ∈ s.trace) : ∃ st, .finish r st ∈ s.trace := by
  have hexit := hF.returned hm
  have hjobs : s.jobs.count (some r) = 0 :=
    List.count_eq_zero.mpr (hF.drained ⟨0, hn⟩ (by rw [hexit]; trivial) r)
  have hstarts := hI.starts r
  have hpos := List.count_pos_iff.mpr hp
  have hstart : .start r ∈ s.trace := List.count_pos_iff.mp (by omega)
  refine (hF.started r hstart).resolve_left (fun ⟨i, hi⟩ => ?_)
  rw [hexit] at hi
  cases hi

/-- Out of the loop, if nothing failed, every rule was pushed. -/
theorem Outcome.push_of_no_failure (hO : Outcome mk s) (hI : Inv mk s)
    (hg : Pruned mk.sentinel mk.graph) (hm : s.main.out) (hno : ∀ f, .finish f (-1) ∉ s.trace)
    (hr : r ∈ mk.graph.vertices) : .push r ∈ s.trace := by
  have hroot : .push mk.sentinel ∈ s.trace := by
    refine (hO.left hm).resolve_right (fun ⟨c, _, ht⟩ => ?_)
    obtain ⟨f, -, hf⟩ := hI.exists_failed hg.acyclic ht
    exact hno f hf
  induction hg.reach r hr with
  | refl => exact hroot
  | tail _ hd ih =>
    have ht := hI.taken_of_push (ih (mk.graph.source_mem _ _ hd)) hd
    exact hI.push_of_finish (hI.zero _ (hI.taken _ 0 ht))

/-- **Everything that is not blocked is done**, in every run in which only rules fail whose
    failure is harmless. -/
theorem complete_of_harmless {F : Finset V} (hg : Pruned mk.sentinel mk.graph) (hn : 0 < n)
    (hF : mk.Harmless F) (hr : (parmake mk n).Reach (mk.OnlyFail F) s)
    (hm : s.main = .returned) : Complete mk s := by
  have hreach : Reachable mk s := hr.mono (fun _ _ _ => trivial)
  have hI := hreach.inv
  have hO := hreach.outcome
  have hout : s.main.out := by rw [hm]; trivial
  intro r hrv hclear
  have hpush : .push r ∈ s.trace := by
    by_cases hfail : ∃ f, .finish f (-1) ∈ s.trace
    · obtain ⟨f, hf⟩ := hfail
      obtain ⟨k, hk⟩ := hI.finishFail f hf
      -- `r` is not `f` and does not depend on it, so what `r` needs `f` needed
      have hrf : r ≠ f := fun h => hclear f (h ▸ .refl) (.inr hf)
      have hdep : ¬ TransGen mk.graph.Dep r f := fun h => hclear f h.to_reflTransGen (.inr hf)
      obtain ⟨hfF, hcmd⟩ := mem_of_failed hr hk
      have hfv := ((hI.pushed f).mp (hI.push_of_finish hf)).1
      have hcov := hF f hfF hfv hcmd r hrv hrf hdep
      exact hI.push_of_taken hout hrv
        (fun d hd => hI.taken_below (hI.start_of_finish hf) (hcov d hd))
    · exact hO.push_of_no_failure hI hg hout (not_exists.mp hfail) hrv
  obtain ⟨st, hst⟩ := hreach.flow.finish_of_push hI hn hm hpush
  rcases hO.finishes r st hst with rfl | rfl
  · exact ⟨hst, hO.finished r hst⟩
  · exact absurd (.inr hst) (hclear r .refl)

end SystemProgramming.ParMake
