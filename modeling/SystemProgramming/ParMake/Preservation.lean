import SystemProgramming.ParMake.Invariant

namespace SystemProgramming.ParMake

open SystemProgramming.Lib

/-!
# Every step keeps the invariant

One lemma for each field of `Inv`, by cases on the step; the steps that do not touch what
the field talks about are closed together.
-/

variable {V : Type*} [DecidableEq V] {n : ℕ} {mk : Makefile V} {s s' : St V n} {l : Label n}
  {r p t d : V} {i : Fin n}

namespace Inv

/-! ### Counters -/

theorem step_pushed (hI : Inv mk s) (hs : Step mk s l s') (p : V) : .push p ∈ s'.trace ↔
    p ∈ mk.graph.vertices ∧ (mk.graph.neighbors p).length ≤ s'.satisfied p := by
  have hp := hI.pushed p
  cases hs with
  | @countPush t q ps hm hn =>
    have hv : q ∈ mk.graph.vertices :=
      mk.graph.source_mem q t ((hI.counting t _ hm).2.2 q (by simp))
    by_cases hpq : p = q
    · subst hpq
      simp [hv, hn]
    · simpa [hpq] using hp
  | @count t q ps hm hn =>
    by_cases hpq : p = q
    · subst hpq
      simp only [hp, Function.update_self]
      exact and_congr_right fun _ => by omega
    · simpa [hpq] using hp
  | _ => simpa using hp

theorem step_satisfied (hI : Inv mk s) (hs : Step mk s l s') (p : V) :
    s'.satisfied p + pending s' p =
      (mk.graph.neighbors p).countP (fun d => .take d 0 ∈ s'.trace) := by
  have hp := hI.satisfied p
  cases hs with
  | @takeOk r hm hr hst =>
    -- one more dependency is taken, and every dependent is pending for it
    have hfresh : .take r 0 ∉ s.trace :=
      (hI.alone_in_hand hm (hI.push_of_finish (hI.zero r hst))).2.2.2.1
    rw [countP_insert (mk.graph.neighbors_nodup p) (r := r) (P := fun d => .take d 0 ∈ s.trace)
      (by simpa using hfresh) (by simp), ← hp]
    simp [pending, hm, mk.graph.mem_antineighbors]
  | @countPush t q ps hm hn =>
    have hnd := (List.nodup_cons.mp (hI.counting t _ hm).1).1
    by_cases hpq : p = q
    · subst hpq
      simpa [pending, hm, hnd] using hp
    · simpa [pending, hm, hpq] using hp
  | @count t q ps hm hn =>
    have hnd := (List.nodup_cons.mp (hI.counting t _ hm).1).1
    by_cases hpq : p = q
    · subst hpq
      simpa [pending, hm, hnd] using hp
    · simpa [pending, hm, hpq] using hp
  | pull hm | leave hm | takeFailed hm | skip hm | failDone hm | poison hm | report hm
  | countDone hm | sendNull hm | join hm | done hm => simpa [pending, hm] using hp
  | _ => simpa [pending] using hp

theorem step_counting (hI : Inv mk s) (hs : Step mk s l s') (t : V) (ps : List V)
    (h : s'.main = .counting t ps) :
    ps.Nodup ∧ .take t 0 ∈ s'.trace ∧ ∀ p ∈ ps, t ∈ mk.graph.neighbors p := by
  cases hs with
  | @takeOk r hm hr hst =>
    obtain ⟨rfl, rfl⟩ := Main.counting.inj h
    exact ⟨mk.graph.antineighbors_nodup r, by simp,
      fun p hp => (mk.graph.mem_antineighbors p r).mp hp⟩
  | @countPush t' q ps' hm hn =>
    obtain ⟨rfl, rfl⟩ := Main.counting.inj h
    obtain ⟨h1, h2, h3⟩ := hI.counting _ _ hm
    exact ⟨h1.of_cons, by simp [h2], fun p hp => h3 p (by simp [hp])⟩
  | @count t' q ps' hm hn =>
    obtain ⟨rfl, rfl⟩ := Main.counting.inj h
    obtain ⟨h1, h2, h3⟩ := hI.counting _ _ hm
    exact ⟨h1.of_cons, by simp [h2], fun p hp => h3 p (by simp [hp])⟩
  | pull | leave | takeFailed | skip | failDone | poison | report | countDone | sendNull | join
  | done => cases h
  | _ =>
    obtain ⟨h1, h2, h3⟩ := hI.counting t ps h
    exact ⟨h1, by simp [h2], h3⟩

theorem step_failing (hI : Inv mk s) (hs : Step mk s l s') (t : V) (ps : List V)
    (h : s'.main = .failing t ps) :
    .take t (-1) ∈ s'.trace ∧ ∀ p ∈ ps, t ∈ mk.graph.neighbors p := by
  cases hs with
  | @takeFailed r hm hr hst =>
    obtain ⟨rfl, rfl⟩ := Main.failing.inj h
    exact ⟨by simp, fun p hp => (mk.graph.mem_antineighbors p r).mp hp⟩
  | @report t' q ps' hm =>
    obtain ⟨rfl, rfl⟩ := Main.failing.inj h
    obtain ⟨h1, h2, -⟩ := hI.reporting _ _ _ hm
    exact ⟨h1, fun p hp => h2 p (by simp [hp])⟩
  | pull | leave | takeOk | skip | failDone | poison | countDone | countPush | count | sendNull
  | join | done => cases h
  | _ =>
    obtain ⟨h1, h2⟩ := hI.failing t ps h
    exact ⟨by simp [h1], h2⟩

theorem step_reporting (hI : Inv mk s) (hs : Step mk s l s') (t p : V) (ps : List V)
    (h : s'.main = .reporting t p ps) :
    .take t (-1) ∈ s'.trace ∧ (∀ q ∈ p :: ps, t ∈ mk.graph.neighbors q) ∧ s'.state p = -1 := by
  cases hs with
  | @poison t' q ps' hm =>
    obtain ⟨rfl, rfl, rfl⟩ := Main.reporting.inj h
    obtain ⟨h1, h2⟩ := hI.failing _ _ hm
    exact ⟨h1, h2, by simp⟩
  | @set i b r st hw =>
    obtain ⟨h1, h2, h3⟩ := hI.reporting t p ps h
    -- the reported rule was never pushed, so no worker has it
    have hnot := hI.not_push_of_failed (h2 p (by simp)) h1
    have hpr : p ≠ r := by
      rintro rfl
      exact hnot (hI.push_of_job (i := i) (by rw [hw]; rfl))
    exact ⟨by simp [h1], h2, by simpa [hpr] using h3⟩
  | pull | leave | takeFailed | takeOk | skip | failDone | report | countDone | countPush | count
  | sendNull | join | done => cases h
  | _ =>
    obtain ⟨h1, h2, h3⟩ := hI.reporting t p ps h
    exact ⟨by simp [h1], h2, h3⟩

/-! ### Places -/

/-- A worker moves and keeps what it has. -/
theorem inWork_keep {w : Worker V} (hw : s'.workers = Function.update s.workers i w)
    (hj : w.job = (s.workers i).job) (r : V) : inWork s' r = inWork s r := by
  have h := inWork_update (s := s) (i := i) w r
  rw [hj] at h
  simp only [inWork, hw] at h ⊢
  omega

/-- A worker gets a rule. -/
theorem inWork_gain {w : Worker V} {q : V} (hw : s'.workers = Function.update s.workers i w)
    (h0 : (s.workers i).job = none) (hj : w.job = some q) (r : V) :
    inWork s' r = inWork s r + if q = r then 1 else 0 := by
  have h := inWork_update (s := s) (i := i) w r
  rw [h0, hj] at h
  simp only [inWork, hw, Option.some.injEq, reduceCtorEq, if_false] at h ⊢
  omega

/-- A worker gives its rule away. -/
theorem inWork_lose (s' : St V n) {w : Worker V} {q : V}
    (hw : s'.workers = Function.update s.workers i w) (h0 : (s.workers i).job = some q) (hj : w.job = none) (r : V) :
    inWork s' r + (if q = r then 1 else 0) = inWork s r := by
  have h := inWork_update (s := s) (i := i) w r
  rw [h0, hj] at h
  simp only [inWork, hw, Option.some.injEq, reduceCtorEq, if_false] at h ⊢
  omega

theorem inWork_congr (hw : s'.workers = s.workers) (r : V) : inWork s' r = inWork s r := by
  simp only [inWork, hw]

theorem step_unpushed (hI : Inv mk s) (hs : Step mk s l s') (r : V) (h : .push r ∉ s'.trace) :
    s'.jobs.count (some r) = 0 ∧ inWork s' r = 0 ∧ .start r ∉ s'.trace ∧
      ∀ st, .finish r st ∉ s'.trace := by
  have hnot : .push r ∉ s.trace := by
    cases hs <;> simp_all
  obtain ⟨h1, h2, h3, h4⟩ := hI.unpushed r hnot
  -- whatever a queue or a worker hands on was pushed, and so is another rule
  have hjob : ∀ i : Fin n, (s.workers i).job ≠ some r := fun i hi => hnot (hI.push_of_job hi)
  cases hs with
  | @countPush t q ps hm hn =>
    have hqr : q ≠ r := by rintro rfl; simp at h
    exact ⟨by simpa [List.count_append, hqr] using h1, h2, by simpa using h3, by simpa using h4⟩
  | @start i b q jobs hw hj =>
    have hqr : q ≠ r := by
      rintro rfl
      rw [hj] at h1
      simp at h1
    rw [hj] at h1
    refine ⟨by simpa [hqr] using h1, ?_, by simp [h3, hqr.symm], by simpa using h4⟩
    rw [inWork_gain (s := s) rfl (by rw [hw]; rfl) rfl, h2, if_neg hqr]
  | @getNull i b jobs hw hj =>
    rw [hj] at h1
    exact ⟨by simpa using h1, (inWork_keep (s := s) rfl (by rw [hw]; rfl) r).trans h2, h3, h4⟩
  | @check i b q hw =>
    exact ⟨h1, (inWork_keep (s := s) rfl (by rw [hw]; cases b <;> rfl) r).trans h2, h3, h4⟩
  | runOk hw | runFail hw =>
    exact ⟨h1, (inWork_keep (s := s) rfl (by rw [hw]; rfl) r).trans h2, by simpa using h3,
      by simpa using h4⟩
  | runDone hw => exact ⟨h1, (inWork_keep (s := s) rfl (by rw [hw]; rfl) r).trans h2, h3, h4⟩
  | @set i b q st hw =>
    have hqr : r ≠ q := by
      rintro rfl
      exact hjob i (by rw [hw]; rfl)
    exact ⟨h1, (inWork_keep (s := s) rfl (by rw [hw]; rfl) r).trans h2, by simpa using h3,
      by simp [h4, hqr]⟩
  | @deliver i b q hw =>
    refine ⟨h1, ?_, h3, h4⟩
    have hlose := inWork_lose (s := s) (i := i) (w := .idle) (q := q)
      { s with checked := s.checked ++ [q], workers := Function.update s.workers i .idle }
      rfl (by rw [hw]; rfl) rfl r
    omega
  | @exit i b hw =>
    exact ⟨by simpa [List.count_append] using h1,
      (inWork_keep (s := s) rfl (by rw [hw]; rfl) r).trans h2, h3, h4⟩
  | sendNull hm => exact ⟨by simpa [List.count_append] using h1, h2, h3, h4⟩
  | takeFailed | takeOk => exact ⟨h1, h2, by simpa using h3, by simpa using h4⟩
  | _ => exact ⟨h1, h2, h3, h4⟩

theorem step_places (hI : Inv mk s) (hs : Step mk s l s') (r : V) (h : .push r ∈ s'.trace) :
    ParMake.places mk s' r = 1 := by
  by_cases hp : .push r ∈ s.trace
  · have hone := hI.places r hp
    unfold ParMake.places inHand at hone ⊢
    cases hs with
    -- out of a queue into a hand, or the other way round: the sum is as before
    | @pull q checked hm hc =>
      rw [inWork_congr (s := s) (by rfl)]
      simp only [hm, hc, Main.out, List.count_cons] at hone ⊢
      by_cases hqr : q = r <;> simp [hqr] at hone ⊢ <;> omega
    | @leave q hm hq =>
      rw [inWork_congr (s := s) (by rfl)]
      simp only [hm, Main.out] at hone ⊢
      by_cases hqr : q = r
      · simp [hqr, ← hq] at hone ⊢
        omega
      · simp [hqr, ← hq, Ne.symm hqr] at hone ⊢
        omega
    | @takeFailed q hm hq hst =>
      rw [inWork_congr (s := s) (by rfl)]
      simp only [hm, Main.out, List.count_cons] at hone ⊢
      by_cases hqr : q = r <;> simp [hqr] at hone ⊢ <;> omega
    | @takeOk q hm hq hst =>
      rw [inWork_congr (s := s) (by rfl)]
      simp only [hm, Main.out, List.count_cons] at hone ⊢
      by_cases hqr : q = r <;> simp [hqr] at hone ⊢ <;> omega
    | @skip q hm hf hst => exact absurd (hI.settled q (.inr (.inl hm))) (by simp [hf, hst])
    | @report t q ps hm =>
      -- a dependent of a failed rule was never pushed
      obtain ⟨h1, h2, -⟩ := hI.reporting _ _ _ hm
      have hqr : q ≠ r := by
        rintro rfl
        exact hI.not_push_of_failed (h2 q (by simp)) h1 hp
      rw [inWork_congr (s := s) (by rfl)]
      simpa [hm, Main.out, List.count_append, hqr] using hone
    | @countPush t q ps hm hn =>
      have hqr : q ≠ r := by
        rintro rfl
        exact (hI.before_push hm hn).1 hp
      rw [inWork_congr (s := s) (by rfl)]
      simpa [hm, Main.out, List.count_append, hqr] using hone
    | @start i b q jobs hw hj =>
      rw [inWork_gain (s := s) rfl (by rw [hw]; rfl) rfl]
      simp only [hj, List.count_cons] at hone ⊢
      by_cases hqr : q = r <;> simp [hqr] at hone ⊢ <;> omega
    | @deliver i b q hw =>
      have hlose := inWork_lose (s := s) (i := i) (w := .idle) (q := q)
        { s with checked := s.checked ++ [q], workers := Function.update s.workers i .idle }
        rfl (by rw [hw]; rfl) rfl r
      simp only [List.count_append, List.count_singleton] at hone ⊢
      by_cases hqr : q = r <;> simp [hqr] at hone hlose ⊢ <;> omega
    | @getNull i b jobs hw hj =>
      rw [inWork_keep (s := s) rfl (by rw [hw]; rfl)]
      simpa [hj] using hone
    | @check i b q hw =>
      rw [inWork_keep (s := s) rfl (by rw [hw]; cases b <;> rfl)]
      exact hone
    | runOk hw | runFail hw | set hw =>
      rw [inWork_keep (s := s) rfl (by rw [hw]; rfl)]
      simpa using hone
    | runDone hw =>
      rw [inWork_keep (s := s) rfl (by rw [hw]; rfl)]
      exact hone
    | exit hw =>
      rw [inWork_keep (s := s) rfl (by rw [hw]; rfl)]
      simpa [List.count_append] using hone
    -- no rule moves
    | failDone hm | poison hm | countDone hm | count hm | sendNull hm | join hm | done hm =>
      rw [inWork_congr (s := s) (by rfl)]
      simpa [hm, Main.out, List.count_append] using hone
  · -- the rule is pushed now
    cases hs with
    | @countPush t q ps hm hn =>
      obtain rfl : r = q := by simpa [hp] using h
      have hzero := (hI.before_push hm hn).2.2.2
      unfold ParMake.places inHand at hzero ⊢
      rw [inWork_congr (s := s) (by rfl)]
      simp [hm, Main.out, List.count_append] at hzero ⊢
      omega
    | _ => exact absurd (by simpa using h) hp

/-! ### States -/

/-- Only a worker with the rule, or the main thread for a rule that was never pushed,
    changes a state. -/
theorem step_state (hI : Inv mk s) (hs : Step mk s l s') :
    (s'.state = s.state ∧ ∀ r st, .finish r st ∈ s'.trace → .finish r st ∈ s.trace) ∨
    (∃ i q st, s.workers i = .setting q st ∧ s'.state = Function.update s.state q st ∧
      s'.trace = .finish q st :: s.trace ∧ s'.main = s.main ∧ s'.checked = s.checked) ∨
    ∃ t q ps, s.main = .failing t (q :: ps) ∧ .push q ∉ s.trace ∧
      .take t (-1) ∈ s.trace ∧ t ∈ mk.graph.neighbors q ∧
      s'.state = Function.update s.state q (-1) ∧ s'.trace = s.trace ∧
      s'.checked = s.checked ∧ s'.main = .reporting t q ps := by
  cases hs with
  | @poison t q ps hm =>
    obtain ⟨h1, h2⟩ := hI.failing _ _ hm
    have hq := h2 q (by simp)
    exact .inr (.inr ⟨t, q, ps, hm, hI.not_push_of_failed hq h1, h1, hq, rfl, rfl, rfl, rfl⟩)
  | @set i b q st hw => exact .inr (.inl ⟨i, q, st, hw, rfl, rfl, rfl, rfl⟩)
  | _ => exact .inl ⟨rfl, fun r st h => by simpa using h⟩

theorem step_finish (hI : Inv mk s) (hs : Step mk s l s') (r : V) (st : ℤ)
    (h : .finish r st ∈ s'.trace) : s'.state r = st := by
  rcases hI.step_state hs with ⟨hst, htr⟩ | ⟨i, q, st', hw, hst, htr, -⟩ |
    ⟨t, q, ps, -, hq, -, -, hst, htr, -⟩
  · rw [hst]
    exact hI.finish r st (htr r st h)
  · rw [htr, List.mem_cons] at h
    rw [hst]
    rcases h with h | h
    · obtain ⟨rfl, rfl⟩ := Event.finish.inj h
      exact Function.update_self ..
    · have hne : r ≠ q := by
        rintro rfl
        exact (hI.busy i r (by rw [hw]; rfl)).2 st h
      rw [Function.update_of_ne hne]
      exact hI.finish r st h
  · rw [htr] at h
    have hne : r ≠ q := by
      rintro rfl
      exact hq (hI.push_of_finish h)
    rw [hst, Function.update_of_ne hne]
    exact hI.finish r st h

theorem step_taken (hI : Inv mk s) (hs : Step mk s l s') (r : V) (st : ℤ)
    (h : .take r st ∈ s'.trace) : s'.state r = st := by
  by_cases hold : .take r st ∈ s.trace
  · rcases hI.step_state hs with
      ⟨hst, -⟩ | ⟨i, q, st', hw, hst, -⟩ | ⟨t, q, ps, -, hq, -, -, hst, -⟩
    · rw [hst]
      exact hI.taken r st hold
    · -- a rule that a worker has is not yet taken
      have hne : r ≠ q := by
        rintro rfl
        have halone := hI.alone (i := i) (by rw [hw]; rfl : (s.workers i).job = some r)
        have h0 : st = 0 ∨ st = -1 := hI.takes r st hold
        rcases h0 with rfl | rfl
        · exact halone.2.2.2.1 hold
        · exact halone.2.2.2.2.1 hold
      rw [hst, Function.update_of_ne hne]
      exact hI.taken r st hold
    · rw [hst]
      by_cases hrq : r = q
      · subst hrq
        rw [Function.update_self]
        -- it was not pushed, and so it was taken as a failure
        rcases hI.takes r st hold with rfl | rfl
        · exact absurd (hI.push_of_finish (hI.zero r (hI.taken r 0 hold))) hq
        · rfl
      · rw [Function.update_of_ne hrq]
        exact hI.taken r st hold
  · cases hs with
    | @takeFailed q hm hq hst =>
      obtain ⟨rfl, rfl⟩ : r = q ∧ st = -1 := by simpa [hold] using h
      exact hst
    | @takeOk q hm hq hst =>
      obtain ⟨rfl, rfl⟩ : r = q ∧ st = 0 := by simpa [hold] using h
      exact hst
    | _ => exact absurd (by simpa using h) hold

theorem step_takes (hI : Inv mk s) (hs : Step mk s l s') (r : V) (st : ℤ)
    (h : .take r st ∈ s'.trace) : st = 0 ∨ st = -1 := by
  have hold := hI.takes r st
  cases hs with
  | takeFailed | takeOk =>
    simp only [List.mem_cons, Event.take.injEq] at h
    rcases h with ⟨-, rfl⟩ | h
    · simp
    · exact hold h
  | _ => exact hold (by simpa using h)

/-- What happened stays in the trace. -/
theorem mem_trace_step (hs : Step mk s l s') {e : Event V} (h : e ∈ s.trace) : e ∈ s'.trace := by
  cases hs <;> first | exact h | exact List.mem_cons_of_mem _ h

theorem step_zero (hI : Inv mk s) (hs : Step mk s l s') (r : V) (h : s'.state r = 0) :
    .finish r 0 ∈ s'.trace := by
  rcases hI.step_state hs with
    ⟨hst, -⟩ | ⟨i, q, st, hw, hst, htr, -⟩ | ⟨t, q, ps, -, -, -, -, hst, -⟩
  · exact mem_trace_step hs (hI.zero r (hst ▸ h))
  · rw [hst] at h
    rw [htr]
    by_cases hrq : r = q
    · subst hrq
      rw [Function.update_self] at h
      simp [h]
    · rw [Function.update_of_ne hrq] at h
      exact List.mem_cons_of_mem _ (hI.zero r h)
  · rw [hst] at h
    by_cases hrq : r = q
    · subst hrq
      rw [Function.update_self] at h
      omega
    · rw [Function.update_of_ne hrq] at h
      exact mem_trace_step hs (hI.zero r h)

/-- A rule that the step pushes had no state -1. -/
theorem push_step (hI : Inv mk s) (hs : Step mk s l s') (h : .push r ∈ s'.trace) :
    .push r ∈ s.trace ∨ s.state r ≠ -1 ∧ s'.state = s.state := by
  by_cases hp : .push r ∈ s.trace
  · exact .inl hp
  · cases hs with
    | @countPush t q ps hm hn =>
      obtain rfl : r = q := by simpa [hp] using h
      exact .inr ⟨(hI.before_push hm hn).2.2.1, rfl⟩
    | _ => exact absurd (by simpa using h) hp

theorem step_minus (hI : Inv mk s) (hs : Step mk s l s') (r : V) (hp : .push r ∈ s'.trace)
    (h : s'.state r = -1) : .finish r (-1) ∈ s'.trace := by
  rcases hI.push_step hs hp with hp | ⟨hne, hst⟩
  · rcases hI.step_state hs with ⟨hst, -⟩ | ⟨i, q, st, hw, hst, htr, -⟩ |
      ⟨t, q, ps, -, hq, -, -, hst, -⟩
    · exact mem_trace_step hs (hI.minus r hp (hst ▸ h))
    · rw [hst] at h
      rw [htr]
      by_cases hrq : r = q
      · subst hrq
        rw [Function.update_self] at h
        simp [h]
      · rw [Function.update_of_ne hrq] at h
        exact List.mem_cons_of_mem _ (hI.minus r hp h)
    · have hrq : r ≠ q := by
        rintro rfl
        exact hq hp
      rw [hst, Function.update_of_ne hrq] at h
      exact mem_trace_step hs (hI.minus r hp h)
  · exact absurd (hst ▸ h) hne

theorem step_blocked (hI : Inv mk s) (hs : Step mk s l s') (r : V) (hp : .push r ∉ s'.trace)
    (h : s'.state r = -1) : ∃ c ∈ mk.graph.neighbors r, .take c (-1) ∈ s'.trace := by
  have hp' : .push r ∉ s.trace := fun hc => hp (mem_trace_step hs hc)
  have hkeep : s.state r = -1 → ∃ c ∈ mk.graph.neighbors r, .take c (-1) ∈ s'.trace := by
    intro hst
    obtain ⟨c, hc, hf⟩ := hI.blocked r hp' hst
    exact ⟨c, hc, mem_trace_step hs hf⟩
  rcases hI.step_state hs with ⟨hst, -⟩ | ⟨i, q, st, hw, hst, -⟩ | ⟨t, q, ps, -, -, hf, hq, hst, -⟩
  · exact hkeep (hst ▸ h)
  · have hrq : r ≠ q := by
      rintro rfl
      exact hp' (hI.push_of_job (i := i) (by rw [hw]; rfl))
    rw [hst, Function.update_of_ne hrq] at h
    exact hkeep h
  · by_cases hrq : r = q
    · subst hrq
      exact ⟨t, hq, mem_trace_step hs hf⟩
    · rw [hst, Function.update_of_ne hrq] at h
      exact hkeep h

theorem step_poisoned (hI : Inv mk s) (hs : Step mk s l s') (r : V) (hp : .push r ∉ s'.trace)
    (h : r ∈ s'.checked ∨ s'.main = .pulled r) : s'.state r = -1 := by
  have hp' : .push r ∉ s.trace := fun hc => hp (mem_trace_step hs hc)
  -- no worker has a rule that was not pushed, and the main thread writes nothing but -1
  have hold : s.state r = -1 → s'.state r = -1 := by
    intro hst
    rcases hI.step_state hs with
      ⟨heq, -⟩ | ⟨i, q, st, hw, heq, -⟩ | ⟨t, q, ps, -, -, -, -, heq, -⟩
    · rw [heq, hst]
    · have hrq : r ≠ q := by
        rintro rfl
        exact hp' (hI.push_of_job (i := i) (by rw [hw]; rfl))
      rw [heq, Function.update_of_ne hrq, hst]
    · by_cases hrq : r = q
      · rw [heq, hrq, Function.update_self]
      · rw [heq, Function.update_of_ne hrq, hst]
  cases hs with
  | @pull q checked hm hc =>
    refine hI.poisoned r hp' (.inl ?_)
    rw [hc]
    rcases h with h | h
    · exact List.mem_cons_of_mem q h
    · exact Main.pulled.inj h ▸ List.mem_cons_self
  | @report t q ps hm =>
    rcases h with h | h
    · rcases List.mem_append.mp h with h | h
      · exact hI.poisoned r hp' (.inl h)
      · obtain rfl := List.mem_singleton.mp h
        exact (hI.reporting _ _ _ hm).2.2
    · cases h
  | @deliver i b q hw =>
    rcases h with h | h
    · rcases List.mem_append.mp h with h | h
      · exact hI.poisoned r hp' (.inl h)
      · obtain rfl := List.mem_singleton.mp h
        exact absurd (hI.push_of_job (i := i) (by rw [hw]; rfl)) hp'
    · exact hI.poisoned r hp' (.inr h)
  | leave | takeFailed | takeOk | skip | failDone | poison | countDone | countPush | count
  | sendNull | join | done => exact hold (hI.poisoned r hp' (.inl (h.resolve_right (by simp))))
  | _ => exact hold (hI.poisoned r hp' h)

/-! ### Workers -/

/-- What a worker holds after a step, it held before, or the step is its own. -/
theorem worker_step (hs : Step mk s l s') (j : Fin n) :
    s'.workers j = s.workers j ∨ ∃ b, l = .worker j b := by
  cases hs with
  | pull | leave | takeFailed | takeOk | skip | failDone | poison | report | countDone | countPush
  | count | sendNull | join | done => exact .inl rfl
  | @start i b | @getNull i b | @check i b | @runDone i b | @set i b | @deliver i b | @exit i b =>
    by_cases hij : j = i
    · exact .inr ⟨b, by rw [hij]⟩
    · exact .inl (Function.update_of_ne hij _ _)
  | @runOk i =>
    by_cases hij : j = i
    · exact .inr ⟨true, by rw [hij]⟩
    · exact .inl (Function.update_of_ne hij _ _)
  | @runFail i =>
    by_cases hij : j = i
    · exact .inr ⟨false, by rw [hij]⟩
    · exact .inl (Function.update_of_ne hij _ _)

theorem step_settled (hI : Inv mk s) (hs : Step mk s l s') (r : V)
    (h : r ∈ s'.checked ∨ s'.main = .pulled r ∨ ∃ i, s'.workers i = .pushing r) :
    s'.state r = 0 ∨ s'.state r = -1 := by
  -- a rule that was there before keeps a state of the two
  have hold : (r ∈ s.checked ∨ s.main = .pulled r ∨ ∃ i, s.workers i = .pushing r) →
      s'.state r = 0 ∨ s'.state r = -1 := by
    intro hthere
    rcases hI.step_state hs with
      ⟨heq, -⟩ | ⟨i, q, st, hw, heq, -⟩ | ⟨t, q, ps, -, -, -, -, heq, -⟩
    · rw [heq]
      exact hI.settled r hthere
    · by_cases hrq : r = q
      · rw [heq, hrq, Function.update_self]
        exact hI.setting i q st hw
      · rw [heq, Function.update_of_ne hrq]
        exact hI.settled r hthere
    · by_cases hrq : r = q
      · rw [heq, hrq, Function.update_self]
        exact .inr rfl
      · rw [heq, Function.update_of_ne hrq]
        exact hI.settled r hthere
  have hwork : (∃ i, s'.workers i = .pushing r) →
      (∃ i, s.workers i = .pushing r) ∨ s'.state r = 0 ∨ s'.state r = -1 := by
    rintro ⟨j, hj⟩
    rcases worker_step hs j with hw | ⟨b, rfl⟩
    · exact .inl ⟨j, hw ▸ hj⟩
    · cases hs with
      | @set _ _ q st hw =>
        simp only [Function.update_self] at hj
        obtain rfl := Worker.pushing.inj hj
        exact .inr (by simpa using hI.setting j q st hw)
      | check =>
        simp only [Function.update_self] at hj
        split at hj <;> cases hj
      | runOk | runFail | runDone | start | getNull | deliver | exit =>
        simp only [Function.update_self] at hj
        cases hj
  have hwork' := fun hw => (hwork hw).elim (fun hw => hold (.inr (.inr hw))) id
  cases hs with
  | @pull q checked hm hc =>
    rcases h with h | h | h
    · exact hold (.inl (by rw [hc]; exact List.mem_cons_of_mem q h))
    · exact hold (.inl (by rw [hc]; exact Main.pulled.inj h ▸ List.mem_cons_self))
    · exact hwork' h
  | @report t q ps hm =>
    rcases h with h | h | h
    · rcases List.mem_append.mp h with h | h
      · exact hold (.inl h)
      · obtain rfl := List.mem_singleton.mp h
        exact .inr (hI.reporting _ _ _ hm).2.2
    · cases h
    · exact hwork' h
  | @deliver i b q hw =>
    rcases h with h | h | h
    · rcases List.mem_append.mp h with h | h
      · exact hold (.inl h)
      · obtain rfl := List.mem_singleton.mp h
        exact hold (.inr (.inr ⟨i, hw⟩))
    · exact hold (.inr (.inl h))
    · exact hwork' h
  | leave | takeFailed | takeOk | skip | failDone | poison | countDone | countPush | count
  | sendNull | join | done =>
    rcases h with h | h | h
    · exact hold (.inl h)
    · cases h
    · exact hwork' h
  | _ =>
    rcases h with h | h | h
    · exact hold (.inl h)
    · exact hold (.inr (.inl h))
    · exact hwork' h

theorem step_setting (hI : Inv mk s) (hs : Step mk s l s') (j : Fin n) (r : V) (st : ℤ)
    (h : s'.workers j = .setting r st) : st = 0 ∨ st = -1 := by
  rcases worker_step hs j with hw | ⟨b, rfl⟩
  · exact hI.setting j r st (hw ▸ h)
  · cases hs with
    | check | runOk | runFail | runDone | start | getNull | set | deliver | exit =>
      simp only [Function.update_self] at h
      first
        | cases h
        | (split at h <;> cases h)
      all_goals simp

theorem step_starts (hI : Inv mk s) (hs : Step mk s l s') (r : V) :
    s'.jobs.count (some r) + s'.trace.count (.start r) = s'.trace.count (.push r) := by
  have h := hI.starts r
  cases hs with
  | @countPush t q ps hm hn =>
    simp only [List.count_append, List.count_cons]
    by_cases hqr : q = r <;> simp [hqr] <;> omega
  | @start i b q jobs hw hj =>
    simp only [hj, List.count_cons] at h ⊢
    by_cases hqr : q = r <;> simp [hqr] at h ⊢ <;> omega
  | @getNull i b jobs hw hj => simpa [hj] using h
  | takeFailed | takeOk | runOk | runFail | set => simpa using h
  | exit | sendNull => simpa [List.count_append] using h
  | _ => exact h

theorem step_once (hI : Inv mk s) (hs : Step mk s l s') (r : V) : s'.trace.count (.push r) ≤ 1 := by
  have h := hI.once r
  cases hs with
  | @countPush t q ps hm hn =>
    by_cases hqr : q = r
    · subst hqr
      rw [List.count_cons_self, List.count_eq_zero.mpr (hI.before_push hm hn).1]
    · simpa [hqr] using h
  | takeFailed | takeOk | runOk | runFail | set | start => simpa using h
  | _ => exact h

/-- A rule in `jobs` has not been started. -/
theorem not_start_of_queued (hI : Inv mk s) (h : some r ∈ s.jobs) : .start r ∉ s.trace := by
  intro hc
  have h1 := hI.starts r
  have h2 := hI.once r
  have h3 := List.count_pos_iff.mpr h
  have h4 := List.count_pos_iff.mpr hc
  omega

theorem start_of_finish (hI : Inv mk s) {st : ℤ} (h : .finish r st ∈ s.trace) :
    .start r ∈ s.trace := by
  obtain ⟨post, pre, htr⟩ := List.append_of_mem h
  have hafter := (htr ▸ hI.justified : Justified mk (post ++ .finish r st :: pre)).after
  rw [htr]
  exact List.mem_append_right _ (List.mem_cons_of_mem _ hafter)

/-- No step but its own finishes a worker's rule. -/
theorem finish_step (hI : Inv mk s) (hs : Step mk s l s') {j : Fin n}
    (hb : (s.workers j).busy = some r) (hw : s'.workers j = s.workers j) {st : ℤ}
    (h : .finish r st ∈ s'.trace) : .finish r st ∈ s.trace := by
  by_contra hold
  cases hs with
  | @set i b q st' hi =>
    obtain ⟨rfl, rfl⟩ : r = q ∧ st = st' := by simpa [hold] using h
    obtain rfl := (hI.alone (Worker.job_of_busy hb)).2.2.2.2.2 i (by rw [hi]; rfl)
    simp only [Function.update_self] at hw
    rw [← hw] at hb
    cases hb
  | _ => exact hold (by simpa using h)

theorem step_busy (hI : Inv mk s) (hs : Step mk s l s') (j : Fin n) (r : V)
    (h : (s'.workers j).busy = some r) :
    .start r ∈ s'.trace ∧ ∀ st, .finish r st ∉ s'.trace := by
  rcases worker_step hs j with hw | ⟨b, rfl⟩
  · -- nobody else finishes its rule
    have hb : (s.workers j).busy = some r := hw ▸ h
    obtain ⟨h1, h2⟩ := hI.busy j r hb
    exact ⟨mem_trace_step hs h1, fun st hf => h2 st (hI.finish_step hs hb hw hf)⟩
  · cases hs with
    | @start _ _ q jobs hw hj =>
      simp only [Function.update_self] at h
      obtain rfl := Option.some.inj h
      -- a rule in the queue was not started before
      have hnot := hI.not_start_of_queued (r := q) (by simp [hj])
      exact ⟨by simp, fun st hf => hnot (hI.start_of_finish (by simpa using hf))⟩
    | @check _ _ q hw =>
      have hq : (s.workers j).busy = some r := by
        simp only [Function.update_self] at h
        rw [hw]
        split at h <;> exact h
      exact hI.busy j r hq
    | @runOk _ q k hw | @runFail _ q k hw =>
      simp only [Function.update_self] at h
      obtain ⟨h1, h2⟩ := hI.busy j r (by rw [hw]; exact h)
      exact ⟨by simp [h1], fun st hf => h2 st (by simpa using hf)⟩
    | @runDone _ _ q k hw =>
      simp only [Function.update_self] at h
      exact hI.busy j r (by rw [hw]; exact h)
    | getNull | set | deliver | exit =>
      simp only [Function.update_self] at h
      cases h

theorem step_ran (hI : Inv mk s) (hs : Step mk s l s') (r : V) (k : ℕ) (ok : Bool)
    (h : .cmd r k ok ∈ s'.trace) : .start r ∈ s'.trace := by
  by_cases hold : .cmd r k ok ∈ s.trace
  · exact mem_trace_step hs (hI.ran r k ok hold)
  · cases hs with
    | @runOk i q k' hw | @runFail i q k' hw =>
      obtain ⟨rfl, -⟩ : r = q ∧ _ := by simpa [hold] using h
      exact List.mem_cons_of_mem _ (hI.busy i r (by rw [hw]; rfl)).1
    | _ => exact absurd (by simpa using h) hold

/-- Only its worker runs a command of a rule. -/
theorem cmd_step (hI : Inv mk s) (hs : Step mk s l s') {j : Fin n}
    (hb : (s.workers j).busy = some r) (hw : s'.workers j = s.workers j) {k : ℕ} {ok : Bool}
    (h : .cmd r k ok ∈ s'.trace) : .cmd r k ok ∈ s.trace := by
  by_contra hold
  cases hs with
  | @runOk i q k' hi | @runFail i q k' hi =>
    obtain ⟨rfl, rfl, -⟩ : r = q ∧ k = k' ∧ _ := by simpa [hold] using h
    obtain rfl := (hI.alone (Worker.job_of_busy hb)).2.2.2.2.2 i (by rw [hi]; rfl)
    simp [hi] at hw
  | _ => exact hold (by simpa using h)

theorem step_clean (hI : Inv mk s) (hs : Step mk s l s') (j : Fin n) (r : V)
    (h : (s'.workers j).clean = some r) : ∀ k, .cmd r k false ∉ s'.trace := by
  rcases worker_step hs j with hw | ⟨b, rfl⟩
  · have hb : (s.workers j).clean = some r := hw ▸ h
    exact fun k hf => hI.clean j r hb k (hI.cmd_step hs (Worker.busy_of_clean hb) hw hf)
  · cases hs with
    | @start _ _ q jobs hw hj =>
      simp only [Function.update_self] at h
      obtain rfl := Option.some.inj h
      have hnot := hI.not_start_of_queued (r := q) (by simp [hj])
      exact fun k hf => hnot (hI.ran q k false (by simpa using hf))
    | @check _ _ q hw =>
      have hq : (s.workers j).clean = some r := by
        simp only [Function.update_self] at h
        rw [hw]
        split at h <;> simpa [Worker.clean] using h
      exact hI.clean j r hq
    | @runOk _ q k hw =>
      simp only [Function.update_self] at h
      have hc := hI.clean j r (by rw [hw]; exact h)
      exact fun k' hf => hc k' (by simpa using hf)
    | @runFail _ q k hw =>
      simp [Worker.clean] at h
    | @runDone _ _ q k hw =>
      have hq : (s.workers j).clean = some r := by
        simp only [Function.update_self] at h
        rw [hw]
        simpa [Worker.clean] using h
      exact hI.clean j r hq
    | getNull | set | deliver | exit =>
      simp only [Function.update_self] at h
      cases h

theorem step_failed (hI : Inv mk s) (hs : Step mk s l s') (r : V) (k : ℕ)
    (h : .cmd r k false ∈ s'.trace) : .finish r 0 ∉ s'.trace := by
  by_cases hold : .cmd r k false ∈ s.trace
  · have hnot := hI.failed r k hold
    intro hf
    cases hs with
    | @set i b q st hw =>
      obtain ⟨rfl, rfl⟩ : r = q ∧ 0 = st := by simpa [hnot] using hf
      exact hI.clean i r (by rw [hw]; rfl) k hold
    | _ => exact hnot (by simpa using hf)
  · cases hs with
    | @runFail i q k' hw =>
      obtain ⟨rfl, -⟩ : r = q ∧ _ := by simpa [hold] using h
      exact fun hf => (hI.busy i r (by rw [hw]; rfl)).2 0 (by simpa using hf)
    | _ => exact absurd (by simpa using h) hold

theorem step_broken (hI : Inv mk s) (hs : Step mk s l s') (j : Fin n) (r : V)
    (h : s'.workers j = .setting r (-1)) : ∃ k, .cmd r k false ∈ s'.trace := by
  rcases worker_step hs j with hw | ⟨b, rfl⟩
  · obtain ⟨k, hk⟩ := hI.broken j r (hw ▸ h)
    exact ⟨k, mem_trace_step hs hk⟩
  · cases hs with
    | @runFail _ q k hw =>
      simp only [Function.update_self] at h
      obtain ⟨rfl, -⟩ := Worker.setting.inj h
      exact ⟨k, by simp⟩
    | check =>
      simp only [Function.update_self] at h
      split at h
      · cases h
      · simp at h
    | runDone => simp at h
    | runOk | start | getNull | set | deliver | exit =>
      simp only [Function.update_self] at h
      cases h

theorem step_finishFail (hI : Inv mk s) (hs : Step mk s l s') (r : V)
    (h : .finish r (-1) ∈ s'.trace) : ∃ k, .cmd r k false ∈ s'.trace := by
  by_cases hold : .finish r (-1) ∈ s.trace
  · obtain ⟨k, hk⟩ := hI.finishFail r hold
    exact ⟨k, mem_trace_step hs hk⟩
  · cases hs with
    | @set i b q st hw =>
      obtain ⟨rfl, rfl⟩ : r = q ∧ -1 = st := by simpa [hold] using h
      obtain ⟨k, hk⟩ := hI.broken i r hw
      exact ⟨k, by simp [hk]⟩
    | _ => exact absurd (by simpa using h) hold

/-- **Every event comes after what it needs.** -/
theorem step_justified (hI : Inv mk s) (hs : Step mk s l s') : Justified mk s'.trace := by
  have h := hI.justified
  cases hs with
  | @start i b q jobs hw hj =>
    refine ⟨fun d hd => ?_, h⟩
    -- pushed, so all its dependencies were taken with state 0, and so they had finished
    have hpush := hI.push_of_queued (r := q) (by simp [hj])
    exact hI.zero d (hI.taken d 0 (hI.taken_of_push hpush hd))
  | @runOk i q k hw | @runFail i q k hw =>
    exact ⟨⟨(hI.busy i q (by rw [hw]; rfl)).1, hI.clean i q (by rw [hw]; rfl)⟩, h⟩
  | @set i b q st hw => exact ⟨(hI.busy i q (by rw [hw]; rfl)).1, h⟩
  | takeFailed | takeOk | countPush => exact ⟨trivial, h⟩
  | _ => exact h

end Inv

/-! ### All together -/

/-- **Every step keeps the invariant.** -/
theorem Inv.step (hI : Inv mk s) (hs : Step mk s l s') : Inv mk s' where
  pushed := hI.step_pushed hs
  satisfied := hI.step_satisfied hs
  counting := hI.step_counting hs
  failing := hI.step_failing hs
  reporting := hI.step_reporting hs
  places := hI.step_places hs
  unpushed := hI.step_unpushed hs
  finish := hI.step_finish hs
  taken := hI.step_taken hs
  takes := hI.step_takes hs
  zero := hI.step_zero hs
  minus := hI.step_minus hs
  poisoned := hI.step_poisoned hs
  blocked := hI.step_blocked hs
  settled := hI.step_settled hs
  setting := hI.step_setting hs
  starts := hI.step_starts hs
  once := hI.step_once hs
  busy := hI.step_busy hs
  clean := hI.step_clean hs
  ran := hI.step_ran hs
  failed := hI.step_failed hs
  broken := hI.step_broken hs
  finishFail := hI.step_finishFail hs
  justified := hI.step_justified hs

/-- Pushes need nothing. -/
theorem Justified.of_pushes {tr : List (Event V)} (h : ∀ e ∈ tr, ∃ p, e = .push p) :
    Justified mk tr := by
  induction tr with
  | nil => trivial
  | cons e tr ih =>
    obtain ⟨p, rfl⟩ := h e (by simp)
    exact ⟨trivial, ih (fun e he => h e (by simp [he]))⟩

/-- The invariant holds before the threads start. -/
theorem Inv.initial (mk : Makefile V) (n : ℕ) : Inv mk (initial mk n) := by
  have hmem : ∀ p, .push p ∈ (ParMake.initial mk n).trace ↔
      p ∈ mk.graph.vertices ∧ mk.graph.neighbors p = [] := by
    intro p
    simp [ParMake.initial, Makefile.leaves]
  have hnd : mk.leaves.Nodup := mk.graph.vertices_nodup.filter _
  have hcount : ∀ p, (ParMake.initial mk n).trace.count (.push p) = mk.leaves.count p := by
    intro p
    show ((mk.leaves.map Event.push).reverse).count (.push p) = mk.leaves.count p
    rw [List.count_reverse, List.count_map_of_injective _ _ (fun _ _ h => Event.push.inj h)]
  have hjobs : ∀ p, (ParMake.initial mk n).jobs.count (some p) = mk.leaves.count p := by
    intro p
    exact List.count_map_of_injective _ _ (Option.some_injective V) p
  have hone : ∀ p, mk.leaves.count p ≤ 1 := List.nodup_iff_count_le_one.mp hnd
  have hwork : ∀ p, inWork (ParMake.initial mk n) p = 0 := by
    intro p
    simp [inWork, ParMake.initial, Worker.job]
  -- nothing but pushes has happened
  have hno : ∀ e, (∀ p, e ≠ .push p) → e ∉ (ParMake.initial mk n).trace := by
    intro e he hc
    obtain ⟨p, -, rfl⟩ := List.mem_map.mp (List.mem_reverse.mp hc)
    exact he p rfl
  have htake : ∀ r st, .take r st ∉ (ParMake.initial mk n).trace := fun r st => hno _ (by simp)
  have hstart : ∀ r, .start r ∉ (ParMake.initial mk n).trace := fun r => hno _ (by simp)
  have hcmd : ∀ r j ok, .cmd r j ok ∉ (ParMake.initial mk n).trace := fun r j ok => hno _ (by simp)
  have hfinish : ∀ r st, .finish r st ∉ (ParMake.initial mk n).trace :=
    fun r st => hno _ (by simp)
  have hst : ∀ r, (ParMake.initial mk n).state r = 1 := fun _ => rfl
  have hmain : (ParMake.initial mk n).main = .pulling := rfl
  have hidle : ∀ i, (ParMake.initial mk n).workers i = .idle := fun _ => rfl
  have hchecked : (ParMake.initial mk n).checked = [] := rfl
  exact {
    pushed := fun p => by
      rw [hmem]
      simp [ParMake.initial]
    satisfied := fun p => by
      simp [htake, pending, hmain]
      rfl
    counting := by simp [hmain]
    failing := by simp [hmain]
    reporting := by simp [hmain]
    places := fun r hr => by
      have hpos := List.count_pos_iff.mpr hr
      have hle := hone r
      rw [hcount] at hpos
      simp only [ParMake.places, hjobs, hwork, hchecked, inHand, hmain,
        List.count_eq_zero.mpr (htake r 0), List.count_eq_zero.mpr (htake r (-1))]
      simp [Main.out]
      omega
    unpushed := fun r hr => by
      have h0 := List.count_eq_zero.mpr hr
      rw [hcount] at h0
      exact ⟨(hjobs r).trans h0, hwork r, hstart r, hfinish r⟩
    finish := fun r st h => absurd h (hfinish r st)
    taken := fun r st h => absurd h (htake r st)
    takes := fun r st h => absurd h (htake r st)
    zero := fun r h => by simp [hst] at h
    minus := fun r _ h => by simp [hst] at h
    poisoned := fun r _ h => by simp [hchecked, hmain] at h
    blocked := fun r _ h => by simp [hst] at h
    settled := fun r h => by simp [hchecked, hmain, hidle] at h
    setting := fun i r st h => by simp [hidle] at h
    starts := fun r => by rw [hjobs, hcount, List.count_eq_zero.mpr (hstart r), Nat.add_zero]
    once := fun r => (hcount r).trans_le (hone r)
    busy := fun i r h => by simp [hidle, Worker.busy] at h
    clean := fun i r h => by simp [hidle, Worker.clean] at h
    ran := fun r j ok h => absurd h (hcmd r j ok)
    failed := fun r j h => absurd h (hcmd r j false)
    broken := fun i r h => by simp [hidle] at h
    finishFail := fun r h => absurd h (hfinish r (-1))
    justified := by
      refine Justified.of_pushes (fun e he => ?_)
      obtain ⟨p, -, rfl⟩ := List.mem_map.mp (List.mem_reverse.mp he)
      exact ⟨p, rfl⟩ }

/-- **The invariant holds in every reachable state.** -/
theorem Reachable.inv (hr : Reachable mk s) : Inv mk s := by
  refine Lts.Reach.invariant hr (fun s h0 => ?_) (fun s l s' hI _ hs => hI.step (step_cases hs))
  rw [show s = ParMake.initial mk n from h0]
  exact Inv.initial mk n

end SystemProgramming.ParMake
