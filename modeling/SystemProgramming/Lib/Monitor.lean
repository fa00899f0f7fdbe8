import Mathlib.Algebra.BigOperators.Group.Finset.Piecewise
import Mathlib.Data.Fintype.Card
import SystemProgramming.Lib.Lts

namespace SystemProgramming.Lib

/-!
# Monitors

Threads that share a state under one mutex, with one condition variable.  A critical section,
from where a thread gets the mutex to where it gives it up, is one step: it changes the shared
state, may wake sleepers, and ends with a wait, with the rest of the call outside of the
mutex, or with the end of the call.  A sleeper may wake up for no reason, and needs the mutex
like any other thread.

* `Monitor.lts` — the system: any thread begins a call, stops, runs a section or wakes up.
* `Monitor.Steps` — what a step does.
* `Monitor.shared_invariant` — what every section keeps holds of the shared state and of the
  calls that are completed.
* `Monitor.asleep_blocked` — if only broadcasts unblock, a sleeper is blocked.
* `Monitor.count_update` — how many threads are somewhere, after one of them moves.
-/

namespace Monitor

/-- Where a thread is; `c` is what it goes on with when it has the mutex. -/
inductive Status (C : Type*)
  | outside
  | ready (c : C)
  /-- on the condition variable, and not notified -/
  | asleep (c : C)
  | finished
  deriving DecidableEq

/-- What is done to the condition variable: nothing, a signal, or a broadcast. -/
inductive Wakes
  | nobody
  | one
  | all
  deriving DecidableEq

/-- How a section ends. -/
inductive Ending (C R : Type*)
  | wait (c : C)
  | next (c : C)
  | done (r : R)

variable {I σ K C A R : Type*}

/-- A notified sleeper goes for the mutex. -/
def Status.woken : Status C → Status C
  | .asleep c => .ready c
  | s => s

def Status.sleeps : Status C → Bool
  | .asleep _ => true
  | _ => false

/-- Where a thread is after its section. -/
def Ending.status : Ending C R → Status C
  | .wait c => .asleep c
  | .next c => .ready c
  | .done _ => .outside

/-- The call that is completed, if one is. -/
def Ending.logged (c : C) : Ending C R → List (C × R)
  | .done r => [(c, r)]
  | _ => []

variable (I σ C R) in
/-- The shared state, the threads, how many calls each has begun, and the calls that are
    completed, in the order of their last sections. -/
structure State where
  shared : σ
  status : I → Status C
  called : I → ℕ
  log : List (C × R)

variable (I K A) in
/-- What may happen next. -/
inductive Action
  | call (i : I) (k : K)
  /-- a thread stops, and makes no more calls -/
  | quit (i : I)
  /-- a section; a signal goes to the target, and `x` is what the section cannot know -/
  | run (i : I) (target : Option I) (x : A)
  /-- a spurious wakeup -/
  | spurious (i : I)

end Monitor

open Monitor

/-- The calls, by where they start, and their sections. -/
structure Monitor (σ K C A R : Type*) where
  start : K → C
  body : A → C → σ → Option (σ × Wakes × Ending C R)

namespace Monitor

variable {I σ K C A R : Type*} [DecidableEq I] [Fintype I]

/-- The threads after a signal or a broadcast.  A signal wakes one of the sleepers, if there
    are any. -/
def wake (w : Wakes) (target : Option I) (status : I → Status C) : Option (I → Status C) :=
  match w with
  | .nobody => some status
  | .all => some (fun j => (status j).woken)
  | .one =>
    match target with
    | some j =>
      if (status j).sleeps then some (Function.update status j (status j).woken) else none
    | none => if ∀ j, (status j).sleeps = false then some status else none

/-- A step of the system. -/
def step (M : Monitor σ K C A R) (s : State I σ C R) : Action I K A → Option (State I σ C R)
  | .call i k =>
    match s.status i with
    | .outside => some { s with
        status := Function.update s.status i (.ready (M.start k))
        called := Function.update s.called i (s.called i + 1) }
    | _ => none
  | .quit i =>
    match s.status i with
    | .outside => some { s with status := Function.update s.status i .finished }
    | _ => none
  | .run i target x =>
    match s.status i with
    | .ready c =>
      match M.body x c s.shared with
      | none => none
      | some (shared, w, e) => (wake w target s.status).map (fun status => {
          shared := shared
          status := Function.update status i e.status
          called := s.called
          log := s.log ++ e.logged c })
    | _ => none
  | .spurious i =>
    match s.status i with
    | .asleep c => some { s with status := Function.update s.status i (.ready c) }
    | _ => none

/-- Nobody has made a call. -/
def start₀ (s₀ : σ) : State I σ C R := ⟨s₀, fun _ => .outside, fun _ => 0, []⟩

variable (I) in
/-- The system. -/
def lts (M : Monitor σ K C A R) (s₀ : σ) : Lts (State I σ C R) (Action I K A) where
  init s := s = start₀ s₀
  step := M.step

variable {M : Monitor σ K C A R} {s₀ : σ} {s s' : State I σ C R} {a : Action I K A}
  {status status' : I → Status C} {w : Wakes} {target : Option I} {i j : I} {c : C}
  {ok : State I σ C R → Action I K A → Prop}

/-! ### What a step does -/

/-- **What a wake-up does.**  A sleeper may be notified, and nothing else changes. -/
theorem wake_cases (h : wake w target status = some status') (j : I) :
    status' j = status j ∨ ∃ c, status j = .asleep c ∧ status' j = .ready c := by
  have hwoken : ∀ x : Status C, x.woken = x ∨ ∃ c, x = .asleep c ∧ x.woken = .ready c := by
    intro x
    cases x with
    | asleep c => exact .inr ⟨c, rfl, rfl⟩
    | _ => exact .inl rfl
  unfold wake at h
  split at h
  · obtain rfl := Option.some.inj h
    exact .inl rfl
  · obtain rfl := Option.some.inj h
    exact hwoken (status j)
  · split at h
    · rename_i k
      split at h
      · obtain rfl := Option.some.inj h
        by_cases heq : j = k
        · rw [heq, Function.update_self]
          exact hwoken (status k)
        · rw [Function.update_of_ne heq]
          exact .inl rfl
      · exact absurd h (by simp)
    · split at h
      · obtain rfl := Option.some.inj h
        exact .inl rfl
      · exact absurd h (by simp)

/-- After a broadcast nobody sleeps. -/
theorem wake_all (h : wake .all target status = some status') (j : I) (c : C) :
    status' j ≠ .asleep c := by
  obtain rfl := Option.some.inj h
  dsimp only
  cases status j <;> simp [Status.woken]

/-- A signal wakes a sleeper, unless there is none. -/
theorem wake_one (h : wake .one target status = some status') :
    (∀ j c, status j ≠ .asleep c) ∧ status' = status ∨
      ∃ j c, status j = .asleep c ∧ status' = Function.update status j (.ready c) := by
  cases target with
  | none =>
    obtain ⟨hnone, heq⟩ := Option.ite_none_right_eq_some.mp h
    refine .inl ⟨fun j c hj => ?_, (Option.some.inj heq).symm⟩
    have hsleeps := hnone j
    rw [hj] at hsleeps
    exact absurd hsleeps (by simp [Status.sleeps])
  | some j =>
    obtain ⟨hsleeps, heq⟩ := Option.ite_none_right_eq_some.mp h
    cases hj : status j with
    | asleep c =>
      rw [hj] at heq
      exact .inr ⟨j, c, hj, (Option.some.inj heq).symm⟩
    | _ =>
      rw [hj] at hsleeps
      exact absurd hsleeps (by simp [Status.sleeps])

omit [Fintype I] in
/-- A thread that moves elsewhere is not the one that sleeps. -/
theorem asleep_of_update {x : Status C} (hx : x ≠ .asleep c)
    (h : Function.update status i x j = .asleep c) : j ≠ i ∧ status j = .asleep c := by
  by_cases heq : j = i
  · rw [heq, Function.update_self] at h
    exact absurd h hx
  · rw [Function.update_of_ne heq] at h
    exact ⟨heq, h⟩

/-- **Everything that a step can do.** -/
inductive Steps (M : Monitor σ K C A R) (s : State I σ C R) :
    Action I K A → State I σ C R → Prop
  | call (i : I) (k : K) (h : s.status i = .outside) : Steps M s (.call i k) { s with
      status := Function.update s.status i (.ready (M.start k))
      called := Function.update s.called i (s.called i + 1) }
  | quit (i : I) (h : s.status i = .outside) :
      Steps M s (.quit i) { s with status := Function.update s.status i .finished }
  | run (i : I) (target : Option I) (x : A) (c : C) (shared : σ) (w : Wakes) (e : Ending C R)
      (status : I → Status C) (h : s.status i = .ready c)
      (hbody : M.body x c s.shared = some (shared, w, e))
      (hwake : wake w target s.status = some status) : Steps M s (.run i target x) {
        shared := shared
        status := Function.update status i e.status
        called := s.called
        log := s.log ++ e.logged c }
  | spurious (i : I) (c : C) (h : s.status i = .asleep c) :
      Steps M s (.spurious i) { s with status := Function.update s.status i (.ready c) }

theorem steps_of_step (h : M.step s a = some s') : M.Steps s a s' := by
  unfold step at h
  split at h
  · split at h
    · rename_i hi
      obtain rfl := Option.some.inj h
      exact .call _ _ hi
    · exact absurd h (by simp)
  · split at h
    · rename_i hi
      obtain rfl := Option.some.inj h
      exact .quit _ hi
    · exact absurd h (by simp)
  · split at h
    · rename_i hi
      split at h
      · exact absurd h (by simp)
      · rename_i hbody
        obtain ⟨status, hwake, rfl⟩ := Option.map_eq_some_iff.mp h
        exact .run _ _ _ _ _ _ _ status hi hbody hwake
    · exact absurd h (by simp)
  · split at h
    · rename_i hi
      obtain rfl := Option.some.inj h
      exact .spurious _ _ hi
    · exact absurd h (by simp)

/-- A thread that wants the mutex can run a section that does not signal. -/
theorem run_returns {x : A} {shared : σ} {e : Ending C R} (hi : s.status i = .ready c)
    (hbody : M.body x c s.shared = some (shared, w, e)) (hw : w ≠ .one) :
    ∃ s', M.step s (.run i none x) = some s' := by
  have hwake : ∃ status, wake w none s.status = some status := by
    cases w with
    | nobody => exact ⟨_, rfl⟩
    | all => exact ⟨_, rfl⟩
    | one => exact absurd rfl hw
  obtain ⟨status, hwake⟩ := hwake
  unfold step
  simp only [hi, hbody, hwake, Option.map_some]
  exact ⟨_, rfl⟩

/-- Whose step it is. -/
def Action.thread : Action I K A → I
  | .call i _ => i
  | .quit i => i
  | .run i _ _ => i
  | .spurious i => i

/-- **What a step does to the others.**  They may be notified. -/
theorem others_of_step (h : M.step s a = some s') (hj : j ≠ a.thread) :
    s'.called j = s.called j ∧
      (s'.status j = s.status j ∨ ∃ c, s.status j = .asleep c ∧ s'.status j = .ready c) := by
  cases steps_of_step h with
  | call => exact ⟨Function.update_of_ne hj .., .inl (Function.update_of_ne hj ..)⟩
  | quit => exact ⟨rfl, .inl (Function.update_of_ne hj ..)⟩
  | spurious => exact ⟨rfl, .inl (Function.update_of_ne hj ..)⟩
  | run i target x c shared w e status hi hbody hwake =>
    have hne : j ≠ i := hj
    dsimp only
    rw [Function.update_of_ne hne]
    exact ⟨rfl, wake_cases hwake j⟩

/-! ### Rules -/

/-- **The shared state.**  What every section keeps holds in every state reached. -/
theorem shared_invariant {P : σ → List (C × R) → Prop} (h0 : P s₀ [])
    (hbody : ∀ x c s s' w e l, M.body x c s = some (s', w, e) → P s l → P s' (l ++ e.logged c))
    (hr : (M.lts I s₀).Reach ok s) : P s.shared s.log := by
  apply hr.invariant (I := fun s => P s.shared s.log)
  · rintro s rfl
    exact h0
  · intro s a s' hP _ hs
    cases steps_of_step hs with
    | call | quit | spurious => exact hP
    | run i target x c shared w e status _ hsection => exact hbody x c _ _ w e _ hsection hP

/-- **No lost wakeup.**  If a section that waits leaves its thread blocked, and a section that
    does not broadcast leaves all blocked that were, then in every state reached a thread that
    sleeps, and was not notified since, is blocked. -/
theorem asleep_blocked {B : C → σ → Prop}
    (hwait : ∀ x c s s' w c', M.body x c s = some (s', w, .wait c') → B c' s')
    (hkeep : ∀ x c s s' w e, M.body x c s = some (s', w, e) → w ≠ .all →
      ∀ c', B c' s → B c' s')
    (hr : (M.lts I s₀).Reach ok s) : ∀ i c, s.status i = .asleep c → B c s.shared := by
  apply hr.invariant (I := fun s => ∀ i c, s.status i = .asleep c → B c s.shared)
  · rintro s rfl i c hi
    exact absurd hi (by simp [start₀])
  · intro s a s' hP _ hs j c hj
    cases steps_of_step hs with
    | call | quit | spurious => exact hP j c (asleep_of_update (by simp) hj).2
    | run i target x c' shared w e status hi hbody hwake =>
      dsimp only at hj ⊢
      by_cases heq : j = i
      · rw [heq, Function.update_self] at hj
        cases e with
        | wait c'' =>
          obtain rfl : c'' = c := Status.asleep.inj hj
          exact hwait x c' _ _ w _ hbody
        | _ => exact absurd hj (by simp [Ending.status])
      · rw [Function.update_of_ne heq] at hj
        have hall : w ≠ .all := by
          rintro rfl
          exact wake_all hwake j c hj
        apply hkeep x c' _ _ w e hbody hall
        apply hP j
        rcases wake_cases hwake j with hsame | ⟨c'', -, hready⟩
        · exact hsame.symm.trans hj
        · exact absurd (hready.symm.trans hj) (by simp)

/-! ### Counting threads -/

section Count

variable {I C : Type*} [Fintype I] {status status' : I → Status C} {i : I}

/-- How many threads are where `p` says. -/
def count (p : Status C → Bool) (status : I → Status C) : ℕ :=
  (Finset.univ.filter (fun i => p (status i) = true)).card

theorem count_pos {p : Status C → Bool} (h : p (status i) = true) : 0 < count p status :=
  Finset.card_pos.mpr ⟨i, by simp [h]⟩

theorem exists_of_count_pos {p : Status C → Bool} (h : 0 < count p status) :
    ∃ i, p (status i) = true := by
  obtain ⟨i, hi⟩ := Finset.card_pos.mp h
  exact ⟨i, (Finset.mem_filter.mp hi).2⟩

/-- **One thread moves.** -/
theorem count_update [DecidableEq I] (p : Status C → Bool) (status : I → Status C) (i : I)
    (x : Status C) :
    count p (Function.update status i x) + (if p (status i) = true then 1 else 0) =
      count p status + (if p x = true then 1 else 0) := by
  unfold count
  rw [Finset.card_filter, Finset.card_filter, ← Finset.add_sum_erase _ _ (Finset.mem_univ i),
    ← Finset.add_sum_erase _ (fun j => if p (status j) = true then 1 else 0) (Finset.mem_univ i),
    Function.update_self]
  have hrest : ∑ j ∈ Finset.univ.erase i, (if p (Function.update status i x j) = true then 1 else 0) =
      ∑ j ∈ Finset.univ.erase i, (if p (status j) = true then 1 else 0) := by
    apply Finset.sum_congr rfl
    intro j hj
    rw [Function.update_of_ne (Finset.ne_of_mem_erase hj)]
  rw [hrest]
  omega

/-- One thread moves to where `p` says, or from elsewhere. -/
theorem count_le_update [DecidableEq I] {p : Status C → Bool} {x : Status C}
    (h : p (status i) = true → p x = true) :
    count p status ≤ count p (Function.update status i x) := by
  have hmove := count_update p status i x
  split at hmove
  · rename_i hi
    rw [if_pos (h hi)] at hmove
    omega
  · omega

theorem count_congr {p : Status C → Bool} (h : ∀ j, p (status' j) = p (status j)) :
    count p status' = count p status := by
  unfold count
  simp only [h]

theorem exists_of_count_lt {p : Status C → Bool} (h : count p status < Fintype.card I) :
    ∃ i, p (status i) = false := by
  by_contra hall
  have hfull : count p status = Fintype.card I := by
    apply congrArg Finset.card
    apply Finset.filter_true_of_mem
    intro i _
    exact Bool.eq_true_of_not_eq_false (not_exists.mp hall i)
  omega

/-- If all but one are where `p` says, and this one is not, then the others are. -/
theorem others_of_count [DecidableEq I] {p : Status C → Bool} {j : I}
    (h : count p status + 1 = Fintype.card I) (hi : p (status i) = false) (hj : j ≠ i) :
    p (status j) = true := by
  by_contra hnot
  have hpair : ({i, j} : Finset I).card = 2 := Finset.card_pair hj.symm
  have hdisjoint : Disjoint (Finset.univ.filter (fun i => p (status i) = true)) {i, j} := by
    rw [Finset.disjoint_right]
    intro k hk
    rcases Finset.mem_insert.mp hk with rfl | hk
    · simp [hi]
    · obtain rfl := Finset.mem_singleton.mp hk
      simpa using hnot
  have hle := Finset.card_le_univ (Finset.univ.filter (fun i => p (status i) = true) ∪ {i, j})
  rw [Finset.card_union_of_disjoint hdisjoint, hpair] at hle
  unfold count at h
  omega

end Count

end Monitor

end SystemProgramming.Lib
