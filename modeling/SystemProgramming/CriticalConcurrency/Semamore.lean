import Mathlib.Algebra.Order.Group.Int
import SystemProgramming.Lib.Monitor

namespace SystemProgramming.CriticalConcurrency

open SystemProgramming.Lib
open Monitor (Wakes Ending Status Action count)

/-!
# `critical_concurrency/semamore.c` — a semaphore that also blocks at the top

Those who wait for a value above zero and those who wait for one below the maximum sleep on
one condition variable.  `semm_post` signals it and `semm_wait` does not, so that the end of
the second wait is told to nobody.

* `semm_wait`, `semm_post` — the sections of the two calls.
* `value_bounds` — in every run the value stays between zero and the maximum.
* `semamore_live` — nobody is stranded in a run in which the value is not lowered while a post
  sleeps.
* `not_semamore_live` — where it is, a post sleeps forever.

The structure is declared in `semamore.h`, which is not in the repository; its numbers are
`int`s, and `value_bounds` says that they do not overflow.
-/

/-- `Semamore`, without its mutex and its condition variable. -/
structure Semamore where
  value : ℤ
  max_val : ℤ

/-- `semm_init` -/
def semm_init (value max_val : ℤ) : Semamore := ⟨value, max_val⟩

/-- The calls. -/
inductive SemmCall
  | wait
  | post
  deriving DecidableEq

/-- `semm_wait`, from where it has the mutex. -/
def semm_wait (s : Semamore) : Semamore × Wakes × Ending SemmCall Unit :=
  if s.value = 0 then (s, .nobody, .wait .wait)
  else ({ s with value := s.value - 1 }, .nobody, .done ())

/-- `semm_post`, from where it has the mutex. -/
def semm_post (s : Semamore) : Semamore × Wakes × Ending SemmCall Unit :=
  if s.value = s.max_val then (s, .nobody, .wait .post)
  else ({ s with value := s.value + 1 }, .one, .done ())

/-- The semamore as a monitor. -/
def semm_monitor : Monitor Semamore SemmCall SemmCall Unit Unit where
  start := id
  body _
    | .wait => fun s => some (semm_wait s)
    | .post => fun s => some (semm_post s)

/-- How a section goes. -/
inductive SemmSection (s : Semamore) :
    SemmCall → Semamore → Wakes → Ending SemmCall Unit → Prop
  | zero (h : s.value = 0) : SemmSection s .wait s .nobody (.wait .wait)
  | lower (h : s.value ≠ 0) :
      SemmSection s .wait { s with value := s.value - 1 } .nobody (.done ())
  | full (h : s.value = s.max_val) : SemmSection s .post s .nobody (.wait .post)
  | raise (h : s.value ≠ s.max_val) :
      SemmSection s .post { s with value := s.value + 1 } .one (.done ())

theorem semm_section {s s' : Semamore} {c : SemmCall} {w : Wakes} {e : Ending SemmCall Unit}
    (h : semm_monitor.body () c s = some (s', w, e)) : SemmSection s c s' w e := by
  cases c with
  | wait =>
    have hw : semm_wait s = (s', w, e) := Option.some.inj h
    unfold semm_wait at hw
    split at hw
    · rename_i hzero
      obtain ⟨rfl, rfl, rfl⟩ := by simpa using hw
      exact .zero hzero
    · rename_i hne
      obtain ⟨rfl, rfl, rfl⟩ := by simpa using hw
      exact .lower hne
  | post =>
    have hw : semm_post s = (s', w, e) := Option.some.inj h
    unfold semm_post at hw
    split at hw
    · rename_i hfull
      obtain ⟨rfl, rfl, rfl⟩ := by simpa using hw
      exact .full hfull
    · rename_i hne
      obtain ⟨rfl, rfl, rfl⟩ := by simpa using hw
      exact .raise hne

/-! ### The value -/

variable {I : Type} [DecidableEq I] [Fintype I] {value max_val : ℤ}

variable (I) in
/-- Threads that share a semamore. -/
abbrev semm_lts (value max_val : ℤ) := semm_monitor.lts I (semm_init value max_val)

variable (I) in
/-- The threads and their semamore. -/
abbrev SemmState := Monitor.State I Semamore SemmCall Unit

variable {s s' : SemmState I} {ok : SemmState I → Action I SemmCall Unit → Prop}

/-- **The value stays between zero and the maximum**, in every run. -/
theorem value_bounds (h0 : 0 ≤ value) (hle : value ≤ max_val)
    (hr : (semm_lts I value max_val).Reach ok s) :
    s.shared.max_val = max_val ∧ 0 ≤ s.shared.value ∧ s.shared.value ≤ max_val := by
  apply Monitor.shared_invariant
    (P := fun q _ => q.max_val = max_val ∧ 0 ≤ q.value ∧ q.value ≤ max_val) _ _ hr
  · exact ⟨rfl, h0, hle⟩
  · rintro ⟨⟩ c q q' w e l hb ⟨hmax, h1, h2⟩
    cases semm_section hb with
    | zero | full => exact ⟨hmax, h1, h2⟩
    | lower hne =>
      refine ⟨hmax, ?_, ?_⟩
      all_goals
        dsimp only
        omega
    | raise hne =>
      rw [hmax] at hne
      refine ⟨hmax, ?_, ?_⟩
      all_goals
        dsimp only
        omega

/-! ### Nobody is stranded -/

/-- All threads that have not stopped sleep, and one of them could go on. -/
def Stranded (s : SemmState I) : Prop :=
  (∀ i, s.status i = .finished ∨ ∃ c, s.status i = .asleep c) ∧
    ∃ i, s.status i = .asleep .wait ∧ 0 < s.shared.value ∨
      s.status i = .asleep .post ∧ s.shared.value < s.shared.max_val

/-- The value is not lowered while a post sleeps that was not notified. -/
def Watched (s : SemmState I) : Action I SemmCall Unit → Prop
  | .run i _ _ => s.status i = .ready .wait → s.shared.value ≠ 0 → ∀ j, s.status j ≠ .asleep .post
  | _ => True

/-- On its way to the mutex in a wait. -/
def ReadyToWait (x : Status SemmCall) : Bool := decide (x = .ready .wait)

/-- A post sleeps at the maximum only; and where a wait sleeps, no more is there than others
    are on their way to take. -/
structure Served (s : SemmState I) : Prop where
  post : ∀ i, s.status i = .asleep .post → s.shared.value = s.shared.max_val
  wait : ∀ i, s.status i = .asleep .wait → s.shared.value ≤ count ReadyToWait s.status

/-- A thread moves outside of the sections. -/
theorem Served.move {i : I} {x : Status SemmCall} {called : I → ℕ} (hs : Served s)
    (hx : ∀ c, x ≠ .asleep c) (hcount : ReadyToWait (s.status i) = true → ReadyToWait x = true) :
    Served { s with status := Function.update s.status i x, called := called } := by
  constructor
  · intro j hj
    exact hs.post j (Monitor.asleep_of_update (hx _) hj).2
  · intro j hj
    have hle := hs.wait j (Monitor.asleep_of_update (hx _) hj).2
    have hmore : count ReadyToWait s.status ≤ count ReadyToWait (Function.update s.status i x) :=
      Monitor.count_le_update hcount
    dsimp only
    omega

/-- **A step keeps the invariant.** -/
theorem Served.step {a : Action I SemmCall Unit} (hs : Served s) (hok : Watched s a)
    (hstep : semm_monitor.step s a = some s') : Served s' := by
  cases Monitor.steps_of_step hstep with
  | call i k hi => exact hs.move (by simp) (by simp [hi, ReadyToWait])
  | quit i hi => exact hs.move (by simp) (by simp [hi, ReadyToWait])
  | spurious i c hi => exact hs.move (by simp) (by simp [hi, ReadyToWait])
  | run i target x c shared w e status hi hbody hwake =>
    cases semm_section hbody with
    | zero hzero =>
      obtain rfl := Option.some.inj hwake
      refine ⟨fun j hj => hs.post j (Monitor.asleep_of_update (by simp [Ending.status]) hj).2, ?_⟩
      intro j _
      dsimp only
      omega
    | lower hne =>
      obtain rfl := Option.some.inj hwake
      constructor
      · intro j hj
        exact absurd (Monitor.asleep_of_update (by simp [Ending.status]) hj).2 (hok hi hne j)
      · -- one of those on their way has taken one
        intro j hj
        have hle := hs.wait j (Monitor.asleep_of_update (by simp [Ending.status]) hj).2
        have hmove := Monitor.count_update ReadyToWait s.status i .outside
        rw [if_pos (by rw [hi]; rfl), if_neg (by decide)] at hmove
        dsimp only [Ending.status]
        omega
    | full hfull =>
      obtain rfl := Option.some.inj hwake
      constructor
      · exact fun _ _ => hfull
      · intro j hj
        have hle := hs.wait j (Monitor.asleep_of_update (by simp [Ending.status]) hj).2
        have hmove := Monitor.count_update ReadyToWait s.status i (.asleep .post)
        rw [if_neg (by rw [hi]; decide), if_neg (by decide)] at hmove
        dsimp only [Ending.status]
        omega
    | raise hne =>
      -- below the maximum no post sleeps, and so the signal is for a wait
      have hpost : ∀ j, s.status j ≠ .asleep .post := fun j hj => hne (hs.post j hj)
      rcases Monitor.wake_one hwake with ⟨hnone, rfl⟩ | ⟨j, c, hj, rfl⟩
      · constructor
        · intro k hk
          exact absurd (Monitor.asleep_of_update (by simp [Ending.status]) hk).2 (hnone k _)
        · intro k hk
          exact absurd (Monitor.asleep_of_update (by simp [Ending.status]) hk).2 (hnone k _)
      · have hji : i ≠ j := by
          rintro rfl
          exact absurd (hi.symm.trans hj) (by simp)
        obtain rfl : c = .wait := by
          cases c with
          | wait => rfl
          | post => exact absurd hj (hpost j)
        have hsleeps : ∀ {k c}, Function.update (Function.update s.status j (.ready .wait)) i
            (Ending.done () : Ending SemmCall Unit).status k = .asleep c → s.status k = .asleep c := by
          intro k c hk
          exact (Monitor.asleep_of_update (by simp)
            (Monitor.asleep_of_update (by simp [Ending.status]) hk).2).2
        refine ⟨fun k hk => absurd (hsleeps hk) (hpost k), fun k hk => ?_⟩
        have hle := hs.wait k (hsleeps hk)
        have hwoken := Monitor.count_update ReadyToWait s.status j (.ready .wait)
        rw [if_neg (by rw [hj]; decide), if_pos (by decide)] at hwoken
        have hmove := Monitor.count_update ReadyToWait
          (Function.update s.status j (.ready .wait)) i .outside
        rw [Function.update_of_ne hji, if_neg (by rw [hi]; decide), if_neg (by decide)] at hmove
        dsimp only [Ending.status]
        omega

theorem served_of_reach (hr : (semm_lts I value max_val).Reach Watched s) : Served s := by
  apply hr.invariant
  · rintro s rfl
    refine ⟨fun i hi => absurd hi (by simp [Monitor.start₀]), fun i hi => ?_⟩
    exact absurd hi (by simp [Monitor.start₀])
  · exact fun _ _ _ hs hok hstep => hs.step hok hstep

/-- **Safety, and no deadlock.**  In every run in which the value is not lowered while a post
    sleeps that was not notified, the value stays between zero and the maximum, and nobody is
    stranded. -/
theorem semamore_live (h0 : 0 ≤ value) (hle : value ≤ max_val)
    (hr : (semm_lts I value max_val).Reach Watched s) :
    (0 ≤ s.shared.value ∧ s.shared.value ≤ max_val) ∧ ¬ Stranded s := by
  obtain ⟨-, hbounds⟩ := value_bounds h0 hle hr
  refine ⟨hbounds, ?_⟩
  have hs := served_of_reach hr
  rintro ⟨hall, i, ⟨hi, hpos⟩ | ⟨hi, hroom⟩⟩
  · -- then another is on its way
    have hcount : 0 < count ReadyToWait s.status := by
      have hwait := hs.wait i hi
      omega
    obtain ⟨j, hj⟩ := Monitor.exists_of_count_pos hcount
    have hready : s.status j = .ready .wait := of_decide_eq_true hj
    rcases hall j with hfinished | ⟨c, hsleeps⟩
    · exact absurd (hready.symm.trans hfinished) (by simp)
    · exact absurd (hready.symm.trans hsleeps) (by simp)
  · have hpost := hs.post i hi
    omega

instance (s : SemmState I) (a : Action I SemmCall Unit) : Decidable (Watched s a) :=
  match a with
  | .run i _ _ => inferInstanceAs (Decidable (s.status i = .ready .wait → s.shared.value ≠ 0 →
      ∀ j, s.status j ≠ .asleep .post))
  | .call _ _ => .isTrue trivial
  | .quit _ => .isTrue trivial
  | .spurious _ => .isTrue trivial

/-- A wait sleeps, and a post wakes it up. -/
theorem semamore_live_some : ∃ s : SemmState (Fin 2), s.status 0 = .ready .wait ∧
    (0 ≤ s.shared.value ∧ s.shared.value ≤ 1) ∧ ¬ Stranded s := by
  have hrun : ((semm_lts (Fin 2) 0 1).run Watched (Monitor.start₀ (semm_init 0 1)) [.call 0 .wait,
      .run 0 none (), .call 1 .post, .run 1 (some 0) ()]).any
      (fun s => decide (s.status 0 = .ready .wait)) = true := by
    decide +kernel
  obtain ⟨s, hs, hdone⟩ := (Option.any_eq_true _ _).mp hrun
  exact ⟨s, of_decide_eq_true hdone,
    semamore_live (by decide) (by decide) (.of_run (.init rfl) hs)⟩

/-- A post sleeps at the maximum, and the wait that makes room tells nobody. -/
theorem not_semamore_live : ∃ s : SemmState (Fin 2),
    (semm_lts (Fin 2) 1 1).Reach (fun _ _ => True) s ∧ s.status 0 = .asleep .post ∧
      s.status 1 = .finished ∧ s.shared.value = 0 ∧ Stranded s := by
  have hrun : ((semm_lts (Fin 2) 1 1).run (fun _ _ => True) (Monitor.start₀ (semm_init 1 1)) [
      .call 0 .post, .run 0 none (), .call 1 .wait, .run 1 none (), .quit 1]).any
      (fun s => decide (s.status 0 = .asleep .post ∧ s.status 1 = .finished ∧ s.shared.value = 0 ∧
        0 < s.shared.max_val)) = true := by
    decide +kernel
  obtain ⟨s, hs, hdone⟩ := (Option.any_eq_true _ _).mp hrun
  obtain ⟨h0, h1, hvalue, hmax⟩ := of_decide_eq_true hdone
  refine ⟨s, .of_run (.init rfl) hs, h0, h1, hvalue, ?_, 0, .inr ⟨h0, by omega⟩⟩
  intro i
  match i with
  | 0 => exact .inr ⟨_, h0⟩
  | 1 => exact .inl h1

end SystemProgramming.CriticalConcurrency
