import SystemProgramming.Lib.Monitor

namespace SystemProgramming.CriticalConcurrency

open SystemProgramming.Lib
open Monitor (Wakes Ending Status Action count)

/-!
# `critical_concurrency/barrier.c` — a reusable barrier

One counter serves two phases of a round: it falls from `n` to zero while the threads arrive,
and then from `2 * n - 1` to `n` while all but the last of them leave.  Who comes early for the
next round waits until they have left.

* `barrier_arrive`, `barrier_drain` — the sections of `barrier_wait`, up to and from its second
  wait.
* `Rounds` — the invariant: how many threads are between the two phases, and in which round each
  thread is.
* `barrier_reusable` — nobody returns from a round that not all have entered; the last to leave
  sets the count back; and no state is stuck.

The structure is declared in `barrier.h`, which is not in the repository; the numbers of the
model are unbounded.
-/

/-- `barrier_t`, without its mutex and its condition variable. -/
structure barrier_t where
  n_threads : ℕ
  count : ℕ
  times_used : ℕ

/-- `barrier_init` -/
def barrier_init (num_threads : ℕ) : barrier_t := ⟨num_threads, num_threads, 0⟩

/-- Where a thread goes on in `barrier_wait`. -/
inductive BarrierPlace
  /-- at the first loop -/
  | arrive
  /-- at the second loop -/
  | drain
  /-- behind the unlock, before the broadcast -/
  | announce
  /-- before the return -/
  | leave
  deriving DecidableEq

/-- `barrier_wait`, from its second loop on. -/
def barrier_drain (b : barrier_t) : barrier_t × Wakes × Ending BarrierPlace ℕ :=
  if b.count < b.n_threads then (b, .nobody, .wait .drain)
  else ({ b with count := b.count - 1 }, .nobody, .next .announce)

/-- `barrier_wait`, from its first loop on. -/
def barrier_arrive (b : barrier_t) : barrier_t × Wakes × Ending BarrierPlace ℕ :=
  if b.n_threads < b.count then (b, .nobody, .wait .arrive)
  else
    let b := { b with count := b.count - 1 }
    if b.count = 0 then
      ({ b with count := 2 * b.n_threads - 1, times_used := b.times_used + 1 }, .nobody,
        .next .announce)
    else barrier_drain b

/-- The barrier as a monitor. -/
def barrier_monitor : Monitor barrier_t Unit BarrierPlace Unit ℕ where
  start _ := .arrive
  body _
    | .arrive => fun b => some (barrier_arrive b)
    | .drain => fun b => some (barrier_drain b)
    -- neither needs the mutex
    | .announce => fun b => some (b, .all, .next .leave)
    | .leave => fun b => some (b, .nobody, .done b.times_used)

/-- How a section goes. -/
inductive BarrierSection (b : barrier_t) :
    BarrierPlace → barrier_t → Wakes → Ending BarrierPlace ℕ → Prop
  | early (h : b.n_threads < b.count) : BarrierSection b .arrive b .nobody (.wait .arrive)
  | join (hle : b.count ≤ b.n_threads) (hlast : b.count ≠ 1) :
      BarrierSection b .arrive { b with count := b.count - 1 } .nobody (.wait .drain)
  | last (hle : b.count ≤ b.n_threads) (hlast : b.count = 1) :
      BarrierSection b .arrive
        { b with count := 2 * b.n_threads - 1, times_used := b.times_used + 1 } .nobody
        (.next .announce)
  | shut (h : b.count < b.n_threads) : BarrierSection b .drain b .nobody (.wait .drain)
  | out (h : b.n_threads ≤ b.count) :
      BarrierSection b .drain { b with count := b.count - 1 } .nobody (.next .announce)
  | announce : BarrierSection b .announce b .all (.next .leave)
  | leave : BarrierSection b .leave b .nobody (.done b.times_used)

theorem barrier_section {b b' : barrier_t} {c : BarrierPlace} {w : Wakes}
    {e : Ending BarrierPlace ℕ} (hpos : 0 < b.count)
    (h : barrier_monitor.body () c b = some (b', w, e)) : BarrierSection b c b' w e := by
  cases c with
  | arrive =>
    have hb : barrier_arrive b = (b', w, e) := Option.some.inj h
    unfold barrier_arrive at hb
    split at hb
    · rename_i hearly
      obtain ⟨rfl, rfl, rfl⟩ := by simpa using hb
      exact .early hearly
    · rename_i hle
      dsimp only at hb
      split at hb
      · rename_i hzero
        obtain ⟨rfl, rfl, rfl⟩ := by simpa using hb
        exact .last (by omega) (by omega)
      · rename_i hne
        unfold barrier_drain at hb
        rw [if_pos (by dsimp only; omega)] at hb
        obtain ⟨rfl, rfl, rfl⟩ := by simpa using hb
        exact .join (by omega) (by omega)
  | drain =>
    have hb : barrier_drain b = (b', w, e) := Option.some.inj h
    unfold barrier_drain at hb
    split at hb
    · rename_i hshut
      obtain ⟨rfl, rfl, rfl⟩ := by simpa using hb
      exact .shut hshut
    · rename_i hout
      obtain ⟨rfl, rfl, rfl⟩ := by simpa using hb
      exact .out (by omega)
  | announce =>
    obtain ⟨rfl, rfl, rfl⟩ : b = b' ∧ Wakes.all = w ∧ .next .leave = e := by
      simpa [barrier_monitor] using h
    exact .announce
  | leave =>
    obtain ⟨rfl, rfl, rfl⟩ : b = b' ∧ Wakes.nobody = w ∧ .done b.times_used = e := by
      simpa [barrier_monitor] using h
    exact .leave

/-! ### The invariant -/

variable {I : Type} [DecidableEq I] [Fintype I]

variable (I) in
/-- As many threads as the barrier is for. -/
abbrev barrier_lts := barrier_monitor.lts I (barrier_init (Fintype.card I))

variable (I) in
/-- The threads and their barrier. -/
abbrev BarrierState := Monitor.State I barrier_t BarrierPlace ℕ

variable {s s' : BarrierState I} {ok : BarrierState I → Action I Unit Unit → Prop} {i j : I}

/-- Arrived, and not yet off. -/
def InDrain : Status BarrierPlace → Bool
  | .ready .drain => true
  | .asleep .drain => true
  | _ => false

/-- How many calls more than the barrier was used a thread has begun. -/
def lead (b : barrier_t) : Status BarrierPlace → ℕ
  | .ready .arrive => 1
  | .asleep .arrive => 1
  | .ready .drain => if b.count < b.n_threads then 1 else 0
  | .asleep .drain => if b.count < b.n_threads then 1 else 0
  | _ => 0

theorem lead_congr {b b' : barrier_t} {x : Status BarrierPlace}
    (h : InDrain x = true → (b'.count < b'.n_threads ↔ b.count < b.n_threads)) :
    lead b' x = lead b x := by
  unfold lead
  split
  · rfl
  · rfl
  · simp only [h rfl]
  · simp only [h rfl]
  · rfl

theorem lead_drain {b : barrier_t} {x : Status BarrierPlace} (h : InDrain x = true) :
    lead b x = if b.count < b.n_threads then 1 else 0 := by
  unfold InDrain at h
  split at h
  · rfl
  · rfl
  · exact absurd h (by simp)

/-- Someone is about to broadcast. -/
def Told (s : BarrierState I) : Prop := ∃ j, s.status j = .ready .announce

/-- The invariant. -/
structure Rounds (s : BarrierState I) : Prop where
  size : s.shared.n_threads = Fintype.card I
  pos : 0 < s.shared.count
  /-- the counter tells how many have arrived and are not off -/
  arriving : s.shared.count ≤ s.shared.n_threads →
    count InDrain s.status + s.shared.count = s.shared.n_threads
  leaving : s.shared.n_threads < s.shared.count →
    count InDrain s.status + s.shared.n_threads = s.shared.count
  called : ∀ i, s.called i = s.shared.times_used + lead s.shared (s.status i)
  /-- who sleeps does so for a reason, or will be told -/
  asleep : ∀ i c, s.status i = .asleep c →
    c = .arrive ∧ (s.shared.n_threads < s.shared.count ∨ Told s) ∨
    c = .drain ∧ (s.shared.count < s.shared.n_threads ∨ Told s)

omit [DecidableEq I] in
theorem rounds_start [Nonempty I] : Rounds (Monitor.start₀ (barrier_init (Fintype.card I)) :
    BarrierState I) := by
  refine ⟨rfl, Fintype.card_pos, fun _ => ?_, fun hlt => ?_, fun i => rfl, ?_⟩
  · have hnone : count InDrain (fun _ : I => (Status.outside : Status BarrierPlace)) = 0 := by
      simp [count, InDrain]
    show count InDrain (fun _ : I => (Status.outside : Status BarrierPlace)) + _ = _
    rw [hnone, Nat.zero_add]
    rfl
  · exact absurd hlt (Nat.lt_irrefl _)
  · exact fun i c hi => absurd hi (by simp [Monitor.start₀])

omit [DecidableEq I] in
/-- Threads that move while the barrier stays as it is. -/
theorem Rounds.move {status : I → Status BarrierPlace} {called : I → ℕ}
    {log : List (BarrierPlace × ℕ)} (hs : Rounds s)
    (hdrain : ∀ j, InDrain (status j) = InDrain (s.status j))
    (hcalled : ∀ j, called j = s.shared.times_used + lead s.shared (status j))
    (hasleep : ∀ j c, status j = .asleep c → s.status j = .asleep c ∧
        (∀ k, s.status k = .ready .announce → status k = .ready .announce) ∨
      c = .arrive ∧ s.shared.n_threads < s.shared.count ∨
      c = .drain ∧ s.shared.count < s.shared.n_threads) :
    Rounds ⟨s.shared, status, called, log⟩ := by
  have hcount : count InDrain status = count InDrain s.status := Monitor.count_congr hdrain
  refine ⟨hs.size, hs.pos, ?_, ?_, hcalled, ?_⟩
  · intro hle
    exact hcount ▸ hs.arriving hle
  · intro hlt
    exact hcount ▸ hs.leaving hlt
  · intro j c hj
    rcases hasleep j c hj with ⟨hold, hkeep⟩ | ⟨rfl, hlt⟩ | ⟨rfl, hlt⟩
    · have htold : Told s → Told ⟨s.shared, status, called, log⟩ :=
        fun ⟨k, hk⟩ => ⟨k, hkeep k hk⟩
      rcases hs.asleep j c hold with ⟨rfl, hwhy⟩ | ⟨rfl, hwhy⟩
      · exact .inl ⟨rfl, hwhy.imp_right htold⟩
      · exact .inr ⟨rfl, hwhy.imp_right htold⟩
    · exact .inl ⟨rfl, .inl hlt⟩
    · exact .inr ⟨rfl, .inl hlt⟩

/-- One thread moves, to a place of the same phase, while the barrier stays as it is. -/
theorem Rounds.one {x : Status BarrierPlace} {called : I → ℕ} {log : List (BarrierPlace × ℕ)}
    (hs : Rounds s) (hdrain : InDrain x = InDrain (s.status i))
    (hother : ∀ j, j ≠ i → called j = s.called j)
    (hcalled : called i = s.shared.times_used + lead s.shared x)
    (hannounce : s.status i ≠ .ready .announce)
    (hasleep : ∀ c, x = .asleep c → c = .arrive ∧ s.shared.n_threads < s.shared.count ∨
      c = .drain ∧ s.shared.count < s.shared.n_threads) :
    Rounds ⟨s.shared, Function.update s.status i x, called, log⟩ := by
  apply hs.move
  · apply (Function.forall_update_iff _ fun j y => InDrain y = InDrain (s.status j)).mpr
    exact ⟨hdrain, fun _ _ => rfl⟩
  · apply (Function.forall_update_iff _ fun j y =>
      called j = s.shared.times_used + lead s.shared y).mpr
    exact ⟨hcalled, fun j hj => (hother j hj).trans (hs.called j)⟩
  · intro j c hj
    by_cases heq : j = i
    · rw [heq, Function.update_self] at hj
      exact .inr (hasleep c hj)
    · -- who is about to broadcast still is
      rw [Function.update_of_ne heq] at hj
      refine .inl ⟨hj, fun k hk => ?_⟩
      have hki : k ≠ i := by
        rintro rfl
        exact hannounce hk
      rw [Function.update_of_ne hki, hk]

/-- A thread arrives, and is not the last. -/
theorem Rounds.join {log : List (BarrierPlace × ℕ)} (hs : Rounds s)
    (hi : s.status i = .ready .arrive) (hle : s.shared.count ≤ s.shared.n_threads)
    (hlast : s.shared.count ≠ 1) :
    Rounds ⟨{ s.shared with count := s.shared.count - 1 },
      Function.update s.status i (.asleep .drain), s.called, log⟩ := by
  have hpos := hs.pos
  have harriving := hs.arriving hle
  have hmove := Monitor.count_update InDrain s.status i (.asleep .drain)
  rw [if_neg (by rw [hi]; decide), if_pos (by decide)] at hmove
  refine ⟨hs.size, ?_, ?_, ?_, ?_, ?_⟩
  · dsimp only
    omega
  · intro _
    dsimp only
    omega
  · intro hlt
    dsimp only at hlt
    omega
  · intro j
    rw [hs.called j]
    dsimp only
    by_cases heq : j = i
    · rw [heq, Function.update_self, hi, lead_drain (x := .asleep .drain) rfl,
        if_pos (by dsimp only; omega)]
      rfl
    · rw [Function.update_of_ne heq]
      -- the first one to arrive finds nobody between the phases
      apply congrArg
      apply (lead_congr _).symm
      intro hj
      have hcount := Monitor.count_pos hj
      dsimp only
      omega
  · intro j c hj
    dsimp only at hj
    by_cases heq : j = i
    · rw [heq, Function.update_self] at hj
      obtain rfl := Status.asleep.inj hj
      refine .inr ⟨rfl, .inl ?_⟩
      dsimp only
      omega
    · rw [Function.update_of_ne heq] at hj
      have htold : Told s → Told ⟨{ s.shared with count := s.shared.count - 1 },
          Function.update s.status i (.asleep .drain), s.called, log⟩ := by
        rintro ⟨k, hk⟩
        have hki : k ≠ i := by
          rintro rfl
          exact absurd (hi.symm.trans hk) (by simp)
        exact ⟨k, (Function.update_of_ne hki ..).trans hk⟩
      rcases hs.asleep j c hj with ⟨rfl, hlt | hwhy⟩ | ⟨rfl, hlt | hwhy⟩
      · exact absurd hlt (by omega)
      · exact .inl ⟨rfl, .inr (htold hwhy)⟩
      · refine .inr ⟨rfl, .inl ?_⟩
        dsimp only
        omega
      · exact .inr ⟨rfl, .inr (htold hwhy)⟩

/-- A thread is off, and about to tell the others: the last to arrive, or one that leaves. -/
theorem Rounds.off {b : barrier_t} {log : List (BarrierPlace × ℕ)} (hs : Rounds s)
    (hsize : b.n_threads = s.shared.n_threads) (hle : s.shared.n_threads ≤ b.count)
    (hpos : 0 < b.count)
    (hcount : count InDrain (Function.update s.status i (.ready .announce)) + s.shared.n_threads =
      b.count)
    (hi : s.called i = b.times_used)
    (hothers : ∀ j, j ≠ i → s.called j = b.times_used + lead b (s.status j)) :
    Rounds ⟨b, Function.update s.status i (.ready .announce), s.called, log⟩ := by
  refine ⟨hsize.trans hs.size, hpos, ?_, ?_, ?_, ?_⟩
  · intro hle'
    dsimp only at hle' ⊢
    omega
  · intro _
    dsimp only
    omega
  · apply (Function.forall_update_iff _ fun j y => s.called j = b.times_used + lead b y).mpr
    exact ⟨hi, hothers⟩
  · -- all who sleep will be told
    intro j c hj
    have htold : Told ⟨b, Function.update s.status i (.ready .announce), s.called, log⟩ :=
      ⟨i, Function.update_self ..⟩
    have hold := Monitor.asleep_of_update (by simp) hj
    rcases hs.asleep j c hold.2 with ⟨rfl, -⟩ | ⟨rfl, -⟩
    · exact .inl ⟨rfl, .inr htold⟩
    · exact .inr ⟨rfl, .inr htold⟩

omit [DecidableEq I] in
/-- Who leaves is not yet counted off. -/
theorem Rounds.out_lt (hs : Rounds s) (hi : s.status i = .ready .drain)
    (hle : s.shared.n_threads ≤ s.shared.count) : s.shared.n_threads < s.shared.count := by
  have hcount : 0 < count InDrain s.status := Monitor.count_pos (i := i) (by rw [hi]; rfl)
  by_contra hnot
  have harriving := hs.arriving (by omega)
  omega

/-- The last one arrives. -/
theorem Rounds.last {log : List (BarrierPlace × ℕ)} (hs : Rounds s)
    (hi : s.status i = .ready .arrive) (hle : s.shared.count ≤ s.shared.n_threads)
    (hlast : s.shared.count = 1) :
    Rounds ⟨{ s.shared with
        count := 2 * s.shared.n_threads - 1
        times_used := s.shared.times_used + 1 },
      Function.update s.status i (.ready .announce), s.called, log⟩ := by
  have hcalled := hs.called i
  rw [hi] at hcalled
  have harriving := hs.arriving hle
  have hmove := Monitor.count_update InDrain s.status i (.ready .announce)
  rw [if_neg (by rw [hi]; decide), if_neg (by decide)] at hmove
  apply hs.off
  · rfl
  · dsimp only
    omega
  · dsimp only
    omega
  · dsimp only
    omega
  · exact hcalled
  · -- all the others have arrived, and the round that was ahead of them is the present one
    intro j hj
    have hdrain : InDrain (s.status j) = true := by
      apply Monitor.others_of_count _ _ hj
      · rw [← hs.size, ← harriving, hlast]
      · rw [hi]
        rfl
    rw [hs.called j, lead_drain hdrain, lead_drain hdrain]
    have hcount := Monitor.count_pos hdrain
    rw [if_pos (by omega), if_neg (by dsimp only; omega)]

/-- A thread goes on, once all have arrived. -/
theorem Rounds.out {log : List (BarrierPlace × ℕ)} (hs : Rounds s)
    (hi : s.status i = .ready .drain) (hle : s.shared.n_threads ≤ s.shared.count) :
    Rounds ⟨{ s.shared with count := s.shared.count - 1 },
      Function.update s.status i (.ready .announce), s.called, log⟩ := by
  have hcalled := hs.called i
  rw [hi] at hcalled
  have hlt := hs.out_lt hi hle
  have hleaving := hs.leaving hlt
  have hmove := Monitor.count_update InDrain s.status i (.ready .announce)
  rw [if_pos (by rw [hi]; decide), if_neg (by decide)] at hmove
  have hsize := hs.size
  have hpos : 0 < Fintype.card I := Fintype.card_pos_iff.mpr ⟨i⟩
  apply hs.off
  · rfl
  · dsimp only
    omega
  · dsimp only
    omega
  · dsimp only
    omega
  · rw [hcalled, lead_drain (x := .ready .drain) rfl, if_neg (by omega)]
    rfl
  · -- the count stays at or above the threads, and so nobody's round is ahead
    intro j _
    rw [hs.called j]
    apply congrArg
    apply (lead_congr _).symm
    intro _
    dsimp only
    omega

/-- A thread tells all the others. -/
theorem Rounds.told {log : List (BarrierPlace × ℕ)} (hs : Rounds s)
    (hi : s.status i = .ready .announce) :
    Rounds ⟨s.shared, Function.update (fun j => (s.status j).woken) i (.ready .leave), s.called,
      log⟩ := by
  have hcalled := hs.called i
  rw [hi] at hcalled
  have hwoken : ∀ j, InDrain (s.status j).woken = InDrain (s.status j) ∧
      lead s.shared (s.status j).woken = lead s.shared (s.status j) := by
    intro j
    cases s.status j with
    | asleep c => cases c <;> exact ⟨rfl, rfl⟩
    | _ => exact ⟨rfl, rfl⟩
  apply hs.move
  · apply (Function.forall_update_iff _ fun j y => InDrain y = InDrain (s.status j)).mpr
    refine ⟨?_, fun j _ => (hwoken j).1⟩
    rw [hi]
    rfl
  · apply (Function.forall_update_iff _ fun j y =>
      s.called j = s.shared.times_used + lead s.shared y).mpr
    refine ⟨hcalled, fun j _ => ?_⟩
    rw [(hwoken j).2]
    exact hs.called j
  · intro j c hj
    have hall : Monitor.wake .all none s.status = some (fun k => (s.status k).woken) := rfl
    exact absurd (Monitor.asleep_of_update (by simp) hj).2 (Monitor.wake_all hall j c)

/-- **A section keeps the invariant.** -/
theorem Rounds.run {target : Option I} {c : BarrierPlace} {b : barrier_t} {w : Wakes}
    {e : Ending BarrierPlace ℕ} {status : I → Status BarrierPlace} {log : List (BarrierPlace × ℕ)}
    (hs : Rounds s) (hi : s.status i = .ready c) (hsection : BarrierSection s.shared c b w e)
    (hwake : Monitor.wake w target s.status = some status) :
    Rounds ⟨b, Function.update status i e.status, s.called, log⟩ := by
  have hcalled := hs.called i
  rw [hi] at hcalled
  cases hsection with
  | early hlt =>
    obtain rfl := Option.some.inj hwake
    apply hs.one
    · rw [hi]
      rfl
    · exact fun _ _ => rfl
    · exact hcalled
    · simp [hi]
    · intro c hc
      obtain rfl := Status.asleep.inj hc
      -- the thread sleeps until the round before is left
      exact .inl ⟨rfl, hlt⟩
  | join hle hlast =>
    obtain rfl := Option.some.inj hwake
    exact hs.join hi hle hlast
  | last hle hlast =>
    obtain rfl := Option.some.inj hwake
    exact hs.last hi hle hlast
  | shut hlt =>
    obtain rfl := Option.some.inj hwake
    apply hs.one
    · rw [hi]
      rfl
    · exact fun _ _ => rfl
    · exact hcalled
    · simp [hi]
    · intro c hc
      obtain rfl := Status.asleep.inj hc
      -- the thread sleeps until the round is full
      exact .inr ⟨rfl, hlt⟩
  | out hle =>
    obtain rfl := Option.some.inj hwake
    exact hs.out hi hle
  | announce =>
    obtain rfl := Option.some.inj hwake
    exact hs.told hi
  | leave =>
    obtain rfl := Option.some.inj hwake
    apply hs.one
    · rw [hi]
      rfl
    · exact fun _ _ => rfl
    · exact hcalled
    · simp [hi]
    · simp [Ending.status]

/-- **A step keeps the invariant.** -/
theorem Rounds.step {a : Action I Unit Unit} (hs : Rounds s)
    (hstep : barrier_monitor.step s a = some s') : Rounds s' := by
  cases Monitor.steps_of_step hstep with
  | call i k hi =>
    apply hs.one
    · rw [hi]
      rfl
    · exact fun j hj => Function.update_of_ne hj ..
    · rw [Function.update_self, hs.called i, hi]
      rfl
    · simp [hi]
    · simp
  | quit i hi =>
    apply hs.one
    · rw [hi]
      rfl
    · exact fun _ _ => rfl
    · rw [hs.called i, hi]
      rfl
    · simp [hi]
    · simp
  | spurious i c hi =>
    apply hs.one
    · rw [hi]
      -- a thread that is woken for nothing is where it slept
      cases c <;> rfl
    · exact fun _ _ => rfl
    · rw [hs.called i, hi]
      cases c <;> rfl
    · simp [hi]
    · simp
  | run i target x c b w e status hi hbody hwake =>
    exact hs.run hi (barrier_section hs.pos hbody) hwake

theorem rounds_of_reach [Nonempty I] (hr : (barrier_lts I).Reach ok s) : Rounds s := by
  apply hr.invariant
  · rintro s rfl
    exact rounds_start
  · exact fun _ _ _ hs _ hstep => hs.step hstep

/-! ### Rounds -/

/-- How many calls of `barrier_wait` a thread has returned from. -/
def returned (s : BarrierState I) (i : I) : ℕ :=
  match s.status i with
  | .outside => s.called i
  | .finished => s.called i
  | _ => s.called i - 1

/-- How many rounds a thread has left that has begun `n` calls: it has given up the mutex for the
    last time. -/
def leftBy (n : ℕ) : Status BarrierPlace → ℕ
  | .ready .announce => n
  | .ready .leave => n
  | .outside => n
  | .finished => n
  | _ => n - 1

def left (s : BarrierState I) (i : I) : ℕ := leftBy (s.called i) (s.status i)

omit [DecidableEq I] in
theorem Rounds.returned_le (hs : Rounds s) (i : I) : returned s i ≤ s.shared.times_used := by
  have hcalled := hs.called i
  unfold returned
  split
  · rename_i hi
    rw [hcalled, hi]
    exact Nat.le_refl _
  · rename_i hi
    rw [hcalled, hi]
    exact Nat.le_refl _
  · rw [hcalled]
    have hlead : lead s.shared (s.status i) ≤ 1 := by
      unfold lead
      split <;> (try split) <;> omega
    omega

omit [DecidableEq I] in
theorem Rounds.times_used_le (hs : Rounds s) (j : I) : s.shared.times_used ≤ s.called j := by
  rw [hs.called j]
  exact Nat.le_add_right _ _

omit [DecidableEq I] in
/-- Who is woken up is still inside. -/
theorem Rounds.leftBy_woken {c : BarrierPlace} (hs : Rounds s) (hi : s.status i = .asleep c)
    (n : ℕ) : leftBy n (.ready c) = leftBy n (.asleep c) := by
  rcases hs.asleep i c hi with ⟨rfl, -⟩ | ⟨rfl, -⟩
  · rfl
  · rfl

/-- A thread leaves a round in a step of its own. -/
theorem Rounds.own_of_left {a : Action I Unit Unit} (hs : Rounds s)
    (hstep : barrier_monitor.step s a = some s') (hlt : left s i < left s' i) : i = a.thread := by
  by_contra hother
  obtain ⟨hcalled, hstatus⟩ := Monitor.others_of_step hstep hother
  unfold left at hlt
  rw [hcalled] at hlt
  rcases hstatus with hsame | ⟨c, hasleep, hready⟩
  · rw [hsame] at hlt
    exact Nat.lt_irrefl _ hlt
  · rw [hasleep, hready, hs.leftBy_woken hasleep] at hlt
    exact Nat.lt_irrefl _ hlt

/-- What a section does in which a thread leaves a round. -/
theorem Rounds.leaves {a : Action I Unit Unit} (hs : Rounds s)
    (hstep : barrier_monitor.step s a = some s') (hlt : left s i < left s' i) :
    s'.status i = .ready .announce ∧ left s' i ≤ left s i + 1 ∧
      s'.shared.n_threads ≤ s'.shared.count := by
  have hown := hs.own_of_left hstep hlt
  unfold left at hlt ⊢
  cases Monitor.steps_of_step hstep with
  | call j k hi =>
    obtain rfl : i = j := hown
    dsimp only at hlt
    rw [Function.update_self, Function.update_self, hi] at hlt
    exact absurd hlt (Nat.lt_irrefl _)
  | quit j hi =>
    obtain rfl : i = j := hown
    dsimp only at hlt
    rw [Function.update_self, hi] at hlt
    exact absurd hlt (Nat.lt_irrefl _)
  | spurious j c hi =>
    obtain rfl : i = j := hown
    dsimp only at hlt
    rw [Function.update_self, hi, hs.leftBy_woken hi] at hlt
    exact absurd hlt (Nat.lt_irrefl _)
  | run j target x c b w e status hi hbody hwake =>
    obtain rfl : i = j := hown
    dsimp only at hlt ⊢
    rw [Function.update_self, hi] at hlt ⊢
    -- two sections leave a round, and the others do not count it
    cases barrier_section hs.pos hbody with
    | last hle hlast =>
      refine ⟨rfl, ?_, ?_⟩
      all_goals
        dsimp only [leftBy, Ending.status]
        omega
    | out hle =>
      have hout := hs.out_lt hi hle
      refine ⟨rfl, ?_, ?_⟩
      all_goals
        dsimp only [leftBy, Ending.status]
        omega
    | _ => exact absurd hlt (Nat.lt_irrefl _)

/-- **The last to leave** a round sets the count back. -/
theorem Rounds.count_back {a : Action I Unit Unit} {k : ℕ} (hs : Rounds s)
    (hstep : barrier_monitor.step s a = some s') (hbefore : left s i < k)
    (hafter : ∀ j, k ≤ left s' j) : s'.shared.count = Fintype.card I := by
  have hs' : Rounds s' := hs.step hstep
  obtain ⟨hi, hle, hcount⟩ := hs.leaves hstep (Nat.lt_of_lt_of_le hbefore (hafter i))
  have hround : left s' i = s'.shared.times_used := by
    unfold left
    rw [hs'.called i, hi]
    rfl
  rw [← hs'.size]
  by_contra hne
  -- else another one is about to leave it
  have hleaving := hs'.leaving (by omega)
  obtain ⟨j, hj⟩ := Monitor.exists_of_count_pos (show 0 < count InDrain s'.status by omega)
  have hlast : left s' j = s'.shared.times_used - 1 := by
    have hcalled := hs'.called j
    rw [lead_drain hj, if_neg (by omega)] at hcalled
    unfold left
    rw [hcalled]
    unfold InDrain at hj
    split at hj
    · rename_i hdrain
      rw [hdrain]
      rfl
    · rename_i hdrain
      rw [hdrain]
      rfl
    · exact absurd hj (by simp)
  have hround' := hafter i
  have hlast' := hafter j
  omega

/-! ### Progress -/

/-- Every thread makes `K` calls, and then stops. -/
def Makes (K : ℕ) (s : BarrierState I) : Action I Unit Unit → Prop
  | .call i _ => s.called i < K
  | .quit i => s.called i = K
  | _ => True

/-- Some thread has calls to make, or is inside one. -/
def Unfinished (K : ℕ) (s : BarrierState I) : Prop :=
  ∃ i, s.called i < K ∨ ∃ c, s.status i = .ready c ∨ s.status i = .asleep c

/-- Some thread can go on: it begins a call, or it has all that it needs for its section. -/
def GoesOn (K : ℕ) (s : BarrierState I) : Prop :=
  (∃ i, s.status i = .outside ∧ s.called i < K) ∨
    ∃ i c s', s.status i = .ready c ∧ barrier_monitor.step s (.run i none ()) = some s'

/-- A thread that wants the mutex can go on. -/
theorem ready_runs {c : BarrierPlace} (hi : s.status i = .ready c) :
    ∃ s', barrier_monitor.step s (.run i none ()) = some s' := by
  have hdrain : ∀ b, (barrier_drain b).2.1 ≠ .one := by
    intro b
    unfold barrier_drain
    split <;> simp
  have harrive : ∀ b, (barrier_arrive b).2.1 ≠ .one := by
    intro b
    unfold barrier_arrive
    split
    · simp
    · dsimp only
      split
      · simp
      · exact hdrain _
  cases c with
  | arrive => exact Monitor.run_returns (x := ()) hi rfl (harrive _)
  | drain => exact Monitor.run_returns (x := ()) hi rfl (hdrain _)
  | announce => exact Monitor.run_returns (x := ()) hi rfl (by simp)
  | leave => exact Monitor.run_returns (x := ()) hi rfl (by simp)

/-- Who has stopped has made all calls, and nobody makes more. -/
theorem made_of_reach {K : ℕ} (hr : (barrier_lts I).Reach (Makes K) s) :
    ∀ i, s.called i ≤ K ∧ (s.status i = .finished → s.called i = K) := by
  apply hr.invariant (I := fun s => ∀ i, s.called i ≤ K ∧ (s.status i = .finished → s.called i = K))
  · rintro s rfl i
    exact ⟨Nat.zero_le K, fun hi => absurd hi (by simp [Monitor.start₀])⟩
  · intro s a s' hmade hok hstep j
    obtain ⟨hle, hstopped⟩ := hmade j
    by_cases hown : j = a.thread
    · cases Monitor.steps_of_step hstep with
      | call i k hi =>
        obtain rfl : j = i := hown
        dsimp only
        rw [Function.update_self, Function.update_self]
        exact ⟨hok, fun hfalse => absurd hfalse (by simp)⟩
      | quit i hi =>
        obtain rfl : j = i := hown
        exact ⟨hle, fun _ => hok⟩
      | spurious i c hi =>
        obtain rfl : j = i := hown
        dsimp only
        rw [Function.update_self]
        exact ⟨hle, fun hfalse => absurd hfalse (by simp)⟩
      | run i target x c b w e status hi hbody hwake =>
        obtain rfl : j = i := hown
        dsimp only
        rw [Function.update_self]
        exact ⟨hle, fun hfalse => absurd hfalse (by cases e <;> simp [Ending.status])⟩
    · -- the others do not stop
      obtain ⟨hcalled, hstatus⟩ := Monitor.others_of_step hstep hown
      rw [hcalled]
      rcases hstatus with hsame | ⟨c, -, hready⟩
      · rw [hsame]
        exact ⟨hle, hstopped⟩
      · rw [hready]
        exact ⟨hle, fun hfalse => absurd hfalse (by simp)⟩

/-- **No state is stuck.** -/
theorem goes_on [Nonempty I] {K : ℕ} (hr : (barrier_lts I).Reach (Makes K) s)
    (hunfinished : Unfinished K s) : GoesOn K s := by
  have hs : Rounds s := rounds_of_reach hr
  have hmade := made_of_reach hr
  by_contra hstuck
  obtain ⟨houtside, hready⟩ := not_or.mp hstuck
  -- nobody is on the way to the mutex
  have hready' : ∀ i c, s.status i ≠ .ready c := by
    intro i c hi
    obtain ⟨s', hs'⟩ := ready_runs hi
    exact hready ⟨i, c, s', hi, hs'⟩
  have htold : ¬ Told s := fun ⟨j, hj⟩ => hready' j _ hj
  have hdone : ∀ i, (∀ c, s.status i ≠ .asleep c) → s.called i = K ∧ s.shared.times_used = K := by
    intro i hi
    have hcalled := hs.called i
    cases hstatus : s.status i with
    | outside =>
      have hnot : ¬ s.called i < K := fun hlt => houtside ⟨i, hstatus, hlt⟩
      have hle := (hmade i).1
      rw [hstatus] at hcalled
      have heq : s.called i = s.shared.times_used := hcalled
      omega
    | finished =>
      have hK := (hmade i).2 hstatus
      rw [hstatus] at hcalled
      have heq : s.called i = s.shared.times_used := hcalled
      omega
    | ready c => exact absurd hstatus (hready' i c)
    | asleep c => exact absurd hstatus (hi c)
  have hsleeps : ∀ i c, s.status i = .asleep c →
      c = .arrive ∧ s.shared.n_threads < s.shared.count ∨
      c = .drain ∧ s.shared.count < s.shared.n_threads := by
    intro i c hi
    rcases hs.asleep i c hi with ⟨rfl, hwhy⟩ | ⟨rfl, hwhy⟩
    · exact .inl ⟨rfl, hwhy.resolve_right htold⟩
    · exact .inr ⟨rfl, hwhy.resolve_right htold⟩
  -- who is between the phases sleeps, for as long as the threads arrive
  have hbetween : ∀ i, InDrain (s.status i) = true → s.shared.count < s.shared.n_threads := by
    intro i hi
    cases hstatus : s.status i with
    | ready c => exact absurd hstatus (hready' i c)
    | asleep c =>
      rcases hsleeps i c hstatus with ⟨rfl, -⟩ | ⟨-, hlt⟩
      · rw [hstatus] at hi
        exact absurd hi (by decide)
      · exact hlt
    | _ =>
      rw [hstatus] at hi
      exact absurd hi (by decide)
  rcases Nat.lt_trichotomy s.shared.count s.shared.n_threads with hlt | heq | hlt
  · -- someone has not arrived, and he makes no more calls
    have harriving := hs.arriving (Nat.le_of_lt hlt)
    have hpos := hs.pos
    have hfew : count InDrain s.status < Fintype.card I := by
      rw [← hs.size]
      omega
    obtain ⟨i, hi⟩ := Monitor.exists_of_count_lt hfew
    obtain ⟨j, hj⟩ := Monitor.exists_of_count_pos (show 0 < count InDrain s.status by omega)
    have hnot : ∀ c, s.status i ≠ .asleep c := by
      intro c hc
      rcases hsleeps i c hc with ⟨-, hlt'⟩ | ⟨rfl, -⟩
      · omega
      · rw [hc] at hi
        exact absurd hi (by decide)
    have hused := (hdone i hnot).2
    have hcalled := hs.called j
    rw [lead_drain hj, if_pos hlt] at hcalled
    have hle := (hmade j).1
    omega
  · -- all are between two rounds
    have hall : ∀ i c, s.status i ≠ .asleep c := by
      intro i c hi
      rcases hsleeps i c hi with ⟨-, hlt⟩ | ⟨-, hlt⟩ <;> omega
    obtain ⟨i, hlt | ⟨c, hi | hi⟩⟩ := hunfinished
    · have hK := (hdone i (hall i)).1
      omega
    · exact hready' i c hi
    · exact hall i c hi
  · have hleaving := hs.leaving hlt
    obtain ⟨j, hj⟩ := Monitor.exists_of_count_pos (show 0 < count InDrain s.status by omega)
    have hbad := hbetween j hj
    omega

/-- **The barrier is reusable.**  In every state that its `n` threads reach: a thread that has
    returned from `k` calls finds all of them in their `k`-th call at least; the section in which
    the last of them leaves a round sets the count back to `n`; and if all make the same number
    of calls, some thread can go on until all have made them. -/
theorem barrier_reusable [Nonempty I] (hr : (barrier_lts I).Reach ok s) :
    (∀ i j, returned s i ≤ s.called j) ∧
    (∀ (a : Action I Unit Unit) (s' : BarrierState I) (i : I) (k : ℕ),
      barrier_monitor.step s a = some s' → left s i < k → (∀ j, k ≤ left s' j) →
        s'.shared.count = Fintype.card I) ∧
    ∀ K, (barrier_lts I).Reach (Makes K) s → Unfinished K s → GoesOn K s := by
  have hs : Rounds s := rounds_of_reach hr
  refine ⟨fun i j => ?_, ?_, fun K => goes_on⟩
  · exact Nat.le_trans (hs.returned_le i) (hs.times_used_le j)
  · exact fun a s' i k hstep hbefore hafter => hs.count_back hstep hbefore hafter

instance (K : ℕ) (s : BarrierState I) (a : Action I Unit Unit) : Decidable (Makes K s a) :=
  match a with
  | .call i _ => inferInstanceAs (Decidable (s.called i < K))
  | .quit i => inferInstanceAs (Decidable (s.called i = K))
  | .run _ _ _ => .isTrue trivial
  | .spurious _ => .isTrue trivial

/-- Two threads, and the second of them is back while the first has yet to leave. -/
theorem barrier_reusable_some : ∃ s s' : BarrierState (Fin 2),
    barrier_monitor.step s (.run 0 none ()) = some s' ∧ returned s 1 = 1 ∧ 1 ≤ s.called 0 ∧
      s.shared.count = 3 ∧ s'.shared.count = 2 ∧ GoesOn 1 s := by
  have hrun : ((barrier_lts (Fin 2)).run (Makes 1) (Monitor.start₀ (barrier_init 2)) [.call 0 (),
      .run 0 none (), .call 1 (), .run 1 none (), .run 1 none (), .run 1 none ()]).any
      (fun s => decide (returned s 1 = 1 ∧ s.shared.count = 3 ∧ left s 0 < 1 ∧
        s.status 0 = .ready .drain ∧ (barrier_monitor.step s (.run 0 none ())).any
          (fun s' => decide (∀ j, 1 ≤ left s' j)))) = true := by
    decide +kernel
  obtain ⟨s, hs, hdone⟩ := (Option.any_eq_true _ _).mp hrun
  obtain ⟨hreturned, hcount, hleft, hready, hnext⟩ := of_decide_eq_true hdone
  obtain ⟨s', hs', hafter⟩ := (Option.any_eq_true _ _).mp hnext
  have hr : (barrier_lts (Fin 2)).Reach (Makes 1) s := .of_run (.init rfl) hs
  obtain ⟨hsafe, hback, hlive⟩ := barrier_reusable hr
  refine ⟨s, s', hs', hreturned, ?_, hcount, ?_, ?_⟩
  · have hsafe' := hsafe 1 0
    omega
  · exact hback _ s' 0 1 hs' hleft (of_decide_eq_true hafter)
  · exact hlive 1 hr ⟨0, .inr ⟨_, .inl hready⟩⟩

end SystemProgramming.CriticalConcurrency
