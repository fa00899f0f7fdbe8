import SystemProgramming.PasswordCracker.Cracker2
import Mathlib.Data.List.FinRange

namespace SystemProgramming.PasswordCracker

open Lib
open SystemProgramming.Vector (int int_eq)

/-!
# The rounds of the password search

Each thread goes through its range of the search space, and in each round all of them meet at both
barriers.

* `candidate_iff`, `ranges_all` — the ranges of the threads are the search space.
* `Phase` — where the threads are, and what the search has come to.
* `Phase.worker`, `Phase.main` — each step keeps that, and the summaries are right.
-/

/-- A string of the search space with the hash. -/
def Hit (U : Utils) (t : Task) (c : Str) : Prop := Candidate U t c ∧ U.crypt_r c = t.value

/-- The `k`-th string of the search space. -/
def Utils.candidate (U : Utils) (t : Task) (k : ℕ) : Str :=
  t.pwd.take (U.getPrefixLength t.pwd) ++ combination (U.unknown t) k

/-- The job of a thread: it has hashed the first strings of its range. -/
structure Assigned {n : ℕ} (U : Utils) (t : Task) (i : Fin n) (j : job) : Prop where
  value : j.value = t.value
  pwd : j.pwd = t.pwd
  range : (j.start_index, j.count) = U.getSubrange (U.unknown t) n (i.val + 1)
  le : j.hash_count ≤ j.count
  hashed : j.hashed = (List.range j.hash_count).map fun k => U.candidate t (j.start_index + k)

/-- None of what was hashed is the password. -/
def Missed (U : Utils) (t : Task) (j : job) : Prop := ∀ c ∈ j.hashed, U.crypt_r c ≠ t.value

/-- The search of a thread is over. -/
def Done (U : Utils) (find : Bool) (t : Task) (j : job) : Prop :=
  find = true ∨ j.hash_count = j.count ∧ Missed U t j

/-- How far the search of a thread is. -/
def Searches (U : Utils) (find : Bool) (t : Task) (j : job) : Place → Prop
  | .passed .barrier1 => j.hash_count = 0
  | .head raw k => k = j.hash_count ∧ j.count < 2 ^ 31 ∧
    (k < j.count → raw = U.candidate t (j.start_index + k)) ∧ Missed U t j
  | .hash raw k => k = j.hash_count ∧ j.count < 2 ^ 31 ∧ k < j.count ∧
    raw = U.candidate t (j.start_index + k) ∧ Missed U t j
  | .found raw => Hit U t raw
  | .call .barrier2 => Done U find t j
  | .waiting .barrier2 => Done U find t j
  | _ => False

/-- On the way to the first barrier. -/
def Gathers : Place → Prop
  | .passed .barrier2 => True
  | .call .barrier1 => True
  | .waiting .barrier1 => True
  | _ => False

/-- **Where the threads are**, and what the search has come to. -/
inductive Phase {n : ℕ} (U : Utils) (all : List Task) (s : State n) : Prop
  /-- The main thread reads the next line. -/
  | between (hmain : s.place none = .read) (hworkers : ∀ i, Gathers (s.place (some i)))
    (hstop : s.stop = false) (htasks : s.reports.map Report.task ++ s.tasks = all)
  /-- The jobs are given out, and not all have come to the first barrier. -/
  | ready (hmain : s.place none = .reset ∨ s.place none = .call .barrier1 ∨
      s.place none = .waiting .barrier1) (hworkers : ∀ i, Gathers (s.place (some i)))
    (hstop : s.stop = false) (htasks : s.reports.map Report.task ++ s.task :: s.tasks = all)
    (hjobs : ∀ i, Assigned U s.task i (s.jobs i) ∧ (s.jobs i).hash_count = 0)
    (hfind : s.place none ≠ .reset → s.find = false) (hmissing : ∃ p, s.place p ≠ .waiting .barrier1)
  /-- The threads search, and not all have come to the second barrier. -/
  | search (hmain : s.place none = .passed .barrier1 ∨ s.place none = .call .barrier2 ∨
      s.place none = .waiting .barrier2)
    (hstop : s.stop = false) (htasks : s.reports.map Report.task ++ s.task :: s.tasks = all)
    (hjobs : ∀ i, Assigned U s.task i (s.jobs i))
    (hworkers : ∀ i, Searches U s.find s.task (s.jobs i) (s.place (some i)))
    (hfound : s.find = true → ∃ c, s.password = some c ∧ Hit U s.task c)
    (hmissing : ∃ p, s.place p ≠ .waiting .barrier2)
  /-- The search is over. -/
  | judged (hmain : s.place none = .passed .barrier2) (hworkers : ∀ i, Gathers (s.place (some i)))
    (hstop : s.stop = false) (htasks : s.reports.map Report.task ++ s.task :: s.tasks = all)
    (hjobs : ∀ i, Assigned U s.task i (s.jobs i))
    (hdone : ∀ i, Done U s.find s.task (s.jobs i))
    (hfound : s.find = true → ∃ c, s.password = some c ∧ Hit U s.task c)
  /-- There are no more lines, and not all have come to the first barrier. -/
  | stopping (hmain : s.place none = .call .barrier1 ∨ s.place none = .waiting .barrier1)
    (hworkers : ∀ i, Gathers (s.place (some i))) (hstop : s.stop = true)
    (htasks : s.reports.map Report.task = all) (hmissing : ∃ p, s.place p ≠ .waiting .barrier1)
  | ending (hmain : s.place none = .passed .barrier1 ∨ s.place none = .join ∨
      s.place none = .finished)
    (hworkers : ∀ i, s.place (some i) = .passed .barrier1 ∨ s.place (some i) = .finished)
    (hstop : s.stop = true) (htasks : s.reports.map Report.task = all)
    (hend : s.place none = .finished → ∀ i, s.place (some i) = .finished)

variable {U : Utils} {u k l m : ℕ} {c : Str} {t : Task}

/-! ### The search space -/

theorem letter_toNat {d : ℕ} (hd : d < 26) : (UInt8.ofNat (97 + d)).toNat = 97 + d := by
  rw [UInt8.toNat_ofNat']
  omega

@[simp] theorem length_combination (u k : ℕ) : (combination u k).length = u := by
  rw [combination, List.length_map, length_numeral]

/-- The digits of a combination. -/
theorem digits_combination (u k : ℕ) :
    (combination u k).map (fun x => x.toNat - 97) = numeral 26 u k := by
  rw [combination, List.map_map]
  refine (List.map_congr_left fun d hd => ?_).trans (List.map_id _)
  rw [Function.comp_apply, letter_toNat (lt_of_mem_numeral (by decide) hd), Nat.add_sub_cancel_left]
  rfl

theorem combination_inj (hk : k < 26 ^ u) (hl : l < 26 ^ u) (h : combination u k = combination u l) :
    k = l := by
  refine numeral_inj hk hl ?_
  rw [← digits_combination, ← digits_combination, h]

theorem mem_combination {x : UInt8} (hx : x ∈ combination u k) : 97 ≤ x ∧ x ≤ 122 := by
  obtain ⟨d, hd, rfl⟩ := List.mem_map.mp hx
  have hlt : d < 26 := lt_of_mem_numeral (by decide) hd
  rw [UInt8.le_iff_toNat_le, UInt8.le_iff_toNat_le, letter_toNat hlt]
  exact ⟨Nat.le_add_right _ _, Nat.add_le_add_left (Nat.le_of_lt_succ hlt) 97⟩

/-- Letters are a combination. -/
theorem exists_combination {s : Str} (h : ∀ x ∈ s, 97 ≤ x ∧ x ≤ 122) :
    ∃ k < 26 ^ s.length, combination s.length k = s := by
  have hdigits : ∀ d ∈ s.map (fun x => x.toNat - 97), d < 26 := by
    intro d hd
    obtain ⟨x, hx, rfl⟩ := List.mem_map.mp hd
    obtain ⟨-, hle⟩ := h x hx
    rw [UInt8.le_iff_toNat_le] at hle
    have hle' : x.toNat ≤ 122 := hle
    omega
  obtain ⟨k, hk, hnumeral⟩ := exists_numeral hdigits
  rw [List.length_map] at hk hnumeral
  refine ⟨k, hk, ?_⟩
  rw [combination, hnumeral, List.map_map]
  refine (List.map_congr_left fun x hx => ?_).trans (List.map_id _)
  obtain ⟨hle, -⟩ := h x hx
  rw [UInt8.le_iff_toNat_le] at hle
  have hle' : 97 ≤ x.toNat := hle
  rw [Function.comp_apply, Nat.add_sub_cancel' hle', UInt8.ofNat_toNat]
  rfl

theorem unknown_le (ht : t.pwd.length ≤ 8) : U.unknown t ≤ 8 := (Nat.sub_le _ _).trans ht

theorem candidate_iff : Candidate U t c ↔ ∃ k < 26 ^ U.unknown t, U.candidate t k = c := by
  constructor
  · rintro ⟨s, hlength, hletters, rfl⟩
    obtain ⟨k, hk, hs⟩ := exists_combination hletters
    rw [hlength] at hk hs
    exact ⟨k, hk, by rw [Utils.candidate, hs]⟩
  · rintro ⟨k, hk, rfl⟩
    exact ⟨_, length_combination _ k, fun x hx => mem_combination hx, rfl⟩

/-- The length of a candidate is that of the password. -/
theorem Candidate.length_eq (hU : Documented U) (h : Candidate U t c) : c.length = t.pwd.length := by
  obtain ⟨s, hs, -, rfl⟩ := h
  rw [List.length_append, List.length_take, Nat.min_eq_left (hU.getPrefixLength_le _), hs]
  exact Nat.add_sub_cancel' (hU.getPrefixLength_le _)

theorem setStringPosition_eq (hU : Documented U) (ht : t.pwd.length ≤ 8)
    (hk : k < 26 ^ U.unknown t) : t.pwd.take (U.getPrefixLength t.pwd) ++
      U.setStringPosition (t.pwd.drop (U.getPrefixLength t.pwd)) k = U.candidate t k := by
  have hlength : (t.pwd.drop (U.getPrefixLength t.pwd)).length = U.unknown t := List.length_drop
  rw [hU.position _ k (hlength.trans_le (unknown_le ht)) (hlength.symm ▸ hk), hlength]
  rfl

theorem incrementString_eq (hU : Documented U) (ht : t.pwd.length ≤ 8)
    (hk : k + 1 < 26 ^ U.unknown t) : U.incrementString (U.candidate t k) = U.candidate t (k + 1) := by
  refine hU.increment _ _ k ?_ hk
  rw [List.length_take, Nat.min_eq_left (hU.getPrefixLength_le _), Utils.unknown,
    Nat.add_sub_cancel' (hU.getPrefixLength_le _)]
  exact ht

theorem candidate_inj (hk : k < 26 ^ U.unknown t) (hl : l < 26 ^ U.unknown t)
    (h : U.candidate t k = U.candidate t l) : k = l :=
  combination_inj hk hl (List.append_cancel_left h)

/-! ### The ranges of the threads -/

/-- The ranges of the first threads, one behind the other. -/
theorem ranges_eq (hU : Documented U) (hu : u ≤ 8) (hl : l < m) :
    ((List.range (l + 1)).flatMap fun i => (List.range (U.getSubrange u m (i + 1)).2).map
      ((U.getSubrange u m (i + 1)).1 + ·)) =
    List.range ((U.getSubrange u m (l + 1)).1 + (U.getSubrange u m (l + 1)).2) := by
  induction l with
  | zero =>
    rw [List.range_one, List.flatMap_singleton, hU.subrange_first u m hu hl, Nat.zero_add]
    simp
  | succ l ih =>
    have hnext := hU.subrange_next u m (l + 1) hu (Nat.succ_pos l) hl
    rw [List.range_succ, List.flatMap_append, ih (Nat.lt_of_succ_lt hl), List.flatMap_singleton,
      ← hnext, List.range_add]

/-- **The ranges** of all threads are the search space. -/
theorem ranges_all (hU : Documented U) (hu : u ≤ 8) (hm : 0 < m) :
    ((List.finRange m).flatMap fun i => (List.range (U.getSubrange u m (i.val + 1)).2).map
      ((U.getSubrange u m (i.val + 1)).1 + ·)) = List.range (26 ^ u) := by
  obtain ⟨l, rfl⟩ := Nat.exists_eq_succ_of_ne_zero hm.ne'
  have hrange : (List.finRange (l + 1)).map Fin.val = List.range (l + 1) :=
    List.map_coe_finRange_eq_range
  rw [← hU.subrange_last u (l + 1) hu hm, ← ranges_eq hU hu (Nat.lt_succ_self l), ← hrange,
    List.flatMap_map]

/-! ### The search of one thread -/

variable {n thread_count : ℕ} {s s' : State n} {i : Fin n} {j : job} {v : Place} {find : Bool}

/-- The strings of a range are in the search space. -/
theorem Assigned.lt (hU : Documented U) (ht : t.pwd.length ≤ 8) (h : Assigned U t i j)
    (hk : k < j.count) : j.start_index + k < 26 ^ U.unknown t := by
  have hall := ranges_all hU (unknown_le (U := U) ht) (Nat.zero_lt_of_lt i.isLt)
  refine List.mem_range.mp (hall ▸ List.mem_flatMap.mpr ⟨i, List.mem_finRange i, ?_⟩)
  rw [← h.range]
  exact List.mem_map_of_mem (List.mem_range.mpr hk)

/-- One more string is hashed. -/
theorem Assigned.succ (h : Assigned U t i j) (hk : j.hash_count < j.count) :
    Assigned U t i { j with
      hash_count := j.hash_count + 1
      hashed := j.hashed ++ [U.candidate t (j.start_index + j.hash_count)] } := by
  refine ⟨h.value, h.pwd, h.range, hk, ?_⟩
  show j.hashed ++ _ = _
  rw [List.range_succ, List.map_append, h.hashed]
  rfl

theorem Searches.found (h : Searches U find t j v) : Searches U true t j v := by
  cases v with
  | call b =>
    cases b with
    | barrier1 => exact h
    | barrier2 => exact .inl rfl
  | waiting b =>
    cases b with
    | barrier1 => exact h
    | barrier2 => exact .inl rfl
  | passed b =>
    cases b with
    | barrier1 => exact h
    | barrier2 => exact h
  | _ => exact h

/-- **A step of a search**: the thread goes on, or it keeps the password, or it comes to the second
    barrier. -/
theorem search_step (hU : Documented U) (ht : t.pwd.length ≤ 8) (hassigned : Assigned U t i (s.jobs i))
    (hsearches : Searches U s.find t (s.jobs i) (s.place (some i))) (hstop : s.stop = false)
    (hcount : s.place (some i) = .passed .barrier1 → (s.jobs i).count < 2 ^ 31)
    (hstep : start_routine U thread_count s i = some s') :
    (∃ j v, s' = { s.move (some i) v with jobs := Function.update s.jobs i j } ∧
      Assigned U t i j ∧ Searches U s.find t j v ∧ v ≠ .waiting .barrier2) ∨
    (∃ raw, s' = { s.move (some i) (.call .barrier2) with find := true, password := some raw } ∧
      Hit U t raw) ∨
    s.place (some i) = .call .barrier2 ∧ s' = s.wait thread_count (some i) .barrier2 := by
  have hself : ∀ v, s.move (some i) v =
      { s.move (some i) v with jobs := Function.update s.jobs i (s.jobs i) } := by
    intro v
    rw [Function.update_eq_self]
    rfl
  rw [start_routine] at hstep
  cases hplace : s.place (some i) with
  | call b =>
    rw [hplace] at hsearches hstep
    cases b with
    | barrier1 => exact hsearches.elim
    | barrier2 => exact .inr (.inr ⟨rfl, (Option.some.inj hstep).symm⟩)
  | waiting b =>
    rw [hplace] at hstep
    cases hstep
  | passed b =>
    rw [hplace] at hsearches hstep
    cases b with
    | barrier1 =>
      have h0 : (s.jobs i).hash_count = 0 := hsearches
      simp only [hstop, Bool.false_eq_true, if_false] at hstep
      obtain rfl := Option.some.inj hstep
      refine .inl ⟨s.jobs i, _, hself _, hassigned, ⟨h0.symm, hcount hplace, fun hk => ?_, ?_⟩,
        by simp⟩
      · rw [hassigned.pwd]
        exact setStringPosition_eq hU ht (hassigned.lt hU ht hk)
      · intro c hc
        rw [hassigned.hashed, h0] at hc
        cases hc
    | barrier2 => exact hsearches.elim
  | head raw k =>
    rw [hplace] at hsearches hstep
    obtain ⟨rfl, hlt, hraw, hmissed⟩ := hsearches
    -- the count is an `int`, so the loop ends where the range does
    simp only [int_eq hlt, Int.ofNat_lt] at hstep
    split at hstep
    · rename_i hgo
      obtain rfl := Option.some.inj hstep
      exact .inl ⟨s.jobs i, _, hself _, hassigned, ⟨rfl, hlt, hgo.1, hraw hgo.1, hmissed⟩, by simp⟩
    · -- another thread has found the password, or the range is at its end
      rename_i hend
      obtain rfl := Option.some.inj hstep
      refine .inl ⟨s.jobs i, _, hself _, hassigned, ?_, by simp⟩
      cases hfind : s.find with
      | true => exact .inl rfl
      | false =>
        have hge : ¬(s.jobs i).hash_count < (s.jobs i).count := fun h => hend ⟨h, hfind⟩
        exact .inr ⟨hassigned.le.antisymm (Nat.le_of_not_lt hge), hmissed⟩
  | hash raw k =>
    rw [hplace] at hsearches hstep
    obtain ⟨rfl, hlt, hk, rfl, hmissed⟩ := hsearches
    have hcand := hassigned.lt hU ht hk
    dsimp only at hstep
    split at hstep
    · rename_i hhit
      obtain rfl := Option.some.inj hstep
      exact .inl ⟨_, _, rfl, hassigned.succ hk,
        ⟨candidate_iff.mpr ⟨_, hcand, rfl⟩, hhit.trans hassigned.value⟩, by simp⟩
    · rename_i hmiss
      obtain rfl := Option.some.inj hstep
      refine .inl ⟨_, _, rfl, hassigned.succ hk, ⟨rfl, hlt, fun hk' => ?_, fun c hc => ?_⟩, by simp⟩
      · exact incrementString_eq hU ht (hassigned.lt hU ht hk')
      · obtain hc | hc := List.mem_append.mp hc
        · exact hmissed c hc
        · rw [List.mem_singleton.mp hc, ← hassigned.value]
          exact hmiss
  | found raw =>
    rw [hplace] at hsearches hstep
    have hhit : Hit U t raw := hsearches
    have hlength : raw.length < 9 := Nat.lt_succ_of_le ((hhit.1.length_eq hU).trans_le ht)
    simp only [if_pos hlength] at hstep
    exact .inr (.inl ⟨raw, (Option.some.inj hstep).symm, hhit⟩)
  | _ =>
    rw [hplace] at hsearches
    exact hsearches.elim

/-! ### The barriers -/

variable {p : Option (Fin n)} {b : Barrier} {all : List Task}

@[simp] theorem move_self (s : State n) (p : Option (Fin n)) (v : Place) :
    (s.move p v).place p = v := Function.update_self ..

@[simp] theorem move_jobs (s : State n) (p : Option (Fin n)) (v : Place) :
    (s.move p v).jobs = s.jobs := rfl

@[simp] theorem move_find (s : State n) (p : Option (Fin n)) (v : Place) :
    (s.move p v).find = s.find := rfl

@[simp] theorem move_task (s : State n) (p : Option (Fin n)) (v : Place) :
    (s.move p v).task = s.task := rfl

theorem move_of_ne {q : Option (Fin n)} (h : q ≠ p) (s : State n) (v : Place) :
    (s.move p v).place q = s.place q := Function.update_of_ne h ..

/-- A thread waits for another one, or it is the last one. -/
theorem wait_cases (hneed : (thread_count + 1) % 2 ^ 32 = Fintype.card (Option (Fin n)))
    (hp : s.place p ≠ .waiting b) :
    ((∃ q, (s.move p (.waiting b)).place q ≠ .waiting b) ∧
      s.wait thread_count p b = s.move p (.waiting b)) ∨
    (∀ q, q ≠ p → s.place q = .waiting b) ∧
      s.wait thread_count p b = { s with place := fun _ => .passed b } := by
  by_cases hall : ∀ q, q ≠ p → s.place q = .waiting b
  · exact .inr ⟨hall, by rw [State.wait, arrive_last hneed hp hall]⟩
  · push Not at hall
    obtain ⟨q, hq, hw⟩ := hall
    refine .inl ⟨⟨q, ?_⟩, ?_⟩
    · rwa [move_of_ne hq]
    · rw [State.wait, arrive_early hneed hp ⟨q, hq, hw⟩]
      rfl

/-- A thread on the way to the first barrier goes on, or it is the last one. -/
theorem gather_step (hneed : (thread_count + 1) % 2 ^ 32 = Fintype.card (Option (Fin n)))
    (hi : Gathers (s.place (some i))) (hstep : start_routine U thread_count s i = some s') :
    (∃ v, s' = s.move (some i) v ∧ Gathers v ∧ ∃ q, s'.place q ≠ .waiting .barrier1) ∨
    (∀ q, q ≠ some i → s.place q = .waiting .barrier1) ∧
      s' = { s with place := fun _ => .passed .barrier1 } := by
  rw [start_routine] at hstep
  cases hplace : s.place (some i) with
  | call b =>
    rw [hplace] at hi hstep
    cases b with
    | barrier2 => exact hi.elim
    | barrier1 =>
      obtain rfl := Option.some.inj hstep
      obtain ⟨hmissing, heq⟩ | ⟨hall, heq⟩ :=
        wait_cases (b := .barrier1) hneed (show s.place (some i) ≠ _ by simp [hplace])
      · exact .inl ⟨_, heq, trivial, heq ▸ hmissing⟩
      · exact .inr ⟨hall, heq⟩
  | waiting b =>
    rw [hplace] at hstep
    cases hstep
  | passed b =>
    rw [hplace] at hi hstep
    cases b with
    | barrier1 => exact hi.elim
    | barrier2 =>
      obtain rfl := Option.some.inj hstep
      exact .inl ⟨_, rfl, trivial, some i, by simp⟩
  | _ =>
    rw [hplace] at hi
    exact hi.elim

/-! ### The steps of the search threads -/

theorem gathers_move (hworkers : ∀ i, Gathers (s.place (some i))) (hv : Gathers v) (i k : Fin n) :
    Gathers ((s.move (some i) v).place (some k)) := by
  by_cases hk : k = i
  · subst hk
    rwa [move_self]
  · rw [move_of_ne (by simpa using hk)]
    exact hworkers k

theorem main_move (s : State n) (i : Fin n) (v : Place) :
    (s.move (some i) v).place none = s.place none := move_of_ne (by simp) s v

/-- The search goes on until the last thread comes to the second barrier. -/
theorem Phase.search_worker (hU : Documented U) (hshort : s.task.pwd.length ≤ 8)
    (hneed : (thread_count + 1) % 2 ^ 32 = Fintype.card (Option (Fin n)))
    (hmain : s.place none = .passed .barrier1 ∨ s.place none = .call .barrier2 ∨
      s.place none = .waiting .barrier2)
    (hstop : s.stop = false) (htasks : s.reports.map Report.task ++ s.task :: s.tasks = all)
    (hjobs : ∀ i, Assigned U s.task i (s.jobs i))
    (hworkers : ∀ i, Searches U s.find s.task (s.jobs i) (s.place (some i)))
    (hfound : s.find = true → ∃ c, s.password = some c ∧ Hit U s.task c)
    (hcount : s.place (some i) = .passed .barrier1 → (s.jobs i).count < 2 ^ 31)
    (hstep : start_routine U thread_count s i = some s') :
    Phase U all s' ∧ s'.reports = s.reports := by
  have hother : ∀ {k : Fin n}, k ≠ i → some k ≠ some i := fun h => by simpa using h
  obtain ⟨j, v, rfl, hj, hv, hne⟩ | ⟨raw, rfl, hhit⟩ | ⟨hplace, rfl⟩ :=
    search_step hU hshort (hjobs i) (hworkers i) hstop hcount hstep
  · -- the thread goes on, and only its own job changes
    rw [← main_move s i v] at hmain
    refine ⟨.search hmain hstop htasks (fun k => ?_) (fun k => ?_) hfound ⟨some i, ?_⟩, rfl⟩
    · by_cases hk : k = i
      · subst hk
        simpa using hj
      · simpa [hk] using hjobs k
    · by_cases hk : k = i
      · subst hk
        simpa using hv
      · simpa [hk, move_of_ne (hother hk)] using hworkers k
    · simpa using hne
  · -- what the other threads are at is right with `find` too
    rw [← main_move s i (.call .barrier2)] at hmain
    refine ⟨.search hmain hstop htasks hjobs (fun k => ?_) (fun _ => ⟨raw, rfl, hhit⟩)
      ⟨some i, by simp⟩, rfl⟩
    by_cases hk : k = i
    · subst hk
      show Searches U true s.task (s.jobs k) ((s.move _ _).place _)
      rw [move_self]
      exact .inl rfl
    · simpa [move_of_ne (hother hk)] using (hworkers k).found
  · have hdone : Done U s.find s.task (s.jobs i) := by
      have hi := hworkers i
      rw [hplace] at hi
      exact hi
    obtain ⟨hmissing, heq⟩ | ⟨hall, heq⟩ :=
      wait_cases (b := .barrier2) hneed (show s.place (some i) ≠ _ by simp [hplace])
    · rw [heq]
      rw [← main_move s i (.waiting .barrier2)] at hmain
      refine ⟨.search hmain hstop htasks hjobs (fun k => ?_) hfound hmissing, rfl⟩
      by_cases hk : k = i
      · subst hk
        rw [move_self]
        exact hdone
      · simpa [move_of_ne (hother hk)] using hworkers k
    · -- the others wait at the second barrier, so they are done
      rw [heq]
      refine ⟨.judged rfl (fun _ => trivial) hstop htasks hjobs (fun k => ?_) hfound, rfl⟩
      by_cases hk : k = i
      · subst hk
        exact hdone
      · have hsearches := hworkers k
        rw [hall _ (hother hk)] at hsearches
        exact hsearches

theorem Phase.worker (hU : Documented U) (hshort : ∀ t ∈ all, t.pwd.length ≤ 8)
    (hneed : (thread_count + 1) % 2 ^ 32 = Fintype.card (Option (Fin n))) (h : Phase U all s)
    (hcount : s.place (some i) = .passed .barrier1 → s.stop = false → (s.jobs i).count < 2 ^ 31)
    (hstep : start_routine U thread_count s i = some s') :
    Phase U all s' ∧ s'.reports = s.reports := by
  cases h with
  | between hmain hworkers hstop htasks =>
    obtain ⟨v, rfl, hv, -⟩ | ⟨hall, -⟩ := gather_step hneed (hworkers i) hstep
    · exact ⟨.between ((main_move s i v).trans hmain) (gathers_move hworkers hv i) hstop htasks, rfl⟩
    · -- the barrier needs the main thread
      rw [hall none (by simp)] at hmain
      cases hmain
  | ready hmain hworkers hstop htasks hjobs hfind hmissing =>
    obtain ⟨v, rfl, hv, hmissing'⟩ | ⟨hall, rfl⟩ := gather_step hneed (hworkers i) hstep
    · rw [← main_move s i v] at hmain hfind
      exact ⟨.ready hmain (gathers_move hworkers hv i) hstop htasks hjobs hfind hmissing', rfl⟩
    · -- the search begins, and nothing is hashed yet
      have hfalse := hfind (by rw [hall none (by simp)]; simp)
      exact ⟨.search (.inl rfl) hstop htasks (fun k => (hjobs k).1) (fun k => (hjobs k).2)
        (fun h => absurd (hfalse.symm.trans h) (by simp)) ⟨none, by simp⟩, rfl⟩
  | search hmain hstop htasks hjobs hworkers hfound hmissing =>
    have hmem : s.task ∈ all := htasks ▸ List.mem_append_right _ (List.mem_cons_self ..)
    exact Phase.search_worker hU (hshort _ hmem) hneed hmain hstop htasks hjobs hworkers hfound
      (fun hplace => hcount hplace hstop) hstep
  | judged hmain hworkers hstop htasks hjobs hdone hfound =>
    obtain ⟨v, rfl, hv, -⟩ | ⟨hall, -⟩ := gather_step hneed (hworkers i) hstep
    · exact ⟨.judged ((main_move s i v).trans hmain) (gathers_move hworkers hv i) hstop htasks hjobs
        hdone hfound, rfl⟩
    · rw [hall none (by simp)] at hmain
      cases hmain
  | stopping hmain hworkers hstop htasks hmissing =>
    obtain ⟨v, rfl, hv, hmissing'⟩ | ⟨hall, rfl⟩ := gather_step hneed (hworkers i) hstep
    · rw [← main_move s i v] at hmain
      exact ⟨.stopping hmain (gathers_move hworkers hv i) hstop htasks hmissing', rfl⟩
    · exact ⟨.ending (.inl rfl) (fun _ => .inl rfl) hstop htasks (fun h => by cases h), rfl⟩
  | ending hmain hworkers hstop htasks hend =>
    rw [start_routine] at hstep
    obtain hi | hi := hworkers i
    · simp only [hi, hstop, if_true] at hstep
      obtain rfl := Option.some.inj hstep
      have hworkers' : ∀ k, (s.move (some i) .finished).place (some k) = .passed .barrier1 ∨
          (s.move (some i) .finished).place (some k) = .finished := by
        intro k
        by_cases hk : k = i
        · subst hk
          exact .inr (move_self ..)
        · rw [move_of_ne (by simpa using hk)]
          exact hworkers k
      rw [← main_move s i .finished] at hmain
      refine ⟨.ending hmain hworkers' hstop htasks fun hfin => ?_, rfl⟩
      rw [main_move] at hfin
      rw [hend hfin i] at hi
      cases hi
    · simp only [hi] at hstep
      cases hstep

/-! ### The summary -/

/-- The sum is the number of strings that were hashed. -/
theorem totalHash_eq (hjobs : ∀ i, Assigned U s.task i (s.jobs i)) :
    s.totalHash = s.hashed.length := by
  rw [State.totalHash, State.hashed, List.length_flatMap]
  congr 1
  refine List.map_congr_left fun i _ => ?_
  rw [(hjobs i).hashed, List.length_map, List.length_range]

/-- Threads that come to the end have hashed the search space. -/
theorem hashed_eq (hU : Documented U) (hn : 0 < n) (ht : s.task.pwd.length ≤ 8)
    (hjobs : ∀ i, Assigned U s.task i (s.jobs i))
    (hend : ∀ i, (s.jobs i).hash_count = (s.jobs i).count) :
    s.hashed = (List.range (26 ^ U.unknown s.task)).map (U.candidate s.task) := by
  rw [← ranges_all hU (unknown_le ht) hn, List.map_flatMap, State.hashed]
  congr 1
  funext i
  rw [(hjobs i).hashed, hend i, List.map_map, ← (hjobs i).range]
  rfl

/-- **The summary is right** when all searches are over. -/
theorem right_of_done (hU : Documented U) (hn : 0 < n) (ht : s.task.pwd.length ≤ 8)
    (hjobs : ∀ i, Assigned U s.task i (s.jobs i)) (hdone : ∀ i, Done U s.find s.task (s.jobs i))
    (hfound : s.find = true → ∃ c, s.password = some c ∧ Hit U s.task c) :
    Right U ⟨s.task, s.password, s.totalHash, s.find, s.hashed⟩ := by
  have hmem : s.find = false →
      s.hashed = (List.range (26 ^ U.unknown s.task)).map (U.candidate s.task) ∧
        ∀ c ∈ s.hashed, U.crypt_r c ≠ s.task.value := by
    intro hfind
    have hall : ∀ i, (s.jobs i).hash_count = (s.jobs i).count ∧ Missed U s.task (s.jobs i) :=
      fun i => (hdone i).resolve_left (by simp [hfind])
    refine ⟨hashed_eq hU hn ht hjobs fun i => (hall i).1, fun c hc => ?_⟩
    obtain ⟨i, -, hi⟩ := List.mem_flatMap.mp hc
    exact (hall i).2 c hi
  have hspace : ∀ c, c ∈ (List.range (26 ^ U.unknown s.task)).map (U.candidate s.task) ↔
      Candidate U s.task c := by
    intro c
    rw [candidate_iff, List.mem_map]
    exact exists_congr fun k => and_congr_left' List.mem_range
  refine ⟨⟨fun hfind => ?_, fun ⟨c, hc, hhit⟩ => ?_⟩, hfound, fun hfind => ?_⟩
  · obtain ⟨c, -, hhit⟩ := hfound hfind
    exact ⟨c, hhit⟩
  · -- all of the search space was hashed and missed, and `c` is in it
    by_contra hfind
    obtain ⟨heq, hmiss⟩ := hmem (Bool.not_eq_true _ ▸ hfind)
    exact hmiss c (heq ▸ (hspace c).mpr hc) hhit
  · obtain ⟨heq, -⟩ := hmem hfind
    refine ⟨?_, fun c => heq ▸ hspace c, ?_⟩
    · show s.hashed.Nodup
      rw [heq]
      exact List.nodup_range.map_on fun k hk l hl h =>
        candidate_inj (List.mem_range.mp hk) (List.mem_range.mp hl) h
    · show s.totalHash = _
      rw [totalHash_eq hjobs, heq, List.length_map, List.length_range]

/-! ### The steps of the main thread -/

theorem worker_move (s : State n) (i : Fin n) (v : Place) :
    (s.move none v).place (some i) = s.place (some i) := move_of_ne (by simp) s v

/-- The main thread lets go of `find` and comes to the first barrier. -/
theorem Phase.ready_main (hneed : (thread_count + 1) % 2 ^ 32 = Fintype.card (Option (Fin n)))
    (hmain : s.place none = .reset ∨ s.place none = .call .barrier1 ∨
      s.place none = .waiting .barrier1) (hworkers : ∀ i, Gathers (s.place (some i)))
    (hstop : s.stop = false) (htasks : s.reports.map Report.task ++ s.task :: s.tasks = all)
    (hjobs : ∀ i, Assigned U s.task i (s.jobs i) ∧ (s.jobs i).hash_count = 0)
    (hfind : s.place none ≠ .reset → s.find = false)
    (hstep : start U thread_count s = some s') : Phase U all s' ∧ s'.reports = s.reports := by
  have hworkers' : ∀ v i, Gathers ((s.move none v).place (some i)) :=
    fun v i => worker_move s i v ▸ hworkers i
  rw [start] at hstep
  obtain hmain | hmain | hmain := hmain
  · simp only [hmain] at hstep
    obtain rfl := Option.some.inj hstep
    exact ⟨.ready (.inr (.inl (move_self s none _))) (hworkers' (.call .barrier1)) hstop htasks
      hjobs (fun _ => rfl) ⟨none, by simp⟩, rfl⟩
  · simp only [hmain] at hstep
    obtain rfl := Option.some.inj hstep
    have hfalse := hfind (by simp [hmain])
    obtain ⟨hmissing, heq⟩ | ⟨-, heq⟩ :=
      wait_cases (b := .barrier1) hneed (show s.place none ≠ _ by simp [hmain])
    · rw [heq]
      exact ⟨.ready (.inr (.inr (move_self s none _))) (hworkers' _) hstop htasks hjobs
        (fun _ => hfalse) hmissing, rfl⟩
    · -- the search begins, and nothing is hashed yet
      rw [heq]
      exact ⟨.search (.inl rfl) hstop htasks (fun i => (hjobs i).1) (fun i => (hjobs i).2)
        (fun h => absurd (hfalse.symm.trans h) (by simp)) ⟨none, by simp⟩, rfl⟩
  · simp only [hmain] at hstep
    cases hstep

/-- The main thread goes on to the second barrier. -/
theorem Phase.search_main (hneed : (thread_count + 1) % 2 ^ 32 = Fintype.card (Option (Fin n)))
    (hmain : s.place none = .passed .barrier1 ∨ s.place none = .call .barrier2 ∨
      s.place none = .waiting .barrier2)
    (hstop : s.stop = false) (htasks : s.reports.map Report.task ++ s.task :: s.tasks = all)
    (hjobs : ∀ i, Assigned U s.task i (s.jobs i))
    (hworkers : ∀ i, Searches U s.find s.task (s.jobs i) (s.place (some i)))
    (hfound : s.find = true → ∃ c, s.password = some c ∧ Hit U s.task c)
    (hstep : start U thread_count s = some s') : Phase U all s' ∧ s'.reports = s.reports := by
  have hworkers' : ∀ v i, Searches U s.find s.task (s.jobs i) ((s.move none v).place (some i)) :=
    fun v i => worker_move s i v ▸ hworkers i
  rw [start] at hstep
  obtain hmain | hmain | hmain := hmain
  · simp only [hmain, hstop, Bool.false_eq_true, if_false] at hstep
    obtain rfl := Option.some.inj hstep
    exact ⟨.search (.inr (.inl (move_self s none _))) hstop htasks hjobs (hworkers' _) hfound
      ⟨none, by simp⟩, rfl⟩
  · simp only [hmain] at hstep
    obtain rfl := Option.some.inj hstep
    obtain ⟨hmissing, heq⟩ | ⟨hall, heq⟩ :=
      wait_cases (b := .barrier2) hneed (show s.place none ≠ _ by simp [hmain])
    · rw [heq]
      exact ⟨.search (.inr (.inr (move_self s none _))) hstop htasks hjobs (hworkers' _) hfound
        hmissing, rfl⟩
    · -- the others wait at the second barrier, so they are done
      rw [heq]
      refine ⟨.judged rfl (fun _ => trivial) hstop htasks hjobs (fun i => ?_) hfound, rfl⟩
      have hsearches := hworkers i
      rw [hall (some i) (by simp)] at hsearches
      exact hsearches
  · simp only [hmain] at hstep
    cases hstep

theorem Phase.main (hU : Documented U) (hn : 0 < n) (hthreads : n = thread_count)
    (hshort : ∀ t ∈ all, t.pwd.length ≤ 8)
    (hneed : (thread_count + 1) % 2 ^ 32 = Fintype.card (Option (Fin n))) (h : Phase U all s)
    (hstep : start U thread_count s = some s') :
    Phase U all s' ∧ (s'.reports = s.reports ∨ ∃ r, s'.reports = s.reports ++ [r] ∧ Right U r) := by
  subst hthreads
  cases h with
  | between hmain hworkers hstop htasks =>
    rw [start] at hstep
    have hworkers' : ∀ v i, Gathers ((s.move none v).place (some i)) :=
      fun v i => worker_move s i v ▸ hworkers i
    simp only [hmain] at hstep
    cases hnext : s.tasks with
    -- without a task the stop flag is set before the barrier
    | nil =>
      rw [hnext] at hstep htasks
      obtain rfl := Option.some.inj hstep
      rw [List.append_nil] at htasks
      exact ⟨.stopping (.inl (move_self s none _)) (hworkers' (.call .barrier1)) rfl htasks
        ⟨none, by simp⟩, .inl rfl⟩
    | cons task tasks =>
      rw [hnext] at hstep htasks
      obtain rfl := Option.some.inj hstep
      refine ⟨.ready (.inl (move_self s none _)) (hworkers' .reset) hstop htasks (fun i => ⟨?_, rfl⟩)
        (fun h => absurd (move_self s none _) h) ⟨none, by simp⟩, .inl rfl⟩
      exact ⟨rfl, rfl, rfl, Nat.zero_le _, rfl⟩
  | ready hmain hworkers hstop htasks hjobs hfind hmissing =>
    obtain ⟨hphase, hreports⟩ :=
      Phase.ready_main hneed hmain hworkers hstop htasks hjobs hfind hstep
    exact ⟨hphase, .inl hreports⟩
  | search hmain hstop htasks hjobs hworkers hfound hmissing =>
    obtain ⟨hphase, hreports⟩ :=
      Phase.search_main hneed hmain hstop htasks hjobs hworkers hfound hstep
    exact ⟨hphase, .inl hreports⟩
  | judged hmain hworkers hstop htasks hjobs hdone hfound =>
    have hmem : s.task ∈ all := htasks ▸ List.mem_append_right _ (List.mem_cons_self ..)
    -- the ranges of all workers are searched, so that the report is right
    have hright := right_of_done hU hn (hshort _ hmem) hjobs hdone hfound
    rw [start] at hstep
    simp only [hmain] at hstep
    split at hstep
    · obtain rfl := Option.some.inj hstep
      refine ⟨.between (move_self s none _) (fun i => worker_move s i .read ▸ hworkers i) hstop ?_,
        .inr ⟨_, rfl, hright⟩⟩
      show (s.reports ++ [_]).map Report.task ++ s.tasks = all
      rw [List.map_append, List.append_assoc]
      exact htasks
    · cases hstep
  | stopping hmain hworkers hstop htasks hmissing =>
    rw [start] at hstep
    obtain hmain | hmain := hmain
    · simp only [hmain] at hstep
      obtain rfl := Option.some.inj hstep
      obtain ⟨hmissing', heq⟩ | ⟨-, heq⟩ :=
        wait_cases (b := .barrier1) hneed (show s.place none ≠ _ by simp [hmain])
      · rw [heq]
        exact ⟨.stopping (.inr (move_self s none _))
          (fun i => worker_move s i (.waiting .barrier1) ▸ hworkers i) hstop htasks hmissing',
          .inl rfl⟩
      · rw [heq]
        exact ⟨.ending (.inl rfl) (fun _ => .inl rfl) hstop htasks (fun h => by cases h), .inl rfl⟩
    · simp only [hmain] at hstep
      cases hstep
  | ending hmain hworkers hstop htasks hend =>
    rw [start] at hstep
    have hworkers' : ∀ v i, (s.move none v).place (some i) = .passed .barrier1 ∨
        (s.move none v).place (some i) = .finished := fun v i => worker_move s i v ▸ hworkers i
    obtain hmain | hmain | hmain := hmain
    · simp only [hmain, hstop, if_true] at hstep
      obtain rfl := Option.some.inj hstep
      exact ⟨.ending (.inr (.inl (move_self s none _))) (hworkers' .join) hstop htasks
        (fun h => absurd ((move_self s none .join).symm.trans h) (by simp)), .inl rfl⟩
    · simp only [hmain] at hstep
      split at hstep
      · rename_i hfin
        obtain rfl := Option.some.inj hstep
        exact ⟨.ending (.inr (.inr (move_self s none _))) (hworkers' .finished) hstop htasks
          (fun _ i => (worker_move s i _).trans (hfin i)), .inl rfl⟩
      · cases hstep
    · simp only [hmain] at hstep
      cases hstep

end SystemProgramming.PasswordCracker
