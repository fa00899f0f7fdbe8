import Mathlib.Algebra.BigOperators.Group.Finset.Basic
import Mathlib.Algebra.Order.Group.Multiset
import SystemProgramming.PasswordCracker.Cracker1

namespace SystemProgramming.PasswordCracker.Cracker1

open Lib

/-!
# Each password is searched for once

Whatever the order of the steps, a task is in the file, in the queue, with one thread or has been
reported, and what is reported is what a search of the whole space in order would find.  The null
pointer is behind the tasks, or with a thread that will push it again.

* `candidate_zero`, `candidate_last` — the first string and the last.
* `crack_of_hit`, `crack_of_miss` — how a search can end.
* `Pool` — the invariant.
* `pool_results` — the reports and the summary.
-/

variable {U : Utils} {incremented : Str → Bool} {t : Task} {k : ℕ}

/-! ### The search of a task -/

theorem combination_zero (u : ℕ) : combination u 0 = List.replicate u 97 := by
  rw [combination, numeral_zero, List.map_replicate]
  rfl

theorem combination_last (u : ℕ) : combination u (26 ^ u - 1) = List.replicate u 122 := by
  rw [combination, numeral_last (by decide), List.map_replicate]
  rfl

theorem raw_eq : raw U t = U.candidate t 0 := by rw [raw, Utils.candidate, combination_zero]

theorem last_eq : last U t = U.candidate t (26 ^ U.unknown t - 1) := by
  rw [last, Utils.candidate, combination_last]

theorem ne_last_iff (hk : k < 26 ^ U.unknown t) :
    U.candidate t k ≠ last U t ↔ k + 1 < 26 ^ U.unknown t := by
  have hpos : 0 < 26 ^ U.unknown t := Nat.zero_lt_of_lt hk
  rw [last_eq]
  constructor
  · intro hne
    by_contra hlt
    exact hne (congrArg (U.candidate t) (by omega))
  · intro hlt heq
    have hlast := candidate_inj hk (Nat.sub_lt hpos Nat.one_pos) heq
    omega

theorem increments_candidate (hU : Documented U) (hincremented : Increments incremented)
    (ht : t.pwd.length ≤ 8) (hk : k + 1 < 26 ^ U.unknown t) :
    incremented (U.candidate t k) = true := by
  refine hincremented _ _ k ?_ hk
  rw [List.length_take, Nat.min_eq_left (hU.getPrefixLength_le _), Utils.unknown,
    Nat.add_sub_cancel' (hU.getPrefixLength_le _)]
  exact ht

/-- The first strings do not have the hash. -/
def Missed (U : Utils) (t : Task) (k : ℕ) : Prop :=
  ∀ j < k, U.crypt_r (U.candidate t j) ≠ t.value

theorem missed_succ (h : Missed U t k) (hk : U.crypt_r (U.candidate t k) ≠ t.value) :
    Missed U t (k + 1) := by
  intro j hj
  obtain hj | rfl := Nat.lt_succ_iff_lt_or_eq.mp hj
  · exact h j hj
  · exact hk

/-- A string with the hash is found. -/
theorem crack_of_hit (h : Missed U t k) (hk : k < 26 ^ U.unknown t)
    (hhit : U.crypt_r (U.candidate t k) = t.value) :
    crack U t = (some (U.candidate t k), k + 1) := by
  have hfirst : first U t = some k := by
    rw [first, List.find?_range_eq_some]
    exact ⟨by simpa using hhit, List.mem_range.mpr hk, fun j hj => by simpa using h j hj⟩
  rw [crack, hfirst]

/-- No string has the hash. -/
theorem crack_of_miss (h : Missed U t (26 ^ U.unknown t)) :
    crack U t = (none, 26 ^ U.unknown t) := by
  have hfirst : first U t = none := by
    rw [first, List.find?_eq_none]
    intro k hk
    simpa using h k (List.mem_range.mp hk)
  rw [crack, hfirst]

/-! ### The invariant -/

variable {n : ℕ} {s s' : State n} {i : Fin n} {all ts : List Task}

namespace Place

/-- The task that a thread has. -/
def tasks : Place → Multiset Task
  | crack t _ _ => {t}
  | _ => 0

/-- How far the search is. -/
def Searching (U : Utils) (all : List Task) : Place → Prop
  | crack t raw k => t ∈ all ∧ k < 26 ^ U.unknown t ∧ raw = U.candidate t k ∧ Missed U t k
  | _ => True

/-- The thread has not seen the null pointer. -/
def busy : Place → Bool
  | queue_pull => true
  | crack _ _ _ => true
  | _ => false

def pushes : Place → Bool
  | queue_push => true
  | _ => false

end Place

/-- How many threads have been joined. -/
def Main.joined (n : ℕ) : Main → ℕ
  | getline => 0
  | pthread_join i => i
  | finished => n

/-- **Where the null pointer is**; `ts` are the tasks in the queue. -/
inductive Null (s : State n) (ts : List Task) : Prop
  | unborn (hmain : s.main = .getline) (hwork : s.work = ts.map some)
    (hbusy : ∀ i, (s.place i).busy = true)
  | queued (hmain : s.main ≠ .getline) (hlines : s.lines = [])
    (hwork : s.work = ts.map some ++ [none]) (hpushes : ∀ i, (s.place i).pushes = false)
    (hbusy : ts ≠ [] → ∀ i, (s.place i).busy = true)
  | held (i : Fin n) (hmain : s.main ≠ .getline) (hlines : s.lines = []) (hwork : s.work = [])
    (hts : ts = []) (hpushes : ∀ j, (s.place j).pushes = true ↔ j = i)

/-- The numbers of the reports. -/
structure Counts (s : State n) : Prop where
  success : ∀ i, (s.threads i).success =
    s.reports.countP fun r => r.thread = i ∧ r.password ≠ none
  fail : ∀ i, (s.threads i).fail = s.reports.countP fun r => r.thread = i ∧ r.password = none
  joined_le : s.main.joined n ≤ n
  joined : ∀ i : Fin n, i.val < s.main.joined n → s.place i = .finished
  num_success : s.num_success =
    s.reports.countP fun r => r.thread.val < s.main.joined n ∧ r.password ≠ none
  num_fail : s.num_fail =
    s.reports.countP fun r => r.thread.val < s.main.joined n ∧ r.password = none
  summary : s.main = .finished → s.summary = some (s.num_success, s.num_fail)

/-- **What holds in every state**; `all` are the tasks of the file. -/
structure Pool (U : Utils) (all : List Task) (s : State n) : Prop where
  null : ∃ ts, Null s ts ∧ s.started ++ ts ++ s.lines.filterMap parse_line = all
  tasks : (s.reports.map Report.task : Multiset Task) + ∑ i, (s.place i).tasks = s.started
  searching : ∀ i, (s.place i).Searching U all
  reports : ∀ r ∈ s.reports, (r.password, r.count) = crack U r.task ∧
    r.flag = if r.password = none then 1 else 0
  counts : Counts s

theorem pool_initial (n : ℕ) (lines : List Str) :
    Pool U (lines.filterMap parse_line) (initial n lines) where
  null := ⟨[], .unborn rfl rfl fun _ => rfl, rfl⟩
  tasks := by simp [initial, Place.tasks]
  searching _ := trivial
  reports := nofun
  counts := ⟨fun _ => rfl, fun _ => rfl, Nat.zero_le n, fun _ h => absurd h (Nat.not_lt_zero _),
    rfl, rfl, nofun⟩

/-! ### The numbers -/

/-- A thread goes on, and nothing is reported. -/
theorem Counts.move (h : Counts s) (hplace : s.place i ≠ .finished) (v : Place) :
    Counts (s.move i v) where
  success := h.success
  fail := h.fail
  joined_le := h.joined_le
  joined j hj := by
    have hfin := h.joined j hj
    rw [State.move_ne, hfin]
    rintro rfl
    exact hplace hfin
  num_success := h.num_success
  num_fail := h.num_fail
  summary := h.summary

theorem Counts.setWork (h : Counts s) (work : List (Option Task)) : Counts (s.setWork work) := by
  obtain ⟨hsuccess, hfail, hle, hfin, hns, hnf, hsummary⟩ := h
  exact ⟨hsuccess, hfail, hle, hfin, hns, hnf, hsummary⟩

theorem Counts.begin_task (h : Counts s) (t : Task) : Counts (s.begin_task t) := by
  obtain ⟨hsuccess, hfail, hle, hfin, hns, hnf, hsummary⟩ := h
  exact ⟨hsuccess, hfail, hle, hfin, hns, hnf, hsummary⟩

theorem Counts.result (h : Counts s) (hplace : s.place i ≠ .finished) (t : Task)
    (password : Option Str) (count : ℕ) : Counts (s.result i t password count) := by
  have hjoined : ¬ i.val < s.main.joined n := fun hlt => hplace (h.joined i hlt)
  have ⟨hsuccess, hfail, hle, hfin, hns, hnf, hsummary⟩ := h
  refine ⟨fun j => ?_, fun j => ?_, hle, fun j hj => ?_, ?_, ?_, hsummary⟩
  · by_cases hj : j = i
    · subst hj
      cases password <;> simp [State.result, List.countP_append, hsuccess]
    · cases password <;> simp [State.result, List.countP_append, hsuccess, hj, Ne.symm hj]
  · by_cases hj : j = i
    · subst hj
      cases password <;> simp [State.result, List.countP_append, hfail]
    · cases password <;> simp [State.result, List.countP_append, hfail, hj, Ne.symm hj]
  · have hfin := h.joined j hj
    rw [State.result_ne, hfin]
    rintro rfl
    exact hplace hfin
  · have hnot : ¬ i.val < (s.result i t password count).main.joined n := hjoined
    rw [State.result_reports, List.countP_append, List.countP_singleton,
      if_neg (by simp [hnot]), Nat.add_zero]
    exact hns
  · have hnot : ¬ i.val < (s.result i t password count).main.joined n := hjoined
    rw [State.result_reports, List.countP_append, List.countP_singleton,
      if_neg (by simp [hnot]), Nat.add_zero]
    exact hnf

/-- The reports of the first threads, and those of one more. -/
theorem countP_joined (reports : List (Report n)) (i : Fin n) (p : Report n → Prop)
    [DecidablePred p] : (reports.countP fun r => r.thread.val < i.val + 1 ∧ p r) =
      (reports.countP fun r => r.thread.val < i.val ∧ p r) +
        reports.countP fun r => r.thread = i ∧ p r := by
  induction reports with
  | nil => rfl
  | cons r rs ih =>
    simp only [List.countP_cons, ih, Fin.ext_iff, decide_eq_true_eq]
    by_cases hp : p r
    · simp only [hp, and_true]
      split_ifs <;> omega
    · simp only [hp, and_false, if_false, Nat.add_zero]

/-- The main thread adds the numbers of a thread that has ended. -/
theorem Counts.join (h : Counts s) (hmain : s.main = .pthread_join i)
    (hplace : s.place i = .finished) : Counts { s with
      main := .pthread_join (i + 1)
      num_success := s.num_success + (s.threads i).success
      num_fail := s.num_fail + (s.threads i).fail } := by
  obtain ⟨hsuccess, hfail, hle, hfin, hns, hnf, hsummary⟩ := h
  rw [hmain] at hfin hns hnf
  refine ⟨hsuccess, hfail, i.isLt, fun j hj => ?_, ?_, ?_, nofun⟩
  · obtain hj | hj := Nat.lt_succ_iff_lt_or_eq.mp hj
    · exact hfin j hj
    · rw [Fin.ext hj, hplace]
  · rw [hns, hsuccess]
    exact (countP_joined s.reports i fun r => r.password ≠ none).symm
  · rw [hnf, hfail]
    exact (countP_joined s.reports i fun r => r.password = none).symm

/-! ### The steps -/

/-- What is seen of the threads, when one of them goes on and no difference is seen. -/
theorem view_move {α : Type*} (f : Place → α) {v : Place} (h : f v = f (s.place i)) (j : Fin n) :
    f ((s.move i v).place j) = f (s.place j) := by
  by_cases hj : j = i
  · rw [hj, State.move_self, h]
  · rw [State.move_ne v hj]

/-- A sum over the threads, when one of them goes on. -/
theorem sum_move {M : Type*} [AddCommMonoid M] (f : Place → M) {u : Place} (hplace : s.place i = u)
    (v : Place) :
    ∑ j, f ((s.move i v).place j) + f u = ∑ j, f (s.place j) + f v := by
  have hne : ∀ j ≠ i, f ((s.move i v).place j) = f (s.place j) :=
    fun j hj => by rw [State.move_ne v hj]
  rw [← hplace, sum_change i hne, State.move_self]

/-- The searches, when a thread goes on. -/
theorem searching_move {v : Place} (h : ∀ j, (s.place j).Searching U all)
    (hv : v.Searching U all) (j : Fin n) : ((s.move i v).place j).Searching U all := by
  by_cases hj : j = i
  · rw [hj, State.move_self]
    exact hv
  · rw [State.move_ne v hj]
    exact h j

theorem Null.frame (h : Null s ts) (hmain : s'.main = .getline ↔ s.main = .getline)
    (hlines : s'.lines = s.lines) (hwork : s'.work = s.work)
    (hbusy : ∀ j, (s'.place j).busy = (s.place j).busy)
    (hpushes : ∀ j, (s'.place j).pushes = (s.place j).pushes) : Null s' ts := by
  cases h with
  | unborn hmain' hwork' hbusy' =>
    exact .unborn (hmain.mpr hmain') (hwork.trans hwork') fun j => (hbusy j).trans (hbusy' j)
  | queued hmain' hlines' hwork' hpushes' hbusy' =>
    exact .queued (hmain.not.mpr hmain') (hlines.trans hlines') (hwork.trans hwork')
      (fun j => (hpushes j).trans (hpushes' j)) fun hts j => (hbusy j).trans (hbusy' hts j)
  | held i hmain' hlines' hwork' hts hpushes' =>
    refine .held i (hmain.not.mpr hmain') (hlines.trans hlines') (hwork.trans hwork') hts
      fun j => ?_
    rw [hpushes, hpushes']

/-- A thread pulls a task. -/
theorem Null.pull {work : List (Option Task)} (h : Null s ts) (hwork : s.work = some t :: work)
    (raw : Str) : ∃ ts', ts = t :: ts' ∧
      Null (((s.move i (.crack t raw 0)).setWork work).begin_task t) ts' := by
  cases h with
  | unborn hmain hwork' hbusy =>
    obtain ⟨t', ts', rfl, ht, rfl⟩ := List.map_eq_cons_iff.mp (hwork'.symm.trans hwork)
    obtain rfl := (Option.some.inj ht).symm
    have hsame : Place.busy (.crack t raw 0) = (s.place i).busy := (hbusy i).symm
    exact ⟨ts', rfl, .unborn hmain rfl fun j => (view_move Place.busy hsame j).trans (hbusy j)⟩
  | queued hmain hlines hwork' hpushes hbusy =>
    cases ts with
    | nil =>
      rw [hwork'] at hwork
      cases hwork
    | cons t' ts' =>
      rw [hwork', List.map_cons, List.cons_append] at hwork
      obtain ⟨ht, rfl⟩ := List.cons.inj hwork
      obtain rfl := (Option.some.inj ht).symm
      have hbusy := hbusy (List.cons_ne_nil _ _)
      have hsame : Place.busy (.crack t raw 0) = (s.place i).busy := (hbusy i).symm
      have hsame' : Place.pushes (.crack t raw 0) = (s.place i).pushes := (hpushes i).symm
      exact ⟨ts', rfl, .queued hmain hlines rfl
        (fun j => (view_move Place.pushes hsame' j).trans (hpushes j))
        fun _ j => (view_move Place.busy hsame j).trans (hbusy j)⟩
  | held j hmain hlines hwork' =>
    rw [hwork'] at hwork
    cases hwork

/-- A thread pulls the null pointer. -/
theorem Null.pull_null {work : List (Option Task)} (h : Null s ts)
    (hwork : s.work = none :: work) : Null ((s.move i .queue_push).setWork work) ts := by
  cases h with
  | unborn hmain hwork' hbusy =>
    obtain ⟨t', ts', rfl, ht, rfl⟩ := List.map_eq_cons_iff.mp (hwork'.symm.trans hwork)
    cases ht
  | queued hmain hlines hwork' hpushes hbusy =>
    cases ts with
    | nil =>
      rw [hwork'] at hwork
      obtain ⟨-, rfl⟩ := List.cons.inj hwork
      refine .held i hmain hlines rfl rfl fun j => ?_
      by_cases hj : j = i
      · rw [hj]
        exact iff_of_true (congrArg Place.pushes (State.move_self _)) rfl
      · refine iff_of_false (fun h => ?_) hj
        have hpushes' : ((s.move i .queue_push).place j).pushes = true := h
        rw [State.move_ne _ hj, hpushes] at hpushes'
        cases hpushes'
    | cons t' ts' =>
      rw [hwork'] at hwork
      cases hwork
  | held j hmain hlines hwork' =>
    rw [hwork'] at hwork
    cases hwork

/-- A thread pushes the null pointer again. -/
theorem Null.push (h : Null s ts) (hplace : s.place i = .queue_push) :
    Null ((s.move i .finished).setWork (s.work ++ [none])) ts := by
  have hpush : (s.place i).pushes = true := by rw [hplace]; rfl
  cases h with
  | unborn hmain hwork hbusy =>
    have hbusy := hbusy i
    rw [hplace] at hbusy
    cases hbusy
  | queued hmain hlines hwork hpushes hbusy =>
    rw [hpushes] at hpush
    cases hpush
  | held j hmain hlines hwork hts hpushes =>
    obtain rfl := (hpushes i).mp hpush
    refine .queued hmain hlines ?_ (fun j => ?_) fun hne => absurd hts hne
    · show s.work ++ [none] = _
      rw [hwork, hts]
      rfl
    · show ((s.move i .finished).place j).pushes = false
      by_cases hj : j = i
      · rw [hj, State.move_self]
        rfl
      · rw [State.move_ne _ hj, Bool.eq_false_iff, Ne, hpushes]
        exact hj

/-- What a thread reports is what a search of the whole space finds. -/
theorem Pool.result (h : Pool U all s) {raw : Str} {count : ℕ} {password : Option Str}
    (hplace : s.place i = .crack t raw k) (hcrack : (password, count) = crack U t) :
    Pool U all (s.result i t password count) := by
  obtain ⟨⟨ts, hnull, hall⟩, htasks, hsearching, hreports, hcounts⟩ := h
  refine ⟨⟨ts, hnull.frame Iff.rfl rfl rfl ?_ ?_, hall⟩, ?_, ?_, fun r hr => ?_,
    hcounts.result ?_ ..⟩
  · exact view_move Place.busy (by rw [hplace]; rfl)
  · exact view_move Place.pushes (by rw [hplace]; rfl)
  · have hsum : ∑ j, ((s.move i .queue_pull).place j).tasks + {t} =
        ∑ j, (s.place j).tasks + 0 := sum_move Place.tasks hplace .queue_pull
    show ((s.reports ++ [_]).map Report.task : Multiset Task) +
      ∑ j, ((s.move i .queue_pull).place j).tasks = s.started
    rw [← htasks, ← add_zero (∑ j, (s.place j).tasks), ← hsum, List.map_append,
      ← Multiset.coe_add, add_right_comm, add_assoc]
    rfl
  · exact searching_move hsearching trivial
  · rw [State.result_reports, List.mem_append, List.mem_singleton] at hr
    obtain hr | rfl := hr
    · exact hreports r hr
    · exact ⟨hcrack, rfl⟩
  · rw [hplace]
    exact Place.noConfusion

theorem Pool.searches (h : Pool U all s) (hU : Documented U)
    (hshort : ∀ t ∈ all, t.pwd.length ≤ 8) (hincremented : Increments incremented)
    (hstep : Searches U incremented s i s') : Pool U all s' := by
  have ⟨⟨ts, hnull, hall⟩, htasks, hsearching, hreports, hcounts⟩ := h
  cases hstep with
  | pull t work hplace hwork =>
    obtain ⟨ts', rfl, hnull'⟩ := hnull.pull hwork (raw U t)
    have hmem : t ∈ all := by
      rw [← hall]
      exact List.mem_append_left _ (List.mem_append_right _ List.mem_cons_self)
    have hpos : 0 < 26 ^ U.unknown t := Nat.pow_pos (by decide)
    refine ⟨⟨ts', hnull', ?_⟩, ?_, ?_, hreports,
      ((hcounts.move ?_ _).setWork work).begin_task t⟩
    · rw [← hall, List.append_cons s.started]
      rfl
    · have hsum : ∑ j, ((s.move i (.crack t (raw U t) 0)).place j).tasks + 0 =
          ∑ j, (s.place j).tasks + {t} := sum_move Place.tasks hplace _
      rw [add_zero] at hsum
      show _ + ∑ j, ((s.move i (.crack t (raw U t) 0)).place j).tasks =
        ((s.started ++ [t] : List Task) : Multiset Task)
      rw [← Multiset.coe_add, ← htasks, hsum, add_assoc]
      rfl
    · exact searching_move hsearching ⟨hmem, hpos, raw_eq, nofun⟩
    · rw [hplace]
      exact Place.noConfusion
  | pull_null work hplace hwork =>
    refine ⟨⟨ts, hnull.pull_null hwork, hall⟩, ?_, ?_, hreports,
      (hcounts.move ?_ _).setWork work⟩
    · have hsum : ∑ j, ((s.move i .queue_push).place j).tasks + 0 =
          ∑ j, (s.place j).tasks + 0 := sum_move Place.tasks hplace _
      show (s.reports.map Report.task : Multiset Task) +
        ∑ j, ((s.move i .queue_push).place j).tasks = s.started
      rw [add_right_cancel hsum, htasks]
    · exact searching_move hsearching trivial
    · rw [hplace]
      exact Place.noConfusion
  | hit t raw count hplace hhit =>
    have hsearch := hsearching i
    rw [hplace] at hsearch
    obtain ⟨-, hlt, rfl, hmissed⟩ := hsearch
    exact h.result hplace (crack_of_hit hmissed hlt hhit).symm
  | next t raw count hplace hmiss hlast =>
    have hsearch := hsearching i
    rw [hplace] at hsearch
    obtain ⟨hmem, hlt, rfl, hmissed⟩ := hsearch
    have hnext := (ne_last_iff hlt).mp hlast
    rw [incrementString_eq hU (hshort t hmem) hnext]
    refine ⟨⟨ts, hnull.frame Iff.rfl rfl rfl ?_ ?_, hall⟩, ?_, ?_, hreports, hcounts.move ?_ _⟩
    · exact view_move Place.busy (by rw [hplace]; rfl)
    · exact view_move Place.pushes (by rw [hplace]; rfl)
    · have hsum := sum_move Place.tasks hplace (.crack t (U.candidate t (count + 1)) (count + 1))
      show (s.reports.map Report.task : Multiset Task) + ∑ j, ((s.move i _).place j).tasks =
        s.started
      rw [add_right_cancel hsum, htasks]
    · exact searching_move hsearching ⟨hmem, hnext, rfl, missed_succ hmissed hmiss⟩
    · rw [hplace]
      exact Place.noConfusion
  | miss t raw count hplace hmiss hend =>
    have hsearch := hsearching i
    rw [hplace] at hsearch
    obtain ⟨hmem, hlt, rfl, hmissed⟩ := hsearch
    have hlast : count + 1 = 26 ^ U.unknown t := by
      by_contra hne
      have hnext : count + 1 < 26 ^ U.unknown t := by omega
      have hfalse := hend ((ne_last_iff hlt).mpr hnext)
      have htrue := increments_candidate hU hincremented (hshort t hmem) hnext
      rw [hfalse] at htrue
      cases htrue
    refine h.result hplace ?_
    rw [crack_of_miss (hlast ▸ missed_succ hmissed hmiss), hlast]
  | push hplace =>
    refine ⟨⟨ts, hnull.push hplace, hall⟩, ?_, ?_, hreports,
      (hcounts.move ?_ _).setWork _⟩
    · have hsum : ∑ j, ((s.move i .finished).place j).tasks + 0 =
          ∑ j, (s.place j).tasks + 0 := sum_move Place.tasks hplace _
      show (s.reports.map Report.task : Multiset Task) +
        ∑ j, ((s.move i .finished).place j).tasks = s.started
      rw [add_right_cancel hsum, htasks]
    · exact searching_move hsearching trivial
    · rw [hplace]
      exact Place.noConfusion

/-- The null pointer is pushed for the first time. -/
theorem Null.eof (h : Null s ts) (hmain : s.main = .getline) (hlines : s.lines = []) :
    Null { s with main := .pthread_join 0, work := s.work ++ [none] } ts := by
  cases h with
  | unborn _ hwork hbusy =>
    refine .queued nofun hlines (by rw [hwork]) (fun i => ?_) fun _ => hbusy
    have hbusy := hbusy i
    cases hplace : s.place i with
    | queue_push =>
      rw [hplace] at hbusy
      cases hbusy
    | _ => rfl
  | queued hmain' => exact absurd hmain hmain'
  | held _ hmain' => exact absurd hmain hmain'

/-- A task is pushed. -/
theorem Null.line {lines : List Str} (h : Null s ts) (hmain : s.main = .getline) (t : Task) :
    Null { s with lines := lines, work := s.work ++ [some t] } (ts ++ [t]) := by
  cases h with
  | unborn _ hwork hbusy => exact .unborn hmain (by rw [hwork, List.map_append]; rfl) hbusy
  | queued hmain' => exact absurd hmain hmain'
  | held _ hmain' => exact absurd hmain hmain'

theorem Pool.manages (h : Pool U all s) (hstep : Manages s s') : Pool U all s' := by
  obtain ⟨⟨ts, hnull, hall⟩, htasks, hsearching, hreports, hcounts⟩ := h
  cases hstep with
  | line t line lines hmain hlines ht =>
    refine ⟨⟨ts ++ [t], hnull.line hmain t, ?_⟩, htasks, hsearching, hreports, ?_⟩
    · rw [← hall, hlines, List.filterMap_cons, ht]
      simp only [List.append_assoc, List.cons_append, List.nil_append]
    · obtain ⟨hsuccess, hfail, hle, hfin, hns, hnf, hsummary⟩ := hcounts
      exact ⟨hsuccess, hfail, hle, hfin, hns, hnf, hsummary⟩
  | eof hmain hlines =>
    refine ⟨⟨ts, hnull.eof hmain hlines, hall⟩, htasks, hsearching, hreports, ?_⟩
    obtain ⟨hsuccess, hfail, hle, hfin, hns, hnf, hsummary⟩ := hcounts
    rw [hmain] at hle hfin hns hnf
    exact ⟨hsuccess, hfail, hle, hfin, hns, hnf, nofun⟩
  | join i hmain hplace =>
    refine ⟨⟨ts, hnull.frame ?_ rfl rfl (fun _ => rfl) fun _ => rfl, hall⟩, htasks, hsearching,
      hreports, hcounts.join hmain hplace⟩
    rw [hmain]
    exact iff_of_false nofun nofun
  | summary i hmain hi =>
    refine ⟨⟨ts, hnull.frame ?_ rfl rfl (fun _ => rfl) fun _ => rfl, hall⟩, htasks, hsearching,
      hreports, ?_⟩
    · rw [hmain]
      exact iff_of_false nofun nofun
    · obtain ⟨hsuccess, hfail, hle, hfin, hns, hnf, hsummary⟩ := hcounts
      rw [hmain] at hle hfin hns hnf
      obtain rfl : i = n := Nat.le_antisymm hle hi
      exact ⟨hsuccess, hfail, le_rfl, hfin, hns, hnf, fun _ => rfl⟩

theorem parse_line_short {line : Str} (h : parse_line line = some t) : t.pwd.length ≤ 8 := by
  simp only [parse_line, Option.bind_eq_bind, Option.bind_eq_some_iff,
    Option.ite_none_right_eq_some] at h
  obtain ⟨_, _, _, _, _, _, ⟨-, -, hlt⟩, ht⟩ := h
  obtain rfl := Option.some.inj ht
  exact Nat.le_of_lt_succ hlt

/-- The invariant holds in every state of every run. -/
theorem pool_of_reach {lines : List Str} (hU : Documented U) (hincremented : Increments incremented)
    (hr : (system U incremented n lines).Reach (fun _ _ => True) s) :
    Pool U (lines.filterMap parse_line) s := by
  have hshort : ∀ t ∈ lines.filterMap parse_line, t.pwd.length ≤ 8 := by
    intro t ht
    obtain ⟨line, -, hline⟩ := List.mem_filterMap.mp ht
    exact parse_line_short hline
  refine hr.invariant ?_ fun s e s' h _ hstep => ?_
  · rintro s rfl
    exact pool_initial n lines
  · cases e with
    | none => exact h.manages (manages_of_step hstep)
    | some i => exact h.searches hU hshort hincremented (searches_of_step hstep)

/-! ### The results -/

theorem Pool.started_prefix (h : Pool U all s) : s.started <+: all := by
  obtain ⟨ts, -, hall⟩ := h.null
  exact ⟨ts ++ s.lines.filterMap parse_line, by rw [← List.append_assoc, hall]⟩

/-- When the main thread has ended, so have the others, and all tasks have been reported. -/
theorem Pool.reported (h : Pool U all s) (hn : 0 < n) (hmain : s.main = .finished) :
    (s.reports.map Report.task).Perm all := by
  obtain ⟨⟨ts, hnull, hall⟩, htasks, -, -, hcounts⟩ := h
  have hfin : ∀ i, s.place i = .finished :=
    fun i => hcounts.joined i (by rw [hmain]; exact i.isLt)
  have hbusy : (s.place ⟨0, hn⟩).busy = false := by rw [hfin]; rfl
  have hrest : ts = [] ∧ s.lines = [] := by
    cases hnull with
    | unborn hmain' =>
      rw [hmain] at hmain'
      cases hmain'
    | queued _ hlines _ _ hbusy' =>
      refine ⟨by_contra fun hne => ?_, hlines⟩
      rw [hbusy' hne] at hbusy
      cases hbusy
    | held _ _ hlines _ hts => exact ⟨hts, hlines⟩
  have hnone : ∑ i, (s.place i).tasks = 0 := Finset.sum_eq_zero fun i _ => by rw [hfin]; rfl
  rw [hrest.1, hrest.2, List.filterMap_nil, List.append_nil, List.append_nil] at hall
  rw [hnone, add_zero, hall] at htasks
  exact Multiset.coe_eq_coe.mp htasks

/-- The numbers that are printed at last. -/
theorem Pool.summary (h : Pool U all s) (hn : 0 < n) (hmain : s.main = .finished) :
    s.summary = some (all.countP fun t => (crack U t).1 ≠ none,
      all.countP fun t => (crack U t).1 = none) := by
  have hperm := h.reported hn hmain
  have hcrack : ∀ r ∈ s.reports, r.password = (crack U r.task).1 :=
    fun r hr => congrArg Prod.fst (h.reports r hr).1
  have hlt : ∀ r ∈ s.reports, r.thread.val < s.main.joined n :=
    fun r _ => by rw [hmain]; exact r.thread.isLt
  rw [h.counts.summary hmain, h.counts.num_success, h.counts.num_fail, ← hperm.countP_eq,
    ← hperm.countP_eq, List.countP_map, List.countP_map]
  congr 2 <;> refine List.countP_congr fun r hr => ?_ <;> simp [hlt r hr, hcrack r hr]

end SystemProgramming.PasswordCracker.Cracker1

