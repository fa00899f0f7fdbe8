import SystemProgramming.PasswordCracker.Completeness
import SystemProgramming.PasswordCracker.Pool

namespace SystemProgramming.PasswordCracker.Cracker1

open Lib

/-!
# All search threads end

The one null pointer ends all threads, since each pushes it again; the main thread, which joins them
in order, ends as well.  The numbers must be in the range of `int`.

* `Place.weight`, `Main.rank` — what is left to do.
* `Pool.progress`, `weight_lt`, `rank_lt` — no deadlock, and no endless run.
* `pool_completes` — every run ends with the results.
-/

variable {U : Utils} {incremented : Str → Bool} {n : ℕ} {s s' : State n} {i : Fin n} {t : Task}
  {k : ℕ} {all : List Task}

/-! ### The numbers are in range -/

/-- `int` has room for the numbers of the tasks and of the strings. -/
structure Fits (U : Utils) (all : List Task) : Prop where
  tasks : all.length < 2 ^ 31
  space : ∀ t ∈ all, 26 ^ U.unknown t < 2 ^ 31

/-- The task of a thread has not been reported yet. -/
theorem Pool.reports_lt (h : Pool U all s) {raw : Str} (hplace : s.place i = .crack t raw k) :
    s.reports.length < all.length := by
  have hcard := congrArg Multiset.card h.tasks
  have hsum : (∑ j, (s.place j).tasks).card = ∑ j, (s.place j).tasks.card :=
    map_sum Multiset.cardHom _ _
  have hone : (s.place i).tasks.card ≤ ∑ j, (s.place j).tasks.card :=
    Finset.single_le_sum (f := fun j => (s.place j).tasks.card) (fun j _ => Nat.zero_le _)
      (Finset.mem_univ i)
  rw [hplace] at hone
  have htask : (Place.crack t raw k).tasks.card = 1 := rfl
  have hle := h.started_prefix.length_le
  rw [Multiset.card_add, hsum, Multiset.coe_card, List.length_map, Multiset.coe_card] at hcard
  omega

theorem Pool.success_le (h : Pool U all s) (i : Fin n) :
    (s.threads i).success ≤ s.reports.length := by
  rw [h.counts.success]
  exact List.countP_le_length

theorem Pool.fail_le (h : Pool U all s) (i : Fin n) :
    (s.threads i).fail ≤ s.reports.length := by
  rw [h.counts.fail]
  exact List.countP_le_length

theorem Pool.reports_le (h : Pool U all s) : s.reports.length ≤ all.length := by
  have hcard := congrArg Multiset.card h.tasks
  have hle := h.started_prefix.length_le
  rw [Multiset.card_add, Multiset.coe_card, List.length_map, Multiset.coe_card] at hcard
  omega

/-! ### No deadlock -/

/-- A thread that searches can go on. -/
theorem Pool.crack_step (h : Pool U all s) (hfits : Fits U all) {raw : Str}
    (hplace : s.place i = .crack t raw k) : ∃ s', start_routine U incremented s i = some s' := by
  have hlt := h.reports_lt hplace
  have hsuccess := h.success_le i
  have hfail := h.fail_le i
  have htasks := hfits.tasks
  have hsearch := h.searching i
  rw [hplace] at hsearch
  obtain ⟨hmem, hk, -⟩ := hsearch
  have hspace := hfits.space t hmem
  have hcount : k + 1 < 2 ^ 31 := by omega
  have hs : (s.threads i).success + 1 < 2 ^ 31 := by omega
  have hf : (s.threads i).fail + 1 < 2 ^ 31 := by omega
  simp only [start_routine, hplace, hcount, hs, hf, if_true]
  split_ifs <;> exact ⟨_, rfl⟩

/-- While a thread has not ended, some thread can go on. -/
theorem Pool.thread_step (h : Pool U all s) (hfits : Fits U all) (hmain : s.main ≠ .getline)
    (hplace : s.place i ≠ .finished) : ∃ j s', start_routine U incremented s j = some s' := by
  have hpush : ∀ j, s.place j = .queue_push → ∃ s', start_routine U incremented s j = some s' :=
    fun j hj => ⟨_, by rw [start_routine, hj]⟩
  cases hi : s.place i with
  | finished => exact absurd hi hplace
  | queue_push => exact ⟨i, hpush i hi⟩
  | crack t raw k => exact ⟨i, h.crack_step hfits hi⟩
  | queue_pull =>
    obtain ⟨ts, hnull, -⟩ := h.null
    cases hnull with
    | unborn hmain' => exact absurd hmain' hmain
    | queued _ _ hwork =>
      refine ⟨i, ?_⟩
      cases ts with
      | nil => exact ⟨_, by rw [start_routine, hi, hwork, List.map_nil, List.nil_append]⟩
      | cons t ts => exact ⟨_, by rw [start_routine, hi, hwork, List.map_cons, List.cons_append]⟩
    | held j _ _ _ _ hpushes =>
      -- the queue is empty, and this thread will push
      have hj : (s.place j).pushes = true := (hpushes j).mpr rfl
      refine ⟨j, hpush j ?_⟩
      cases hplace' : s.place j with
      | queue_push => rfl
      | _ =>
        rw [hplace'] at hj
        cases hj

/-- The sum of the numbers of the threads joined is in range. -/
theorem Pool.joined_le (h : Pool U all s) (hmain : s.main = .pthread_join i) :
    s.num_success + (s.threads i).success ≤ all.length ∧
      s.num_fail + (s.threads i).fail ≤ all.length := by
  have hns := h.counts.num_success
  have hnf := h.counts.num_fail
  rw [hmain] at hns hnf
  rw [hns, hnf, h.counts.success, h.counts.fail]
  refine ⟨le_trans ?_ h.reports_le, le_trans ?_ h.reports_le⟩
  · exact (countP_joined s.reports i fun r => r.password ≠ none).symm.trans_le
      List.countP_le_length
  · exact (countP_joined s.reports i fun r => r.password = none).symm.trans_le
      List.countP_le_length

/-- **No deadlock**: until the main thread has ended, some thread can go on. -/
theorem Pool.progress {lines : List Str} (h : Pool U all s) (hfits : Fits U all)
    (hlines : ∀ line ∈ s.lines, ∃ t, parse_line line = some t) (hmain : s.main ≠ .finished) :
    ∃ e s', (system U incremented n lines).step s e = some s' := by
  cases hm : s.main with
  | finished => exact absurd hm hmain
  | getline =>
    refine ⟨none, Option.isSome_iff_exists.mp ?_⟩
    cases hl : s.lines with
    | nil => simp only [system, start, hm, hl, Option.isSome_some]
    | cons line lines =>
      obtain ⟨t, ht⟩ := hlines line (hl ▸ List.mem_cons_self)
      simp only [system, start, hm, hl, ht, Option.map_some, Option.isSome_some]
  | pthread_join i =>
    by_cases hi : i < n
    · cases hplace : s.place ⟨i, hi⟩ with
      | finished =>
        have hle := h.joined_le (i := ⟨i, hi⟩) hm
        have htasks := hfits.tasks
        have hs : s.num_success + (s.threads ⟨i, hi⟩).success < 2 ^ 31 := by omega
        have hf : s.num_fail + (s.threads ⟨i, hi⟩).fail < 2 ^ 31 := by omega
        refine ⟨none, Option.isSome_iff_exists.mp ?_⟩
        simp only [system, start, hm, hi, hplace, hs, hf, dif_pos, and_self, if_true,
          Option.isSome_some]
      | _ =>
        have hne : s.place ⟨i, hi⟩ ≠ .finished := by rw [hplace]; exact Place.noConfusion
        obtain ⟨j, s', hstep⟩ := h.thread_step hfits (by rw [hm]; exact Main.noConfusion) hne
        exact ⟨some j, s', hstep⟩
    · refine ⟨none, Option.isSome_iff_exists.mp ?_⟩
      simp only [system, start, hm, hi, dif_neg, not_false_eq_true, Option.isSome_some]

/-! ### No endless run -/

namespace Place

/-- What a thread has left to do, if no task comes. -/
def weight (U : Utils) : Place → ℕ
  | queue_pull => 3
  | crack t _ k => 4 + (26 ^ U.unknown t - k)
  | queue_push => 2
  | finished => 0

end Place

/-- What there is to do about an entry of the queue. -/
def cost (U : Utils) : Option Task → ℕ
  | none => 1
  | some t => 26 ^ U.unknown t + 2

/-- How many steps the main thread has left. -/
def Main.rank (n lines : ℕ) : Main → ℕ
  | getline => lines + n + 3
  | pthread_join i => n + 1 - i + 1
  | finished => 0

/-- What the threads have left to do. -/
def State.weight (U : Utils) (s : State n) : ℕ :=
  (s.work.map (cost U)).sum + ∑ j, (s.place j).weight U

/-- **Each step of a search thread** leaves less to do. -/
theorem weight_lt (h : Pool U all s) (hstep : Searches U incremented s i s') :
    s'.weight U < s.weight U := by
  have hmove : ∀ {u : Place}, s.place i = u → ∀ v, ∑ j, ((s.move i v).place j).weight U +
      u.weight U = ∑ j, (s.place j).weight U + v.weight U := sum_move (Place.weight U)
  have hsearch := h.searching i
  cases hstep with
  | pull t work hplace hwork =>
    have hsum := hmove hplace (.crack t (raw U t) 0)
    show (work.map (cost U)).sum + ∑ j, ((s.move i _).place j).weight U < s.weight U
    rw [State.weight, hwork, List.map_cons, List.sum_cons, cost]
    simp only [Place.weight, Nat.sub_zero] at hsum ⊢
    generalize 26 ^ U.unknown t = size at hsum ⊢
    omega
  | pull_null work hplace hwork =>
    have hsum := hmove hplace .queue_push
    show (work.map (cost U)).sum + ∑ j, ((s.move i _).place j).weight U < s.weight U
    rw [State.weight, hwork, List.map_cons, List.sum_cons, cost]
    simp only [Place.weight] at hsum ⊢
    omega
  | hit t raw count hplace | miss t raw count hplace =>
    have hsum := hmove hplace .queue_pull
    show (s.work.map (cost U)).sum + ∑ j, ((s.move i .queue_pull).place j).weight U < s.weight U
    rw [State.weight]
    simp only [Place.weight] at hsum ⊢
    omega
  | next t raw count hplace =>
    rw [hplace] at hsearch
    obtain ⟨-, hlt, -⟩ := hsearch
    have hsum := hmove hplace (.crack t (U.incrementString raw) (count + 1))
    show (s.work.map (cost U)).sum + ∑ j, ((s.move i _).place j).weight U < s.weight U
    rw [State.weight]
    simp only [Place.weight] at hsum ⊢
    omega
  | push hplace =>
    have hsum := hmove hplace .finished
    show ((s.work ++ [none]).map (cost U)).sum + ∑ j, ((s.move i _).place j).weight U < s.weight U
    rw [State.weight, List.map_append, List.sum_append, List.map_singleton, List.sum_singleton,
      cost]
    simp only [Place.weight] at hsum ⊢
    omega

/-- **Each step of the main thread** leaves it fewer. -/
theorem rank_lt (hstep : Manages s s') :
    s'.main.rank n s'.lines.length < s.main.rank n s.lines.length := by
  cases hstep with
  | line t line lines hmain hlines =>
    simp only [hmain, hlines, Main.rank, List.length_cons]
    omega
  | eof hmain hlines =>
    simp only [hmain, Main.rank]
    omega
  | join i hmain =>
    have hi := i.isLt
    simp only [hmain, Main.rank]
    omega
  | summary i hmain =>
    simp only [hmain, Main.rank]
    omega

/-- The lines that are not read are lines of the file. -/
theorem manages_lines (hstep : Manages s s') : ∀ line ∈ s'.lines, line ∈ s.lines := by
  cases hstep with
  | line t line lines hmain hlines =>
    intro l hl
    rw [hlines]
    exact List.mem_cons_of_mem _ hl
  | _ => exact fun l hl => hl

/-- A search thread leaves the main thread as it is. -/
theorem searches_main (hstep : Searches U incremented s i s') :
    s'.main = s.main ∧ s'.lines = s.lines := by
  cases hstep <;> exact ⟨rfl, rfl⟩

theorem lines_of_reach {lines : List Str}
    (hr : (system U incremented n lines).Reach (fun _ _ => True) s) :
    ∀ line ∈ s.lines, line ∈ lines := by
  refine hr.invariant (I := fun s => ∀ line ∈ s.lines, line ∈ lines) ?_ fun s e s' h _ hstep => ?_
  · rintro s rfl line hline
    exact hline
  · cases e with
    | none => exact fun l hl => h l (manages_lines (manages_of_step hstep) l hl)
    | some i => rwa [(searches_main (searches_of_step hstep)).2]

/-- **Every run ends with the results**: no run goes on for ever, and a run that cannot go on has
    come to its end, with each task reported as a search of the whole space in order finds it, and
    the numbers of both kinds of reports printed. -/
theorem pool_completes {lines : List Str} (hn : 0 < n) (hU : Documented U)
    (hincremented : Increments incremented)
    (hlines : ∀ line ∈ lines, ∃ t, parse_line line = some t)
    (hfits : Fits U (lines.filterMap parse_line)) :
    (WellFounded fun s' s => (system U incremented n lines).Reach (fun _ _ => True) s ∧
      ∃ e, True ∧ (system U incremented n lines).step s e = some s') ∧
    ∀ s, (system U incremented n lines).Reach (fun _ _ => True) s →
      (∃ e s', (system U incremented n lines).step s e = some s') ∨
      s.main = .finished ∧ (∀ i, s.place i = .finished) ∧
        (s.reports.map fun r => (r.task, r.password, r.count)).Perm
          ((lines.filterMap parse_line).map fun t => (t, crack U t)) ∧
        s.summary = some ((lines.filterMap parse_line).countP fun t => (crack U t).1 ≠ none,
          (lines.filterMap parse_line).countP fun t => (crack U t).1 = none) := by
  refine ⟨Lts.wellFounded_of_lex (fun s => s.main.rank n s.lines.length) (State.weight U) ?_,
    fun s hr => ?_⟩
  · intro s e s' hr _ hstep
    have h := pool_of_reach hU hincremented hr
    cases e with
    | none => exact .inl (rank_lt (manages_of_step hstep))
    | some i =>
      have hstep := searches_of_step hstep
      obtain ⟨hmain, hlines⟩ := searches_main hstep
      exact .inr ⟨by rw [hmain, hlines], weight_lt h hstep⟩
  · have h := pool_of_reach hU hincremented hr
    by_cases hmain : s.main = .finished
    · refine .inr ⟨hmain, fun i => h.counts.joined i ?_, ?_, h.summary hn hmain⟩
      · rw [hmain]
        exact i.isLt
      · have hperm := (h.reported hn hmain).map fun t => (t, crack U t)
        rw [List.map_map] at hperm
        refine (List.map_congr_left fun r hr => ?_).symm ▸ hperm
        exact congrArg (Prod.mk r.task) (h.reports r hr).1
    · exact .inl (h.progress hfits (fun l hl => hlines l (lines_of_reach hr l hl)) hmain)

/-! ### A run -/

/-- Whether some letter is not the last. -/
def carries (s : Str) : Bool := s.any (· ≠ 122)

theorem carries_increments : Increments carries := by
  intro s u k _ hk
  have hne : combination u k ≠ List.replicate u 122 := by
    rw [← combination_last]
    intro heq
    have hlast := combination_inj (Nat.lt_of_succ_lt hk) (by omega) heq
    omega
  by_contra hall
  refine hne (List.eq_replicate_iff.mpr ⟨length_combination u k, fun c hc => ?_⟩)
  by_contra hc'
  exact hall (List.any_eq_true.mpr ⟨c, List.mem_append_right s hc, decide_eq_true hc'⟩)

/-- The line `"u b ."`, and its task. -/
def line : Str := [117, 32, 98, 32, 46, 10]

theorem parse_line_line : parse_line line = some ⟨[117], [98], [46]⟩ := by decide +kernel

theorem fits_line : Fits plain ([line].filterMap parse_line) := by
  rw [List.filterMap_cons, parse_line_line]
  exact ⟨by decide, fun t ht => List.mem_singleton.mp ht ▸ by decide +kernel⟩

theorem pool_completes_line :
    WellFounded fun s' s => (system plain carries 1 [line]).Reach (fun _ _ => True) s ∧
      ∃ e, True ∧ (system plain carries 1 [line]).step s e = some s' := by
  refine (pool_completes Nat.one_pos plain_documented carries_increments ?_ fits_line).1
  intro l hl
  exact ⟨_, List.mem_singleton.mp hl ▸ parse_line_line⟩

end SystemProgramming.PasswordCracker.Cracker1
