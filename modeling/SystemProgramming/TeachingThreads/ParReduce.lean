import Mathlib.Data.List.Perm.Basic
import Mathlib.Data.List.Range
import Mathlib.Data.Nat.Basic
import Mathlib.Tactic.Ring

namespace SystemProgramming.TeachingThreads

/-!
# `par_reduce.c` — a reduction by several threads

The shared counter that the threads take their part numbers from is not modelled: a call of
`par_reduce` gets the numbers, in the order in which the threads were created.  `reduce` is a
function of another file.

* `myfunc`, `par_reduce` — the code.
* `existsUnique_part` — each element lies in one part.
* `par_reduce_eq_reduce` — the result does not depend on the threads.
-/

abbrev reducer (α : Type*) := α → α → α

structure reduce_task (α : Type*) where
  tnum : ℕ
  reduce_func : reducer α
  basecase : α
  lst : List α
  len : ℕ

variable {α : Type*}

/-- `skip` of `myfunc`. -/
def skip (len tnum : ℕ) : ℕ := len / tnum

/-- `len` of `myfunc`: the last part has the rest. -/
def part_len (len tnum tp : ℕ) : ℕ :=
  if tp = tnum - 1 then len - skip len tnum * (tnum - 1) else skip len tnum

/-- `myfunc`, in the thread with part number `tp`. -/
def myfunc (reduce : List α → reducer α → α → α) (p : reduce_task α) (tp : ℕ) : α :=
  reduce ((p.lst.drop (tp * skip p.len p.tnum)).take (part_len p.len p.tnum tp)) p.reduce_func
    p.basecase

def par_reduce [Zero α] (reduce : List α → reducer α → α → α) (list : List α)
    (reduce_func : reducer α) (base_case : α) (num_threads : ℕ) (parts : List ℕ) : α :=
  if list.length = 0 then 0
  else if list.length ≤ num_threads then reduce list reduce_func base_case
  else
    let task : reduce_task α :=
      { tnum := num_threads, reduce_func, basecase := base_case, lst := list, len := list.length }
    let ret := parts.map (myfunc reduce task)
    reduce ret reduce_func base_case

/-! ### The parts -/

variable {len n k tp : ℕ}

theorem skip_mul_le (len n : ℕ) : skip len n * n ≤ len := Nat.div_mul_le_self len n

/-- A part ends where the next one begins, and the last one at the end of the list. -/
theorem part_end :
    tp * skip len n + part_len len n tp = if tp = n - 1 then len else (tp + 1) * skip len n := by
  rw [part_len]
  split
  · rename_i h
    have hle : skip len n * (n - 1) ≤ len :=
      (Nat.mul_le_mul_left _ (Nat.sub_le n 1)).trans (skip_mul_le len n)
    rw [h, Nat.mul_comm, Nat.add_sub_cancel' hle]
  · rw [Nat.succ_mul]

/-- No part goes beyond the list. -/
theorem part_end_le (htp : tp < n) : tp * skip len n + part_len len n tp ≤ len := by
  rw [part_end]
  split
  · exact le_rfl
  · calc (tp + 1) * skip len n ≤ n * skip len n := Nat.mul_le_mul_right _ htp
      _ = skip len n * n := Nat.mul_comm _ _
      _ ≤ len := skip_mul_le len n

/-- **The parts** cover the list, and no two of them have an element in common. -/
theorem existsUnique_part (hn : 1 ≤ n) (hk : k < len) :
    ∃! tp, tp < n ∧ tp * skip len n ≤ k ∧ k < tp * skip len n + part_len len n tp := by
  rcases Nat.lt_or_ge k ((n - 1) * skip len n) with hlt | hge
  · -- the position is in one of the parts of equal length
    have hpos : 0 < skip len n := Nat.pos_of_ne_zero fun h => by simp [h] at hlt
    have hpart : k / skip len n < n - 1 := Nat.div_lt_of_lt_mul (Nat.mul_comm _ _ ▸ hlt)
    refine ⟨k / skip len n, ⟨by omega, Nat.div_mul_le_self k _, ?_⟩, ?_⟩
    · rw [part_end, if_neg (by omega), Nat.mul_comm]
      exact Nat.lt_mul_div_succ k hpos
    · rintro tp ⟨htp, hle, hend⟩
      have hne : tp ≠ n - 1 := fun h => by
        rw [h] at hle
        omega
      rw [part_end, if_neg hne] at hend
      exact (Nat.div_eq_of_lt_le hle hend).symm
  · refine ⟨n - 1, ⟨by omega, hge, ?_⟩, ?_⟩
    · rw [part_end, if_pos rfl]
      exact hk
    · rintro tp ⟨htp, hle, hend⟩
      by_contra hne
      rw [part_end, if_neg hne] at hend
      have hmono : (tp + 1) * skip len n ≤ (n - 1) * skip len n :=
        Nat.mul_le_mul_right _ (by omega)
      omega

/-- The first `k` parts, one behind the other. -/
theorem flatten_parts (l : List α) (hk : k < n) :
    ((List.range k).map (fun tp =>
      (l.drop (tp * skip l.length n)).take (part_len l.length n tp))).flatten =
      l.take (k * skip l.length n) := by
  induction k with
  | zero => simp
  | succ k ih =>
    rw [List.range_succ, List.map_append, List.flatten_append, ih (by omega), List.map_singleton,
      List.flatten_singleton, part_len, if_neg (by omega), Nat.succ_mul, List.take_add]

theorem flatten_all_parts (l : List α) (hn : 1 ≤ n) :
    ((List.range n).map (fun tp =>
      (l.drop (tp * skip l.length n)).take (part_len l.length n tp))).flatten = l := by
  obtain ⟨k, rfl⟩ := Nat.exists_eq_add_of_le' hn
  rw [List.range_succ, List.map_append, List.flatten_append, flatten_parts l (Nat.lt_succ_self k),
    List.map_singleton, List.flatten_singleton, part_len, if_pos (Nat.add_sub_cancel k 1).symm,
    Nat.add_sub_cancel]
  have hlast : (l.drop (k * skip l.length (k + 1))).take (l.length - skip l.length (k + 1) * k) =
      l.drop (k * skip l.length (k + 1)) :=
    List.take_of_length_le (by rw [List.length_drop, Nat.mul_comm])
  rw [hlast]
  exact List.take_append_drop _ l

/-! ### The results of the parts -/

variable {f : reducer α} {b : α}

theorem foldl_append_eq (hassoc : ∀ x y z, f (f x y) z = f x (f y z))
    (hid : ∀ x, f x b = x) (l r : List α) :
    (l ++ r).foldl f b = f (l.foldl f b) (r.foldl f b) := by
  rw [List.foldl_append]
  induction r using List.reverseRecOn with
  | nil => exact (hid _).symm
  | append_singleton r x ih =>
    rw [List.foldl_concat, List.foldl_concat, ih, hassoc]

/-- Folding the folds of the pieces is folding the whole. -/
theorem foldl_map_foldl (hassoc : ∀ x y z, f (f x y) z = f x (f y z))
    (hid : ∀ x, f x b = x) (ls : List (List α)) :
    (ls.map (·.foldl f b)).foldl f b = ls.flatten.foldl f b := by
  induction ls using List.reverseRecOn with
  | nil => rfl
  | append_singleton ls l ih =>
    rw [List.map_append, List.map_singleton, List.foldl_concat, ih, List.flatten_append,
      List.flatten_singleton, foldl_append_eq hassoc hid]

/-- **Parallel is sequential.**  With an associative and commutative function and its identity,
    `par_reduce` returns what `reduce` makes of the list, whatever part each thread takes; and
    the parts split every list. -/
theorem par_reduce_eq_reduce [Zero α] {reduce : List α → reducer α → α → α} {list : List α}
    {parts : List ℕ} (hreduce : ∀ l f b, reduce l f b = l.foldl f b)
    (hassoc : ∀ x y z, f (f x y) z = f x (f y z)) (hcomm : ∀ x y, f x y = f y x)
    (hid : ∀ x, f b x = x) (hlist : list ≠ []) (hn : 1 ≤ n)
    (hparts : parts.Perm (List.range n)) :
    par_reduce reduce list f b n parts = reduce list f b ∧
      ∀ len, (∀ tp < n, tp * skip len n + part_len len n tp ≤ len) ∧ ∀ k < len,
        ∃! tp, tp < n ∧ tp * skip len n ≤ k ∧ k < tp * skip len n + part_len len n tp := by
  refine ⟨?_, fun len => ⟨fun tp htp => part_end_le htp, fun k hk => existsUnique_part hn hk⟩⟩
  have hid' : ∀ x, f x b = x := fun x => by rw [hcomm, hid]
  obtain rfl : reduce = fun l f b => l.foldl f b := by
    funext l f b
    exact hreduce l f b
  rw [par_reduce, if_neg (by simpa using hlist)]
  split
  · rfl
  · -- the order in which the results are combined does not matter
    have : RightCommutative f := ⟨fun x y z => by rw [hassoc, hcomm y z, hassoc]⟩
    dsimp only
    rw [(hparts.map _).foldl_eq b]
    have hpieces := foldl_map_foldl hassoc hid' ((List.range n).map (fun tp =>
      (list.drop (tp * skip list.length n)).take (part_len list.length n tp)))
    rw [flatten_all_parts list hn, List.map_map] at hpieces
    exact hpieces

theorem par_reduce_eq_reduce_three :
    par_reduce (fun l f b => l.foldl f b) [1, 2, 3, 4, 5, 6, 7] (· + ·) (0 : Int32) 3 [2, 0, 1] =
      28 ∧ ∃! tp, tp < 3 ∧ tp * skip 7 3 ≤ 6 ∧ 6 < tp * skip 7 3 + part_len 7 3 tp := by
  have hsum : par_reduce (fun l f b => l.foldl f b) [1, 2, 3, 4, 5, 6, 7] (· + ·) (0 : Int32) 3
      [2, 0, 1] = _ ∧ _ := par_reduce_eq_reduce (fun _ _ _ => rfl) Int32.add_assoc Int32.add_comm
    Int32.zero_add (by decide) (by decide) (by decide)
  obtain ⟨h1, h2⟩ := hsum
  exact ⟨h1, (h2 7).2 6 (by decide)⟩

end SystemProgramming.TeachingThreads
