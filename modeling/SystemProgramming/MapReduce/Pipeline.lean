import Mathlib.Data.List.Dedup
import Mathlib.Data.List.Perm.Basic
import Mathlib.Data.List.Sort
import Mathlib.Data.Set.List
import SystemProgramming.MapReduce.Reducer

namespace SystemProgramming.MapReduce

open Lib

/-!
# Map-reduce is the sequential count

The file is split into portions, each read by a mapper, and the reducer reads the mappers' records
as they come.  What it prints is what counting the words of the file, one after another, gives.

* `word_counts`, `sequential` — the sequential count.
* `map_records` — what the mappers write.
* `map_reduce_sequential` — the result, for any number of mappers and any interleaving.
-/

/-- The order of `strcmp`. -/
def before (a b : Bytes) : Prop := (compare a b).isLE

instance : DecidableRel before := fun a b => inferInstanceAs (Decidable ((compare a b).isLE = true))

/-- Each word of the file once, in order, with the number of times it is there. -/
def word_counts (file : Bytes) : List (Bytes × ℕ) :=
  ((words file).dedup.insertionSort before).map fun word => (word, (words file).count word)

/-- The line `"word: n"`. -/
def count_line (entry : Bytes × ℕ) : Bytes :=
  entry.1 ++ [colon, space] ++ decimal entry.2 ++ [newline]

def sequential (file : Bytes) : Bytes := (word_counts file).flatMap count_line

/-- What each of `count` mappers writes. -/
def map_records (file : Bytes) (count : ℕ) : List (List Bytes) :=
  (List.range count).map fun i => run_mapper_on_fds (write_portion file file.length count i)

variable {file word : Bytes} {n : ℕ}

/-! ### The sequential count -/

instance : Std.Total before where
  total a b := by
    show (compare a b).isLE ∨ (compare b a).isLE
    have hswap : compare b a = (compare a b).swap := Std.OrientedCmp.eq_swap
    rw [hswap]
    cases compare a b <;> simp

instance : IsTrans Bytes before where
  trans _ _ _ := Std.TransCmp.isLE_trans

/-- One word, and so one line, comes strictly before another. -/
theorem word_counts_ordered (file : Bytes) :
    (word_counts file).Pairwise fun a b => compare a.1 b.1 = .lt := by
  rw [word_counts, List.pairwise_map]
  have hsorted := List.pairwise_insertionSort before (words file).dedup
  have hnodup : ((words file).dedup.insertionSort before).Nodup :=
    (List.perm_insertionSort before _).nodup_iff.mpr (List.nodup_dedup _)
  refine hsorted.imp₂ (fun a b hle hne => ?_) hnodup
  have hle : (compare a b).isLE := hle
  have hne : compare a b ≠ .eq := fun heq => hne (Std.compare_eq_iff_eq.mp heq)
  revert hle hne
  cases compare a b <;> simp

theorem mem_word_counts :
    (word, n) ∈ word_counts file ↔ word ∈ words file ∧ n = (words file).count word := by
  rw [word_counts, List.mem_map]
  constructor
  · rintro ⟨w, hw, heq⟩
    cases heq
    exact ⟨List.mem_dedup.mp ((List.mem_insertionSort before).mp hw), rfl⟩
  · rintro ⟨hw, rfl⟩
    exact ⟨word, (List.mem_insertionSort before).mpr (List.mem_dedup.mpr hw), rfl⟩

/-! ### What the reducer prints -/

/-- Entries in strict order are known by their members. -/
theorem entries_eq {l₁ l₂ : List (Bytes × Bytes)}
    (h₁ : l₁.Pairwise fun a b => compare a.1 b.1 = .lt)
    (h₂ : l₂.Pairwise fun a b => compare a.1 b.1 = .lt) (hmem : ∀ a, a ∈ l₁ ↔ a ∈ l₂) :
    l₁ = l₂ := by
  have hirrefl : ∀ a : Bytes, compare a a ≠ .lt := by
    intro a
    have hself : compare a a = .eq := Std.ReflCmp.compare_self
    rw [hself]
    decide
  have : Std.Irrefl fun a b : Bytes × Bytes => compare a.1 b.1 = .lt := ⟨fun a => hirrefl a.1⟩
  have : Std.Antisymm fun a b : Bytes × Bytes => compare a.1 b.1 = .lt :=
    ⟨fun a b hab hba => absurd (Std.TransCmp.lt_trans hab hba) (hirrefl a.1)⟩
  exact h₁.eq_of_mem_iff h₂ hmem

/-- A datastore with the counts of the file's words prints the sequential count. -/
theorem tally_print {ds : datastore_t} {seen : List Bytes} (h : Tally ds seen)
    (hseen : seen.Perm (words file)) : ds.root.toList.flatMap print_ds = sequential file := by
  have hentries : ds.root.toList = (word_counts file).map fun e => (e.1, asprintf (e.2 : ℕ)) := by
    refine entries_eq Std.TreeMap.ordered_keys_toList ?_ ?_
    · rw [List.pairwise_map]
      exact word_counts_ordered file
    · rintro ⟨key, value⟩
      rw [Std.TreeMap.mem_toList_iff_getElem?_eq_some, List.mem_map]
      have hget : ds.root[key]? = if (words file).count key = 0 then none
          else some (asprintf ((words file).count key)) := by
        rw [← hseen.count_eq key]
        exact h key
      rw [hget]
      constructor
      · intro hkey
        obtain ⟨hpos, hvalue⟩ := Option.ite_none_left_eq_some.mp hkey
        refine ⟨(key, (words file).count key), mem_word_counts.mpr ⟨?_, rfl⟩, ?_⟩
        · exact List.count_pos_iff.mp (Nat.pos_of_ne_zero hpos)
        · rw [Option.some.inj hvalue]
      · rintro ⟨⟨w, n⟩, hmem, heq⟩
        obtain ⟨hw, rfl⟩ := mem_word_counts.mp hmem
        cases heq
        rw [if_neg (List.count_pos_iff.mpr hw).ne']
  have hline : ∀ e : Bytes × ℕ, print_ds (e.1, asprintf (e.2 : ℕ)) = count_line e := by
    intro e
    rw [print_ds, count_line, asprintf, if_neg (by omega), Int.natAbs_natCast]
  rw [hentries, sequential, List.flatMap_map]
  exact List.flatMap_congr fun e _ => hline e

/-! ### The pipeline -/

/-- **The mappers** together write a record for each word of the file. -/
theorem map_records_flatten (hnul : 0 ∉ file) {count : ℕ} (hcount : 0 < count)
    (hsize : file.length * count < 2 ^ 64) :
    (map_records file count).flatten = (words file).map record := by
  have hportion : ∀ i ∈ List.range count,
      run_mapper_on_fds (write_portion file file.length count i) =
        (words (write_portion file file.length count i)).map record := by
    intro i hi
    refine run_mapper_records fun hzero => hnul ?_
    rw [write_portion_eq (List.mem_range.mp hi) hsize] at hzero
    exact List.drop_subset _ file (List.take_subset _ _ hzero)
  rw [map_records, List.map_congr_left hportion, ← words_portions hcount hsize, List.map_flatten,
    List.map_map]
  rfl

/-- A list of records, in an order of the words, as a stream. -/
theorem run_reducer_records {ws : List Bytes} (hws : ws.Perm (words file)) (hnul : 0 ∉ file)
    (hcounts : ∀ word, (words file).count word < 2 ^ 31) :
    run_reducer_on reducer (ws.map record).flatten = some (sequential file) := by
  have hwords : ∀ word ∈ ws, newline ∉ word ∧ colon ∉ word ∧ 0 ∉ word := by
    intro word hword
    obtain ⟨hnl, -, hcolon, hzero⟩ := mem_words (hws.mem_iff.mp hword)
    exact ⟨hnl, hcolon, hzero hnul⟩
  have hlines : lines newline (ws.map record).flatten = ws.map record := by
    refine lines_flatten fun r hr => ?_
    obtain ⟨word, hword, rfl⟩ := List.mem_map.mp hr
    refine ⟨word ++ [colon, space, 49], by simp [record], ?_⟩
    simp only [List.mem_append, not_or]
    exact ⟨(hwords word hword).1, by decide⟩
  obtain ⟨ds, hfold, htally⟩ := tally_foldlM tally_init hwords fun word => by
    rw [List.nil_append, hws.count_eq]
    exact hcounts word
  rw [run_reducer_on, hlines, hfold]
  exact congrArg some (tally_print htally hws)

/-- **Map-reduce is the sequential count**: one line for each word of the file, in the order of
    `strcmp`, with the number of times it is there. -/
theorem map_reduce_sequential {count : ℕ} {records : List Bytes} (hnul : 0 ∉ file)
    (hcounts : ∀ word, (words file).count word < 2 ^ 31) (hcount : 1 ≤ count)
    (hsize : file.length * count < 2 ^ 64)
    (hrecords : Interleaves (map_records file count) records) :
    run_reducer_on reducer records.flatten = some ((word_counts file).flatMap count_line) ∧
      (word_counts file).Pairwise (fun a b => compare a.1 b.1 = .lt) ∧
      ∀ word n, (word, n) ∈ word_counts file ↔ word ∈ words file ∧ n = (words file).count word := by
  refine ⟨?_, word_counts_ordered file, fun word n => mem_word_counts⟩
  have hperm := hrecords.perm
  rw [map_records_flatten hnul hcount hsize] at hperm
  -- what is interleaved are records, and so the records of words
  have hrange : records ∈ Set.range (List.map record) := by
    rw [Set.range_list_map]
    intro r hr
    obtain ⟨word, -, hword⟩ := List.mem_map.mp (hperm.mem_iff.mp hr)
    exact ⟨word, hword⟩
  obtain ⟨ws, rfl⟩ := hrange
  have hinjective : Function.Injective record := fun a b hab => List.append_cancel_right hab
  exact run_reducer_records ((List.map_perm_map_iff hinjective).mp hperm) hnul hcounts

/-- Two mappers read `"b a\n"` and `"b\r\n"`; the record of the second comes between those of the
    first. -/
theorem map_reduce_sequential_some : ∃ records,
    Interleaves (map_records [98, 32, 97, 10, 98, 13, 10] 2) records ∧
    records = [record [98], record [98], record [97]] ∧
    run_reducer_on reducer records.flatten = some [97, 58, 32, 49, 10, 98, 58, 32, 50, 10] := by
  have hmap : map_records [98, 32, 97, 10, 98, 13, 10] 2 =
      [[record [98], record [97]], [record [98]]] := by
    decide +kernel
  have hsequential : (word_counts [98, 32, 97, 10, 98, 13, 10]).flatMap count_line =
      [97, 58, 32, 49, 10, 98, 58, 32, 50, 10] := by
    decide +kernel
  have hlength : (words [98, 32, 97, 10, 98, 13, 10]).length < 2 ^ 31 := by
    decide +kernel
  have hinterleaves : Interleaves (map_records [98, 32, 97, 10, 98, 13, 10] 2)
      [record [98], record [98], record [97]] := by
    rw [hmap]
    refine .next (p := []) ?_
    refine .next (p := [[record [97]]]) ?_
    refine .next (p := []) ?_
    exact .done (by simp)
  have hresult := map_reduce_sequential (by decide) (fun word =>
    List.count_le_length.trans_lt hlength) (by decide) (by decide) hinterleaves
  exact ⟨_, hinterleaves, rfl, hsequential ▸ hresult.1⟩

end SystemProgramming.MapReduce
