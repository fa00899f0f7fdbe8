import Mathlib.Algebra.Order.Ring.Nat
import Mathlib.Data.List.Range
import SystemProgramming.Lib.Lines

namespace SystemProgramming.MapReduce

open Lib

/-!
# The splitter

`write_portion` writes one of `count` portions of a file.  The portions are cut at fixed byte
offsets, each moved on to the beginning of the next line; the end of a portion is found as the
beginning of the next one is.

* `getSubrange`, `nextLine`, `write_portion` — the splitter.
* `cut` — where the portions begin and end.
* `take_cut` — the portions one after another are the file.
* `lines_portions` — the lines of the file are the lines of the portions.
* `splitter_partitions` — the result.
-/

/-- A string of bytes. -/
abbrev Bytes := List UInt8

/-- `'\n'` -/
def newline : UInt8 := 10

/-- The arithmetic is that of `size_t`. -/
def getSubrange (length count idx : ℕ) : ℕ × ℕ :=
  let start_offset := length * idx % 2 ^ 64 / count
  let end_offset := length * (idx + 1) % 2 ^ 64 / count
  (start_offset, if length < end_offset then length else end_offset)

/-- `nextLine` with `n` bytes left before `last`. -/
def nextLineIn (data : Bytes) (last : ℕ) : ℕ → ℕ → ℕ
  | 0, _ => last
  | n + 1, p => if data[p]? = some newline then p + 1 else nextLineIn data last n (p + 1)

/-- Pointers into the file are offsets. -/
def nextLine (data : Bytes) (p last : ℕ) : ℕ := nextLineIn data last (last - p) p

/-- What `write_portion` writes. -/
def write_portion (data : Bytes) (length count index : ℕ) : Bytes :=
  let (start_offset, end_offset) := getSubrange length count index
  let start_ptr := if index = 0 then 0 else nextLine data start_offset length
  let end_ptr := if index = count - 1 then length else nextLine data end_offset length
  if start_ptr < end_ptr then (data.drop start_ptr).take (end_ptr - start_ptr) else []

variable {data : Bytes} {last n p q count : ℕ}

/-! ### The next line -/

theorem nextLineIn_bounds (data : Bytes) (hp : p + n = last) :
    p ≤ nextLineIn data last n p ∧ nextLineIn data last n p ≤ last := by
  induction n generalizing p with
  | zero => exact ⟨hp.le, le_rfl⟩
  | succ n ih =>
    rw [nextLineIn]
    split
    · omega
    · have hbounds := ih (p := p + 1) (by omega)
      omega

theorem nextLine_bounds (hp : p ≤ last) :
    p ≤ nextLine data p last ∧ nextLine data p last ≤ last :=
  nextLineIn_bounds data (by omega)

/-- The search ends behind a newline or at the end. -/
theorem nextLineIn_newline (hp : p + n = last) (hlt : nextLineIn data last n p < last) :
    ∃ k, nextLineIn data last n p = k + 1 ∧ data[k]? = some newline := by
  induction n generalizing p with
  | zero => exact absurd hlt (lt_irrefl _)
  | succ n ih =>
    rw [nextLineIn] at hlt ⊢
    split at hlt
    · rename_i hnl
      exact ⟨p, if_pos hnl, hnl⟩
    · rename_i hnl
      rw [if_neg hnl]
      exact ih (by omega) hlt

/-- Searching from further on finds no earlier line. -/
theorem nextLineIn_mono {m : ℕ} (hp : p + n = last) (hq : q + m = last) (hpq : p ≤ q) :
    nextLineIn data last n p ≤ nextLineIn data last m q := by
  induction n generalizing p with
  | zero =>
    obtain rfl : m = 0 := by omega
    exact le_rfl
  | succ n ih =>
    -- a newline found before `q` is no later than what is found from `q` on
    by_cases heq : p = q
    · subst heq
      obtain rfl : m = n + 1 := by omega
      exact le_rfl
    · rw [nextLineIn]
      split
      · have hbounds := nextLineIn_bounds data hq
        omega
      · exact ih (by omega) (by omega)

/-! ### The cuts -/

/-- Where the portion `i` begins and the one before it ends. -/
def cut (data : Bytes) (count i : ℕ) : ℕ :=
  if i = 0 then 0 else nextLine data (data.length * i / count) data.length

/-- No offset is past the end. -/
theorem offset_le (data : Bytes) {i : ℕ} (hi : i ≤ count) :
    data.length * i / count ≤ data.length := by
  refine Nat.div_le_of_le_mul ?_
  rw [Nat.mul_comm count]
  exact Nat.mul_le_mul_left _ hi

theorem cut_le (data : Bytes) {i : ℕ} (hi : i ≤ count) : cut data count i ≤ data.length := by
  rw [cut]
  split
  · exact Nat.zero_le _
  · exact (nextLine_bounds (offset_le data hi)).2

theorem cut_mono (data : Bytes) {i : ℕ} (hi : i < count) :
    cut data count i ≤ cut data count (i + 1) := by
  rw [cut]
  split
  · exact Nat.zero_le _
  · -- the offsets grow, and so do the lines found from them
    have hle : data.length * i / count ≤ data.length * (i + 1) / count :=
      Nat.div_le_div_right (Nat.mul_le_mul_left _ (Nat.le_succ i))
    have hi' := offset_le data (show i ≤ count by omega)
    have hi'' := offset_le data (show i + 1 ≤ count from hi)
    rw [cut, if_neg (Nat.succ_ne_zero i)]
    exact nextLineIn_mono (by omega) (by omega) hle

theorem cut_last (hcount : 0 < count) : cut data count count = data.length := by
  rw [cut, if_neg (by omega), Nat.mul_div_cancel _ hcount, nextLine, Nat.sub_self]
  rfl

/-- A cut is at the end or behind a newline. -/
theorem cut_complete (data : Bytes) {i : ℕ} (hi : i ≤ count) :
    cut data count i = data.length ∨ Complete newline (data.take (cut data count i)) := by
  by_cases hi0 : i = 0
  · refine .inr (.inl ?_)
    rw [cut, if_pos hi0, List.take_zero]
  · rw [cut, if_neg hi0]
    by_cases hlast : nextLine data (data.length * i / count) data.length = data.length
    · exact .inl hlast
    · refine .inr (.inr ?_)
      have hle := offset_le data hi
      have hlt := lt_of_le_of_ne (nextLine_bounds hle).2 hlast
      obtain ⟨k, hk, hnl⟩ := nextLineIn_newline (by omega) hlt
      refine ⟨data.take k, ?_⟩
      rw [nextLine, hk, List.take_add_one, hnl]
      rfl

/-- A portion is what is between two cuts. -/
theorem write_portion_eq {i : ℕ} (hi : i < count) (hsize : data.length * count < 2 ^ 64) :
    write_portion data data.length count i =
      (data.drop (cut data count i)).take (cut data count (i + 1) - cut data count i) := by
  have hmul : data.length * (i + 1) ≤ data.length * count := Nat.mul_le_mul_left _ hi
  have hmul' : data.length * i ≤ data.length * (i + 1) := Nat.mul_le_mul_left _ (Nat.le_succ i)
  have hrange : getSubrange data.length count i =
      (data.length * i / count, data.length * (i + 1) / count) := by
    rw [getSubrange, Nat.mod_eq_of_lt (by omega), Nat.mod_eq_of_lt (by omega),
      if_neg (not_lt.mpr (offset_le data hi))]
  -- the last portion ends with the file, where the search would end as well
  have hend : (if i = count - 1 then data.length
      else nextLine data (data.length * (i + 1) / count) data.length) = cut data count (i + 1) := by
    split
    · rename_i hlast
      rw [show i + 1 = count by omega, cut_last (by omega)]
    · rw [cut, if_neg (Nat.succ_ne_zero i)]
  have hstart : (if i = 0 then 0 else nextLine data (data.length * i / count) data.length) =
      cut data count i := rfl
  have hmono := cut_mono data hi
  simp only [write_portion, hrange, hstart, hend]
  split
  · rfl
  · rename_i hlt
    rw [show cut data count (i + 1) - cut data count i = 0 by omega, List.take_zero]

/-- What comes before a cut, and the next portion. -/
theorem take_cut_succ {i : ℕ} (hi : i < count) (hsize : data.length * count < 2 ^ 64) :
    data.take (cut data count (i + 1)) =
      data.take (cut data count i) ++ write_portion data data.length count i := by
  have hmono := cut_mono data hi
  rw [write_portion_eq hi hsize, ← List.take_add]
  congr 1
  omega

/-- **The portions** one after another are the file, up to a cut. -/
theorem take_cut (hn : n ≤ count) (hsize : data.length * count < 2 ^ 64) :
    ((List.range n).map (write_portion data data.length count)).flatten =
      data.take (cut data count n) := by
  induction n with
  | zero =>
    rw [cut, if_pos rfl, List.take_zero]
    rfl
  | succ n ih =>
    rw [List.range_succ, List.map_append, List.flatten_append, ih (by omega),
      take_cut_succ hn hsize, List.map_singleton, List.flatten_singleton]

/-- **The lines of the portions** are those of the file, up to a cut. -/
theorem lines_take_cut (hn : n ≤ count) (hsize : data.length * count < 2 ^ 64) :
    ((List.range n).map fun i => lines newline (write_portion data data.length count i)).flatten =
      lines newline (data.take (cut data count n)) := by
  induction n with
  | zero =>
    rw [cut, if_pos rfl, List.take_zero]
    rfl
  | succ n ih =>
    rw [List.range_succ, List.map_append, List.flatten_append, ih (by omega),
      take_cut_succ hn hsize, List.map_singleton, List.flatten_singleton]
    obtain hlast | hcomplete := cut_complete data (show n ≤ count by omega)
    · -- the rest of the portions are empty
      have hmono := cut_mono data hn
      have hle := cut_le data hn
      rw [write_portion_eq hn hsize, show cut data count (n + 1) - cut data count n = 0 by omega,
        List.take_zero, lines_nil, List.append_nil, List.append_nil]
    · exact (hcomplete.lines_append _).symm

theorem lines_portions (hcount : 0 < count) (hsize : data.length * count < 2 ^ 64) :
    ((List.range count).map fun i =>
      lines newline (write_portion data data.length count i)).flatten = lines newline data := by
  rw [lines_take_cut le_rfl hsize, cut_last hcount, List.take_length]

/-! ### The partition -/

/-- **The splitter** writes the file in portions, and each that is not empty begins with the file
    or behind a newline: no line is divided. -/
theorem splitter_partitions (data : Bytes) {count : ℕ} (hcount : 0 < count)
    (hsize : data.length * count < 2 ^ 64) :
    ((List.range count).map (write_portion data data.length count)).flatten = data ∧
      (∀ i < count, write_portion data data.length count i ≠ [] →
        ∃ start, start = ((List.range i).map (write_portion data data.length count)).flatten.length ∧
          (start = 0 ∨ data[start - 1]? = some newline)) ∧
      ((List.range count).map fun i =>
        lines newline (write_portion data data.length count i)).flatten = lines newline data := by
  refine ⟨?_, fun i hi hne => ?_, lines_portions hcount hsize⟩
  · rw [take_cut le_rfl hsize, cut_last hcount, List.take_length]
  · have hle := cut_le data hi.le
    refine ⟨_, rfl, ?_⟩
    rw [take_cut hi.le hsize, List.length_take, Nat.min_eq_left hle]
    obtain hend | hnil | ⟨line, hline⟩ := cut_complete data hi.le
    · -- a portion from the end of the file is empty
      rw [write_portion_eq hi hsize, hend, List.drop_length, List.take_nil] at hne
      exact absurd rfl hne
    · rcases List.take_eq_nil_iff.mp hnil with h | h
      · exact .inl h
      · subst h
        exact .inl (Nat.le_zero.mp hle)
    · have hlen := congrArg List.length hline
      rw [List.length_take, Nat.min_eq_left hle, List.length_append, List.length_singleton] at hlen
      refine .inr ?_
      rw [← List.getElem?_take_of_lt (show cut data count i - 1 < cut data count i by omega), hline,
        show cut data count i - 1 = line.length by omega, List.getElem?_concat_length]

/-- Four portions of three lines, the last without a newline: one of them is empty. -/
theorem splitter_partitions_three :
    ((List.range 4).map (write_portion [97, 97, 97, 10, 98, 10, 99] 7 4)).flatten =
      [97, 97, 97, 10, 98, 10, 99] :=
  (splitter_partitions [97, 97, 97, 10, 98, 10, 99] (by decide) (by decide)).1

end SystemProgramming.MapReduce
