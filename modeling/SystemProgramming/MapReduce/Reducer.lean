import Mathlib.Data.Int.Cast.Basic
import Mathlib.Tactic.IntervalCases
import Mathlib.Tactic.Linarith
import SystemProgramming.MapReduce.Mapper

namespace SystemProgramming.MapReduce

open Lib

/-!
# The sum reducer

The reducer reads records, splits each into key and value, and folds the values of a key in the
datastore; the first value is put as it comes, and a later one is added to the number that is
there.  At the end it prints the datastore in the order of the keys.

* `split_key_value`, `reducer`, `run_reducer_on` — the reducer.
* `datastore_t` — the datastore, an ordered map.
* `split_key_value_record` — splitting gives back what a record was made of.
* `atoi_asprintf` — reading a printed number.
* `Tally` — the datastore holds the number of times each word came.
-/

/-- Where a string first has another one in it. -/
def strstr (s needle : Bytes) : Option ℕ := s.tails.findIdx? fun t => needle.isPrefixOf t

/-- The buffer is written to before the two strings are read from it. -/
def split_key_value (line : Bytes) : Option (Bytes × Bytes) :=
  match strstr (c_str line) [colon, space], strstr (c_str line) [newline] with
  | some split, some newline =>
    let line := (line.set split 0).set newline 0
    some (c_str line, c_str (line.drop (split + 2)))
  | _, _ => none

/-! ### Numbers -/

def isspace (c : UInt8) : Bool := c = 32 || 9 ≤ c && c ≤ 13

def isdigit (c : UInt8) : Bool := 48 ≤ c && c ≤ 57

/-- The number that the leading digits make. -/
def digits (s : Bytes) : ℕ :=
  (s.takeWhile isdigit).foldl (fun n c => 10 * n + (c.toNat - 48)) 0

def atoi (s : Bytes) : ℤ :=
  match s.dropWhile isspace with
  | 45 :: s => -digits s
  | 43 :: s => digits s
  | s => digits s

/-- The decimal digits of a number. -/
def decimal (n : ℕ) : Bytes := (Nat.toDigits 10 n).map Char.toUInt8

/-- `"%d"` -/
def asprintf (n : ℤ) : Bytes := if n < 0 then 45 :: decimal n.natAbs else decimal n.natAbs

/-- The sum is an `int`; one that overflows is not defined. -/
def reducer (value1 value2 : Bytes) : Option Bytes :=
  let count := atoi value1 + atoi value2
  if -2 ^ 31 ≤ count ∧ count < 2 ^ 31 then some (asprintf count) else none

/-! ### The datastore -/

/-- Keys and values, in the order of `strcmp`: by unsigned characters, a prefix first. -/
structure datastore_t where
  root : Std.TreeMap Bytes Bytes compare

def datastore_init : datastore_t := ⟨∅⟩

def datastore_get (ds : datastore_t) (key : Bytes) : Option Bytes := ds.root[key]?

def datastore_put (ds : datastore_t) (key value : Bytes) : datastore_t :=
  if (datastore_get ds key).isNone then ⟨ds.root.insert key value⟩ else ds

def datastore_update (ds : datastore_t) (key value : Bytes) : datastore_t :=
  if (datastore_get ds key).isNone then ds else ⟨ds.root.insert key value⟩

/-! ### The reducer -/

/-- The body of the `while` loop. -/
def reduce_line (func : Bytes → Bytes → Option Bytes) (my_datastore : datastore_t) (line : Bytes) :
    Option datastore_t :=
  match split_key_value line with
  | none => some my_datastore
  | some (key, value) =>
    match datastore_get my_datastore key with
    | some curr_val =>
      (func curr_val value).map fun new_value => datastore_update my_datastore key new_value
    | none => some (datastore_put my_datastore key value)

/-- The line `"%s: %s\n"`. -/
def print_ds (entry : Bytes × Bytes) : Bytes :=
  entry.1 ++ [colon, space] ++ entry.2 ++ [newline]

/-- What the reducer writes. -/
def run_reducer_on (func : Bytes → Bytes → Option Bytes) (input : Bytes) : Option Bytes :=
  ((lines newline input).foldlM (reduce_line func) datastore_init).map fun ds =>
    ds.root.toList.flatMap print_ds

/-! ### Splitting a record -/

/-- A string is found where its first character first is. -/
theorem strstr_eq {w needle rest : Bytes} {c : UInt8} (hw : c ∉ w) :
    strstr (w ++ (c :: needle ++ rest)) (c :: needle) = some w.length := by
  induction w with
  | nil =>
    have hprefix : (c :: needle).isPrefixOf (c :: (needle ++ rest)) = true :=
      List.isPrefixOf_iff_prefix.mpr (List.prefix_append (c :: needle) rest)
    show ((c :: (needle ++ rest)).tails.findIdx? _) = _
    rw [List.tails, List.findIdx?_cons, hprefix]
    rfl
  | cons d w ih =>
    rw [List.mem_cons, not_or] at hw
    have hprefix : (c :: needle).isPrefixOf (d :: (w ++ (c :: needle ++ rest))) = false := by
      rw [List.isPrefixOf_cons_cons, beq_eq_false_iff_ne.mpr hw.1, Bool.false_and]
    show ((d :: (w ++ (c :: needle ++ rest))).tails.findIdx? _) = _
    rw [List.tails, List.findIdx?_cons, hprefix, ← strstr, ih hw.2]
    rfl

/-- What a string function reads of a buffer up to a zero byte. -/
theorem c_str_zero {s : Bytes} (hs : 0 ∉ s) (rest : Bytes) : c_str (s ++ 0 :: rest) = s := by
  have hall : ∀ c ∈ s, decide (c ≠ 0) = true := by
    intro c hc
    exact decide_eq_true fun h => hs (h ▸ hc)
  rw [c_str, List.takeWhile_append_of_pos hall, List.takeWhile_cons_of_neg (by simp),
    List.append_nil]

/-- **Splitting** gives back the key and the value of a line. -/
theorem split_key_value_eq {key value : Bytes} (hcolon : colon ∉ key) (hkey : newline ∉ key)
    (hvalue : newline ∉ value) (hkey0 : 0 ∉ key) (hvalue0 : 0 ∉ value) :
    split_key_value (key ++ [colon, space] ++ value ++ [newline]) = some (key, value) := by
  have hline : key ++ [colon, space] ++ value ++ [newline] =
      key ++ ([colon, space] ++ (value ++ [newline])) := by simp
  have hline' : key ++ [colon, space] ++ value ++ [newline] =
      (key ++ [colon, space] ++ value) ++ ([newline] ++ []) := by simp
  have hzero : 0 ∉ key ++ [colon, space] ++ value ++ [newline] := by
    simp only [List.mem_append, not_or]
    exact ⟨⟨⟨hkey0, by decide⟩, hvalue0⟩, by decide⟩
  have hnewline : newline ∉ key ++ [colon, space] ++ value := by
    simp only [List.mem_append, not_or]
    exact ⟨⟨hkey, by decide⟩, hvalue⟩
  have hsplit : strstr (key ++ [colon, space] ++ value ++ [newline]) [colon, space] =
      some key.length := by
    rw [hline]
    exact strstr_eq hcolon
  have hend : strstr (key ++ [colon, space] ++ value ++ [newline]) [newline] =
      some (key ++ [colon, space] ++ value).length := by
    rw [hline']
    exact strstr_eq hnewline
  -- the buffer after the first write and after both
  have hkeyend : (key ++ [colon, space] ++ value ++ [newline]).set key.length 0 =
      (key ++ [0, space] ++ value) ++ [newline] := by
    rw [hline, List.set_append_right _ _ le_rfl, Nat.sub_self]
    simp
  have hlength : (key ++ [colon, space] ++ value).length = (key ++ [0, space] ++ value).length := by
    simp
  have hset : ((key ++ [colon, space] ++ value ++ [newline]).set key.length 0).set
      (key ++ [colon, space] ++ value).length 0 = key ++ 0 :: space :: (value ++ [0]) := by
    rw [hkeyend, hlength, List.set_append_right _ _ le_rfl, Nat.sub_self]
    simp
  have hdrop : (key ++ 0 :: space :: (value ++ [0])).drop (key.length + 2) = value ++ [0] := by
    rw [List.drop_length_add_append]
    rfl
  rw [split_key_value, c_str_eq hzero, hsplit, hend]
  simp only [hset, hdrop]
  rw [c_str_zero hkey0, c_str_zero hvalue0]

/-! ### Reading a printed number -/

theorem toUInt8_digitChar {d : ℕ} (hd : d < 10) :
    (Nat.digitChar d).toUInt8 = UInt8.ofNat (48 + d) := by
  interval_cases d <;> rfl

theorem isdigit_ofNat {d : ℕ} (hd : d < 10) :
    isdigit (UInt8.ofNat (48 + d)) = true ∧ (UInt8.ofNat (48 + d)).toNat = 48 + d := by
  interval_cases d <;> exact ⟨rfl, rfl⟩

theorem decimal_lt {n : ℕ} (hn : n < 10) : decimal n = [UInt8.ofNat (48 + n)] := by
  rw [decimal, Nat.toDigits_of_lt_base hn, List.map_singleton, toUInt8_digitChar hn]

theorem decimal_le {n : ℕ} (hn : 10 ≤ n) :
    decimal n = decimal (n / 10) ++ [UInt8.ofNat (48 + n % 10)] := by
  rw [decimal, Nat.toDigits_of_base_le (by decide) hn, List.map_append, List.map_singleton,
    toUInt8_digitChar (Nat.mod_lt n (by decide))]
  rfl

/-- A printed number consists of digits, at least one, and they make the number. -/
theorem decimal_digits (n : ℕ) : decimal n ≠ [] ∧ (∀ c ∈ decimal n, isdigit c = true) ∧
    (decimal n).foldl (fun n c => 10 * n + (c.toNat - 48)) 0 = n := by
  induction n using Nat.strong_induction_on with
  | _ n ih =>
    by_cases hn : n < 10
    · obtain ⟨hdigit, hvalue⟩ := isdigit_ofNat hn
      rw [decimal_lt hn]
      refine ⟨List.cons_ne_nil _ _, fun c hc => List.mem_singleton.mp hc ▸ hdigit, ?_⟩
      show 10 * 0 + ((UInt8.ofNat (48 + n)).toNat - 48) = n
      rw [hvalue]
      omega
    · obtain ⟨-, hall, hfold⟩ := ih (n / 10) (by omega)
      obtain ⟨hdigit, hvalue⟩ := isdigit_ofNat (Nat.mod_lt n (show 0 < 10 by decide))
      rw [decimal_le (by omega)]
      refine ⟨by simp, fun c hc => ?_, ?_⟩
      · rcases List.mem_append.mp hc with hc | hc
        · exact hall c hc
        · exact List.mem_singleton.mp hc ▸ hdigit
      · rw [List.foldl_append, hfold]
        show 10 * (n / 10) + ((UInt8.ofNat (48 + n % 10)).toNat - 48) = n
        rw [hvalue]
        omega

/-- **Reading a printed number** gives the number. -/
theorem atoi_asprintf (n : ℕ) : atoi (asprintf n) = n := by
  obtain ⟨hne, hall, hfold⟩ := decimal_digits n
  have hdigits : digits (decimal n) = n := by
    rw [digits, List.takeWhile_eq_self_iff.mpr hall, hfold]
  obtain ⟨c, s, hs⟩ := List.exists_cons_of_ne_nil hne
  have hc : isdigit c = true := hall c (hs ▸ List.mem_cons_self)
  -- a digit is neither blank nor a sign
  have hspace : isspace c = false := by
    rw [isdigit, Bool.and_eq_true, decide_eq_true_eq, UInt8.le_iff_toNat_le] at hc
    have hlow : 48 ≤ c.toNat := hc.1
    simp only [isspace, Bool.or_eq_false_iff, Bool.and_eq_false_imp, decide_eq_true_eq,
      decide_eq_false_iff_not]
    refine ⟨?_, fun _ => ?_⟩
    · rintro rfl
      exact absurd hlow (by decide)
    · rw [UInt8.le_iff_toNat_le]
      show ¬ c.toNat ≤ 13
      omega
  rw [asprintf, if_neg (by omega), Int.natAbs_natCast, atoi, hs,
    List.dropWhile_cons_of_neg (by simp [hspace])]
  split
  · rename_i heq
    cases heq
    cases hc
  · rename_i heq
    cases heq
    cases hc
  · rw [← hs, hdigits]

/-! ### The counts -/

variable {ds ds' : datastore_t} {seen : List Bytes} {word : Bytes}

/-- The datastore holds the number of times each word was seen. -/
def Tally (ds : datastore_t) (seen : List Bytes) : Prop :=
  ∀ word, datastore_get ds word =
    if seen.count word = 0 then none else some (asprintf (seen.count word))

theorem tally_init : Tally datastore_init [] := by
  intro word
  rw [List.count_nil, if_pos rfl]
  exact Std.TreeMap.getElem?_emptyc

theorem get_insert (key value : Bytes) :
    datastore_get ⟨ds.root.insert key value⟩ word =
      if word = key then some value else datastore_get ds word := by
  show (ds.root.insert key value)[word]? = _
  simp only [Std.TreeMap.getElem?_insert, Std.compare_eq_iff_eq]
  by_cases hw : word = key
  · rw [if_pos hw.symm, if_pos hw]
  · rw [if_neg (Ne.symm hw), if_neg hw]
    rfl

/-- The first value of a key is put, and a later one added: the count goes up by one. -/
theorem Tally.snoc (h : Tally ds seen) (hword : newline ∉ word ∧ colon ∉ word ∧ 0 ∉ word)
    (hcount : (seen ++ [word]).count word < 2 ^ 31) :
    ∃ ds', reduce_line reducer ds (record word) = some ds' ∧ Tally ds' (seen ++ [word]) := by
  obtain ⟨hnl, hcolon, hzero⟩ := hword
  have hrecord : record word = word ++ [colon, space] ++ asprintf (1 : ℕ) ++ [newline] := by
    rw [List.append_assoc, List.append_assoc]
    rfl
  have hsplit : split_key_value (record word) = some (word, asprintf (1 : ℕ)) := by
    rw [hrecord]
    exact split_key_value_eq hcolon hnl (by decide) hzero (by decide)
  have hself : (seen ++ [word]).count word = seen.count word + 1 := by
    rw [List.count_append, List.count_singleton_self]
  have hother : ∀ w, w ≠ word → (seen ++ [word]).count w = seen.count w := by
    intro w hw
    rw [List.count_append, List.count_singleton, if_neg (by simpa using Ne.symm hw), Nat.add_zero]
  -- whether it is put or updated, the word has the new count and the others what they had
  have htally : Tally ⟨ds.root.insert word (asprintf ((seen.count word + 1 : ℕ) : ℤ))⟩
      (seen ++ [word]) := by
    intro w
    rw [get_insert]
    by_cases hw : w = word
    · rw [if_pos hw, hw, hself, if_neg (Nat.succ_ne_zero _)]
    · rw [if_neg hw, hother w hw]
      exact h w
  refine ⟨_, ?_, htally⟩
  have hget := h word
  by_cases hzero : seen.count word = 0
  · rw [if_pos hzero] at hget
    simp only [reduce_line, hsplit, hget, hzero]
    rw [datastore_put, hget]
    rfl
  · rw [if_neg hzero] at hget
    have hsum : atoi (asprintf (seen.count word)) + atoi (asprintf (1 : ℕ)) =
        ((seen.count word + 1 : ℕ) : ℤ) := by
      rw [atoi_asprintf, atoi_asprintf]
      rfl
    have hreduce : reducer (asprintf (seen.count word)) (asprintf (1 : ℕ)) =
        some (asprintf ((seen.count word + 1 : ℕ) : ℤ)) := by
      rw [reducer, hsum]
      exact if_pos (by omega)
    simp only [reduce_line, hsplit, hget, hreduce, Option.map_some]
    rw [datastore_update, hget]
    rfl

/-- **The loop** counts the words of any list of records. -/
theorem tally_foldlM {ws : List Bytes} (h : Tally ds seen)
    (hwords : ∀ word ∈ ws, newline ∉ word ∧ colon ∉ word ∧ 0 ∉ word)
    (hcount : ∀ word, (seen ++ ws).count word < 2 ^ 31) :
    ∃ ds', (ws.map record).foldlM (reduce_line reducer) ds = some ds' ∧ Tally ds' (seen ++ ws) := by
  induction ws generalizing ds seen with
  | nil => exact ⟨ds, rfl, by rwa [List.append_nil]⟩
  | cons word ws ih =>
    have hsplit : seen ++ word :: ws = seen ++ [word] ++ ws := by simp
    rw [hsplit] at hcount ⊢
    have hle := hcount word
    rw [List.count_append] at hle
    obtain ⟨ds₁, hstep, htally⟩ := h.snoc (hwords word List.mem_cons_self) (by omega)
    obtain ⟨ds₂, hrest, htally⟩ :=
      ih htally (fun w hw => hwords w (List.mem_cons_of_mem _ hw)) hcount
    refine ⟨ds₂, ?_, htally⟩
    rw [List.map_cons, List.foldlM_cons, hstep]
    exact hrest

end SystemProgramming.MapReduce
