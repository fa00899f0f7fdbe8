import Mathlib.Data.List.Infix
import Mathlib.Data.List.TakeWhile

namespace SystemProgramming.Lib.CString

/-!
# C strings in blocks of memory

A block is the bytes that were allocated.  A function that writes to a block is `none` where it
would write behind its end.

* `lit` — the characters of a literal.
* `text` — the string at the beginning of a block.
* `write`, `realloc`, `strcpy`, `strcat`, `strncpy` — with `strcpy_eq` and `strcat_eq`.
* `strstr` — with `strstr_eq_some_iff` and `strstr_eq_none_iff`.
-/

/-- A string literal. -/
def lit (s : String) : List UInt8 := s.toList.map fun c => UInt8.ofNat c.toNat

abbrev Block := List UInt8

/-- The characters before the first null, if there is one. -/
def text (b : Block) : Option (List UInt8) :=
  if 0 ∈ b then some (b.takeWhile (· ≠ 0)) else none

def write (b : Block) (pos : ℕ) (bytes : List UInt8) : Option Block :=
  if pos + bytes.length ≤ b.length then
    some (b.take pos ++ bytes ++ b.drop (pos + bytes.length))
  else none

/-- A byte that was not in the block has any value. -/
def realloc (fresh : ℕ → UInt8) (b : Block) (size : ℕ) : Block :=
  b.take size ++ (List.range' b.length (size - b.length)).map fresh

/-- A new block. -/
def alloc (fresh : ℕ → UInt8) (size : ℕ) : Block := realloc fresh [] size

def strcpy (dst : Block) (src : List UInt8) : Option Block := write dst 0 (src ++ [0])

def strcat (dst : Block) (src : List UInt8) : Option Block :=
  (text dst).bind fun t => write dst t.length (src ++ [0])

/-- `strncpy` fills up with nulls. -/
def strncpy (dst : Block) (src : List UInt8) (n : ℕ) : Option Block :=
  write dst 0 (src.take n ++ List.replicate (n - src.length) 0)

/-- Where a string first has another one in it. -/
def strstr (s needle : List UInt8) : Option ℕ := s.tails.findIdx? fun t => needle.isPrefixOf t

variable {fresh : ℕ → UInt8} {b r s t needle : List UInt8} {n a pos : ℕ}

/-! ### Writing -/

theorem text_eq (ht : 0 ∉ t) (r : List UInt8) : text (t ++ 0 :: r) = some t := by
  have hall : ∀ c ∈ t, decide (c ≠ 0) = true := fun c hc =>
    decide_eq_true fun h => ht (h ▸ hc)
  rw [text, if_pos (by simp), List.takeWhile_append_of_pos hall,
    List.takeWhile_cons_of_neg (by simp), List.append_nil]

@[simp] theorem length_realloc : (realloc fresh b n).length = n := by
  rw [realloc, List.length_append, List.length_take, List.length_map, List.length_range']
  omega

@[simp] theorem length_alloc : (alloc fresh n).length = n := length_realloc

theorem realloc_of_le (h : b.length ≤ n) :
    realloc fresh b n = b ++ (List.range' b.length (n - b.length)).map fresh := by
  rw [realloc, List.take_of_length_le h]

theorem write_eq (h : pos + s.length ≤ b.length) :
    write b pos s = some (b.take pos ++ s ++ b.drop (pos + s.length)) := if_pos h

theorem strcpy_eq (h : s.length < b.length) :
    strcpy b s = some (s ++ 0 :: b.drop (s.length + 1)) := by
  have hlen : (s ++ [0]).length = s.length + 1 := by simp
  rw [strcpy, write_eq (by omega), List.take_zero, hlen, Nat.zero_add]
  simp

theorem strcat_eq (ht : 0 ∉ t) (h : s.length ≤ r.length) :
    strcat (t ++ 0 :: r) s = some (t ++ s ++ 0 :: r.drop s.length) := by
  have hlen : (s ++ [0]).length = s.length + 1 := by simp
  rw [strcat, text_eq ht, Option.bind_some, write_eq, hlen, List.take_left,
    List.drop_length_add_append, List.drop_succ_cons]
  · simp
  · rw [hlen, List.length_append, List.length_cons]
    omega

theorem length_of_write {b' : Block} (h : write b pos s = some b') : b'.length = b.length := by
  rw [write] at h
  split at h
  · rename_i hle
    rw [← Option.some.inj h, List.length_append, List.length_append, List.length_take,
      List.length_drop]
    omega
  · cases h

/-- The first `n` characters of a longer string, and a null put behind them. -/
theorem strncpy_eq (hn : n ≤ s.length) (hb : b.length = n + 1) :
    ∃ b', strncpy b s n = some b' ∧ write b' n [0] = some (s.take n ++ [0]) := by
  have hlen : (s.take n).length = n := List.length_take_of_le hn
  refine ⟨s.take n ++ b.drop n, ?_, ?_⟩
  · rw [strncpy, Nat.sub_eq_zero_of_le hn, List.replicate_zero, List.append_nil,
      write_eq (by omega), hlen, Nat.zero_add, List.take_zero, List.nil_append]
  · have hlast : (s.take n ++ b.drop n).length = n + 1 := by
      rw [List.length_append, List.length_drop, hlen]
      omega
    rw [write_eq (by rw [hlast, List.length_singleton]), List.take_left' hlen,
      List.drop_eq_nil_of_le (by rw [hlast, List.length_singleton]), List.append_nil]

/-! ### Searching -/

theorem strstr_eq_some_iff :
    strstr s needle = some a ↔
      a ≤ s.length ∧ needle <+: s.drop a ∧ ∀ i < a, ¬ needle <+: s.drop i := by
  rw [strstr, List.findIdx?_eq_some_iff_getElem]
  constructor
  · rintro ⟨ha, hat, hbefore⟩
    rw [List.length_tails] at ha
    refine ⟨by omega, ?_, fun i hi => ?_⟩
    · simpa using hat
    · simpa using hbefore i hi
  · rintro ⟨ha, hat, hbefore⟩
    refine ⟨by rw [List.length_tails]; omega, ?_, fun i hi => ?_⟩
    · simpa using hat
    · simpa using hbefore i hi

theorem strstr_eq_none_iff :
    strstr s needle = none ↔ ∀ i ≤ s.length, ¬ needle <+: s.drop i := by
  rw [strstr, List.findIdx?_eq_none_iff]
  constructor
  · intro h i hi
    have hmem : s.drop i ∈ s.tails := List.mem_tails _ _ |>.mpr (List.drop_suffix i s)
    rw [← List.isPrefixOf_iff_prefix, Bool.not_eq_true]
    exact h _ hmem
  · intro h t ht
    obtain ⟨i, hi, rfl⟩ : ∃ i ≤ s.length, t = s.drop i := by
      obtain ⟨p, rfl⟩ := (List.mem_tails _ _).mp ht
      exact ⟨p.length, by simp, List.drop_left.symm⟩
    rw [← Bool.not_eq_true, List.isPrefixOf_iff_prefix]
    exact h i hi

end SystemProgramming.Lib.CString
