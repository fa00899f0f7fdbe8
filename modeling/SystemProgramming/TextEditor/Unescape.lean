import Mathlib.Data.List.TakeWhile
import SystemProgramming.TextEditor.Document

namespace SystemProgramming.TextEditor

/-!
# Escapes

`handle_append_command` copies its text with two pointers, `handle_write_command` deletes in a copy
of it, in place and for a fixed number of rounds.

* `unescape` — what they both compute; `append_loop_eq`, `write_loop_spec` — that they do.
* `pieces_eq` — the loop around `strsep` splits at the newlines.
-/

/-- A backslash and an `n` stand for a newline, a backslash and any other character for that
    character, and a last backslash alone for nothing. -/
def unescape : Str → Str
  | [] => []
  | [c] => if c = backslash then [] else [c]
  | c :: d :: s =>
    if c = backslash then (if d = letter_n then newline else d) :: unescape s
    else c :: unescape (d :: s)

/-! ### `handle_append_command` -/

/-- The loop over `line`, with what is written to `str`. -/
def append_loop : Str → Str → Str
  | [], str => str
  | [c], str => if c = backslash then str else str ++ [c]
  | c :: d :: line, str =>
    if c = backslash then
      if d = letter_n then append_loop line (str ++ [newline]) else append_loop line (str ++ [d])
    else append_loop (d :: line) (str ++ [c])

/-- **The copying loop** unescapes. -/
theorem append_loop_eq (line str : Str) : append_loop line str = str ++ unescape line := by
  induction line, str using append_loop.induct with
  | case1 str => rw [append_loop, unescape, List.append_nil]
  | case2 str => rw [append_loop, unescape, if_pos rfl, if_pos rfl, List.append_nil]
  | case3 str c hc => rw [append_loop, unescape, if_neg hc, if_neg hc]
  | case4 str line ih =>
    rw [append_loop, if_pos rfl, if_pos rfl, ih, unescape, if_pos rfl, if_pos rfl,
      List.append_assoc, List.singleton_append]
  | case5 str d line hd ih =>
    rw [append_loop, if_pos rfl, if_neg hd, ih, unescape, if_pos rfl, if_neg hd,
      List.append_assoc, List.singleton_append]
  | case6 str c d line hc ih =>
    rw [append_loop, if_neg hc, ih, unescape, if_neg hc, List.append_assoc, List.singleton_append]

/-! ### `handle_write_command` -/

/-- The bytes of a buffer; `none` is the terminator. -/
abbrev Buffer := List (Option Ch)

def strlen (temp : Buffer) : ℕ := (temp.takeWhile Option.isSome).length

/-- The string at the beginning of a buffer. -/
def c_str (temp : Buffer) : Str := (temp.takeWhile Option.isSome).reduceOption

def memmove (temp : Buffer) (dest src n : ℕ) : Buffer :=
  temp.take dest ++ ((temp.drop src).take n ++ temp.drop (dest + n))

/-- Round `j` of the loop over `temp`. -/
def write_round (temp : Buffer) (j : ℕ) : Buffer :=
  if temp[j]? = some (some backslash) then
    if temp[j + 1]? ≠ some (some letter_n) then memmove temp j (j + 1) (strlen temp - j)
    else
      let temp := temp.set (j + 1) (some newline)
      memmove temp j (j + 1) (strlen temp - j)
  else temp

/-- `n` rounds from `j` on -/
def write_loop : ℕ → ℕ → Buffer → Buffer
  | 0, _, temp => temp
  | n + 1, j, temp => write_loop n (j + 1) (write_round temp j)

/-- A buffer with a string in it, and `k` terminators. -/
def buffer (s : Str) (k : ℕ) : Buffer := s.map some ++ List.replicate k none

variable {s done rest tail : Str} {c d : Ch} {j k n : ℕ}

theorem length_append_singleton {α : Type*} (l : List α) (a : α) :
    (l ++ [a]).length = l.length + 1 :=
  List.length_append

theorem takeWhile_buffer (s : Str) (k : ℕ) :
    (buffer s k).takeWhile Option.isSome = s.map some := by
  induction s with
  | nil =>
    rw [buffer, List.map_nil, List.nil_append, List.takeWhile_replicate]
    rfl
  | cons c s ih =>
    rw [buffer, List.map_cons, List.cons_append, List.takeWhile_cons_of_pos rfl]
    exact congrArg (some c :: ·) ih

theorem strlen_buffer (s : Str) (k : ℕ) : strlen (buffer s k) = s.length := by
  rw [strlen, takeWhile_buffer, List.length_map]

theorem c_str_buffer (s : Str) (k : ℕ) : c_str (buffer s k) = s := by
  rw [c_str, takeWhile_buffer]
  show (s.map some).filterMap id = s
  rw [List.filterMap_map]
  exact List.filterMap_some

theorem buffer_append (done rest : Str) (k : ℕ) :
    buffer (done ++ rest) k = done.map some ++ buffer rest k := by
  rw [buffer, List.map_append, List.append_assoc, buffer]

/-- The character behind a prefix. -/
theorem getElem?_buffer (done : Str) (c : Ch) (rest : Str) (k : ℕ) :
    (buffer (done ++ c :: rest) k)[done.length]? = some (some c) := by
  rw [buffer_append, List.getElem?_append_right (by rw [List.length_map]), List.length_map,
    Nat.sub_self]
  rfl

theorem set_buffer (done : Str) (c d : Ch) (rest : Str) (k : ℕ) :
    (buffer (done ++ c :: rest) k).set done.length (some d) = buffer (done ++ d :: rest) k := by
  rw [buffer_append, buffer_append, List.set_append_right _ _ (by rw [List.length_map]),
    List.length_map, Nat.sub_self]
  rfl

/-- Moving up by one what ends in `y` doubles the `y`. -/
theorem memmove_one (before between after : Buffer) (x y : Option Ch) :
    memmove (before ++ x :: (between ++ y :: after)) before.length (before.length + 1)
      (between.length + 1) = before ++ (between ++ y :: y :: after) := by
  have hmoved : ((before ++ x :: (between ++ y :: after)).drop (before.length + 1)).take
      (between.length + 1) = between ++ [y] := by
    rw [List.drop_length_add_append, List.drop_succ_cons, List.drop_zero,
      List.take_length_add_append]
    rfl
  have hrest : (before ++ x :: (between ++ y :: after)).drop
      (before.length + (between.length + 1)) = y :: after := by
    rw [List.drop_length_add_append, List.drop_succ_cons, List.drop_left]
  rw [memmove, List.take_left, hmoved, hrest, List.append_assoc, List.singleton_append]

/-- **A character is deleted**, and the terminator behind the string moves up. -/
theorem memmove_buffer (done tail : Str) (c : Ch) (hk : 0 < k) :
    memmove (buffer (done ++ c :: tail) k) done.length (done.length + 1)
      (strlen (buffer (done ++ c :: tail) k) - done.length) = buffer (done ++ tail) (k + 1) := by
  obtain ⟨k, rfl⟩ : ∃ m, k = m + 1 := ⟨k - 1, by omega⟩
  have hlen : strlen (buffer (done ++ c :: tail) (k + 1)) - done.length =
      (tail.map some).length + 1 := by
    rw [strlen_buffer, List.length_append, List.length_cons, List.length_map]
    omega
  have hdone : done.length = (done.map some).length := (List.length_map _).symm
  rw [hlen, buffer_append, buffer_append, hdone]
  exact memmove_one (done.map some) (tail.map some) (List.replicate k none) (some c) none

/-! A round at the first character that is not done: -/

theorem write_round_other (hc : c ≠ backslash) :
    write_round (buffer (done ++ c :: rest) k) done.length = buffer (done ++ c :: rest) k := by
  rw [write_round, getElem?_buffer, if_neg]
  exact fun h => hc (Option.some.inj (Option.some.inj h))

theorem write_round_last (hk : 0 < k) :
    write_round (buffer (done ++ [backslash]) k) done.length = buffer done (k + 1) := by
  have hnext : (buffer (done ++ [backslash]) k)[done.length + 1]? ≠ some (some letter_n) := by
    rw [buffer, List.getElem?_append_right (by simp), List.getElem?_replicate]
    split <;> simp
  rw [write_round, getElem?_buffer, if_pos rfl, if_pos hnext, memmove_buffer done [] backslash hk,
    List.append_nil]

theorem write_round_escape (hk : 0 < k) :
    write_round (buffer (done ++ backslash :: d :: tail) k) done.length =
      buffer (done ++ (if d = letter_n then newline else d) :: tail) (k + 1) := by
  have hnext : (buffer (done ++ backslash :: d :: tail) k)[done.length + 1]? = some (some d) := by
    rw [List.append_cons, ← length_append_singleton done backslash]
    exact getElem?_buffer (done ++ [backslash]) d tail k
  rw [write_round, getElem?_buffer, if_pos rfl, hnext]
  by_cases hd : d = letter_n
  · -- the `n` is overwritten before the backslash is deleted
    have hset : (buffer (done ++ backslash :: d :: tail) k).set (done.length + 1) (some newline) =
        buffer (done ++ backslash :: newline :: tail) k := by
      rw [List.append_cons, List.append_cons done backslash (newline :: tail),
        ← length_append_singleton done backslash]
      exact set_buffer (done ++ [backslash]) d newline tail k
    rw [if_neg (by rw [hd]; exact fun h => h rfl), if_pos hd, hset]
    exact memmove_buffer done (newline :: tail) backslash hk
  · rw [if_pos fun h => hd (Option.some.inj (Option.some.inj h)), if_neg hd]
    exact memmove_buffer done (d :: tail) backslash hk

/-- Behind the string nothing happens any more. -/
theorem write_loop_end (hj : s.length ≤ j) : write_loop n j (buffer s k) = buffer s k := by
  induction n generalizing j with
  | zero => rfl
  | succ n ih =>
    have hround : write_round (buffer s k) j = buffer s k := by
      rw [write_round, if_neg]
      rw [buffer, List.getElem?_append_right (by rw [List.length_map]; exact hj),
        List.getElem?_replicate]
      split <;> simp
    rw [write_loop, hround]
    exact ih (by omega)

/-- **The deleting loop** unescapes what is left of the string.  The string gets shorter and the
    number of rounds stays, so that the last rounds are behind its end. -/
theorem write_loop_spec (done : Str) (hk : 0 < k) (hn : rest.length ≤ n) :
    c_str (write_loop n done.length (buffer (done ++ rest) k)) = done ++ unescape rest := by
  induction rest using unescape.induct generalizing done n k with
  | case1 => rw [List.append_nil, write_loop_end le_rfl, c_str_buffer, unescape, List.append_nil]
  | case2 =>
    obtain ⟨n, rfl⟩ := Nat.exists_eq_succ_of_ne_zero (Nat.ne_of_gt hn)
    rw [write_loop, write_round_last hk, write_loop_end (Nat.le_succ _), c_str_buffer, unescape,
      if_pos rfl, List.append_nil]
  | case3 c hc =>
    obtain ⟨n, rfl⟩ := Nat.exists_eq_succ_of_ne_zero (Nat.ne_of_gt hn)
    rw [write_loop, write_round_other hc, ← length_append_singleton done c, write_loop_end le_rfl,
      c_str_buffer, unescape, if_neg hc]
  | case4 d s ih =>
    obtain ⟨n, rfl⟩ := Nat.exists_eq_succ_of_ne_zero (Nat.ne_of_gt (Nat.zero_lt_of_lt hn))
    have hn' : s.length ≤ n := by
      rw [List.length_cons, List.length_cons] at hn
      omega
    rw [write_loop, write_round_escape hk, unescape, if_pos rfl]
    -- one character is done, and one terminator more is behind the string
    generalize (if d = letter_n then newline else d) = e
    rw [List.append_cons, List.append_cons done e (unescape s), ← length_append_singleton done e]
    exact ih (done ++ [e]) (Nat.succ_pos k) hn'
  | case5 c d s hc ih =>
    obtain ⟨n, rfl⟩ := Nat.exists_eq_succ_of_ne_zero (Nat.ne_of_gt (Nat.zero_lt_of_lt hn))
    rw [write_loop, write_round_other hc, unescape, if_neg hc, List.append_cons,
      List.append_cons done c (unescape _), ← length_append_singleton done c]
    exact ih (done ++ [c]) hk (Nat.le_of_succ_le_succ hn)

/-! ### The lines of the text -/

/-- `strsep(&ptr, "\n")`: the string up to the first newline, and where `ptr` points then. -/
def strsep (ptr : Str) : Str × Option Str :=
  (ptr.takeWhile (· ≠ newline), (ptr.dropWhile (· ≠ newline)).tail?)

/-- `while ( ptr )`, for `n` rounds at most, with what is in `v` -/
def strsep_loop : ℕ → Option Str → List Str → List Str
  | n + 1, some ptr, v => strsep_loop n (strsep ptr).2 (v ++ [(strsep ptr).1])
  | _, _, v => v

/-- The vector `v` of the two functions. -/
def pieces (s : Str) : List Str := strsep_loop (s.length + 1) (some s) []

theorem strsep_last (hs : newline ∉ s) : strsep s = (s, none) := by
  have hall : ∀ c ∈ s, decide (c ≠ newline) = true :=
    fun c hc => decide_eq_true fun h => hs (h ▸ hc)
  rw [strsep, List.takeWhile_eq_self_iff.mpr hall, List.dropWhile_eq_nil_iff.mpr hall]
  rfl

theorem strsep_newline (hs : newline ∉ s) (rest : Str) :
    strsep (s ++ newline :: rest) = (s, some rest) := by
  have hall : ∀ c ∈ s, decide (c ≠ newline) = true :=
    fun c hc => decide_eq_true fun h => hs (h ▸ hc)
  rw [strsep, List.takeWhile_append_of_pos hall, List.dropWhile_append_of_pos hall,
    List.takeWhile_cons_of_neg (by simp), List.dropWhile_cons_of_neg (by simp), List.append_nil]
  rfl

/-- A round takes one character at least, or is the last one. -/
theorem strsep_loop_eq (hn : s.length < n) (v : List Str) :
    strsep_loop n (some s) v = v ++ s.splitOn newline := by
  induction n generalizing s v with
  | zero => cases hn
  | succ n ih =>
    rw [strsep_loop]
    by_cases hs : newline ∈ s
    · obtain ⟨s, rest, rfl, hfree⟩ := List.eq_append_cons_of_mem hs
      have hrest : rest.length < n := by
        rw [List.length_append, List.length_cons] at hn
        omega
      rw [strsep_newline hfree, ih hrest, List.splitOn_append_cons_self_of_not_mem hfree,
        List.append_assoc, List.singleton_append]
    · rw [strsep_last hs, List.splitOn_eq_singleton hs]
      cases n <;> rfl

/-- **The loop around `strsep`** splits at the newlines. -/
theorem pieces_eq (s : Str) : pieces s = s.splitOn newline := strsep_loop_eq (Nat.lt_succ_self _) []

/-- There is a first piece. -/
theorem splitOn_cons (s : Str) : ∃ first v, s.splitOn newline = first :: v :=
  List.exists_cons_of_ne_nil (List.splitOn_ne_nil newline s)

end SystemProgramming.TextEditor
