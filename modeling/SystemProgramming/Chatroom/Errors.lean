import Mathlib.Data.Int.DivMod
import Mathlib.Data.Nat.Find
import Mathlib.Order.Bounds.Basic
import SystemProgramming.Chatroom.Utils

namespace SystemProgramming.Chatroom.Errors

open Lib

/-!
# What the helpers of the chat report

`read_all_from_socket` and `write_all_to_socket` against the results of the system calls that they
make, one after the other and without an end.  A call that fails leaves a reason in `errno`, a call
that succeeds leaves `errno` as it is, and none transfers more than `MAX_RW_COUNT` bytes.

* `read_round`, `write_round` — the bodies of the two loops; `after` is a loop after some calls.
* `write_round_eq` — the conversion of the result to `int` in one of them makes no difference.
* `Reports` — what the header says that a function returns.
* `after_of_undecided` — the loops count what was transferred.
* `reports_iff` — they return what the header says unless a call fails for good.
* `retval_eq` — the functions on the data return the same.
-/

/-- What Linux transfers at most in one call. -/
def MAX_RW_COUNT : ℕ := 0x7ffff000

/-- What a call for `asked` bytes returns. -/
def result (asked : ℕ) : Answer → ℤ
  | .bytes k => (min k (min asked MAX_RW_COUNT) : ℕ)
  | _ => -1

/-- Whether `errno` is `EINTR` after a call. -/
def errno (eintr : Bool) : Answer → Bool
  | .intr => true
  | .fail => false
  | .bytes _ => eintr

/-- A loop that goes on, with `errno`, or a function that has returned. -/
inductive Loop
  | running (offset : ℕ) (eintr : Bool)
  | returned (retval : ℤ)
  deriving DecidableEq

/-- The value of a `ssize_t` as an `int` -/
def int (n : ℤ) : ℤ := n.bmod (2 ^ 32)

/-- The body of the loop of `read_all_from_socket` -/
def read_round (count offset : ℕ) (eintr : Bool) (a : Answer) : Loop :=
  let result := result (count - offset) a
  let eintr := errno eintr a
  if result = -1 ∧ eintr then .running offset eintr
  else if result = 0 then .returned 0
  else if result > 0 then .running (offset + result.toNat) eintr
  else .running offset eintr

/-- The body of the loop of `write_all_to_socket` -/
def write_round (count offset : ℕ) (eintr : Bool) (a : Answer) : Loop :=
  let result := result (count - offset) a
  let eintr := errno eintr a
  if int result = -1 ∧ eintr then .running offset eintr
  else
    let offset := if result > 0 then offset + result.toNat else offset
    if result = 0 then .returned 0 else .running offset eintr

/-- `while ((size_t)offset < count)`, and `return count` behind it -/
def Loop.test (count : ℕ) : Loop → Loop
  | running offset eintr => if offset < count then .running offset eintr else .returned count
  | returned retval => .returned retval

/-- One more call. -/
def step (round : ℕ → ℕ → Bool → Answer → Loop) (count : ℕ) (l : Loop) (a : Answer) : Loop :=
  match l with
  | .running offset eintr => (round count offset eintr a).test count
  | .returned retval => .returned retval

/-- A function after `calls` calls; `eintr` says what `errno` is when it begins. -/
def after (round : ℕ → ℕ → Bool → Answer → Loop) (count : ℕ) (eintr : Bool) (results : ℕ → Answer)
    (calls : ℕ) : Loop :=
  ((List.range calls).map results).foldl (step round count) ((Loop.running 0 eintr).test count)

def read_all_from_socket (count : ℕ) (eintr : Bool) (results : ℕ → Answer) (calls : ℕ) : Loop :=
  after read_round count eintr results calls

def write_all_to_socket (count : ℕ) (eintr : Bool) (results : ℕ → Answer) (calls : ℕ) : Loop :=
  after write_round count eintr results calls

/-! ### What the header says -/

/-- The bytes that a call transfers. -/
def size : Answer → ℕ
  | .bytes k => min k MAX_RW_COUNT
  | _ => 0

/-- The bytes that the first calls transfer. -/
def transferred (results : ℕ → Answer) : ℕ → ℕ
  | 0 => 0
  | n + 1 => transferred results n + size (results n)

/-- After `n` calls all bytes are transferred, or the next call fails or reports a peer that has
    disconnected. -/
def Decides (count : ℕ) (results : ℕ → Answer) (n : ℕ) : Prop :=
  count ≤ transferred results n ∨ results n = .fail ∨ results n = .bytes 0

/-- Returns the number of bytes, 0 if the socket is disconnected, or -1 on failure. -/
def documented (count : ℕ) (results : ℕ → Answer) (n : ℕ) : ℤ :=
  if count ≤ transferred results n then count else if results n = .fail then -1 else 0

/-- The function returns after finitely many calls, with what the first decisive event asks for. -/
def Reports (count : ℕ) (results : ℕ → Answer) (run : ℕ → Loop) : Prop :=
  ∃ n, IsLeast {n | Decides count results n} n ∧
    ∃ calls, run calls = .returned (documented count results n)

/-- A failure is permanent: every later call fails too. -/
def Permanent (results : ℕ → Answer) : Prop :=
  ∀ i, results i = .fail → ∀ j ≥ i, results j = .fail ∨ results j = .intr

/-- A call fails before all bytes are transferred, and before the peer has disconnected. -/
def Fails (count : ℕ) (results : ℕ → Answer) : Prop :=
  ∃ n, results n = .fail ∧ transferred results n < count ∧ ∀ i < n, results i ≠ .bytes 0

variable {round : ℕ → ℕ → Bool → Answer → Loop} {count offset n : ℕ} {eintr : Bool}
  {results : ℕ → Answer} {a : Answer}

/-! ### One round -/

/-- What a round does, for an offset that is not at the end. -/
def turn (count offset : ℕ) (eintr : Bool) : Answer → Loop
  | .intr => .running offset true
  | .fail => .running offset false
  | .bytes k =>
    if k = 0 then .returned 0
    else .running (offset + min k (min (count - offset) MAX_RW_COUNT)) eintr

/-- Something is transferred unless nothing is there. -/
theorem transfer_pos {k : ℕ} (hlt : offset < count) (hk : k ≠ 0) :
    0 < min k (min (count - offset) MAX_RW_COUNT) := by
  rw [MAX_RW_COUNT]
  omega

theorem read_round_eq (hlt : offset < count) :
    read_round count offset eintr a = turn count offset eintr a := by
  cases a with
  | intr => rfl
  | fail => rfl
  | bytes k =>
    rw [read_round, turn, result, if_neg (by omega)]
    by_cases hk : k = 0
    · rw [hk, Nat.zero_min]
      rfl
    · have hpos := transfer_pos hlt hk
      rw [if_neg (by omega), if_pos (by omega), if_neg hk, Int.toNat_natCast]
      rfl

/-- What was transferred is the same as an `int`. -/
theorem int_result_eq (asked : ℕ) (a : Answer) : int (result asked a) = result asked a := by
  cases a with
  | intr => rfl
  | fail => rfl
  | bytes k =>
    have hle : min k (min asked MAX_RW_COUNT) ≤ 0x7ffff000 :=
      (Nat.min_le_right _ _).trans (Nat.min_le_right _ _)
    rw [result]
    exact Int.bmod_eq_of_le (by omega) (by omega)

theorem write_round_eq (hlt : offset < count) :
    write_round count offset eintr a = turn count offset eintr a := by
  rw [write_round, int_result_eq]
  cases a with
  | intr => rfl
  | fail => rfl
  | bytes k =>
    rw [turn, result, if_neg (by omega)]
    by_cases hk : k = 0
    · rw [hk, Nat.zero_min]
      rfl
    · have hpos := transfer_pos hlt hk
      rw [if_neg (by omega), if_pos (by omega), if_neg hk, Int.toNat_natCast]
      rfl

/-! ### Any number of rounds -/

theorem after_succ (n : ℕ) : after round count eintr results (n + 1) =
    step round count (after round count eintr results n) (results n) := by
  rw [after, List.range_succ, List.map_append, List.foldl_append]
  rfl

theorem lt_of_test {l : Loop} (h : l.test count = .running offset eintr) : offset < count := by
  cases l with
  | running offset' eintr' =>
    rw [Loop.test] at h
    split at h
    · rename_i hlt
      cases h
      exact hlt
    · cases h
  | returned retval => cases h

/-- A loop that goes on is not at the end. -/
theorem lt_of_after {eintr' : Bool}
    (h : after round count eintr results n = .running offset eintr') : offset < count := by
  cases n with
  | zero => exact lt_of_test (l := .running 0 eintr) h
  | succ n =>
    rw [after_succ] at h
    cases hl : after round count eintr results n with
    | running offset₀ eintr₀ =>
      rw [hl, step] at h
      exact lt_of_test h
    | returned retval =>
      rw [hl] at h
      cases h

/-- **Both functions** take the same turns. -/
theorem after_eq_turn (hround : ∀ {offset : ℕ}, offset < count → ∀ eintr a,
      round count offset eintr a = turn count offset eintr a) (n : ℕ) :
    after round count eintr results n = after turn count eintr results n := by
  induction n with
  | zero => rfl
  | succ n ih =>
    rw [after_succ, after_succ, ih]
    cases hl : after turn count eintr results n with
    | running offset eintr' => rw [step, step, hround (lt_of_after hl)]
    | returned retval => rfl

theorem read_all_from_socket_eq :
    read_all_from_socket count eintr results = after turn count eintr results :=
  funext fun n => after_eq_turn (fun hlt _ _ => read_round_eq hlt) n

theorem write_all_to_socket_eq :
    write_all_to_socket count eintr results = after turn count eintr results :=
  funext fun n => after_eq_turn (fun hlt _ _ => write_round_eq hlt) n

theorem returned_of_le {m n : ℕ} {v : ℤ} (hle : m ≤ n)
    (h : after round count eintr results m = .returned v) :
    after round count eintr results n = .returned v := by
  induction n, hle using Nat.le_induction with
  | base => exact h
  | succ n _ ih => rw [after_succ, ih, step]

/-- **Before the first decisive event** a loop has counted what was transferred. -/
theorem after_of_undecided (eintr : Bool) (hbefore : ∀ i < n, ¬ Decides count results i) :
    ∃ eintr', after turn count eintr results n =
      (Loop.running (min count (transferred results n)) eintr').test count := by
  induction n with
  | zero => exact ⟨eintr, by rw [transferred, Nat.min_zero]; rfl⟩
  | succ n ih =>
    obtain ⟨eintr', hn⟩ := ih fun i hi => hbefore i (by omega)
    obtain ⟨hlt, hfail, hclosed⟩ : transferred results n < count ∧ results n ≠ .fail ∧
        results n ≠ .bytes 0 := by
      have hundecided := hbefore n (Nat.lt_succ_self n)
      rw [Decides, not_or, not_or, not_le] at hundecided
      exact hundecided
    rw [Nat.min_eq_right hlt.le, Loop.test, if_pos hlt] at hn
    rw [after_succ, hn, step, transferred]
    cases hresult : results n with
    | intr =>
      refine ⟨true, ?_⟩
      show _ = (Loop.running (min count (transferred results n)) true).test count
      rw [Nat.min_eq_right hlt.le, turn]
    | fail => exact absurd hresult hfail
    | bytes k =>
      have hk : k ≠ 0 := fun hk => hclosed (hk ▸ hresult)
      refine ⟨eintr', ?_⟩
      rw [turn, if_neg hk, size]
      congr 2
      omega

/-! ### What the functions return -/

/-- **After the first decisive event** a function has returned what the header says, unless it is a
    failure. -/
theorem returns_of_least (hleast : IsLeast {n | Decides count results n} n)
    (hfails : ¬ Fails count results) :
    ∃ calls, after turn count eintr results calls = .returned (documented count results n) := by
  have hbefore : ∀ i < n, ¬ Decides count results i := fun i hi hd =>
    absurd (hleast.2 hd) (not_le.mpr hi)
  obtain ⟨eintr', hn⟩ := after_of_undecided eintr hbefore
  by_cases hle : count ≤ transferred results n
  · -- all bytes are transferred
    refine ⟨n, ?_⟩
    rw [hn, Nat.min_eq_left hle, Loop.test, if_neg (Nat.lt_irrefl _), documented, if_pos hle]
  · -- the peer has disconnected, since a failure is ruled out
    have hlt := not_le.mp hle
    have hclosed : results n = .bytes 0 := by
      rcases hleast.1 with h | h | h
      · exact absurd h hle
      · exact absurd ⟨n, h, hlt, fun i hi hi' => hbefore i hi (.inr (.inr hi'))⟩ hfails
      · exact h
    refine ⟨n + 1, ?_⟩
    rw [after_succ, hn, Nat.min_eq_right hlt.le, Loop.test, if_pos hlt, step, hclosed, turn,
      if_pos rfl, documented, if_neg hle, hclosed]
    rfl

theorem transferred_mono {m n : ℕ} (hle : m ≤ n) :
    transferred results m ≤ transferred results n := by
  induction n, hle using Nat.le_induction with
  | base => exact le_rfl
  | succ n _ ih => exact ih.trans (Nat.le_add_right _ _)

/-- The first decisive event, where a call fails. -/
theorem Fails.least (hfails : Fails count results) :
    ∃ n, results n = .fail ∧ transferred results n < count ∧
      ∀ i < n, ¬ Decides count results i := by
  classical
  have hexists : ∃ n, results n = .fail ∧ transferred results n < count ∧
      ∀ i < n, results i ≠ .bytes 0 := hfails
  obtain ⟨hfail, hlt, hclosed⟩ := Nat.find_spec hexists
  refine ⟨Nat.find hexists, hfail, hlt, fun i hi => ?_⟩
  rintro (hle | hfail' | hclosed')
  · exact absurd (hle.trans (transferred_mono hi.le)) (not_le.mpr hlt)
  · refine Nat.find_min hexists hi ⟨hfail', (transferred_mono hi.le).trans_lt hlt, fun j hj => ?_⟩
    exact hclosed j (hj.trans hi)
  · exact hclosed i hi hclosed'

/-- **After a failure** a loop goes round for ever. -/
theorem after_of_fails (hperm : Permanent results) (hfails : Fails count results) (calls : ℕ)
    (v : ℤ) : after turn count eintr results calls ≠ .returned v := by
  obtain ⟨n, hfail, hlt, hbefore⟩ := hfails.least
  obtain ⟨eintr₀, hn⟩ := after_of_undecided eintr hbefore
  rw [Nat.min_eq_right hlt.le, Loop.test, if_pos hlt] at hn
  -- neither does the offset advance nor is the loop left
  have hspin : ∀ m ≥ n, ∃ eintr', after turn count eintr results m =
      .running (transferred results n) eintr' := by
    intro m hm
    induction m, hm using Nat.le_induction with
    | base => exact ⟨eintr₀, hn⟩
    | succ m hm ih =>
      obtain ⟨eintr', hrun⟩ := ih
      rcases hperm n hfail m hm with h | h
      · exact ⟨false, by rw [after_succ, hrun, h, step, turn, Loop.test, if_pos hlt]⟩
      · exact ⟨true, by rw [after_succ, hrun, h, step, turn, Loop.test, if_pos hlt]⟩
  intro hreturned
  obtain ⟨eintr', hrun⟩ := hspin (max n calls) (le_max_left _ _)
  rw [returned_of_le (le_max_right _ _) hreturned] at hrun
  cases hrun

theorem reports_turn_iff (hperm : Permanent results) (hdecides : ∃ n, Decides count results n) :
    Reports count results (after turn count eintr results) ↔ ¬ Fails count results := by
  classical
  constructor
  · rintro ⟨n, -, calls, hreturned⟩ hfails
    exact after_of_fails hperm hfails calls _ hreturned
  · intro hfails
    have hleast : IsLeast {n | Decides count results n} (Nat.find hdecides) :=
      ⟨Nat.find_spec hdecides, fun m hm => Nat.find_min' hdecides hm⟩
    exact ⟨_, hleast, returns_of_least hleast hfails⟩

/-- **`read_all_from_socket` and `write_all_to_socket`** return what the header says exactly if no
    call fails before that.  Otherwise they do not return. -/
theorem reports_iff (count : ℕ) (eintr : Bool) (results : ℕ → Answer) (hperm : Permanent results)
    (hdecides : ∃ n, Decides count results n) :
    (Reports count results (read_all_from_socket count eintr results) ↔ ¬ Fails count results) ∧
    (Reports count results (write_all_to_socket count eintr results) ↔ ¬ Fails count results) := by
  rw [read_all_from_socket_eq, write_all_to_socket_eq]
  exact ⟨reports_turn_iff hperm hdecides, reports_turn_iff hperm hdecides⟩

/-- Seven bytes in three calls, of which one is interrupted. -/
theorem reports_iff_seven :
    let results := fun i => if i = 1 then Answer.intr else .bytes 4
    Reports 7 results (read_all_from_socket 7 false results) ∧
      Reports 7 results (write_all_to_socket 7 false results) := by
  intro results
  have hnever : ∀ i, results i ≠ .fail := by
    intro i
    dsimp only [results]
    split <;> exact Answer.noConfusion
  have hfails : ¬ Fails 7 results := fun ⟨n, hfail, _⟩ => hnever n hfail
  obtain ⟨hread, hwrite⟩ := reports_iff 7 false results (fun i hfail => absurd hfail (hnever i))
    ⟨3, .inl (by decide)⟩
  exact ⟨hread.mpr hfails, hwrite.mpr hfails⟩

/-- A connection that is reset, as soon as a byte is to be transferred. -/
theorem not_reports :
    (∀ calls, read_all_from_socket 1 false (fun _ => .fail) calls = .running 0 false ∧
      write_all_to_socket 1 false (fun _ => .fail) calls = .running 0 false) ∧
    ¬ ∀ count eintr results, Permanent results → (∃ n, Decides count results n) →
      Reports count results (read_all_from_socket count eintr results) ∧
      Reports count results (write_all_to_socket count eintr results) := by
  have hspin : ∀ calls, read_all_from_socket 1 false (fun _ => .fail) calls = .running 0 false ∧
      write_all_to_socket 1 false (fun _ => .fail) calls = .running 0 false := by
    intro calls
    induction calls with
    | zero => exact ⟨rfl, rfl⟩
    | succ calls ih =>
      obtain ⟨hread, hwrite⟩ := ih
      rw [read_all_from_socket] at hread
      rw [write_all_to_socket] at hwrite
      rw [read_all_from_socket, write_all_to_socket, after_succ, after_succ, hread, hwrite]
      exact ⟨rfl, rfl⟩
  refine ⟨hspin, fun hall => ?_⟩
  obtain ⟨⟨n, -, calls, hreturned⟩, -⟩ := hall 1 false (fun _ => .fail) (fun _ _ _ _ => .inl rfl)
    ⟨0, .inr (.inl rfl)⟩
  rw [(hspin calls).1] at hreturned
  cases hreturned

/-! ### The loops on the data -/

def Loop.retval : Loop → Option ℤ
  | running _ _ => none
  | returned retval => some retval

theorem foldl_returned (as : List Answer) (v : ℤ) :
    as.foldl (step round count) (.returned v) = .returned v := by
  induction as with
  | nil => rfl
  | cons a as ih => exact ih

/-- A call that transfers nothing, and after which the loop goes on. -/
theorem foldl_again {eintr' : Bool} (as : List Answer)
    (hturn : turn count offset eintr a = .running offset eintr') :
    (a :: as).foldl (step turn count) (.running offset eintr) =
      as.foldl (step turn count) ((Loop.running offset eintr').test count) := by
  rw [List.foldl_cons, step, hturn]

/-- **`write_loop`** returns what the turns do, from any place in the buffer. -/
theorem write_loop_retval (hcount : count ≤ MAX_RW_COUNT) (as : List Answer) {buffer : List UInt8}
    (hbuffer : offset + buffer.length = count) (eintr : Bool) :
    (write_loop count as buffer).retval.map (fun n => (n : ℤ)) =
      (as.foldl (step turn count) ((Loop.running offset eintr).test count)).retval := by
  induction as generalizing offset buffer eintr with
  | nil =>
    cases buffer with
    | nil => rw [Loop.test, if_neg (by simpa using hbuffer.ge)]; rfl
    | cons b buffer =>
      rw [List.length_cons] at hbuffer
      rw [Loop.test, if_pos (by omega)]
      rfl
  | cons a as ih =>
    cases buffer with
    | nil =>
      rw [Loop.test, if_neg (by simpa using hbuffer.ge), foldl_returned, write_loop]
      rfl
    | cons b buffer =>
      have hlt : offset < count := by
        rw [List.length_cons] at hbuffer
        omega
      rw [Loop.test, if_pos hlt]
      cases a with
      | intr => rw [write_loop, foldl_again as rfl, ih hbuffer]
      | fail => rw [write_loop, foldl_again as rfl, ih hbuffer]
      | bytes k =>
        rw [write_loop, List.foldl_cons, step, turn]
        by_cases hk : k = 0
        · rw [if_pos hk, if_pos hk, Loop.test, foldl_returned]
          rfl
        · rw [if_neg hk, if_neg hk]
          -- a call takes from the buffer what it adds to the offset
          refine ih ?_ eintr
          rw [List.length_drop]
          omega

/-- **`read_loop`** returns what the turns do, on a stream that does not end before. -/
theorem read_loop_retval (hcount : count ≤ MAX_RW_COUNT) (as : List Answer) {left : ℕ}
    {stream : List UInt8} (hleft : offset + left = count) (hstream : left ≤ stream.length)
    (eintr : Bool) :
    (read_loop count as left stream).retval.map (fun n => (n : ℤ)) =
      (as.foldl (step turn count) ((Loop.running offset eintr).test count)).retval := by
  induction as generalizing offset left stream eintr with
  | nil =>
    cases left with
    | zero => rw [Loop.test, if_neg (by omega)]; rfl
    | succ left => rw [Loop.test, if_pos (by omega)]; rfl
  | cons a as ih =>
    cases left with
    | zero =>
      rw [Loop.test, if_neg (by omega), foldl_returned, read_loop]
      rfl
    | succ left =>
      have hlt : offset < count := by omega
      rw [Loop.test, if_pos hlt]
      cases a with
      | intr => rw [read_loop, foldl_again as rfl, ih hleft hstream]
      | fail => rw [read_loop, foldl_again as rfl, ih hleft hstream]
      | bytes k =>
        have hlen : (stream.take (min k (left + 1))).length = min k (left + 1) :=
          List.length_take_of_le (by omega)
        rw [read_loop, List.foldl_cons, step, turn]
        dsimp only
        by_cases hk : k = 0
        · rw [if_pos (List.eq_nil_of_length_eq_zero (by omega)), if_pos hk, Loop.test,
            foldl_returned]
          rfl
        · rw [if_neg (List.ne_nil_of_length_pos (by omega)), if_neg hk, hlen]
          -- a call takes from the stream what it adds to the offset
          refine ih (by omega) ?_ eintr
          rw [List.length_drop]
          omega

/-- **The same functions** on a buffer and a stream return the same after the same calls. -/
theorem retval_eq {buffer stream : List UInt8} (hcount : buffer.length ≤ MAX_RW_COUNT)
    (hstream : buffer.length ≤ stream.length) (eintr : Bool) (results : ℕ → Answer) (n : ℕ) :
    let as := (List.range n).map results
    (Chatroom.write_all_to_socket as buffer).retval.map (fun n => (n : ℤ)) =
      (write_all_to_socket buffer.length eintr results n).retval ∧
    (Chatroom.read_all_from_socket as stream buffer.length).retval.map (fun n => (n : ℤ)) =
      (read_all_from_socket buffer.length eintr results n).retval := by
  intro as
  rw [write_all_to_socket_eq, read_all_from_socket_eq]
  exact ⟨write_loop_retval hcount as (Nat.zero_add _) eintr,
    read_loop_retval hcount as (Nat.zero_add _) hstream eintr⟩

end SystemProgramming.Chatroom.Errors
