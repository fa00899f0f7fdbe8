import SystemProgramming.Lib.CString
import SystemProgramming.Lib.Fields
import SystemProgramming.PasswordCracker.Search

namespace SystemProgramming.PasswordCracker.Cracker1

open Lib

/-!
# `cracker1.c` — a password search with a queue

The main thread reads the tasks and pushes them to a queue, and at last a null pointer; each search
thread pulls tasks and searches for their passwords until it pulls the null pointer, which it pushes
again for the next thread.  A step is a call of `queue_pull` or `queue_push`, the hash of a string,
or a `pthread_join`.  The times that are measured are left out.

* `parse_line` — a task from a line.
* `start_routine`, `start` — the steps of a search thread and of the main thread.
* `system` — any order of their steps.
* `crack` — what a search should find.
-/

def space : UInt8 := 32

/-- The end of the line is overwritten, and the rest is divided by `strtok_r`.  A string that is
    missing, or longer than its array, is not defined. -/
def parse_line (line : Str) : Option Task := do
  let (username, rest) ← strtok (· = space) (line.dropLast.takeWhile (· ≠ 0))
  let (value, rest) ← strtok (· = space) rest
  let (part_pwd, _) ← strtok (· = space) rest
  if username.length < 9 ∧ value.length < 14 ∧ part_pwd.length < 9 then
    some ⟨username, value, part_pwd⟩
  else none

structure job where
  success : ℕ
  fail : ℕ

/-- Where a search thread goes on. -/
inductive Place
  | queue_pull
  /-- the body of the inner loop, with the number of strings that have been hashed -/
  | crack (new_work : Task) (raw : Str) (count : ℕ)
  | queue_push
  | finished

/-- Where the main thread goes on. -/
inductive Main
  | getline
  | pthread_join (i : ℕ)
  | finished
  deriving DecidableEq

/-- `v1_print_thread_result`, with the task and the index of the thread. -/
structure Report (n : ℕ) where
  thread : Fin n
  task : Task
  password : Option Str
  count : ℕ
  flag : ℕ

structure State (n : ℕ) where
  main : Main
  place : Fin n → Place
  threads : Fin n → job
  work : List (Option Task)
  /-- the lines that are not read yet -/
  lines : List Str
  num_success : ℕ
  num_fail : ℕ
  /-- `v1_print_thread_start`, with the task -/
  started : List Task
  reports : List (Report n)
  /-- `v1_print_summary` -/
  summary : Option (ℕ × ℕ)

variable {n : ℕ}

namespace State

def move (s : State n) (i : Fin n) (v : Place) : State n :=
  { s with place := Function.update s.place i v }

def setWork (s : State n) (work : List (Option Task)) : State n := { s with work := work }

/-- `v1_print_thread_start` -/
def begin_task (s : State n) (t : Task) : State n := { s with started := s.started ++ [t] }

/-- The end of a search. -/
def result (s : State n) (i : Fin n) (t : Task) (password : Option Str) (count : ℕ) : State n :=
  let flag := if password = none then 1 else 0
  { s with
    place := Function.update s.place i .queue_pull
    threads := Function.update s.threads i
      (match password with
        | none => { s.threads i with fail := (s.threads i).fail + 1 }
        | some _ => { s.threads i with success := (s.threads i).success + 1 })
    reports := s.reports ++ [⟨i, t, password, count, flag⟩] }

variable {s : State n} {i j : Fin n}

theorem move_self (v : Place) : (s.move i v).place i = v := by
  simp only [move, Function.update_self]

theorem move_ne (v : Place) (h : j ≠ i) : (s.move i v).place j = s.place j := by
  simp only [move, Function.update_of_ne h]

theorem result_self (t : Task) (password : Option Str) (count : ℕ) :
    (s.result i t password count).place i = .queue_pull := by
  simp only [result, Function.update_self]

theorem result_ne (t : Task) (password : Option Str) (count : ℕ) (h : j ≠ i) :
    (s.result i t password count).place j = s.place j := by
  simp only [result, Function.update_of_ne h]

theorem result_reports (t : Task) (password : Option Str) (count : ℕ) :
    (s.result i t password count).reports =
      s.reports ++ [⟨i, t, password, count, if password = none then 1 else 0⟩] := rfl

end State

section Steps
variable (U : Utils) (incremented : Str → Bool)

/-- The first string, and the last. -/
def raw (t : Task) : Str :=
  t.pwd.take (U.getPrefixLength t.pwd) ++ List.replicate (U.unknown t) 97

def last (t : Task) : Str :=
  t.pwd.take (U.getPrefixLength t.pwd) ++ List.replicate (U.unknown t) 122

/-- A step of a search thread; `incremented` is what `incrementString` returns.  A number that is no
    `int` is not defined. -/
def start_routine (s : State n) (i : Fin n) : Option (State n) :=
  match s.place i with
  | .queue_pull =>
    match s.work with
    | [] => none
    | none :: work => some ((s.move i .queue_push).setWork work)
    | some t :: work => some (((s.move i (.crack t (raw U t) 0)).setWork work).begin_task t)
  | .crack t raw count =>
    if count + 1 < 2 ^ 31 then
      if U.crypt_r raw = t.value then
        if (s.threads i).success + 1 < 2 ^ 31 then some (s.result i t (some raw) (count + 1))
        else none
      else if raw ≠ last U t ∧ incremented raw then
        some (s.move i (.crack t (U.incrementString raw) (count + 1)))
      else if (s.threads i).fail + 1 < 2 ^ 31 then some (s.result i t none (count + 1))
      else none
    else none
  | .queue_push => some ((s.move i .finished).setWork (s.work ++ [none]))
  | .finished => none

/-- A step of the main thread. -/
def start (s : State n) : Option (State n) :=
  match s.main with
  | .getline =>
    match s.lines with
    | [] => some { s with main := .pthread_join 0, work := s.work ++ [none] }
    | line :: lines => (parse_line line).map fun t =>
        { s with lines := lines, work := s.work ++ [some t] }
  | .pthread_join i =>
    if h : i < n then
      let j := s.threads ⟨i, h⟩
      match s.place ⟨i, h⟩ with
      | .finished =>
        if s.num_success + j.success < 2 ^ 31 ∧ s.num_fail + j.fail < 2 ^ 31 then some { s with
          main := .pthread_join (i + 1)
          num_success := s.num_success + j.success
          num_fail := s.num_fail + j.fail }
        else none
      | _ => none
    else some { s with main := .finished, summary := some (s.num_success, s.num_fail) }
  | .finished => none

def initial (n : ℕ) (lines : List Str) : State n where
  main := .getline
  place _ := .queue_pull
  threads _ := ⟨0, 0⟩
  work := []
  lines := lines
  num_success := 0
  num_fail := 0
  started := []
  reports := []
  summary := none

/-- Which thread makes the next step is the label; `none` is the main thread. -/
def system (n : ℕ) (lines : List Str) : Lts (State n) (Option (Fin n)) where
  init s := s = initial n lines
  step s
    | none => start s
    | some i => start_routine U incremented s i

end Steps

/-! ### What a step does -/

section Moves

variable {U : Utils} {incremented : Str → Bool} {s s' : State n} {i : Fin n}

/-- **Everything that a step of a search thread can do.** -/
inductive Searches (U : Utils) (incremented : Str → Bool) (s : State n) (i : Fin n) :
    State n → Prop
  | pull (t : Task) (work : List (Option Task)) (h : s.place i = .queue_pull)
      (hwork : s.work = some t :: work) : Searches U incremented s i
        (((s.move i (.crack t (raw U t) 0)).setWork work).begin_task t)
  | pull_null (work : List (Option Task)) (h : s.place i = .queue_pull)
      (hwork : s.work = none :: work) :
      Searches U incremented s i ((s.move i .queue_push).setWork work)
  | hit (t : Task) (raw : Str) (count : ℕ) (h : s.place i = .crack t raw count)
      (hhit : U.crypt_r raw = t.value) :
      Searches U incremented s i (s.result i t (some raw) (count + 1))
  | next (t : Task) (raw : Str) (count : ℕ) (h : s.place i = .crack t raw count)
      (hmiss : U.crypt_r raw ≠ t.value) (hlast : raw ≠ last U t) :
      Searches U incremented s i (s.move i (.crack t (U.incrementString raw) (count + 1)))
  | miss (t : Task) (raw : Str) (count : ℕ) (h : s.place i = .crack t raw count)
      (hmiss : U.crypt_r raw ≠ t.value) (hend : raw ≠ last U t → incremented raw = false) :
      Searches U incremented s i (s.result i t none (count + 1))
  | push (h : s.place i = .queue_push) :
      Searches U incremented s i ((s.move i .finished).setWork (s.work ++ [none]))

theorem searches_of_step (h : start_routine U incremented s i = some s') :
    Searches U incremented s i s' := by
  unfold start_routine at h
  split at h
  · rename_i hplace
    split at h
    · cases h
    · rename_i work hwork
      obtain rfl := Option.some.inj h
      exact .pull_null work hplace hwork
    · rename_i t work hwork
      obtain rfl := Option.some.inj h
      exact .pull t work hplace hwork
  · rename_i t raw count hplace
    obtain ⟨-, h⟩ := Option.ite_none_right_eq_some.mp h
    split at h
    · rename_i hhit
      obtain ⟨-, h⟩ := Option.ite_none_right_eq_some.mp h
      obtain rfl := Option.some.inj h
      exact .hit t raw count hplace hhit
    · rename_i hmiss
      split at h
      · rename_i hnext
        obtain rfl := Option.some.inj h
        exact .next t raw count hplace hmiss hnext.1
      · rename_i hnext
        obtain ⟨-, h⟩ := Option.ite_none_right_eq_some.mp h
        obtain rfl := Option.some.inj h
        refine .miss t raw count hplace hmiss fun hlast => ?_
        exact Bool.eq_false_iff.mpr fun hinc => hnext ⟨hlast, hinc⟩
  · rename_i hplace
    obtain rfl := Option.some.inj h
    exact .push hplace
  · cases h

/-- **Everything that a step of the main thread can do.** -/
inductive Manages (s : State n) : State n → Prop
  | line (t : Task) (line : Str) (lines : List Str) (h : s.main = .getline)
      (hlines : s.lines = line :: lines) (ht : parse_line line = some t) :
      Manages s { s with lines := lines, work := s.work ++ [some t] }
  | eof (h : s.main = .getline) (hlines : s.lines = []) :
      Manages s { s with main := .pthread_join 0, work := s.work ++ [none] }
  | join (i : Fin n) (h : s.main = .pthread_join i) (hplace : s.place i = .finished) :
      Manages s { s with
        main := .pthread_join (i + 1)
        num_success := s.num_success + (s.threads i).success
        num_fail := s.num_fail + (s.threads i).fail }
  | summary (i : ℕ) (h : s.main = .pthread_join i) (hi : n ≤ i) :
      Manages s { s with main := .finished, summary := some (s.num_success, s.num_fail) }

theorem manages_of_step (h : start s = some s') : Manages s s' := by
  unfold start at h
  split at h
  · rename_i hmain
    split at h
    · rename_i hlines
      obtain rfl := Option.some.inj h
      exact .eof hmain hlines
    · rename_i line lines hlines
      obtain ⟨t, ht, rfl⟩ := Option.map_eq_some_iff.mp h
      exact .line t line lines hmain hlines ht
  · rename_i i hmain
    split at h
    · rename_i hi
      dsimp only at h
      split at h
      · rename_i hplace
        obtain ⟨-, h⟩ := Option.ite_none_right_eq_some.mp h
        obtain rfl := Option.some.inj h
        exact .join ⟨i, hi⟩ hmain hplace
      · cases h
    · obtain rfl := Option.some.inj h
      exact .summary i hmain (by omega)
  · cases h

end Moves

/-! ### What the search is for -/

/-- The index of the first string with the hash. -/
def first (U : Utils) (t : Task) : Option ℕ :=
  (List.range (26 ^ U.unknown t)).find? fun k => U.crypt_r (U.candidate t k) = t.value

/-- The first string with the hash, and how many strings are hashed. -/
def crack (U : Utils) (t : Task) : Option Str × ℕ :=
  match first U t with
  | some k => (some (U.candidate t k), k + 1)
  | none => (none, 26 ^ U.unknown t)

/-- `incrementString` returns whether there is a next string. -/
def Increments (incremented : Str → Bool) : Prop :=
  ∀ s u k, s.length + u ≤ 8 → k + 1 < 26 ^ u → incremented (s ++ combination u k) = true

end SystemProgramming.PasswordCracker.Cracker1
