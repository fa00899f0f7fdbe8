import SystemProgramming.Lib.Lts
import SystemProgramming.Lib.Numerals
import SystemProgramming.Lib.Rendezvous
import SystemProgramming.Vector.Vector
import Mathlib.Data.Fintype.Option

namespace SystemProgramming.PasswordCracker

open Lib
open SystemProgramming.Vector (int)

/-!
# `cracker2.c` — a password search by several threads

The threads and the main thread meet twice for each task, at `barrier1` before the search and at
`barrier2` behind it.  A step takes one thread to where it next looks at what is shared: sections
under the mutex and the calls of `pthread_barrier_wait` are one step each.  What the threads print
about themselves is left out.

* `start_routine`, `start` — the steps of a search thread and of the main thread.
* `system` — any order of their steps.
* `Candidate` — the strings of the search space.
* `Right` — what a summary should say.
-/

/-- A string without its final null. -/
abbrev Str := List UInt8

/-- A line of the input. -/
structure Task where
  username : Str
  value : Str
  pwd : Str
  deriving DecidableEq

/-- The functions that the repository does not have. -/
structure Utils where
  getPrefixLength : Str → ℕ
  setStringPosition : Str → ℕ → Str
  incrementString : Str → Str
  getSubrange : ℕ → ℕ → ℕ → ℕ × ℕ
  crypt_r : Str → Str

structure job where
  value : Str
  pwd : Str
  start_index : ℕ
  count : ℕ
  hash_count : ℕ
  /-- what has been hashed -/
  hashed : List Str

inductive Barrier
  | barrier1
  | barrier2
  deriving DecidableEq

/-- Where a thread goes on. -/
inductive Place
  | call (b : Barrier)
  | waiting (b : Barrier)
  | passed (b : Barrier)
  /-- the test of the loop, and the section behind it -/
  | head (raw : Str) (i : ℕ)
  | hash (raw : Str) (i : ℕ)
  /-- the section that keeps the password -/
  | found (raw : Str)
  /-- `getline` -/
  | read
  /-- the section that resets `find` -/
  | reset
  | join
  | finished
  deriving DecidableEq

/-- The summary of a task, with all that has been hashed for it. -/
structure Report where
  task : Task
  /-- `none` is what `malloc` leaves -/
  password : Option Str
  totalHash : ℕ
  found : Bool
  hashed : List Str

/-- `none` is the main thread. -/
structure State (n : ℕ) where
  place : Option (Fin n) → Place
  jobs : Fin n → job
  find : Bool
  stop : Bool
  password : Option Str
  task : Task
  /-- the lines that are not read yet -/
  tasks : List Task
  reports : List Report

variable {n : ℕ}

namespace State

def move (s : State n) (p : Option (Fin n)) (v : Place) : State n :=
  { s with place := Function.update s.place p v }

/-- `pthread_barrier_wait(&b)`.  The number of threads of a barrier is an `unsigned`. -/
def wait (thread_count : ℕ) (s : State n) (p : Option (Fin n)) (b : Barrier) : State n :=
  { s with place := arrive ((thread_count + 1) % 2 ^ 32) (.waiting b) (.passed b) s.place p }

def totalHash (s : State n) : ℕ := ((List.finRange n).map fun i => (s.jobs i).hash_count).sum

def hashed (s : State n) : List Str := (List.finRange n).flatMap fun i => (s.jobs i).hashed

end State

/-! ### The steps -/

section Steps
variable (U : Utils) (thread_count : ℕ)

/-- A step of a search thread. -/
def start_routine (s : State n) (i : Fin n) : Option (State n) :=
  let t := s.jobs i
  match s.place (some i) with
  | .call b => some (s.wait thread_count (some i) b)
  | .passed .barrier1 =>
    if s.stop then some (s.move (some i) .finished)
    else
      let len := U.getPrefixLength t.pwd
      let raw := t.pwd.take len ++ U.setStringPosition (t.pwd.drop len) t.start_index
      some (s.move (some i) (.head raw 0))
  | .head raw k =>
    if (k : ℤ) < int t.count ∧ s.find = false then some (s.move (some i) (.hash raw k))
    else some (s.move (some i) (.call .barrier2))
  | .hash raw k =>
    let s := { s with
      jobs := Function.update s.jobs i
        { t with hash_count := t.hash_count + 1, hashed := t.hashed ++ [raw] } }
    if U.crypt_r raw = t.value then some (s.move (some i) (.found raw))
    else some (s.move (some i) (.head (U.incrementString raw) (k + 1)))
  | .found raw =>
    -- `password` has nine bytes
    if raw.length < 9 then
      some { s.move (some i) (.call .barrier2) with find := true, password := some raw }
    else none
  | .passed .barrier2 => some (s.move (some i) (.call .barrier1))
  | _ => none

/-- A step of the main thread.  A sum that is no `int` is not defined. -/
def start (s : State n) : Option (State n) :=
  match s.place none with
  | .read =>
    match s.tasks with
    | [] => some { s.move none (.call .barrier1) with stop := true }
    | task :: tasks =>
      let unknown := task.pwd.length - U.getPrefixLength task.pwd
      some { s.move none .reset with
        task := task
        tasks := tasks
        password := none
        jobs := fun i =>
          let r := U.getSubrange unknown thread_count (i.val + 1)
          ⟨task.value, task.pwd, r.1, r.2, 0, []⟩ }
  | .reset => some { s.move none (.call .barrier1) with find := false }
  | .call b => some (s.wait thread_count none b)
  | .passed .barrier1 => some (s.move none (if s.stop then .join else .call .barrier2))
  | .passed .barrier2 =>
    if s.totalHash < 2 ^ 31 then
      some { s.move none .read with
        reports := s.reports ++ [⟨s.task, s.password, s.totalHash, s.find, s.hashed⟩] }
    else none
  | .join => if ∀ i, s.place (some i) = .finished then some (s.move none .finished) else none
  | _ => none

/-- How many threads are created. -/
def created : ℕ := (int thread_count).toNat

def initial (tasks : List Task) : State n where
  place
    | none => .read
    | some _ => .call .barrier1
  jobs _ := ⟨[], [], 0, 0, 0, []⟩
  find := false
  stop := false
  password := none
  task := ⟨[], [], []⟩
  tasks := tasks
  reports := []

/-- Which thread makes the next step is the label. -/
def system (tasks : List Task) : Lts (State (created thread_count))
    (Option (Fin (created thread_count))) where
  init s := s = initial tasks
  step s
    | none => start U thread_count s
    | some i => start_routine U thread_count s i

end Steps

/-! ### What the search is for -/

/-- The number of unknown letters. -/
def Utils.unknown (U : Utils) (t : Task) : ℕ := t.pwd.length - U.getPrefixLength t.pwd

/-- The known letters with lowercase letters for the unknown ones. -/
def Candidate (U : Utils) (t : Task) (c : Str) : Prop :=
  ∃ s : Str, s.length = U.unknown t ∧ (∀ x ∈ s, 97 ≤ x ∧ x ≤ 122) ∧
    c = t.pwd.take (U.getPrefixLength t.pwd) ++ s

/-- **A right summary.** -/
structure Right (U : Utils) (r : Report) : Prop where
  found_iff : r.found = true ↔ ∃ c, Candidate U r.task c ∧ U.crypt_r c = r.task.value
  password : r.found = true → ∃ c, r.password = some c ∧ Candidate U r.task c ∧
    U.crypt_r c = r.task.value
  /-- Each candidate has been hashed once. -/
  exhausted : r.found = false → r.hashed.Nodup ∧ (∀ c, c ∈ r.hashed ↔ Candidate U r.task c) ∧
    r.totalHash = 26 ^ U.unknown r.task

/-- The `k`-th combination of `u` lowercase letters. -/
def combination (u k : ℕ) : Str := (numeral 26 u k).map fun d => UInt8.ofNat (97 + d)

/-- What is known of the missing functions, for up to eight letters. -/
structure Documented (U : Utils) : Prop where
  getPrefixLength_le : ∀ s, U.getPrefixLength s ≤ s.length
  position : ∀ s k, s.length ≤ 8 → k < 26 ^ s.length →
    U.setStringPosition s k = combination s.length k
  increment : ∀ s u k, s.length + u ≤ 8 → k + 1 < 26 ^ u →
    U.incrementString (s ++ combination u k) = s ++ combination u (k + 1)
  subrange_first : ∀ u m, u ≤ 8 → 0 < m → (U.getSubrange u m 1).1 = 0
  subrange_next : ∀ u m i, u ≤ 8 → 0 < i → i < m →
    (U.getSubrange u m (i + 1)).1 = (U.getSubrange u m i).1 + (U.getSubrange u m i).2
  subrange_last : ∀ u m, u ≤ 8 → 0 < m →
    (U.getSubrange u m m).1 + (U.getSubrange u m m).2 = 26 ^ u

end SystemProgramming.PasswordCracker
