import Mathlib.Data.Fintype.Sum
import Mathlib.Tactic.DeriveFintype
import SystemProgramming.Lib.Lts
import SystemProgramming.MapReduce.Mappers

namespace SystemProgramming.MapReduce

open Lib

/-!
# `mapreduce.c` — the processes and their pipes

The main process makes the pipes and starts a splitter and a mapper for each portion, and the
reducer.  A child has a copy of the descriptors that the main process has when it is forked, closes
and redirects some of them, and becomes another program.  A step is one system call of one process,
or what a program does between two of them; the outside decides whether a call of `fork` or `execlp`
succeeds and how much a `read` or a `write` transfers.

* `main` — the main process.
* `Proc.calls`, `child` — a child between `fork` and `execlp`, and the programs.
* `system` — any order of their steps.

A pipe holds `capacity` bytes, and a `write` of at most `PIPE_BUF` bytes is not divided.  A `read`
from an empty pipe waits as long as there is a descriptor to write to it, and a `write` to a pipe
without a descriptor to read from it kills the process.  `pipe` does not fail.
-/

/-- The input pipes of the mappers, and that of the reducer. -/
inductive Pipe (n : ℕ)
  | fd_m (i : Fin n)
  | fd_r
  deriving DecidableEq, Fintype

/-- What a descriptor stands for. -/
inductive Desc (n : ℕ)
  | terminal
  | read (p : Pipe n)
  | write (p : Pipe n)
  | output
  deriving DecidableEq

/-- The descriptors: `read p` and `write p` are the two that `pipe` has stored. -/
inductive Fd (n : ℕ)
  | stdin
  | stdout
  | read (p : Pipe n)
  | write (p : Pipe n)
  | output_fd
  deriving DecidableEq, Fintype

/-- The open descriptors of a process. -/
abbrev Table (n : ℕ) := Fd n → Option (Desc n)

/-- The children. -/
inductive Proc (n : ℕ)
  | splitter (i : Fin n)
  | mapper (i : Fin n)
  | reducer
  deriving DecidableEq, Fintype

/-- The calls of a child. -/
inductive Call (n : ℕ)
  | close (fd : Fd n)
  | dup2 (oldfd newfd : Fd n)
  | execlp

/-- How a process has ended. -/
inductive Exit
  | status (k : ℕ)
  | signal
  deriving DecidableEq

/-- `WIFEXITED(status) && WEXITSTATUS(status)` -/
def Exit.failed : Exit → Bool
  | status k => k ≠ 0
  | signal => false

/-- Where a program is. -/
inductive Work
  /-- with what is not written yet -/
  | splitter (todo : Bytes)
  /-- with what was read and is not processed yet, and what is not written yet -/
  | mapper (buf pending : Bytes) (eof : Bool)
  | reducer (input : Bytes)

inductive Child (n : ℕ)
  | unborn
  | setup (calls : List (Call n)) (fds : Table n)
  | running (work : Work) (fds : Table n)
  | exited (e : Exit)

/-- Where the main process is; the number is that of the round of a loop. -/
inductive Pc
  | pipes (i : ℕ)
  | open_output
  | splitter (i : ℕ)
  | close (i : ℕ)
  | mapper (i : ℕ)
  | reducer
  | wait_splitter (i : ℕ)
  | wait_mapper (i : ℕ)
  | closeall
  | print
  | done
  /-- `exit(1)` -/
  | exit
  deriving DecidableEq

/-- What the main process prints. -/
inductive Message
  | mapper_status (status : ℕ)
  | reducer_status (status : ℕ)
  | output_pairs (count : ℕ)
  deriving DecidableEq

/-- The arguments, and what they lead to. -/
structure Job where
  mapper : Mapper
  /-- the input file -/
  file : Bytes
  /-- what is in the output file before -/
  old : Bytes
  /-- the output file can be opened -/
  opens : Bool
  capacity : ℕ

structure State (n : ℕ) where
  pc : Pc
  /-- the descriptors of the main process -/
  fds : Table n
  child : Proc n → Child n
  pipe : Pipe n → Bytes
  /-- the output file -/
  file : Bytes
  printed : List Message
  /-- the lines that a mapper has processed, which nothing in the system keeps -/
  got : Proc n → List Bytes
  /-- who has written what to the reducer's pipe -/
  log : List (Proc n × Bytes)

def PIPE_BUF : ℕ := 4096

variable {n : ℕ}

/-! ### Descriptors -/

/-- `pipe` -/
def Table.pipe (fds : Table n) (p : Pipe n) : Table n :=
  Function.update (Function.update fds (.read p) (some (.read p))) (.write p) (some (.write p))

def Table.close (fds : Table n) (fd : Fd n) : Table n := Function.update fds fd none

/-- A descriptor that is not open is not duplicated. -/
def Table.dup2 (fds : Table n) (oldfd newfd : Fd n) : Table n :=
  match fds oldfd with
  | some d => Function.update fds newfd (some d)
  | none => fds

/-- A process that has ended has no descriptors. -/
def Table.empty : Table n := fun _ => none

def Child.fds : Child n → Table n
  | setup _ fds => fds
  | running _ fds => fds
  | _ => .empty

namespace State

/-- A process has a descriptor for it. -/
def Holds (s : State n) (d : Desc n) : Prop :=
  (∃ fd, s.fds fd = some d) ∨ ∃ c fd, (s.child c).fds fd = some d

instance (s : State n) (d : Desc n) : Decidable (s.Holds d) :=
  inferInstanceAs (Decidable ((∃ fd, s.fds fd = some d) ∨ ∃ c fd, (s.child c).fds fd = some d))

def set (s : State n) (c : Proc n) (x : Child n) : State n :=
  { s with child := Function.update s.child c x }

def setPipe (s : State n) (p : Pipe n) (bytes : Bytes) : State n :=
  { s with pipe := Function.update s.pipe p bytes }

def setFile (s : State n) (bytes : Bytes) : State n := { s with file := bytes }

/-- A mapper takes a line. -/
def took (s : State n) (c : Proc n) (l : Bytes) : State n :=
  { s with got := Function.update s.got c (s.got c ++ [l]) }

/-- A mapper has written. -/
def wrote (s : State n) (c : Proc n) (bytes : Bytes) : State n :=
  { s with log := s.log ++ [(c, bytes)] }

/-- `fork`; the main process goes on at `next`. -/
def fork (s : State n) (c : Proc n) (calls : List (Call n)) (ok : Bool) (next : Pc) : State n :=
  if ok then { s.set c (.setup calls s.fds) with pc := next }
  else { s with pc := .exit, fds := .empty }

variable {s : State n} {c c' : Proc n} {p p' : Pipe n}

@[simp] theorem set_pipe (x : Child n) : (s.set c x).pipe = s.pipe := rfl
@[simp] theorem set_got (x : Child n) : (s.set c x).got = s.got := rfl
@[simp] theorem set_log (x : Child n) : (s.set c x).log = s.log := rfl

@[simp] theorem setPipe_child (bytes : Bytes) : (s.setPipe p bytes).child = s.child := rfl
@[simp] theorem setPipe_got (bytes : Bytes) : (s.setPipe p bytes).got = s.got := rfl
@[simp] theorem setPipe_log (bytes : Bytes) : (s.setPipe p bytes).log = s.log := rfl

@[simp] theorem setFile_child (bytes : Bytes) : (s.setFile bytes).child = s.child := rfl
@[simp] theorem setFile_pipe (bytes : Bytes) : (s.setFile bytes).pipe = s.pipe := rfl
@[simp] theorem setFile_log (bytes : Bytes) : (s.setFile bytes).log = s.log := rfl

@[simp] theorem took_child (l : Bytes) : (s.took c l).child = s.child := rfl
@[simp] theorem took_pipe (l : Bytes) : (s.took c l).pipe = s.pipe := rfl

@[simp] theorem wrote_child (bytes : Bytes) : (s.wrote c bytes).child = s.child := rfl
@[simp] theorem wrote_pipe (bytes : Bytes) : (s.wrote c bytes).pipe = s.pipe := rfl

theorem set_self (x : Child n) : (s.set c x).child c = x := by
  simp only [set, Function.update_self]

theorem set_ne (x : Child n) (h : c' ≠ c) : (s.set c x).child c' = s.child c' := by
  simp only [set, Function.update_of_ne h]

theorem setPipe_self (bytes : Bytes) : (s.setPipe p bytes).pipe p = bytes := by
  simp only [setPipe, Function.update_self]

theorem setPipe_ne (bytes : Bytes) (h : p' ≠ p) : (s.setPipe p bytes).pipe p' = s.pipe p' := by
  simp only [setPipe, Function.update_of_ne h]

end State

/-! ### The main process -/

/-- What a child does before it becomes another program. -/
def Proc.calls : Proc n → List (Call n)
  | splitter i => [.close (.read .fd_r), .close (.write .fd_r), .close (.read (.fd_m i)),
      .dup2 (.write (.fd_m i)) .stdout, .execlp]
  | mapper i => [.dup2 (.read (.fd_m i)) .stdin, .close (.read .fd_r),
      .dup2 (.write .fd_r) .stdout, .execlp]
  | reducer => [.dup2 (.read .fd_r) .stdin, .dup2 .output_fd .stdout, .execlp]

/-- `print_nonzero_exit_status`, with the status that `waitpid` has stored. -/
def print_nonzero_exit_status (message : ℕ → Message) : Exit → List Message
  | .status k => if k ≠ 0 then [message (256 * k)] else []
  | .signal => []

/-- A step of the main process. -/
def main (J : Job) (s : State n) (ok : Bool) : Option (State n) :=
  match s.pc with
  | .pipes i =>
    if h : i < n then some { s with pc := .pipes (i + 1), fds := s.fds.pipe (.fd_m ⟨i, h⟩) }
    else some { s with pc := .open_output, fds := s.fds.pipe .fd_r }
  | .open_output => some { s with
      pc := .splitter 0
      fds := if J.opens then Function.update s.fds .output_fd (some .output) else s.fds }
  | .splitter i =>
    if h : i < n then
      let c : Proc n := .splitter ⟨i, h⟩
      some (s.fork c c.calls ok (.close i))
    else some { s with pc := .reducer, fds := s.fds.close (.write .fd_r) }
  | .close i =>
    if h : i < n then
      some { s with pc := .mapper i, fds := s.fds.close (.write (.fd_m ⟨i, h⟩)) }
    else none
  | .mapper i =>
    if h : i < n then
      let c : Proc n := .mapper ⟨i, h⟩
      some (s.fork c c.calls ok (.splitter (i + 1)))
    else none
  | .reducer => some (s.fork .reducer (Proc.calls .reducer) ok (.wait_splitter 0))
  | .wait_splitter i =>
    if h : i < n then
      match s.child (.splitter ⟨i, h⟩) with
      | .exited _ => some { s with pc := .wait_mapper i }
      | _ => none
    else
      match s.child .reducer with
      | .exited e => some { s with
          pc := .closeall
          printed := s.printed ++ print_nonzero_exit_status .reducer_status e }
      | _ => none
  | .wait_mapper i =>
    if h : i < n then
      match s.child (.splitter ⟨i, h⟩), s.child (.mapper ⟨i, h⟩) with
      | .exited e₂, .exited e₁ =>
        if e₂.failed then some { s with pc := .exit, fds := .empty }
        else some { s with
          pc := .wait_splitter (i + 1)
          printed := s.printed ++ print_nonzero_exit_status .mapper_status e₁ }
      | _, _ => none
    else none
  | .closeall => some { s with pc := .print, fds := fun fd =>
      match fd with
      | .read _ | .write _ | .output_fd => none
      | _ => s.fds fd }
  | .print =>
    -- `fclose` of a file that is not open is not defined
    if ok then some { s with
      pc := .done
      fds := .empty
      printed := s.printed ++ [.output_pairs (s.file.count newline)] }
    else none
  | .done => none
  | .exit => none

/-! ### The programs -/

/-- What a splitter writes. -/
def Job.portion (J : Job) (i : Fin n) : Bytes := write_portion J.file J.file.length n i.val

/-- A program begins.  The number of a splitter is printed to two bytes. -/
def Job.start (J : Job) : Proc n → Option Work
  | .splitter i => if i.val < 10 then some (.splitter (J.portion i)) else none
  | .mapper _ => some (.mapper [] [] false)
  | .reducer => some (.reducer [])

/-- The next line, if it has been read or no more can be read. -/
def getline (buf : Bytes) (eof : Bool) : Option Bytes :=
  match lines newline buf with
  | [] => none
  | l :: _ => if l.getLast? = some newline ∨ eof then some l else none

/-- How much of what is not written yet a `write` may transfer. -/
def Transfers (pending : Bytes) (k : ℕ) : Prop :=
  if pending.length ≤ PIPE_BUF then k = pending.length else 0 < k ∧ k ≤ pending.length

instance (pending : Bytes) (k : ℕ) : Decidable (Transfers pending k) :=
  inferInstanceAs (Decidable (if pending.length ≤ PIPE_BUF then _ else _))

/-- A step of a splitter. -/
def splitter (J : Job) (s : State n) (c : Proc n) (todo : Bytes) (fds : Table n) (k : ℕ) :
    Option (State n) :=
  if todo = [] then some (s.set c (.exited (.status 0)))
  else
    match fds .stdout with
    | some (.write p) =>
      if ¬ s.Holds (.read p) then some (s.set c (.exited .signal))
      else if 0 < k ∧ k ≤ todo.length ∧ (s.pipe p).length + k ≤ J.capacity then
        some ((s.set c (.running (.splitter (todo.drop k)) fds)).setPipe p
          (s.pipe p ++ todo.take k))
      else none
    | _ => none

/-- A step of a mapper: it writes, processes a line, reads, or ends. -/
def mapper_program (J : Job) (s : State n) (c : Proc n) (buf pending : Bytes) (eof : Bool)
    (fds : Table n) (k : ℕ) : Option (State n) :=
  if pending ≠ [] then
    match fds .stdout with
    | some (.write p) =>
      if ¬ s.Holds (.read p) then some (s.set c (.exited .signal))
      else if Transfers pending k ∧ (s.pipe p).length + k ≤ J.capacity then
        some (((s.set c (.running (.mapper buf (pending.drop k) eof) fds)).setPipe p
          (s.pipe p ++ pending.take k)).wrote c (pending.take k))
      else none
    | _ => none
  else
    match getline buf eof with
    | some l => some ((s.set c
        (.running (.mapper (buf.drop l.length) (J.mapper.line l).flatten eof) fds)).took c l)
    | none =>
      if eof then some (s.set c (.exited (.status 0)))
      else
        match fds .stdin with
        | some (.read p) =>
          if s.pipe p = [] then
            if s.Holds (.write p) then none
            else some (s.set c (.running (.mapper buf pending true) fds))
          else if 0 < k ∧ k ≤ (s.pipe p).length then
            some ((s.set c (.running (.mapper (buf ++ (s.pipe p).take k) pending eof) fds)).setPipe
              p ((s.pipe p).drop k))
          else none
        | _ => none

/-- What a write to the beginning of a file leaves. -/
def overwrite (old new : Bytes) : Bytes := new ++ old.drop new.length

/-- A step of the reducer: it reads, or prints what it has found and ends. -/
def reducer_program (s : State n) (c : Proc n) (input : Bytes) (fds : Table n) (k : ℕ) :
    Option (State n) :=
  match fds .stdin with
  | some (.read p) =>
    if s.pipe p = [] then
      if s.Holds (.write p) then none
      else
        (run_reducer_on reducer input).map fun out => (s.set c (.exited (.status 0))).setFile
          (if fds .stdout = some .output then overwrite s.file out else s.file)
    else if 0 < k ∧ k ≤ (s.pipe p).length then
      some ((s.set c (.running (.reducer (input ++ (s.pipe p).take k)) fds)).setPipe p
        ((s.pipe p).drop k))
    else none
  | _ => none

/-- A step of a child. -/
def child (J : Job) (s : State n) (c : Proc n) (ok : Bool) (k : ℕ) : Option (State n) :=
  match s.child c with
  | .setup (.close fd :: calls) fds => some (s.set c (.setup calls (fds.close fd)))
  | .setup (.dup2 oldfd newfd :: calls) fds => some (s.set c (.setup calls (fds.dup2 oldfd newfd)))
  | .setup (.execlp :: _) fds =>
    if ok then (J.start c).map fun work => s.set c (.running work fds)
    else some (s.set c (.exited (.status 1)))
  | .running (.splitter todo) fds => splitter J s c todo fds k
  | .running (.mapper buf pending eof) fds => mapper_program J s c buf pending eof fds k
  | .running (.reducer input) fds => reducer_program s c input fds k
  | _ => none

/-! ### The system -/

/-- Who makes the next step, whether what it asks for is granted, and how much is transferred. -/
inductive Event (n : ℕ)
  | main (ok : Bool)
  | child (c : Proc n) (ok : Bool) (k : ℕ)

def initial (n : ℕ) (J : Job) : State n where
  pc := .pipes 0
  fds
    | .stdin | .stdout => some .terminal
    | _ => none
  child _ := .unborn
  pipe _ := []
  file := J.old
  printed := []
  got _ := []
  log := []

def step (J : Job) (s : State n) : Event n → Option (State n)
  | .main ok => main J s ok
  | .child c ok k => child J s c ok k

def system (n : ℕ) (J : Job) : Lts (State n) (Event n) where
  init s := s = initial n J
  step := step J

variable {J : Job} {s s' : State n} {c : Proc n} {ok : Bool} {k : ℕ} {fds : Table n}

/-! ### What a step does -/

/-- The calls of `fork`, and where the main process goes on. -/
inductive Forks : Pc → Proc n → Pc → Prop
  | splitter (i : Fin n) : Forks (.splitter i) (.splitter i) (.close i)
  | mapper (i : Fin n) : Forks (.mapper i) (.mapper i) (.splitter (i + 1))
  | reducer : Forks .reducer .reducer (.wait_splitter 0)

/-- **Everything that a step of the main process can do.** -/
inductive MainSteps (J : Job) (s : State n) (ok : Bool) : State n → Prop
  | pipe (i : Fin n) (h : s.pc = .pipes i) :
      MainSteps J s ok { s with pc := .pipes (i + 1), fds := s.fds.pipe (.fd_m i) }
  | pipe_r (i : ℕ) (h : s.pc = .pipes i) (hi : n ≤ i) :
      MainSteps J s ok { s with pc := .open_output, fds := s.fds.pipe .fd_r }
  | open_output (h : s.pc = .open_output) : MainSteps J s ok { s with
      pc := .splitter 0
      fds := if J.opens then Function.update s.fds .output_fd (some .output) else s.fds }
  | fork (c : Proc n) (next : Pc) (h : Forks s.pc c next) :
      MainSteps J s ok { s.set c (.setup c.calls s.fds) with pc := next }
  | fork_failed (c : Proc n) (next : Pc) (h : Forks s.pc c next) (hok : ok = false) :
      MainSteps J s ok { s with pc := .exit, fds := .empty }
  | close_r (i : ℕ) (h : s.pc = .splitter i) (hi : n ≤ i) :
      MainSteps J s ok { s with pc := .reducer, fds := s.fds.close (.write .fd_r) }
  | close (i : Fin n) (h : s.pc = .close i) :
      MainSteps J s ok { s with pc := .mapper i, fds := s.fds.close (.write (.fd_m i)) }
  | wait_splitter (i : Fin n) (e : Exit) (h : s.pc = .wait_splitter i)
      (he : s.child (.splitter i) = .exited e) : MainSteps J s ok { s with pc := .wait_mapper i }
  | wait_mapper (i : Fin n) (e₂ e₁ : Exit) (h : s.pc = .wait_mapper i)
      (he₂ : s.child (.splitter i) = .exited e₂) (he₁ : s.child (.mapper i) = .exited e₁)
      (hfailed : e₂.failed = false) : MainSteps J s ok { s with
        pc := .wait_splitter (i + 1)
        printed := s.printed ++ print_nonzero_exit_status .mapper_status e₁ }
  | splitter_failed (i : Fin n) (e₂ : Exit) (h : s.pc = .wait_mapper i)
      (he₂ : s.child (.splitter i) = .exited e₂) (hfailed : e₂.failed = true) :
      MainSteps J s ok { s with pc := .exit, fds := .empty }
  | wait_reducer (i : ℕ) (e : Exit) (h : s.pc = .wait_splitter i) (hi : n ≤ i)
      (he : s.child .reducer = .exited e) : MainSteps J s ok { s with
        pc := .closeall
        printed := s.printed ++ print_nonzero_exit_status .reducer_status e }
  | closeall (h : s.pc = .closeall) : MainSteps J s ok { s with pc := .print, fds := fun fd =>
      match fd with
      | .read _ | .write _ | .output_fd => none
      | _ => s.fds fd }
  | print (h : s.pc = .print) : MainSteps J s ok { s with
      pc := .done
      fds := .empty
      printed := s.printed ++ [.output_pairs (s.file.count newline)] }

theorem fork_steps {next : Pc} (h : Forks s.pc c next) :
    MainSteps J s ok (s.fork c c.calls ok next) := by
  rw [State.fork]
  split
  · exact .fork c next h
  · rename_i hok
    exact .fork_failed c next h (Bool.eq_false_iff.mpr hok)

theorem mainSteps_of_main (h : main J s ok = some s') : MainSteps J s ok s' := by
  unfold main at h
  split at h
  · rename_i i hpc
    split at h
    · rename_i hi
      obtain rfl := Option.some.inj h
      exact .pipe ⟨i, hi⟩ hpc
    · obtain rfl := Option.some.inj h
      exact .pipe_r i hpc (by omega)
  · rename_i hpc
    obtain rfl := Option.some.inj h
    exact .open_output hpc
  · rename_i i hpc
    split at h
    · rename_i hi
      obtain rfl := Option.some.inj h
      exact fork_steps (hpc ▸ .splitter ⟨i, hi⟩)
    · obtain rfl := Option.some.inj h
      exact .close_r i hpc (by omega)
  · rename_i i hpc
    split at h
    · rename_i hi
      obtain rfl := Option.some.inj h
      exact .close ⟨i, hi⟩ hpc
    · cases h
  · rename_i i hpc
    split at h
    · rename_i hi
      obtain rfl := Option.some.inj h
      exact fork_steps (hpc ▸ .mapper ⟨i, hi⟩)
    · cases h
  · rename_i hpc
    obtain rfl := Option.some.inj h
    exact fork_steps (hpc ▸ .reducer)
  · rename_i i hpc
    split at h
    · rename_i hi
      split at h
      · rename_i e he
        obtain rfl := Option.some.inj h
        exact .wait_splitter ⟨i, hi⟩ e hpc he
      · cases h
    · split at h
      · rename_i e he
        obtain rfl := Option.some.inj h
        exact .wait_reducer i e hpc (by omega) he
      · cases h
  · rename_i i hpc
    split at h
    · rename_i hi
      split at h
      · rename_i e₂ e₁ he₂ he₁
        split at h
        · rename_i hfailed
          obtain rfl := Option.some.inj h
          exact .splitter_failed ⟨i, hi⟩ e₂ hpc he₂ hfailed
        · rename_i hfailed
          obtain rfl := Option.some.inj h
          exact .wait_mapper ⟨i, hi⟩ e₂ e₁ hpc he₂ he₁ (Bool.eq_false_iff.mpr hfailed)
      · cases h
    · cases h
  · rename_i hpc
    obtain rfl := Option.some.inj h
    exact .closeall hpc
  · rename_i hpc
    split at h
    · obtain rfl := Option.some.inj h
      exact .print hpc
    · cases h
  · cases h
  · cases h

/-- **Everything that a step of a child can do.** -/
inductive ChildSteps (J : Job) (s : State n) (c : Proc n) (ok : Bool) : State n → Prop
  | close (fd : Fd n) (calls : List (Call n)) (fds : Table n)
      (h : s.child c = .setup (.close fd :: calls) fds) :
      ChildSteps J s c ok (s.set c (.setup calls (fds.close fd)))
  | dup2 (oldfd newfd : Fd n) (calls : List (Call n)) (fds : Table n)
      (h : s.child c = .setup (.dup2 oldfd newfd :: calls) fds) :
      ChildSteps J s c ok (s.set c (.setup calls (fds.dup2 oldfd newfd)))
  | execlp (work : Work) (calls : List (Call n)) (fds : Table n)
      (h : s.child c = .setup (.execlp :: calls) fds) (hwork : J.start c = some work) :
      ChildSteps J s c ok (s.set c (.running work fds))
  | exec_failed (calls : List (Call n)) (fds : Table n)
      (h : s.child c = .setup (.execlp :: calls) fds) (hok : ok = false) :
      ChildSteps J s c ok (s.set c (.exited (.status 1)))
  | splitter_end (fds : Table n) (h : s.child c = .running (.splitter []) fds) :
      ChildSteps J s c ok (s.set c (.exited (.status 0)))
  | splitter_write (todo : Bytes) (fds : Table n) (p : Pipe n) (k : ℕ)
      (h : s.child c = .running (.splitter todo) fds) (hfd : fds .stdout = some (.write p))
      (hk : 0 < k ∧ k ≤ todo.length) (hroom : (s.pipe p).length + k ≤ J.capacity) :
      ChildSteps J s c ok ((s.set c (.running (.splitter (todo.drop k)) fds)).setPipe p
        (s.pipe p ++ todo.take k))
  | killed (work : Work) (fds : Table n) (p : Pipe n) (h : s.child c = .running work fds)
      (hfd : fds .stdout = some (.write p)) (hread : ¬ s.Holds (.read p)) :
      ChildSteps J s c ok (s.set c (.exited .signal))
  | mapper_write (buf pending : Bytes) (eof : Bool) (fds : Table n) (p : Pipe n) (k : ℕ)
      (h : s.child c = .running (.mapper buf pending eof) fds) (hpending : pending ≠ [])
      (hfd : fds .stdout = some (.write p)) (hk : Transfers pending k)
      (hroom : (s.pipe p).length + k ≤ J.capacity) :
      ChildSteps J s c ok (((s.set c (.running (.mapper buf (pending.drop k) eof) fds)).setPipe p
        (s.pipe p ++ pending.take k)).wrote c (pending.take k))
  | mapper_line (buf l : Bytes) (eof : Bool) (fds : Table n)
      (h : s.child c = .running (.mapper buf [] eof) fds) (hl : getline buf eof = some l) :
      ChildSteps J s c ok ((s.set c
        (.running (.mapper (buf.drop l.length) (J.mapper.line l).flatten eof) fds)).took c l)
  | mapper_end (buf : Bytes) (fds : Table n) (h : s.child c = .running (.mapper buf [] true) fds)
      (hl : getline buf true = none) : ChildSteps J s c ok (s.set c (.exited (.status 0)))
  | mapper_eof (buf : Bytes) (fds : Table n) (p : Pipe n)
      (h : s.child c = .running (.mapper buf [] false) fds) (hl : getline buf false = none)
      (hfd : fds .stdin = some (.read p)) (hempty : s.pipe p = []) (hwrite : ¬ s.Holds (.write p)) :
      ChildSteps J s c ok (s.set c (.running (.mapper buf [] true) fds))
  | mapper_read (buf : Bytes) (fds : Table n) (p : Pipe n) (k : ℕ)
      (h : s.child c = .running (.mapper buf [] false) fds) (hl : getline buf false = none)
      (hfd : fds .stdin = some (.read p)) (hk : 0 < k ∧ k ≤ (s.pipe p).length) :
      ChildSteps J s c ok ((s.set c (.running (.mapper (buf ++ (s.pipe p).take k) [] false)
        fds)).setPipe p ((s.pipe p).drop k))
  | reducer_end (input out : Bytes) (fds : Table n) (p : Pipe n)
      (h : s.child c = .running (.reducer input) fds) (hfd : fds .stdin = some (.read p))
      (hempty : s.pipe p = []) (hwrite : ¬ s.Holds (.write p))
      (hout : run_reducer_on reducer input = some out) :
      ChildSteps J s c ok ((s.set c (.exited (.status 0))).setFile
        (if fds .stdout = some .output then overwrite s.file out else s.file))
  | reducer_read (input : Bytes) (fds : Table n) (p : Pipe n) (k : ℕ)
      (h : s.child c = .running (.reducer input) fds) (hfd : fds .stdin = some (.read p))
      (hk : 0 < k ∧ k ≤ (s.pipe p).length) :
      ChildSteps J s c ok ((s.set c (.running (.reducer (input ++ (s.pipe p).take k))
        fds)).setPipe p ((s.pipe p).drop k))

theorem splitterSteps {todo : Bytes} (hc : s.child c = .running (.splitter todo) fds)
    (h : splitter J s c todo fds k = some s') : ChildSteps J s c ok s' := by
  unfold splitter at h
  split at h
  · rename_i htodo
    subst htodo
    obtain rfl := Option.some.inj h
    exact .splitter_end fds hc
  · split at h
    · rename_i p hfd
      split at h
      · rename_i hread
        obtain rfl := Option.some.inj h
        exact .killed _ fds p hc hfd hread
      · split at h
        · rename_i hk
          obtain rfl := Option.some.inj h
          exact .splitter_write todo fds p k hc hfd ⟨hk.1, hk.2.1⟩ hk.2.2
        · cases h
    · cases h

theorem mapperSteps {buf pending : Bytes} {eof : Bool}
    (hc : s.child c = .running (.mapper buf pending eof) fds)
    (h : mapper_program J s c buf pending eof fds k = some s') : ChildSteps J s c ok s' := by
  unfold mapper_program at h
  split at h
  · rename_i hpending
    split at h
    · rename_i p hfd
      split at h
      · rename_i hread
        obtain rfl := Option.some.inj h
        exact .killed _ fds p hc hfd hread
      · split at h
        · rename_i hk
          obtain rfl := Option.some.inj h
          exact .mapper_write buf pending eof fds p k hc hpending hfd hk.1 hk.2
        · cases h
    · cases h
  · rename_i hpending
    obtain rfl : pending = [] := not_not.mp hpending
    split at h
    · rename_i l hl
      obtain rfl := Option.some.inj h
      exact .mapper_line buf l eof fds hc hl
    · rename_i hl
      split at h
      · rename_i heof
        subst heof
        obtain rfl := Option.some.inj h
        exact .mapper_end buf fds hc hl
      · rename_i heof
        obtain rfl : eof = false := Bool.eq_false_iff.mpr heof
        split at h
        · rename_i p hfd
          split at h
          · rename_i hempty
            split at h
            · cases h
            · rename_i hwrite
              obtain rfl := Option.some.inj h
              exact .mapper_eof buf fds p hc hl hfd hempty hwrite
          · split at h
            · rename_i hk
              obtain rfl := Option.some.inj h
              exact .mapper_read buf fds p k hc hl hfd hk
            · cases h
        · cases h

theorem reducerSteps {input : Bytes} (hc : s.child c = .running (.reducer input) fds)
    (h : reducer_program s c input fds k = some s') : ChildSteps J s c ok s' := by
  unfold reducer_program at h
  split at h
  · rename_i p hfd
    split at h
    · rename_i hempty
      split at h
      · cases h
      · rename_i hwrite
        obtain ⟨out, hout, rfl⟩ := Option.map_eq_some_iff.mp h
        exact .reducer_end input out fds p hc hfd hempty hwrite hout
    · split at h
      · rename_i hk
        obtain rfl := Option.some.inj h
        exact .reducer_read input fds p k hc hfd hk
      · cases h
  · cases h

theorem childSteps_of_child (h : child J s c ok k = some s') : ChildSteps J s c ok s' := by
  unfold child at h
  split at h
  · rename_i fd calls fds hc
    obtain rfl := Option.some.inj h
    exact .close fd calls fds hc
  · rename_i oldfd newfd calls fds hc
    obtain rfl := Option.some.inj h
    exact .dup2 oldfd newfd calls fds hc
  · rename_i calls fds hc
    split at h
    · obtain ⟨work, hwork, rfl⟩ := Option.map_eq_some_iff.mp h
      exact .execlp work calls fds hc hwork
    · rename_i hok
      obtain rfl := Option.some.inj h
      exact .exec_failed calls fds hc (Bool.eq_false_iff.mpr hok)
  · rename_i hc
    exact splitterSteps hc h
  · rename_i hc
    exact mapperSteps hc h
  · rename_i hc
    exact reducerSteps hc h
  · cases h

end SystemProgramming.MapReduce
