import Mathlib.Logic.Function.Basic
import SystemProgramming.Lib.Lts
import SystemProgramming.ParMake.Graph

namespace SystemProgramming.ParMake

open SystemProgramming.Lib

/-!
# `parallel_make/parmake.c` — the threads

`parmake` after preprocessing, as a transition system: the main thread at its loop over
`checked`, `num_threads` workers in `myjob`, and the two thread-safe FIFO queues.  A step
of one thread is one access to shared data; the label says which thread moves and, for a
worker, what the file system or the command answers.

The threads are created before the loop starts; a worker that the scheduler leaves idle is
the same as one that is not created yet, so all of them are there from the start.  The
integers are small (`(int)vector_size(...)` does not truncate).

`St.trace` is a ghost: what has happened so far, newest first.
-/

/-- The rules: their dependency graph, and the commands of each. -/
structure Makefile (V : Type*) [DecidableEq V] where
  graph : Graph V
  /-- the vertex `""` -/
  sentinel : V
  commands : V → List String

/-- What can be observed of a run. -/
inductive Event (V : Type*)
  /-- the rule is pushed to `jobs` -/
  | push (r : V)
  /-- a worker starts on the rule, with its staleness check -/
  | start (r : V)
  /-- a worker has run a command of the rule; `ok` when it returned 0 -/
  | cmd (r : V) (i : ℕ) (ok : Bool)
  /-- a worker has set the state of the rule -/
  | finish (r : V) (st : ℤ)
  /-- the main thread has read the state of a rule that it pulled from `checked` -/
  | take (r : V) (st : ℤ)
  deriving DecidableEq

/-- Where the main thread is. -/
inductive Main (V : Type*)
  /-- at `queue_pull(checked)` -/
  | pulling
  /-- it has pulled the rule -/
  | pulled (r : V)
  /-- in the loop over the parents of the failed rule `t`, `ps` still to come -/
  | failing (t : V) (ps : List V)
  /-- there, between setting the state of `p` and pushing it -/
  | reporting (t : V) (p : V) (ps : List V)
  /-- in the loop over the parents of `t`, which succeeded -/
  | counting (t : V) (ps : List V)
  /-- it has left the loop -/
  | broke
  /-- at `pthread_join(tid[k])` -/
  | joining (k : ℕ)
  | returned
  deriving DecidableEq

/-- Where a worker is. -/
inductive Worker (V : Type*)
  /-- at `queue_pull(jobs)` -/
  | idle
  /-- in `rule_valid_to_run` -/
  | checking (r : V)
  /-- in `execRule`, before command `k` -/
  | running (r : V) (k : ℕ)
  /-- about to set the state of the rule -/
  | setting (r : V) (st : ℤ)
  /-- about to push the rule to `checked` -/
  | pushing (r : V)
  /-- it has pulled `NULL`, and is about to push it back -/
  | stopping
  | exited
  deriving DecidableEq

/-- The rule that a worker has in hand. -/
def Worker.job {V : Type*} : Worker V → Option V
  | checking r => some r
  | running r _ => some r
  | setting r _ => some r
  | pushing r => some r
  | _ => none

/-- The shared data and the threads. -/
structure St (V : Type*) (n : ℕ) where
  /-- `jobs`; `none` is `NULL` -/
  jobs : List (Option V)
  /-- `checked` -/
  checked : List V
  /-- `rule->state` -/
  state : V → ℤ
  /-- `info->satisfied_dependencies` -/
  satisfied : V → ℕ
  main : Main V
  workers : Fin n → Worker V
  /-- ghost: what has happened, newest first -/
  trace : List (Event V)

/-- Which thread moves. -/
inductive Label (n : ℕ)
  | main
  | worker (i : Fin n) (outcome : Bool)
  deriving DecidableEq

variable {V : Type*} [DecidableEq V] {n : ℕ}

/-- The rules without dependencies. -/
def Makefile.leaves (mk : Makefile V) : List V :=
  mk.graph.vertices.filter (fun v => mk.graph.neighbors v = [])

/-- Before the threads start: the leaves are in `jobs`, and every rule has the state 1 that
    `find_useful_nodes` gave it. -/
def initial (mk : Makefile V) (n : ℕ) : St V n where
  jobs := mk.leaves.map some
  checked := []
  state _ := 1
  satisfied _ := 0
  main := .pulling
  workers _ := .idle
  trace := (mk.leaves.map Event.push).reverse

/-- One step of the main thread; `none` when it is blocked. -/
def mainStep (mk : Makefile V) (s : St V n) : Option (St V n) :=
  match s.main with
  | .pulling =>
    match s.checked with
    | [] => none
    | r :: checked => some { s with checked := checked, main := .pulled r }
  | .pulled r =>
    if r = mk.sentinel then some { s with main := .broke }
    else if s.state r = -1 then
      some { s with main := .failing r (mk.graph.antineighbors r),
                    trace := .take r (-1) :: s.trace }
    else if s.state r = 0 then
      some { s with main := .counting r (mk.graph.antineighbors r),
                    trace := .take r 0 :: s.trace }
    else some { s with main := .pulling }
  | .failing _ [] => some { s with main := .pulling }
  | .failing t (p :: ps) =>
    some { s with state := Function.update s.state p (-1), main := .reporting t p ps }
  | .reporting t p ps => some { s with checked := s.checked ++ [p], main := .failing t ps }
  | .counting _ [] => some { s with main := .pulling }
  | .counting t (p :: ps) =>
    let satisfied := Function.update s.satisfied p (s.satisfied p + 1)
    if s.satisfied p + 1 = (mk.graph.neighbors p).length then
      some { s with satisfied := satisfied, main := .counting t ps, jobs := s.jobs ++ [some p],
                    trace := .push p :: s.trace }
    else some { s with satisfied := satisfied, main := .counting t ps }
  | .broke => some { s with jobs := s.jobs ++ [none], main := .joining 0 }
  | .joining k =>
    if h : k < n then
      if s.workers ⟨k, h⟩ = .exited then some { s with main := .joining (k + 1) } else none
    else some { s with main := .returned }
  | .returned => none

/-- One step of worker `i`. -/
def workerStep (mk : Makefile V) (s : St V n) (i : Fin n) (outcome : Bool) : Option (St V n) :=
  match s.workers i with
  | .idle =>
    match s.jobs with
    | [] => none
    | some r :: jobs =>
      some { s with jobs := jobs, workers := Function.update s.workers i (.checking r),
                    trace := .start r :: s.trace }
    | none :: jobs =>
      some { s with jobs := jobs, workers := Function.update s.workers i .stopping }
  | .checking r =>
    let next := if outcome then .running r 0 else .setting r 0
    some { s with workers := Function.update s.workers i next }
  | .running r k =>
    if k < (mk.commands r).length then
      let next := if outcome then .running r (k + 1) else .setting r (-1)
      some { s with workers := Function.update s.workers i next,
                    trace := .cmd r k outcome :: s.trace }
    else some { s with workers := Function.update s.workers i (.setting r 0) }
  | .setting r st =>
    some { s with state := Function.update s.state r st,
                  workers := Function.update s.workers i (.pushing r),
                  trace := .finish r st :: s.trace }
  | .pushing r =>
    some { s with checked := s.checked ++ [r], workers := Function.update s.workers i .idle }
  | .stopping =>
    some { s with jobs := s.jobs ++ [none], workers := Function.update s.workers i .exited }
  | .exited => none

/-- One step of the thread that the label names. -/
def step (mk : Makefile V) (s : St V n) : Label n → Option (St V n)
  | .main => mainStep mk s
  | .worker i outcome => workerStep mk s i outcome

/-- `parmake`, after preprocessing. -/
def parmake (mk : Makefile V) (n : ℕ) : Lts (St V n) (Label n) := ⟨(· = initial mk n), step mk⟩

/-- The states that some interleaving reaches. -/
def Reachable (mk : Makefile V) (s : St V n) : Prop := (parmake mk n).Reach (fun _ _ => True) s

/-! ### What one step can do -/

/-- The steps of the threads, one by one. -/
inductive Step (mk : Makefile V) (s : St V n) : Label n → St V n → Prop
  | pull {r : V} {checked : List V} (hm : s.main = .pulling) (hc : s.checked = r :: checked) :
      Step mk s .main { s with checked := checked, main := .pulled r }
  | leave {r : V} (hm : s.main = .pulled r) (hr : r = mk.sentinel) :
      Step mk s .main { s with main := .broke }
  | takeFailed {r : V} (hm : s.main = .pulled r) (hr : r ≠ mk.sentinel) (hst : s.state r = -1) :
      Step mk s .main { s with main := .failing r (mk.graph.antineighbors r),
                               trace := .take r (-1) :: s.trace }
  | takeOk {r : V} (hm : s.main = .pulled r) (hr : r ≠ mk.sentinel) (hst : s.state r = 0) :
      Step mk s .main { s with main := .counting r (mk.graph.antineighbors r),
                               trace := .take r 0 :: s.trace }
  | skip {r : V} (hm : s.main = .pulled r) (hf : s.state r ≠ -1) (hst : s.state r ≠ 0) :
      Step mk s .main { s with main := .pulling }
  | failDone {t : V} (hm : s.main = .failing t []) : Step mk s .main { s with main := .pulling }
  | poison {t p : V} {ps : List V} (hm : s.main = .failing t (p :: ps)) :
      Step mk s .main { s with state := Function.update s.state p (-1), main := .reporting t p ps }
  | report {t p : V} {ps : List V} (hm : s.main = .reporting t p ps) :
      Step mk s .main { s with checked := s.checked ++ [p], main := .failing t ps }
  | countDone {t : V} (hm : s.main = .counting t []) :
      Step mk s .main { s with main := .pulling }
  | countPush {t p : V} {ps : List V} (hm : s.main = .counting t (p :: ps))
      (hn : s.satisfied p + 1 = (mk.graph.neighbors p).length) :
      Step mk s .main { s with satisfied := Function.update s.satisfied p (s.satisfied p + 1),
                               main := .counting t ps, jobs := s.jobs ++ [some p],
                               trace := .push p :: s.trace }
  | count {t p : V} {ps : List V} (hm : s.main = .counting t (p :: ps))
      (hn : s.satisfied p + 1 ≠ (mk.graph.neighbors p).length) :
      Step mk s .main { s with satisfied := Function.update s.satisfied p (s.satisfied p + 1),
                               main := .counting t ps }
  | sendNull (hm : s.main = .broke) :
      Step mk s .main { s with jobs := s.jobs ++ [none], main := .joining 0 }
  | join {k : ℕ} (hm : s.main = .joining k) (hk : k < n) (hw : s.workers ⟨k, hk⟩ = .exited) :
      Step mk s .main { s with main := .joining (k + 1) }
  | done {k : ℕ} (hm : s.main = .joining k) (hk : ¬ k < n) :
      Step mk s .main { s with main := .returned }
  | start {i : Fin n} {b : Bool} {r : V} {jobs : List (Option V)} (hw : s.workers i = .idle)
      (hj : s.jobs = some r :: jobs) :
      Step mk s (.worker i b) { s with jobs := jobs,
                                       workers := Function.update s.workers i (.checking r),
                                       trace := .start r :: s.trace }
  | getNull {i : Fin n} {b : Bool} {jobs : List (Option V)} (hw : s.workers i = .idle)
      (hj : s.jobs = none :: jobs) :
      Step mk s (.worker i b) { s with jobs := jobs,
                                       workers := Function.update s.workers i .stopping }
  | check {i : Fin n} {b : Bool} {r : V} (hw : s.workers i = .checking r) :
      Step mk s (.worker i b) { s with
        workers := Function.update s.workers i (if b then .running r 0 else .setting r 0) }
  | runOk {i : Fin n} {r : V} {k : ℕ} (hw : s.workers i = .running r k)
      (hk : k < (mk.commands r).length) :
      Step mk s (.worker i true) { s with workers := Function.update s.workers i (.running r (k + 1)),
                                          trace := .cmd r k true :: s.trace }
  | runFail {i : Fin n} {r : V} {k : ℕ} (hw : s.workers i = .running r k)
      (hk : k < (mk.commands r).length) :
      Step mk s (.worker i false) { s with workers := Function.update s.workers i (.setting r (-1)),
                                           trace := .cmd r k false :: s.trace }
  | runDone {i : Fin n} {b : Bool} {r : V} {k : ℕ} (hw : s.workers i = .running r k)
      (hk : ¬ k < (mk.commands r).length) :
      Step mk s (.worker i b) { s with workers := Function.update s.workers i (.setting r 0) }
  | set {i : Fin n} {b : Bool} {r : V} {st : ℤ} (hw : s.workers i = .setting r st) :
      Step mk s (.worker i b) { s with state := Function.update s.state r st,
                                       workers := Function.update s.workers i (.pushing r),
                                       trace := .finish r st :: s.trace }
  | deliver {i : Fin n} {b : Bool} {r : V} (hw : s.workers i = .pushing r) :
      Step mk s (.worker i b) { s with checked := s.checked ++ [r],
                                       workers := Function.update s.workers i .idle }
  | exit {i : Fin n} {b : Bool} (hw : s.workers i = .stopping) :
      Step mk s (.worker i b) { s with jobs := s.jobs ++ [none],
                                       workers := Function.update s.workers i .exited }

variable {mk : Makefile V} {s s' : St V n} {l : Label n}

theorem mainStep_cases (h : mainStep mk s = some s') : Step mk s .main s' := by
  unfold mainStep at h
  split at h
  · rename_i hm
    split at h
    · cases h
    · rename_i r checked hc
      obtain rfl := Option.some.inj h
      exact .pull hm hc
  · rename_i r hm
    split at h
    · rename_i hr
      -- the sentinel ends the loop over the results
      obtain rfl := Option.some.inj h
      exact .leave hm hr
    · rename_i hr
      split at h
      · rename_i hst
        obtain rfl := Option.some.inj h
        exact .takeFailed hm hr hst
      · rename_i hf
        split at h
        · rename_i hst
          obtain rfl := Option.some.inj h
          exact .takeOk hm hr hst
        · rename_i hst
          obtain rfl := Option.some.inj h
          exact .skip hm hf hst
  · rename_i t hm
    obtain rfl := Option.some.inj h
    exact .failDone hm
  · rename_i t p ps hm
    obtain rfl := Option.some.inj h
    exact .poison hm
  · rename_i t p ps hm
    obtain rfl := Option.some.inj h
    exact .report hm
  · rename_i t hm
    obtain rfl := Option.some.inj h
    exact .countDone hm
  · rename_i t p ps hm
    dsimp only at h
    split at h
    · -- the last dependency is done, and the rule is queued
      rename_i hn
      obtain rfl := Option.some.inj h
      exact .countPush hm hn
    · rename_i hn
      obtain rfl := Option.some.inj h
      exact .count hm hn
  · rename_i hm
    obtain rfl := Option.some.inj h
    exact .sendNull hm
  · rename_i k hm
    split at h
    · rename_i hk
      split at h
      · rename_i hw
        obtain rfl := Option.some.inj h
        exact .join hm hk hw
      · cases h
    · rename_i hk
      obtain rfl := Option.some.inj h
      exact .done hm hk
  · cases h

theorem workerStep_cases {i : Fin n} {b : Bool} (h : workerStep mk s i b = some s') :
    Step mk s (.worker i b) s' := by
  unfold workerStep at h
  split at h
  · rename_i hw
    split at h
    · cases h
    · rename_i r jobs hj
      obtain rfl := Option.some.inj h
      exact .start hw hj
    · rename_i jobs hj
      obtain rfl := Option.some.inj h
      exact .getNull hw hj
  · rename_i r hw
    obtain rfl := Option.some.inj h
    exact .check hw
  · rename_i r k hw
    split at h
    · rename_i hk
      obtain rfl := Option.some.inj h
      -- the label says whether the command succeeds
      cases b with
      | true => exact .runOk hw hk
      | false => exact .runFail hw hk
    · rename_i hk
      obtain rfl := Option.some.inj h
      exact .runDone hw hk
  · rename_i r st hw
    obtain rfl := Option.some.inj h
    exact .set hw
  · rename_i r hw
    obtain rfl := Option.some.inj h
    exact .deliver hw
  · rename_i hw
    obtain rfl := Option.some.inj h
    exact .exit hw
  · cases h

/-- **What one step can do.** -/
theorem step_cases (h : step mk s l = some s') : Step mk s l s' := by
  cases l with
  | main => exact mainStep_cases h
  | worker i b => exact workerStep_cases h

end SystemProgramming.ParMake
