import SystemProgramming.ParMake.Preservation

namespace SystemProgramming.ParMake

open SystemProgramming.Lib Relation

/-!
# `parallel_make/parmake.c` — what happens in which order

The safety of the schedule, read off the trace of any run: `Reachable.ordered`.  The graph
is any graph, the number of workers any number, and the commands succeed or fail as they
like.
-/

variable {V : Type*} [DecidableEq V] {n : ℕ} {mk : Makefile V} {s : St V n} {r d f : V}

/-- A command of the rule failed, or its state was set to -1 after one did. -/
def Failed (s : St V n) (f : V) : Prop := (∃ k, .cmd f k false ∈ s.trace) ∨ .finish f (-1) ∈ s.trace

/-- The safety of the schedule. -/
structure Ordered (mk : Makefile V) (s : St V n) : Prop where
  /-- a staleness check starts after every dependency has finished with state 0 -/
  start_after : ∀ post pre r, s.trace = post ++ .start r :: pre →
    ∀ d ∈ mk.graph.neighbors r, .finish d 0 ∈ pre
  /-- so does every command -/
  cmd_after : ∀ post pre r k ok, s.trace = post ++ .cmd r k ok :: pre →
    ∀ d ∈ mk.graph.neighbors r, .finish d 0 ∈ pre
  /-- the states that a worker's rule depends on are 0 for as long as it has the rule -/
  deps_state : ∀ i r, (s.workers i).job = some r → ∀ d ∈ mk.graph.neighbors r, s.state d = 0
  pushed_once : ∀ r, s.trace.count (.push r) ≤ 1
  processed_once : ∀ r, s.trace.count (.start r) ≤ 1
  /-- after a command that failed, no command of the rule is run -/
  failed_last : ∀ post pre r k, s.trace = post ++ .cmd r k false :: pre →
    ∀ j ok, .cmd r j ok ∉ post
  /-- a rule that depends on a failed one is not started, and none of its commands is run -/
  blocked : ∀ f r, Failed s f → TransGen mk.graph.Dep r f →
    .start r ∉ s.trace ∧ ∀ k ok, .cmd r k ok ∉ s.trace

namespace Inv

theorem start_once (hI : Inv mk s) (r : V) : s.trace.count (.start r) ≤ 1 := by
  have hstarts := hI.starts r
  have honce := hI.once r
  omega

/-- The dependencies of a rule that was started have finished with state 0. -/
theorem finish_of_start (hI : Inv mk s) (h : .start r ∈ s.trace) (hd : mk.graph.Dep r d) :
    .finish d 0 ∈ s.trace :=
  hI.zero d (hI.taken d 0 (hI.taken_of_push (hI.push_of_start h) hd))

/-- Everything below a rule that was started has finished with state 0. -/
theorem finish_below (hI : Inv mk s) (h : .start r ∈ s.trace) (hd : TransGen mk.graph.Dep r d) :
    .finish d 0 ∈ s.trace := by
  induction hd with
  | single hd => exact hI.finish_of_start h hd
  | tail _ hd ih => exact hI.finish_of_start (hI.start_of_finish ih) hd

/-- A rule that failed has not finished with state 0. -/
theorem not_finish_of_failed (hI : Inv mk s) (h : Failed s f) : .finish f 0 ∉ s.trace := by
  obtain ⟨k, hk⟩ | hf := h
  · exact hI.failed f k hk
  · intro h0
    have heq := (hI.finish f 0 h0).symm.trans (hI.finish f (-1) hf)
    omega

/-- **The schedule of a state with the invariant is safe.** -/
theorem safe (hI : Inv mk s) : Ordered mk s where
  start_after post pre r heq := Justified.after (e := .start r) (heq ▸ hI.justified)
  cmd_after post pre r k ok heq := by
    have hJ : Justified mk (post ++ .cmd r k ok :: pre) := heq ▸ hI.justified
    -- the command comes after the start of its rule, and that after the dependencies
    have hstart : .start r ∈ pre := (Justified.after hJ).1
    obtain ⟨mid, first, rfl⟩ := List.append_of_mem hstart
    have hdeps : ∀ d ∈ mk.graph.neighbors r, .finish d 0 ∈ first := by
      have hJ' : Justified mk ((post ++ .cmd r k ok :: mid) ++ .start r :: first) := by
        simpa using hJ
      exact hJ'.after
    intro d hd
    exact List.mem_append_right _ (List.mem_cons_of_mem _ (hdeps d hd))
  deps_state i r hw d hd :=
    hI.taken d 0 (hI.taken_of_push (hI.push_of_job hw) hd)
  pushed_once := hI.once
  processed_once := hI.start_once
  failed_last post pre r k heq j ok hc := by
    obtain ⟨late, mid, rfl⟩ := List.append_of_mem hc
    have hJ : Justified mk (late ++ .cmd r j ok :: (mid ++ .cmd r k false :: pre)) := by
      simpa [heq] using hI.justified
    exact (Justified.after hJ).2 k (by simp)
  blocked f r hf hdep := by
    have hstart : .start r ∉ s.trace :=
      fun h => hI.not_finish_of_failed hf (hI.finish_below h hdep)
    exact ⟨hstart, fun k ok h => hstart (hI.ran r k ok h)⟩

end Inv

/-- **Every interleaving is safe.** -/
theorem Reachable.ordered (hr : Reachable mk s) : Ordered mk s := hr.inv.safe

/-- The targets of `testfile7`, and the sentinel. -/
inductive Testfile7
  | sentinel
  | a
  | b
  | c
  deriving DecidableEq

/-- `testfile7`, without the texts of its `echo`s: `a` depends on `b` and `c`, and the second
    command of `b` fails. -/
def testfile7 : Makefile Testfile7 where
  graph := Graph.ofEdges [(.sentinel, .a), (.a, .b), (.a, .c)]
  sentinel := .sentinel
  commands
    | .sentinel => []
    | .a => ["echo"]
    | .b => ["echo", "cat asdf"]
    | .c => ["echo", "echo"]

/-- Two workers on `testfile7`: `b` fails and `c` is run, `b` and then `a` are reported as
    failed, and all threads end. -/
def testfile7Steps : List (Label 2) :=
  List.flatten
    [[.worker 0 true, .worker 1 true, .worker 0 true, .worker 0 true, .worker 1 true,
      .worker 0 false, .worker 1 true, .worker 1 true, .worker 0 true, .worker 0 true],
     List.replicate 9 .main,
     [.worker 1 true, .worker 1 true, .worker 1 true],
     List.replicate 4 .main,
     [.worker 0 true, .worker 0 true, .worker 1 true, .worker 1 true],
     List.replicate 3 .main]

theorem ordered_testfile7 : ∃ s : St Testfile7 2, s.main = .returned ∧
    s.trace.count (.start .c) = 1 ∧ .cmd .b 1 false ∈ s.trace ∧ Ordered testfile7 s := by
  have hrun : ((parmake testfile7 2).run (fun _ _ => True) (initial testfile7 2)
      testfile7Steps).map (fun s => (s.main, s.trace.count (.start .c),
        decide (.cmd .b 1 false ∈ s.trace))) = some (.returned, 1, true) := by decide +kernel
  obtain ⟨s, hs, hobs⟩ := Option.map_eq_some_iff.mp hrun
  simp only [Prod.mk.injEq, decide_eq_true_eq] at hobs
  exact ⟨s, hobs.1, hobs.2.1, hobs.2.2, Reachable.ordered (Lts.Reach.of_run (.init rfl) hs)⟩

end SystemProgramming.ParMake
