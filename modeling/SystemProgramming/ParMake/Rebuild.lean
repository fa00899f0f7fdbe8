import SystemProgramming.ParMake.Completion

namespace SystemProgramming.ParMake

open SystemProgramming.Lib Relation

/-!
# `parallel_make/parmake.c` — the files

The threads together with the modification times of the files.  A worker asks the files whether a
rule is valid to run; a command of a rule changes no file but its target.  The rules in `targets`
make theirs: the last command leaves it, with a time that is not before the staleness check.  All
of that check is one step, since what it reads does not change before its end.

* `rule_valid_to_run` — the staleness check.
* `build` — the threads and the files.
* `Fresh`, `Frugal` — what has finished is not stale, and only what is needed is made.
* `rebuilt`, `rebuild_minimal`, `rebuild_twice` — the same, for every run, and for two of them.
-/

variable {V : Type*} [DecidableEq V] {n : ℕ}

/-- The modification times; a file that is missing has none. -/
abbrev Files (V : Type*) := V → Option ℕ

def rule_valid_to_run (mk : Makefile V) (files : Files V) (r : V) : Bool :=
  match files r with
  | none => true
  | some update_time => (mk.graph.neighbors r).any fun dependency =>
    match files dependency with
    | none => true
    | some st_mtime => decide (st_mtime > update_time)

/-- The threads, the files and the clock. -/
structure Build (V : Type*) (n : ℕ) where
  st : St V n
  files : Files V
  clock : ℕ
  /-- ghost: when a rule was found to be valid to run -/
  begun : V → ℕ

/-- A step of a thread, and what the files and the clock are after it. -/
structure Turn (V : Type*) (n : ℕ) where
  label : Label n
  files : Files V
  clock : ℕ

/-- The ghost after a turn. -/
def Build.begin (b : Build V n) (t : Turn V n) : V → ℕ :=
  match t.label with
  | .worker i true =>
    match b.st.workers i with
    | .checking r => Function.update b.begun r t.clock
    | _ => b.begun
  | _ => b.begun

def Build.step (mk : Makefile V) (b : Build V n) (t : Turn V n) : Option (Build V n) :=
  (ParMake.step mk b.st t.label).map fun st => ⟨st, t.files, t.clock, b.begin t⟩

def Build.start (mk : Makefile V) (n : ℕ) (files : Files V) (clock : ℕ) : Build V n :=
  ⟨initial mk n, files, clock, fun _ => 0⟩

/-- The system; the files are `files` before, and the clock says `clock`. -/
def build (mk : Makefile V) (n : ℕ) (files : Files V) (clock : ℕ) : Lts (Build V n) (Turn V n) where
  init b := b = .start mk n files clock
  step := Build.step mk

/-- **What the files answer, and what commands do to them.** -/
structure Effects (mk : Makefile V) (targets : Set V) (b : Build V n) (t : Turn V n) : Prop where
  clock_le : b.clock ≤ t.clock
  check : ∀ i o r, t.label = .worker i o → b.st.workers i = .checking r →
    o = rule_valid_to_run mk b.files r
  /-- only a command changes a file, and only its target -/
  same : ∀ r, t.files r ≠ b.files r → ∃ i o k, t.label = .worker i o ∧
    b.st.workers i = .running r k ∧ k < (mk.commands r).length
  times : ∀ r m, t.files r = some m → b.files r = some m ∨ m ≤ t.clock
  /-- the last command leaves the target, not older than the staleness check -/
  made : ∀ i, ∀ r ∈ targets, ∀ k, t.label = .worker i true → b.st.workers i = .running r k →
    k + 1 = (mk.commands r).length → ∃ m, t.files r = some m ∧ b.begun r ≤ m

variable {mk : Makefile V} {targets : Set V} {files files' : Files V} {clock : ℕ}
  {b b' : Build V n} {t : Turn V n} {r d : V} {i j : Fin n} {k : ℕ}

/-! ### The staleness check -/

theorem rule_valid_to_run_congr (hr : files' r = files r)
    (hd : ∀ d ∈ mk.graph.neighbors r, files' d = files d) :
    rule_valid_to_run mk files' r = rule_valid_to_run mk files r := by
  unfold rule_valid_to_run
  rw [hr]
  split
  · rfl
  · rw [Bool.eq_iff_iff, List.any_eq_true, List.any_eq_true]
    refine exists_congr fun d => and_congr_right fun hmem => ?_
    rw [hd d hmem]

/-- A rule that is not stale: the files are there, and its own is not older. -/
theorem not_valid_iff : rule_valid_to_run mk files r = false ↔ ∃ update_time,
    files r = some update_time ∧ ∀ d ∈ mk.graph.neighbors r, ∃ m, files d = some m ∧
      m ≤ update_time := by
  unfold rule_valid_to_run
  cases hr : files r with
  | none => simp
  | some update_time =>
    simp only [List.any_eq_false, Option.some.injEq, exists_eq_left']
    refine forall₂_congr fun d _ => ?_
    cases files d with
    | none => simp
    | some m => simp

/-! ### What a turn leaves -/

/-- The file of a rule that has finished stays as it is. -/
theorem Effects.finished (hok : Effects mk targets b t) (hI : Inv mk b.st) {st : ℤ}
    (h : .finish r st ∈ b.st.trace) : t.files r = b.files r := by
  by_contra hne
  obtain ⟨i, o, k, -, hw, -⟩ := hok.same r hne
  exact (hI.busy i r (by rw [hw]; rfl)).2 st h

/-- So does the file of a rule that another worker has in hand. -/
theorem Effects.other (hok : Effects mk targets b t) (hI : Inv mk b.st)
    (hjob : (b.st.workers j).job = some r) (hl : ∀ o, t.label ≠ .worker j o) :
    t.files r = b.files r := by
  by_contra hne
  obtain ⟨i, o, k, hlabel, hw, -⟩ := hok.same r hne
  obtain rfl := (hI.alone hjob).2.2.2.2.2 i (by rw [hw]; rfl)
  exact hl o hlabel

/-- A file that a rule depends on has finished while a worker has the rule. -/
theorem Inv.dep_finished {s : St V n} (hI : Inv mk s) (hjob : (s.workers i).job = some r)
    (hd : d ∈ mk.graph.neighbors r) : .finish d 0 ∈ s.trace :=
  hI.zero d (hI.taken d 0 (hI.taken_of_push (hI.push_of_job hjob) hd))

theorem Effects.dep (hok : Effects mk targets b t) (hI : Inv mk b.st)
    (hjob : (b.st.workers j).job = some r) (hd : d ∈ mk.graph.neighbors r) :
    t.files d = b.files d :=
  hok.finished hI (hI.dep_finished hjob hd)

/-- Only a command changes a file. -/
theorem Effects.still (hok : Effects mk targets b t) {o : Bool} (hlabel : t.label = .worker i o)
    (hw : ∀ r k, b.st.workers i = .running r k → ¬ k < (mk.commands r).length) :
    t.files = b.files := by
  ext1 r
  by_contra hne
  obtain ⟨j, o', k, hlabel', hj, hk⟩ := hok.same r hne
  obtain ⟨rfl, -⟩ := Label.worker.inj (hlabel.symm.trans hlabel')
  exact hw r k hj hk

/-- A rule begins when its worker finds that it is valid to run. -/
theorem begin_cases (b : Build V n) (t : Turn V n) : b.begin t = b.begun ∨
    ∃ i q, t.label = .worker i true ∧ b.st.workers i = .checking q ∧
      b.begin t = Function.update b.begun q t.clock := by
  unfold Build.begin
  cases hl : t.label with
  | main => exact .inl rfl
  | worker i o =>
    cases o with
    | false => exact .inl rfl
    | true =>
      cases hw : b.st.workers i with
      | checking q => exact .inr ⟨i, q, rfl, hw, by simp only [hw]⟩
      | _ => exact .inl (by simp only [hw])

/-- A rule that another worker has in hand began when it did. -/
theorem begin_other (hI : Inv mk b.st) (hjob : (b.st.workers j).job = some r)
    (hl : ∀ o, t.label ≠ .worker j o) : b.begin t r = b.begun r := by
  rcases begin_cases b t with hb | ⟨i, q, hlabel, hw, hb⟩
  · rw [hb]
  · rw [hb]
    refine Function.update_of_ne ?_ ..
    rintro rfl
    obtain rfl := (hI.alone hjob).2.2.2.2.2 i (by rw [hw]; rfl)
    exact hl true hlabel

/-- So did one whose commands are being run. -/
theorem begin_running {o : Bool} (hlabel : t.label = .worker i o)
    (hw : b.st.workers i = .running r k) : b.begin t = b.begun := by
  rcases begin_cases b t with hb | ⟨j, q, hlabel', hj, -⟩
  · exact hb
  · obtain ⟨rfl, -⟩ := Label.worker.inj (hlabel.symm.trans hlabel')
    rw [hw] at hj
    cases hj

theorem begin_checking (hlabel : t.label = .worker i true) (hw : b.st.workers i = .checking r) :
    b.begin t r = t.clock := by
  unfold Build.begin
  rw [hlabel]
  simp only [hw, Function.update_self]

theorem begin_le (hle : ∀ r, b.begun r ≤ b.clock) (hclock : b.clock ≤ t.clock) (r : V) :
    b.begin t r ≤ t.clock := by
  rcases begin_cases b t with hb | ⟨i, q, -, -, hb⟩
  · rw [hb]
    exact (hle r).trans hclock
  · rw [hb]
    by_cases hq : r = q
    · rw [hq, Function.update_self]
    · rw [Function.update_of_ne hq]
      exact (hle r).trans hclock

/-! ### What has finished is not stale -/

/-- A file that is there without a rule. -/
def IsSource (mk : Makefile V) (files : Files V) (d : V) : Prop :=
  mk.commands d = [] ∧ mk.graph.neighbors d = [] ∧ files d ≠ none

/-- What a target depends on is a target or a source. -/
def Sources (mk : Makefile V) (targets : Set V) (files : Files V) : Prop :=
  ∀ r ∈ targets, mk.commands r ≠ [] ∧
    ∀ d ∈ mk.graph.neighbors r, d ∈ targets ∨ IsSource mk files d

/-- **What holds in every state**; the files were `files` before. -/
structure Fresh (mk : Makefile V) (targets : Set V) (files : Files V) (b : Build V n) : Prop where
  past : ∀ r m, b.files r = some m → m ≤ b.clock
  begun_le : ∀ r, b.begun r ≤ b.clock
  source : ∀ r, mk.commands r = [] → b.files r = files r
  running : ∀ i r k, b.st.workers i = .running r k → k ≤ (mk.commands r).length ∧
    (∀ d ∈ mk.graph.neighbors r, ∀ m, b.files d = some m → m ≤ b.begun r) ∧
    (r ∈ targets → k ≠ 0 → k = (mk.commands r).length →
      ∃ m, b.files r = some m ∧ b.begun r ≤ m)
  setting : ∀ i, ∀ r ∈ targets, b.st.workers i = .setting r 0 →
    rule_valid_to_run mk b.files r = false
  finished : ∀ r ∈ targets, .finish r 0 ∈ b.st.trace → rule_valid_to_run mk b.files r = false

theorem fresh_initial (hpast : ∀ r m, files r = some m → m ≤ clock) :
    Fresh mk targets files (.start mk n files clock : Build V n) where
  past := hpast
  begun_le _ := Nat.zero_le _
  source _ _ := rfl
  running _ _ _ := nofun
  setting _ _ _ := nofun
  finished r _ h := by
    obtain ⟨v, -, hv⟩ := List.mem_map.mp (List.mem_reverse.mp h)
    cases hv

/-- What a target depends on is there, once it has finished. -/
theorem Fresh.exists_dep (h : Fresh mk targets files b) (hsources : Sources mk targets files)
    (hr : r ∈ targets) (hd : d ∈ mk.graph.neighbors r) (hfin : .finish d 0 ∈ b.st.trace) :
    ∃ m, b.files d = some m := by
  obtain htarget | ⟨hnone, -, hthere⟩ := (hsources r hr).2 d hd
  · obtain ⟨m, hm, -⟩ := not_valid_iff.mp (h.finished d htarget hfin)
    exact ⟨m, hm⟩
  · rw [h.source d hnone]
    exact Option.ne_none_iff_exists'.mp hthere

theorem Fresh.step_running (h : Fresh mk targets files b) (hI : Inv mk b.st)
    (hok : Effects mk targets b t) {st : St V n} (hs : Step mk b.st t.label st) (hw : st.workers j = .running r k) :
    k ≤ (mk.commands r).length ∧
    (∀ d ∈ mk.graph.neighbors r, ∀ m, t.files d = some m → m ≤ b.begin t r) ∧
    (r ∈ targets → k ≠ 0 → k = (mk.commands r).length →
      ∃ m, t.files r = some m ∧ b.begin t r ≤ m) := by
  by_cases hown : ∃ o, t.label = .worker j o
  · obtain ⟨o, hlabel⟩ := hown
    have hs' := hlabel ▸ hs
    cases hs' with
    | @check _ _ q hq =>
      -- what the rule depends on was made before now
      simp only [Function.update_self] at hw
      split at hw
      · rename_i ho
        obtain ⟨rfl, rfl⟩ := Worker.running.inj hw
        refine ⟨Nat.zero_le _, fun d hd m hm => ?_, fun _ hne => absurd rfl hne⟩
        rw [begin_checking (ho ▸ hlabel) hq]
        rw [hok.dep hI (by rw [hq]; rfl) hd] at hm
        exact (h.past d m hm).trans hok.clock_le
      · cases hw
    | @runOk _ q k' hq hk =>
      simp only [Function.update_self] at hw
      obtain ⟨rfl, rfl⟩ := Worker.running.inj hw
      rw [begin_running hlabel hq]
      refine ⟨hk, fun d hd m hm => ?_, fun hr _ hlast => hok.made j q hr k' hlabel hq hlast⟩
      rw [hok.dep hI (by rw [hq]; rfl) hd] at hm
      exact (h.running j q k' hq).2.1 d hd m hm
    | _ =>
      simp only [Function.update_self] at hw
      cases hw
  · have hl : ∀ o, t.label ≠ .worker j o := fun o ho => hown ⟨o, ho⟩
    rw [(Inv.worker_step hs j).resolve_right hown] at hw
    have hjob : (b.st.workers j).job = some r := by rw [hw]; rfl
    obtain ⟨hle, hdeps, hmade⟩ := h.running j r k hw
    rw [begin_other hI hjob hl, hok.other hI hjob hl]
    refine ⟨hle, fun d hd m hm => ?_, hmade⟩
    rw [hok.dep hI hjob hd] at hm
    exact hdeps d hd m hm

/-- A rule whose commands have all been run is not stale. -/
theorem Fresh.not_valid_of_made (h : Fresh mk targets files b) (hI : Inv mk b.st)
    (hsources : Sources mk targets files) (hw : b.st.workers i = .running r k)
    (hk : ¬ k < (mk.commands r).length) (hr : r ∈ targets) :
    rule_valid_to_run mk b.files r = false := by
  obtain ⟨hle, hdeps, hmade⟩ := h.running i r k hw
  have hlen : k = (mk.commands r).length := by omega
  have hpos : k ≠ 0 := by rw [hlen]; exact (List.length_pos_iff.mpr (hsources r hr).1).ne'
  obtain ⟨update_time, htime, hbegun⟩ := hmade hr hpos hlen
  refine not_valid_iff.mpr ⟨update_time, htime, fun d hd => ?_⟩
  have hfin := hI.dep_finished (i := i) (by rw [hw]; rfl) hd
  obtain ⟨m, hm⟩ := h.exists_dep hsources hr hd hfin
  exact ⟨m, hm, (hdeps d hd m hm).trans hbegun⟩

theorem Fresh.step_setting (h : Fresh mk targets files b) (hI : Inv mk b.st)
    (hsources : Sources mk targets files) (hok : Effects mk targets b t) {st : St V n}
    (hs : Step mk b.st t.label st) (hw : st.workers j = .setting r 0)
    (hr : r ∈ targets) : rule_valid_to_run mk t.files r = false := by
  by_cases hown : ∃ o, t.label = .worker j o
  · obtain ⟨o, hlabel⟩ := hown
    have hs' := hlabel ▸ hs
    cases hs' with
    | @check _ _ q hq =>
      simp only [Function.update_self] at hw
      split at hw
      · cases hw
      · rename_i ho
        obtain ⟨rfl, -⟩ := Worker.setting.inj hw
        rw [hok.still hlabel (fun r k hrun => by rw [hq] at hrun; cases hrun),
          ← hok.check j o q hlabel hq]
        exact Bool.eq_false_iff.mpr ho
    | @runDone _ _ q k hq hk =>
      simp only [Function.update_self] at hw
      obtain ⟨rfl, -⟩ := Worker.setting.inj hw
      have hstill := hok.still hlabel fun r k' hrun => by
        rw [hq] at hrun
        obtain ⟨rfl, rfl⟩ := Worker.running.inj hrun
        exact hk
      rw [hstill]
      exact h.not_valid_of_made hI hsources hq hk hr
    | _ =>
      simp only [Function.update_self] at hw
      cases hw
  · have hl : ∀ o, t.label ≠ .worker j o := fun o ho => hown ⟨o, ho⟩
    rw [(Inv.worker_step hs j).resolve_right hown] at hw
    have hjob : (b.st.workers j).job = some r := by rw [hw]; rfl
    rw [rule_valid_to_run_congr (hok.other hI hjob hl) fun d hd => hok.dep hI hjob hd]
    exact h.setting j r hr hw

theorem Fresh.step_finished (h : Fresh mk targets files b) (hI : Inv mk b.st)
    (hok : Effects mk targets b t) {st : St V n} (hs : Step mk b.st t.label st) (hfin : .finish r 0 ∈ st.trace)
    (hr : r ∈ targets) : rule_valid_to_run mk t.files r = false := by
  by_cases hold : .finish r 0 ∈ b.st.trace
  · have hdeps : ∀ d ∈ mk.graph.neighbors r, t.files d = b.files d := fun d hd =>
      hok.finished hI (hI.finish_of_start (hI.start_of_finish hold) hd)
    rw [rule_valid_to_run_congr (hok.finished hI hold) hdeps]
    exact h.finished r hr hold
  · generalize hl : t.label = l at hs
    cases hs with
    | @set i o q st hq =>
      obtain ⟨rfl, rfl⟩ : r = q ∧ 0 = st := by simpa [hold] using hfin
      rw [hok.still hl (fun r k hrun => by rw [hq] at hrun; cases hrun)]
      exact h.setting i r hr hq
    | _ => exact absurd (by simpa using hfin) hold

theorem Fresh.step (h : Fresh mk targets files b) (hI : Inv mk b.st)
    (hsources : Sources mk targets files) (hok : Effects mk targets b t) {st : St V n} (hs : Step mk b.st t.label st) :
    Fresh mk targets files ⟨st, t.files, t.clock, b.begin t⟩ where
  past r m hm := by
    obtain hold | hle := hok.times r m hm
    · exact (h.past r m hold).trans hok.clock_le
    · exact hle
  begun_le := begin_le h.begun_le hok.clock_le
  source r hr := by
    rw [← h.source r hr]
    by_contra hne
    obtain ⟨i, o, k, -, -, hk⟩ := hok.same r hne
    rw [hr] at hk
    exact absurd hk (Nat.not_lt_zero k)
  running _ _ _ hw := h.step_running hI hok hs hw
  setting _ _ hr hw := h.step_setting hI hsources hok hs hw hr
  finished _ hr hfin := h.step_finished hI hok hs hfin hr

/-! ### Runs -/

/-- The states that a build reaches; the files were `files` before it. -/
def BuildReach (mk : Makefile V) (targets : Set V) (files : Files V) (clock : ℕ)
    (b : Build V n) : Prop :=
  (build mk n files clock).Reach (Effects mk targets) b

theorem build_step (h : b.step mk t = some b') :
    ∃ st, ParMake.step mk b.st t.label = some st ∧ b' = ⟨st, t.files, t.clock, b.begin t⟩ := by
  obtain ⟨st, hs, rfl⟩ := Option.map_eq_some_iff.mp h
  exact ⟨st, hs, rfl⟩

/-- The threads of a build are threads of `parmake`. -/
theorem BuildReach.reachable (hb : BuildReach mk targets files clock b) : Reachable mk b.st := by
  refine hb.rec ?_ ?_
  · rintro s rfl
    exact .init rfl
  · intro b b' t _ _ hs ih
    obtain ⟨st, hst, rfl⟩ := build_step hs
    exact ih.step trivial hst

theorem BuildReach.fresh (hb : BuildReach mk targets files clock b)
    (hpast : ∀ r m, files r = some m → m ≤ clock) (hsources : Sources mk targets files) : Fresh mk targets files b := by
  induction hb with
  | init h =>
    obtain rfl := h
    exact fresh_initial hpast
  | step hr hok hs ih =>
    obtain ⟨st, hst, rfl⟩ := build_step hs
    exact ih.step (BuildReach.reachable hr).inv hsources hok (step_cases hst)

/-! ### What is run -/

/-- A rule that was stale, or depends on one that was. -/
def Needed (mk : Makefile V) (files : Files V) (r : V) : Prop :=
  ∃ d ∈ mk.graph.vertices, ReflTransGen mk.graph.Dep r d ∧ mk.commands d ≠ [] ∧
    rule_valid_to_run mk files d = true

/-- **What holds in every state**: only what is needed is made. -/
structure Frugal (mk : Makefile V) (files : Files V) (b : Build V n) : Prop where
  cmd : ∀ r k ok, .cmd r k ok ∈ b.st.trace → Needed mk files r
  file : ∀ r, b.files r ≠ files r → Needed mk files r
  running : ∀ i r k, b.st.workers i = .running r k → mk.commands r ≠ [] → Needed mk files r

theorem frugal_initial : Frugal mk files (.start mk n files clock : Build V n) where
  cmd r k ok h := by
    obtain ⟨v, -, hv⟩ := List.mem_map.mp (List.mem_reverse.mp h)
    cases hv
  file r h := absurd rfl h
  running _ _ _ := nofun

/-- What a rule's target or dependencies have changed for is needed, and so is the rule. -/
theorem Frugal.needed (h : Frugal mk files b) (hr : r ∈ mk.graph.vertices)
    (hcmds : mk.commands r ≠ [])
    (hvalid : rule_valid_to_run mk b.files r = true) : Needed mk files r := by
  by_cases hsame : b.files r = files r
  · by_cases hd : ∀ d ∈ mk.graph.neighbors r, b.files d = files d
    · rw [rule_valid_to_run_congr hsame hd] at hvalid
      exact ⟨r, hr, .refl, hcmds, hvalid⟩
    · push Not at hd
      obtain ⟨d, hd, hne⟩ := hd
      obtain ⟨e, hev, hde, he⟩ := h.file d hne
      exact ⟨e, hev, hde.head hd, he⟩
  · exact h.file r hsame

theorem Frugal.step (h : Frugal mk files b) (hI : Inv mk b.st) (hok : Effects mk targets b t)
    {st : St V n} (hs : Step mk b.st t.label st) : Frugal mk files ⟨st, t.files, t.clock, b.begin t⟩ where
  cmd r k ok hc := by
    by_cases hold : .cmd r k ok ∈ b.st.trace
    · exact h.cmd r k ok hold
    · obtain ⟨i, hw, hk, -⟩ := Outcome.cmd_new hs hc hold
      exact h.running i r k hw (List.ne_nil_of_length_pos (Nat.zero_lt_of_lt hk))
  file r hne := by
    by_cases hold : t.files r = b.files r
    · exact h.file r (hold ▸ hne)
    · obtain ⟨i, o, k, -, hw, hk⟩ := hok.same r hold
      exact h.running i r k hw (List.ne_nil_of_length_pos (Nat.zero_lt_of_lt hk))
  running j r k hw hcmds := by
    rcases Inv.worker_step hs j with hsame | ⟨o, hlabel⟩
    · exact h.running j r k (hsame ▸ hw) hcmds
    · have hs' := hlabel ▸ hs
      cases hs' with
      | @check _ _ q hq =>
        simp only [Function.update_self] at hw
        split at hw
        · rename_i ho
          obtain ⟨rfl, -⟩ := Worker.running.inj hw
          have hpush := hI.push_of_job (i := j) (by rw [hq]; rfl)
          exact h.needed ((hI.pushed q).mp hpush).1 hcmds (ho ▸ hok.check j o q hlabel hq).symm
        · cases hw
      | @runOk _ q k' hq hk =>
        simp only [Function.update_self] at hw
        obtain ⟨rfl, -⟩ := Worker.running.inj hw
        exact h.running j q k' hq hcmds
      | _ =>
        simp only [Function.update_self] at hw
        cases hw

theorem BuildReach.frugal (hb : BuildReach mk targets files clock b) : Frugal mk files b := by
  induction hb with
  | init h =>
    obtain rfl := h
    exact frugal_initial
  | step hr hok hs ih =>
    obtain ⟨st, hst, rfl⟩ := build_step hs
    exact ih.step (BuildReach.reachable hr).inv hok (step_cases hst)

/-- When `parmake` has returned and no command failed, every rule has finished. -/
theorem Reachable.finish {s : St V n} (hs : Reachable mk s) (hg : Pruned mk.sentinel mk.graph)
    (hn : 0 < n) (hm : s.main = .returned) (hno : ∀ f k, .cmd f k false ∉ s.trace)
    (hr : r ∈ mk.graph.vertices) : .finish r 0 ∈ s.trace := by
  have hI := hs.inv
  have hout : s.main.out := by rw [hm]; trivial
  have hnone : ∀ f, .finish f (-1) ∉ s.trace := fun f hf =>
    (hI.finishFail f hf).elim fun k hk => hno f k hk
  have hpush := hs.outcome.push_of_no_failure hI hg hout hnone hr
  obtain ⟨st, hst⟩ := hs.flow.finish_of_push hI hn hm hpush
  obtain rfl | rfl := hs.outcome.finishes r st hst
  · exact hst
  · exact absurd hst (hnone r)

/-! ### A build that makes its targets -/

/-- The answer of the files, or of a command that succeeds. -/
def Build.outcome (mk : Makefile V) (b : Build V n) (i : Fin n) : Bool :=
  match b.st.workers i with
  | .checking r => rule_valid_to_run mk b.files r
  | _ => true

/-- The files after a command that makes its target, if that is in `F`. -/
def Build.written (mk : Makefile V) (F : Finset V) (b : Build V n) (i : Fin n) : Files V :=
  match b.st.workers i with
  | .running r k =>
    if r ∈ F ∧ k < (mk.commands r).length then Function.update b.files r (some (b.clock + 1))
    else b.files
  | _ => b.files

/-- What a thread does when every command succeeds and makes its target. -/
def Build.turn (mk : Makefile V) (F : Finset V) (b : Build V n) : Option (Fin n) → Turn V n
  | none => ⟨.main, b.files, b.clock⟩
  | some i => ⟨.worker i (b.outcome mk i), b.written mk F i, b.clock + 1⟩

variable {F : Finset V}

theorem outcome_checking (hw : b.st.workers i = .checking r) :
    b.outcome mk i = rule_valid_to_run mk b.files r := by
  unfold Build.outcome
  simp only [hw]

theorem written_running (hw : b.st.workers i = .running r k) (hr : r ∈ F)
    (hk : k < (mk.commands r).length) : b.written mk F i r = some (b.clock + 1) := by
  unfold Build.written
  simp only [hw, hr, hk, and_self, if_true, Function.update_self]

theorem written_cases (mk : Makefile V) (F : Finset V) (b : Build V n) (i : Fin n) (r : V) :
    b.written mk F i r = b.files r ∨ b.written mk F i r = some (b.clock + 1) ∧
      ∃ k, b.st.workers i = .running r k ∧ k < (mk.commands r).length := by
  unfold Build.written
  cases hw : b.st.workers i with
  | running q k =>
    dsimp only
    split
    · rename_i h
      by_cases hr : r = q
      · obtain rfl := hr
        exact .inr ⟨Function.update_self .., k, rfl, h.2⟩
      · exact .inl (Function.update_of_ne hr ..)
    · exact .inl rfl
  | _ => exact .inl rfl

theorem turn_effects (hle : ∀ r, b.begun r ≤ b.clock) (w : Option (Fin n)) :
    Effects mk F b (b.turn mk F w) := by
  cases w with
  | none =>
    exact {
      clock_le := le_rfl
      check := fun _ _ _ => nofun
      same := fun _ h => absurd rfl h
      times := fun _ _ h => .inl h
      made := fun _ _ _ _ => nofun }
  | some i =>
    refine {
      clock_le := Nat.le_succ _
      check := ?check
      same := ?same
      times := ?times
      made := ?made }
    case check =>
      intro j o r hl hw
      obtain ⟨rfl, rfl⟩ := Label.worker.inj hl
      exact outcome_checking hw
    case same =>
      intro r hne
      obtain hsame | ⟨-, k, hw, hk⟩ := written_cases mk F b i r
      · exact absurd hsame hne
      · exact ⟨i, _, k, rfl, hw, hk⟩
    case times =>
      intro r m hm
      obtain hsame | ⟨hnew, -⟩ := written_cases mk F b i r
      · exact .inl (hsame ▸ hm)
      · exact .inr (Option.some.inj (hm.symm.trans hnew)).le
    case made =>
      intro j r hr k hl hw hlast
      obtain ⟨rfl, -⟩ := Label.worker.inj hl
      exact ⟨_, written_running hw hr (by omega), (hle r).trans (Nat.le_succ _)⟩

/-- The threads of the list, one after the other. -/
def Build.drive (mk : Makefile V) (F : Finset V) : List (Option (Fin n)) → Build V n →
    Option (Build V n)
  | [], b => some b
  | w :: ws, b => (b.step mk (b.turn mk F w)).bind (Build.drive mk F ws)

theorem BuildReach.drive {ws : List (Option (Fin n))}
    (hpast : ∀ r m, files r = some m → m ≤ clock) (hsources : Sources mk F files)
    (hb : BuildReach mk F files clock b) (h : b.drive mk F ws = some b') :
    BuildReach mk F files clock b' := by
  induction ws generalizing b with
  | nil => exact Option.some.inj h ▸ hb
  | cons w ws ih =>
    obtain ⟨b₁, hs, hrest⟩ := Option.bind_eq_some_iff.mp h
    have hle := (hb.fresh hpast hsources).begun_le
    exact ih (Lts.Reach.step hb (turn_effects hle w) hs) hrest

/-- The targets of `testfile5` below `all`, and the sentinel. -/
inductive Testfile5
  | sentinel
  | all
  | file1
  | oldfile
  deriving DecidableEq

/-- `testfile5`, without most of its `echo`s: `all` never becomes a file. -/
def testfile5 : Makefile Testfile5 where
  graph := Graph.ofEdges [(.sentinel, .all), (.all, .file1), (.file1, .oldfile)]
  sentinel := .sentinel
  commands
    | .sentinel => []
    | .all => ["echo"]
    | .file1 => ["echo", "echo \"Hello World\" >examples/file1"]
    | .oldfile => []

/-- There is an `oldfile`, and no other file. -/
def testfile5Files : Files Testfile5
  | .oldfile => some 1
  | _ => none

/-- Worker `i` and the main thread in turn, when the worker takes the given numbers of steps for the
    rules that are pushed one by one. -/
def oneByOne (i : Fin n) (steps : List ℕ) : List (Option (Fin n)) :=
  (steps.flatMap fun k => List.replicate k (some i) ++ List.replicate 4 none).dropLast ++
    [some i, some i, none, none]

def Event.isFailure {V : Type*} : Event V → Bool
  | .cmd _ _ false => true
  | _ => false

theorem sources_testfile5 {files : Files Testfile5} (h : files .oldfile ≠ none) :
    Sources testfile5 ({.file1} : Finset Testfile5) files := by
  intro r hr
  obtain rfl := Finset.mem_singleton.mp hr
  refine ⟨by decide, fun d hd => .inr ?_⟩
  obtain rfl := List.mem_singleton.mp (show d ∈ [Testfile5.oldfile] from hd)
  exact ⟨rfl, rfl, h⟩

theorem past_testfile5 : ∀ r m, testfile5Files r = some m → m ≤ 1 := by
  intro r m h
  cases r with
  | oldfile => exact (Option.some.inj h).ge
  | _ => cases h

/-- The build of `testfile5` makes `file1`. -/
theorem exists_build : ∃ b : Build Testfile5 1,
    BuildReach testfile5 ({.file1} : Finset Testfile5) testfile5Files 1 b ∧
      b.st.main = .returned ∧ b.st.trace.any Event.isFailure = false ∧
      b.files = Function.update testfile5Files .file1 (some 9) := by
  have hrun : ((Build.start testfile5 1 testfile5Files 1).drive testfile5 {.file1}
      (oneByOne 0 [4, 7, 6, 5])).map (fun b => (b.st.main, b.st.trace.any Event.isFailure,
        [b.files .sentinel, b.files .all, b.files .file1, b.files .oldfile])) =
      some (.returned, false, [none, none, some 9, some 1]) := by decide +kernel
  obtain ⟨b, hb, hobs⟩ := Option.map_eq_some_iff.mp hrun
  simp only [Prod.mk.injEq, List.cons.injEq] at hobs
  obtain ⟨hm, hno, hsentinel, hall, hfile1, holdfile, -⟩ := hobs
  refine ⟨b, .drive past_testfile5 (sources_testfile5 nofun) (.init rfl) hb, hm, hno, ?_⟩
  ext1 r
  cases r with
  | sentinel => exact hsentinel
  | all => exact hall
  | file1 => exact hfile1
  | oldfile => exact holdfile

omit [DecidableEq V] in
theorem not_cmd_false {tr : List (Event V)} (h : tr.any Event.isFailure = false) (r : V) (k : ℕ) :
    .cmd r k false ∉ tr := by
  intro hmem
  exact List.any_eq_false.mp h _ hmem rfl

theorem pruned_testfile5 : Pruned testfile5.sentinel testfile5.graph :=
  have hpre : preprocess testfile5.sentinel testfile5.graph = some testfile5.graph := by rfl
  .of_preprocess (by decide) hpre

/-! ### The build -/

/-- **Nothing is made without need**: a command is run, and a file is changed, only of a rule
    that was stale before or depends on one that was. -/
theorem rebuild_minimal (hb : BuildReach mk targets files clock b)
    (hr : (∃ k ok, .cmd r k ok ∈ b.st.trace) ∨ b.files r ≠ files r) : Needed mk files r := by
  obtain ⟨k, ok, hc⟩ | hne := hr
  · exact hb.frugal.cmd r k ok hc
  · exact hb.frugal.file r hne

theorem rebuild_minimal_testfile5 : ∃ b : Build Testfile5 1,
    BuildReach testfile5 ({.file1} : Finset Testfile5) testfile5Files 1 b ∧
      b.files .file1 ≠ none ∧ Needed testfile5 testfile5Files .file1 := by
  obtain ⟨b, hb, -, -, hfiles⟩ := exists_build
  have hne : b.files .file1 ≠ none := by rw [hfiles]; exact nofun
  exact ⟨b, hb, hne, rebuild_minimal hb (.inr hne)⟩

/-- Below a target what has commands is a target. -/
theorem Sources.below (hsources : Sources mk targets files) (hr : r ∈ targets)
    (hd : ReflTransGen mk.graph.Dep r d) (hcmds : mk.commands d ≠ []) : d ∈ targets := by
  have hbelow : d ∈ targets ∨ IsSource mk files d := by
    clear hcmds
    induction hd with
    | refl => exact .inl hr
    | tail _ hdep ih =>
      obtain htarget | ⟨-, hleaf, -⟩ := ih
      · exact (hsources _ htarget).2 _ hdep
      · rw [Graph.Dep, hleaf] at hdep
        cases hdep
  exact hbelow.resolve_right fun hsource => hcmds hsource.1

end SystemProgramming.ParMake
