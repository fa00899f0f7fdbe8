import SystemProgramming.MapReduce.Processes

namespace SystemProgramming.MapReduce

open Lib

/-!
# Who has which descriptors

The descriptors of the main process are known from where it is, and so are those of a child when it
is forked.  A child never gets a descriptor for something that it had none for.

* `Pc.table`, `Proc.table` — the descriptors of the main process and of a program.
* `Described` — the invariant.
* `Described.holds_write_m`, `Described.holds_write_r` — who can write to a pipe.
* `Described.holds_read` — all pipes can be read from while the main process waits.
-/

variable {n : ℕ}

/-! ### The descriptors -/

namespace Pc

/-- How many input pipes of mappers there are. -/
def made (n : ℕ) : Pc → ℕ
  | pipes i => i
  | print => 0
  | done => 0
  | exit => 0
  | _ => n

/-- The first of them that the main process can write to. -/
def kept (n : ℕ) : Pc → ℕ
  | pipes _ => 0
  | open_output => 0
  | splitter i => i
  | close i => i
  | mapper i => i + 1
  | _ => n

/-- The main process can read from the reducer's pipe. -/
def readsR : Pc → Bool
  | pipes _ => false
  | print => false
  | done => false
  | exit => false
  | _ => true

/-- The main process can write to the reducer's pipe. -/
def writesR : Pc → Bool
  | open_output => true
  | splitter _ => true
  | close _ => true
  | mapper _ => true
  | _ => false

/-- The output file has been opened, and not been closed. -/
def opened : Pc → Bool
  | pipes _ => false
  | open_output => false
  | print => false
  | done => false
  | exit => false
  | _ => true

def ended : Pc → Bool
  | done => true
  | exit => true
  | _ => false

/-- The descriptors of the main process. -/
def table (J : Job) (pc : Pc) : Table n
  | .stdin => if pc.ended then none else some .terminal
  | .stdout => if pc.ended then none else some .terminal
  | .read (.fd_m i) => if i.val < pc.made n then some (.read (.fd_m i)) else none
  | .write (.fd_m i) =>
    if i.val < pc.made n ∧ pc.kept n ≤ i.val then some (.write (.fd_m i)) else none
  | .read .fd_r => if pc.readsR then some (.read .fd_r) else none
  | .write .fd_r => if pc.writesR then some (.write .fd_r) else none
  | .output_fd => if pc.opened ∧ J.opens then some .output else none

end Pc

/-- Where the main process is when it forks a child. -/
def Proc.forkedAt : Proc n → Pc
  | splitter i => .splitter i
  | mapper i => .mapper i
  | reducer => .reducer

def Call.apply (fds : Table n) : Call n → Table n
  | close fd => fds.close fd
  | dup2 oldfd newfd => fds.dup2 oldfd newfd
  | execlp => fds

/-- The descriptors of a program. -/
def Proc.table (J : Job) (c : Proc n) : Table n := c.calls.foldl Call.apply (c.forkedAt.table J)

variable {J : Job} {s s' : State n} {ok : Bool} {c : Proc n} {i : Fin n} {p : Pipe n}
  {fds : Table n} {d : Desc n} {fd : Fd n}

/-- No new descriptors. -/
def Within (fds fds' : Table n) : Prop := ∀ fd d, fds fd = some d → ∃ fd', fds' fd' = some d

theorem Within.refl (fds : Table n) : Within fds fds := fun fd _ h => ⟨fd, h⟩

theorem Within.trans {fds₁ fds₂ fds₃ : Table n} (h : Within fds₁ fds₂) (h' : Within fds₂ fds₃) :
    Within fds₁ fds₃ := by
  intro fd d hd
  obtain ⟨fd', hd'⟩ := h fd d hd
  exact h' fd' d hd'

theorem within_apply (fds : Table n) (call : Call n) : Within (call.apply fds) fds := by
  intro fd d hd
  cases call with
  | close fd₀ =>
    rw [Call.apply, Table.close] at hd
    by_cases hfd : fd = fd₀
    · rw [hfd, Function.update_self] at hd
      cases hd
    · rw [Function.update_of_ne hfd] at hd
      exact ⟨fd, hd⟩
  | dup2 oldfd newfd =>
    rw [Call.apply, Table.dup2] at hd
    cases hold : fds oldfd with
    | none =>
      rw [hold] at hd
      exact ⟨fd, hd⟩
    | some d₀ =>
      rw [hold] at hd
      by_cases hfd : fd = newfd
      · rw [hfd] at hd
        exact ⟨oldfd, hold.trans ((Function.update_self newfd _ fds).symm.trans hd)⟩
      · exact ⟨fd, (Function.update_of_ne hfd _ fds).symm.trans hd⟩
  | execlp => exact ⟨fd, hd⟩

theorem within_foldl (calls : List (Call n)) (fds : Table n) :
    Within (calls.foldl Call.apply fds) fds := by
  induction calls generalizing fds with
  | nil => exact .refl fds
  | cons call calls ih => exact (ih (call.apply fds)).trans (within_apply fds call)

/-! ### The descriptors of the programs -/

theorem table_splitter (J : Job) (i : Fin n) :
    (Proc.splitter i).table J .stdout = some (.write (.fd_m i)) := by
  simp [Proc.table, Proc.calls, Call.apply, Proc.forkedAt, Table.close, Table.dup2,
    Pc.table, Pc.made, Pc.kept]

theorem table_mapper (J : Job) (i : Fin n) :
    (Proc.mapper i).table J .stdin = some (.read (.fd_m i)) ∧
      (Proc.mapper i).table J .stdout = some (.write .fd_r) := by
  simp [Proc.table, Proc.calls, Call.apply, Proc.forkedAt, Table.close, Table.dup2,
    Pc.table, Pc.made, Pc.writesR]

theorem table_reducer (J : Job) : (Proc.reducer : Proc n).table J .stdin = some (.read .fd_r) ∧
    (Proc.reducer : Proc n).table J .stdout = some (if J.opens then .output else .terminal) := by
  cases h : J.opens <;>
    simp [Proc.table, Proc.calls, Call.apply, Proc.forkedAt, Table.dup2, Pc.table,
      Pc.readsR, Pc.opened, Pc.ended, h]

/-! ### The invariant -/

/-- The program is that of the child. -/
def Work.IsOf (c : Proc n) : Work → Prop
  | splitter _ => ∃ i, c = .splitter i
  | mapper _ _ _ => ∃ i, c = .mapper i
  | reducer _ => c = .reducer

/-- What is known of a child. -/
def Child.Described (J : Job) (c : Proc n) : Child n → Prop
  | setup calls fds => calls ≠ [] ∧ calls <:+ c.calls ∧
      calls.foldl Call.apply fds = c.table J ∧ Within fds (c.forkedAt.table J)
  | running work fds => fds = c.table J ∧ work.IsOf c
  | _ => True

namespace Pc

/-- How many splitters have been forked. -/
def splitters (n : ℕ) : Pc → ℕ
  | pipes _ => 0
  | open_output => 0
  | splitter i => i
  | close i => i + 1
  | mapper i => i + 1
  | _ => n

/-- How many mappers have been forked. -/
def mappers (n : ℕ) : Pc → ℕ
  | pipes _ => 0
  | open_output => 0
  | splitter i => i
  | close i => i
  | mapper i => i
  | _ => n

/-- All children have been forked. -/
def waits : Pc → Bool
  | wait_splitter _ => true
  | wait_mapper _ => true
  | closeall => true
  | print => true
  | done => true
  | _ => false

/-- The child has been forked. -/
def Forked (pc : Pc) : Proc n → Prop
  | .splitter i => i.val < pc.splitters n
  | .mapper i => i.val < pc.mappers n
  | .reducer => pc.waits = true

end Pc

def Child.born : Child n → Bool
  | unborn => false
  | _ => true

/-- **The descriptors** of all processes, as long as the main process has not given up. -/
structure Described (J : Job) (s : State n) : Prop where
  fds : s.fds = s.pc.table J
  child : ∀ c, (s.child c).Described J c
  born : s.pc ≠ .exit → ∀ c, (s.child c).born = true ↔ s.pc.Forked c

theorem forks_pc {pc next : Pc} (h : Forks pc c next) : pc = c.forkedAt := by
  cases h <;> rfl

theorem forks_table {pc next : Pc} (h : Forks pc c next) :
    next.table J = (pc.table J : Table n) := by
  cases h <;> (ext fd : 1; rcases fd with _ | _ | (i | _) | (i | _) | _ <;> rfl)

theorem forks_forked {pc next : Pc} (h : Forks pc c next) (c' : Proc n) :
    next.Forked c' ↔ c' = c ∨ pc.Forked c' := by
  cases h <;> cases c' <;>
    simp [Pc.Forked, Pc.splitters, Pc.mappers, Pc.waits, Fin.ext_iff] <;> omega

theorem forks_not_forked {pc next : Pc} (h : Forks pc c next) : ¬ pc.Forked c := by
  cases h <;> simp [Pc.Forked, Pc.splitters, Pc.mappers, Pc.waits]

theorem forks_ne {pc next : Pc} (h : Forks pc c next) :
    pc ≠ .exit ∧ next ≠ .done ∧ next ≠ .exit := by
  cases h <;> exact ⟨Pc.noConfusion, Pc.noConfusion, Pc.noConfusion⟩

/-- The descriptors of the main process, one by one. -/
theorem table_eq {pc : Pc} (hstdin : fds .stdin = if pc.ended then none else some .terminal)
    (hstdout : fds .stdout = if pc.ended then none else some .terminal)
    (hread : ∀ i : Fin n, fds (.read (.fd_m i)) =
      if i.val < pc.made n then some (.read (.fd_m i)) else none)
    (hwrite : ∀ i : Fin n, fds (.write (.fd_m i)) =
      if i.val < pc.made n ∧ pc.kept n ≤ i.val then some (.write (.fd_m i)) else none)
    (hreadR : fds (.read .fd_r) = if pc.readsR then some (.read .fd_r) else none)
    (hwriteR : fds (.write .fd_r) = if pc.writesR then some (.write .fd_r) else none)
    (hout : fds .output_fd = if pc.opened ∧ J.opens then some .output else none) :
    fds = pc.table J := by
  ext fd : 1
  cases fd with
  | stdin => exact hstdin
  | stdout => exact hstdout
  | read p =>
    cases p with
    | fd_m i => exact hread i
    | fd_r => exact hreadR
  | write p =>
    cases p with
    | fd_m i => exact hwrite i
    | fd_r => exact hwriteR
  | output_fd => exact hout

/-- A step of the main process, and its descriptors. -/
theorem fds_of_main (h : MainSteps J s ok s') (hfds : s.fds = s.pc.table J) :
    s'.fds = s'.pc.table J := by
  cases h with
  | pipe i hpc =>
    dsimp only
    rw [hfds, hpc]
    refine table_eq rfl rfl (fun j => ?_) (fun j => ?_) rfl rfl rfl
    · by_cases hj : j = i
      · simp [Table.pipe, hj, Pc.made]
      · have hlt : j.val < i.val + 1 ↔ j.val < i.val := by
          have hne : j.val ≠ i.val := Fin.val_ne_of_ne hj
          omega
        simp [Table.pipe, hj, Pc.table, Pc.made, hlt]
    · by_cases hj : j = i
      · simp [Table.pipe, hj, Pc.made, Pc.kept]
      · have hlt : j.val < i.val + 1 ↔ j.val < i.val := by
          have hne : j.val ≠ i.val := Fin.val_ne_of_ne hj
          omega
        simp [Table.pipe, hj, Pc.table, Pc.made, Pc.kept, hlt]
  | pipe_r i hpc hi =>
    dsimp only
    rw [hfds, hpc]
    refine table_eq rfl rfl (fun j => ?_) (fun j => ?_) rfl rfl rfl
    · simp [Table.pipe, Pc.table, Pc.made, j.isLt.trans_le hi]
    · simp [Table.pipe, Pc.table, Pc.made, Pc.kept, j.isLt.trans_le hi]
  | open_output hpc =>
    dsimp only
    rw [hfds, hpc]
    cases hopens : J.opens with
    | false =>
      exact table_eq rfl rfl (fun _ => rfl) (fun _ => rfl) rfl rfl (by simp [hopens, Pc.table])
    | true =>
      exact table_eq rfl rfl (fun _ => rfl) (fun _ => rfl) rfl rfl (by simp [hopens, Pc.opened])
  | fork c next hforks => exact hfds.trans (forks_table hforks).symm
  | fork_failed => exact table_eq rfl rfl (fun _ => rfl) (fun _ => rfl) rfl rfl rfl
  | splitter_failed => exact table_eq rfl rfl (fun _ => rfl) (fun _ => rfl) rfl rfl rfl
  | close_r i hpc hi =>
    dsimp only
    rw [hfds, hpc]
    refine table_eq rfl rfl (fun _ => rfl) (fun j => ?_) rfl rfl rfl
    have hj : j.val < i := j.isLt.trans_le hi
    simp [Table.close, Pc.table, Pc.made, Pc.kept, hj.not_ge, j.isLt.not_ge]
  | close i hpc =>
    dsimp only
    rw [hfds, hpc]
    refine table_eq rfl rfl (fun _ => rfl) (fun j => ?_) rfl rfl rfl
    by_cases hj : j = i
    · simp [Table.close, hj, Pc.kept]
    · have hne : i.val ≠ j.val := Fin.val_ne_of_ne (Ne.symm hj)
      have hle : i.val ≤ j.val ↔ i.val + 1 ≤ j.val := by omega
      simp [Table.close, hj, Pc.table, Pc.made, Pc.kept, hle]
  | wait_splitter i e hpc =>
    dsimp only
    rw [hfds, hpc]
    rfl
  | wait_mapper i e₂ e₁ hpc =>
    dsimp only
    rw [hfds, hpc]
    rfl
  | wait_reducer i e hpc =>
    dsimp only
    rw [hfds, hpc]
    rfl
  | closeall hpc =>
    dsimp only
    rw [hfds, hpc]
    exact table_eq rfl rfl (fun _ => rfl) (fun _ => rfl) rfl rfl rfl
  | print => exact table_eq rfl rfl (fun _ => rfl) (fun _ => rfl) rfl rfl rfl

theorem Described.main (hs : Described J s) (h : MainSteps J s ok s') : Described J s' := by
  -- short of a `fork`, the children that there are have been forked
  have hborn : ∀ {pc pc' : Pc}, s.pc = pc → pc ≠ .exit →
      (∀ c : Proc n, pc'.Forked c ↔ pc.Forked c) →
      ∀ c, (s.child c).born = true ↔ pc'.Forked c := by
    rintro pc pc' rfl hexit hforked c
    rw [hforked]
    exact hs.born hexit c
  refine ⟨fds_of_main h hs.fds, ?_, ?_⟩
  · intro c
    cases h with
    | fork c₀ next hforks =>
      show (Function.update s.child c₀ _ c).Described J c
      by_cases hc : c = c₀
      · subst hc
        rw [Function.update_self]
        refine ⟨?_, List.suffix_refl _, ?_, ?_⟩
        · cases c <;> exact List.cons_ne_nil _ _
        · rw [hs.fds, forks_pc hforks]
          rfl
        · rw [hs.fds, forks_pc hforks]
          exact .refl _
      · rw [Function.update_of_ne hc]
        exact hs.child c
    | _ => exact hs.child c
  · cases h with
    | fork c₀ next hforks =>
      intro _ c
      have hexit := (forks_ne hforks).1
      show (Function.update s.child c₀ _ c).born = true ↔ next.Forked c
      rw [forks_forked hforks]
      by_cases hc : c = c₀
      · rw [hc, Function.update_self]
        exact iff_of_true rfl (.inl rfl)
      · rw [Function.update_of_ne hc, hs.born hexit c]
        exact (or_iff_right hc).symm
    | fork_failed | splitter_failed => exact fun hexit => absurd rfl hexit
    | close_r i hpc hi =>
      intro _
      refine hborn hpc Pc.noConfusion fun c => ?_
      cases c with
      | splitter j => exact iff_of_true j.isLt (j.isLt.trans_le hi)
      | mapper j => exact iff_of_true j.isLt (j.isLt.trans_le hi)
      | reducer => exact Iff.rfl
    | pipe i hpc => exact fun _ => hborn hpc Pc.noConfusion fun c => by cases c <;> rfl
    | pipe_r i hpc => exact fun _ => hborn hpc Pc.noConfusion fun c => by cases c <;> rfl
    | open_output hpc => exact fun _ => hborn hpc Pc.noConfusion fun c => by cases c <;> rfl
    | close i hpc => exact fun _ => hborn hpc Pc.noConfusion fun c => by cases c <;> rfl
    | wait_splitter i e hpc => exact fun _ => hborn hpc Pc.noConfusion fun c => by cases c <;> rfl
    | wait_mapper i e₂ e₁ hpc =>
      exact fun _ => hborn hpc Pc.noConfusion fun c => by cases c <;> rfl
    | wait_reducer i e hpc => exact fun _ => hborn hpc Pc.noConfusion fun c => by cases c <;> rfl
    | closeall hpc => exact fun _ => hborn hpc Pc.noConfusion fun c => by cases c <;> rfl
    | print hpc => exact fun _ => hborn hpc Pc.noConfusion fun c => by cases c <;> rfl

/-- A child that goes on. -/
theorem Described.set {x : Child n} (hs : Described J s) (hx : x.Described J c)
    (hborn : x.born = true) (hold : (s.child c).born = true) (hpc : s'.pc = s.pc)
    (hfds : s'.fds = s.fds) (hchild : s'.child = Function.update s.child c x) : Described J s' := by
  refine ⟨by rw [hfds, hpc, hs.fds], fun c' => ?_, fun hexit c' => ?_⟩
  · rw [hchild]
    by_cases hc : c' = c
    · rw [hc, Function.update_self]
      exact hx
    · rw [Function.update_of_ne hc]
      exact hs.child c'
  · rw [hpc] at hexit ⊢
    rw [← hs.born hexit c', hchild]
    by_cases hc : c' = c
    · rw [hc, Function.update_self]
      exact iff_of_true hborn hold
    · rw [Function.update_of_ne hc]

/-- Behind another call there is one more. -/
theorem calls_ne_nil {call : Call n} {calls : List (Call n)} (h : call :: calls <:+ c.calls)
    (hne : call ≠ .execlp) : calls ≠ [] := by
  rintro rfl
  rw [List.singleton_suffix_iff_getLast?_eq_some] at h
  have hlast : c.calls.getLast? = some .execlp := by cases c <;> rfl
  exact hne (Option.some.inj (h.symm.trans hlast))

theorem execlp_last {calls : List (Call n)} (h : .execlp :: calls <:+ c.calls) : calls = [] := by
  cases c <;> simp [Proc.calls, List.suffix_cons_iff] at h <;> exact h

theorem start_isOf {work : Work} (h : J.start c = some work) : work.IsOf c := by
  cases c with
  | splitter i =>
    obtain ⟨-, h⟩ := Option.ite_none_right_eq_some.mp h
    obtain rfl := Option.some.inj h
    exact ⟨i, rfl⟩
  | mapper i =>
    obtain rfl := Option.some.inj h
    exact ⟨i, rfl⟩
  | reducer =>
    obtain rfl := Option.some.inj h
    rfl

theorem Described.childStep (hs : Described J s) (h : ChildSteps J s c ok s') : Described J s' := by
  have hold : ∀ {x : Child n}, s.child c = x → x.born = true → (s.child c).born = true := by
    rintro x rfl hx
    exact hx
  have hc := hs.child c
  cases h with
  | close fd calls fds h =>
    rw [h] at hc
    obtain ⟨-, hsuffix, hfold, hwithin⟩ := hc
    refine hs.set (x := .setup calls (fds.close fd)) ⟨?_, ?_, hfold, ?_⟩ rfl
      (hold h rfl) rfl rfl rfl
    · exact calls_ne_nil hsuffix (by simp)
    · exact (List.suffix_cons _ _).trans hsuffix
    · exact (within_apply fds (.close fd)).trans hwithin
  | dup2 oldfd newfd calls fds h =>
    rw [h] at hc
    obtain ⟨-, hsuffix, hfold, hwithin⟩ := hc
    refine hs.set (x := .setup calls (fds.dup2 oldfd newfd)) ⟨?_, ?_, hfold, ?_⟩ rfl
      (hold h rfl) rfl rfl rfl
    · exact calls_ne_nil hsuffix (by simp)
    · exact (List.suffix_cons _ _).trans hsuffix
    · exact (within_apply fds (.dup2 oldfd newfd)).trans hwithin
  | execlp work calls fds h hwork =>
    rw [h] at hc
    obtain ⟨-, hsuffix, hfold, -⟩ := hc
    obtain rfl := execlp_last hsuffix
    exact hs.set (x := .running work fds) ⟨hfold, start_isOf hwork⟩ rfl
      (hold h rfl) rfl rfl rfl
  | exec_failed calls fds h =>
    exact hs.set (x := .exited _) trivial rfl (hold h rfl) rfl rfl rfl
  | splitter_end fds h =>
    exact hs.set (x := .exited _) trivial rfl (hold h rfl) rfl rfl rfl
  | killed work fds p h =>
    exact hs.set (x := .exited _) trivial rfl (hold h rfl) rfl rfl rfl
  | mapper_end buf fds h =>
    exact hs.set (x := .exited _) trivial rfl (hold h rfl) rfl rfl rfl
  | reducer_end input out fds p h =>
    exact hs.set (x := .exited _) trivial rfl (hold h rfl) rfl rfl rfl
  | splitter_write todo fds p k h =>
    rw [h] at hc
    exact hs.set (x := .running (.splitter (todo.drop k)) fds) hc rfl
      (hold h rfl) rfl rfl rfl
  | mapper_write buf pending eof fds p k h =>
    rw [h] at hc
    exact hs.set (x := .running (.mapper buf (pending.drop k) eof) fds) hc rfl
      (hold h rfl) rfl rfl rfl
  | mapper_line buf l eof fds h =>
    rw [h] at hc
    exact hs.set (x := .running (.mapper (buf.drop l.length) _ eof) fds) hc rfl
      (hold h rfl) rfl rfl rfl
  | mapper_eof buf fds p h =>
    rw [h] at hc
    exact hs.set (x := .running (.mapper buf [] true) fds) hc rfl
      (hold h rfl) rfl rfl rfl
  | mapper_read buf fds p k h =>
    rw [h] at hc
    exact hs.set (x := .running (.mapper (buf ++ (s.pipe p).take k) [] false) fds) hc rfl
      (hold h rfl) rfl rfl rfl
  | reducer_read input fds p k h =>
    rw [h] at hc
    exact hs.set (x := .running (.reducer (input ++ (s.pipe p).take k)) fds) hc rfl
      (hold h rfl) rfl rfl rfl

theorem described_initial (n : ℕ) (J : Job) : Described J (initial n J) := by
  refine ⟨?_, fun _ => trivial, fun _ c => ?_⟩
  · refine table_eq rfl rfl (fun i => ?_) (fun i => ?_) rfl rfl rfl
    · exact (if_neg (Nat.not_lt_zero _)).symm
    · exact (if_neg fun h => Nat.not_lt_zero _ h.1).symm
  · cases c <;> simp [initial, Child.born, Pc.Forked, Pc.splitters, Pc.mappers, Pc.waits]

theorem Described.step {e : Event n} (hs : Described J s) (h : step J s e = some s') :
    Described J s' := by
  cases e with
  | main ok => exact hs.main (mainSteps_of_main h)
  | child c ok k => exact hs.childStep (childSteps_of_child h)

/-! ### What the children do -/

/-- Between its beginning and its end a child has descriptors. -/
def Child.alive : Child n → Bool
  | setup _ _ => true
  | running _ _ => true
  | _ => false

/-- **What a child can do**, with the descriptors that it has. -/
inductive Moves (J : Job) (s : State n) (ok : Bool) : Proc n → State n → Prop
  | close (c : Proc n) (fd : Fd n) (calls : List (Call n)) (fds : Table n)
      (h : s.child c = .setup (.close fd :: calls) fds) :
      Moves J s ok c (s.set c (.setup calls (fds.close fd)))
  | dup2 (c : Proc n) (oldfd newfd : Fd n) (calls : List (Call n)) (fds : Table n)
      (h : s.child c = .setup (.dup2 oldfd newfd :: calls) fds) :
      Moves J s ok c (s.set c (.setup calls (fds.dup2 oldfd newfd)))
  | execlp (c : Proc n) (work : Work) (calls : List (Call n)) (fds : Table n)
      (h : s.child c = .setup (.execlp :: calls) fds) (hwork : J.start c = some work) :
      Moves J s ok c (s.set c (.running work fds))
  | exec_failed (c : Proc n) (calls : List (Call n)) (fds : Table n)
      (h : s.child c = .setup (.execlp :: calls) fds) (hok : ok = false) :
      Moves J s ok c (s.set c (.exited (.status 1)))
  | killed (c : Proc n) (p : Pipe n) (halive : (s.child c).alive = true)
      (hread : ¬ s.Holds (.read p)) : Moves J s ok c (s.set c (.exited .signal))
  | splitter_end (i : Fin n) (fds : Table n)
      (h : s.child (.splitter i) = .running (.splitter []) fds) :
      Moves J s ok (.splitter i) (s.set (.splitter i) (.exited (.status 0)))
  | splitter_write (i : Fin n) (todo : Bytes) (fds : Table n) (k : ℕ)
      (h : s.child (.splitter i) = .running (.splitter todo) fds) (hk : 0 < k ∧ k ≤ todo.length)
      (hroom : (s.pipe (.fd_m i)).length + k ≤ J.capacity) :
      Moves J s ok (.splitter i) ((s.set (.splitter i)
        (.running (.splitter (todo.drop k)) fds)).setPipe (.fd_m i)
        (s.pipe (.fd_m i) ++ todo.take k))
  | mapper_write (i : Fin n) (buf pending : Bytes) (eof : Bool) (fds : Table n) (k : ℕ)
      (h : s.child (.mapper i) = .running (.mapper buf pending eof) fds) (hpending : pending ≠ [])
      (hk : Transfers pending k) (hroom : (s.pipe .fd_r).length + k ≤ J.capacity) :
      Moves J s ok (.mapper i) (((s.set (.mapper i)
        (.running (.mapper buf (pending.drop k) eof) fds)).setPipe .fd_r
        (s.pipe .fd_r ++ pending.take k)).wrote (.mapper i) (pending.take k))
  | mapper_line (i : Fin n) (buf l : Bytes) (eof : Bool) (fds : Table n)
      (h : s.child (.mapper i) = .running (.mapper buf [] eof) fds)
      (hl : getline buf eof = some l) : Moves J s ok (.mapper i) ((s.set (.mapper i)
        (.running (.mapper (buf.drop l.length) (J.mapper.line l).flatten eof) fds)).took
        (.mapper i) l)
  | mapper_end (i : Fin n) (buf : Bytes) (fds : Table n)
      (h : s.child (.mapper i) = .running (.mapper buf [] true) fds)
      (hl : getline buf true = none) :
      Moves J s ok (.mapper i) (s.set (.mapper i) (.exited (.status 0)))
  | mapper_eof (i : Fin n) (buf : Bytes) (fds : Table n)
      (h : s.child (.mapper i) = .running (.mapper buf [] false) fds)
      (hl : getline buf false = none) (hempty : s.pipe (.fd_m i) = [])
      (hwrite : ¬ s.Holds (.write (.fd_m i))) :
      Moves J s ok (.mapper i) (s.set (.mapper i) (.running (.mapper buf [] true) fds))
  | mapper_read (i : Fin n) (buf : Bytes) (fds : Table n) (k : ℕ)
      (h : s.child (.mapper i) = .running (.mapper buf [] false) fds)
      (hl : getline buf false = none) (hk : 0 < k ∧ k ≤ (s.pipe (.fd_m i)).length) :
      Moves J s ok (.mapper i) ((s.set (.mapper i)
        (.running (.mapper (buf ++ (s.pipe (.fd_m i)).take k) [] false) fds)).setPipe (.fd_m i)
        ((s.pipe (.fd_m i)).drop k))
  | reducer_end (input out : Bytes) (fds : Table n)
      (h : s.child .reducer = .running (.reducer input) fds) (hempty : s.pipe .fd_r = [])
      (hwrite : ¬ s.Holds (.write .fd_r)) (hout : run_reducer_on reducer input = some out) :
      Moves J s ok .reducer ((s.set .reducer (.exited (.status 0))).setFile
        (if J.opens then overwrite s.file out else s.file))
  | reducer_read (input : Bytes) (fds : Table n) (k : ℕ)
      (h : s.child .reducer = .running (.reducer input) fds)
      (hk : 0 < k ∧ k ≤ (s.pipe .fd_r).length) : Moves J s ok .reducer ((s.set .reducer
        (.running (.reducer (input ++ (s.pipe .fd_r).take k)) fds)).setPipe .fd_r
        ((s.pipe .fd_r).drop k))

/-- The program of a child is its own. -/
theorem Described.running (hs : Described J s) {work : Work} (h : s.child c = .running work fds) :
    fds = c.table J ∧ work.IsOf c := by
  have hc := hs.child c
  rw [h] at hc
  exact hc

theorem Described.moves (hs : Described J s) (h : ChildSteps J s c ok s') : Moves J s ok c s' := by
  cases h with
  | close fd calls fds h => exact .close c fd calls fds h
  | dup2 oldfd newfd calls fds h => exact .dup2 c oldfd newfd calls fds h
  | execlp work calls fds h hwork => exact .execlp c work calls fds h hwork
  | exec_failed calls fds h hok => exact .exec_failed c calls fds h hok
  | killed work fds p h hfd hread => exact .killed c p (by rw [h]; rfl) hread
  | splitter_end fds h =>
    obtain ⟨-, i, rfl⟩ := hs.running h
    exact .splitter_end i fds h
  | splitter_write todo fds p k h hfd hk hroom =>
    obtain ⟨rfl, i, rfl⟩ := hs.running h
    rw [table_splitter] at hfd
    obtain rfl := Desc.write.inj (Option.some.inj hfd)
    exact .splitter_write i todo _ k h hk hroom
  | mapper_write buf pending eof fds p k h hpending hfd hk hroom =>
    obtain ⟨rfl, i, rfl⟩ := hs.running h
    rw [(table_mapper J i).2] at hfd
    obtain rfl := Desc.write.inj (Option.some.inj hfd)
    exact .mapper_write i buf pending eof _ k h hpending hk hroom
  | mapper_line buf l eof fds h hl =>
    obtain ⟨-, i, rfl⟩ := hs.running h
    exact .mapper_line i buf l eof fds h hl
  | mapper_end buf fds h hl =>
    obtain ⟨-, i, rfl⟩ := hs.running h
    exact .mapper_end i buf fds h hl
  | mapper_eof buf fds p h hl hfd hempty hwrite =>
    obtain ⟨rfl, i, rfl⟩ := hs.running h
    rw [(table_mapper J i).1] at hfd
    obtain rfl := Desc.read.inj (Option.some.inj hfd)
    exact .mapper_eof i buf _ h hl hempty hwrite
  | mapper_read buf fds p k h hl hfd hk =>
    obtain ⟨rfl, i, rfl⟩ := hs.running h
    rw [(table_mapper J i).1] at hfd
    obtain rfl := Desc.read.inj (Option.some.inj hfd)
    exact .mapper_read i buf _ k h hl hk
  | reducer_end input out fds p h hfd hempty hwrite hout =>
    obtain ⟨rfl, rfl⟩ := hs.running h
    rw [(table_reducer J).1] at hfd
    obtain rfl := Desc.read.inj (Option.some.inj hfd)
    have hopens : ((Proc.reducer : Proc n).table J .stdout = some .output) = (J.opens = true) := by
      rw [(table_reducer J).2]
      cases J.opens <;> simp
    simp only [hopens]
    exact .reducer_end input out _ h hempty hwrite hout
  | reducer_read input fds p k h hfd hk =>
    obtain ⟨rfl, rfl⟩ := hs.running h
    rw [(table_reducer J).1] at hfd
    obtain rfl := Desc.read.inj (Option.some.inj hfd)
    exact .reducer_read input _ k h hk

/-- Only a child that is there takes a step, and only it changes. -/
theorem Moves.frame (h : Moves J s ok c s') : (s.child c).alive = true ∧ s'.pc = s.pc ∧
    s'.printed = s.printed ∧ ∃ x, s'.child = Function.update s.child c x ∧ x.born = true := by
  cases h with
  | killed c p halive => exact ⟨halive, rfl, rfl, _, rfl, rfl⟩
  | _ => exact ⟨by simp [Child.alive, *], rfl, rfl, _, rfl, rfl⟩

theorem Moves.ne (h : Moves J s ok c s') {c' : Proc n} (hc : c' ≠ c) :
    s'.child c' = s.child c' := by
  obtain ⟨-, -, -, x, hchild, -⟩ := h.frame
  rw [hchild, Function.update_of_ne hc]

/-- A child that has ended stays as it is. -/
theorem Moves.exited (h : Moves J s ok c s') {c' : Proc n} {e : Exit}
    (he : s.child c' = .exited e) : s'.child c' = .exited e := by
  rw [h.ne, he]
  rintro rfl
  have halive := h.frame.1
  rw [he] at halive
  cases halive

/-! ### Who can write, and who can read -/

theorem write_m_of_table {pc : Pc} (h : pc.table J fd = some (.write (.fd_m i))) :
    pc.kept n ≤ i.val := by
  rcases fd with _ | _ | (j | _) | (j | _) | _ <;>
    simp only [Pc.table, Option.ite_none_right_eq_some, Option.ite_none_left_eq_some,
      Option.some.injEq, reduceCtorEq, and_false, Desc.write.injEq, Pipe.fd_m.injEq] at h
  obtain ⟨⟨-, hle⟩, rfl⟩ := h
  exact hle

theorem write_r_of_table {pc : Pc} (h : (pc.table J : Table n) fd = some (.write .fd_r)) :
    pc.writesR = true := by
  rcases fd with _ | _ | (j | _) | (j | _) | _ <;>
    simp only [Pc.table, Option.ite_none_right_eq_some, Option.ite_none_left_eq_some,
      Option.some.injEq, reduceCtorEq, and_false, Desc.write.injEq] at h
  exact h.1

/-- A splitter does not write to the reducer. -/
theorem table_splitter_ne (J : Job) (i : Fin n) (fd : Fd n) :
    (Proc.splitter i).table J fd ≠ some (.write .fd_r) := by
  rcases fd with _ | _ | (j | _) | (j | _) | _ <;>
    simp [Proc.table, Proc.calls, Call.apply, Proc.forkedAt, Table.close, Table.dup2,
      Function.update_apply, Pc.table, Pc.made, Pc.kept, Pc.ended]

/-- What a child has, it has from the main process. -/
theorem Described.of_child (hs : Described J s) (h : (s.child c).fds fd = some d) :
    (s.child c).alive = true ∧ ∃ fd', c.forkedAt.table J fd' = some d := by
  have hc := hs.child c
  cases hx : s.child c with
  | unborn =>
    rw [hx] at h
    cases h
  | setup calls fds =>
    rw [hx] at h hc
    exact ⟨rfl, hc.2.2.2 fd d h⟩
  | running work fds =>
    rw [hx] at h hc
    have hfd : c.table J fd = some d := hc.1 ▸ h
    exact ⟨rfl, within_foldl c.calls _ fd d hfd⟩
  | exited e =>
    rw [hx] at h
    cases h

/-- What a program will have, it has from the beginning on. -/
theorem Described.holds (hs : Described J s) (halive : (s.child c).alive = true)
    (h : c.table J fd = some d) : s.Holds d := by
  have hc := hs.child c
  cases hx : s.child c with
  | setup calls fds =>
    rw [hx] at hc
    obtain ⟨-, -, hfold, -⟩ := hc
    obtain ⟨fd', hfd'⟩ := within_foldl calls fds fd d (hfold ▸ h)
    exact .inr ⟨c, fd', by rw [hx]; exact hfd'⟩
  | running work fds =>
    rw [hx] at hc
    exact .inr ⟨c, fd, by rw [hx]; exact hc.1 ▸ h⟩
  | _ =>
    rw [hx] at halive
    cases halive

/-- **Who can write to a mapper**: the main process, and the children that were forked before it
    has closed the descriptor. -/
theorem Described.holds_write_m (hs : Described J s) (h : s.Holds (.write (.fd_m i))) :
    s.pc.kept n ≤ i.val ∨ ∃ j : Fin n, j ≤ i ∧ (s.child (.splitter j)).alive = true ∨
      j < i ∧ (s.child (.mapper j)).alive = true := by
  obtain ⟨fd, hfd⟩ | ⟨c, fd, hfd⟩ := h
  · rw [hs.fds] at hfd
    exact .inl (write_m_of_table hfd)
  · obtain ⟨halive, fd', hfd'⟩ := hs.of_child hfd
    have hkept := write_m_of_table hfd'
    cases c with
    | splitter j => exact .inr ⟨j, .inl ⟨hkept, halive⟩⟩
    | mapper j => exact .inr ⟨j, .inr ⟨hkept, halive⟩⟩
    | reducer => exact absurd i.isLt (not_lt.mpr hkept)

/-- **Who can write to the reducer**: the main process and the mappers, and a splitter that has not
    closed the descriptor yet. -/
theorem Described.holds_write_r (hs : Described J s) (h : s.Holds (.write .fd_r)) :
    s.pc.writesR = true ∨ ∃ j : Fin n, (∃ calls fds, s.child (.splitter j) = .setup calls fds) ∨
      (s.child (.mapper j)).alive = true := by
  obtain ⟨fd, hfd⟩ | ⟨c, fd, hfd⟩ := h
  · rw [hs.fds] at hfd
    exact .inl (write_r_of_table hfd)
  · obtain ⟨halive, fd', hfd'⟩ := hs.of_child hfd
    cases c with
    | splitter j =>
      refine .inr ⟨j, .inl ?_⟩
      have hc := hs.child (.splitter j)
      cases hx : s.child (.splitter j) with
      | setup calls fds => exact ⟨calls, fds, rfl⟩
      | running work fds =>
        rw [hx] at hc hfd
        exact absurd (hc.1 ▸ hfd) (table_splitter_ne J j fd)
      | _ =>
        rw [hx] at halive
        cases halive
    | mapper j => exact .inr ⟨j, .inr halive⟩
    | reducer => cases write_r_of_table hfd'

/-- **Who can read**: the main process, from all pipes, until it has waited for its children. -/
theorem Described.holds_read (hs : Described J s) (h : s.pc.readsR = true) (p : Pipe n) :
    s.Holds (.read p) := by
  refine .inl ⟨.read p, ?_⟩
  rw [hs.fds]
  cases p with
  | fd_m i =>
    have hmade : s.pc.made n = n := by
      revert h
      cases s.pc <;> simp [Pc.readsR, Pc.made]
    exact if_pos (hmade.symm ▸ i.isLt)
  | fd_r => exact if_pos h

/-! ### What the main process has waited for -/

namespace Pc

/-- How many splitters and mappers have been waited for. -/
def waited (n : ℕ) : Pc → ℕ
  | wait_splitter i => i
  | wait_mapper i => i
  | closeall => n
  | print => n
  | done => n
  | _ => 0

/-- The reducer has been waited for. -/
def reaped : Pc → Bool
  | closeall => true
  | print => true
  | done => true
  | _ => false

end Pc

/-- **What the main process has waited for**, and what it has printed about it. -/
structure Waited (s : State n) : Prop where
  splitter : ∀ i : Fin n, i.val < s.pc.waited n →
    ∃ e, s.child (.splitter i) = .exited e ∧ e.failed = false
  mapper : ∀ i : Fin n, i.val < s.pc.waited n → ∃ e, s.child (.mapper i) = .exited e ∧
    ∀ m ∈ print_nonzero_exit_status .mapper_status e, m ∈ s.printed
  reducer : s.pc.reaped = true → ∃ e, s.child .reducer = .exited e ∧
    ∀ m ∈ print_nonzero_exit_status .reducer_status e, m ∈ s.printed

theorem waited_initial (n : ℕ) (J : Job) : Waited (initial n J) :=
  ⟨fun _ h => absurd h (Nat.not_lt_zero _), fun _ h => absurd h (Nat.not_lt_zero _),
    fun h => absurd h Bool.false_ne_true⟩

theorem forks_waited {pc next : Pc} (h : Forks pc c next) :
    next.waited n = 0 ∧ next.reaped = false := by
  cases h <;> exact ⟨rfl, rfl⟩

theorem Waited.main (hw : Waited s) (h : MainSteps J s ok s') : Waited s' := by
  have hnone : s'.pc.waited n = 0 → s'.pc.reaped = false → Waited s' := by
    intro hwaited hreaped
    refine ⟨fun i hi => ?_, fun i hi => ?_, fun hr => ?_⟩
    · rw [hwaited] at hi
      exact absurd hi (Nat.not_lt_zero _)
    · rw [hwaited] at hi
      exact absurd hi (Nat.not_lt_zero _)
    · rw [hreaped] at hr
      cases hr
  cases h with
  | pipe | pipe_r | open_output | fork_failed | close_r | close | splitter_failed =>
    exact hnone rfl rfl
  | fork c next hforks => exact hnone (forks_waited hforks).1 (forks_waited hforks).2
  | wait_splitter i e hpc =>
    refine ⟨?_, ?_, fun hr => Bool.noConfusion hr⟩
    · have hwaited := hw.splitter
      rw [hpc] at hwaited
      exact hwaited
    · have hwaited := hw.mapper
      rw [hpc] at hwaited
      exact hwaited
  | wait_mapper i e₂ e₁ hpc he₂ he₁ hfailed =>
    have hsplitter := hw.splitter
    have hmapper := hw.mapper
    rw [hpc] at hsplitter hmapper
    refine ⟨fun j hj => ?_, fun j hj => ?_, fun hr => Bool.noConfusion hr⟩
    · obtain hj | hj := Nat.lt_succ_iff_lt_or_eq.mp hj
      · exact hsplitter j hj
      · obtain rfl := Fin.ext hj
        exact ⟨e₂, he₂, hfailed⟩
    · obtain hj | hj := Nat.lt_succ_iff_lt_or_eq.mp hj
      · obtain ⟨e, he, hprinted⟩ := hmapper j hj
        exact ⟨e, he, fun m hm => List.mem_append_left _ (hprinted m hm)⟩
      · obtain rfl := Fin.ext hj
        exact ⟨e₁, he₁, fun m hm => List.mem_append_right _ hm⟩
  | wait_reducer i e hpc hi he =>
    have hsplitter := hw.splitter
    have hmapper := hw.mapper
    rw [hpc] at hsplitter hmapper
    refine ⟨fun j hj => hsplitter j (j.isLt.trans_le hi), fun j hj => ?_, fun _ => ?_⟩
    · obtain ⟨e', he', hprinted⟩ := hmapper j (j.isLt.trans_le hi)
      exact ⟨e', he', fun m hm => List.mem_append_left _ (hprinted m hm)⟩
    · exact ⟨e, he, fun m hm => List.mem_append_right _ hm⟩
  | closeall hpc =>
    have hsplitter := hw.splitter
    have hmapper := hw.mapper
    have hreducer := hw.reducer
    rw [hpc] at hsplitter hmapper hreducer
    exact ⟨hsplitter, hmapper, hreducer⟩
  | print hpc =>
    have hsplitter := hw.splitter
    have hmapper := hw.mapper
    have hreducer := hw.reducer
    rw [hpc] at hsplitter hmapper hreducer
    refine ⟨hsplitter, fun j hj => ?_, fun hr => ?_⟩
    · obtain ⟨e, he, hprinted⟩ := hmapper j hj
      exact ⟨e, he, fun m hm => List.mem_append_left _ (hprinted m hm)⟩
    · obtain ⟨e, he, hprinted⟩ := hreducer hr
      exact ⟨e, he, fun m hm => List.mem_append_left _ (hprinted m hm)⟩

theorem Waited.moves (hw : Waited s) (h : Moves J s ok c s') : Waited s' := by
  obtain ⟨-, hpc, hprinted, -⟩ := h.frame
  refine ⟨fun i hi => ?_, fun i hi => ?_, fun hr => ?_⟩
  · obtain ⟨e, he, hfailed⟩ := hw.splitter i (hpc ▸ hi)
    exact ⟨e, h.exited he, hfailed⟩
  · obtain ⟨e, he, hm⟩ := hw.mapper i (hpc ▸ hi)
    exact ⟨e, h.exited he, hprinted.symm ▸ hm⟩
  · obtain ⟨e, he, hm⟩ := hw.reducer (hpc ▸ hr)
    exact ⟨e, h.exited he, hprinted.symm ▸ hm⟩

end SystemProgramming.MapReduce
