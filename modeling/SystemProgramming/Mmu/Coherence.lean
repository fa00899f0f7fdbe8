import SystemProgramming.Mmu.Specs

namespace SystemProgramming.Mmu

open SystemProgramming.Lib

/-!
# `ideal_indirection/mmu.c` — the TLB is coherent

The TLB is not tagged by process.  It is flushed when another process runs, and when the
process that it is for is removed.

* `Gone.wf`, `Gone.view` — the removal of a process keeps the invariant, and what the others
  see.
* `Fresh` — a process is added where there is none.
* `Call.wf` — every call keeps the invariant.
* `tlb_coherent` — in every state reached, an entry of the TLB is the one that the page walk
  of the current process finds.
-/

variable {h : Header} {m m' : Machine} {pid pid' i v : ℕ} {t f : Frame} {p : Ptr} {call : Call}

/-! ### The others, when a process goes -/

/-- The tables of the others stay. -/
theorem Gone.table (hg : Gone m pid m') :
    m'.Table pid' i t ↔ pid' ≠ pid ∧ m.Table pid' i t := by
  unfold Machine.Table
  rw [hg.page_directories, hg.entries]
  by_cases heq : pid' = pid
  · rw [heq, Function.update_self]
    simp
  · rw [Function.update_of_ne heq]
    simp [heq]

theorem Gone.directory (hg : Gone m pid m') {d : Frame} :
    m'.page_directories pid' = some d ↔ pid' ≠ pid ∧ m.page_directories pid' = some d := by
  rw [hg.page_directories]
  by_cases heq : pid' = pid
  · rw [heq, Function.update_self]
    simp
  · rw [Function.update_of_ne heq]
    simp [heq]

/-- The frames of another process are not returned. -/
theorem Wf.not_holds (hwf : Wf m) (hne : pid' ≠ pid) (hf : m.Holds pid' f) : ¬ m.Holds pid f := by
  -- a frame that is not the page of an entry is a directory, or a table
  have hpinned : ∀ {pid}, m.use f = .pinned → m.Holds pid f →
      m.page_directories pid = some f ∨ ∃ i, m.Table pid i f := by
    rintro pid hpin (hd | ht | ⟨i, t, j, ht, hpres, rfl⟩)
    · exact .inl hd
    · exact .inr ht
    · exact absurd (hpin.symm.trans (hwf.page pid i t j ht hpres).2) (by simp)
  intro hf'
  rcases hf with hd | ⟨i, ht⟩ | ⟨i, t, j, ht, hpres, rfl⟩
  · rcases hpinned (hwf.directory pid' f hd) hf' with hd' | ⟨i', ht'⟩
    · exact hne (hwf.directory_inj pid' pid f hd hd')
    · exact hwf.table_ne pid i' f pid' ht' hd
  · rcases hpinned (hwf.table pid' i f ht).1 hf' with hd' | ⟨i', ht'⟩
    · exact hwf.table_ne pid' i f pid ht hd'
    · exact hne (hwf.table_inj pid' i pid i' f ht ht').1
  · have hpage := (hwf.page pid' i t j ht hpres).2
    rcases hf' with hd' | ⟨i', ht'⟩ | ⟨i', t', j', ht', hpres', hbase⟩
    · exact absurd (hpage.symm.trans (hwf.directory pid _ hd')) (by simp)
    · exact absurd (hpage.symm.trans (hwf.table pid i' _ ht').1) (by simp)
    · -- the kernel has handed it out for one entry
      have hpage' := (hwf.page pid i' t' j' ht' hpres').2
      rw [hbase] at hpage'
      have heq : (t, j) = (t', j') := Use.page.inj (hpage.symm.trans hpage')
      obtain ⟨rfl, -⟩ := Prod.mk.inj heq
      exact hne (hwf.table_inj pid' i pid i' t ht ht').1

theorem Wf.not_swaps (hwf : Wf m) (hne : pid' ≠ pid) (ht : m.Table pid' i p.1) :
    ¬ m.Swaps pid p := by
  rintro ⟨-, i', ht'⟩
  exact hne (hwf.table_inj pid' i pid i' p.1 ht ht').1

/-- **The removal of a process keeps the invariant.** -/
theorem Gone.wf (hg : Gone m pid m') (hwf : Wf m) : Wf m' := by
  have hkept : ∀ {pid' f}, pid' ≠ pid → m.Holds pid' f → m'.use f = m.use f :=
    fun hne hf => hg.kept _ (hwf.not_holds hne hf)
  refine ⟨?_, ?_, ?_, ?_, ?_, ?_, ?_, ?_, ?_, ?_⟩
  · intro pid'
    rw [hg.segmentations, hg.page_directories]
    by_cases heq : pid' = pid
    · rw [heq, Function.update_self, Function.update_self]
      rfl
    · rw [Function.update_of_ne heq, Function.update_of_ne heq]
      exact hwf.segmentations pid'
  · intro pid' d hd
    obtain ⟨hne, hd⟩ := hg.directory.mp hd
    rw [hkept hne (.inl hd)]
    exact hwf.directory pid' d hd
  · intro pid₁ pid₂ d h₁ h₂
    exact hwf.directory_inj pid₁ pid₂ d (hg.directory.mp h₁).2 (hg.directory.mp h₂).2
  · intro pid' i t ht
    obtain ⟨hne, ht⟩ := hg.table.mp ht
    rw [hkept hne (.inr (.inl ⟨i, ht⟩))]
    exact hwf.table pid' i t ht
  · intro pid' i t pid₂ ht hd
    exact hwf.table_ne pid' i t pid₂ (hg.table.mp ht).2 (hg.directory.mp hd).2
  · intro pid₁ i₁ pid₂ i₂ t h₁ h₂
    exact hwf.table_inj pid₁ i₁ pid₂ i₂ t (hg.table.mp h₁).2 (hg.table.mp h₂).2
  · intro pid' i t j ht hpres
    obtain ⟨hne, ht⟩ := hg.table.mp ht
    rw [hg.entries] at hpres ⊢
    rw [hkept hne (.inr (.inr ⟨i, t, j, ht, hpres, rfl⟩))]
    exact hwf.page pid' i t j ht hpres
  · intro f p hf
    -- a frame in use is not one that the process held
    have hnot : ¬ m.Holds pid f := fun hh => absurd ((hg.freed f hh).symm.trans hf) (by simp)
    rw [hg.kept f hnot] at hf
    obtain ⟨⟨pid', i, ht⟩, hpres, hbase⟩ := hwf.owner f p hf
    have hne : pid' ≠ pid := by
      rintro rfl
      exact hnot (.inr (.inr ⟨i, p.1, p.2, ht, hpres, hbase⟩))
    rw [hg.entries]
    exact ⟨⟨pid', i, hg.table.mpr ⟨hne, ht⟩⟩, hpres, hbase⟩
  · intro p hp
    -- what is left in the swap is not of the process
    have hnot : ¬ m.Swaps pid p := fun hs => hp (hg.removed p hs)
    rw [hg.saved p hnot] at hp
    obtain ⟨hlt, pid', i, ht⟩ := hwf.swap p hp
    have hne : pid' ≠ pid := by
      rintro rfl
      exact hnot ⟨hlt, i, ht⟩
    exact ⟨hlt, pid', i, hg.table.mpr ⟨hne, ht⟩⟩
  · intro v p hv
    obtain ⟨hother, hv⟩ := hg.tlb v p hv
    obtain ⟨ht, hj⟩ := hwf.tlb v p hv
    rw [hg.curr_pid]
    exact ⟨hg.table.mpr ⟨hother, ht⟩, hj⟩

/-- **The others see what they saw.** -/
theorem Gone.view (hg : Gone m pid m') (hwf : Wf m) (hne : pid' ≠ pid) (v : ℕ) :
    m'.view pid' v = m.view pid' v := by
  apply view_congr
  · exact walk_congr (fun t => hg.table.trans (and_iff_right hne))
  · intro p hw
    unfold Machine.pageOf
    rw [hg.entries, hg.data, hg.saved p (hwf.not_swaps hne (walk_eq_some.mp hw).1)]

/-! ### Every call keeps the invariant -/

/-- A process is added where there is none. -/
def Fresh (m : Machine) : Call → Prop
  | .add pid .. => m.page_directories pid = none
  | _ => True

instance (m : Machine) (call : Call) : Decidable (Fresh m call) :=
  match call with
  | .add pid .. => inferInstanceAs (Decidable (m.page_directories pid = none))
  | .remove _ => .isTrue trivial
  | .read .. => .isTrue trivial
  | .write .. => .isTrue trivial

/-- **A call keeps the invariant.** -/
theorem Call.wf (hwf : Wf m) (hok : Fresh m call) (hrun : call.run h m = .ok m') : Wf m' := by
  cases call with
  | add pid f₁ f₂ f₃ f₄ =>
    obtain ⟨m₁, hmoves, hfree, hmoves'⟩ := add_spec hwf hok hrun
    apply hmoves'.wf
    exact (hmoves.wf hwf).add_directory hfree (hmoves.page_directories ▸ hok) (segments h)
  | remove pid => exact (remove_spec hwf hrun).wf hwf
  | read addr pid n b f =>
    obtain ⟨r, hr, rfl⟩ := map_eq_ok hrun
    exact (read_spec hwf hr).moves.wf hwf
  | write addr pid buffer b f g => exact (write_spec hwf hrun).wf hwf

theorem step_eq_some (hs : (mmu h).step m call = some m') : call.run h m = .ok m' := by
  have hopt : (call.run h m).toOption = some m' := hs
  cases hrun : call.run h m with
  | error e =>
    rw [hrun] at hopt
    exact absurd hopt (by simp [Except.toOption])
  | ok m₁ =>
    rw [hrun] at hopt
    exact congrArg Except.ok (Option.some.inj hopt)

/-- Every state reached has the invariant. -/
theorem wf_of_reach (hr : (mmu h).Reach Fresh m) : Wf m := by
  apply hr.invariant
  · exact fun m hm => hm.wf
  · exact fun m call m' hwf hok hs => Call.wf hwf hok (step_eq_some hs)

/-- **The TLB is coherent.**  In every state that calls reach in any order, an entry of the
    TLB is the one that the walk of the current process finds; and whoever is to run next, what
    the TLB then answers is what its walk finds. -/
theorem tlb_coherent (hr : (mmu h).Reach Fresh m) :
    (∀ (v : ℕ) (p : Ptr), m.tlb v = some p → m.walk m.curr_pid v = some p) ∧
    ∀ (pid v : ℕ) (b : Bool) (p : Ptr), (switch pid m).tlb_get_pte v b = some p →
      m.walk pid v = some p := by
  have hwf : Wf m := wf_of_reach hr
  refine ⟨fun v p hv => walk_eq_some.mpr (hwf.tlb v p hv), fun pid v b p hp => ?_⟩
  have hwf' : Wf (switch pid m) := (moves_switch pid m).wf hwf
  rw [← hwf'.hit (switch_curr_pid pid m) hp]
  -- a context switch changes no directory and no table
  apply Eq.symm
  apply walk_congr
  intro t
  unfold switch
  split <;> exact Iff.rfl

/-- A segment reaches from its start to its end. -/
def inSegment (addr : UInt32) (s : vm_segmentation) : Bool := s.start ≤ addr && addr < s.stop

/-- A header for runs. -/
def header : Header where
  MAX_PROCESS_ID := 4
  READ := 4
  WRITE := 2
  EXEC := 1
  address_in_segmentations segs addr :=
    [Segment.STACK, .MMAP, .HEAP, .BSS, .DATA, .TEXT, .TESTING].any (fun s => inSegment addr (segs s))
  find_segment segs addr :=
    ([Segment.STACK, .MMAP, .HEAP, .BSS, .DATA, .TEXT, .TESTING].map segs).find? (inSegment addr)

/-- A unit that was just created, over a memory that holds nothing. -/
def fresh : Machine where
  tlb _ := none
  curr_pid := 0
  page_directories _ := none
  segmentations _ := none
  num_tlb_misses := 0
  num_page_faults := 0
  num_segmentation_faults := 0
  entries _ := .zero
  data _ _ := 0
  use _ := .free
  swap _ := none

theorem created_fresh : fresh.Created where
  tlb _ := rfl
  curr_pid := rfl
  page_directories _ := rfl
  segmentations _ := rfl
  counters := ⟨rfl, rfl, rfl⟩
  use _ _ := by simp [fresh]
  swap _ := rfl

/-- Two processes read in turn. -/
theorem tlb_coherent_some : ∃ m : Machine, m.tlb 2 = some (5, 2) ∧ m.walk m.curr_pid 2 = some (5, 2) := by
  have hrun : ((mmu header).run Fresh fresh [.add 1 0 1 2 3, .add 2 4 5 6 7,
      .read 8192 1 1 false 0, .read 8192 2 1 false 0]).any
      (fun m => decide (m.tlb 2 = some (5, 2))) = true := by
    decide +kernel
  obtain ⟨m, hm, htlb⟩ := (Option.any_eq_true _ _).mp hrun
  have hr : (mmu header).Reach Fresh m := .of_run (.init created_fresh) hm
  exact ⟨m, of_decide_eq_true htlb, (tlb_coherent hr).1 2 (5, 2) (of_decide_eq_true htlb)⟩

end SystemProgramming.Mmu
