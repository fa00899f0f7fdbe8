import Mathlib.Data.Nat.Pairing
import SystemProgramming.Mmu.Permissions

namespace SystemProgramming.Mmu

open SystemProgramming.Lib

/-!
# `ideal_indirection/mmu.c` — pages that may not be written

The write bit of a page is that of its segment, in every run: also where a process is added
under a number that is in use, and its old tables are in no directory any more, but still
known to the TLB.

* `Ghost`, `Machine.over` — the machine with all processes that were ever added; there the
  invariant of the trees holds in every run.
* `Shadow` — the invariant of a run; `Shadow.read`, `Shadow.write`, `Shadow.add` and
  `Shadow.remove` keep it.
* `write_protected` — a write to a page that may not be written is refused, and counted.
-/

variable {h : Header} {m m' m₁ m₂ : Machine} {pid k i j v n : ℕ} {f f' d t : Frame} {p q : Ptr}
  {segs : vm_segmentations} {addr : UInt32} {b : Bool} {buffer : List UInt8} {call : Call}
  {e : Entry} {X : Ptr → Prop}

/-! ### The processes that were ever added -/

/-- Under a number, processes are added one after another.  `Nat.pair pid n` stands for the
    `n`-th of those under `pid`; the last of them is the one that the unit knows. -/
structure Ghost where
  dirs : ℕ → Option Frame
  segs : ℕ → Option vm_segmentations
  /-- how many were added under a number -/
  count : ℕ → ℕ

/-- The last process that was added under a number. -/
def Ghost.last (g : Ghost) (pid : ℕ) : ℕ := Nat.pair pid (g.count pid)

/-- The machine with all of them, and without a TLB. -/
def Machine.over (g : Ghost) (m : Machine) : Machine :=
  { m with
    page_directories := g.dirs, segmentations := g.segs, tlb := fun _ => none, curr_pid := 0 }

/-- A process is added. -/
def Ghost.joined (g : Ghost) (pid : ℕ) (segs : vm_segmentations) (d : Frame) : Ghost where
  dirs := Function.update g.dirs (Nat.pair pid (g.count pid + 1)) (some d)
  segs := Function.update g.segs (Nat.pair pid (g.count pid + 1)) (some segs)
  count := Function.update g.count pid (g.count pid + 1)

/-- The last process of a number is removed. -/
def Ghost.parted (g : Ghost) (pid : ℕ) : Ghost where
  dirs := Function.update g.dirs (g.last pid) none
  segs := Function.update g.segs (g.last pid) none
  count := g.count

variable {g g' : Ghost}

theorem Ghost.last_inj {pid' : ℕ} (heq : g.last pid' = g.last pid) : pid' = pid :=
  (Nat.pair_eq_pair.mp heq).1

/-- The new process is none of the last ones. -/
theorem Ghost.last_ne (g : Ghost) (pid pid' : ℕ) :
    g.last pid' ≠ Nat.pair pid (g.count pid + 1) := by
  intro heq
  obtain ⟨rfl, hcount⟩ := Nat.pair_eq_pair.mp heq
  omega

/-- What the unit knows, when one of the last processes is changed. -/
theorem Ghost.update_last {α : Type} (g : Ghost) (x : ℕ → α) (a : α) (pid pid' : ℕ) :
    Function.update x (g.last pid) a (g.last pid') =
      Function.update (fun k => x (g.last k)) pid a pid' :=
  congrFun (Function.update_comp_eq_of_injective x (fun _ _ => g.last_inj) pid a) pid'

/-- What the unit knows, when a process is added. -/
theorem Ghost.update_joined {α : Type} (g : Ghost) (x : ℕ → α) (a : α) (pid pid' : ℕ)
    (segs : vm_segmentations) (d : Frame) :
    Function.update x (Nat.pair pid (g.count pid + 1)) a ((g.joined pid segs d).last pid') =
      Function.update (fun k => x (g.last k)) pid a pid' := by
  unfold Ghost.last Ghost.joined
  dsimp only
  by_cases heq : pid' = pid
  · rw [heq, Function.update_self, Function.update_self, Function.update_self]
  · rw [Function.update_of_ne heq, Function.update_of_ne heq]
    exact Function.update_of_ne (g.last_ne pid pid') ..

theorem over_vacate (g : Ghost) (m : Machine) (f : Frame) :
    (m.over g).vacate f = (m.vacate f).over g := by
  have huse : (m.over g).use f = m.use f := rfl
  unfold Machine.vacate
  rw [huse]
  cases m.use f <;> rfl

theorem over_read (g : Ghost) (m : Machine) (p : Ptr) :
    (m.over g).read_page_from_disk p = (m.read_page_from_disk p).over g := by
  have hswap : (m.over g).swap p = m.swap p := rfl
  unfold Machine.read_page_from_disk
  rw [hswap]
  cases m.swap p <;> rfl

theorem over_brought (g : Ghost) (m : Machine) (p : Ptr) (e : Entry) :
    ((m.over g).set p e).read_page_from_disk p = ((m.set p e).read_page_from_disk p).over g :=
  over_read g (m.set p e) p

/-- The kernel does not look at the numbers. -/
theorem over_ask {owner : Owner} (ha : m.ask_kernel_for_frame owner f = .ok m') :
    (m.over g).ask_kernel_for_frame owner f = .ok (m'.over g) := by
  obtain ⟨hfree, rfl⟩ := ask_eq_ok ha
  unfold Machine.ask_kernel_for_frame
  rw [over_vacate]
  exact if_pos hfree

theorem over_page_in (hp : page_in h segs addr p f m = .ok m') :
    page_in h segs addr p f (m.over g) = .ok (m'.over g) := by
  unfold page_in at hp ⊢
  by_cases hpresent : (m.entries p).present = true
  · rw [if_pos hpresent] at hp
    obtain rfl := Except.ok.inj hp
    exact if_pos hpresent
  · rw [if_neg hpresent] at hp
    rw [if_neg (show ¬ ((m.over g).entries p).present = true from hpresent)]
    obtain ⟨m₂, hask, hp⟩ := bind_eq_ok hp
    have hask' : (mmu_raise_page_fault (m.over g)).ask_kernel_for_frame (.pte p) f =
        .ok (m₂.over g) := over_ask hask
    rw [hask']
    simp only [bind, Except.bind] at hp ⊢
    rw [over_brought]
    -- the page is found, in the segments that the machine has as well
    split at hp
    · exact absurd hp (by simp)
    · rw [← Except.ok.inj hp]
      rfl

theorem over_table_in (ht : table_in p f m = .ok m') :
    table_in p f (m.over g) = .ok (m'.over g) := by
  unfold table_in at ht ⊢
  by_cases hpresent : (m.entries p).present = true
  · rw [if_pos hpresent] at ht
    obtain rfl := Except.ok.inj ht
    exact if_pos hpresent
  · rw [if_neg hpresent] at ht
    rw [if_neg (show ¬ ((m.over g).entries p).present = true from hpresent)]
    obtain ⟨m₂, hask, ht⟩ := bind_eq_ok ht
    have hask' : (mmu_raise_page_fault (m.over g)).ask_kernel_for_frame .pde f =
        .ok (m₂.over g) := over_ask hask
    rw [hask']
    simp only [bind, Except.bind]
    rw [over_brought, ← Except.ok.inj ht]
    rfl

theorem over_add_table (ha : add_table d f m = .ok m') :
    add_table d f (m.over g) = .ok (m'.over g) := by
  unfold add_table at ha ⊢
  obtain ⟨m₂, hask, hset⟩ := bind_eq_ok ha
  rw [over_ask (g := g) hask, ← Except.ok.inj hset]
  rfl

theorem over_add_page (ha : add_page d i f m = .ok m') :
    add_page d i f (m.over g) = .ok (m'.over g) := by
  unfold add_page at ha ⊢
  dsimp only at ha ⊢
  obtain ⟨m₂, hask, hset⟩ := bind_eq_ok ha
  have hask' : (m.over g).ask_kernel_for_frame (.pte (((m.over g).entries (d, 0)).base_addr, i)) f =
      .ok (m₂.over g) := over_ask hask
  rw [hask', ← Except.ok.inj hset]
  rfl

theorem over_remove_page (t : Frame) (m : Machine) (j : ℕ) :
    remove_page t (m.over g) j = (remove_page t m j).over g := by
  have hent : (m.over g).entries (t, j) = m.entries (t, j) := rfl
  unfold remove_page
  dsimp only
  rw [hent]
  cases (m.entries (t, j)).present <;> rfl

theorem over_return (g : Ghost) (m : Machine) (f : Frame) :
    (m.over g).return_frame_to_kernel f = (m.return_frame_to_kernel f).over g := rfl

theorem over_foldl {body : Machine → ℕ → Machine}
    (hbody : ∀ m k, body (m.over g) k = (body m k).over g) (l : List ℕ) (m : Machine) :
    l.foldl body (m.over g) = (l.foldl body m).over g := by
  induction l generalizing m with
  | nil => rfl
  | cons k l ih => rw [List.foldl_cons, hbody, ih, List.foldl_cons]

theorem over_remove_table (d : Frame) (m : Machine) (i : ℕ) :
    remove_table d (m.over g) i = (remove_table d m i).over g := by
  have hent : (m.over g).entries (d, i) = m.entries (d, i) := rfl
  unfold remove_table
  dsimp only
  rw [hent, over_foldl (over_remove_page _)]
  by_cases hp : (m.entries (d, i)).present = true
  · rw [if_pos hp, if_pos hp]
    exact over_return ..
  · rw [if_neg hp, if_neg hp]

theorem over_switch (g : Ghost) (pid : ℕ) (m : Machine) : (switch pid m).over g = m.over g := by
  unfold switch
  split <;> rfl

/-! ### What the calls leave of the unit -/

/-- The TLB, the processes and the count of the segmentation faults are as they were. -/
structure Alike (m m' : Machine) : Prop where
  tlb : m'.tlb = m.tlb
  curr_pid : m'.curr_pid = m.curr_pid
  page_directories : m'.page_directories = m.page_directories
  segmentations : m'.segmentations = m.segmentations
  faults : m'.num_segmentation_faults = m.num_segmentation_faults

theorem Alike.trans (ha : Alike m m₁) (ha' : Alike m₁ m') : Alike m m' :=
  ⟨ha'.tlb.trans ha.tlb, ha'.curr_pid.trans ha.curr_pid,
    ha'.page_directories.trans ha.page_directories, ha'.segmentations.trans ha.segmentations,
    ha'.faults.trans ha.faults⟩

theorem alike_set (m : Machine) (p : Ptr) (e : Entry) : Alike m (m.set p e) :=
  ⟨rfl, rfl, rfl, rfl, rfl⟩

theorem alike_read (m : Machine) (p : Ptr) : Alike m (m.read_page_from_disk p) := by
  unfold Machine.read_page_from_disk
  split <;> exact ⟨rfl, rfl, rfl, rfl, rfl⟩

theorem alike_vacate (m : Machine) (f : Frame) : Alike m (m.vacate f) := by
  unfold Machine.vacate
  split <;> exact ⟨rfl, rfl, rfl, rfl, rfl⟩

/-- What the kernel does is no business of the unit. -/
theorem alike_ask {owner : Owner} (ha : m.ask_kernel_for_frame owner f = .ok m') : Alike m m' := by
  obtain ⟨-, rfl⟩ := ask_eq_ok ha
  exact (alike_vacate m f).trans ⟨rfl, rfl, rfl, rfl, rfl⟩

/-- Nor is a page fault, but for its count. -/
theorem alike_fault {owner : Owner}
    (ha : (mmu_raise_page_fault m).ask_kernel_for_frame owner f = .ok m') : Alike m m' := by
  have hfault : Alike m (mmu_raise_page_fault m) := ⟨rfl, rfl, rfl, rfl, rfl⟩
  exact hfault.trans (alike_ask ha)

theorem alike_page_in (hp : page_in h segs addr p f m = .ok m') : Alike m m' := by
  unfold page_in at hp
  split at hp
  · obtain rfl := Except.ok.inj hp
    exact ⟨rfl, rfl, rfl, rfl, rfl⟩
  · obtain ⟨m₂, hask, hp⟩ := bind_eq_ok hp
    dsimp only at hp
    split at hp
    · exact absurd hp (by simp)
    · obtain rfl := Except.ok.inj hp
      apply (alike_fault hask).trans
      apply (alike_set m₂ p _).trans
      apply (alike_read _ p).trans
      exact (alike_set _ p _).trans (alike_set _ p _)

theorem alike_table_in (ht : table_in p f m = .ok m') : Alike m m' := by
  unfold table_in at ht
  split at ht
  · obtain rfl := Except.ok.inj ht
    exact ⟨rfl, rfl, rfl, rfl, rfl⟩
  · obtain ⟨m₂, hask, ht⟩ := bind_eq_ok ht
    obtain rfl := Except.ok.inj ht
    apply (alike_fault hask).trans
    apply (alike_set m₂ p _).trans
    exact (alike_read _ p).trans (alike_set _ p _)

theorem alike_add_table (ha : add_table d f m = .ok m') : Alike m m' := by
  obtain ⟨m₂, hask, hset⟩ := bind_eq_ok ha
  obtain rfl := Except.ok.inj hset
  exact (alike_ask hask).trans (alike_set m₂ _ _)

theorem alike_add_page (ha : add_page d i f m = .ok m') : Alike m m' := by
  obtain ⟨m₂, hask, hset⟩ := bind_eq_ok ha
  obtain rfl := Except.ok.inj hset
  exact (alike_ask hask).trans (alike_set m₂ _ _)

/-! ### The invariant of a run -/

/-- The unit knows the last processes of `g`, and what its TLB has is of one of them that were
    added under the number of the process that runs. -/
structure Shadow (h : Header) (g : Ghost) (m : Machine) : Prop where
  wf : Wf (m.over g)
  dirs : ∀ pid, m.page_directories pid = g.dirs (g.last pid)
  segs : ∀ pid, m.segmentations pid = g.segs (g.last pid)
  given : ∀ k segs, g.segs k = some segs → segs = segments h
  later : ∀ pid n, g.count pid < n → g.dirs (Nat.pair pid n) = none
  tlb : ∀ v p, m.tlb v = some p → ∃ n, (m.over g).walk (Nat.pair m.curr_pid n) v = some p
  guarded : Guarded h (m.over g)

/-- The directory of a process is that of its last one. -/
theorem Shadow.dir (hs : Shadow h g m) (hd : m.page_directories pid = some d) :
    (m.over g).page_directories (g.last pid) = some d := (hs.dirs pid).symm.trans hd

/-- A unit that is alike, over trees that keep their tables. -/
theorem Shadow.of_alike (hs : Shadow h g m) (ha : Alike m m') (hwf : Wf (m'.over g))
    (htable : ∀ k i t, (m.over g).Table k i t → (m'.over g).Table k i t)
    (hg : Guarded h (m'.over g)) : Shadow h g m' := by
  refine ⟨hwf, ?_, ?_, hs.given, hs.later, ?_, hg⟩
  · rw [ha.page_directories]
    exact hs.dirs
  · rw [ha.segmentations]
    exact hs.segs
  · intro v p hv
    rw [ha.tlb] at hv
    rw [ha.curr_pid]
    obtain ⟨n, hw⟩ := hs.tlb v p hv
    obtain ⟨ht, hj⟩ := walk_eq_some.mp hw
    exact ⟨n, walk_eq_some.mpr ⟨htable _ _ _ ht, hj⟩⟩

theorem Shadow.switched (hs : Shadow h g m) (pid : ℕ) : Shadow h g (switch pid m) := by
  have hover := over_switch g pid m
  refine ⟨hover ▸ hs.wf, ?_, ?_, hs.given, hs.later, ?_, hover ▸ hs.guarded⟩
  · intro pid'
    rw [← hs.dirs]
    unfold switch
    split <;> rfl
  · intro pid'
    rw [← hs.segs]
    unfold switch
    split <;> rfl
  · intro v p hv
    rw [hover]
    unfold switch at hv ⊢
    split at hv
    · exact absurd hv (by simp [Machine.tlb_flush])
    · rename_i hcurr
      rw [if_neg hcurr]
      exact hs.tlb v p hv

/-- What no process sees, and no bit that matters. -/
structure Silent (h : Header) (g : Ghost) (m m' : Machine) : Prop where
  shadow : Shadow h g m'
  moves : Moves (m.over g) (m'.over g)
  kept : ∃ X, Kept X (m.over g) (m'.over g)
  curr_pid : m'.curr_pid = m.curr_pid
  faults : m'.num_segmentation_faults = m.num_segmentation_faults

theorem Silent.refl (hs : Shadow h g m) : Silent h g m m :=
  ⟨hs, .refl _, ⟨Nowhere, .refl _⟩, rfl, rfl⟩

theorem Silent.trans (hs : Silent h g m m₁) (hs' : Silent h g m₁ m') : Silent h g m m' := by
  obtain ⟨X, hk⟩ := hs.kept
  obtain ⟨Y, hk'⟩ := hs'.kept
  have hboth : Kept (fun q => X q ∨ Y q) (m.over g) (m'.over g) :=
    (hk.mono (fun _ => Or.inl)).trans (hk'.mono (fun _ => Or.inr))
  exact ⟨hs'.shadow, hs.moves.trans hs'.moves, ⟨_, hboth⟩, hs'.curr_pid.trans hs.curr_pid,
    hs'.faults.trans hs.faults⟩

/-- Moves that leave the unit alone. -/
theorem Shadow.moves (hs : Shadow h g m) (ha : Alike m m') (hm : Moves (m.over g) (m'.over g))
    (hk : Kept X (m.over g) (m'.over g)) (hg : Guarded h (m'.over g)) : Silent h g m m' := by
  have hshadow := hs.of_alike ha (hm.wf hs.wf) (fun _ _ _ ht => hm.table_mono hs.wf ht) hg
  exact ⟨hshadow, hm, ⟨X, hk⟩, ha.curr_pid, ha.faults⟩

/-- Counters that are not those of segmentation faults. -/
theorem Shadow.tlb_miss (hs : Shadow h g m) : Silent h g m (mmu_tlb_miss m) := by
  have hk : Kept Nowhere (m.over g) ((mmu_tlb_miss m).over g) := kept_quiet rfl rfl
  exact hs.moves ⟨rfl, rfl, rfl, rfl, rfl⟩ (moves_tlb_miss (m.over g)) hk (hs.guarded.kept hk)

/-- The entry of a page that was looked up in the TLB. -/
theorem Shadow.hit (hs : Shadow h g m) (hp : m.tlb_get_pte v b = some p) :
    ∃ n, (m.over g).walk (Nat.pair m.curr_pid n) v = some p := by
  unfold Machine.tlb_get_pte at hp
  split at hp
  · exact hs.tlb v p hp
  · exact absurd hp (by simp)

theorem Shadow.tlb_add (hs : Shadow h g m)
    (hw : (m.over g).walk (Nat.pair m.curr_pid n) v = some p) :
    Silent h g m (m.tlb_add_pte v p) := by
  have hover : (m.tlb_add_pte v p).over g = m.over g := rfl
  have hshadow : Shadow h g (m.tlb_add_pte v p) := by
    refine ⟨hs.wf, hs.dirs, hs.segs, hs.given, hs.later, ?_, hs.guarded⟩
    intro w q hq
    unfold Machine.tlb_add_pte at hq
    dsimp only at hq
    by_cases heq : w = v
    · rw [heq, Function.update_self] at hq
      obtain rfl := Option.some.inj hq
      rw [heq]
      exact ⟨n, hw⟩
    · rw [Function.update_of_ne heq] at hq
      exact hs.tlb w q hq
  exact ⟨hshadow, .refl _, ⟨Nowhere, .refl _⟩, rfl, rfl⟩

/-- **A page is brought in**, with the permission of its segment. -/
theorem Shadow.paged (hs : Shadow h g m) (hloc : h.Locates)
    (hw : (m.over g).walk k (BASE_ADDR addr) = some p)
    (hp : page_in h (segments h) addr p f m = .ok m') :
    Silent h g m m' ∧ (m'.over g).walk k (BASE_ADDR addr) = some p ∧
      (m'.entries p).present = true := by
  have hover := over_page_in (g := g) hp
  obtain ⟨ht, hj⟩ := walk_eq_some.mp hw
  have hpaged := page_in_spec hs.wf ht (hj ▸ VPN1_lt _) hover
  have hg := hs.guarded.page_in hloc hs.wf hw hover
  refine ⟨?_, walk_eq_some.mpr ⟨hpaged.moves.table_mono hs.wf ht, hj⟩, hpaged.present⟩
  rcases kept_page_in hs.wf ht hover with heq | ⟨hk, -⟩
  · apply hs.moves (X := Nowhere) (alike_page_in hp) hpaged.moves _ hg
    rw [heq]
    exact .refl _
  · exact hs.moves (alike_page_in hp) hpaged.moves hk hg

/-- **The page walk of a read.** -/
theorem Shadow.walked (hs : Shadow h g m) (hd : m.page_directories m.curr_pid = some d)
    (hw : read_walk d v f m = .ok (p, m')) : Silent h g m m' := by
  unfold read_walk at hw
  dsimp only at hw
  split at hw
  · obtain ⟨_, -, hnull⟩ := bind_eq_ok hw
    exact absurd hnull (by simp)
  · rename_i hpresent
    obtain ⟨rfl, rfl⟩ := Prod.mk.inj (Except.ok.inj hw)
    have hmiss := hs.tlb_miss
    have hp : (((mmu_tlb_miss m).over g).entries (d, VPN0 v)).present = true :=
      Bool.eq_true_of_not_eq_false hpresent
    exact hmiss.trans (hmiss.shadow.tlb_add (walk_of_present (hmiss.shadow.dir hd) hp))

/-- **The page walk of a write.** -/
theorem Shadow.got (hs : Shadow h g m) (hd : m.page_directories m.curr_pid = some d)
    (hi : VPN0 v < NUM_ENTRIES) (hget : write_pte d v b f m = .ok (p, m')) :
    Silent h g m m' ∧ ∃ n, (m'.over g).walk (Nat.pair m.curr_pid n) v = some p := by
  unfold write_pte at hget
  split at hget
  · rename_i q hq
    obtain ⟨rfl, rfl⟩ := Prod.mk.inj (Except.ok.inj hget)
    exact ⟨.refl hs, hs.hit hq⟩
  · unfold write_walk at hget
    obtain ⟨m₁, htable, hget⟩ := bind_eq_ok hget
    obtain ⟨rfl, rfl⟩ := Prod.mk.inj (Except.ok.inj hget)
    have hd' := hs.dir hd
    have hmiss := hs.tlb_miss
    have hover := over_table_in (g := g) htable
    have hin := table_in_spec hmiss.shadow.wf hd' hi hover
    have hk := kept_table_in hmiss.shadow.wf hd' hi hover
    have hsilent := hmiss.shadow.moves (alike_table_in htable) hin.moves hk
      (hmiss.shadow.guarded.kept hk)
    refine ⟨hmiss.trans hsilent, g.count m.curr_pid, walk_of_present ?_ hin.present⟩
    exact hin.moves.page_directories ▸ hd'

/-! ### Reading and writing -/

theorem Shadow.segmentation_fault (hs : Shadow h g m) :
    Shadow h g (mmu_raise_segmentation_fault m) := by
  have hk : Kept Nowhere (m.over g) ((mmu_raise_segmentation_fault m).over g) := kept_quiet rfl rfl
  refine ⟨(moves_segmentation_fault (m.over g)).wf hs.wf, hs.dirs, hs.segs, hs.given, hs.later,
    hs.tlb, hs.guarded.kept hk⟩

/-- Bits that say nothing of a frame and give no permission, and bytes. -/
theorem Shadow.congr (hs : Shadow h g m) (ha : Alike m m') (huse : m'.use = m.use)
    (hswap : m'.swap = m.swap) (hent : ∀ q, (m'.entries q).present = (m.entries q).present ∧
      (m'.entries q).base_addr = (m.entries q).base_addr ∧
      (m'.entries q).read_write = (m.entries q).read_write) : Shadow h g m' := by
  have hwf : Wf (m'.over g) :=
    hs.wf.congr rfl rfl huse hswap rfl rfl (fun q => ⟨(hent q).1, (hent q).2.1⟩)
  apply hs.of_alike ha hwf _ (hs.guarded.congr rfl hent)
  intro k i t ht
  have hsame : (m'.over g).Table k i t ↔ (m.over g).Table k i t :=
    table_congr rfl (fun _ d j _ => ⟨(hent (d, j)).1, (hent (d, j)).2.1⟩)
  exact hsame.mpr ht

/-- An entry with other bits. -/
theorem bits_set (m : Machine) (p : Ptr) (hp : e.present = (m.entries p).present)
    (hb : e.base_addr = (m.entries p).base_addr) (hrw : e.read_write = (m.entries p).read_write)
    (q : Ptr) : ((m.set p e).entries q).present = (m.entries q).present ∧
      ((m.set p e).entries q).base_addr = (m.entries q).base_addr ∧
      ((m.set p e).entries q).read_write = (m.entries q).read_write := by
  by_cases hq : q = p
  · rw [hq, entries_set_self]
    exact ⟨hp, hb, hrw⟩
  · rw [entries_set_ne m e hq]
    exact ⟨rfl, rfl, rfl⟩

theorem Shadow.copied (hs : Shadow h g m) (p : Ptr) (n : ℕ) : Shadow h g (copy_out p n m).2 :=
  hs.congr (alike_set m p _) rfl rfl (bits_set m p rfl rfl rfl)

/-- What is stored is stored in a page that may be written. -/
theorem Shadow.wrote (hs : Shadow h g m) (p : Ptr) (buffer : List UInt8) :
    Shadow h g (copy_in p buffer m) := by
  unfold copy_in
  split
  · exact hs.segmentation_fault
  · have halike : Alike m (((m.set p { m.entries p with dirty := true, accessed := true }).store
        p buffer)) := ⟨rfl, rfl, rfl, rfl, rfl⟩
    exact hs.congr halike rfl rfl (bits_set m p rfl rfl rfl)

/-- The segments of a process are those that it was given. -/
theorem Shadow.segments_eq (hs : Shadow h g m) (hsegs : m.segmentations pid = some segs) :
    segs = segments h := hs.given _ _ ((hs.segs pid).symm.trans hsegs)

/-- The directory of the process that is switched to. -/
theorem switch_directory (hd : m.page_directories pid = some d) :
    (switch pid m).page_directories (switch pid m).curr_pid = some d := by
  rw [switch_curr_pid]
  unfold switch
  split <;> exact hd

/-- **A read keeps the invariant.** -/
theorem Shadow.read {r : Option (List UInt8) × Machine} (hs : Shadow h g m) (hloc : h.Locates)
    (hr : mmu_read_from_virtual_address h addr pid n b f m = .ok r) : Shadow h g r.2 := by
  have hsw : Shadow h g (switch pid m) := hs.switched pid
  cases read_cases hr with
  | nobody => exact hs
  | outside => exact hsw.segmentation_fault
  | hit d segs p m₂ hd hsegs haddr hp hin =>
    obtain ⟨k, hw⟩ := hsw.hit hp
    rw [hs.segments_eq hsegs] at hin
    exact (hsw.paged hloc hw hin).1.shadow.copied p n
  | miss d segs p m₂ hd hsegs haddr hp hw =>
    exact (hsw.walked (switch_directory hd) hw).shadow.copied p n

/-- The page that a write goes to. -/
theorem Shadow.found {d : Frame} {g₁ g₂ : Frame} (hs : Shadow h g m) (hloc : h.Locates)
    (hd : m.page_directories pid = some d) (hsegs : m.segmentations pid = some segs)
    (hget : write_pte d (BASE_ADDR addr) b g₁ (switch pid m) = .ok (p, m₁))
    (hin : page_in h segs addr p g₂ (m₁.tlb_add_pte (BASE_ADDR addr) p) = .ok m') :
    Silent h g (switch pid m) m' ∧ ∃ n,
      (m'.over g).walk (Nat.pair pid n) (BASE_ADDR addr) = some p ∧
      (m'.entries p).present = true := by
  have hsw : Shadow h g (switch pid m) := hs.switched pid
  obtain ⟨hget', n, hw⟩ := hsw.got (switch_directory hd) (VPN0_lt addr) hget
  have hadd : Silent h g m₁ (m₁.tlb_add_pte (BASE_ADDR addr) p) := by
    apply hget'.shadow.tlb_add (n := n)
    rw [hget'.curr_pid]
    exact hw
  rw [hs.segments_eq hsegs] at hin
  rw [switch_curr_pid] at hw
  obtain ⟨hpaged, hwalk, hpresent⟩ := hadd.shadow.paged hloc hw hin
  exact ⟨(hget'.trans hadd).trans hpaged, n, hwalk, hpresent⟩

/-- **A write keeps the invariant.** -/
theorem Shadow.write {g₁ g₂ : Frame} (hs : Shadow h g m) (hloc : h.Locates)
    (hw : mmu_write_to_virtual_address h addr pid buffer b g₁ g₂ m = .ok m') : Shadow h g m' := by
  cases write_cases hw with
  | nobody => exact hs
  | outside => exact (hs.switched pid).segmentation_fault
  | found d segs p m₂ m₃ hlen hd hsegs haddr hget hin =>
    exact (hs.found hloc hd hsegs hget hin).1.shadow.wrote p buffer

/-- **A write to a page that may not be written** is silent, and counted. -/
theorem Shadow.refuses {g₁ g₂ : Frame} (hs : Shadow h g m) (hloc : h.Locates)
    (hpid : m.page_directories pid ≠ none)
    (hno : ∀ s, (segments h s).Contains addr → (segments h s).permissions &&& 2 = 0)
    (hw : mmu_write_to_virtual_address h addr pid buffer b g₁ g₂ m = .ok m') : ∃ m₁,
      m' = mmu_raise_segmentation_fault m₁ ∧ Silent h g (switch pid m) m₁ := by
  have hsw : Shadow h g (switch pid m) := hs.switched pid
  cases write_cases hw with
  | nobody hnone => exact absurd hnone hpid
  | outside => exact ⟨_, rfl, .refl hsw⟩
  | found d segs p m₂ m₃ hlen hd hsegs haddr hget hin =>
    obtain ⟨hsilent, n, hwalk, hpresent⟩ := hs.found hloc hd hsegs hget hin
    obtain ⟨s', addr', hbase, hcont', hbit⟩ := hsilent.shadow.guarded _ _ p hwalk hpresent
    -- the segment of the page is that of the address
    rw [hs.segments_eq hsegs] at haddr
    obtain ⟨s, hcont⟩ := (hloc.address _ _).mp haddr
    obtain rfl : s' = s := segment_unique hcont' hcont hbase
    have hrw : (m₃.entries p).read_write = false := by
      apply Bool.eq_false_of_not_eq_true
      intro htrue
      exact hbit.mp htrue (hno s' hcont)
    refine ⟨m₃, ?_, hsilent⟩
    unfold copy_in
    exact if_pos hrw

/-! ### Processes -/

/-- **The removal of a process**, over all that were ever added. -/
theorem Shadow.gone (hs : Shadow h g m) (hr : mmu_remove_process h pid m = .ok m') :
    Gone (m.over g) (g.last pid) (m'.over (g.parted pid)) ∧ m'.curr_pid = m.curr_pid ∧
      m'.page_directories = Function.update m.page_directories pid none ∧
      m'.segmentations = Function.update m.segmentations pid none ∧
      ∀ v p, m'.tlb v = some p → m.curr_pid ≠ pid ∧ m.tlb v = some p := by
  unfold mmu_remove_process at hr
  split at hr
  · exact absurd hr (by simp)
  obtain ⟨m₁, hfrees, hsame, hm'⟩ : ∃ m₁ : Machine,
      Frees ((m.over g).Holds (g.last pid)) ((m.over g).Swaps (g.last pid)) (m.over g)
        (m₁.over g) ∧ m₁ = { m with use := m₁.use, swap := m₁.swap } ∧ m' =
      (if m₁.curr_pid = pid then Machine.tlb_flush { m₁ with
        page_directories := Function.update m₁.page_directories pid none,
        segmentations := Function.update m₁.segmentations pid none }
      else { m₁ with
        page_directories := Function.update m₁.page_directories pid none,
        segmentations := Function.update m₁.segmentations pid none }) := by
    cases hd : m.page_directories pid with
    | none =>
      -- there is no such process, and it holds nothing
      simp only [hd] at hr
      have hd' : (m.over g).page_directories (g.last pid) = none := (hs.dirs pid).symm.trans hd
      have htable : ∀ i t, ¬ (m.over g).Table (g.last pid) i t := by
        rintro i t ⟨d, hd₁, -⟩
        exact absurd (hd'.symm.trans hd₁) (by simp)
      refine ⟨m, (Frees.nothing _).congr (fun f => ?_) (fun p => ?_), rfl, (Except.ok.inj hr).symm⟩
      · simp [Machine.Holds, hd', htable]
      · simp [Machine.Swaps, htable]
    | some d =>
      simp only [hd] at hr
      have hprocess := frees_process hs.wf (hs.dir hd)
      rw [over_foldl (over_remove_table d), over_return] at hprocess
      have hbody : ∀ (m' : Machine) (k : ℕ), m'.entries = m.entries → Frees _ _ m'
          (remove_table d m' k) := fun m' k hent => hent ▸ remove_table_spec d m' k
      have hloop := Frees.foldl hbody (List.range NUM_ENTRIES) rfl
      exact ⟨_, hprocess, (hloop.trans (frees_return d _)).same, (Except.ok.inj hr).symm⟩
  have hparts : m'.entries = m.entries ∧ m'.data = m.data ∧ m'.use = m₁.use ∧
      m'.swap = m₁.swap ∧ m'.curr_pid = m.curr_pid ∧
      m'.page_directories = Function.update m.page_directories pid none ∧
      m'.segmentations = Function.update m.segmentations pid none ∧
      ∀ v p, m'.tlb v = some p → m.curr_pid ≠ pid ∧ m.tlb v = some p := by
    rw [hm', hsame]
    dsimp only
    split
    · -- the TLB of the running process is flushed
      refine ⟨rfl, rfl, rfl, rfl, rfl, rfl, rfl, fun v p hv => ?_⟩
      exact absurd hv (by simp [Machine.tlb_flush])
    · rename_i hother
      exact ⟨rfl, rfl, rfl, rfl, rfl, rfl, rfl, fun v p hv => ⟨hother, hv⟩⟩
  obtain ⟨hent, hdata, huse, hswap, hcurr, hpd, hseg, htlb⟩ := hparts
  have hflushed : ∀ v p, (m'.over (g.parted pid)).tlb v = some p → False :=
    fun v p hv => absurd hv (by simp [Machine.over])
  refine ⟨⟨rfl, rfl, hent, hdata, rfl, fun v p hv => (hflushed v p hv).elim, ?_, ?_, ?_, ?_⟩,
    hcurr, hpd, hseg, htlb⟩
  · intro f hf
    exact (congrFun huse f).trans (hfrees.freed f hf)
  · intro f hf
    exact (congrFun huse f).trans (hfrees.kept f hf)
  · intro p hp
    exact (congrFun hswap p).trans (hfrees.removed p hp)
  · intro p hp
    exact (congrFun hswap p).trans (hfrees.saved p hp)

theorem Shadow.removed (hs : Shadow h g m) (hr : mmu_remove_process h pid m = .ok m') :
    Shadow h (g.parted pid) m' := by
  obtain ⟨hgone, hcurr, hpd, hseg, htlb⟩ := hs.gone hr
  refine ⟨hgone.wf hs.wf, ?_, ?_, ?_, ?_, ?_, ?_⟩
  · intro pid'
    rw [hpd, funext hs.dirs]
    exact (g.update_last g.dirs none pid pid').symm
  · intro pid'
    rw [hseg, funext hs.segs]
    exact (g.update_last g.segs none pid pid').symm
  · intro k segs hk
    unfold Ghost.parted at hk
    dsimp only at hk
    by_cases heq : k = g.last pid
    · rw [heq, Function.update_self] at hk
      exact absurd hk (by simp)
    · rw [Function.update_of_ne heq] at hk
      exact hs.given k segs hk
  · intro pid' n hn
    unfold Ghost.parted
    dsimp only
    by_cases heq : Nat.pair pid' n = g.last pid
    · rw [heq, Function.update_self]
    · rw [Function.update_of_ne heq]
      exact hs.later pid' n hn
  · intro v p hv
    obtain ⟨hother, hv⟩ := htlb v p hv
    obtain ⟨n, hw⟩ := hs.tlb v p hv
    obtain ⟨ht, hj⟩ := walk_eq_some.mp hw
    rw [hcurr]
    refine ⟨n, walk_eq_some.mpr ⟨hgone.table.mpr ⟨?_, ht⟩, hj⟩⟩
    -- an entry that is left in the buffer is not one of the process
    exact fun heq => hother (Nat.pair_eq_pair.mp heq).1
  · intro k v p hw hp
    obtain ⟨ht, hj⟩ := walk_eq_some.mp hw
    obtain ⟨-, ht⟩ := hgone.table.mp ht
    rw [hgone.entries] at hp ⊢
    exact hs.guarded k v p (walk_eq_some.mpr ⟨ht, hj⟩) hp

/-- **The directory of a new process.** -/
theorem Shadow.joined (hs : Shadow h g m) (hf : m.use f = .free) :
    Shadow h (g.joined pid (segments h) f) (m.joined pid (segments h) f) := by
  obtain ⟨k, hk⟩ : ∃ k, Nat.pair pid (g.count pid + 1) = k := ⟨_, rfl⟩
  have hover : (m.joined pid (segments h) f).over (g.joined pid (segments h) f) =
      (m.over g).joined k (segments h) f := by
    rw [← hk]
    rfl
  have hnone : (m.over g).page_directories k = none := by
    rw [← hk]
    exact hs.later pid _ (Nat.lt_succ_self _)
  have hkept : Kept Nowhere (m.over g) ((m.over g).joined k (segments h) f) :=
    kept_joined hs.wf hf hnone (segments h)
  refine ⟨?_, ?_, ?_, ?_, ?_, ?_, ?_⟩
  · rw [hover]
    exact hs.wf.add_directory hf hnone (segments h)
  · intro pid'
    show Function.update m.page_directories pid (some f) pid' = _
    rw [funext hs.dirs]
    exact (g.update_joined g.dirs (some f) pid pid' (segments h) f).symm
  · intro pid'
    show Function.update m.segmentations pid (some (segments h)) pid' = _
    rw [funext hs.segs]
    exact (g.update_joined g.segs (some (segments h)) pid pid' (segments h) f).symm
  · intro j segs hj
    unfold Ghost.joined at hj
    rw [hk] at hj
    dsimp only at hj
    by_cases heq : j = k
    · rw [heq, Function.update_self] at hj
      exact (Option.some.inj hj).symm
    · rw [Function.update_of_ne heq] at hj
      exact hs.given j segs hj
  · intro pid' n hn
    unfold Ghost.joined at hn ⊢
    dsimp only at hn ⊢
    -- the number of the new process was not given out before
    have hne : Nat.pair pid' n ≠ Nat.pair pid (g.count pid + 1) := by
      intro heq
      obtain ⟨rfl, rfl⟩ := Nat.pair_eq_pair.mp heq
      rw [Function.update_self] at hn
      omega
    rw [Function.update_of_ne hne]
    apply hs.later
    by_cases heq : pid' = pid
    · rw [heq, Function.update_self] at hn
      rw [heq]
      omega
    · rwa [Function.update_of_ne heq] at hn
  · intro v p hv
    obtain ⟨n, hw⟩ := hs.tlb v p hv
    obtain ⟨ht, hj⟩ := walk_eq_some.mp hw
    rw [hover]
    exact ⟨n, walk_eq_some.mpr ⟨hkept.table _ _ _ ht, hj⟩⟩
  · rw [hover]
    exact hs.guarded.kept hkept

theorem Shadow.vacated (hs : Shadow h g m) (f : Frame) : Silent h g m (m.vacate f) := by
  have hkept : Kept Nowhere (m.over g) ((m.vacate f).over g) :=
    over_vacate g m f ▸ kept_vacate hs.wf f
  exact hs.moves (alike_vacate m f) (over_vacate g m f ▸ moves_vacate (m.over g) f) hkept
    (hs.guarded.kept hkept)

/-- **The page table of the testing memory.** -/
theorem Shadow.table_added (hs : Shadow h g m) (hd : m.page_directories pid = some d)
    (hnot : (m.entries (d, 0)).present = false) (ha : add_table d f m = .ok m') :
    Silent h g m m' ∧ (m'.over g).Table (g.last pid) 0 f ∧ ∀ j, (m'.over g).Blank (f, j) := by
  have hover := over_add_table (g := g) ha
  have hd' := hs.dir hd
  obtain ⟨hmoves, ht, hblank⟩ := add_table_spec hs.wf hd' hnot hover
  refine ⟨?_, ht, hblank⟩
  obtain ⟨hfree, hm'⟩ := add_table_eq hover
  have hvacate : Moves (m.over g) ((m.over g).vacate f) := moves_vacate _ f
  have hkept : Kept Nowhere (m.over g) (m'.over g) := by
    rw [hm']
    apply (kept_vacate hs.wf f).trans
    apply kept_table (hvacate.wf hs.wf) hfree (hvacate.page_directories ▸ hd') (by decide)
    · rw [(vacate_of_absent hs.wf f hnot).1]
      exact hnot
    · rfl
    · rfl
    · rfl
  exact hs.moves (alike_add_table ha) hmoves hkept (hs.guarded.kept hkept)

/-- **A page of the testing memory**, that may be written. -/
theorem Shadow.page_added (hs : Shadow h g m) (hwrite : h.WRITE = 2)
    (hd : m.page_directories pid = some d) (ht : (m.over g).Table (g.last pid) 0 t)
    (hi : i = 1 ∨ i = 2) (hblank : (m.over g).Blank (t, i)) (ha : add_page d i f m = .ok m') :
    Silent h g m m' ∧ ∀ j, j ≠ i → (m.over g).Blank (t, j) → (m'.over g).Blank (t, j) := by
  have hover := over_add_page (g := g) ha
  have hd' := hs.dir hd
  have hlt : i < NUM_ENTRIES := by
    unfold NUM_ENTRIES
    omega
  obtain ⟨hmoves, hothers⟩ := add_page_spec hs.wf hd' ht hlt hblank hover
  refine ⟨?_, hothers⟩
  obtain ⟨hfree, hm'⟩ := add_page_eq hd' ht hover
  have hvacate : Moves (m.over g) ((m.over g).vacate f) := moves_vacate _ f
  have hkept : Kept (fun q => q = (t, i)) (m.over g) (m'.over g) := by
    rw [hm']
    apply ((kept_vacate hs.wf f).mono (fun _ hx => hx.elim)).trans
    exact kept_page (hvacate.wf hs.wf) hfree (hvacate.table_mono hs.wf ht) rfl
  have hnew : ((m'.over g).entries (t, i)).read_write = true := by
    rw [hm', entries_set_self]
  apply hs.moves (alike_add_page ha) hmoves hkept
  apply hs.guarded.of_kept hkept
  rintro k v q hw rfl -
  obtain ⟨htq, hj⟩ := walk_eq_some.mp hw
  obtain ⟨-, hzero⟩ := (hmoves.wf hs.wf).table_inj _ _ _ _ t htq (hmoves.table_mono hs.wf ht)
  -- it is the first or the second page of the testing memory
  have hv : v = i := by
    unfold VPN0 at hzero
    unfold VPN1 at hj
    dsimp only at hj
    omega
  have hbit : (segments h .TESTING).permissions &&& 2 ≠ 0 := by
    show (h.READ ||| h.WRITE) &&& 2 ≠ 0
    rw [hwrite, Nat.and_or_distrib_right]
    simp
  have hpage : ∃ addr, BASE_ADDR addr = i ∧ (segments h .TESTING).Contains addr := by
    rcases hi with rfl | rfl
    · exact ⟨4096, by decide, (by decide : (4096 : UInt32) ≤ 4096),
        (by decide : (4096 : UInt32) < 3 * 4096)⟩
    · exact ⟨8192, by decide, (by decide : (4096 : UInt32) ≤ 8192),
        (by decide : (8192 : UInt32) < 3 * 4096)⟩
  obtain ⟨addr, hbase, hcont⟩ := hpage
  exact ⟨.TESTING, addr, hbase.trans hv.symm, hcont, iff_of_true hnew hbit⟩

/-- **A process comes.** -/
theorem Shadow.added {f₁ f₂ f₃ f₄ : Frame} (hs : Shadow h g m) (hwrite : h.WRITE = 2)
    (ha : mmu_add_process h pid f₁ f₂ f₃ f₄ m = .ok m') :
    Shadow h (g.joined pid (segments h) f₁) m' := by
  unfold mmu_add_process at ha
  split at ha
  · exact absurd ha (by simp)
  obtain ⟨m₂, hask, ha⟩ := bind_eq_ok ha
  obtain ⟨m₃, htable, ha⟩ := bind_eq_ok ha
  obtain ⟨m₄, hpage, hlast⟩ := bind_eq_ok ha
  obtain ⟨hfree, rfl⟩ := ask_eq_ok hask
  -- the directory is there, and nothing is in it
  obtain ⟨m₀, hm₀⟩ : ∃ m₀, (m.vacate f₁).joined pid (segments h) f₁ = m₀ := ⟨_, rfl⟩
  obtain ⟨g₀, hg₀⟩ : ∃ g₀, g.joined pid (segments h) f₁ = g₀ := ⟨_, rfl⟩
  have hs₀ : Shadow h g₀ m₀ := by
    rw [← hm₀, ← hg₀]
    exact (hs.vacated f₁).shadow.joined hfree
  have htable' : add_table f₁ f₂ m₀ = .ok m₃ := by
    rw [← hm₀]
    exact htable
  have hd₀ : m₀.page_directories pid = some f₁ := by
    rw [← hm₀]
    exact Function.update_self ..
  have hnot₀ : (m₀.entries (f₁, 0)).present = false := by
    rw [← hm₀]
    exact congrArg Entry.present (entries_grant_self _ .pinned f₁ 0)
  obtain ⟨h₃, ht₃, hblank₃⟩ := hs₀.table_added hd₀ hnot₀ htable'
  have hd₃ : m₃.page_directories pid = some f₁ := (alike_add_table htable').page_directories ▸ hd₀
  obtain ⟨h₄, hblank₄⟩ := h₃.shadow.page_added hwrite hd₃ ht₃ (.inl rfl) (hblank₃ 1) hpage
  have hd₄ : m₄.page_directories pid = some f₁ := (alike_add_page hpage).page_directories ▸ hd₃
  obtain ⟨h₅, -⟩ := h₄.shadow.page_added hwrite hd₄ (h₄.moves.table_mono h₃.shadow.wf ht₃)
    (.inr rfl) (hblank₄ 2 (by decide) (hblank₃ 2)) hlast
  rw [hg₀]
  exact h₅.shadow

/-! ### Every run -/

/-- Any call. -/
def Unguarded (_ : Machine) (_ : Call) : Prop := True

instance (m : Machine) (call : Call) : Decidable (Unguarded m call) := .isTrue trivial

theorem Machine.Created.shadow (hm : m.Created) :
    Shadow h ⟨fun _ => none, fun _ => none, fun _ => 0⟩ m := by
  have hcreated : (m.over ⟨fun _ => none, fun _ => none, fun _ => 0⟩).Created :=
    ⟨fun _ => rfl, rfl, fun _ => rfl, fun _ => rfl, hm.counters, hm.use, hm.swap⟩
  refine ⟨hcreated.wf, hm.page_directories, hm.segmentations, ?_, fun _ _ _ => rfl, ?_, ?_⟩
  · intro k segs hk
    exact absurd hk (by simp)
  · intro v p hv
    exact absurd ((hm.tlb v).symm.trans hv) (by simp)
  · intro k v p hw
    obtain ⟨⟨d, hd, -⟩, -⟩ := walk_eq_some.mp hw
    exact absurd hd (by simp [Machine.over])

/-- **A call keeps the invariant**, whichever processes there are. -/
theorem Shadow.run (hs : Shadow h g m) (hloc : h.Locates) (hwrite : h.WRITE = 2)
    (hrun : call.run h m = .ok m') : ∃ g', Shadow h g' m' := by
  cases call with
  | add pid f₁ f₂ f₃ f₄ => exact ⟨_, hs.added hwrite hrun⟩
  | remove pid => exact ⟨_, hs.removed hrun⟩
  | read addr pid n b f =>
    obtain ⟨r, hr, rfl⟩ := map_eq_ok hrun
    exact ⟨g, hs.read hloc hr⟩
  | write addr pid buffer b f₁ f₂ => exact ⟨g, hs.write hloc hrun⟩

theorem shadow_of_reach (hr : (mmu h).Reach Unguarded m) (hloc : h.Locates) (hwrite : h.WRITE = 2) :
    ∃ g, Shadow h g m := by
  apply hr.invariant (I := fun m => ∃ g, Shadow h g m)
  · exact fun m hm => ⟨_, Machine.Created.shadow hm⟩
  · rintro m call m' ⟨g, hs⟩ - hstep
    exact hs.run hloc hwrite (step_eq_some hstep)

/-- A process sees what its last one sees. -/
theorem Shadow.view (hs : Shadow h g m) (pid v : ℕ) :
    m.view pid v = (m.over g).view (g.last pid) v := by
  unfold Machine.view Machine.walk
  rw [hs.dirs]
  rfl

theorem Shadow.walk (hs : Shadow h g m) (pid v : ℕ) :
    m.walk pid v = (m.over g).walk (g.last pid) v := by
  unfold Machine.walk
  rw [hs.dirs]
  rfl

theorem Shadow.tree (hs : Shadow h g m) (ht : m.Tree f) : (m.over g).Tree f := by
  rcases ht with ⟨pid, hd⟩ | ⟨pid, i, d, hd, hrest⟩
  · exact .inl ⟨g.last pid, (hs.dirs pid).symm.trans hd⟩
  · exact .inr ⟨g.last pid, i, d, (hs.dirs pid).symm.trans hd, hrest⟩

/-- **Pages are protected.**  In every state that calls of any processes reach in any order, the
    write bit of a page that is present is the permission of its segment; and a write to an
    address that no segment lets a process write changes no page as its process sees it and no
    dirty bit, and is counted. -/
theorem write_protected (hr : (mmu h).Reach Unguarded m) (hloc : h.Locates) (hwrite : h.WRITE = 2) :
    (∀ (pid v : ℕ) (p : Ptr), m.walk pid v = some p → (m.entries p).present = true →
      ∃ segs, m.segmentations pid = some segs ∧
        (∃ s addr, BASE_ADDR addr = v ∧ (segs s).Contains addr) ∧
        ∀ s addr, BASE_ADDR addr = v → (segs s).Contains addr →
          ((m.entries p).read_write = true ↔ (segs s).permissions &&& h.WRITE ≠ 0)) ∧
    ∀ (pid : ℕ) (addr : UInt32) (buffer : List UInt8) (b : Bool) (f₁ f₂ : Frame) (m' : Machine),
      m.page_directories pid ≠ none →
      mmu_write_to_virtual_address h addr pid buffer b f₁ f₂ m = .ok m' →
      ∃ segs, m.segmentations pid = some segs ∧
        ((∀ s, (segs s).Contains addr → (segs s).permissions &&& h.WRITE = 0) →
          (∀ pid' v, m'.view pid' v = m.view pid' v) ∧
          (∀ q : Ptr, m.Tree q.1 → (m'.entries q).dirty = (m.entries q).dirty) ∧
          m'.num_segmentation_faults = m.num_segmentation_faults + 1) := by
  obtain ⟨g, hs⟩ := shadow_of_reach hr hloc hwrite
  -- a process that there is has the segments of the program
  have hknown : ∀ pid, m.page_directories pid ≠ none → m.segmentations pid = some (segments h) := by
    intro pid hpid
    have hsome : (m.segmentations pid).isSome = (m.page_directories pid).isSome := by
      rw [hs.segs, hs.dirs]
      exact hs.wf.segmentations (g.last pid)
    rw [Option.isSome_iff_ne_none.mpr hpid] at hsome
    obtain ⟨segs, hsegs⟩ := Option.isSome_iff_exists.mp hsome
    rw [hsegs, hs.segments_eq hsegs]
  rw [hwrite]
  constructor
  · intro pid v p hw hp
    have hpid : m.page_directories pid ≠ none := by
      obtain ⟨⟨d, hd, -⟩, -⟩ := walk_eq_some.mp hw
      simp [hd]
    obtain ⟨s, addr, hbase, hcont, hbit⟩ := hs.guarded _ v p (hs.walk pid v ▸ hw) hp
    refine ⟨segments h, hknown pid hpid, ⟨s, addr, hbase, hcont⟩, ?_⟩
    intro s' addr' hbase' hcont'
    obtain rfl : s = s' := segment_unique hcont hcont' (hbase.trans hbase'.symm)
    exact hbit
  · intro pid addr buffer b f₁ f₂ m' hpid hw
    refine ⟨segments h, hknown pid hpid, fun hno => ?_⟩
    obtain ⟨m₁, rfl, hsilent⟩ := hs.refuses hloc hpid hno hw
    have hsw : (switch pid m).over g = m.over g := over_switch g pid m
    obtain ⟨X, hkept⟩ := hsilent.kept
    refine ⟨?_, ?_, ?_⟩
    · intro pid' v
      show m₁.view pid' v = m.view pid' v
      rw [hs.view, hsilent.shadow.view, hsilent.moves.view (hsw ▸ hs.wf), hsw]
    · intro q hq
      rw [hsw] at hkept
      exact hkept.dirty q (hs.tree hq)
    · exact congrArg (· + 1) (hsilent.faults.trans (switch_faults pid m))

theorem locates_header : header.Locates where
  address segs addr := by
    constructor
    · intro haddr
      obtain ⟨s, -, hin⟩ := List.any_eq_true.mp haddr
      unfold inSegment at hin
      exact ⟨s, by simpa [vm_segmentation.Contains] using hin⟩
    · rintro ⟨s, hcont⟩
      apply List.any_eq_true.mpr
      refine ⟨s, by cases s <;> simp, ?_⟩
      unfold inSegment
      simpa [vm_segmentation.Contains] using hcont
  find segs addr seg hseg := by
    obtain ⟨s, -, hs⟩ := List.mem_map.mp (List.mem_of_find?_eq_some hseg)
    have hin := List.find?_some hseg
    unfold inSegment at hin
    exact ⟨s, hs, by simpa [vm_segmentation.Contains] using hin⟩

/-- The text of a process, which was added twice. -/
theorem write_protected_some : ∃ m m' : Machine, m.walk 1 0x08048 = some (9, 0x48) ∧
    (m.entries (9, 0x48)).read_write = false ∧
    mmu_write_to_virtual_address header 0x08048000 1 [65] false 0 0 m = .ok m' ∧
    m'.num_segmentation_faults = m.num_segmentation_faults + 1 ∧
    (m'.entries (9, 0x48)).dirty = (m.entries (9, 0x48)).dirty := by
  have hrun : ((mmu header).run Unguarded fresh [.add 1 0 1 2 3, .add 1 4 5 6 7,
      .write 0x08048000 1 [65] false 9 10]).any (fun m => decide (m.page_directories 1 ≠ none ∧
        m.walk 1 0x08048 = some (9, 0x48) ∧ (m.entries (9, 0x48)).present = true ∧
        ((Call.write 0x08048000 1 [65] false 0 0).run header m).toOption.isSome ∧
        (m.segmentations 1).any (fun segs => decide ((segs .TEXT).Contains 0x08048000 ∧
          ∀ s ∈ [Segment.STACK, .MMAP, .HEAP, .BSS, .DATA, .TEXT, .TESTING],
            (segs s).Contains 0x08048000 → (segs s).permissions &&& header.WRITE = 0)))) = true := by
    decide +kernel
  obtain ⟨m, hm, hdone⟩ := (Option.any_eq_true _ _).mp hrun
  obtain ⟨hpid, hwalk, hpresent, hreturns, hsegs⟩ := of_decide_eq_true hdone
  obtain ⟨segs, hsegs, hno⟩ := (Option.any_eq_true _ _).mp hsegs
  obtain ⟨htext, hno⟩ := of_decide_eq_true hno
  obtain ⟨m', hm'⟩ := Option.isSome_iff_exists.mp hreturns
  have hw : mmu_write_to_virtual_address header 0x08048000 1 [65] false 0 0 m = .ok m' :=
    step_eq_some hm'
  have hr : (mmu header).Reach Unguarded m := .of_run (.init created_fresh) hm
  obtain ⟨hbits, hwrites⟩ := write_protected hr locates_header rfl
  obtain ⟨segs', hsegs', -, hbit⟩ := hbits 1 0x08048 (9, 0x48) hwalk hpresent
  obtain ⟨segs'', hsegs'', hrefused⟩ := hwrites 1 0x08048000 [65] false 0 0 m' hpid hw
  obtain rfl := Option.some.inj (hsegs.symm.trans hsegs')
  obtain rfl := Option.some.inj (hsegs.symm.trans hsegs'')
  obtain ⟨-, hdirty, hfaults⟩ := hrefused (fun s => hno s (by cases s <;> simp))
  refine ⟨m, m', hwalk, ?_, hw, hfaults, hdirty (9, 0x48) (.inr ⟨1, _, (walk_eq_some.mp hwalk).1⟩)⟩
  apply Bool.eq_false_of_not_eq_true
  intro htrue
  exact (hbit .TEXT 0x08048000 (by decide) htext).mp htrue (hno .TEXT (by simp) htext)

end SystemProgramming.Mmu
