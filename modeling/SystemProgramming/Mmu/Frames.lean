import SystemProgramming.Mmu.Calls

namespace SystemProgramming.Mmu

/-!
# `ideal_indirection/mmu.c` — every frame has one use

The directories, the tables and the pages of all processes form trees over the frames.  No
frame stands at two places of them, and the kernel knows for each of them what it was handed
out for.

* `Wf` — the invariant, with what it says of the TLB and of the swap files.
* `Wf.evict`, `Wf.add_directory`, `Wf.add_table`, `Wf.add_page` — the steps that change the
  trees, each from one state with the invariant to the next.
-/

variable {m m' : Machine} {pid pid' i j v : ℕ} {t f d : Frame} {p q : Ptr} {e : Entry}

/-! ### The trees -/

/-- `t` is the page table behind the entry `i` of the directory of `pid`. -/
def Machine.Table (m : Machine) (pid i : ℕ) (t : Frame) : Prop :=
  ∃ d, m.page_directories pid = some d ∧ (m.entries (d, i)).present = true ∧
    (m.entries (d, i)).base_addr = t

/-- The page walk: the entry for the page `v` of `pid`, if it has a page table. -/
def Machine.walk (m : Machine) (pid v : ℕ) : Option Ptr :=
  match m.page_directories pid with
  | none => none
  | some pd =>
    if (m.entries (pd, VPN0 v)).present = true then
      some ((m.entries (pd, VPN0 v)).base_addr, VPN1 v)
    else none

theorem walk_eq_some : m.walk pid v = some p ↔ m.Table pid (VPN0 v) p.1 ∧ p.2 = VPN1 v := by
  unfold Machine.walk Machine.Table
  cases hpd : m.page_directories pid with
  | none => simp
  | some d =>
    dsimp only
    split
    · rename_i hpresent
      constructor
      · intro h
        obtain rfl := Option.some.inj h
        exact ⟨⟨d, rfl, hpresent, rfl⟩, rfl⟩
      · rintro ⟨⟨d', hd', -, hbase⟩, hp⟩
        obtain rfl := Option.some.inj hd'
        rw [hbase, ← hp]
    · rename_i hpresent
      constructor
      · intro h
        exact absurd h (by simp)
      · rintro ⟨⟨d', hd', hpresent', -⟩, -⟩
        obtain rfl := Option.some.inj hd'
        exact absurd hpresent' hpresent

/-- The invariant of the trees. -/
structure Wf (m : Machine) : Prop where
  /-- a process has its segments -/
  segmentations : ∀ pid, (m.segmentations pid).isSome = (m.page_directories pid).isSome
  directory : ∀ pid d, m.page_directories pid = some d → m.use d = .pinned
  directory_inj : ∀ pid pid' d, m.page_directories pid = some d →
    m.page_directories pid' = some d → pid = pid'
  table : ∀ pid i t, m.Table pid i t → m.use t = .pinned ∧ i < NUM_ENTRIES
  table_ne : ∀ pid i t pid', m.Table pid i t → m.page_directories pid' ≠ some t
  table_inj : ∀ pid i pid' i' t, m.Table pid i t → m.Table pid' i' t → pid = pid' ∧ i = i'
  page : ∀ pid i t j, m.Table pid i t → (m.entries (t, j)).present = true →
    j < NUM_ENTRIES ∧ m.use (m.entries (t, j)).base_addr = .page (t, j)
  /-- the kernel knows no page that is not there -/
  owner : ∀ f p, m.use f = .page p → (∃ pid i, m.Table pid i p.1) ∧
    (m.entries p).present = true ∧ (m.entries p).base_addr = f
  /-- a swap file is one of a page in some table -/
  swap : ∀ p, m.swap p ≠ none → p.2 < NUM_ENTRIES ∧ ∃ pid i, m.Table pid i p.1
  /-- the TLB has entries of the current process -/
  tlb : ∀ v p, m.tlb v = some p → m.Table m.curr_pid (VPN0 v) p.1 ∧ p.2 = VPN1 v

/-- A unit that was just created. -/
theorem Machine.Created.wf (h : m.Created) : Wf m := by
  have htable : ∀ {pid i t}, ¬ m.Table pid i t := by
    rintro pid i t ⟨d, hd, -⟩
    exact absurd ((h.page_directories pid).symm.trans hd) (by simp)
  have hdir : ∀ {pid d}, m.page_directories pid ≠ some d := by
    intro pid d
    simp [h.page_directories pid]
  refine ⟨?_, ?_, ?_, ?_, ?_, ?_, ?_, ?_, ?_, ?_⟩
  · intro pid
    rw [h.segmentations pid, h.page_directories pid]
    rfl
  · exact fun _ _ hd => absurd hd hdir
  · exact fun _ _ _ hd => absurd hd hdir
  · exact fun _ _ _ ht => absurd ht htable
  · exact fun _ _ _ _ ht => absurd ht htable
  · exact fun _ _ _ _ _ ht => absurd ht htable
  · exact fun _ _ _ _ ht => absurd ht htable
  · exact fun f p hf => absurd hf (h.use f p)
  · exact fun p hp => absurd (h.swap p) hp
  · intro v p hv
    exact absurd ((h.tlb v).symm.trans hv) (by simp)

/-- The tables are read off the directories. -/
theorem table_congr (hpd : m'.page_directories = m.page_directories)
    (hent : ∀ pid d i, m.page_directories pid = some d →
      (m'.entries (d, i)).present = (m.entries (d, i)).present ∧
      (m'.entries (d, i)).base_addr = (m.entries (d, i)).base_addr) :
    m'.Table pid i t ↔ m.Table pid i t := by
  unfold Machine.Table
  rw [hpd]
  constructor
  · rintro ⟨d, hd, h1, h2⟩
    obtain ⟨e1, e2⟩ := hent pid d i hd
    exact ⟨d, hd, e1 ▸ h1, e2 ▸ h2⟩
  · rintro ⟨d, hd, h1, h2⟩
    obtain ⟨e1, e2⟩ := hent pid d i hd
    exact ⟨d, hd, e1.symm ▸ h1, e2.symm ▸ h2⟩

/-- A frame that is free is at no place of the trees. -/
theorem Wf.ne_of_free (h : Wf m) (hf : m.use f = .free) :
    (∀ pid, m.page_directories pid ≠ some f) ∧ (∀ pid i, ¬ m.Table pid i f) ∧
    ∀ pid i t j, m.Table pid i t → (m.entries (t, j)).present = true →
      (m.entries (t, j)).base_addr ≠ f := by
  refine ⟨?_, ?_, ?_⟩
  · intro pid hd
    exact absurd ((h.directory pid f hd).symm.trans hf) (by simp)
  · intro pid i ht
    exact absurd ((h.table pid i f ht).1.symm.trans hf) (by simp)
  · rintro pid i t j ht hp rfl
    exact absurd ((h.page pid i t j ht hp).2.symm.trans hf) (by simp)

/-! ### What leaves the trees as they are -/

/-- The swap files are those of the tables, where no table goes. -/
theorem Wf.swap_of_tables (h : Wf m) (hswap : m'.swap = m.swap)
    (htable : ∀ pid i t, m.Table pid i t → m'.Table pid i t) (p : Ptr) (hp : m'.swap p ≠ none) :
    p.2 < NUM_ENTRIES ∧ ∃ pid i, m'.Table pid i p.1 := by
  rw [hswap] at hp
  obtain ⟨hlt, pid, i, ht⟩ := h.swap p hp
  exact ⟨hlt, pid, i, htable pid i p.1 ht⟩

/-- And the TLB has entries of the current process. -/
theorem Wf.tlb_of_tables (h : Wf m) (htlb : m'.tlb = m.tlb) (hcurr : m'.curr_pid = m.curr_pid)
    (htable : ∀ pid i t, m.Table pid i t → m'.Table pid i t) (v : ℕ) (p : Ptr)
    (hv : m'.tlb v = some p) : m'.Table m'.curr_pid (VPN0 v) p.1 ∧ p.2 = VPN1 v := by
  rw [htlb] at hv
  obtain ⟨ht, hj⟩ := h.tlb v p hv
  rw [hcurr]
  exact ⟨htable _ _ _ ht, hj⟩

/-- Bytes, counters and the other bits of the entries play no part. -/
theorem Wf.congr (h : Wf m) (hpd : m'.page_directories = m.page_directories)
    (hseg : m'.segmentations = m.segmentations) (huse : m'.use = m.use)
    (hswap : m'.swap = m.swap) (htlb : m'.tlb = m.tlb) (hcurr : m'.curr_pid = m.curr_pid)
    (hent : ∀ p, (m'.entries p).present = (m.entries p).present ∧
      (m'.entries p).base_addr = (m.entries p).base_addr) : Wf m' := by
  have htable : ∀ {pid i t}, m'.Table pid i t ↔ m.Table pid i t :=
    table_congr hpd (fun _ d i _ => hent (d, i))
  refine ⟨?_, ?_, ?_, ?_, ?_, ?_, ?_, ?_, ?_, ?_⟩
  · rw [hseg, hpd]
    exact h.segmentations
  · rw [hpd, huse]
    exact h.directory
  · rw [hpd]
    exact h.directory_inj
  · intro pid i t ht
    rw [huse]
    exact h.table pid i t (htable.mp ht)
  · intro pid i t pid' ht
    rw [hpd]
    exact h.table_ne pid i t pid' (htable.mp ht)
  · intro pid i pid' i' t ht ht'
    exact h.table_inj pid i pid' i' t (htable.mp ht) (htable.mp ht')
  · intro pid i t j ht hp
    rw [(hent (t, j)).2, huse]
    exact h.page pid i t j (htable.mp ht) ((hent (t, j)).1.symm.trans hp)
  · intro f p hf
    rw [huse] at hf
    obtain ⟨⟨pid, i, ht⟩, h1, h2⟩ := h.owner f p hf
    exact ⟨⟨pid, i, htable.mpr ht⟩, (hent p).1.trans h1, (hent p).2.trans h2⟩
  · exact h.swap_of_tables hswap fun _ _ _ => htable.mpr
  · exact h.tlb_of_tables htlb hcurr fun _ _ _ => htable.mpr

/-- Another TLB. -/
theorem Wf.with_tlb (h : Wf m) (tlb : ℕ → Option Ptr) (curr_pid : ℕ)
    (htlb : ∀ v p, tlb v = some p → m.Table curr_pid (VPN0 v) p.1 ∧ p.2 = VPN1 v) :
    Wf { m with tlb := tlb, curr_pid := curr_pid } :=
  ⟨h.segmentations, h.directory, h.directory_inj, h.table, h.table_ne, h.table_inj, h.page,
    h.owner, h.swap, htlb⟩

/-- The bits of an entry that say nothing of its frame. -/
theorem Wf.set_bits (h : Wf m) (p : Ptr) (hp : e.present = (m.entries p).present)
    (hb : e.base_addr = (m.entries p).base_addr) : Wf (m.set p e) := by
  refine h.congr rfl rfl rfl rfl rfl rfl (fun q => ?_)
  unfold Machine.set
  dsimp only
  by_cases hq : q = p
  · rw [hq, Function.update_self]
    exact ⟨hp, hb⟩
  · rw [Function.update_of_ne hq]
    exact ⟨rfl, rfl⟩

/-! ### The entries after a step -/

@[simp] theorem entries_set_self (m : Machine) (p : Ptr) (e : Entry) :
    (m.set p e).entries p = e := Function.update_self ..

theorem entries_set_ne (m : Machine) (e : Entry) (h : q ≠ p) :
    (m.set p e).entries q = m.entries q := Function.update_of_ne h ..

theorem entries_grant_ne (m : Machine) (u : Use) (h : q.1 ≠ f) :
    (m.grant u f).entries q = m.entries q := if_neg h

theorem entries_grant_self (m : Machine) (u : Use) (f : Frame) (j : ℕ) :
    (m.grant u f).entries (f, j) = .zero := if_pos rfl

@[simp] theorem use_grant_self (m : Machine) (u : Use) (f : Frame) : (m.grant u f).use f = u :=
  Function.update_self ..

theorem entries_evict_ne (m : Machine) (f : Frame) (h : q ≠ p) :
    (m.evict p f).entries q = m.entries q := Function.update_of_ne h ..

theorem entries_evict_self (m : Machine) (p : Ptr) (f : Frame) :
    (m.evict p f).entries p = { m.entries p with present := false } := Function.update_self ..

theorem use_evict_self (m : Machine) (p : Ptr) (f : Frame) : (m.evict p f).use f = .free :=
  Function.update_self ..

/-! ### The steps -/

/-- The entry of a page is in no directory. -/
theorem Wf.directory_ne (h : Wf m) (ht : m.Table pid i p.1) (hd : m.page_directories pid' = some d)
    (k : ℕ) : (d, k) ≠ p := by
  rintro rfl
  exact h.table_ne pid i d pid' ht hd

theorem Wf.table_evict (h : Wf m) (hp : m.use f = .page p) :
    (m.evict p f).Table pid i t ↔ m.Table pid i t := by
  obtain ⟨⟨pid', i', ht⟩, -, -⟩ := h.owner f p hp
  refine table_congr rfl (fun _ d k hd => ?_)
  rw [entries_evict_ne m f (h.directory_ne ht hd k)]
  exact ⟨rfl, rfl⟩

/-- **The eviction of a page.** -/
theorem Wf.evict (h : Wf m) (hp : m.use f = .page p) : Wf (m.evict p f) := by
  have htable : ∀ {pid i t}, (m.evict p f).Table pid i t ↔ m.Table pid i t := h.table_evict hp
  obtain ⟨howner, hpresent, hbase⟩ := h.owner f p hp
  -- the frame of a directory or of a table is not that of a page
  have huse : ∀ {g u}, m.use g = u → u ≠ .page p → (m.evict p f).use g = u := by
    intro g u hg hu
    have hne : g ≠ f := by
      rintro rfl
      exact hu (hg.symm.trans hp)
    exact (Function.update_of_ne hne ..).trans hg
  refine ⟨h.segmentations, ?_, h.directory_inj, ?_, ?_, ?_, ?_, ?_, ?_, ?_⟩
  · intro pid d hd
    exact huse (h.directory pid d hd) (by simp)
  · intro pid i t ht
    obtain ⟨hpin, hlt⟩ := h.table pid i t (htable.mp ht)
    exact ⟨huse hpin (by simp), hlt⟩
  · intro pid i t pid' ht
    exact h.table_ne pid i t pid' (htable.mp ht)
  · intro pid i pid' i' t ht ht'
    exact h.table_inj pid i pid' i' t (htable.mp ht) (htable.mp ht')
  · intro pid i t j ht hpres
    have hne : (t, j) ≠ p := by
      intro heq
      rw [heq, entries_evict_self] at hpres
      exact absurd hpres (by simp)
    rw [entries_evict_ne m f hne] at hpres ⊢
    obtain ⟨hlt, hu⟩ := h.page pid i t j (htable.mp ht) hpres
    exact ⟨hlt, huse hu (by simpa using hne)⟩
  · intro g q hg
    have hgf : g ≠ f := by
      rintro rfl
      exact absurd ((use_evict_self m p g).symm.trans hg) (by simp)
    have hg' : m.use g = .page q := (Function.update_of_ne hgf ..).symm.trans hg
    obtain ⟨⟨pid, i, ht⟩, h1, h2⟩ := h.owner g q hg'
    have hne : q ≠ p := by
      rintro rfl
      exact hgf (h2.symm.trans hbase)
    rw [entries_evict_ne m f hne]
    exact ⟨⟨pid, i, htable.mpr ht⟩, h1, h2⟩
  · intro q hq
    by_cases hqp : q = p
    · subst hqp
      obtain ⟨pid, i, ht⟩ := howner
      exact ⟨(h.page pid i q.1 q.2 ht hpresent).1, pid, i, htable.mpr ht⟩
    · obtain ⟨hlt, pid, i, ht⟩ := h.swap q
        (fun hnone => hq ((Function.update_of_ne hqp ..).trans hnone))
      exact ⟨hlt, pid, i, htable.mpr ht⟩
  · exact h.tlb_of_tables rfl rfl fun _ _ _ => htable.mpr

/-- A frame in which the kernel evicts what is there. -/
theorem Wf.vacate (h : Wf m) (f : Frame) : Wf (m.vacate f) := by
  unfold Machine.vacate
  split
  · rename_i p hp
    exact h.evict hp
  · exact h

/-- **A page directory** for a new process. -/
theorem Wf.add_directory (h : Wf m) (hf : m.use f = .free) (hpid : m.page_directories pid = none)
    (segs : vm_segmentations) : Wf { m.grant .pinned f with
      page_directories := Function.update m.page_directories pid (some f),
      segmentations := Function.update m.segmentations pid (some segs) } := by
  obtain ⟨hdir, htab, hpage⟩ := h.ne_of_free hf
  obtain ⟨m', hm'⟩ : ∃ m' : Machine, m' = { m.grant .pinned f with
      page_directories := Function.update m.page_directories pid (some f),
      segmentations := Function.update m.segmentations pid (some segs) } := ⟨_, rfl⟩
  rw [← hm']
  have hpd : ∀ {pid' d}, m'.page_directories pid' = some d →
      pid' = pid ∧ d = f ∨ pid' ≠ pid ∧ m.page_directories pid' = some d := by
    intro pid' d hd
    rw [hm'] at hd
    dsimp only at hd
    by_cases heq : pid' = pid
    · rw [heq, Function.update_self] at hd
      exact .inl ⟨heq, (Option.some.inj hd).symm⟩
    · rw [Function.update_of_ne heq] at hd
      exact .inr ⟨heq, hd⟩
  have hent : ∀ {q : Ptr}, q.1 ≠ f → m'.entries q = m.entries q := by
    intro q hq
    rw [hm']
    exact if_neg hq
  have huse : ∀ {g}, g ≠ f → m'.use g = m.use g := by
    intro g hg
    rw [hm']
    exact Function.update_of_ne hg ..
  have hself : m'.use f = .pinned := by
    rw [hm']
    exact Function.update_self ..
  -- the new directory is empty
  have htable : ∀ {pid' i t}, m'.Table pid' i t ↔ m.Table pid' i t := by
    intro pid' i t
    constructor
    · rintro ⟨d, hd, h1, h2⟩
      rcases hpd hd with ⟨-, rfl⟩ | ⟨-, hd⟩
      · rw [hm'] at h1
        have hzero : (m.grant .pinned d).entries (d, i) = .zero := entries_grant_self m _ d i
        exact absurd ((congrArg Entry.present hzero).symm.trans h1) (by simp [Entry.zero])
      · have hne : d ≠ f := fun heq => hdir pid' (heq ▸ hd)
        rw [hent hne] at h1 h2
        exact ⟨d, hd, h1, h2⟩
    · rintro ⟨d, hd, h1, h2⟩
      have hne : d ≠ f := fun heq => hdir pid' (heq ▸ hd)
      have hpid' : pid' ≠ pid := by
        rintro rfl
        exact absurd (hpid.symm.trans hd) (by simp)
      refine ⟨d, ?_, (hent (q := (d, i)) hne).symm ▸ h1, (hent (q := (d, i)) hne).symm ▸ h2⟩
      rw [hm']
      exact (Function.update_of_ne hpid' ..).trans hd
  refine ⟨?_, ?_, ?_, ?_, ?_, ?_, ?_, ?_, ?_, ?_⟩
  · intro pid'
    rw [hm']
    dsimp only
    by_cases heq : pid' = pid
    · rw [heq, Function.update_self, Function.update_self]
      rfl
    · rw [Function.update_of_ne heq, Function.update_of_ne heq]
      exact h.segmentations pid'
  · intro pid' d hd
    rcases hpd hd with ⟨-, rfl⟩ | ⟨-, hd⟩
    · exact hself
    · rw [huse (fun heq => hdir pid' (heq ▸ hd))]
      exact h.directory pid' d hd
  · intro pid₁ pid₂ d h₁ h₂
    rcases hpd h₁ with ⟨rfl, rfl⟩ | ⟨-, h₁⟩ <;> rcases hpd h₂ with ⟨rfl, hd⟩ | ⟨-, h₂⟩
    · rfl
    · exact absurd h₂ (hdir pid₂)
    · exact absurd (hd ▸ h₁) (hdir pid₁)
    · exact h.directory_inj pid₁ pid₂ d h₁ h₂
  · intro pid' i t ht
    have ht' := htable.mp ht
    rw [huse (fun heq => htab pid' i (heq ▸ ht'))]
    exact h.table pid' i t ht'
  · intro pid' i t pid₂ ht hd
    have ht' := htable.mp ht
    rcases hpd hd with ⟨-, rfl⟩ | ⟨-, hd⟩
    · exact htab pid' i ht'
    · exact h.table_ne pid' i t pid₂ ht' hd
  · intro pid₁ i₁ pid₂ i₂ t h₁ h₂
    exact h.table_inj pid₁ i₁ pid₂ i₂ t (htable.mp h₁) (htable.mp h₂)
  · intro pid' i t j ht hp
    have ht' := htable.mp ht
    rw [hent (q := (t, j)) (fun heq => htab pid' i (heq ▸ ht'))] at hp ⊢
    rw [huse (hpage pid' i t j ht' hp)]
    exact h.page pid' i t j ht' hp
  · intro g q hg
    have hne : g ≠ f := by
      rintro rfl
      exact absurd (hself.symm.trans hg) (by simp)
    rw [huse hne] at hg
    obtain ⟨⟨pid', i, ht⟩, h1, h2⟩ := h.owner g q hg
    rw [hent (fun heq => htab pid' i (heq ▸ ht))]
    exact ⟨⟨pid', i, htable.mpr ht⟩, h1, h2⟩
  · exact h.swap_of_tables (by rw [hm']; rfl) fun _ _ _ => htable.mpr
  · exact h.tlb_of_tables (by rw [hm']; rfl) (by rw [hm']; rfl) fun _ _ _ => htable.mpr

/-- **A page table** behind an entry of a directory. -/
theorem Wf.add_table (h : Wf m) (hf : m.use f = .free) (hd : m.page_directories pid = some d)
    (hi : i < NUM_ENTRIES) (hnot : (m.entries (d, i)).present = false) (hp : e.present = true)
    (hb : e.base_addr = f) : Wf ((m.grant .pinned f).set (d, i) e) := by
  obtain ⟨hdir, htab, hpage⟩ := h.ne_of_free hf
  obtain ⟨m', hm'⟩ : ∃ m', m' = (m.grant .pinned f).set (d, i) e := ⟨_, rfl⟩
  rw [← hm']
  have hpd : m'.page_directories = m.page_directories := by rw [hm']; rfl
  have hself : m'.entries (d, i) = e := by rw [hm', entries_set_self]
  have hent : ∀ {q : Ptr}, q ≠ (d, i) → q.1 ≠ f → m'.entries q = m.entries q := by
    intro q hq hqf
    rw [hm', entries_set_ne _ _ hq, entries_grant_ne _ _ hqf]
  have hzero : ∀ k, (m'.entries (f, k)).present = false := by
    intro k
    have hne : (f, k) ≠ (d, i) := fun heq => hdir pid ((Prod.mk.inj heq).1 ▸ hd)
    rw [hm', entries_set_ne _ _ hne, entries_grant_self]
    rfl
  have huse : ∀ {g}, g ≠ f → m'.use g = m.use g := by
    intro g hg
    rw [hm']
    exact Function.update_of_ne hg ..
  have hpin : m'.use f = .pinned := by
    rw [hm']
    exact Function.update_self ..
  -- there is one more table
  have htable : ∀ {pid' i' t}, m'.Table pid' i' t ↔
      m.Table pid' i' t ∨ pid' = pid ∧ i' = i ∧ t = f := by
    intro pid' i' t
    constructor
    · rintro ⟨d', hd', h1, h2⟩
      rw [hpd] at hd'
      by_cases heq : (d', i') = (d, i)
      · obtain ⟨rfl, rfl⟩ := Prod.mk.inj heq
        refine .inr ⟨h.directory_inj pid' pid d' hd' hd, rfl, ?_⟩
        rw [← h2, hself, hb]
      · have hne : d' ≠ f := fun heq => hdir pid' (heq ▸ hd')
        rw [hent heq hne] at h1 h2
        exact .inl ⟨d', hd', h1, h2⟩
    · rintro (⟨d', hd', h1, h2⟩ | ⟨rfl, rfl, rfl⟩)
      · have heq : (d', i') ≠ (d, i) := by
          intro heq
          rw [heq, hnot] at h1
          exact absurd h1 (by simp)
        have hne : d' ≠ f := fun heq => hdir pid' (heq ▸ hd')
        have hsame := hent heq hne
        exact ⟨d', hpd ▸ hd', hsame.symm ▸ h1, hsame.symm ▸ h2⟩
      · exact ⟨d, hpd ▸ hd, hself.symm ▸ hp, hself.symm ▸ hb⟩
  have hold : ∀ {pid' i' t}, m.Table pid' i' t → t ≠ f ∧ ∀ k, m'.entries (t, k) = m.entries (t, k) := by
    intro pid' i' t ht
    have hne : t ≠ f := fun heq => htab pid' i' (heq ▸ ht)
    refine ⟨hne, fun k => hent (fun heq => ?_) hne⟩
    exact h.table_ne pid' i' t pid ht ((Prod.mk.inj heq).1.symm ▸ hd)
  refine ⟨?_, ?_, ?_, ?_, ?_, ?_, ?_, ?_, ?_, ?_⟩
  · rw [hpd, hm']
    exact h.segmentations
  · intro pid' d' hd'
    rw [hpd] at hd'
    rw [huse (fun heq => hdir pid' (heq ▸ hd'))]
    exact h.directory pid' d' hd'
  · rw [hpd]
    exact h.directory_inj
  · intro pid' i' t ht
    rcases htable.mp ht with ht | ⟨rfl, rfl, rfl⟩
    · rw [huse (hold ht).1]
      exact h.table pid' i' t ht
    · exact ⟨hpin, hi⟩
  · intro pid' i' t pid₂ ht
    rw [hpd]
    rcases htable.mp ht with ht | ⟨rfl, rfl, rfl⟩
    · exact h.table_ne pid' i' t pid₂ ht
    · exact hdir pid₂
  · intro pid₁ i₁ pid₂ i₂ t h₁ h₂
    rcases htable.mp h₁ with h₁ | ⟨rfl, rfl, rfl⟩ <;> rcases htable.mp h₂ with h₂ | ⟨rfl, rfl, ht⟩
    · exact h.table_inj pid₁ i₁ pid₂ i₂ t h₁ h₂
    · exact absurd (ht ▸ h₁) (htab pid₁ i₁)
    · exact absurd h₂ (htab pid₂ i₂)
    · exact ⟨rfl, rfl⟩
  · intro pid' i' t j ht hpres
    rcases htable.mp ht with ht | ⟨-, -, rfl⟩
    · rw [(hold ht).2 j] at hpres ⊢
      rw [huse (hpage pid' i' t j ht hpres)]
      exact h.page pid' i' t j ht hpres
    · exact absurd hpres (by simp [hzero])
  · intro g q hg
    have hne : g ≠ f := by
      rintro rfl
      exact absurd (hpin.symm.trans hg) (by simp)
    rw [huse hne] at hg
    obtain ⟨⟨pid', i', ht⟩, h1, h2⟩ := h.owner g q hg
    have hsame : m'.entries q = m.entries q := (hold ht).2 q.2
    rw [hsame]
    exact ⟨⟨pid', i', htable.mpr (.inl ht)⟩, h1, h2⟩
  · exact h.swap_of_tables (by rw [hm']; rfl) fun _ _ _ ht => htable.mpr (.inl ht)
  · exact h.tlb_of_tables (by rw [hm']; rfl) (by rw [hm']; rfl) fun _ _ _ ht => htable.mpr (.inl ht)

/-- **A page** behind an entry of a table. -/
theorem Wf.add_page (h : Wf m) (hf : m.use f = .free) (ht : m.Table pid i p.1)
    (hj : p.2 < NUM_ENTRIES) (hnot : (m.entries p).present = false) (hp : e.present = true)
    (hb : e.base_addr = f) : Wf ((m.grant (.page p) f).set p e) := by
  obtain ⟨hdir, htab, hpage⟩ := h.ne_of_free hf
  obtain ⟨m', hm'⟩ : ∃ m', m' = (m.grant (.page p) f).set p e := ⟨_, rfl⟩
  rw [← hm']
  have hpd : m'.page_directories = m.page_directories := by rw [hm']; rfl
  have hself : m'.entries p = e := by rw [hm', entries_set_self]
  have hent : ∀ {q : Ptr}, q ≠ p → q.1 ≠ f → m'.entries q = m.entries q := by
    intro q hq hqf
    rw [hm', entries_set_ne _ _ hq, entries_grant_ne _ _ hqf]
  have huse : ∀ {g}, g ≠ f → m'.use g = m.use g := by
    intro g hg
    rw [hm']
    exact Function.update_of_ne hg ..
  have hown : m'.use f = .page p := by
    rw [hm']
    exact Function.update_self ..
  -- the entry that is written is one of a table, so that no directory changes
  have htable : ∀ {pid' i' t}, m'.Table pid' i' t ↔ m.Table pid' i' t := by
    intro pid' i' t
    refine table_congr hpd (fun pid₁ d k hd => ?_)
    rw [hent (h.directory_ne ht hd k) (fun heq => hdir pid₁ (heq ▸ hd))]
    exact ⟨rfl, rfl⟩
  have hold : ∀ {pid' i' t}, m.Table pid' i' t → t ≠ f :=
    fun {pid' i' t} ht heq => htab pid' i' (heq ▸ ht)
  refine ⟨?_, ?_, ?_, ?_, ?_, ?_, ?_, ?_, ?_, ?_⟩
  · rw [hpd, hm']
    exact h.segmentations
  · intro pid' d' hd'
    rw [hpd] at hd'
    rw [huse (fun heq => hdir pid' (heq ▸ hd'))]
    exact h.directory pid' d' hd'
  · rw [hpd]
    exact h.directory_inj
  · intro pid' i' t ht'
    have ht' := htable.mp ht'
    rw [huse (hold ht')]
    exact h.table pid' i' t ht'
  · intro pid' i' t pid₂ ht'
    rw [hpd]
    exact h.table_ne pid' i' t pid₂ (htable.mp ht')
  · intro pid₁ i₁ pid₂ i₂ t h₁ h₂
    exact h.table_inj pid₁ i₁ pid₂ i₂ t (htable.mp h₁) (htable.mp h₂)
  · intro pid' i' t j ht' hpres
    have ht' := htable.mp ht'
    by_cases heq : (t, j) = p
    · subst heq
      rw [hself, hb, hown]
      exact ⟨hj, rfl⟩
    · rw [hent heq (hold ht')] at hpres ⊢
      rw [huse (hpage pid' i' t j ht' hpres)]
      exact h.page pid' i' t j ht' hpres
  · intro g q hg
    -- the frame is used by the entry that was written, and by no other
    by_cases hne : g = f
    · subst hne
      obtain rfl := Use.page.inj (hown.symm.trans hg)
      rw [hself]
      exact ⟨⟨pid, i, htable.mpr ht⟩, hp, hb⟩
    · rw [huse hne] at hg
      obtain ⟨⟨pid', i', ht'⟩, h1, h2⟩ := h.owner g q hg
      have heq : q ≠ p := by
        rintro rfl
        exact absurd (hnot.symm.trans h1) (by simp)
      rw [hent heq (hold ht')]
      exact ⟨⟨pid', i', htable.mpr ht'⟩, h1, h2⟩
  · exact h.swap_of_tables (by rw [hm']; rfl) fun _ _ _ => htable.mpr
  · exact h.tlb_of_tables (by rw [hm']; rfl) (by rw [hm']; rfl) fun _ _ _ => htable.mpr

end SystemProgramming.Mmu
