import SystemProgramming.Mmu.Memory

namespace SystemProgramming.Mmu

/-!
# `ideal_indirection/mmu.c` — the permissions of the pages

The write bit of an entry is set where its page is brought in, by two functions and at the
creation of a process.

* `Kept` — what a step leaves of the bits of the entries.
* `segment_unique` — a page is in one segment.
* `Guarded` — the write bits are those of the segments.
-/

variable {h : Header} {m m' m₁ : Machine} {pid k i v : ℕ} {f d : Frame} {p : Ptr}
  {segs : vm_segmentations} {addr : UInt32} {e : Entry} {X : Ptr → Prop}

/-! ### The bits of the entries -/

/-- The frames with entries: the directories and the tables. -/
def Machine.Tree (m : Machine) (f : Frame) : Prop :=
  (∃ k, m.page_directories k = some f) ∨ ∃ k i, m.Table k i f

/-- No page outside `X` gets present, and no permission of one and no dirty bit changes. -/
structure Kept (X : Ptr → Prop) (m m' : Machine) : Prop where
  directory : ∀ (k : ℕ) (d : Frame), m.page_directories k = some d → m'.page_directories k = some d
  table : ∀ (k i : ℕ) (t : Frame), m.Table k i t → m'.Table k i t
  page : ∀ (k i : ℕ) (q : Ptr), m'.Table k i q.1 → ¬ X q → (m'.entries q).present = true →
    m.Table k i q.1 ∧ (m.entries q).present = true ∧
      (m'.entries q).read_write = (m.entries q).read_write
  dirty : ∀ q : Ptr, m.Tree q.1 → (m'.entries q).dirty = (m.entries q).dirty

/-- Nothing is excepted. -/
abbrev Nowhere : Ptr → Prop := fun _ => False

theorem Kept.refl (m : Machine) : Kept Nowhere m m :=
  ⟨fun _ _ hd => hd, fun _ _ _ ht => ht, fun _ _ _ ht _ hp => ⟨ht, hp, rfl⟩, fun _ _ => rfl⟩

theorem Kept.mono {Y : Ptr → Prop} (hk : Kept X m m') (hle : ∀ q, X q → Y q) : Kept Y m m' :=
  ⟨hk.directory, hk.table, fun k i q ht hq hp => hk.page k i q ht (fun hx => hq (hle q hx)) hp,
    hk.dirty⟩

theorem Kept.tree (hk : Kept X m m') (ht : m.Tree f) : m'.Tree f := by
  rcases ht with ⟨k, hd⟩ | ⟨k, i, ht⟩
  · exact .inl ⟨k, hk.directory k f hd⟩
  · exact .inr ⟨k, i, hk.table k i f ht⟩

theorem Kept.trans (hk : Kept X m m₁) (hk' : Kept X m₁ m') : Kept X m m' := by
  refine ⟨fun k d hd => hk'.directory k d (hk.directory k d hd),
    fun k i t ht => hk'.table k i t (hk.table k i t ht), ?_, ?_⟩
  · intro k i q ht hq hp
    obtain ⟨ht₁, hp₁, hrw₁⟩ := hk'.page k i q ht hq hp
    obtain ⟨ht₀, hp₀, hrw₀⟩ := hk.page k i q ht₁ hq hp₁
    exact ⟨ht₀, hp₀, hrw₁.trans hrw₀⟩
  · intro q ht
    rw [hk'.dirty q (hk.tree ht), hk.dirty q ht]

/-- Steps that change no more of the entries than a bit of no concern. -/
theorem kept_of_entries (hpd : m'.page_directories = m.page_directories)
    (hent : ∀ q, (m'.entries q).base_addr = (m.entries q).base_addr ∧
      ((m'.entries q).present = true → (m.entries q).present = true) ∧
      (m'.entries q).read_write = (m.entries q).read_write ∧
      (m'.entries q).dirty = (m.entries q).dirty)
    (hdir : ∀ k d i, m.page_directories k = some d →
      (m'.entries (d, i)).present = (m.entries (d, i)).present) : Kept Nowhere m m' := by
  have htable : ∀ {k i t}, m'.Table k i t ↔ m.Table k i t := by
    intro k i t
    apply table_congr hpd
    intro k d i hd
    exact ⟨hdir k d i hd, (hent (d, i)).1⟩
  refine ⟨fun k d hd => hpd ▸ hd, fun k i t ht => htable.mpr ht, ?_, fun q _ => (hent q).2.2.2⟩
  intro k i q ht _ hp
  exact ⟨htable.mp ht, (hent q).2.1 hp, (hent q).2.2.1⟩

/-- Steps that leave the entries alone. -/
theorem kept_quiet (hpd : m'.page_directories = m.page_directories)
    (hent : m'.entries = m.entries) : Kept Nowhere m m' := by
  apply kept_of_entries hpd
  · intro q
    rw [hent]
    exact ⟨rfl, id, rfl, rfl⟩
  · intro k d i _
    rw [hent]

theorem kept_vacate (hwf : Wf m) (f : Frame) : Kept Nowhere m (m.vacate f) := by
  unfold Machine.vacate
  split
  · rename_i p hp
    obtain ⟨⟨pid, i, ht⟩, -, -⟩ := hwf.owner f p hp
    apply kept_of_entries
    · rfl
    · intro q
      by_cases hne : q = p
      · rw [hne, entries_evict_self]
        exact ⟨rfl, fun hfalse => absurd hfalse (by simp), rfl, rfl⟩
      · rw [entries_evict_ne m f hne]
        exact ⟨rfl, id, rfl, rfl⟩
    · intro k d j hd
      rw [entries_evict_ne m f (hwf.directory_ne ht hd j)]
  · exact .refl m

/-- A new page table is empty. -/
theorem kept_table (hwf : Wf m) (hf : m.use f = .free) (hd : m.page_directories pid = some d)
    (hi : i < NUM_ENTRIES) (hnot : (m.entries (d, i)).present = false) (hp : e.present = true)
    (hb : e.base_addr = f) (hdirty : e.dirty = ((m.grant .pinned f).entries (d, i)).dirty) :
    Kept Nowhere m ((m.grant .pinned f).set (d, i) e) := by
  have hmove : Move m ((m.grant .pinned f).set (d, i) e) := .table pid d i f e hf hd hi hnot hp hb
  have hwf' := hmove.wf hwf
  obtain ⟨hdir, htab, -⟩ := hwf.ne_of_free hf
  have hent : ∀ {q : Ptr}, q ≠ (d, i) → q.1 ≠ f →
      ((m.grant .pinned f).set (d, i) e).entries q = m.entries q := by
    intro q hq hqf
    rw [entries_set_ne _ _ hq, entries_grant_ne _ _ hqf]
  refine ⟨fun _ _ hd => hd, fun k i t ht => hmove.table_mono hwf ht, ?_, ?_⟩
  · intro k i' q ht _ hpres
    have hq : q ≠ (d, i) := fun heq => hwf'.directory_ne ht hd i heq.symm
    by_cases hqf : q.1 = f
    · -- it would be an entry of the new table
      have hzero : ((m.grant .pinned f).set (d, i) e).entries q = .zero := by
        rw [entries_set_ne _ _ hq]
        exact if_pos hqf
      rw [hzero] at hpres
      exact absurd hpres (by simp [Entry.zero])
    · rw [hent hq hqf] at hpres ⊢
      refine ⟨?_, hpres, rfl⟩
      obtain ⟨d', hd', h1, h2⟩ := ht
      have hd'f : d' ≠ f := fun heq => hdir k (heq ▸ hd')
      have hne : (d', i') ≠ (d, i) := by
        intro heq
        rw [heq, entries_set_self] at h2
        exact hqf (h2.symm.trans hb)
      rw [hent hne hd'f] at h1 h2
      exact ⟨d', hd', h1, h2⟩
  · intro q ht
    have hqf : q.1 ≠ f := by
      rintro rfl
      rcases ht with ⟨k, hk⟩ | ⟨k, i', ht⟩
      · exact hdir k hk
      · exact htab k i' ht
    by_cases hq : q = (d, i)
    · rw [hq, entries_set_self, hdirty, entries_grant_ne _ _ (hq ▸ hqf)]
    · rw [hent hq hqf]

/-- A page that is brought in. -/
theorem kept_page (hwf : Wf m) (hf : m.use f = .free) (ht : m.Table pid i p.1)
    (hdirty : e.dirty = ((m.grant (.page p) f).entries p).dirty) :
    Kept (fun q => q = p) m ((m.grant (.page p) f).set p e) := by
  obtain ⟨hdir, htab, -⟩ := hwf.ne_of_free hf
  have hent : ∀ {q : Ptr}, q ≠ p → q.1 ≠ f →
      ((m.grant (.page p) f).set p e).entries q = m.entries q := by
    intro q hq hqf
    rw [entries_set_ne _ _ hq, entries_grant_ne _ _ hqf]
  have htable : ∀ {k i t}, ((m.grant (.page p) f).set p e).Table k i t ↔ m.Table k i t := by
    intro k i' t'
    refine table_congr rfl (fun k d i' hd => ?_)
    rw [hent (hwf.directory_ne ht hd i') (fun heq => hdir k (heq ▸ hd))]
    exact ⟨rfl, rfl⟩
  refine ⟨fun _ _ hd => hd, fun k i t ht => htable.mpr ht, ?_, ?_⟩
  · intro k i' q htq hq hpres
    have htq' := htable.mp htq
    rw [hent hq (fun heq => htab k i' (heq ▸ htq'))] at hpres ⊢
    exact ⟨htq', hpres, rfl⟩
  · intro q htq
    have hqf : q.1 ≠ f := by
      rintro rfl
      rcases htq with ⟨k, hk⟩ | ⟨k, i', htq⟩
      · exact hdir k hk
      · exact htab k i' htq
    by_cases hq : q = p
    · rw [hq, entries_set_self, hdirty, entries_grant_ne _ _ (hq ▸ hqf)]
    · rw [hent hq hqf]

/-- A new directory is empty. -/
theorem kept_joined (hwf : Wf m) (hf : m.use f = .free) (hpid : m.page_directories pid = none)
    (segs : vm_segmentations) : Kept Nowhere m (m.joined pid segs f) := by
  obtain ⟨hdir, htab, -⟩ := hwf.ne_of_free hf
  have hent : ∀ {q : Ptr}, q.1 ≠ f → (m.joined pid segs f).entries q = m.entries q :=
    fun hq => if_neg hq
  have hd : ∀ {k d}, m.page_directories k = some d →
      d ≠ f ∧ (m.joined pid segs f).page_directories k = some d := by
    intro k d hd
    have hne : k ≠ pid := by
      rintro rfl
      exact absurd (hpid.symm.trans hd) (by simp)
    exact ⟨fun heq => hdir k (heq ▸ hd), (Function.update_of_ne hne ..).trans hd⟩
  have htable : ∀ {k i t}, (m.joined pid segs f).Table k i t ↔ m.Table k i t := by
    intro k i t
    constructor
    · rintro ⟨d, hd', h1, h2⟩
      by_cases hk : k = pid
      · -- it would be an entry of the new directory
        have hnew : (m.joined pid segs f).page_directories pid = some f := Function.update_self ..
        have heq : f = d := Option.some.inj (hnew.symm.trans (hk ▸ hd'))
        have hzero : (m.joined pid segs f).entries (d, i) = .zero := if_pos heq.symm
        rw [hzero] at h1
        exact absurd h1 (by simp [Entry.zero])
      · have hd₀ : m.page_directories k = some d := (Function.update_of_ne hk ..).symm.trans hd'
        rw [hent (q := (d, i)) (hd hd₀).1] at h1 h2
        exact ⟨d, hd₀, h1, h2⟩
    · rintro ⟨d, hd₀, h1, h2⟩
      refine ⟨d, (hd hd₀).2, ?_⟩
      rw [hent (q := (d, i)) (hd hd₀).1]
      exact ⟨h1, h2⟩
  refine ⟨fun k d hk => (hd hk).2, fun k i t ht => htable.mpr ht, ?_, ?_⟩
  · intro k i q ht _ hp
    have ht₀ := htable.mp ht
    rw [hent (fun heq => htab k i (heq ▸ ht₀))] at hp ⊢
    exact ⟨ht₀, hp, rfl⟩
  · intro q ht
    have hqf : q.1 ≠ f := by
      rintro rfl
      rcases ht with ⟨k, hk⟩ | ⟨k, i, ht⟩
      · exact hdir k hk
      · exact htab k i ht
    rw [hent hqf]

/-- **A page fault**: one page is brought in, with the permission of its segment. -/
theorem kept_page_in (hwf : Wf m) (ht : m.Table pid i p.1)
    (hp : page_in h segs addr p f m = .ok m') :
    m' = m ∨ Kept (fun q => q = p) m m' ∧ ∃ seg, h.find_segment segs addr = some seg ∧
      (m'.entries p).read_write = decide (seg.permissions &&& 2 ≠ 0) := by
  by_cases hpresent : (m.entries p).present = true
  · left
    unfold page_in at hp
    rw [if_pos hpresent] at hp
    exact (Except.ok.inj hp).symm
  right
  have hnot : (m.entries p).present = false := by simpa using hpresent
  obtain ⟨m₁, seg, hm₁, hfree, hseg, rfl⟩ := page_in_eq hnot hp
  have hwf₀ : Wf (mmu_raise_page_fault m) := (moves_page_fault m).wf hwf
  have hkept₁ : Kept Nowhere m m₁ := by
    have hfault : Kept Nowhere m (mmu_raise_page_fault m) := kept_quiet rfl rfl
    exact hfault.trans (hm₁ ▸ kept_vacate hwf₀ f)
  have hwf₁ : Wf m₁ := (hm₁ ▸ moves_fault_vacate m f : Moves m m₁).wf hwf
  have hpage := kept_page (e := { (m₁.grant (.page p) f).entries p with
    base_addr := f, present := true, read_write := decide (seg.permissions &&& 2 ≠ 0),
    user_supervisor := true }) hwf₁ hfree (hkept₁.table pid i p.1 ht) rfl
  refine ⟨(hkept₁.mono (fun _ hx => hx.elim)).trans (hpage.trans ?_), seg, hseg, ?_⟩
  · apply Kept.mono (X := Nowhere) _ (fun _ hx => hx.elim)
    exact kept_quiet rfl rfl
  · exact congrArg Entry.read_write (entries_set_self _ p _)

/-- **A page table**: it is there, or it is empty. -/
theorem kept_table_in (hwf : Wf m) (hd : m.page_directories pid = some d) (hi : i < NUM_ENTRIES)
    (ht : table_in (d, i) f m = .ok m') : Kept Nowhere m m' := by
  by_cases hpresent : (m.entries (d, i)).present = true
  · unfold table_in at ht
    rw [if_pos hpresent] at ht
    obtain rfl := Except.ok.inj ht
    exact .refl m
  have hnot : (m.entries (d, i)).present = false := by simpa using hpresent
  obtain ⟨m₁, hm₁, hfree, rfl⟩ := table_in_eq hwf hd hnot ht
  have hwf₀ : Wf (mmu_raise_page_fault m) := (moves_page_fault m).wf hwf
  have hkept₁ : Kept Nowhere m m₁ := by
    have hfault : Kept Nowhere m (mmu_raise_page_fault m) := kept_quiet rfl rfl
    exact hfault.trans (hm₁ ▸ kept_vacate hwf₀ f)
  have hmoves : Moves m m₁ := hm₁ ▸ moves_fault_vacate m f
  exact hkept₁.trans (kept_table (hmoves.wf hwf) hfree (hmoves.page_directories ▸ hd) hi
    (hm₁ ▸ absent_fault_vacate hwf f hnot) rfl rfl rfl)

/-! ### The segments -/

/-- The addresses of a segment. -/
def vm_segmentation.Contains (s : vm_segmentation) (addr : UInt32) : Prop :=
  s.start ≤ addr ∧ addr < s.stop

instance (s : vm_segmentation) (addr : UInt32) : Decidable (s.Contains addr) :=
  inferInstanceAs (Decidable (_ ∧ _))

/-- `address_in_segmentations` and `find_segment` look for the segment that contains the
    address. -/
structure Header.Locates (h : Header) : Prop where
  address : ∀ segs addr, h.address_in_segmentations segs addr = true ↔
    ∃ s, (segs s).Contains addr
  find : ∀ segs addr seg, h.find_segment segs addr = some seg →
    ∃ s, segs s = seg ∧ seg.Contains addr

/-- The first page of a segment of `mmu_add_process`, and the page behind it. -/
def Segment.pages : Segment → ℕ × ℕ
  | .STACK => (0xBFFFE, 0xC07FE)
  | .MMAP => (0xC07FE, 0xC07FE)
  | .HEAP => (0x08072, 0x08072)
  | .BSS => (0x0805A, 0x08072)
  | .DATA => (0x08052, 0x0805A)
  | .TEXT => (0x08048, 0x08052)
  | .TESTING => (1, 3)

/-- Segments begin and end with pages. -/
theorem page_of_contains {s : Segment} (hc : (segments h s).Contains addr) :
    s.pages.1 ≤ BASE_ADDR addr ∧ BASE_ADDR addr < s.pages.2 := by
  obtain ⟨h1, h2⟩ := hc
  rw [UInt32.le_iff_toNat_le] at h1
  rw [UInt32.lt_iff_toNat_lt] at h2
  unfold BASE_ADDR PAGE_SIZE
  cases s <;> simp only [segments, Segment.pages] at h1 h2 ⊢ <;> constructor <;> simp at h1 h2 <;> omega

/-- A page is in one segment. -/
theorem segment_unique {s s' : Segment} {addr' : UInt32} (hc : (segments h s).Contains addr)
    (hc' : (segments h s').Contains addr') (heq : BASE_ADDR addr = BASE_ADDR addr') : s = s' := by
  have h1 := page_of_contains hc
  have h2 := page_of_contains hc'
  rw [← heq] at h2
  cases s <;> cases s' <;> simp only [Segment.pages] at h1 h2 <;> first
    | rfl
    | omega

/-- The write bits of the pages that are present are those of their segments. -/
def Guarded (h : Header) (m : Machine) : Prop :=
  ∀ (k v : ℕ) (p : Ptr), m.walk k v = some p → (m.entries p).present = true →
    ∃ s addr, BASE_ADDR addr = v ∧ (segments h s).Contains addr ∧
      ((m.entries p).read_write = true ↔ (segments h s).permissions &&& 2 ≠ 0)

/-- What is kept is guarded, if what is brought in is. -/
theorem Guarded.of_kept (hg : Guarded h m) (hk : Kept X m m')
    (hnew : ∀ (k v : ℕ) (p : Ptr), m'.walk k v = some p → X p → (m'.entries p).present = true →
      ∃ s addr, BASE_ADDR addr = v ∧ (segments h s).Contains addr ∧
        ((m'.entries p).read_write = true ↔ (segments h s).permissions &&& 2 ≠ 0)) :
    Guarded h m' := by
  intro k v p hw hp
  by_cases hx : X p
  · exact hnew k v p hw hx hp
  · obtain ⟨ht, hj⟩ := walk_eq_some.mp hw
    obtain ⟨ht₀, hp₀, hrw⟩ := hk.page k _ p ht hx hp
    rw [hrw]
    exact hg k v p (walk_eq_some.mpr ⟨ht₀, hj⟩) hp₀

theorem Guarded.kept (hg : Guarded h m) (hk : Kept Nowhere m m') : Guarded h m' :=
  hg.of_kept hk (fun _ _ _ _ hx => hx.elim)

/-- The bits that do not matter. -/
theorem Guarded.congr (hg : Guarded h m) (hpd : m'.page_directories = m.page_directories)
    (hent : ∀ q, (m'.entries q).present = (m.entries q).present ∧
      (m'.entries q).base_addr = (m.entries q).base_addr ∧
      (m'.entries q).read_write = (m.entries q).read_write) : Guarded h m' := by
  intro k v p hw hp
  have hwalk : m'.walk k v = m.walk k v :=
    walk_congr (fun t => table_congr hpd (fun _ d i _ => ⟨(hent (d, i)).1, (hent (d, i)).2.1⟩))
  rw [(hent p).2.2]
  exact hg k v p (hwalk ▸ hw) ((hent p).1 ▸ hp)

/-- **The page of an address** is guarded when it is brought in. -/
theorem Guarded.page_in (hg : Guarded h m) (hloc : h.Locates) (hwf : Wf m)
    (hw : m.walk k (BASE_ADDR addr) = some p)
    (hp : page_in h (segments h) addr p f m = .ok m') : Guarded h m' := by
  obtain ⟨ht, hj⟩ := walk_eq_some.mp hw
  rcases kept_page_in hwf ht hp with rfl | ⟨hk, seg, hseg, hrw⟩
  · exact hg
  have hwf' : Wf m' := (page_in_spec hwf ht (hj ▸ VPN1_lt _) hp).moves.wf hwf
  apply hg.of_kept hk
  rintro k' v q hq rfl hpres
  obtain ⟨ht', hj'⟩ := walk_eq_some.mp hq
  obtain ⟨-, hi⟩ := hwf'.table_inj k' _ k _ q.1 ht' (hk.table k _ q.1 ht)
  have hv : v = BASE_ADDR addr := VPN_inj hi (hj'.symm.trans hj)
  obtain ⟨s, rfl, hcont⟩ := hloc.find _ _ _ hseg
  refine ⟨s, addr, hv.symm, hcont, ?_⟩
  rw [hrw]
  exact decide_eq_true_iff

end SystemProgramming.Mmu
