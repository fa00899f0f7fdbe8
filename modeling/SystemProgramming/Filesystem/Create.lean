import SystemProgramming.Filesystem.Read

namespace SystemProgramming.Filesystem

open SystemProgramming.Lib

/-!
# `finding_filesystems/minixfs.c` — `minixfs_create_inode_for_path`

The entry of a new file goes behind the others of its directory.  Where that is decides
whether the code has a block there.

* `minixfs_create_inode_for_path` — the call; `place` is where it puts the entry.
* `place_eq` — in a directory of whole entries it is always the direct slot of the size.
* `create_correct` — the call is right exactly for a directory that is empty, or that has a
  block in that slot: one whose last block is full has none yet, and none is allocated.
-/

/-- The pointer `ptr` of the call: null, or a byte of a block; or the call returns. -/
inductive Spot
  | null
  | data (b : ℤ) (o : ℕ)
  | giveUp
  deriving DecidableEq

/-- A byte of the block `direct[k]`. -/
def directAt (L : Layout) (fs : file_system) (node k o : ℕ) : Except Stop Spot :=
  if k < L.NUM_DIRECT_INODES then .ok (.data ((fs.inode_root node).direct k) o)
  else .error .bounds

/-- A byte of the block `barray[k]`. -/
def barrayAt (L : Layout) (fs : file_system) (node k o : ℕ) : Except Stop Spot :=
  if k < L.NUM_INDIRECT_INODES then .ok (.data (fs.barray node k) o) else .error .bounds

/-- `add to direct` -/
def place_direct (L : Layout) (P : Utils) (fs : file_system) (parent : ℕ) :
    Except Stop (file_system × Spot) :=
  let size := (fs.inode_root parent).size
  if size = 0 then
    let (fs, block) := P.add_data_block_to_inode fs parent
    if block = -1 then .ok (fs, .giveUp)
    else .ok (fs, .data ((fs.inode_root parent).direct 0) 0)
  else
    let bnum := size / L.data_block
    let occupied := size - bnum * L.data_block
    let room := L.data_block - occupied
    if room ≥ 256 then (directAt L fs parent bnum occupied).map (fun ptr => (fs, ptr))
    else
      let (fs, block) := P.add_data_block_to_inode fs parent
      if block = -1 then .ok (fs, .giveUp)
      else if block ≠ 0 then (directAt L fs parent bnum 0).map (fun ptr => (fs, ptr))
      else .ok (fs, .null)

/-- `add to indirect` -/
def place_indirect (L : Layout) (P : Utils) (fs : file_system) (parent : ℕ) :
    Except Stop (file_system × Spot) :=
  let (fs, ind) := P.add_single_indirect_block fs parent
  if ind = -1 then .ok (fs, .giveUp)
  else
    let n := fs.inode_root parent
    let indsz := (n.size + 2 ^ 64 - L.NUM_DIRECT_INODES * L.data_block) % 2 ^ 64
    if indsz = 0 then
      let (fs, block) := P.add_data_block_to_indirect_block fs n.indirect
      if block = -1 then .ok (fs, .giveUp)
      else (barrayAt L fs parent 0 0).map (fun ptr => (fs, ptr))
    else
      -- `int indnum`
      let indnum := indsz / L.data_block % 2 ^ 32
      let used := indsz - indsz / L.data_block * L.data_block
      let remain := L.data_block - used
      if remain ≥ 256 then (barrayAt L fs parent indnum used).map (fun ptr => (fs, ptr))
      else
        let (fs, block) := P.add_data_block_to_indirect_block fs n.indirect
        if block = -1 then .ok (fs, .giveUp)
        else if block ≠ 0 then (barrayAt L fs parent indnum 0).map (fun ptr => (fs, ptr))
        else .ok (fs, .null)

/-- Where the entry goes. -/
def place (L : Layout) (P : Utils) (fs : file_system) (parent : ℕ) :
    Except Stop (file_system × Spot) :=
  match place_direct L P fs parent with
  | .ok (fs, .null) => place_indirect L P fs parent
  | r => r

/-- The new inode, its entry, and the size of the directory. -/
def add_entry (P : Utils) (fs : file_system) (parent inum : ℕ) (filenm : Path) (b : ℤ) (o : ℕ) :
    file_system :=
  let fs := fs.setInode inum (P.init_inode (fs.inode_root parent) (fs.inode_root inum))
  let fs := fs.memcpy b o (P.make_string_from_dirent inum filenm) 0 256
  let n := fs.inode_root parent
  fs.setInode parent { n with size := (n.size + 256) % 2 ^ 64 }

/-- `minixfs_create_inode_for_path`; `now` is what the clock says. -/
def minixfs_create_inode_for_path (L : Layout) (P : Utils) (fs : file_system)
    (path : Option Path) (now : timespec) : Except Stop (file_system × Option ℕ) :=
  match path with
  | none => .ok (fs, none)
  | some path =>
    match P.parent_directory fs path with
    | (none, _) => .ok (fs, none)
    | (some parent, filenm) =>
      if P.valid_filename filenm = false ∨ P.is_file (fs.inode_root parent) = true then
        .ok (fs, none)
      else
        match P.get_inode fs path with
        | some node => .ok (fs.setInode node { fs.inode_root node with ctim := now }, none)
        | none =>
          match P.first_unused_inode fs with
          | none => .ok (fs, none)
          | some inum =>
            match place L P fs parent with
            | .error e => .error e
            | .ok (fs, .data b o) => .ok (add_entry P fs parent inum filenm b o, some inum)
            | .ok (fs, _) => .ok (fs, none)

variable {L : Layout} {P : Utils} {live : ℕ → Prop} {fs fs' fs₁ : file_system} {path name : Path}
  {i j k dir inum : ℕ} {now : timespec} {b : ℤ}

/-! ### What the call should do -/

/-- `add_data_block_to_inode` allocates a block that no file has, for the first slot without
    one. -/
def Utils.AddsBlocks (L : Layout) (P : Utils) (live : ℕ → Prop) : Prop :=
  ∀ fs i fs' b, L.Formatted live fs → live i → P.add_data_block_to_inode fs i = (fs', b) →
    b ≠ -1 → ∃ k, k < L.NUM_DIRECT_INODES ∧ (fs.inode_root i).direct k = L.UNASSIGNED ∧
      (∀ j, j < k → (fs.inode_root i).direct j ≠ L.UNASSIGNED) ∧ b ≠ L.UNASSIGNED ∧
      (∀ j p, live j → L.Owned fs j p → L.block fs j p ≠ b) ∧
      fs'.inode_root = Function.update fs.inode_root i
        { fs.inode_root i with direct := Function.update (fs.inode_root i).direct k b } ∧
      ∀ c, c ≠ b → fs'.data_root c = fs.data_root c

/-- What the creation of the file `name` in the directory `dir` should do. -/
structure Grown (L : Layout) (P : Utils) (live : ℕ → Prop) (fs : file_system) (dir inum : ℕ)
    (name : Path) (fs' : file_system) : Prop where
  allocated : L.Owned fs' dir (.slot ((fs.inode_root dir).size / L.data_block))
  entry : ∀ k, k < 256 → L.byteAt fs' dir ((fs.inode_root dir).size + k) =
    P.make_string_from_dirent inum name k
  before : ∀ x, x < (fs.inode_root dir).size → L.byteAt fs' dir x = L.byteAt fs dir x
  size : (fs'.inode_root dir).size = (fs.inode_root dir).size + 256
  inodes : ∀ j, j ≠ dir → j ≠ inum → fs'.inode_root j = fs.inode_root j
  blocks : ∀ j p, live j → L.Owned fs j p →
    ¬ (j = dir ∧ p = .slot ((fs.inode_root dir).size / L.data_block)) →
    fs'.data_root (L.block fs j p) = fs.data_root (L.block fs j p)

/-- The room in the last block of a directory of whole entries. -/
theorem room_of_dvd {size B : ℕ} (hB : 256 ∣ B) (hpos : 0 < B) (hsize : 256 ∣ size) :
    size % B + 256 ≤ B := by
  have hmod : 256 ∣ size % B := (Nat.dvd_mod_iff hB).mpr hsize
  have hlt := Nat.mod_lt size hpos
  omega

/-- **Where the entry goes**, in a directory that is not empty. -/
theorem place_eq (hB : 256 ∣ L.data_block) (hsize : 256 ∣ (fs.inode_root dir).size)
    (hne : (fs.inode_root dir).size ≠ 0) :
    place L P fs dir = if (fs.inode_root dir).size / L.data_block < L.NUM_DIRECT_INODES then
        .ok (fs, .data ((fs.inode_root dir).direct ((fs.inode_root dir).size / L.data_block))
          ((fs.inode_root dir).size % L.data_block))
      else .error .bounds := by
  obtain ⟨size, hs⟩ : ∃ size, (fs.inode_root dir).size = size := ⟨_, rfl⟩
  rw [hs] at hsize hne ⊢
  have hroom := room_of_dvd hB L.data_block_pos hsize
  have hdiv := Nat.div_add_mod' size L.data_block
  have hocc : size - size / L.data_block * L.data_block = size % L.data_block := by omega
  -- the entry fits into the last block of the directory
  have hdirect : place_direct L P fs dir = (directAt L fs dir (size / L.data_block)
      (size % L.data_block)).map (fun ptr => (fs, ptr)) := by
    unfold place_direct
    dsimp only
    rw [hs, if_neg hne, hocc, if_pos (by omega)]
  unfold place
  rw [hdirect]
  unfold directAt
  split
  · rename_i heq
    split at heq
    · exact absurd heq (by simp [Except.map])
    · exact absurd heq (by simp [Except.map])
  · split <;> rfl

/-- The directory has the block `b` where the entry goes, and nothing that it or another file
    had was changed. -/
structure Ready (L : Layout) (live : ℕ → Prop) (fs : file_system) (dir : ℕ) (b : ℤ)
    (fs₁ : file_system) : Prop where
  lt : (fs.inode_root dir).size / L.data_block < L.NUM_DIRECT_INODES
  direct : (fs₁.inode_root dir).direct ((fs.inode_root dir).size / L.data_block) = b
  assigned : b ≠ L.UNASSIGNED
  size : (fs₁.inode_root dir).size = (fs.inode_root dir).size
  inodes : ∀ j, j ≠ dir → fs₁.inode_root j = fs.inode_root j
  old : ∀ k, k * L.data_block < (fs.inode_root dir).size →
    (fs₁.inode_root dir).direct k = (fs.inode_root dir).direct k
  data : ∀ j p, live j → L.Owned fs j p → fs₁.data_root (L.block fs j p) =
    fs.data_root (L.block fs j p)
  other : ∀ j p, live j → L.Owned fs j p →
    ¬ (j = dir ∧ p = .slot ((fs.inode_root dir).size / L.data_block)) → L.block fs j p ≠ b

/-- **The entry in its block.** -/
theorem Ready.grown (hr : Ready L live fs dir b fs₁) (hfs : L.Formatted live fs) (hdir : live dir)
    (hinum : ¬ live inum) (hB : 256 ∣ L.data_block) (hsize : 256 ∣ (fs.inode_root dir).size) :
    Grown L P live fs dir inum name
      (add_entry P fs₁ dir inum name b ((fs.inode_root dir).size % L.data_block)) := by
  have hne : inum ≠ dir := by
    rintro rfl
    exact hinum hdir
  obtain ⟨size, hs⟩ : ∃ size, (fs.inode_root dir).size = size := ⟨_, rfl⟩
  obtain ⟨fs₂, hfs₂⟩ : ∃ fs₂, add_entry P fs₁ dir inum name b (size % L.data_block) = fs₂ :=
    ⟨_, rfl⟩
  have hroom := room_of_dvd hB L.data_block_pos (hs ▸ hsize)
  have hdivmod := Nat.div_add_mod' size L.data_block
  have hsizelt : size < 2 ^ 63 := by
    have hle := hfs.size_le dir hdir
    have hlt : L.maxSize < 2 ^ 63 := L.size_lt
    omega
  -- the state after the call
  have hnode : fs₂.inode_root dir =
      { fs₁.inode_root dir with size := ((fs₁.inode_root dir).size + 256) % 2 ^ 64 } := by
    rw [← hfs₂]
    unfold add_entry file_system.setInode file_system.memcpy
    dsimp only
    rw [Function.update_self, Function.update_of_ne hne.symm]
  have hdata : ∀ c, c ≠ b → fs₂.data_root c = fs₁.data_root c := by
    intro c hc
    rw [← hfs₂]
    exact Function.update_of_ne hc ..
  have hentry : ∀ x, fs₂.data_root b x =
      if size % L.data_block ≤ x ∧ x < size % L.data_block + 256 then
        P.make_string_from_dirent inum name (x - size % L.data_block) else fs₁.data_root b x := by
    intro x
    rw [← hfs₂]
    show Function.update fs₁.data_root b _ b x = _
    rw [Function.update_self, Nat.zero_add]
    rfl
  have hslot : ∀ k, k < L.NUM_DIRECT_INODES → L.slot fs₂ dir k = (fs₁.inode_root dir).direct k := by
    intro k hk
    rw [← slot_direct hk, hnode]
  have hlt := hr.lt
  have hbnum := hr.direct
  rw [hs] at hlt hbnum ⊢
  rw [hfs₂]
  have hb : L.slot fs₂ dir (size / L.data_block) = b := (hslot _ hlt).trans hbnum
  refine ⟨?_, ?_, ?_, ?_, ?_, ?_⟩
  · rw [hs]
    refine ⟨by omega, ?_, fun hle => absurd hle (by omega)⟩
    rw [hb]
    exact hr.assigned
  · intro k hk
    rw [hs]
    have haddr : size + k = L.data_block * (size / L.data_block) + (size % L.data_block + k) := by
      rw [Nat.mul_comm]
      omega
    have hlt' : size % L.data_block + k < L.data_block := by omega
    unfold Layout.byteAt
    rw [haddr, Nat.mul_add_div L.data_block_pos, Nat.div_eq_of_lt hlt', Nat.add_zero,
      Nat.mul_add_mod, Nat.mod_eq_of_lt hlt', hb, hentry, if_pos (by omega),
      Nat.add_sub_cancel_left]
  · -- an earlier entry is in an earlier block, or before it in the same one
    intro x hx
    rw [hs] at hx
    have hxdiv := Nat.div_add_mod' x L.data_block
    have hin : x / L.data_block * L.data_block < size := by omega
    have hle : x / L.data_block ≤ size / L.data_block := Nat.div_le_div_right hx.le
    have hown : L.Owned fs dir (.slot (x / L.data_block)) := hfs.owned dir _ hdir (hs ▸ hin)
    have hslot₂ : L.slot fs₂ dir (x / L.data_block) = L.slot fs dir (x / L.data_block) := by
      rw [hslot _ (hle.trans_lt hlt), hr.old _ (hs ▸ hin), slot_direct (hle.trans_lt hlt)]
    have hdata₁ : fs₁.data_root (L.slot fs dir (x / L.data_block)) =
        fs.data_root (L.slot fs dir (x / L.data_block)) := hr.data dir _ hdir hown
    unfold Layout.byteAt
    rw [hslot₂, ← hdata₁]
    by_cases heq : x / L.data_block = size / L.data_block
    · rw [← hslot₂, heq, hb, hentry, if_neg]
      rw [heq] at hxdiv
      omega
    · rw [hdata]
      apply hr.other dir _ hdir hown
      rintro ⟨-, hplace⟩
      rw [hs] at hplace
      exact heq (Place.slot.inj hplace)
  · rw [hnode]
    show ((fs₁.inode_root dir).size + 256) % 2 ^ 64 = _
    rw [hr.size, hs]
    omega
  · intro j hj hj'
    rw [← hfs₂]
    show Function.update (Function.update fs₁.inode_root inum _) dir _ j = _
    rw [Function.update_of_ne hj, Function.update_of_ne hj', hr.inodes j hj]
  · intro j p hj hp hother
    rw [hdata _ (hr.other j p hj hp hother), hr.data j p hj hp]

/-- A directory that has a block for the entry. -/
theorem ready_of_assigned (hfs : L.Formatted live fs) (hdir : live dir)
    (hlt : (fs.inode_root dir).size / L.data_block < L.NUM_DIRECT_INODES)
    (hb : (fs.inode_root dir).direct ((fs.inode_root dir).size / L.data_block) ≠ L.UNASSIGNED) :
    Ready L live fs dir
      ((fs.inode_root dir).direct ((fs.inode_root dir).size / L.data_block)) fs := by
  refine ⟨hlt, rfl, hb, rfl, fun _ _ => rfl, fun _ _ => rfl, fun _ _ _ _ => rfl, ?_⟩
  intro j p hj hp hother heq
  rw [slot_direct hlt] at hb heq
  have hown : L.Owned fs dir (.slot ((fs.inode_root dir).size / L.data_block)) :=
    ⟨by omega, hb, fun hle => absurd hle (by omega)⟩
  exact hother (hfs.distinct j dir p _ hj hdir hp hown heq)

/-- An empty directory, for which a block was allocated. -/
theorem ready_of_empty (hadd : P.AddsBlocks L live) (hfs : L.Formatted live fs) (hdir : live dir)
    (hempty : (fs.inode_root dir).size = 0)
    (halloc : P.add_data_block_to_inode fs dir = (fs₁, b)) (hb : b ≠ -1) :
    Ready L live fs dir ((fs₁.inode_root dir).direct 0) fs₁ := by
  obtain ⟨k, hk, hnone, hfirst, hbas, hunused, hinodes, hdata⟩ :=
    hadd fs dir fs₁ b hfs hdir halloc hb
  have hzero : (fs.inode_root dir).size / L.data_block = 0 := by
    rw [hempty]
    exact Nat.zero_div _
  have hnode : fs₁.inode_root dir = { fs.inode_root dir with
      direct := Function.update (fs.inode_root dir).direct k b } := by
    rw [hinodes]
    exact Function.update_self ..
  have hdirect : (fs₁.inode_root dir).direct = Function.update (fs.inode_root dir).direct k b := by
    rw [hnode]
  have hpos := L.direct_pos
  -- the first slot: it is the new one, or it had a block before
  have hcases : (fs₁.inode_root dir).direct 0 = b ∨
      (fs₁.inode_root dir).direct 0 = (fs.inode_root dir).direct 0 ∧
        (fs.inode_root dir).direct 0 ≠ L.UNASSIGNED := by
    rw [hdirect]
    rcases Nat.eq_zero_or_pos k with rfl | hkpos
    · exact .inl (Function.update_self ..)
    · exact .inr ⟨Function.update_of_ne (Nat.ne_of_lt hkpos) .., hfirst 0 hkpos⟩
  refine ⟨?_, ?_, ?_, ?_, ?_, ?_, ?_, ?_⟩
  · rw [hzero]
    exact hpos
  · rw [hzero]
  · rcases hcases with heq | ⟨heq, hne⟩
    · rw [heq]
      exact hbas
    · rw [heq]
      exact hne
  · rw [hnode]
  · intro j hj
    rw [hinodes]
    exact Function.update_of_ne hj ..
  · intro j hj
    rw [hempty] at hj
    exact absurd hj (Nat.not_lt_zero _)
  · intro j p hj hp
    exact hdata _ (hunused j p hj hp)
  · intro j p hj hp hother heq
    rcases hcases with h0 | ⟨h0, hne⟩
    · exact hunused j p hj hp (heq.trans h0)
    · rw [h0, slot_direct hpos] at heq
      rw [slot_direct hpos] at hne
      have hown : L.Owned fs dir (.slot 0) := ⟨by omega, hne, fun hle => absurd hle (by omega)⟩
      rw [hzero] at hother
      exact hother (hfs.distinct j dir p _ hj hdir hp hown heq)

/-- **When the creation of a file is correct.**  Where the name can be added, no array is read
    past its end and a file that is created is one that its directory has grown by, exactly if
    the directory is empty, or has a block in the direct slot where its size ends. -/
theorem create_correct (hadd : P.AddsBlocks L live) (hB : 256 ∣ L.data_block)
    (hfs : L.Formatted live fs) (hdir : live dir) (hsize : 256 ∣ (fs.inode_root dir).size)
    (hparent : P.parent_directory fs path = (some dir, name))
    (hname : P.valid_filename name = true) (hfile : P.is_file (fs.inode_root dir) = false)
    (hnew : P.get_inode fs path = none) (hunused : P.first_unused_inode fs = some inum)
    (hinum : ¬ live inum) :
    (minixfs_create_inode_for_path L P fs (some path) now ≠ .error .bounds ∧
      ∀ fs' node, minixfs_create_inode_for_path L P fs (some path) now = .ok (fs', some node) →
        node = inum ∧ Grown L P live fs dir inum name fs') ↔
      (fs.inode_root dir).size = 0 ∨
        (fs.inode_root dir).size / L.data_block < L.NUM_DIRECT_INODES ∧
        (fs.inode_root dir).direct ((fs.inode_root dir).size / L.data_block) ≠ L.UNASSIGNED := by
  have hcall : minixfs_create_inode_for_path L P fs (some path) now =
      match place L P fs dir with
      | .error e => .error e
      | .ok (fs, .data b o) => .ok (add_entry P fs dir inum name b o, some inum)
      | .ok (fs, _) => .ok (fs, none) := by
    unfold minixfs_create_inode_for_path
    simp only [hparent, hname, hfile, hnew, hunused]
    rfl
  rw [hcall]
  by_cases hempty : (fs.inode_root dir).size = 0
  · refine ⟨fun _ => .inl hempty, fun _ => ?_⟩
    obtain ⟨⟨fs₁, b⟩, halloc⟩ : ∃ r, P.add_data_block_to_inode fs dir = r := ⟨_, rfl⟩
    have hdirect : place_direct L P fs dir = if b = -1 then .ok (fs₁, .giveUp)
        else .ok (fs₁, .data ((fs₁.inode_root dir).direct 0) 0) := by
      simp only [place_direct, hempty, halloc, if_true]
    have hplace : place L P fs dir = if b = -1 then .ok (fs₁, .giveUp)
        else .ok (fs₁, .data ((fs₁.inode_root dir).direct 0) 0) := by
      unfold place
      rw [hdirect]
      by_cases hb : b = -1
      · rw [if_pos hb]
      · rw [if_neg hb]
    rw [hplace]
    by_cases hb : b = -1
    · rw [if_pos hb]
      exact ⟨by simp, fun fs' node hres => absurd (Except.ok.inj hres) (by simp)⟩
    · rw [if_neg hb]
      refine ⟨by simp, fun fs' node hres => ?_⟩
      obtain ⟨rfl, hnode⟩ := Prod.mk.inj (Except.ok.inj hres)
      refine ⟨(Option.some.inj hnode).symm, ?_⟩
      have hgrown : Grown L P live fs dir inum name (add_entry P fs₁ dir inum name
          ((fs₁.inode_root dir).direct 0) ((fs.inode_root dir).size % L.data_block)) :=
        (ready_of_empty hadd hfs hdir hempty halloc hb).grown hfs hdir hinum hB hsize
      rw [hempty, Nat.zero_mod] at hgrown
      exact hgrown
  · rw [place_eq hB hsize hempty]
    by_cases hlt : (fs.inode_root dir).size / L.data_block < L.NUM_DIRECT_INODES
    · rw [if_pos hlt]
      constructor
      · rintro ⟨-, hgrown⟩
        refine .inr ⟨hlt, fun hb => ?_⟩
        -- the entry goes to no block
        have hall := (hgrown _ _ rfl).2.allocated
        apply hall.2.1
        rw [← slot_direct hlt]
        have hne : inum ≠ dir := by
          rintro rfl
          exact hinum hdir
        unfold add_entry file_system.setInode file_system.memcpy
        dsimp only
        rw [Function.update_self, Function.update_of_ne hne.symm]
        exact hb
      · rintro (h0 | ⟨-, hb⟩)
        · exact absurd h0 hempty
        · refine ⟨by simp, fun fs' node hres => ?_⟩
          obtain ⟨rfl, hnode⟩ := Prod.mk.inj (Except.ok.inj hres)
          exact ⟨(Option.some.inj hnode).symm,
            (ready_of_assigned hfs hdir hlt hb).grown hfs hdir hinum hB hsize⟩
    · rw [if_neg hlt]
      constructor
      · rintro ⟨hbounds, -⟩
        exact absurd rfl hbounds
      · rintro (h0 | ⟨h1, -⟩)
        · exact absurd h0 hempty
        · exact absurd h1 hlt

/-! ### A small directory -/

/-- Blocks of two entries, two of a file in its inode and one in its indirect block. -/
def small : Layout where
  data_block := 512
  NUM_DIRECT_INODES := 2
  NUM_INDIRECT_INODES := 1
  UNASSIGNED := -1
  data_block_pos := by decide
  direct_pos := by decide
  indirect_le := by decide
  count_lt := by decide
  size_lt := by decide

/-- A directory with one block, the block 0. -/
def oneBlock (size : ℕ) : file_system where
  «meta» := ⟨4, fun _ => 1⟩
  inode_root _ := ⟨0, 0, 0, 0, 0, 0, size, fun k => if k = 0 then 0 else -1, -1⟩
  data_root _ _ := 0

/-- The utilities, on a disk with a free inode but no free block. -/
def noBlocks (L : Layout) : Utils :=
  { fullDisk L with
    get_inode := fun _ _ => none
    is_file := fun _ => false
    first_unused_inode := fun _ => some 1
    make_string_from_dirent := fun _ _ _ => 65 }

theorem noBlocks_adds (L : Layout) (live : ℕ → Prop) : (noBlocks L).AddsBlocks L live := by
  intro fs i fs' b _ _ halloc hb
  exact absurd (Prod.mk.inj halloc).2.symm hb

theorem formatted_oneBlock {size : ℕ} (hsize : size ≤ 512) :
    small.Formatted (fun i => i = 0) (oneBlock size) := by
  -- only the first slot has a block
  have howned : ∀ p, small.Owned (oneBlock size) 0 p → p = .slot 0 := by
    intro p hp
    cases p with
    | indirect => exact absurd rfl hp
    | slot k =>
      obtain ⟨-, hne, hind⟩ := hp
      rcases Nat.eq_zero_or_pos k with rfl | hk
      · rfl
      · by_cases hlt : k < 2
        · have hk1 : k = 1 := by omega
          subst hk1
          exact absurd rfl hne
        · exact absurd rfl (hind (Nat.le_of_not_lt hlt))
  refine ⟨?_, ?_, ?_⟩
  · rintro i rfl
    exact hsize.trans (by decide)
  · rintro i k rfl hk
    have hlt : k * 512 < size := hk
    have hk0 : k = 0 := by omega
    subst hk0
    exact ⟨by decide, show (0 : ℤ) ≠ -1 by decide, fun h => absurd h (by decide)⟩
  · rintro i j p q rfl rfl hp hq -
    exact ⟨rfl, (howned p hp).trans (howned q hq).symm⟩

/-- A second entry in a block. -/
theorem create_correct_second : ∃ fs', minixfs_create_inode_for_path small (noBlocks small)
      (oneBlock 256) (some [97]) 7 = .ok (fs', some 1) ∧
    Grown small (noBlocks small) (fun i => i = 0) (oneBlock 256) 0 1 [97] fs' := by
  have hcorrect := (@create_correct small (noBlocks small) (fun i => i = 0) (oneBlock 256) [97] [97]
    0 1 7 (noBlocks_adds small (fun i => i = 0)) (by decide) (formatted_oneBlock (by decide)) rfl
    (by decide) rfl (by decide) rfl rfl rfl (by decide)).mpr (.inr ⟨by decide, by decide⟩)
  exact ⟨_, rfl, (hcorrect.2 _ _ rfl).2⟩

/-- An entry behind a block that is full goes to no block. -/
theorem not_create_correct : small.Formatted (fun i => i = 0) (oneBlock 512) ∧
    (noBlocks small).AddsBlocks small (fun i => i = 0) ∧
    ∃ fs', minixfs_create_inode_for_path small (noBlocks small) (oneBlock 512) (some [97]) 7 =
        .ok (fs', some 1) ∧
      fs'.data_root (-1) 0 = 65 ∧
      ¬ Grown small (noBlocks small) (fun i => i = 0) (oneBlock 512) 0 1 [97] fs' := by
  refine ⟨formatted_oneBlock (by decide), noBlocks_adds small _, _, rfl, rfl, fun hgrown => ?_⟩
  exact hgrown.allocated.2.1 rfl

end SystemProgramming.Filesystem
