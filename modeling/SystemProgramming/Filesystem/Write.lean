import Mathlib.Tactic.IntervalCases
import SystemProgramming.Lib.Loop
import SystemProgramming.Filesystem.Disk

namespace SystemProgramming.Filesystem

open SystemProgramming.Lib

/-!
# `finding_filesystems/minixfs.c` — `minixfs_write`

A write copies a part of the first block, whole blocks, and a part of the last one.

* `minixfs_write` — the call.
* `WroteUpTo`, `write_data_spec` — where its copies end.  One branch copies a whole block as
  the last one: that of a write from the direct blocks whose last block is an indirect one.
* `write_correct` — a write does what it should exactly if it does not take that branch, and
  does not end inside the file, whose size it always sets to its own end.
-/

/-- `*off + count`, a `size_t`. -/
def sizeSum (off count : ℕ) : ℕ := (off + count) % 2 ^ 64

/-- What a call leaves behind: the file system, `*off`, its return value and `errno`. -/
structure Result where
  fs : file_system
  off : ℕ
  ret : ℤ
  errno : Option Errno

/-- The body of the loop of a write that starts in the indirect blocks; with the file system
    goes the position `p` in the buffer. -/
def write_indirect_block (L : Layout) (node num : ℕ) (buf : Mem) (s : file_system × ℕ) (i : ℕ) :
    file_system × ℕ :=
  let (fs, p) := s
  (fs.memcpy (fs.barray node (num - L.NUM_DIRECT_INODES + i + 1)) 0 buf p L.data_block,
    p + L.data_block)

/-- `if (flag) { ... }` -/
def write_from_indirect (L : Layout) (node num block newoff : ℕ) (buf : Mem) (p : ℕ)
    (fs : file_system) : file_system :=
  let (fs, p) := (List.range block).foldl (write_indirect_block L node num buf) (fs, p)
  if newoff > 0 then
    fs.memcpy (fs.barray node (num - L.NUM_DIRECT_INODES + block + 1)) 0 buf p newoff
  else fs

/-- The body of the loop of a write that starts in the direct blocks. -/
def write_direct_block (L : Layout) (node num : ℕ) (buf : Mem) (s : file_system × ℕ) (i : ℕ) :
    file_system × ℕ :=
  let (fs, p) := s
  let ptr :=
    if num + i < L.NUM_DIRECT_INODES then (fs.inode_root node).direct (num + i)
    else fs.barray node (num + i - L.NUM_DIRECT_INODES)
  (fs.memcpy ptr 0 buf p L.data_block, p + L.data_block)

/-- `if (flag == 0) { ... }` -/
def write_from_direct (L : Layout) (node num block newoff : ℕ) (buf : Mem) (p : ℕ)
    (fs : file_system) : file_system :=
  let (fs, p) := (List.range' 1 block).foldl (write_direct_block L node num buf) (fs, p)
  if newoff > 0 then
    if num + block + 1 < L.NUM_DIRECT_INODES then
      fs.memcpy ((fs.inode_root node).direct (num + block + 1)) 0 buf p newoff
    else
      -- the size of a block, not `newoff`
      fs.memcpy (fs.barray node (num + block + 1 - L.NUM_DIRECT_INODES)) 0 buf p L.data_block
  else fs

/-- From `write to data block` on. -/
def write_data (L : Layout) (fs : file_system) (node : ℕ) (flag : Bool) (ptr : ℤ)
    (num offset newoff : ℕ) (buf : Mem) (count off : ℕ) : Result :=
  let remain := L.data_block - offset
  if count ≤ remain then
    let fs := fs.memcpy ptr offset buf 0 count
    let n := fs.inode_root node
    -- `node->size += (*off + count - node->size)`
    let size := (n.size + (sizeSum off count + 2 ^ 64 - n.size) % 2 ^ 64) % 2 ^ 64
    ⟨fs.setInode node { n with size := size }, off + count, count, none⟩
  else
    let fs := fs.memcpy ptr offset buf 0 remain
    let new_count := count - remain
    let block := new_count / L.data_block
    let fs :=
      if flag then write_from_indirect L node num block newoff buf remain fs
      else write_from_direct L node num block newoff buf remain fs
    ⟨fs.setInode node { fs.inode_root node with size := sizeSum off count }, off + count, count,
      none⟩

/-- `minixfs_write`; `buf` is the memory from the buffer on, and `t₁` and `t₂` are what the
    clock says. -/
def minixfs_write (L : Layout) (P : Utils) (fs : file_system) (path : Path) (buf : Mem)
    (count off : ℕ) (t₁ t₂ : timespec) : Except Stop Result :=
  let maxsz := L.data_block * (L.NUM_DIRECT_INODES + L.NUM_INDIRECT_INODES)
  if sizeSum off count > maxsz then .ok ⟨fs, off, -1, some .ENOSPC⟩
  else
    let newoff := sizeSum off count % L.data_block
    let needBlock :=
      if newoff > 0 then sizeSum off count / L.data_block + 1
      else sizeSum off count / L.data_block
    let num := off / L.data_block
    let offset := off % L.data_block
    match P.minixfs_min_blockcount fs path needBlock with
    | (fs, false) => .ok ⟨fs, off, -1, some .ENOSPC⟩
    | (fs, true) =>
      match P.get_inode fs path with
      | none => .error .null
      | some node =>
        let fs := fs.setInode node { fs.inode_root node with mtim := t₁, atim := t₂ }
        if num < L.NUM_DIRECT_INODES then
          .ok (write_data L fs node false ((fs.inode_root node).direct num) num offset newoff buf
            count off)
        else if num < L.NUM_INDIRECT_INODES + L.NUM_DIRECT_INODES then
          .ok (write_data L fs node true (fs.barray node (num - L.NUM_DIRECT_INODES)) num offset
            newoff buf count off)
        else .ok ⟨fs, off, -1, some .ENOSPC⟩

variable {L : Layout} {P : Utils} {live : ℕ → Prop} {fs fs' fs₁ : file_system} {path : Path}
  {i k num block newoff count off p y : ℕ} {buf buf' : Mem} {t₁ t₂ : timespec} {r : Result}

/-! ### Where the copies end -/

/-- The last block is an indirect one, of a write that starts in the direct ones, and it is
    not filled. -/
def Spills (L : Layout) (off count : ℕ) : Prop :=
  off < L.NUM_DIRECT_INODES * L.data_block ∧ L.NUM_DIRECT_INODES * L.data_block < off + count ∧
    (off + count) % L.data_block ≠ 0

instance (L : Layout) (off count : ℕ) : Decidable (Spills L off count) :=
  inferInstanceAs (Decidable (_ ∧ _ ∧ _))

/-- Where the copies of a write end in the file. -/
def copyEnd (L : Layout) (off count : ℕ) : ℕ :=
  if Spills L off count then ((off + count) / L.data_block + 1) * L.data_block else off + count

/-- The blocks of the file that a write needs. -/
def Needs (L : Layout) (fs : file_system) (i off count : ℕ) : Prop :=
  ∀ k, k * L.data_block < off + count → L.Owned fs i (.slot k)

theorem slot_direct (h : k < L.NUM_DIRECT_INODES) (fs : file_system) (i : ℕ) :
    (fs.inode_root i).direct k = L.slot fs i k := (if_pos h).symm

theorem slot_indirect (h : L.NUM_DIRECT_INODES ≤ k) (fs : file_system) (i : ℕ) :
    fs.barray i (k - L.NUM_DIRECT_INODES) = L.slot fs i k := (if_neg (Nat.not_lt.mpr h)).symm

/-- What a loop of whole blocks keeps: it has come to the beginning of the block `k`. -/
def AtBlock (L : Layout) (i : ℕ) (fs : file_system) (buf : Mem) (off k : ℕ)
    (s : file_system × ℕ) : Prop :=
  L.Wrote i fs buf off (k * L.data_block) s.1 ∧ s.2 = k * L.data_block - off

/-- **A whole block**, for either loop. -/
theorem AtBlock.step {s : file_system × ℕ} (ha : AtBlock L i fs buf off k s)
    (hfs : L.Formatted live fs) (hi : live i) (hk : L.Owned fs i (.slot k))
    (hoff : off ≤ k * L.data_block) :
    AtBlock L i fs buf off (k + 1)
      (s.1.memcpy (L.slot s.1 i k) 0 buf s.2 L.data_block, s.2 + L.data_block) := by
  obtain ⟨hw, hp⟩ := ha
  have hnext := hw.memcpy hfs hi hk (Nat.add_zero _) (Nat.zero_add L.data_block).le hoff
  refine ⟨?_, ?_⟩
  · rw [hp, Nat.add_mul, Nat.one_mul]
    exact hnext
  · show s.2 + L.data_block = _
    rw [hp, Nat.add_mul, Nat.one_mul]
    omega

/-- **The last block**, with as many bytes as belong to it. -/
theorem AtBlock.last {s : file_system × ℕ} (ha : AtBlock L i fs buf off k s)
    (hfs : L.Formatted live fs) (hi : live i) (hk : L.Owned fs i (.slot k))
    (hoff : off ≤ k * L.data_block) {n : ℕ} (hn : n ≤ L.data_block) :
    L.Wrote i fs buf off (k * L.data_block + n) (s.1.memcpy (L.slot s.1 i k) 0 buf s.2 n) := by
  obtain ⟨hw, hp⟩ := ha
  have hlast := hw.memcpy hfs hi hk (Nat.add_zero _) ((Nat.zero_add n).le.trans hn) hoff
  rwa [hp]

/-- Starting in the indirect blocks. -/
theorem write_from_indirect_spec (hfs : L.Formatted live fs) (hi : live i)
    (hneeds : Needs L fs i off count) (hnum : L.NUM_DIRECT_INODES ≤ num)
    (hoff : off ≤ (num + 1) * L.data_block)
    (hend : (num + 1 + block) * L.data_block + newoff = off + count)
    (hnew : newoff < L.data_block) (hw : AtBlock L i fs buf off (num + 1) (fs₁, p)) :
    L.Wrote i fs buf off (off + count) (write_from_indirect L i num block newoff buf p fs₁) := by
  have hmono : ∀ j, off ≤ (num + 1 + j) * L.data_block := by
    intro j
    have hle : (num + 1) * L.data_block ≤ (num + 1 + j) * L.data_block :=
      Nat.mul_le_mul_right _ (by omega)
    omega
  -- the whole blocks, one in each round of the loop
  have hloop : AtBlock L i fs buf off (num + 1 + block)
      ((List.range block).foldl (write_indirect_block L i num buf) (fs₁, p)) := by
    apply foldl_range_rule (I := fun j s => AtBlock L i fs buf off (num + 1 + j) s) block hw
    intro j s hj ha
    have hlt : (num + 1 + j + 1) * L.data_block ≤ (num + 1 + block) * L.data_block :=
      Nat.mul_le_mul_right _ (by omega)
    have hk : L.Owned fs i (.slot (num + 1 + j)) := by
      apply hneeds
      have hpos := L.data_block_pos
      rw [Nat.add_mul _ 1] at hlt
      omega
    have hstep := ha.step hfs hi hk (hmono j)
    rw [← slot_indirect (by omega)] at hstep
    have hidx : num + 1 + j - L.NUM_DIRECT_INODES = num - L.NUM_DIRECT_INODES + j + 1 := by omega
    rw [hidx] at hstep
    exact hstep
  unfold write_from_indirect
  obtain ⟨s, hs⟩ : ∃ s, (List.range block).foldl (write_indirect_block L i num buf) (fs₁, p) = s :=
    ⟨_, rfl⟩
  rw [hs] at hloop ⊢
  obtain ⟨fs₂, p₂⟩ := s
  dsimp only
  split
  · rename_i hpos
    have hk : L.Owned fs i (.slot (num + 1 + block)) := hneeds _ (by omega)
    have hlast := hloop.last hfs hi hk (hmono block) hnew.le
    rw [← slot_indirect (by omega), hend] at hlast
    have hidx : num + 1 + block - L.NUM_DIRECT_INODES = num - L.NUM_DIRECT_INODES + block + 1 := by
      omega
    rw [hidx] at hlast
    exact hlast
  · have hzero : (num + 1 + block) * L.data_block = off + count := by omega
    exact hzero ▸ hloop.1

/-- **Starting in the direct blocks.** -/
theorem write_from_direct_spec (hfs : L.Formatted live fs) (hi : live i)
    (hneeds : Needs L fs i off count) (hnum : num < L.NUM_DIRECT_INODES)
    (hstart : off < (num + 1) * L.data_block)
    (hend : (num + 1 + block) * L.data_block + newoff = off + count)
    (hnew : newoff < L.data_block) (hw : AtBlock L i fs buf off (num + 1) (fs₁, p)) :
    L.Wrote i fs buf off (copyEnd L off count)
      (write_from_direct L i num block newoff buf p fs₁) := by
  have hmono : ∀ j, off ≤ (num + 1 + j) * L.data_block := by
    intro j
    have hle : (num + 1) * L.data_block ≤ (num + 1 + j) * L.data_block :=
      Nat.mul_le_mul_right _ (by omega)
    omega
  -- either way the number of the block is that of the slot
  have hptr : ∀ (fs₂ : file_system) (j : ℕ), (if num + j < L.NUM_DIRECT_INODES then
      (fs₂.inode_root i).direct (num + j) else fs₂.barray i (num + j - L.NUM_DIRECT_INODES)) =
        L.slot fs₂ i (num + j) := fun _ _ => rfl
  have hloop : AtBlock L i fs buf off (num + (1 + block))
      ((List.range' 1 block).foldl (write_direct_block L i num buf) (fs₁, p)) := by
    apply foldl_range'_rule (I := fun j s => AtBlock L i fs buf off (num + j) s) block hw
    intro j s hle hlt ha
    have hbound : (num + j + 1) * L.data_block ≤ (num + 1 + block) * L.data_block :=
      Nat.mul_le_mul_right _ (by omega)
    have hk : L.Owned fs i (.slot (num + j)) := by
      apply hneeds
      have hpos := L.data_block_pos
      rw [Nat.add_mul _ 1] at hbound
      omega
    have hoff : off ≤ (num + j) * L.data_block := by
      have heq : num + j = num + 1 + (j - 1) := by omega
      rw [heq]
      exact hmono (j - 1)
    have hstep := ha.step hfs hi hk hoff
    rw [← hptr] at hstep
    exact hstep
  unfold write_from_direct
  obtain ⟨s, hs⟩ : ∃ s, (List.range' 1 block).foldl (write_direct_block L i num buf) (fs₁, p) = s :=
    ⟨_, rfl⟩
  have hcount : num + (1 + block) = num + 1 + block := by omega
  rw [hs, hcount] at hloop
  rw [hs]
  obtain ⟨fs₂, p₂⟩ := s
  -- where the last block is
  have hpos := L.data_block_pos
  have hdiv : (off + count) / L.data_block = num + 1 + block := by
    rw [← hend, Nat.mul_comm, Nat.mul_add_div hpos, Nat.div_eq_of_lt hnew, Nat.add_zero]
  have hmod : (off + count) % L.data_block = newoff := by
    rw [← hend, Nat.mul_comm, Nat.mul_add_mod, Nat.mod_eq_of_lt hnew]
  have hdirect : off < L.NUM_DIRECT_INODES * L.data_block := by
    have hle : (num + 1) * L.data_block ≤ L.NUM_DIRECT_INODES * L.data_block :=
      Nat.mul_le_mul_right _ (by omega)
    omega
  have hidx : num + block + 1 = num + 1 + block := by omega
  dsimp only
  rw [hidx]
  split
  · rename_i hnewpos
    have hk : L.Owned fs i (.slot (num + 1 + block)) := hneeds _ (by omega)
    split
    · rename_i hlt
      have hle : (num + 1 + block + 1) * L.data_block ≤ L.NUM_DIRECT_INODES * L.data_block :=
        Nat.mul_le_mul_right _ (by omega)
      rw [Nat.add_mul _ 1] at hle
      have hnot : ¬ Spills L off count := fun hsp => by
        have hgt := hsp.2.1
        omega
      have hlast := hloop.last hfs hi hk (hmono block) hnew.le
      rw [← slot_direct hlt, hend] at hlast
      rw [copyEnd, if_neg hnot]
      exact hlast
    · -- the slip: a whole block
      rename_i hge
      have hle : L.NUM_DIRECT_INODES * L.data_block ≤ (num + 1 + block) * L.data_block :=
        Nat.mul_le_mul_right _ (by omega)
      have hspills : Spills L off count := ⟨hdirect, by omega, by omega⟩
      have hlast := hloop.last hfs hi hk (hmono block) le_rfl
      rw [← slot_indirect (by omega)] at hlast
      rw [copyEnd, if_pos hspills, hdiv, Nat.add_mul _ 1, Nat.one_mul]
      exact hlast
  · have hnot : ¬ Spills L off count := fun hsp => hsp.2.2 (by omega)
    have hzero : (num + 1 + block) * L.data_block = off + count := by omega
    rw [copyEnd, if_neg hnot]
    exact hzero ▸ hloop.1

/-- **The copies of a write.** -/
theorem write_data_spec (hfs : L.Formatted live fs) (hi : live i)
    (hneeds : Needs L fs i off count) (hsum : sizeSum off count = off + count)
    (hsize : (fs.inode_root i).size < 2 ^ 64) (hlt : off + count < 2 ^ 64) :
    ∃ fs₂, write_data L fs i (decide (L.NUM_DIRECT_INODES ≤ off / L.data_block))
        (L.slot fs i (off / L.data_block)) (off / L.data_block) (off % L.data_block)
        ((off + count) % L.data_block) buf count off =
      ⟨fs₂.setInode i { fs₂.inode_root i with size := off + count }, off + count, count, none⟩ ∧
      L.Wrote i fs buf off (copyEnd L off count) fs₂ := by
  have hpos := L.data_block_pos
  have hdiv := Nat.div_add_mod' off L.data_block
  have hmod := Nat.mod_lt off hpos
  obtain ⟨num, hnum⟩ : ∃ num, off / L.data_block = num := ⟨_, rfl⟩
  rw [hnum] at hdiv ⊢
  have hbegin : off < (num + 1) * L.data_block := by
    rw [Nat.add_mul, Nat.one_mul]
    omega
  have hnothing : L.Wrote i fs buf off off fs := .nothing L i fs buf off
  unfold write_data
  dsimp only
  split
  · -- inside one block
    rename_i hle
    have hnot : ¬ Spills L off count := by
      rintro ⟨h1, h2, h3⟩
      have hin : (num + 1) * L.data_block ≤ L.NUM_DIRECT_INODES * L.data_block := by
        apply Nat.mul_le_mul_right
        by_contra hge
        have hle' : L.NUM_DIRECT_INODES * L.data_block ≤ num * L.data_block :=
          Nat.mul_le_mul_right _ (by omega)
        omega
      rw [Nat.add_mul, Nat.one_mul] at hin
      omega
    refine ⟨fs.memcpy (L.slot fs i num) (off % L.data_block) buf 0 count, ?_, ?_⟩
    · have hnode : (fs.memcpy (L.slot fs i num) (off % L.data_block) buf 0 count).inode_root =
          fs.inode_root := rfl
      have harith : ((fs.inode_root i).size +
          (off + count + 2 ^ 64 - (fs.inode_root i).size) % 2 ^ 64) % 2 ^ 64 = off + count := by
        omega
      rw [hsum, hnode, harith]
    · rw [copyEnd, if_neg hnot]
      rcases Nat.eq_zero_or_pos count with rfl | hcount
      · -- no byte is copied, and the block need not be there
        have hsame : fs.memcpy (L.slot fs i num) (off % L.data_block) buf 0 0 = fs := by
          unfold file_system.memcpy
          have hnone : (fun x => if off % L.data_block ≤ x ∧ x < off % L.data_block + 0 then
              buf (0 + (x - off % L.data_block)) else fs.data_root (L.slot fs i num) x) =
                fs.data_root (L.slot fs i num) := by
            funext x
            exact if_neg (by omega)
          rw [hnone, Function.update_eq_self]
        rw [hsame]
        exact hnothing
      · have hk : L.Owned fs i (.slot num) := hneeds num (by omega)
        have hcopy := hnothing.memcpy hfs hi hk hdiv (n := count) (by omega) le_rfl
        rwa [Nat.sub_self] at hcopy
  · rename_i hgt
    have hk : L.Owned fs i (.slot num) := hneeds num (by omega)
    have hfirst := hnothing.memcpy hfs hi hk hdiv (n := L.data_block - off % L.data_block)
      (by omega) le_rfl
    rw [Nat.sub_self] at hfirst
    -- the whole blocks, and what is left of the last one
    obtain ⟨rest, hrest⟩ : ∃ rest, count - (L.data_block - off % L.data_block) = rest := ⟨_, rfl⟩
    rw [hrest]
    have hrestdiv := Nat.div_add_mod' rest L.data_block
    have hnew := Nat.mod_lt rest hpos
    have htotal : off + count = (num + 1) * L.data_block + rest := by
      rw [Nat.add_mul, Nat.one_mul]
      omega
    have hend : (num + 1 + rest / L.data_block) * L.data_block + rest % L.data_block =
        off + count := by
      rw [htotal, Nat.add_mul (num + 1)]
      omega
    have hnewoff : (off + count) % L.data_block = rest % L.data_block := by
      rw [htotal, Nat.mul_comm, Nat.mul_add_mod]
    have hat : AtBlock L i fs buf off (num + 1)
        (fs.memcpy (L.slot fs i num) (off % L.data_block) buf 0 (L.data_block - off % L.data_block),
          L.data_block - off % L.data_block) := by
      have hone : off + (L.data_block - off % L.data_block) = (num + 1) * L.data_block := by
        rw [Nat.add_mul, Nat.one_mul]
        omega
      refine ⟨?_, ?_⟩
      · rw [← hone]
        exact hfirst
      · show L.data_block - off % L.data_block = _
        rw [← hone]
        omega
    rw [hnewoff, hsum]
    by_cases hflag : L.NUM_DIRECT_INODES ≤ num
    · rw [decide_eq_true hflag]
      have hle : L.NUM_DIRECT_INODES * L.data_block ≤ num * L.data_block :=
        Nat.mul_le_mul_right _ hflag
      have hnot : ¬ Spills L off count := fun hsp => by
        have hlt' := hsp.1
        omega
      refine ⟨_, rfl, ?_⟩
      rw [copyEnd, if_neg hnot]
      exact write_from_indirect_spec hfs hi hneeds hflag hbegin.le hend hnew hat
    · rw [decide_eq_false hflag]
      exact ⟨_, rfl,
        write_from_direct_spec hfs hi hneeds (Nat.lt_of_not_le hflag) hbegin hend hnew hat⟩

/-! ### A write as a whole -/

/-- Blocks were allocated for the file `i`: it has the first `n`. -/
structure Allocated (L : Layout) (live : ℕ → Prop) (fs fs' : file_system) (i n : ℕ) : Prop where
  formatted : L.Formatted live fs'
  owned : ∀ k, k < n → L.Owned fs' i (.slot k)
  inode_root : ∀ j, j ≠ i → fs'.inode_root j = fs.inode_root j
  size : (fs'.inode_root i).size = (fs.inode_root i).size
  kept : ∀ k, L.Owned fs i (.slot k) → L.slot fs' i k = L.slot fs i k ∧
    fs'.data_root (L.slot fs i k) = fs.data_root (L.slot fs i k)
  others : ∀ j p, live j → j ≠ i → L.Owned fs j p →
    fs'.data_root (L.block fs j p) = fs.data_root (L.block fs j p)

/-- `minixfs_min_blockcount` allocates blocks that no file has. -/
def Utils.EnsuresBlocks (L : Layout) (P : Utils) (live : ℕ → Prop) : Prop :=
  ∀ fs path i n fs', L.Formatted live fs → live i → P.get_inode fs path = some i →
    P.minixfs_min_blockcount fs path n = (fs', true) →
    P.get_inode fs' path = some i ∧ Allocated L live fs fs' i n

/-- What a write of the file `i` should do. -/
structure Overwritten (L : Layout) (live : ℕ → Prop) (fs : file_system) (i : ℕ) (buf : Mem)
    (count off : ℕ) (r : Result) : Prop where
  bytes : ∀ x, off ≤ x → x < off + count → L.byteAt r.fs i x = buf (x - off)
  rest : ∀ x, x < (fs.inode_root i).size → x < off ∨ off + count ≤ x →
    L.byteAt r.fs i x = L.byteAt fs i x
  others : ∀ j, live j → j ≠ i → r.fs.inode_root j = fs.inode_root j ∧
    ∀ p, L.Owned fs j p → r.fs.data_root (L.block fs j p) = fs.data_root (L.block fs j p)
  size : (r.fs.inode_root i).size = max (fs.inode_root i).size (off + count)
  off : r.off = off + count
  ret : r.ret = count

/-- The blocks that the code asks for are those that the write needs. -/
theorem lt_needBlock {s B : ℕ} (hB : 0 < B) (h : k * B < s) :
    k < if s % B > 0 then s / B + 1 else s / B := by
  have hdiv := Nat.div_add_mod' s B
  have hmod := Nat.mod_lt s hB
  by_contra hge
  split at hge
  · have hle : (s / B + 1) * B ≤ k * B := Nat.mul_le_mul_right _ (by omega)
    rw [Nat.add_mul, Nat.one_mul] at hle
    omega
  · have hle : s / B * B ≤ k * B := Nat.mul_le_mul_right _ (by omega)
    omega

/-- The times of an inode say nothing of its file. -/
theorem setInode_times (fs : file_system) (i j : ℕ) (t₁ t₂ : timespec) :
    let fs' := fs.setInode i { fs.inode_root i with mtim := t₁, atim := t₂ }
    (fs'.inode_root j).size = (fs.inode_root j).size ∧
    (fs'.inode_root j).direct = (fs.inode_root j).direct ∧
    (fs'.inode_root j).indirect = (fs.inode_root j).indirect := by
  intro fs'
  by_cases hj : j = i
  · rw [hj, show fs'.inode_root i = _ from Function.update_self ..]
    exact ⟨rfl, rfl, rfl⟩
  · rw [show fs'.inode_root j = _ from Function.update_of_ne hj ..]
    exact ⟨rfl, rfl, rfl⟩

theorem sizeSum_eq (hmax : off + count ≤ L.maxSize) :
    sizeSum off count = off + count ∧ off + count < 2 ^ 63 := by
  have hlt : L.maxSize < 2 ^ 63 := L.size_lt
  refine ⟨Nat.mod_eq_of_lt ?_, ?_⟩ <;> omega

/-- **A write that succeeds** has its blocks, and goes on to copy. -/
theorem write_inv (hmin : P.EnsuresBlocks L live) (hfs : L.Formatted live fs) (hi : live i)
    (hnode : P.get_inode fs path = some i) (hmax : off + count ≤ L.maxSize)
    (hw : minixfs_write L P fs path buf count off t₁ t₂ = .ok r) (hsucc : r.ret ≠ -1) :
    ∃ fs₁ n, Allocated L live fs fs₁ i n ∧ (∀ k, k * L.data_block < off + count → k < n) ∧
      ∀ buf', minixfs_write L P fs path buf' count off t₁ t₂ = .ok (write_data L
        (fs₁.setInode i { fs₁.inode_root i with mtim := t₁, atim := t₂ }) i
        (decide (L.NUM_DIRECT_INODES ≤ off / L.data_block))
        (L.slot (fs₁.setInode i { fs₁.inode_root i with mtim := t₁, atim := t₂ }) i
          (off / L.data_block))
        (off / L.data_block) (off % L.data_block) ((off + count) % L.data_block) buf' count
        off) := by
  obtain ⟨hsum, -⟩ := sizeSum_eq hmax
  have hnot : ¬ off + count > L.data_block * (L.NUM_DIRECT_INODES + L.NUM_INDIRECT_INODES) :=
    Nat.not_lt.mpr hmax
  unfold minixfs_write at hw ⊢
  dsimp only at hw ⊢
  rw [hsum, if_neg hnot] at hw
  split at hw
  · obtain rfl := Except.ok.inj hw
    exact absurd rfl hsucc
  rename_i fs₁ hblocks
  obtain ⟨hnode₁, halloc⟩ := hmin fs path i _ fs₁ hfs hi hnode hblocks
  refine ⟨fs₁, _, halloc, fun k hk => lt_needBlock L.data_block_pos hk, fun buf' => ?_⟩
  rw [hsum, if_neg hnot, hblocks]
  dsimp only at hw ⊢
  rw [hnode₁] at hw ⊢
  dsimp only at hw ⊢
  -- the loop begins in the direct blocks, or it begins in the indirect ones
  by_cases hdirect : off / L.data_block < L.NUM_DIRECT_INODES
  · rw [if_pos hdirect, decide_eq_false (Nat.not_le.mpr hdirect), slot_direct hdirect]
  · rw [if_neg hdirect] at hw ⊢
    have hle : L.NUM_DIRECT_INODES ≤ off / L.data_block := Nat.le_of_not_lt hdirect
    split at hw
    · rename_i hlt
      rw [if_pos hlt, decide_eq_true hle, slot_indirect hle]
    · obtain rfl := Except.ok.inj hw
      exact absurd rfl hsucc

/-- **What a write leaves behind**: its copies, and its end as the size. -/
theorem write_spec (hmin : P.EnsuresBlocks L live) (hfs : L.Formatted live fs) (hi : live i)
    (hnode : P.get_inode fs path = some i) (hmax : off + count ≤ L.maxSize)
    (hw : minixfs_write L P fs path buf count off t₁ t₂ = .ok r) (hsucc : r.ret ≠ -1) :
    ∃ fs₁ n, Allocated L live fs fs₁ i n ∧ (∀ k, k * L.data_block < off + count → k < n) ∧
      L.Formatted live (fs₁.setInode i { fs₁.inode_root i with mtim := t₁, atim := t₂ }) ∧
      ∀ buf', ∃ fs₂, minixfs_write L P fs path buf' count off t₁ t₂ =
          .ok ⟨fs₂.setInode i { fs₂.inode_root i with size := off + count }, off + count, count,
            none⟩ ∧
        L.Wrote i (fs₁.setInode i { fs₁.inode_root i with mtim := t₁, atim := t₂ }) buf' off
          (copyEnd L off count) fs₂ := by
  obtain ⟨fs₁, n, halloc, hneed, hall⟩ := write_inv hmin hfs hi hnode hmax hw hsucc
  obtain ⟨fs₀, hfs₀⟩ : ∃ fs₀,
      fs₁.setInode i { fs₁.inode_root i with mtim := t₁, atim := t₂ } = fs₀ := ⟨_, rfl⟩
  obtain ⟨hsum, hlt⟩ := sizeSum_eq hmax
  have hdata : fs₀.data_root = fs₁.data_root := by rw [← hfs₀]; rfl
  have hbits : ∀ j, (fs₀.inode_root j).size = (fs₁.inode_root j).size ∧
      (fs₀.inode_root j).direct = (fs₁.inode_root j).direct ∧
      (fs₀.inode_root j).indirect = (fs₁.inode_root j).indirect := by
    intro j
    rw [← hfs₀]
    exact setInode_times fs₁ i j t₁ t₂
  have hfs₀' : L.Formatted live fs₀ :=
    halloc.formatted.congr (fun j _ => (hbits j).1) (fun j => (hbits j).2.1)
      (fun j => (hbits j).2.2) hdata
  refine ⟨fs₁, n, halloc, hneed, hfs₀ ▸ hfs₀', fun buf' => ?_⟩
  -- the blocks were there before the times were written
  have hneeds : Needs L fs₀ i off count := by
    intro k hk
    have howned := halloc.owned k (hneed k hk)
    exact (Layout.owned_congr (hbits i).2.1 (hbits i).2.2 (by rw [hdata])).mpr howned
  have hsize : (fs₀.inode_root i).size < 2 ^ 64 := by
    have hle := hfs₀'.size_le i hi
    have hlt' : L.maxSize < 2 ^ 63 := L.size_lt
    omega
  have hbuf := hall buf'
  rw [hfs₀] at hbuf ⊢
  obtain ⟨fs₂, hres, hwrote⟩ :=
    @write_data_spec L live fs₀ i count off buf' hfs₀' hi hneeds hsum hsize (by omega)
  exact ⟨fs₂, hbuf.trans (congrArg Except.ok hres), hwrote⟩

/-- The bytes of a file are read off its slots. -/
theorem byteAt_congr {x : ℕ}
    (hslot : L.slot fs' i (x / L.data_block) = L.slot fs i (x / L.data_block))
    (hdata : fs'.data_root (L.slot fs i (x / L.data_block)) =
      fs.data_root (L.slot fs i (x / L.data_block))) : L.byteAt fs' i x = L.byteAt fs i x := by
  unfold Layout.byteAt
  rw [hslot, hdata]

theorem byteAt_setInode_size (fs : file_system) (i size x : ℕ) :
    L.byteAt (fs.setInode i { fs.inode_root i with size := size }) i x = L.byteAt fs i x := by
  have hnode : (fs.setInode i { fs.inode_root i with size := size }).inode_root i =
      { fs.inode_root i with size := size } := Function.update_self ..
  apply byteAt_congr
  · apply Layout.slot_congr
    · rw [hnode]
    · rw [hnode]
    · exact fun _ => rfl
  · rfl

theorem slot_setInode_times (fs : file_system) (i k : ℕ) (t₁ t₂ : timespec) :
    L.slot (fs.setInode i { fs.inode_root i with mtim := t₁, atim := t₂ }) i k =
      L.slot fs i k := by
  obtain ⟨-, hdirect, hindirect⟩ := setInode_times fs i i t₁ t₂
  exact Layout.slot_congr hdirect hindirect (fun _ => rfl)

theorem byteAt_setInode_times (fs : file_system) (i x : ℕ) (t₁ t₂ : timespec) :
    L.byteAt (fs.setInode i { fs.inode_root i with mtim := t₁, atim := t₂ }) i x =
      L.byteAt fs i x :=
  byteAt_congr (slot_setInode_times fs i _ t₁ t₂) rfl

theorem owned_setInode_times (fs : file_system) (i : ℕ) (p : Place) (t₁ t₂ : timespec) :
    L.Owned (fs.setInode i { fs.inode_root i with mtim := t₁, atim := t₂ }) i p ↔
      L.Owned fs i p := by
  obtain ⟨-, hdirect, hindirect⟩ := setInode_times fs i i t₁ t₂
  exact Layout.owned_congr hdirect hindirect rfl

/-- Another file has the same blocks in the same places. -/
theorem Allocated.block_other {n j : ℕ} {p : Place} (halloc : Allocated L live fs fs₁ i n)
    (hj : live j) (hne : j ≠ i) (hp : L.Owned fs j p) :
    L.Owned fs₁ j p ∧ L.block fs₁ j p = L.block fs j p := by
  have hnode : fs₁.inode_root j = fs.inode_root j := halloc.inode_root j hne
  cases p with
  | indirect =>
    refine ⟨?_, ?_⟩
    · show (fs₁.inode_root j).indirect ≠ _
      rw [hnode]
      exact hp
    · show (fs₁.inode_root j).indirect = _
      rw [hnode]
      rfl
  | slot k =>
    have hslot : L.slot fs₁ j k = L.slot fs j k := by
      apply Layout.slot_congr
      · rw [hnode]
      · rw [hnode]
      · -- the numbers in its indirect block are among what was kept
        exact fun hle => halloc.others j .indirect hj hne (hp.2.2 hle)
    refine ⟨⟨hp.1, ?_, ?_⟩, hslot⟩
    · rw [hslot]
      exact hp.2.1
    · rw [hnode]
      exact hp.2.2

/-- **What a write that neither spills nor shrinks the file does.** -/
theorem overwritten_of_wrote {n : ℕ} {fs₂ : file_system} (hfs : L.Formatted live fs) (hi : live i)
    (halloc : Allocated L live fs fs₁ i n) (hneed : ∀ k, k * L.data_block < off + count → k < n)
    (hwrote : L.Wrote i (fs₁.setInode i { fs₁.inode_root i with mtim := t₁, atim := t₂ }) buf off
      (off + count) fs₂)
    (hgrow : (fs.inode_root i).size ≤ off + count) :
    Overwritten L live fs i buf count off
      ⟨fs₂.setInode i { fs₂.inode_root i with size := off + count }, off + count, count, none⟩ := by
  obtain ⟨fs₀, hfs₀⟩ : ∃ fs₀,
      fs₁.setInode i { fs₁.inode_root i with mtim := t₁, atim := t₂ } = fs₀ := ⟨_, rfl⟩
  -- the times of the file do not matter
  have hbytes₀ : ∀ x, L.byteAt fs₀ i x = L.byteAt fs₁ i x := by
    intro x
    rw [← hfs₀]
    exact byteAt_setInode_times fs₁ i x t₁ t₂
  have hdata₀ : fs₀.data_root = fs₁.data_root := by rw [← hfs₀]; rfl
  have howned₀ : ∀ {p}, L.Owned fs₀ i p ↔ L.Owned fs₁ i p := by
    intro p
    rw [← hfs₀]
    exact owned_setInode_times fs₁ i p t₁ t₂
  have hslot₀ : ∀ k, L.slot fs₀ i k = L.slot fs₁ i k := by
    intro k
    rw [← hfs₀]
    exact slot_setInode_times fs₁ i k t₁ t₂
  rw [hfs₀] at hwrote
  have hother : ∀ j, j ≠ i → fs₂.inode_root j = fs.inode_root j := by
    intro j hj
    rw [hwrote.inode_root, ← hfs₀]
    exact (Function.update_of_ne hj ..).trans (halloc.inode_root j hj)
  refine ⟨fun x h1 h2 => ?_, fun x hx hout => ?_, fun j hj hne => ⟨?_, fun p hp => ?_⟩, ?_, rfl,
    rfl⟩
  · have hk : L.Owned fs₀ i (.slot (x / L.data_block)) := by
      apply howned₀.mpr
      apply halloc.owned
      apply hneed
      exact (Nat.div_mul_le_self x L.data_block).trans_lt h2
    show L.byteAt (fs₂.setInode i _) i x = _
    rw [byteAt_setInode_size, hwrote.bytes x hk, if_pos ⟨h1, h2⟩]
  · -- a byte of the file as it was
    have hk : L.Owned fs i (.slot (x / L.data_block)) := by
      apply hfs.owned i _ hi
      exact (Nat.div_mul_le_self x L.data_block).trans_lt hx
    obtain ⟨hslot, hdata⟩ := halloc.kept _ hk
    have hk₀ : L.Owned fs₀ i (.slot (x / L.data_block)) := by
      apply howned₀.mpr
      apply halloc.owned
      apply hneed
      exact (Nat.div_mul_le_self x L.data_block).trans_lt (hx.trans_le hgrow)
    show L.byteAt (fs₂.setInode i _) i x = _
    rw [byteAt_setInode_size, hwrote.bytes x hk₀, if_neg (by omega), hbytes₀]
    exact byteAt_congr hslot hdata
  · exact (Function.update_of_ne hne ..).trans (hother j hne)
  · -- a block of another file is none of the slots
    obtain ⟨hp₁, hblock⟩ := halloc.block_other hj hne hp
    have hnone : ∀ k, L.Owned fs₀ i (.slot k) → L.block fs j p ≠ L.slot fs₀ i k := by
      intro k hk heq
      rw [hslot₀, ← hblock] at heq
      exact hne (halloc.formatted.distinct j i p (.slot k) hj hi hp₁ (howned₀.mp hk) heq).1
    show fs₂.data_root _ = _
    rw [hwrote.other _ hnone, hdata₀]
    exact halloc.others j p hj hne hp
  · show (Function.update fs₂.inode_root i _ i).size = _
    rw [Function.update_self, max_eq_right hgrow]

/-- A write that spills puts the byte behind the buffer into the file. -/
theorem ne_of_spills {n size : ℕ} {fs₂ fs₃ : file_system} (halloc : Allocated L live fs fs₁ i n)
    (hneed : ∀ k, k * L.data_block < off + count → k < n) (hspills : Spills L off count)
    (hwrote : L.Wrote i (fs₁.setInode i { fs₁.inode_root i with mtim := t₁, atim := t₂ }) buf off
      (copyEnd L off count) fs₂)
    (hwrote' : L.Wrote i (fs₁.setInode i { fs₁.inode_root i with mtim := t₁, atim := t₂ })
      (Function.update buf count (buf count + 1)) off (copyEnd L off count) fs₃) :
    fs₂.setInode i { fs₂.inode_root i with size := size } ≠
      fs₃.setInode i { fs₃.inode_root i with size := size } := by
  intro hsame
  have hdiv := Nat.div_add_mod' (off + count) L.data_block
  have hmodpos := hspills.2.2
  -- the copies go on past the end of the buffer
  have hend : off + count < copyEnd L off count := by
    have hlt := Nat.mod_lt (off + count) L.data_block_pos
    rw [copyEnd, if_pos hspills, Nat.add_mul, Nat.one_mul]
    omega
  have hk : L.Owned (fs₁.setInode i { fs₁.inode_root i with mtim := t₁, atim := t₂ }) i
      (.slot ((off + count) / L.data_block)) := by
    apply (owned_setInode_times fs₁ i _ t₁ t₂).mpr
    exact halloc.owned _ (hneed _ (by omega))
  have h2 := hwrote.bytes (off + count) hk
  have h3 := hwrote'.bytes (off + count) hk
  rw [if_pos ⟨by omega, hend⟩, Nat.add_sub_cancel_left] at h2 h3
  rw [Function.update_self] at h3
  have hbyte := congrArg (fun fs => L.byteAt fs i (off + count)) hsame
  dsimp only at hbyte
  rw [byteAt_setInode_size, byteAt_setInode_size, h2, h3] at hbyte
  -- but a byte is not its successor
  have hnat := congrArg UInt8.toNat hbyte
  rw [UInt8.toNat_add] at hnat
  have hone : (1 : UInt8).toNat = 1 := rfl
  have hlt := (buf count).toNat_lt
  rw [hone] at hnat
  omega

/-- **When a write is correct.**  A write that succeeds puts the buffer into the file, and
    leaves everything else, exactly if it does not end inside the file and its copies do not
    go from the direct blocks into a part of an indirect one. -/
theorem write_correct (hmin : P.EnsuresBlocks L live) (hfs : L.Formatted live fs) (hi : live i)
    (hnode : P.get_inode fs path = some i) (hmax : off + count ≤ L.maxSize)
    (hw : minixfs_write L P fs path buf count off t₁ t₂ = .ok r) (hsucc : r.ret ≠ -1) :
    (Overwritten L live fs i buf count off r ∧
      ∀ buf' : Mem, (∀ k, k < count → buf' k = buf k) →
        minixfs_write L P fs path buf' count off t₁ t₂ = .ok r) ↔
      (fs.inode_root i).size ≤ off + count ∧ ¬ Spills L off count := by
  obtain ⟨fs₁, n, halloc, hneed, hfs₀, hall⟩ := write_spec hmin hfs hi hnode hmax hw hsucc
  obtain ⟨fs₂, hres, hwrote⟩ := hall buf
  have hr := Except.ok.inj (hw.symm.trans hres)
  constructor
  · rintro ⟨hover, honly⟩
    constructor
    · -- the size is the end of the write
      have hsize : (r.fs.inode_root i).size = off + count := by
        rw [hr]
        show (Function.update fs₂.inode_root i _ i).size = _
        rw [Function.update_self]
      have hmaxi := hover.size
      rw [hsize] at hmaxi
      exact hmaxi.symm ▸ le_max_left _ _
    · -- another byte behind the buffer would give another file
      intro hspills
      obtain ⟨fs₃, hres', hwrote'⟩ := hall (Function.update buf count (buf count + 1))
      have hsame := honly (Function.update buf count (buf count + 1)) (fun k hk =>
        Function.update_of_ne (Nat.ne_of_lt hk) ..)
      have hr' := Except.ok.inj (hsame.symm.trans hres')
      have hfs₂₃ := congrArg Result.fs (hr.symm.trans hr')
      exact ne_of_spills halloc hneed hspills hwrote hwrote' hfs₂₃
  · rintro ⟨hgrow, hnot⟩
    rw [copyEnd, if_neg hnot] at hwrote
    constructor
    · rw [hr]
      exact overwritten_of_wrote hfs hi halloc hneed hwrote hgrow
    · intro buf' hbuf
      obtain ⟨fs₃, hres', hwrote'⟩ := hall buf'
      rw [copyEnd, if_neg hnot] at hwrote'
      have hfs₃ : fs₃ = fs₂ := hwrote.unique hwrote' hfs₀ hi (fun k hk => hbuf k (by omega))
      rw [hres', hr, hfs₃]

/-! ### A small disk -/

/-- Blocks of eight bytes, one of a file in its inode and two in its indirect block. -/
def tiny : Layout where
  data_block := 8
  NUM_DIRECT_INODES := 1
  NUM_INDIRECT_INODES := 2
  UNASSIGNED := -1
  data_block_pos := by decide
  direct_pos := by decide
  indirect_le := by decide
  count_lt := by decide
  size_lt := by decide

/-- One file, which has the blocks 0, 2 and 3. -/
def oneFile (size : ℕ) : file_system where
  «meta» := ⟨4, fun _ => 1⟩
  inode_root _ := ⟨0, 0, 0, 0, 0, 0, size, fun _ => 0, 1⟩
  data_root b x := if b = 1 then (if x = 0 then 2 else if x = 4 then 3 else 0) else 0

/-- The utilities, on a disk where no more blocks are free. -/
def fullDisk (L : Layout) : Utils where
  is_virtual_path _ := none
  get_inode _ path := if path = [47] then some 0 else none
  minixfs_min_blockcount fs _ n := (fs, decide (∀ k, k < n → L.Owned fs 0 (.slot k)))
  parent_directory _ path := (some 0, path)
  valid_filename name := !name.isEmpty
  is_file _ := true
  first_unused_inode _ := none
  add_data_block_to_inode fs _ := (fs, -1)
  add_single_indirect_block fs _ := (fs, -1)
  add_data_block_to_indirect_block fs _ := (fs, -1)
  init_inode _ n := n
  make_string_from_dirent _ _ _ := 0

theorem fullDisk_ensures (L : Layout) (live : ℕ → Prop) :
    (fullDisk L).EnsuresBlocks L live := by
  intro fs path i n fs' hfs hi hnode hblocks
  obtain ⟨rfl, hown⟩ := Prod.mk.inj hblocks
  have hzero : i = 0 := by
    have hsome : (if path = [47] then some 0 else none) = some i := hnode
    split at hsome
    · exact (Option.some.inj hsome).symm
    · exact absurd hsome (by simp)
  subst hzero
  exact ⟨hnode, hfs, of_decide_eq_true hown, fun _ _ => rfl, rfl, fun _ _ => ⟨rfl, rfl⟩,
    fun _ _ _ _ _ => rfl⟩

theorem formatted_oneFile {size : ℕ} (hsize : size ≤ 24) :
    tiny.Formatted (fun i => i = 0) (oneFile size) := by
  have hslot : ∀ k, k < 3 → tiny.slot (oneFile size) 0 k = [0, 2, 3].getD k 0 := by
    intro k hk
    have hsame : tiny.slot (oneFile size) 0 k = tiny.slot (oneFile 0) 0 k := rfl
    rw [hsame]
    interval_cases k <;> decide +kernel
  refine ⟨?_, ?_, ?_⟩
  · rintro i rfl
    exact hsize
  · rintro i k rfl hk
    have hlt : k * 8 < size := hk
    have hk3 : k < 3 := by omega
    refine ⟨hk3, ?_, fun _ => show (1 : ℤ) ≠ -1 by decide⟩
    rw [hslot k hk3]
    interval_cases k <;> decide
  · rintro i j p q rfl rfl hp hq heq
    refine ⟨rfl, ?_⟩
    cases p with
    | slot k =>
      have hk : k < 3 := hp.1
      cases q with
      | slot n =>
        have hn : n < 3 := hq.1
        have hnum : tiny.slot (oneFile size) 0 k = tiny.slot (oneFile size) 0 n := heq
        rw [hslot k hk, hslot n hn] at hnum
        interval_cases k <;> interval_cases n <;> simp_all
      | indirect =>
        have hnum : tiny.slot (oneFile size) 0 k = 1 := heq
        rw [hslot k hk] at hnum
        interval_cases k <;> simp at hnum
    | indirect =>
      cases q with
      | slot n =>
        have hn : n < 3 := hq.1
        have hnum : 1 = tiny.slot (oneFile size) 0 n := heq
        rw [hslot n hn] at hnum
        interval_cases n <;> simp at hnum
      | indirect => rfl

/-- A call that was computed has returned. -/
theorem eq_ok_of_toOption {α : Type} {x : Except Stop α} {a : α} (h : x.toOption = some a) :
    x = .ok a := by
  cases x with
  | error e => exact absurd h (by simp [Except.toOption])
  | ok b => exact congrArg Except.ok (Option.some.inj h)

/-- Two bytes behind the one that the file has. -/
theorem write_correct_append : ∃ r, minixfs_write tiny (fullDisk tiny) (oneFile 1) [47]
      (fun _ => 65) 2 1 5 6 = .ok r ∧
    Overwritten tiny (fun i => i = 0) (oneFile 1) 0 (fun _ => 65) 2 1 r := by
  have hrun : (minixfs_write tiny (fullDisk tiny) (oneFile 1) [47] (fun _ => 65) 2 1 5
      6).toOption.any (fun r => decide (r.ret ≠ -1)) = true := by decide +kernel
  obtain ⟨r, hr, hsucc⟩ := (Option.any_eq_true _ _).mp hrun
  have hw := eq_ok_of_toOption hr
  have hcorrect := (write_correct (fullDisk_ensures tiny (fun i => i = 0))
    (@formatted_oneFile 1 (by decide)) rfl (i := 0) rfl (by decide) hw
    (of_decide_eq_true hsucc)).mpr ⟨by decide, by decide⟩
  exact ⟨r, hw, hcorrect.1⟩

/-- A write of two bytes makes a file of four bytes one of two; and a write of ten bytes puts
    the byte behind its buffer into the file. -/
theorem not_write_correct :
    (tiny.Formatted (fun i => i = 0) (oneFile 4) ∧
      (fullDisk tiny).EnsuresBlocks tiny (fun i => i = 0) ∧
      (fullDisk tiny).get_inode (oneFile 4) [47] = some 0 ∧ 0 + 2 ≤ tiny.maxSize ∧
      ∃ r, minixfs_write tiny (fullDisk tiny) (oneFile 4) [47] (fun _ => 65) 2 0 5 6 = .ok r ∧
        r.ret ≠ -1 ∧ (r.fs.inode_root 0).size = 2 ∧
        ¬ Overwritten tiny (fun i => i = 0) (oneFile 4) 0 (fun _ => 65) 2 0 r) ∧
    (tiny.Formatted (fun i => i = 0) (oneFile 0) ∧
      ∃ (buf buf' : Mem) (r r' : Result), (∀ k, k < 10 → buf' k = buf k) ∧
        minixfs_write tiny (fullDisk tiny) (oneFile 0) [47] buf 10 0 5 6 = .ok r ∧
        minixfs_write tiny (fullDisk tiny) (oneFile 0) [47] buf' 10 0 5 6 = .ok r' ∧
        r.ret ≠ -1 ∧ r'.fs.data_root 2 2 ≠ r.fs.data_root 2 2) := by
  constructor
  · have hrun : (minixfs_write tiny (fullDisk tiny) (oneFile 4) [47] (fun _ => 65) 2 0 5
        6).toOption.any (fun r => decide (r.ret ≠ -1 ∧ (r.fs.inode_root 0).size = 2)) = true := by decide +kernel
    obtain ⟨r, hr, hdone⟩ := (Option.any_eq_true _ _).mp hrun
    obtain ⟨hsucc, hsize⟩ := of_decide_eq_true hdone
    refine ⟨formatted_oneFile (by decide), fullDisk_ensures tiny _, rfl, by decide, r,
      eq_ok_of_toOption hr, hsucc, hsize, fun hover => ?_⟩
    have hmaxi := hover.size
    rw [hsize] at hmaxi
    exact absurd hmaxi (by decide)
  · have hrun : (minixfs_write tiny (fullDisk tiny) (oneFile 0) [47] (fun _ => 65) 10 0 5
        6).toOption.any (fun r => decide (r.ret ≠ -1 ∧ r.fs.data_root 2 2 = 65)) = true := by decide +kernel
    have hrun' : (minixfs_write tiny (fullDisk tiny) (oneFile 0) [47]
        (fun x => if x < 10 then 65 else 66) 10 0 5 6).toOption.any
        (fun r => decide (r.fs.data_root 2 2 = 66)) = true := by decide +kernel
    obtain ⟨r, hr, hdone⟩ := (Option.any_eq_true _ _).mp hrun
    obtain ⟨r', hr', hdone'⟩ := (Option.any_eq_true _ _).mp hrun'
    obtain ⟨hsucc, hbyte⟩ := of_decide_eq_true hdone
    have hbyte' : r'.fs.data_root 2 2 = 66 := of_decide_eq_true hdone'
    refine ⟨formatted_oneFile (by decide), fun _ => 65, fun x => if x < 10 then 65 else 66, r, r',
      fun k hk => if_pos hk, eq_ok_of_toOption hr, eq_ok_of_toOption hr', hsucc, ?_⟩
    rw [hbyte, hbyte']
    decide

end SystemProgramming.Filesystem
