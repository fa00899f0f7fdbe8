import SystemProgramming.Lib.Bytes
import Mathlib.Logic.Function.Basic
import Mathlib.Data.Int.Notation

namespace SystemProgramming.Filesystem

open SystemProgramming.Lib

/-!
# `finding_filesystems/minixfs.c` — files and their blocks

A file has its first blocks in its inode, and the numbers of the others in one further block,
the indirect block.  `minixfs.h` and `minixfs_utils.h` are not in the repository: the constants
are a `Layout`, and the functions of the utilities are parameters, `Utils`.

* `Layout.slot` — the number of the `k`-th block of a file.
* `Layout.byteAt` — the file as bytes.
* `Layout.Formatted` — the files have their blocks, and no block has two places.
* `Layout.Wrote` — what copies into the blocks of a file come to: they compose, and each is
  one copy into the file.
-/

/-- The constants of `minixfs.h`.  The size of a file fits an `off_t`, and the number of its
    blocks an `int`. -/
structure Layout where
  /-- `sizeof(data_block)` -/
  data_block : ℕ
  NUM_DIRECT_INODES : ℕ
  NUM_INDIRECT_INODES : ℕ
  /-- the number in a slot without a block -/
  UNASSIGNED : ℤ
  data_block_pos : 0 < data_block
  direct_pos : 0 < NUM_DIRECT_INODES
  /-- the numbers of four bytes fit the indirect block -/
  indirect_le : 4 * NUM_INDIRECT_INODES ≤ data_block
  count_lt : NUM_DIRECT_INODES + NUM_INDIRECT_INODES < 2 ^ 31
  size_lt : data_block * (NUM_DIRECT_INODES + NUM_INDIRECT_INODES) < 2 ^ 63

/-- `struct timespec` -/
abbrev timespec := ℕ

/-- `inode`; `direct` has `NUM_DIRECT_INODES` entries. -/
structure inode where
  uid : ℕ
  gid : ℕ
  mode : ℕ
  atim : timespec
  mtim : timespec
  ctim : timespec
  size : ℕ
  direct : ℕ → ℤ
  indirect : ℤ

/-- `superblock`, with its map of the data blocks. -/
structure superblock where
  dblock_count : ℕ
  data_map : ℕ → UInt8

/-- `file_system` -/
structure file_system where
  «meta» : superblock
  inode_root : ℕ → inode
  data_root : ℤ → Mem

/-- A path, or the name of a file. -/
abbrev Path := List UInt8

/-- What `errno` is set to. -/
inductive Errno
  | ENOENT
  | ENOSPC
  deriving DecidableEq

/-- Why a call does not return. -/
inductive Stop
  /-- a null pointer is dereferenced -/
  | null
  /-- the array `direct` is read past its end -/
  | bounds
  deriving DecidableEq

/-- The functions of `minixfs_utils.h`; `false` and `none` stand for their `-1` and `NULL`,
    except where a number is returned. -/
structure Utils where
  is_virtual_path : Path → Option Path
  get_inode : file_system → Path → Option ℕ
  minixfs_min_blockcount : file_system → Path → ℕ → file_system × Bool
  /-- the parent, and the name of the file in it -/
  parent_directory : file_system → Path → Option ℕ × Path
  valid_filename : Path → Bool
  is_file : inode → Bool
  first_unused_inode : file_system → Option ℕ
  add_data_block_to_inode : file_system → ℕ → file_system × ℤ
  add_single_indirect_block : file_system → ℕ → file_system × ℤ
  /-- the block is the indirect one -/
  add_data_block_to_indirect_block : file_system → ℤ → file_system × ℤ
  /-- from the parent -/
  init_inode : inode → inode → inode
  /-- the 256 bytes of an entry -/
  make_string_from_dirent : ℕ → Path → Mem

namespace file_system

/-- Assign to an inode. -/
def setInode (fs : file_system) (i : ℕ) (n : inode) : file_system :=
  { fs with inode_root := Function.update fs.inode_root i n }

/-- `memcpy` to the block `b`, from its byte `o` on, of the `n` bytes of `buf` from `p` on. -/
def memcpy (fs : file_system) (b : ℤ) (o : ℕ) (buf : Mem) (p n : ℕ) : file_system :=
  { fs with
    data_root := Function.update fs.data_root b
      (fun x => if o ≤ x ∧ x < o + n then buf (p + (x - o)) else fs.data_root b x) }

/-- `barray[k]`, where `barray` is the block `b` as an array of block numbers. -/
def entry (fs : file_system) (b : ℤ) (k : ℕ) : ℤ :=
  ((fs.data_root b).load 4 (4 * k) : ℤ).bmod (2 ^ 32)

/-- `barray[k]`, where `barray` is the indirect block of the inode. -/
def barray (fs : file_system) (i k : ℕ) : ℤ := fs.entry (fs.inode_root i).indirect k

end file_system

variable {L : Layout} {live : ℕ → Prop} {fs fs' : file_system} {i j k n o x y : ℕ} {b : ℤ}
  {buf buf' : Mem}

/-! ### The blocks of a file -/

/-- A place where an inode has the number of a block. -/
inductive Place
  | slot (k : ℕ)
  | indirect
  deriving DecidableEq

namespace Layout

/-- The most bytes that a file has. -/
def maxSize (L : Layout) : ℕ := L.data_block * (L.NUM_DIRECT_INODES + L.NUM_INDIRECT_INODES)

/-- The number of the `k`-th block of a file. -/
def slot (L : Layout) (fs : file_system) (i k : ℕ) : ℤ :=
  if k < L.NUM_DIRECT_INODES then (fs.inode_root i).direct k
  else fs.barray i (k - L.NUM_DIRECT_INODES)

/-- The number at a place. -/
def block (L : Layout) (fs : file_system) (i : ℕ) : Place → ℤ
  | .slot k => L.slot fs i k
  | .indirect => (fs.inode_root i).indirect

/-- There is a block at a place. -/
def Owned (L : Layout) (fs : file_system) (i : ℕ) : Place → Prop
  | .slot k => k < L.NUM_DIRECT_INODES + L.NUM_INDIRECT_INODES ∧ L.slot fs i k ≠ L.UNASSIGNED ∧
      (L.NUM_DIRECT_INODES ≤ k → (fs.inode_root i).indirect ≠ L.UNASSIGNED)
  | .indirect => (fs.inode_root i).indirect ≠ L.UNASSIGNED

instance (L : Layout) (fs : file_system) (i : ℕ) (p : Place) : Decidable (L.Owned fs i p) :=
  match p with
  | .slot _ => inferInstanceAs (Decidable (_ ∧ _ ∧ _))
  | .indirect => inferInstanceAs (Decidable (_ ≠ _))

/-- The byte `x` of a file. -/
def byteAt (L : Layout) (fs : file_system) (i x : ℕ) : UInt8 :=
  fs.data_root (L.slot fs i (x / L.data_block)) (x % L.data_block)

/-- The files `live` have the blocks for their bytes, and no block has two places. -/
structure Formatted (L : Layout) (live : ℕ → Prop) (fs : file_system) : Prop where
  size_le : ∀ i, live i → (fs.inode_root i).size ≤ L.maxSize
  owned : ∀ i k, live i → k * L.data_block < (fs.inode_root i).size → L.Owned fs i (.slot k)
  distinct : ∀ i j p q, live i → live j → L.Owned fs i p → L.Owned fs j q →
    L.block fs i p = L.block fs j q → i = j ∧ p = q

/-- The slots are read off the inode and its indirect block. -/
theorem slot_congr (hdirect : (fs'.inode_root i).direct = (fs.inode_root i).direct)
    (hindirect : (fs'.inode_root i).indirect = (fs.inode_root i).indirect)
    (hdata : L.NUM_DIRECT_INODES ≤ k → fs'.data_root (fs.inode_root i).indirect =
      fs.data_root (fs.inode_root i).indirect) : L.slot fs' i k = L.slot fs i k := by
  unfold slot file_system.barray file_system.entry
  rw [hdirect, hindirect]
  split
  · rfl
  · rename_i hk
    rw [hdata (Nat.le_of_not_lt hk)]

/-- A place that is a block of the file stays one. -/
theorem owned_congr {p : Place} (hdirect : (fs'.inode_root i).direct = (fs.inode_root i).direct)
    (hindirect : (fs'.inode_root i).indirect = (fs.inode_root i).indirect)
    (hdata : fs'.data_root (fs.inode_root i).indirect = fs.data_root (fs.inode_root i).indirect) :
    L.Owned fs' i p ↔ L.Owned fs i p := by
  cases p with
  | slot k =>
    unfold Owned
    dsimp only
    rw [slot_congr hdirect hindirect (fun _ => hdata), hindirect]
  | indirect =>
    unfold Owned
    dsimp only
    rw [hindirect]

/-- What `Formatted` is read off. -/
theorem Formatted.congr (hfs : L.Formatted live fs)
    (hsize : ∀ i, live i → (fs'.inode_root i).size = (fs.inode_root i).size)
    (hdirect : ∀ i, (fs'.inode_root i).direct = (fs.inode_root i).direct)
    (hindirect : ∀ i, (fs'.inode_root i).indirect = (fs.inode_root i).indirect)
    (hdata : fs'.data_root = fs.data_root) : L.Formatted live fs' := by
  have howned : ∀ {i p}, L.Owned fs' i p ↔ L.Owned fs i p := by
    intro i p
    exact owned_congr (hdirect i) (hindirect i) (by rw [hdata])
  have hblock : ∀ {i p}, L.block fs' i p = L.block fs i p := by
    intro i p
    cases p with
    | slot k => exact slot_congr (hdirect i) (hindirect i) (fun _ => by rw [hdata])
    | indirect => exact hindirect i
  refine ⟨?_, ?_, ?_⟩
  · intro i hi
    rw [hsize i hi]
    exact hfs.size_le i hi
  · intro i k hi hk
    rw [hsize i hi] at hk
    exact howned.mpr (hfs.owned i k hi hk)
  · intro i j p q hi hj hp hq heq
    rw [hblock, hblock] at heq
    exact hfs.distinct i j p q hi hj (howned.mp hp) (howned.mp hq) heq

/-- The indirect block is none of the slots. -/
theorem Formatted.slot_ne_indirect (hfs : L.Formatted live fs) (hi : live i)
    (hk : L.Owned fs i (.slot k)) (hind : L.Owned fs i .indirect) :
    L.slot fs i k ≠ (fs.inode_root i).indirect := by
  intro heq
  exact absurd (hfs.distinct i i (.slot k) .indirect hi hi hk hind heq).2 (by simp)

theorem Formatted.slot_inj (hfs : L.Formatted live fs) (hi : live i)
    (hk : L.Owned fs i (.slot k)) (hn : L.Owned fs i (.slot n))
    (heq : L.slot fs i k = L.slot fs i n) : k = n :=
  Place.slot.inj (hfs.distinct i i (.slot k) (.slot n) hi hi hk hn heq).2

/-! ### Copies into a file -/

/-- The bytes from `off` up to `y` of the file were copied from `buf`. -/
structure Wrote (L : Layout) (i : ℕ) (fs : file_system) (buf : Mem) (off y : ℕ)
    (fs' : file_system) : Prop where
  same : fs' = { fs with data_root := fs'.data_root }
  bytes : ∀ x, L.Owned fs i (.slot (x / L.data_block)) →
    L.byteAt fs' i x = if off ≤ x ∧ x < y then buf (x - off) else L.byteAt fs i x
  other : ∀ b, (∀ k, L.Owned fs i (.slot k) → b ≠ L.slot fs i k) →
    fs'.data_root b = fs.data_root b
  /-- nothing behind a block -/
  behind : ∀ b x, L.data_block ≤ x → fs'.data_root b x = fs.data_root b x

variable {off : ℕ}

theorem Wrote.nothing (L : Layout) (i : ℕ) (fs : file_system) (buf : Mem) (off : ℕ) :
    L.Wrote i fs buf off off fs := by
  refine ⟨rfl, fun x _ => ?_, fun _ _ => rfl, fun _ _ _ => rfl⟩
  rw [if_neg (by omega)]

theorem Wrote.inode_root (hw : L.Wrote i fs buf off y fs') : fs'.inode_root = fs.inode_root := by
  rw [hw.same]

/-- The slots stay. -/
theorem Wrote.slot (hw : L.Wrote i fs buf off y fs') (hfs : L.Formatted live fs) (hi : live i)
    (hk : L.Owned fs i (.slot k)) : L.slot fs' i k = L.slot fs i k := by
  have hnode : fs'.inode_root i = fs.inode_root i := congrFun hw.inode_root i
  apply slot_congr
  · rw [hnode]
  · rw [hnode]
  · intro hle
    apply hw.other
    intro n hn heq
    exact hfs.slot_ne_indirect hi hn (hk.2.2 hle) heq.symm

/-- **One more copy**, of bytes that follow, into the block where they belong. -/
theorem Wrote.memcpy (hw : L.Wrote i fs buf off y fs') (hfs : L.Formatted live fs) (hi : live i)
    (hk : L.Owned fs i (.slot k)) (hy : k * L.data_block + o = y) (ho : o + n ≤ L.data_block)
    (hoff : off ≤ y) :
    L.Wrote i fs buf off (y + n) (fs'.memcpy (L.slot fs' i k) o buf (y - off) n) := by
  have hpos : 0 < L.data_block := L.data_block_pos
  obtain ⟨b, hb⟩ : ∃ b, L.slot fs i k = b := ⟨_, rfl⟩
  rw [hw.slot hfs hi hk, hb]
  obtain ⟨fs₁, hfs₁⟩ : ∃ fs₁, fs'.memcpy b o buf (y - off) n = fs₁ := ⟨_, rfl⟩
  rw [hfs₁]
  have hnode : fs₁.inode_root = fs.inode_root := by
    rw [← hfs₁]
    exact hw.inode_root
  have hother : ∀ c, c ≠ b → fs₁.data_root c = fs'.data_root c := by
    intro c hc
    rw [← hfs₁]
    exact Function.update_of_ne hc ..
  have hself : ∀ z, fs₁.data_root b z =
      if o ≤ z ∧ z < o + n then buf (y - off + (z - o)) else fs'.data_root b z := by
    intro z
    rw [← hfs₁]
    show Function.update fs'.data_root b _ b z = _
    rw [Function.update_self]
  have hrest : ∀ c, (∀ k, L.Owned fs i (.slot k) → c ≠ L.slot fs i k) →
      fs₁.data_root c = fs.data_root c := by
    intro c hc
    rw [hother c (fun heq => hc k hk (heq.trans hb.symm))]
    exact hw.other c hc
  have hslot : ∀ {m}, L.Owned fs i (.slot m) → L.slot fs₁ i m = L.slot fs i m := by
    intro m hm
    apply slot_congr
    · rw [hnode]
    · rw [hnode]
    · intro hle
      apply hrest
      intro m' hm' heq
      exact hfs.slot_ne_indirect hi hm' (hm.2.2 hle) heq.symm
  have hsame : fs₁ = { fs with data_root := fs₁.data_root } := by
    rw [← hfs₁]
    unfold file_system.memcpy
    rw [hw.same]
  refine ⟨hsame, fun x hx => ?_, hrest, fun c x hx => ?_⟩
  rotate_left
  · by_cases hc : c = b
    · rw [hc, hself, if_neg (by omega)]
      exact hw.behind b x hx
    · rw [hother c hc]
      exact hw.behind c x hx
  have hold := hw.bytes x hx
  unfold byteAt at hold ⊢
  rw [hw.slot hfs hi hx] at hold
  rw [hslot hx]
  have hdiv := Nat.div_add_mod' x L.data_block
  have hmod := Nat.mod_lt x hpos
  by_cases hxk : x / L.data_block = k
  · -- the block that is written
    rw [hxk, hb] at hold ⊢
    rw [hxk] at hdiv
    rw [hself]
    split
    · rw [if_pos (by omega)]
      congr 1
      omega
    · rw [hold]
      by_cases hin : off ≤ x ∧ x < y
      · rw [if_pos hin, if_pos (by omega)]
      · rw [if_neg hin, if_neg (by omega)]
  · have hne : L.slot fs i (x / L.data_block) ≠ b := by
      intro heq
      exact hxk (hfs.slot_inj hi hx hk (heq.trans hb.symm))
    rw [hother _ hne, hold]
    -- a byte of another block is before the copy, or after it
    have hout : x < y ∨ y + n ≤ x := by
      rcases Nat.lt_or_gt_of_ne hxk with hlt | hgt
      · left
        have hle : (x / L.data_block + 1) * L.data_block ≤ k * L.data_block :=
          Nat.mul_le_mul_right _ hlt
        rw [Nat.add_mul] at hle
        omega
      · right
        have hle : (k + 1) * L.data_block ≤ x / L.data_block * L.data_block :=
          Nat.mul_le_mul_right _ hgt
        rw [Nat.add_mul] at hle
        omega
    by_cases hin : off ≤ x ∧ x < y
    · rw [if_pos hin, if_pos (by omega)]
    · rw [if_neg hin, if_neg (by omega)]

/-- What the copies leave behind depends on the bytes that were copied only. -/
theorem Wrote.unique {fs₂ : file_system} (hw : L.Wrote i fs buf off y fs')
    (hw' : L.Wrote i fs buf' off y fs₂) (hfs : L.Formatted live fs) (hi : live i)
    (hbuf : ∀ k, k < y - off → buf' k = buf k) : fs₂ = fs' := by
  have hpos : 0 < L.data_block := L.data_block_pos
  have hdata : fs₂.data_root = fs'.data_root := by
    funext b x
    rcases Nat.lt_or_ge x L.data_block with hx | hx
    · by_cases hslot : ∃ k, L.Owned fs i (.slot k) ∧ b = L.slot fs i k
      · obtain ⟨k, hk, rfl⟩ := hslot
        -- the byte is one of the file
        have hdiv : (k * L.data_block + x) / L.data_block = k := by
          rw [Nat.mul_comm, Nat.mul_add_div hpos, Nat.div_eq_of_lt hx, Nat.add_zero]
        have hmod : (k * L.data_block + x) % L.data_block = x := by
          rw [Nat.mul_comm, Nat.mul_add_mod, Nat.mod_eq_of_lt hx]
        have h1 := hw.bytes (k * L.data_block + x) (hdiv.symm ▸ hk)
        have h2 := hw'.bytes (k * L.data_block + x) (hdiv.symm ▸ hk)
        rw [byteAt, hdiv, hmod, hw.slot hfs hi hk] at h1
        rw [byteAt, hdiv, hmod, hw'.slot hfs hi hk] at h2
        rw [h1, h2]
        split
        · exact hbuf _ (by omega)
        · rfl
      · have hnone : ∀ k, L.Owned fs i (.slot k) → b ≠ L.slot fs i k :=
          fun k hk heq => hslot ⟨k, hk, heq⟩
        rw [hw.other b hnone, hw'.other b hnone]
    · rw [hw.behind b x hx, hw'.behind b x hx]
  rw [hw'.same, hw.same, hdata]

end Layout

end SystemProgramming.Filesystem
