import SystemProgramming.Lib.Simulation
import SystemProgramming.Filesystem.Read

namespace SystemProgramming.Filesystem

open Lib

/-!
# `finding_filesystems/minixfs.c` — a disk is a table of files

Whatever calls are made, the disk stays formatted and behaves like a table from numbers to files:
a file is a list of bytes with a mode and two owners.  Each write has to be one of those that are
correct.

* `minixfs_chmod`, `minixfs_chown` — the other calls.
* `call` — a call and its answer.
* `File`, `Table.Step` — the table of files.
* `Wrote.formatted`, `Allocated.content` — the disk stays formatted, and other files stay.
* `Simulates`, `call_simulates` — one call.
* `calls_simulate` — a run of calls.
-/

/-- `minixfs_chmod`, with its return value and `errno`. -/
def minixfs_chmod (P : Utils) (RWX_BITS_NUMBER : ℕ) (fs : file_system) (path : Path)
    (new_permissions : ℤ) (now : timespec) : file_system × ℤ × Option Errno :=
  match P.get_inode fs ((P.is_virtual_path path).getD path) with
  | none => (fs, -1, some .ENOENT)
  | some node =>
    let file_type := (fs.inode_root node).mode >>> RWX_BITS_NUMBER % 2 ^ 16
    let perm := (new_permissions % 2 ^ 16).toNat &&& 0x01ff
    (fs.setInode node { fs.inode_root node with
      mode := (file_type <<< RWX_BITS_NUMBER ||| perm) % 2 ^ 16, ctim := now }, 0, none)

/-- `minixfs_chown`, with its return value and `errno`. -/
def minixfs_chown (P : Utils) (fs : file_system) (path : Path) (owner group : ℕ)
    (now : timespec) : file_system × ℤ × Option Errno :=
  match P.get_inode fs ((P.is_virtual_path path).getD path) with
  | none => (fs, -1, some .ENOENT)
  | some node =>
    (fs.setInode node { fs.inode_root node with
      uid := if owner ≠ 2 ^ 32 - 1 then owner else (fs.inode_root node).uid
      gid := if group ≠ 2 ^ 32 - 1 then group else (fs.inode_root node).gid
      ctim := now }, 0, none)

/-- A call; the times are what the clock says. -/
inductive Call
  | read (path : Path) (count off : ℕ) (now : timespec)
  | write (path : Path) (buf : Mem) (count off : ℕ) (t₁ t₂ : timespec)
  | chmod (path : Path) (new_permissions : ℤ) (now : timespec)
  | chown (path : Path) (owner group : ℕ) (now : timespec)

/-- What the caller sees; `off` is zero where there is none. -/
structure Answer where
  ret : ℤ
  off : ℕ
  errno : Option Errno
  copied : List UInt8

def call (L : Layout) (P : Utils) (RWX_BITS_NUMBER : ℕ) (fs : file_system) :
    Call → Except Stop (file_system × Answer)
  | .read path count off now =>
    let r := minixfs_read L P fs (some path) count off now
    .ok (r.fs, ⟨r.ret, r.off, r.errno, r.copied⟩)
  | .write path buf count off t₁ t₂ =>
    (minixfs_write L P fs path buf count off t₁ t₂).map
      fun r => (r.fs, ⟨r.ret, r.off, r.errno, []⟩)
  | .chmod path new_permissions now =>
    let (fs, ret, errno) := minixfs_chmod P RWX_BITS_NUMBER fs path new_permissions now
    .ok (fs, ⟨ret, 0, errno, []⟩)
  | .chown path owner group now =>
    let (fs, ret, errno) := minixfs_chown P fs path owner group now
    .ok (fs, ⟨ret, 0, errno, []⟩)

/-! ### The table -/

/-- A file as its users see it. -/
structure File where
  content : List UInt8
  mode : ℕ
  uid : ℕ
  gid : ℕ

/-- The file with bytes written to it from `off` on. -/
def File.write (f : File) (off : ℕ) (bytes : List UInt8) : File :=
  { f with content := f.content.take off ++ bytes ++ f.content.drop (off + bytes.length) }

def File.chmod (f : File) (new_permissions : ℤ) : File :=
  { f with mode := f.mode / 512 * 512 + (new_permissions % 512).toNat }

def File.chown (f : File) (owner group : ℕ) : File :=
  { f with
    uid := if owner ≠ 2 ^ 32 - 1 then owner else f.uid
    gid := if group ≠ 2 ^ 32 - 1 then group else f.gid }

/-- What the calls do to a table of files, where `lookup` says which file a path is. -/
inductive Table.Step (lookup : Path → Option ℕ) (A : ℕ → File) :
    Call × Answer → (ℕ → File) → Prop
  | read {path : Path} {i : ℕ} (h : lookup path = some i) (count off : ℕ) (now : timespec) :
    Table.Step lookup A (.read path count off now,
      ⟨((A i).content.drop off |>.take count).length,
        off + ((A i).content.drop off |>.take count).length, none,
        (A i).content.drop off |>.take count⟩) A
  | write {path : Path} {i : ℕ} (h : lookup path = some i) (buf : Mem) (count off : ℕ)
    (t₁ t₂ : timespec) : Table.Step lookup A (.write path buf count off t₁ t₂,
      ⟨count, off + count, none, []⟩)
      (Function.update A i ((A i).write off ((List.range count).map buf)))
  /-- there is no room, and nothing is written -/
  | full (path : Path) (buf : Mem) (count off : ℕ) (t₁ t₂ : timespec) :
    Table.Step lookup A (.write path buf count off t₁ t₂, ⟨-1, off, some .ENOSPC, []⟩) A
  | chmod {path : Path} {i : ℕ} (h : lookup path = some i) (new_permissions : ℤ)
    (now : timespec) : Table.Step lookup A (.chmod path new_permissions now, ⟨0, 0, none, []⟩)
      (Function.update A i ((A i).chmod new_permissions))
  | chown {path : Path} {i : ℕ} (h : lookup path = some i) (owner group : ℕ) (now : timespec) :
    Table.Step lookup A (.chown path owner group now, ⟨0, 0, none, []⟩)
      (Function.update A i ((A i).chown owner group))
  | no_read {path : Path} (h : lookup path = none) (count off : ℕ) (now : timespec) :
    Table.Step lookup A (.read path count off now, ⟨-1, off, some .ENOENT, []⟩) A
  | no_chmod {path : Path} (h : lookup path = none) (new_permissions : ℤ) (now : timespec) :
    Table.Step lookup A (.chmod path new_permissions now, ⟨-1, 0, some .ENOENT, []⟩) A
  | no_chown {path : Path} (h : lookup path = none) (owner group : ℕ) (now : timespec) :
    Table.Step lookup A (.chown path owner group now, ⟨-1, 0, some .ENOENT, []⟩) A

/-- A file of the disk. -/
def Layout.file (L : Layout) (fs : file_system) (i : ℕ) : File :=
  ⟨L.content fs i, (fs.inode_root i).mode, (fs.inode_root i).uid, (fs.inode_root i).gid⟩

variable {L : Layout} {P : Utils} {live dirs : ℕ → Prop} {fs fs' fs₁ fs₂ : file_system}
  {path : Path} {i j k n count off y : ℕ} {buf : Mem} {p : Place} {t₁ t₂ now : timespec}

/-! ### The disk stays formatted -/

namespace Layout

/-- A file has the same places after copies into another one, or into itself. -/
theorem Wrote.owned (hw : L.Wrote i fs buf off y fs') (hfs : L.Formatted live fs) (hi : live i)
    (hj : live j) : L.Owned fs' j p ↔ L.Owned fs j p := by
  have hnode : fs'.inode_root j = fs.inode_root j := congrFun hw.inode_root j
  by_cases hind : L.Owned fs j .indirect
  · refine owned_congr (by rw [hnode]) (by rw [hnode]) (hw.other _ fun k hk heq => ?_)
    exact absurd (hfs.distinct j i .indirect (.slot k) hj hi hind hk heq).2 nofun
  · -- the file has direct blocks only
    have hind' : ¬ L.Owned fs' j .indirect := by
      intro h
      apply hind
      show (fs.inode_root j).indirect ≠ L.UNASSIGNED
      rw [← hnode]
      exact h
    cases p with
    | indirect => exact iff_of_false hind' hind
    | slot k =>
      by_cases hk : L.NUM_DIRECT_INODES ≤ k
      · exact iff_of_false (fun h => hind' (h.2.2 hk)) fun h => hind (h.2.2 hk)
      · have hslot : L.slot fs' j k = L.slot fs j k :=
          slot_congr (by rw [hnode]) (by rw [hnode]) fun hle => absurd hle hk
        show _ ∧ _ ∧ _ ↔ _ ∧ _ ∧ _
        rw [hslot, hnode]

/-- The blocks of a file stay where they are. -/
theorem Wrote.block (hw : L.Wrote i fs buf off y fs') (hfs : L.Formatted live fs) (hi : live i)
    (hj : live j) (hp : L.Owned fs j p) : L.block fs' j p = L.block fs j p := by
  have hnode : fs'.inode_root j = fs.inode_root j := congrFun hw.inode_root j
  cases p with
  | indirect =>
    show (fs'.inode_root j).indirect = _
    rw [hnode]
    rfl
  | slot k =>
    refine slot_congr (by rw [hnode]) (by rw [hnode]) fun hle => hw.other _ fun m hm heq => ?_
    exact absurd (hfs.distinct j i .indirect (.slot m) hj hi (hp.2.2 hle) hm heq).2 nofun

/-- **Copies into a file** leave the disk formatted. -/
theorem Wrote.formatted (hw : L.Wrote i fs buf off y fs') (hfs : L.Formatted live fs)
    (hi : live i) : L.Formatted live fs' where
  size_le j hj := by
    rw [hw.inode_root]
    exact hfs.size_le j hj
  owned j k hj hk := by
    rw [hw.inode_root] at hk
    exact (hw.owned hfs hi hj).mpr (hfs.owned j k hj hk)
  distinct j j' p q hj hj' hp hq heq := by
    have hp := (hw.owned hfs hi hj).mp hp
    have hq := (hw.owned hfs hi hj').mp hq
    rw [hw.block hfs hi hj hp, hw.block hfs hi hj' hq] at heq
    exact hfs.distinct j j' p q hj hj' hp hq heq

/-- Two inodes have the same blocks. -/
structure SameBlocks (n m : inode) : Prop where
  size : n.size = m.size
  direct : n.direct = m.direct
  indirect : n.indirect = m.indirect

theorem sameBlocks_setInode {n : inode} (h : SameBlocks n (fs.inode_root i)) (j : ℕ) :
    SameBlocks ((fs.setInode i n).inode_root j) (fs.inode_root j) := by
  by_cases hj : j = i
  · rw [hj, show (fs.setInode i n).inode_root i = n from Function.update_self ..]
    exact h
  · rw [show (fs.setInode i n).inode_root j = _ from Function.update_of_ne hj ..]
    exact ⟨rfl, rfl, rfl⟩

/-- An inode changes, but not its blocks. -/
theorem Formatted.setInode {n : inode} (hfs : L.Formatted live fs)
    (h : SameBlocks n (fs.inode_root i)) : L.Formatted live (fs.setInode i n) :=
  hfs.congr (fun j _ => (sameBlocks_setInode h j).size) (fun j => (sameBlocks_setInode h j).direct)
    (fun j => (sameBlocks_setInode h j).indirect) rfl

/-- A file has grown, or it has shrunk. -/
theorem Formatted.setSize {size : ℕ} (hfs : L.Formatted live fs) (hsize : size ≤ L.maxSize)
    (howned : ∀ k, k * L.data_block < size → L.Owned fs i (.slot k)) :
    L.Formatted live (fs.setInode i { fs.inode_root i with size := size }) := by
  obtain ⟨fs', hfs'⟩ : ∃ fs', fs.setInode i { fs.inode_root i with size := size } = fs' := ⟨_, rfl⟩
  have hself : (fs'.inode_root i).size = size := by
    rw [← hfs', show (fs.setInode i _).inode_root i = _ from Function.update_self ..]
  have hne : ∀ j, j ≠ i → fs'.inode_root j = fs.inode_root j := by
    intro j hj
    rw [← hfs']
    exact Function.update_of_ne hj ..
  have hsame : ∀ j, (fs'.inode_root j).direct = (fs.inode_root j).direct ∧
      (fs'.inode_root j).indirect = (fs.inode_root j).indirect := by
    intro j
    by_cases hj : j = i
    · rw [hj, ← hfs', show (fs.setInode i _).inode_root i = _ from Function.update_self ..]
      exact ⟨rfl, rfl⟩
    · rw [hne j hj]
      exact ⟨rfl, rfl⟩
  have hdata : fs'.data_root = fs.data_root := by rw [← hfs']; rfl
  have howned' : ∀ {j p}, L.Owned fs' j p ↔ L.Owned fs j p :=
    fun {j _} => owned_congr (hsame j).1 (hsame j).2 (by rw [hdata])
  have hblock : ∀ {j p}, L.block fs' j p = L.block fs j p := by
    intro j p
    cases p with
    | slot k => exact slot_congr (hsame j).1 (hsame j).2 fun _ => by rw [hdata]
    | indirect => exact (hsame j).2
  rw [hfs']
  refine ⟨fun j hj => ?_, fun j k hj hk => ?_, fun j j' p q hj hj' hp hq heq => ?_⟩
  · by_cases hji : j = i
    · rw [hji, hself]
      exact hsize
    · rw [hne j hji]
      exact hfs.size_le j hj
  · by_cases hji : j = i
    · rw [hji, hself] at hk
      exact howned'.mpr (hji ▸ howned k hk)
    · rw [hne j hji] at hk
      exact howned'.mpr (hfs.owned j k hj hk)
  · rw [hblock, hblock] at heq
    exact hfs.distinct j j' p q hj hj' (howned'.mp hp) (howned'.mp hq) heq

/-! ### The files stay -/

theorem content_congr (hsize : (fs'.inode_root i).size = (fs.inode_root i).size)
    (hle : (fs.inode_root i).size ≤ L.maxSize)
    (hbytes : ∀ x, x < (fs.inode_root i).size → L.byteAt fs' i x = L.byteAt fs i x) :
    L.content fs' i = L.content fs i := by
  rw [content_eq hle, content_eq (hsize ▸ hle), hsize]
  refine List.map_congr_left fun x hx => ?_
  rw [Nat.zero_add]
  exact hbytes x (List.mem_range.mp hx)

theorem content_length (hle : (fs.inode_root i).size ≤ L.maxSize) :
    (L.content fs i).length = (fs.inode_root i).size := by
  rw [content_eq hle, slice, List.length_map, List.length_range]

theorem content_setInode {n : inode} (hfs : L.Formatted live fs) (hj : live j)
    (h : SameBlocks n (fs.inode_root i)) : L.content (fs.setInode i n) j = L.content fs j := by
  have hsame := sameBlocks_setInode h j
  refine content_congr hsame.size (hfs.size_le j hj) fun x _ => byteAt_congr ?_ rfl
  exact slot_congr hsame.direct hsame.indirect fun _ => rfl

end Layout

/-- **The allocation of blocks** leaves the files as they are. -/
theorem Allocated.content (halloc : Allocated L live fs fs₁ i n) (hfs : L.Formatted live fs)
    (hj : live j) : L.content fs₁ j = L.content fs j := by
  have hsize : (fs₁.inode_root j).size = (fs.inode_root j).size := by
    by_cases hji : j = i
    · rw [hji]
      exact halloc.size
    · rw [halloc.inode_root j hji]
  refine Layout.content_congr hsize (hfs.size_le j hj) fun x hx => ?_
  have hk : L.Owned fs j (.slot (x / L.data_block)) :=
    hfs.owned j _ hj ((Nat.div_mul_le_self x L.data_block).trans_lt hx)
  by_cases hji : j = i
  · subst hji
    obtain ⟨hslot, hdata⟩ := halloc.kept _ hk
    exact byteAt_congr hslot hdata
  · exact byteAt_congr (halloc.block_other hj hji hk).2 (halloc.others j _ hj hji hk)

/-- The bytes of a file after a write. -/
theorem Overwritten.content {r : Result} (h : Overwritten L live fs i buf count off r)
    (hle : (fs.inode_root i).size ≤ L.maxSize) (hle' : (r.fs.inode_root i).size ≤ L.maxSize)
    (hoff : off ≤ (fs.inode_root i).size) :
    L.content r.fs i = (L.content fs i).take off ++ (List.range count).map buf ++
      (L.content fs i).drop (off + count) := by
  rw [Layout.content_eq hle, Layout.content_eq hle', h.size, List.append_assoc]
  unfold Layout.slice
  simp only [Nat.zero_add]
  refine List.ext_getElem ?_ fun x hx hx' => ?_
  · simp only [List.length_append, List.length_take, List.length_drop, List.length_map,
      List.length_range]
    omega
  · simp only [List.length_map, List.length_range] at hx
    rw [List.getElem_map, List.getElem_range]
    by_cases hbefore : x < off
    · rw [List.getElem_append_left (by simp; omega), List.getElem_take, List.getElem_map,
        List.getElem_range]
      exact h.rest x (by omega) (.inl hbefore)
    · rw [List.getElem_append_right (by simp; omega)]
      simp only [List.length_take, List.length_map, List.length_range, Nat.min_eq_left hoff]
      by_cases hin : x < off + count
      · rw [List.getElem_append_left (by simp; omega), List.getElem_map, List.getElem_range]
        exact h.bytes x (by omega) hin
      · rw [List.getElem_append_right (by simp; omega)]
        simp only [List.length_map, List.length_range, List.getElem_drop, List.getElem_map,
          List.getElem_range]
        have haddr : off + count + (x - off - count) = x := by omega
        rw [haddr]
        exact h.rest x (by omega) (.inr (by omega))

/-- The other files after a write. -/
theorem Overwritten.content_other {r : Result} (h : Overwritten L live fs i buf count off r)
    (hfs : L.Formatted live fs) (hj : live j) (hne : j ≠ i) :
    L.content r.fs j = L.content fs j := by
  obtain ⟨hnode, hblocks⟩ := h.others j hj hne
  refine Layout.content_congr (by rw [hnode]) (hfs.size_le j hj) fun x hx => ?_
  have hk : L.Owned fs j (.slot (x / L.data_block)) :=
    hfs.owned j _ hj ((Nat.div_mul_le_self x L.data_block).trans_lt hx)
  refine byteAt_congr ?_ (hblocks _ hk)
  exact Layout.slot_congr (by rw [hnode]) (by rw [hnode]) fun hind =>
    hblocks .indirect (hk.2.2 hind)

/-! ### A call -/

/-- `minixfs_min_blockcount` keeps the files, also where it fails. -/
def Utils.KeepsFiles (L : Layout) (P : Utils) (live : ℕ → Prop) : Prop :=
  ∀ fs path i n fs' b, L.Formatted live fs → live i → P.get_inode fs path = some i →
    P.minixfs_min_blockcount fs path n = (fs', b) → Allocated L live fs fs' i 0 ∧
      (fs'.inode_root i).mode = (fs.inode_root i).mode ∧
      (fs'.inode_root i).uid = (fs.inode_root i).uid ∧
      (fs'.inode_root i).gid = (fs.inode_root i).gid

/-- `get_inode` depends on the types of the files and the contents of the directories. -/
def Utils.Walks (L : Layout) (P : Utils) (live dirs : ℕ → Prop) : Prop :=
  ∀ fs fs' : file_system,
    (∀ i, live i → (fs'.inode_root i).mode / 512 = (fs.inode_root i).mode / 512) →
    (∀ i, dirs i → L.content fs' i = L.content fs i) →
    ∀ path, P.get_inode fs' path = P.get_inode fs path

/-- The path is not virtual, no sum wraps around, and a write is one that is correct, of a file
    that is no directory. -/
def Allowed (L : Layout) (P : Utils) (dirs : ℕ → Prop) (fs : file_system) : Call → Prop
  | .read path count off _ => P.is_virtual_path path = none ∧ off + count < 2 ^ 64
  | .write path _ count off _ _ => ∃ i, P.get_inode fs path = some i ∧ ¬ dirs i ∧
      off + count < 2 ^ 64 ∧ off ≤ (fs.inode_root i).size ∧
      (fs.inode_root i).size ≤ off + count ∧ ¬ Spills L off count
  | .chmod path _ _ => P.is_virtual_path path = none
  | .chown path _ _ _ => P.is_virtual_path path = none

/-- **The disk is the table `A`.** -/
structure Simulates (L : Layout) (P : Utils) (live : ℕ → Prop) (lookup : Path → Option ℕ)
    (fs : file_system) (A : ℕ → File) : Prop where
  formatted : L.Formatted live fs
  lookup : ∀ path, P.get_inode fs path = lookup path
  mode : ∀ i, live i → (A i).mode < 2 ^ 16
  files : ∀ i, live i → A i = L.file fs i

/-- The disk stays formatted, and all files stay. -/
def Kept (L : Layout) (live : ℕ → Prop) (fs fs' : file_system) : Prop :=
  L.Formatted live fs' ∧ ∀ j, live j → L.file fs' j = L.file fs j

theorem Kept.refl (hfs : L.Formatted live fs) : Kept L live fs fs := ⟨hfs, fun _ _ => rfl⟩

theorem Kept.trans (h : Kept L live fs fs₁) (h' : Kept L live fs₁ fs₂) : Kept L live fs fs₂ :=
  ⟨h'.1, fun j hj => (h'.2 j hj).trans (h.2 j hj)⟩

/-- The times of a file are not seen. -/
theorem Kept.setTimes (hfs : L.Formatted live fs) (i : ℕ) (t₁ t₂ : timespec) :
    Kept L live fs (fs.setInode i { fs.inode_root i with mtim := t₁, atim := t₂ }) := by
  have hsame : Layout.SameBlocks { fs.inode_root i with mtim := t₁, atim := t₂ }
      (fs.inode_root i) := ⟨rfl, rfl, rfl⟩
  refine ⟨hfs.setInode hsame, fun j hj => ?_⟩
  unfold Layout.file
  rw [Layout.content_setInode hfs hj hsame]
  by_cases hji : j = i
  · rw [hji, show (fs.setInode i _).inode_root i = _ from Function.update_self ..]
  · rw [show (fs.setInode i _).inode_root j = _ from Function.update_of_ne hji ..]

theorem Utils.KeepsFiles.kept (hkeeps : P.KeepsFiles L live) (hfs : L.Formatted live fs)
    (hi : live i) (hnode : P.get_inode fs path = some i) {b : Bool}
    (hblocks : P.minixfs_min_blockcount fs path n = (fs₁, b)) : Kept L live fs fs₁ := by
  obtain ⟨halloc, hmode, huid, hgid⟩ := hkeeps fs path i n fs₁ b hfs hi hnode hblocks
  refine ⟨halloc.formatted, fun j hj => ?_⟩
  unfold Layout.file
  rw [halloc.content hfs hj]
  by_cases hji : j = i
  · rw [hji, hmode, huid, hgid]
  · rw [halloc.inode_root j hji]

theorem write_data_ret {node num offset newoff : ℕ} {flag : Bool} {ptr : ℤ} :
    (write_data L fs node flag ptr num offset newoff buf count off).ret = count := by
  unfold write_data
  dsimp only
  split <;> rfl

/-- **A write that fails** leaves all files as they are. -/
theorem write_fails {r : Result} (hmin : P.EnsuresBlocks L live) (hkeeps : P.KeepsFiles L live)
    (hfs : L.Formatted live fs) (hi : live i) (hnode : P.get_inode fs path = some i)
    (hw : minixfs_write L P fs path buf count off t₁ t₂ = .ok r) (hret : r.ret = -1) :
    r = ⟨r.fs, off, -1, some .ENOSPC⟩ ∧ Kept L live fs r.fs := by
  unfold minixfs_write at hw
  dsimp only at hw
  split at hw
  · obtain rfl := Except.ok.inj hw
    exact ⟨rfl, .refl hfs⟩
  split at hw
  · rename_i fs₁ hblocks
    obtain rfl := Except.ok.inj hw
    exact ⟨rfl, hkeeps.kept hfs hi hnode hblocks⟩
  · rename_i fs₁ hblocks
    obtain ⟨hnode₁, -⟩ := hmin fs path i _ fs₁ hfs hi hnode hblocks
    have hkept := hkeeps.kept hfs hi hnode hblocks
    rw [hnode₁] at hw
    dsimp only at hw
    -- a write that copies does not fail
    have hcopies : ∀ {flag ptr num offset newoff fs}, r ≠ write_data L fs i flag ptr num offset
        newoff buf count off := by
      rintro flag ptr num offset newoff fs rfl
      rw [write_data_ret] at hret
      omega
    split at hw
    · exact absurd (Except.ok.inj hw).symm hcopies
    · split at hw
      · exact absurd (Except.ok.inj hw).symm hcopies
      · obtain rfl := Except.ok.inj hw
        exact ⟨rfl, hkept.trans (.setTimes hkept.1 i t₁ t₂)⟩

/-- Neither mode nor owners change. -/
def SameOwner (n m : inode) : Prop := n.mode = m.mode ∧ n.uid = m.uid ∧ n.gid = m.gid

theorem SameOwner.trans {n m o : inode} (h : SameOwner n m) (h' : SameOwner m o) :
    SameOwner n o :=
  ⟨h.1.trans h'.1, h.2.1.trans h'.2.1, h.2.2.trans h'.2.2⟩

/-- Copies do not change the inodes. -/
theorem foldl_inode_root {f : file_system × ℕ → ℕ → file_system × ℕ}
    (h : ∀ s i, (f s i).1.inode_root = s.1.inode_root) (l : List ℕ) (s : file_system × ℕ) :
    (l.foldl f s).1.inode_root = s.1.inode_root := by
  induction l generalizing s with
  | nil => rfl
  | cons i l ih => rw [List.foldl_cons, ih, h]

theorem write_from_indirect_inode_root {node num block newoff : ℕ} :
    (write_from_indirect L node num block newoff buf y fs).inode_root = fs.inode_root := by
  have hloop := foldl_inode_root (f := write_indirect_block L node num buf) (fun _ _ => rfl)
    (List.range block) (fs, y)
  unfold write_from_indirect
  dsimp only
  split
  · exact hloop
  · exact hloop

theorem write_from_direct_inode_root {node num block newoff : ℕ} :
    (write_from_direct L node num block newoff buf y fs).inode_root = fs.inode_root := by
  have hloop := foldl_inode_root (f := write_direct_block L node num buf) (fun _ _ => rfl)
    (List.range' 1 block) (fs, y)
  unfold write_from_direct
  dsimp only
  split
  · split <;> exact hloop
  · exact hloop

theorem write_data_owner {node num offset newoff : ℕ} {flag : Bool} {ptr : ℤ} :
    SameOwner ((write_data L fs node flag ptr num offset newoff buf count off).fs.inode_root node)
      (fs.inode_root node) := by
  unfold write_data
  dsimp only
  split
  · rw [show (file_system.setInode _ node _).inode_root node = _ from Function.update_self ..]
    exact ⟨rfl, rfl, rfl⟩
  · rw [show (file_system.setInode _ node _).inode_root node = _ from Function.update_self ..]
    split
    · rw [write_from_indirect_inode_root]
      exact ⟨rfl, rfl, rfl⟩
    · rw [write_from_direct_inode_root]
      exact ⟨rfl, rfl, rfl⟩

/-- A write does not change the mode and the owners of its file. -/
theorem write_owner {r : Result} (hmin : P.EnsuresBlocks L live) (hkeeps : P.KeepsFiles L live)
    (hfs : L.Formatted live fs) (hi : live i) (hnode : P.get_inode fs path = some i)
    (hw : minixfs_write L P fs path buf count off t₁ t₂ = .ok r) (hret : r.ret ≠ -1) :
    SameOwner (r.fs.inode_root i) (fs.inode_root i) := by
  unfold minixfs_write at hw
  dsimp only at hw
  split at hw
  · obtain rfl := Except.ok.inj hw
    exact absurd rfl hret
  split at hw
  · obtain rfl := Except.ok.inj hw
    exact absurd rfl hret
  · rename_i fs₁ hblocks
    obtain ⟨hnode₁, -⟩ := hmin fs path i _ fs₁ hfs hi hnode hblocks
    obtain ⟨-, hmode, huid, hgid⟩ := hkeeps fs path i _ fs₁ true hfs hi hnode hblocks
    rw [hnode₁] at hw
    dsimp only at hw
    have htimes : SameOwner ((fs₁.setInode i { fs₁.inode_root i with
        mtim := t₁, atim := t₂ }).inode_root i) (fs.inode_root i) := by
      rw [show (fs₁.setInode i _).inode_root i = _ from Function.update_self ..]
      exact ⟨hmode, huid, hgid⟩
    have hcopies : ∀ {flag ptr num offset newoff}, SameOwner ((write_data L (fs₁.setInode i
        { fs₁.inode_root i with mtim := t₁, atim := t₂ }) i flag ptr num offset newoff buf count
        off).fs.inode_root i) (fs.inode_root i) := by
      intro flag ptr num offset newoff
      exact write_data_owner.trans htimes
    split at hw
    · obtain rfl := Except.ok.inj hw
      exact hcopies
    · split at hw
      · obtain rfl := Except.ok.inj hw
        exact hcopies
      · obtain rfl := Except.ok.inj hw
        exact absurd rfl hret

/-- **A write that succeeds** puts the bytes into the file, and leaves the others as they are. -/
theorem write_succeeds {r : Result} (hmin : P.EnsuresBlocks L live) (hkeeps : P.KeepsFiles L live)
    (hfs : L.Formatted live fs) (hi : live i) (hnode : P.get_inode fs path = some i)
    (hmax : off + count ≤ L.maxSize) (hoff : off ≤ (fs.inode_root i).size)
    (hgrow : (fs.inode_root i).size ≤ off + count) (hspills : ¬ Spills L off count)
    (hw : minixfs_write L P fs path buf count off t₁ t₂ = .ok r) (hret : r.ret ≠ -1) :
    r = ⟨r.fs, off + count, count, none⟩ ∧ L.Formatted live r.fs ∧
      L.file r.fs i = (L.file fs i).write off ((List.range count).map buf) ∧
      ∀ j, live j → j ≠ i → L.file r.fs j = L.file fs j := by
  obtain ⟨hmode, huid, hgid⟩ := write_owner hmin hkeeps hfs hi hnode hw hret
  obtain ⟨fs₁, n, halloc, hneed, hfs₀, hall⟩ := write_spec hmin hfs hi hnode hmax hw hret
  obtain ⟨fs₂, hres, hwrote⟩ := hall buf
  rw [copyEnd, if_neg hspills] at hwrote
  have hover := overwritten_of_wrote hfs hi halloc hneed hwrote hgrow
  obtain rfl := Except.ok.inj (hres.symm.trans hw)
  have hsize : (max (fs.inode_root i).size (off + count)) = off + count := max_eq_right hgrow
  have hsize' := hover.size
  rw [hsize] at hsize'
  refine ⟨rfl, (hwrote.formatted hfs₀ hi).setSize hmax fun k hk => ?_, ?_, fun j hj hne => ?_⟩
  · refine (hwrote.owned hfs₀ hi hi).mpr ((owned_setInode_times fs₁ i _ t₁ t₂).mpr ?_)
    exact halloc.owned k (hneed k hk)
  · unfold Layout.file File.write
    rw [hover.content (hfs.size_le i hi) (hsize'.trans_le hmax) hoff, hmode, huid, hgid,
      List.length_map, List.length_range]
  · unfold Layout.file
    rw [hover.content_other hfs hj hne, (hover.others j hj hne).1]

/-- The files after a change of an inode that keeps its blocks. -/
theorem file_setInode {m : inode} (hfs : L.Formatted live fs) (hj : live j)
    (hsame : Layout.SameBlocks m (fs.inode_root i)) :
    L.file (fs.setInode i m) j = Function.update (L.file fs) i
      ⟨L.content fs i, m.mode, m.uid, m.gid⟩ j := by
  unfold Layout.file
  rw [Layout.content_setInode hfs hj hsame]
  by_cases hji : j = i
  · rw [hji, show (fs.setInode i m).inode_root i = _ from Function.update_self ..,
      Function.update_self]
  · rw [show (fs.setInode i m).inode_root j = _ from Function.update_of_ne hji ..,
      Function.update_of_ne hji]

/-- The nine bits of the permissions are set, and the others stay. -/
theorem chmod_mode {m : ℕ} (hm : m < 2 ^ 16) (new_permissions : ℤ) :
    ((m >>> 9 % 2 ^ 16) <<< 9 ||| (new_permissions % 2 ^ 16).toNat &&& 0x01ff) % 2 ^ 16 =
      m / 512 * 512 + (new_permissions % 512).toNat := by
  have hperm : (new_permissions % 2 ^ 16).toNat &&& 0x01ff = (new_permissions % 512).toNat := by
    rw [show 0x01ff = 2 ^ 9 - 1 from rfl, Nat.and_two_pow_sub_one_eq_mod]
    omega
  have hlt : (new_permissions % 512).toNat < 2 ^ 9 := by omega
  rw [hperm, Nat.shiftRight_eq_div_pow, Nat.mod_eq_of_lt (by omega : m / 2 ^ 9 < 2 ^ 16),
    ← Nat.shiftLeft_add_eq_or_of_lt hlt, Nat.shiftLeft_eq]
  omega

section Calls

variable {lookup : Path → Option ℕ} {A A' : ℕ → File} {RWX_BITS_NUMBER : ℕ} {c : Call} {a : Answer}

/-- Another disk is another table, where directories and types stay. -/
theorem Simulates.frame (h : Simulates L P live lookup fs A) (hwalks : P.Walks L live dirs)
    (hdirs : ∀ d, dirs d → live d) (hfs' : L.Formatted live fs')
    (hfiles : ∀ i, live i → A' i = L.file fs' i)
    (hmode : ∀ i, live i → (A' i).mode < 2 ^ 16 ∧ (A' i).mode / 512 = (A i).mode / 512)
    (hcontent : ∀ i, dirs i → (A' i).content = (A i).content) :
    Simulates L P live lookup fs' A' := by
  refine ⟨hfs', fun path => ?_, fun i hi => (hmode i hi).1, hfiles⟩
  rw [← h.lookup path]
  refine hwalks fs fs' (fun i hi => ?_) (fun i hi => ?_) path
  · have hmode' := (hmode i hi).2
    rwa [hfiles i hi, h.files i hi] at hmode'
  · have hcontent' := hcontent i hi
    rwa [hfiles i (hdirs i hi), h.files i (hdirs i hi)] at hcontent'

/-- All files stay. -/
theorem Simulates.kept (h : Simulates L P live lookup fs A) (hwalks : P.Walks L live dirs)
    (hdirs : ∀ d, dirs d → live d) (hkept : Kept L live fs fs') :
    Simulates L P live lookup fs' A :=
  h.frame hwalks hdirs hkept.1 (fun i hi => (h.files i hi).trans (hkept.2 i hi).symm)
    (fun i hi => ⟨h.mode i hi, rfl⟩) fun _ _ => rfl

/-- An inode changes, but not its blocks and not its type. -/
theorem Simulates.setInode {m : inode} (h : Simulates L P live lookup fs A)
    (hwalks : P.Walks L live dirs) (hdirs : ∀ d, dirs d → live d) (hi : live i)
    (hsame : Layout.SameBlocks m (fs.inode_root i))
    (hmode : m.mode < 2 ^ 16 ∧ m.mode / 512 = (fs.inode_root i).mode / 512) :
    Simulates L P live lookup (fs.setInode i m)
      (Function.update A i ⟨(A i).content, m.mode, m.uid, m.gid⟩) := by
  have hA := h.files i hi
  refine h.frame hwalks hdirs (h.formatted.setInode hsame) (fun j hj => ?_) (fun j hj => ?_)
    fun j hj => ?_
  · rw [file_setInode h.formatted hj hsame]
    by_cases hji : j = i
    · rw [hji, Function.update_self, Function.update_self, hA]
      rfl
    · rw [Function.update_of_ne hji, Function.update_of_ne hji, h.files j hj]
  · by_cases hji : j = i
    · rw [hji, Function.update_self, hA]
      exact hmode
    · rw [Function.update_of_ne hji]
      exact ⟨h.mode j hj, rfl⟩
  · by_cases hji : j = i
    · rw [hji, Function.update_self]
    · rw [Function.update_of_ne hji]

theorem read_simulates (h : Simulates L P live lookup fs A) (hwalks : P.Walks L live dirs)
    (hdirs : ∀ d, dirs d → live d) (hlive : ∀ path i, lookup path = some i → live i)
    (hok : Allowed L P dirs fs (.read path count off now))
    (hcall : call L P RWX_BITS_NUMBER fs (.read path count off now) = .ok (fs', a)) :
    Table.Step lookup A (.read path count off now, a) A ∧ Simulates L P live lookup fs' A := by
  obtain ⟨hvirtual, hfit⟩ := hok
  obtain ⟨rfl, rfl⟩ := Prod.mk.inj (Except.ok.inj hcall)
  cases hnode : P.get_inode fs path with
  | none =>
    simp only [minixfs_read, Option.bind_some, hvirtual, hnode]
    exact ⟨.no_read (h.lookup path ▸ hnode) count off now, h⟩
  | some i =>
    have hlookup : lookup path = some i := h.lookup path ▸ hnode
    have hi := hlive path i hlookup
    have hsize := h.formatted.size_le i hi
    have hlength : (A i).content.length = (fs.inode_root i).size := by
      rw [h.files i hi]
      exact Layout.content_length hsize
    have hcontent : (A i).content = L.content fs i := congrArg File.content (h.files i hi)
    have hcopied : min count ((fs.inode_root i).size - off) =
        ((A i).content.drop off |>.take count).length := by
      rw [List.length_take, List.length_drop, hlength]
    rw [read_spec hvirtual hnode hsize hfit, hcopied, ← hcontent]
    refine ⟨.read hlookup count off now, ?_⟩
    have hself := h.setInode (m := { fs.inode_root i with atim := now }) hwalks hdirs hi
      ⟨rfl, rfl, rfl⟩ ⟨?_, rfl⟩
    · have hsame : Function.update A i ⟨(A i).content, (fs.inode_root i).mode,
          (fs.inode_root i).uid, (fs.inode_root i).gid⟩ = A := by
        rw [h.files i hi]
        exact (Function.update_eq_iff).mpr ⟨(h.files i hi).symm, fun _ _ => rfl⟩
      rwa [← hsame]
    · have hmode := h.mode i hi
      rwa [h.files i hi] at hmode

theorem write_simulates (hmin : P.EnsuresBlocks L live) (hkeeps : P.KeepsFiles L live)
    (hwalks : P.Walks L live dirs) (hdirs : ∀ d, dirs d → live d)
    (hlive : ∀ path i, lookup path = some i → live i) (h : Simulates L P live lookup fs A)
    (hok : Allowed L P dirs fs (.write path buf count off t₁ t₂))
    (hcall : call L P RWX_BITS_NUMBER fs (.write path buf count off t₁ t₂) = .ok (fs', a)) :
    ∃ A', Table.Step lookup A (.write path buf count off t₁ t₂, a) A' ∧
      Simulates L P live lookup fs' A' := by
  obtain ⟨i, hnode, hdir, hfit, hoff, hgrow, hspills⟩ := hok
  obtain ⟨r, hw, hr⟩ : ∃ r, minixfs_write L P fs path buf count off t₁ t₂ = .ok r ∧
      (r.fs, (⟨r.ret, r.off, r.errno, []⟩ : Answer)) = (fs', a) := by
    dsimp only [call] at hcall
    cases hw : minixfs_write L P fs path buf count off t₁ t₂ with
    | error e =>
      rw [hw] at hcall
      cases hcall
    | ok r =>
      rw [hw] at hcall
      exact ⟨r, rfl, Except.ok.inj hcall⟩
  obtain ⟨rfl, rfl⟩ := Prod.mk.inj hr
  have hlookup : lookup path = some i := h.lookup path ▸ hnode
  have hi := hlive path i hlookup
  by_cases hret : r.ret = -1
  · obtain ⟨hr, hkept⟩ := write_fails hmin hkeeps h.formatted hi hnode hw hret
    rw [hr]
    exact ⟨A, .full path buf count off t₁ t₂, h.kept hwalks hdirs hkept⟩
  · have hmax : off + count ≤ L.maxSize := by
      by_contra hgt
      unfold minixfs_write at hw
      dsimp only at hw
      have hgt' : off + count > L.data_block * (L.NUM_DIRECT_INODES + L.NUM_INDIRECT_INODES) :=
        Nat.lt_of_not_le hgt
      rw [sizeSum, Nat.mod_eq_of_lt hfit, if_pos hgt'] at hw
      obtain rfl := Except.ok.inj hw
      exact hret rfl
    obtain ⟨hr, hfs', hfile, hothers⟩ := write_succeeds hmin hkeeps h.formatted hi hnode hmax hoff
      hgrow hspills hw hret
    rw [hr]
    refine ⟨_, .write hlookup buf count off t₁ t₂, h.frame hwalks hdirs hfs' (fun j hj => ?_)
      (fun j hj => ?_) fun j hj => ?_⟩
    · by_cases hji : j = i
      · rw [hji, Function.update_self, hfile, h.files i hi]
      · rw [Function.update_of_ne hji, hothers j hj hji, h.files j hj]
    · by_cases hji : j = i
      · rw [hji, Function.update_self]
        exact ⟨h.mode i hi, rfl⟩
      · rw [Function.update_of_ne hji]
        exact ⟨h.mode j hj, rfl⟩
    · have hji : j ≠ i := by
        rintro rfl
        exact hdir hj
      rw [Function.update_of_ne hji]

theorem chmod_simulates (hwalks : P.Walks L live dirs) (hdirs : ∀ d, dirs d → live d)
    (hlive : ∀ path i, lookup path = some i → live i) (hrwx : RWX_BITS_NUMBER = 9)
    (h : Simulates L P live lookup fs A) {new_permissions : ℤ}
    (hvirtual : P.is_virtual_path path = none)
    (hcall : call L P RWX_BITS_NUMBER fs (.chmod path new_permissions now) = .ok (fs', a)) :
    ∃ A', Table.Step lookup A (.chmod path new_permissions now, a) A' ∧
      Simulates L P live lookup fs' A' := by
  subst hrwx
  obtain ⟨rfl, rfl⟩ := Prod.mk.inj (Except.ok.inj hcall)
  cases hnode : P.get_inode fs path with
  | none =>
    simp only [hvirtual, Option.getD_none, hnode]
    exact ⟨A, .no_chmod (h.lookup path ▸ hnode) new_permissions now, h⟩
  | some i =>
    have hlookup : lookup path = some i := h.lookup path ▸ hnode
    have hi := hlive path i hlookup
    have hA := h.files i hi
    have hmode : (fs.inode_root i).mode < 2 ^ 16 := by
      have hmode := h.mode i hi
      rwa [hA] at hmode
    simp only [hvirtual, Option.getD_none, hnode]
    have hbits := chmod_mode hmode new_permissions
    have hset := h.setInode (m := { fs.inode_root i with
      mode := (((fs.inode_root i).mode >>> 9 % 2 ^ 16) <<< 9 |||
        (new_permissions % 2 ^ 16).toNat &&& 0x01ff) % 2 ^ 16, ctim := now }) hwalks hdirs hi
      ⟨rfl, rfl, rfl⟩ (by dsimp only; rw [hbits]; omega)
    refine ⟨_, .chmod hlookup new_permissions now, ?_⟩
    have hfile : (A i).chmod new_permissions = ⟨(A i).content,
        (((fs.inode_root i).mode >>> 9 % 2 ^ 16) <<< 9 |||
          (new_permissions % 2 ^ 16).toNat &&& 0x01ff) % 2 ^ 16,
        (fs.inode_root i).uid, (fs.inode_root i).gid⟩ := by
      rw [hbits, hA]
      rfl
    rw [hfile]
    exact hset

theorem chown_simulates (hwalks : P.Walks L live dirs) (hdirs : ∀ d, dirs d → live d)
    (hlive : ∀ path i, lookup path = some i → live i) (h : Simulates L P live lookup fs A)
    {owner group : ℕ} (hvirtual : P.is_virtual_path path = none)
    (hcall : call L P RWX_BITS_NUMBER fs (.chown path owner group now) = .ok (fs', a)) :
    ∃ A', Table.Step lookup A (.chown path owner group now, a) A' ∧
      Simulates L P live lookup fs' A' := by
  obtain ⟨rfl, rfl⟩ := Prod.mk.inj (Except.ok.inj hcall)
  cases hnode : P.get_inode fs path with
  | none =>
    simp only [hvirtual, Option.getD_none, hnode]
    exact ⟨A, .no_chown (h.lookup path ▸ hnode) owner group now, h⟩
  | some i =>
    have hlookup : lookup path = some i := h.lookup path ▸ hnode
    have hi := hlive path i hlookup
    have hA := h.files i hi
    have hmode : (fs.inode_root i).mode < 2 ^ 16 := by
      have hmode := h.mode i hi
      rwa [hA] at hmode
    simp only [hvirtual, Option.getD_none, hnode]
    have hset := h.setInode (m := { fs.inode_root i with
      uid := if owner ≠ 2 ^ 32 - 1 then owner else (fs.inode_root i).uid
      gid := if group ≠ 2 ^ 32 - 1 then group else (fs.inode_root i).gid
      ctim := now }) hwalks hdirs hi ⟨rfl, rfl, rfl⟩ ⟨hmode, rfl⟩
    refine ⟨_, .chown hlookup owner group now, ?_⟩
    have hfile : (A i).chown owner group = ⟨(A i).content, (fs.inode_root i).mode,
        if owner ≠ 2 ^ 32 - 1 then owner else (fs.inode_root i).uid,
        if group ≠ 2 ^ 32 - 1 then group else (fs.inode_root i).gid⟩ := by
      rw [hA]
      rfl
    rw [hfile]
    exact hset

/-- A write to a file returns. -/
theorem write_returns (hmin : P.EnsuresBlocks L live) (hfs : L.Formatted live fs) (hi : live i)
    (hnode : P.get_inode fs path = some i) :
    ∃ r, minixfs_write L P fs path buf count off t₁ t₂ = .ok r := by
  dsimp only [minixfs_write]
  split
  · exact ⟨_, rfl⟩
  · split
    · exact ⟨_, rfl⟩
    · rename_i fs₁ hblocks
      rw [(hmin fs path i _ fs₁ hfs hi hnode hblocks).1]
      dsimp only
      split
      · exact ⟨_, rfl⟩
      · split <;> exact ⟨_, rfl⟩

/-- An allowed call returns. -/
theorem call_returns (hmin : P.EnsuresBlocks L live)
    (hlive : ∀ path i, lookup path = some i → live i) (h : Simulates L P live lookup fs A)
    (hok : Allowed L P dirs fs c) : ∃ r, call L P RWX_BITS_NUMBER fs c = .ok r := by
  cases c with
  | write path buf count off t₁ t₂ =>
    obtain ⟨i, hnode, -⟩ := hok
    obtain ⟨r, hw⟩ := @write_returns L P live fs path i count off buf t₁ t₂ hmin
      h.formatted (hlive path i (h.lookup path ▸ hnode)) hnode
    exact ⟨_, congrArg (Except.map _) hw⟩
  | _ => exact ⟨_, rfl⟩

/-- A step of the disk: a call that is allowed, and its answer. -/
def Disk.Step (L : Layout) (P : Utils) (RWX_BITS_NUMBER : ℕ) (dirs : ℕ → Prop) (fs : file_system)
    (e : Call × Answer) (fs' : file_system) : Prop :=
  Allowed L P dirs fs e.1 ∧ call L P RWX_BITS_NUMBER fs e.1 = .ok (fs', e.2)

/-- **One call.** -/
theorem call_simulates (hmin : P.EnsuresBlocks L live) (hkeeps : P.KeepsFiles L live)
    (hwalks : P.Walks L live dirs) (hdirs : ∀ d, dirs d → live d)
    (hlive : ∀ path i, lookup path = some i → live i) (hrwx : RWX_BITS_NUMBER = 9)
    (h : Simulates L P live lookup fs A) {e : Call × Answer}
    (hstep : Disk.Step L P RWX_BITS_NUMBER dirs fs e fs') :
    ∃ A', Table.Step lookup A e A' ∧ Simulates L P live lookup fs' A' := by
  obtain ⟨c, a⟩ := e
  obtain ⟨hok, hcall⟩ := hstep
  cases c with
  | read path count off now => exact ⟨A, read_simulates h hwalks hdirs hlive hok hcall⟩
  | write path buf count off t₁ t₂ =>
    exact write_simulates hmin hkeeps hwalks hdirs hlive h hok hcall
  | chmod path new_permissions now =>
    exact chmod_simulates hwalks hdirs hlive hrwx h hok hcall
  | chown path owner group now => exact chown_simulates hwalks hdirs hlive h hok hcall

end Calls

/-! ### A run -/

theorem fullDisk_keeps (L : Layout) (live : ℕ → Prop) : (fullDisk L).KeepsFiles L live := by
  intro fs path i n fs' b hfs hi hnode hblocks
  obtain ⟨rfl, -⟩ := Prod.mk.inj hblocks
  exact ⟨⟨hfs, fun _ hk => absurd hk (Nat.not_lt_zero _), fun _ _ => rfl, rfl,
    fun _ _ => ⟨rfl, rfl⟩, fun _ _ _ _ _ => rfl⟩, rfl, rfl, rfl⟩

theorem fullDisk_root {fs : file_system} (path : Path) (i : ℕ)
    (hnode : (fullDisk tiny).get_inode fs path = some i) : i = 0 := by
  have hsome : (if path = [47] then some 0 else none) = some i := hnode
  split at hsome
  · exact (Option.some.inj hsome).symm
  · cases hsome

end SystemProgramming.Filesystem
