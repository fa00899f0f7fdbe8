import SystemProgramming.Filesystem.Write

namespace SystemProgramming.Filesystem

open SystemProgramming.Lib

/-!
# `finding_filesystems/minixfs.c` — `minixfs_read`

A read copies a part of the first block, whole blocks and a part of the last one, with a path
for each side of the boundary between the direct and the indirect blocks.

* `Layout.content` — a file: its direct blocks, then those that its indirect block lists.
* `Layout.slice` — a part of a file; `slice_append` adds a part of a block to it.
* `read_correct` — every read copies the slice that it is asked for, and reads that follow on
  each other copy the file.
-/

/-- What a read leaves behind, and what it has copied. -/
structure ReadResult extends Result where
  copied : List UInt8

/-- The bytes of a block that a `memcpy` copies. -/
def file_system.bytes (fs : file_system) (b : ℤ) (o n : ℕ) : List UInt8 :=
  (List.range n).map (fun k => fs.data_root b (o + k))

/-- The decimal digits of a number, and a text. -/
def text (s : String) : List UInt8 := s.toUTF8.toList

/-- `minixfs_virtual_read`; the two virtual files are the same. -/
def minixfs_virtual_read (fs : file_system) (path : Path) (count off : ℕ) : ReadResult :=
  if path = text "info" ∨ path = text "myvir" then
    let map := (List.range fs.meta.dblock_count).map fs.meta.data_map
    let used := map.count 1
    let unused := map.count 0
    let str := text (("Free blocks: " ++ toString unused ++ "\n") ++
      ("Used blocks: " ++ toString used ++ "\n"))
    let sz := str.length
    if off ≥ sz then ⟨⟨fs, off, 0, none⟩, []⟩
    else
      let count := if sizeSum off count > sz then sz - off else count
      ⟨⟨fs, off + count, count, none⟩, (str.drop off).take count⟩
  else ⟨⟨fs, off, -1, some .ENOENT⟩, []⟩

/-- `if (flag) { ... }` -/
def read_from_indirect (L : Layout) (fs : file_system) (node num blocknum newoff : ℕ)
    (tmp : List UInt8) : List UInt8 :=
  let tmp := (List.range blocknum).foldl (fun tmp i =>
    tmp ++ fs.bytes (fs.barray node (num - L.NUM_DIRECT_INODES + 1 + i)) 0 L.data_block) tmp
  if num - L.NUM_DIRECT_INODES + 1 + blocknum < L.NUM_INDIRECT_INODES then
    tmp ++ fs.bytes (fs.barray node (num - L.NUM_DIRECT_INODES + 1 + blocknum)) 0 newoff
  else tmp

/-- `if (num + blocknum + 1 < NUM_DIRECT_INODES) { ... }` -/
def read_direct_only (L : Layout) (fs : file_system) (node num blocknum newoff : ℕ)
    (tmp : List UInt8) : List UInt8 :=
  let tmp := (List.range blocknum).foldl (fun tmp i =>
    tmp ++ fs.bytes ((fs.inode_root node).direct (num + 1 + i)) 0 L.data_block) tmp
  if num + 1 + blocknum < L.NUM_DIRECT_INODES then
    tmp ++ fs.bytes ((fs.inode_root node).direct (num + 1 + blocknum)) 0 newoff
  else tmp

/-- `if (num + blocknum + 1 >= NUM_DIRECT_INODES) { ... }` -/
def read_across (L : Layout) (fs : file_system) (node num blocknum newoff : ℕ)
    (tmp : List UInt8) : List UInt8 :=
  let tmp := (List.range (L.NUM_DIRECT_INODES - num - 1)).foldl (fun tmp i =>
    tmp ++ fs.bytes ((fs.inode_root node).direct (num + 1 + i)) 0 L.data_block) tmp
  let remain_block := num + blocknum + 1 - L.NUM_DIRECT_INODES
  let tmp := (List.range remain_block).foldl (fun tmp i =>
    tmp ++ fs.bytes (fs.barray node i) 0 L.data_block) tmp
  if remain_block < L.NUM_INDIRECT_INODES then
    tmp ++ fs.bytes (fs.barray node remain_block) 0 newoff
  else tmp

/-- From `copy into buf` on: what is copied. -/
def read_data (L : Layout) (fs : file_system) (node : ℕ) (flag : Bool) (ptr : ℤ)
    (num offset count : ℕ) : List UInt8 :=
  let remain := L.data_block - offset
  if count ≤ remain then fs.bytes ptr offset count
  else
    let tmp := fs.bytes ptr offset remain
    let blocknum := (count - remain) / L.data_block
    let newoff := count - remain - blocknum * L.data_block
    if flag then read_from_indirect L fs node num blocknum newoff tmp
    else if num + blocknum + 1 < L.NUM_DIRECT_INODES then
      read_direct_only L fs node num blocknum newoff tmp
    else read_across L fs node num blocknum newoff tmp

/-- `minixfs_read`; the path may be null, and `now` is what the clock says. -/
def minixfs_read (L : Layout) (P : Utils) (fs : file_system) (path : Option Path)
    (count off : ℕ) (now : timespec) : ReadResult :=
  match path.bind P.is_virtual_path with
  | some virtual_path => minixfs_virtual_read fs virtual_path count off
  | none =>
    match path.bind (P.get_inode fs) with
    | none => ⟨⟨fs, off, -1, some .ENOENT⟩, []⟩
    | some node =>
      let fs := fs.setInode node { fs.inode_root node with atim := now }
      let size := (fs.inode_root node).size
      if off ≥ size then ⟨⟨fs, off, 0, none⟩, []⟩
      else
        let num := off / L.data_block
        let offset := off - num * L.data_block
        let count' := if sizeSum off count ≥ size then size - off else count
        if num < L.NUM_DIRECT_INODES then
          ⟨⟨fs, off + count', count', none⟩,
            read_data L fs node false ((fs.inode_root node).direct num) num offset count'⟩
        else if num < L.NUM_INDIRECT_INODES + L.NUM_DIRECT_INODES then
          ⟨⟨fs, off + count', count', none⟩,
            read_data L fs node true (fs.barray node (num - L.NUM_DIRECT_INODES)) num offset count'⟩
        else ⟨⟨fs, off, 0, none⟩, []⟩

variable {L : Layout} {P : Utils} {fs fs' : file_system} {path : Path}
  {i k num blocknum newoff count off n o y : ℕ} {now : timespec} {tmp : List UInt8}

/-! ### Parts of a file -/

namespace Layout

/-- The `n` bytes of a file from `off` on. -/
def slice (L : Layout) (fs : file_system) (i off n : ℕ) : List UInt8 :=
  (List.range n).map (fun k => L.byteAt fs i (off + k))

/-- A file: its direct blocks, then those that its indirect block lists, cut at its size. -/
def content (L : Layout) (fs : file_system) (i : ℕ) : List UInt8 :=
  ((List.range L.NUM_DIRECT_INODES).flatMap
      (fun k => fs.bytes ((fs.inode_root i).direct k) 0 L.data_block) ++
    (List.range L.NUM_INDIRECT_INODES).flatMap
      (fun k => fs.bytes (fs.barray i k) 0 L.data_block)).take (fs.inode_root i).size

/-- **A part of a block** goes on with a slice. -/
theorem slice_append (hy : off + y = k * L.data_block + o) (ho : o + n ≤ L.data_block) :
    L.slice fs i off y ++ fs.bytes (L.slot fs i k) o n = L.slice fs i off (y + n) := by
  unfold slice file_system.bytes
  rw [List.range_add, List.map_append, List.map_map]
  congr 1
  apply List.map_congr_left
  intro x hx
  have hlt : o + x < L.data_block := by
    have hxn := List.mem_range.mp hx
    omega
  have haddr : off + (y + x) = k * L.data_block + (o + x) := by omega
  show _ = L.byteAt fs i (off + (y + x))
  unfold byteAt
  rw [haddr, Nat.mul_comm, Nat.mul_add_div L.data_block_pos, Nat.div_eq_of_lt hlt, Nat.add_zero,
    Nat.mul_add_mod, Nat.mod_eq_of_lt hlt]

/-- The blocks of a file, one after the other. -/
theorem flatMap_slots (fs : file_system) (i n : ℕ) :
    (List.range n).flatMap (fun k => fs.bytes (L.slot fs i k) 0 L.data_block) =
      L.slice fs i 0 (n * L.data_block) := by
  induction n with
  | zero => simp [slice]
  | succ n ih =>
    rw [List.range_succ, List.flatMap_append, ih, List.flatMap_singleton,
      slice_append (by omega) (by omega), Nat.add_mul, Nat.one_mul]

/-- **The content**, byte by byte. -/
theorem content_eq (hsize : (fs.inode_root i).size ≤ L.maxSize) :
    L.content fs i = L.slice fs i 0 (fs.inode_root i).size := by
  have hdirect : (List.range L.NUM_DIRECT_INODES).flatMap
      (fun k => fs.bytes ((fs.inode_root i).direct k) 0 L.data_block) =
      (List.range L.NUM_DIRECT_INODES).flatMap
        (fun k => fs.bytes (L.slot fs i k) 0 L.data_block) := by
    apply List.flatMap_congr
    intro k hk
    rw [slot_direct (List.mem_range.mp hk)]
  have hindirect : (List.range L.NUM_INDIRECT_INODES).flatMap
      (fun k => fs.bytes (fs.barray i k) 0 L.data_block) =
      ((List.range L.NUM_INDIRECT_INODES).map (L.NUM_DIRECT_INODES + ·)).flatMap
        (fun k => fs.bytes (L.slot fs i k) 0 L.data_block) := by
    rw [List.flatMap_map]
    apply List.flatMap_congr
    intro k _
    rw [← slot_indirect (Nat.le_add_right _ k), Nat.add_sub_cancel_left]
  unfold content
  rw [hdirect, hindirect, ← List.flatMap_append, ← List.range_add, flatMap_slots]
  unfold slice
  rw [← List.map_take, List.take_range, Nat.min_eq_left (by rwa [Nat.mul_comm])]

/-- A part of the content. -/
theorem slice_eq (hsize : (fs.inode_root i).size ≤ L.maxSize) (off n : ℕ) :
    ((L.content fs i).drop off).take n =
      L.slice fs i off (min n ((fs.inode_root i).size - off)) := by
  rw [content_eq hsize]
  unfold slice
  apply List.ext_getElem
  · simp
  · intro k h1 h2
    simp

end Layout

/-! ### What is copied -/

/-- **A loop of whole blocks** goes on with a slice. -/
theorem foldl_slice {ptr : ℕ → ℤ} (k : ℕ) (hptr : ∀ j, j < n → ptr j = L.slot fs i (k + j))
    (hy : off + y = k * L.data_block) :
    (List.range n).foldl (fun tmp j => tmp ++ fs.bytes (ptr j) 0 L.data_block)
      (L.slice fs i off y) = L.slice fs i off (y + n * L.data_block) := by
  apply foldl_range_rule (I := fun j tmp => tmp = L.slice fs i off (y + j * L.data_block)) n
  · rw [Nat.zero_mul, Nat.add_zero]
  · intro j tmp hj htmp
    subst htmp
    rw [hptr j hj, Layout.slice_append (k := k + j) (by rw [Nat.add_mul]; omega) (by omega),
      Nat.add_mul _ 1, Nat.one_mul, Nat.add_assoc]

/-- The last block, or nothing of it where it is not one of the file. -/
theorem slice_last {q : Prop} [Decidable q] (hy : off + y = k * L.data_block)
    (hnew : newoff ≤ L.data_block) (hq : ¬ q → newoff = 0) :
    (if q then L.slice fs i off y ++ fs.bytes (L.slot fs i k) 0 newoff
      else L.slice fs i off y) = L.slice fs i off (y + newoff) := by
  split
  · exact Layout.slice_append hy (by omega)
  · rename_i hnot
    rw [hq hnot, Nat.add_zero]

/-- **What a read copies.** -/
theorem read_data_spec (hsize : off + count ≤ L.maxSize) :
    read_data L fs i (decide (L.NUM_DIRECT_INODES ≤ off / L.data_block))
      (L.slot fs i (off / L.data_block)) (off / L.data_block)
      (off - off / L.data_block * L.data_block) count = L.slice fs i off count := by
  have hpos := L.data_block_pos
  have hdiv := Nat.div_add_mod' off L.data_block
  have hmod := Nat.mod_lt off hpos
  obtain ⟨num, hnum⟩ : ∃ num, off / L.data_block = num := ⟨_, rfl⟩
  rw [hnum] at hdiv ⊢
  have hoffset : off - num * L.data_block = off % L.data_block := by omega
  rw [hoffset]
  have hfirst : ∀ m, m ≤ L.data_block - off % L.data_block →
      fs.bytes (L.slot fs i num) (off % L.data_block) m = L.slice fs i off m := by
    intro m hm
    have happ : L.slice fs i off 0 ++ fs.bytes (L.slot fs i num) (off % L.data_block) m =
        L.slice fs i off (0 + m) := Layout.slice_append (by omega) (by omega)
    rwa [Nat.zero_add] at happ
  unfold read_data
  dsimp only
  split
  · exact hfirst count (by omega)
  rename_i hgt
  rw [hfirst _ le_rfl]
  obtain ⟨remain, hremain⟩ : ∃ remain, L.data_block - off % L.data_block = remain := ⟨_, rfl⟩
  rw [hremain]
  rw [hremain] at hgt
  have hone : off + remain = (num + 1) * L.data_block := by
    rw [Nat.add_mul, Nat.one_mul]
    omega
  obtain ⟨blocknum, hblocknum⟩ : ∃ n, (count - remain) / L.data_block = n := ⟨_, rfl⟩
  have hrest := Nat.div_add_mod' (count - remain) L.data_block
  have hnewlt := Nat.mod_lt (count - remain) hpos
  rw [hblocknum] at hrest ⊢
  obtain ⟨newoff, hnewoff⟩ : ∃ n, count - remain - blocknum * L.data_block = n := ⟨_, rfl⟩
  rw [hnewoff]
  have hcount : remain + blocknum * L.data_block + newoff = count := by omega
  have hnew : newoff ≤ L.data_block := by omega
  -- nothing is left behind the last block that a file has
  have hlast : L.NUM_DIRECT_INODES + L.NUM_INDIRECT_INODES ≤ num + 1 + blocknum → newoff = 0 := by
    intro hle
    have hmul : (L.NUM_DIRECT_INODES + L.NUM_INDIRECT_INODES) * L.data_block ≤
        (num + 1 + blocknum) * L.data_block := Nat.mul_le_mul_right _ hle
    rw [Nat.add_mul (num + 1)] at hmul
    have hmax : L.maxSize =
        (L.NUM_DIRECT_INODES + L.NUM_INDIRECT_INODES) * L.data_block := Nat.mul_comm ..
    omega
  by_cases hflag : L.NUM_DIRECT_INODES ≤ num
  · -- the indirect blocks only
    rw [decide_eq_true hflag]
    unfold read_from_indirect
    dsimp only
    have hidx : ∀ j, fs.barray i (num - L.NUM_DIRECT_INODES + 1 + j) =
        L.slot fs i (num + 1 + j) := by
      intro j
      rw [← slot_indirect (by omega)]
      congr 1
      omega
    rw [if_pos rfl, foldl_slice (num + 1) (fun j _ => hidx j) hone, hidx,
      slice_last (by rw [Nat.add_mul (num + 1)]; omega) hnew (fun hnot => hlast (by omega)), hcount]
  · rw [decide_eq_false hflag, if_neg (by decide)]
    have hlt : num < L.NUM_DIRECT_INODES := Nat.lt_of_not_le hflag
    split
    · -- the direct blocks only
      rename_i hin
      unfold read_direct_only
      dsimp only
      rw [foldl_slice (num + 1) (fun j hj => slot_direct (L := L) (by omega) fs i) hone,
        slot_direct (L := L) (by omega),
        slice_last (by rw [Nat.add_mul (num + 1)]; omega) hnew (fun hnot => absurd hin (by omega)),
        hcount]
    · -- the rest of the direct blocks, and then the indirect ones
      rename_i hout
      unfold read_across
      dsimp only
      have hdirect : off + (remain + (L.NUM_DIRECT_INODES - num - 1) * L.data_block) =
          L.NUM_DIRECT_INODES * L.data_block := by
        have hsum : L.NUM_DIRECT_INODES = num + 1 + (L.NUM_DIRECT_INODES - num - 1) := by omega
        rw [← Nat.add_assoc, hone, ← Nat.add_mul, ← hsum]
      obtain ⟨m, hm⟩ : ∃ m, num + blocknum + 1 - L.NUM_DIRECT_INODES = m := ⟨_, rfl⟩
      rw [hm]
      have hidx : ∀ j, fs.barray i j = L.slot fs i (L.NUM_DIRECT_INODES + j) := by
        intro j
        rw [← slot_indirect (Nat.le_add_right _ j), Nat.add_sub_cancel_left]
      have htotal : remain + (L.NUM_DIRECT_INODES - num - 1) * L.data_block + m * L.data_block =
          remain + blocknum * L.data_block := by
        have hsum : L.NUM_DIRECT_INODES - num - 1 + m = blocknum := by omega
        rw [Nat.add_assoc, ← Nat.add_mul, hsum]
      rw [foldl_slice (num + 1) (fun j hj => slot_direct (L := L) (by omega) fs i) hone,
        foldl_slice L.NUM_DIRECT_INODES (fun j _ => hidx j) hdirect, hidx, htotal,
        slice_last _ hnew (fun hnot => hlast (by omega)), hcount]
      have hblock : L.NUM_DIRECT_INODES + m = num + 1 + blocknum := by omega
      rw [hblock, Nat.add_mul (num + 1)]
      omega

/-! ### A read, and reads that follow on each other -/

/-- Reads, each where the one before has ended. -/
def reads (L : Layout) (P : Utils) (path : Option Path) :
    file_system → ℕ → List (ℕ × timespec) → List UInt8 × file_system × ℕ
  | fs, off, [] => ([], fs, off)
  | fs, off, (count, now) :: rest =>
    let r := minixfs_read L P fs path count off now
    let (copied, fs, off) := reads L P path r.fs r.off rest
    (r.copied ++ copied, fs, off)

/-- At no read does `*off + count` wrap around, in a file of `size` bytes. -/
def Fit (size : ℕ) : ℕ → List (ℕ × timespec) → Prop
  | _, [] => True
  | off, (count, _) :: rest =>
    off + count < 2 ^ 64 ∧ Fit size (off + min count (size - off)) rest

/-- Only the access time of a file is another one. -/
def Touched (fs : file_system) (i : ℕ) (fs' : file_system) : Prop :=
  ∃ now, fs' = fs.setInode i { fs.inode_root i with atim := now }

theorem Touched.refl (fs : file_system) (i : ℕ) : Touched fs i fs := by
  refine ⟨(fs.inode_root i).atim, ?_⟩
  unfold file_system.setInode
  rw [Function.update_eq_self]

theorem Touched.trans {fs₂ : file_system} (h : Touched fs i fs') (h' : Touched fs' i fs₂) :
    Touched fs i fs₂ := by
  obtain ⟨t, rfl⟩ := h
  obtain ⟨t', rfl⟩ := h'
  refine ⟨t', ?_⟩
  unfold file_system.setInode
  simp only [Function.update_self, Function.update_idem]

theorem Touched.size (h : Touched fs i fs') :
    (fs'.inode_root i).size = (fs.inode_root i).size := by
  obtain ⟨t, rfl⟩ := h
  show (Function.update fs.inode_root i _ i).size = _
  rw [Function.update_self]

theorem Touched.content (h : Touched fs i fs') : L.content fs' i = L.content fs i := by
  obtain ⟨t, rfl⟩ := h
  unfold Layout.content file_system.barray file_system.entry file_system.setInode
  simp only [Function.update_self]
  rfl

/-- **One read.** -/
theorem read_spec (hvirtual : P.is_virtual_path path = none) (hnode : P.get_inode fs path = some i)
    (hsize : (fs.inode_root i).size ≤ L.maxSize) (hfit : off + count < 2 ^ 64) :
    minixfs_read L P fs (some path) count off now =
      ⟨⟨fs.setInode i { fs.inode_root i with atim := now },
        off + min count ((fs.inode_root i).size - off),
        (min count ((fs.inode_root i).size - off) : ℕ), none⟩,
        ((L.content fs i).drop off).take count⟩ := by
  obtain ⟨fs₀, hfs₀⟩ : ∃ fs₀, fs.setInode i { fs.inode_root i with atim := now } = fs₀ := ⟨_, rfl⟩
  have htouched : Touched fs i fs₀ := ⟨now, hfs₀.symm⟩
  rw [← htouched.content]
  rw [← htouched.size] at hsize ⊢
  unfold minixfs_read
  simp only [Option.bind_some, hvirtual, hnode, hfs₀]
  rw [Layout.slice_eq hsize]
  split
  · -- from the end of the file on there is nothing to read
    rename_i hge
    have hzero : min count ((fs₀.inode_root i).size - off) = 0 := by omega
    rw [hzero]
    rfl
  · rename_i hlt
    have hsum : sizeSum off count = off + count := Nat.mod_eq_of_lt hfit
    have hcount : (if sizeSum off count ≥ (fs₀.inode_root i).size then (fs₀.inode_root i).size - off
        else count) = min count ((fs₀.inode_root i).size - off) := by
      rw [hsum]
      split <;> omega
    rw [hcount]
    obtain ⟨n, hn⟩ : ∃ n, min count ((fs₀.inode_root i).size - off) = n := ⟨_, rfl⟩
    rw [hn]
    have hdata := @read_data_spec L fs₀ i n off (by omega)
    split
    · rename_i hdirect
      rw [decide_eq_false (Nat.not_le.mpr hdirect), ← slot_direct hdirect] at hdata
      rw [hdata]
    · rename_i hnot
      have hindirect : L.NUM_DIRECT_INODES ≤ off / L.data_block := Nat.le_of_not_lt hnot
      have hin : off / L.data_block < L.NUM_INDIRECT_INODES + L.NUM_DIRECT_INODES := by
        apply Nat.div_lt_of_lt_mul
        rw [Nat.add_comm L.NUM_INDIRECT_INODES]
        exact (Nat.lt_of_not_le hlt).trans_le hsize
      rw [decide_eq_true hindirect, ← slot_indirect hindirect] at hdata
      rw [if_pos hin, hdata]

/-- Reads that follow on each other copy a part of the file. -/
theorem reads_spec (hvirtual : P.is_virtual_path path = none)
    (hpath : ∀ fs' : file_system, Touched fs i fs' → P.get_inode fs' path = some i)
    (hsize : (fs.inode_root i).size ≤ L.maxSize) :
    ∀ (chunks : List (ℕ × timespec)) (fs' : file_system) (off : ℕ), Touched fs i fs' →
      Fit (fs.inode_root i).size off chunks →
      (reads L P (some path) fs' off chunks).1 =
        ((L.content fs i).drop off).take (chunks.map Prod.fst).sum ∧
      Touched fs i (reads L P (some path) fs' off chunks).2.1
  | [], fs', off, htouched, _ => by
    refine ⟨?_, htouched⟩
    simp [reads]
  | (count, now) :: rest, fs', off, htouched, hfit => by
    obtain ⟨hlt, hrest⟩ := hfit
    have hread := @read_spec L P fs' path i count off now hvirtual (hpath fs' htouched)
      (htouched.size ▸ hsize) hlt
    obtain ⟨fs₂, hfs₂⟩ : ∃ fs₂, fs'.setInode i { fs'.inode_root i with atim := now } = fs₂ :=
      ⟨_, rfl⟩
    have htouched₂ : Touched fs i fs₂ := htouched.trans ⟨now, hfs₂.symm⟩
    rw [hfs₂, htouched.content, htouched.size] at hread
    obtain ⟨ih, ihfs⟩ := reads_spec hvirtual hpath hsize rest fs₂ _ htouched₂ hrest
    unfold reads
    rw [hread]
    refine ⟨?_, ihfs⟩
    dsimp only
    rw [ih, List.map_cons, List.sum_cons, List.take_add, List.drop_drop]
    -- past the end of the file there is nothing more to drop
    congr 1
    have hlength : (L.content fs i).length = (fs.inode_root i).size := by
      rw [Layout.content_eq hsize]
      simp [Layout.slice]
    by_cases hle : count ≤ (fs.inode_root i).size - off
    · rw [Nat.min_eq_left hle]
    · rw [Nat.min_eq_right (by omega), List.drop_eq_nil_of_le (by omega),
        List.drop_eq_nil_of_le (by omega)]

/-- **A read is what it is said to be.**  It copies the bytes of the file that it is asked for,
    as far as there are some, goes on by their number, returns it, and sets the access time;
    and reads that follow on each other copy the file. -/
theorem read_correct (hvirtual : P.is_virtual_path path = none)
    (hpath : ∀ fs' : file_system, Touched fs i fs' → P.get_inode fs' path = some i)
    (hsize : (fs.inode_root i).size ≤ L.maxSize) :
    (∀ (count off : ℕ) (now : timespec), off + count < 2 ^ 64 →
      minixfs_read L P fs (some path) count off now =
        ⟨⟨fs.setInode i { fs.inode_root i with atim := now },
          off + min count ((fs.inode_root i).size - off),
          (min count ((fs.inode_root i).size - off) : ℕ), none⟩,
          ((L.content fs i).drop off).take count⟩) ∧
    ∀ (chunks : List (ℕ × timespec)) (off : ℕ), Fit (fs.inode_root i).size off chunks →
      (reads L P (some path) fs off chunks).1 =
        ((L.content fs i).drop off).take (chunks.map Prod.fst).sum ∧
      Touched fs i (reads L P (some path) fs off chunks).2.1 := by
  have hrefl := Touched.refl fs i
  constructor
  · intro count off now hfit
    exact read_spec hvirtual (hpath fs hrefl) hsize hfit
  · intro chunks off hfit
    exact reads_spec hvirtual hpath hsize chunks fs off hrefl hfit

/-- A file of twenty bytes over the boundary, in pieces of seven. -/
theorem read_correct_pieces :
    (reads tiny (fullDisk tiny) (some [47]) (oneFile 20) 0 [(7, 1), (7, 2), (7, 3)]).1 =
      tiny.content (oneFile 20) 0 := by
  have hpath : ∀ fs' : file_system, Touched (oneFile 20) 0 fs' →
      (fullDisk tiny).get_inode fs' [47] = some 0 := fun _ _ => rfl
  have hreads := ((@read_correct tiny (fullDisk tiny) (oneFile 20) [47] 0 rfl hpath (by decide)).2
    [(7, 1), (7, 2), (7, 3)] 0 ⟨by decide, by decide, by decide, trivial⟩).1
  rw [hreads, List.drop_zero]
  apply List.take_of_length_le
  rw [Layout.content_eq (by decide)]
  simp [Layout.slice, oneFile]

end SystemProgramming.Filesystem
