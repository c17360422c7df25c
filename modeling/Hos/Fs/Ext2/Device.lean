import Hos.Drivers.Ata.Write
import Hos.Fs.Ext2.WellFormed
import Hos.Lib.Run

/-!
# Effects on the device

Every write of the driver replaces the contents of one block, of the blocks of
the descriptor table, or of the superblock. The equations below give the byte
at any address after such a write. The last block of the descriptor table may
hold no descriptor at all, and the superblock image is four bytes longer than
the format's, so that it reaches into a table that starts at byte 2048.

The ATA driver is such a device for whole blocks.
-/

namespace Hos.Ext2

open List Nat Option

open Bytes

namespace Geometry

variable {fs : Fs}

variable (h : Geometry fs)
include h

theorem blockSize_bounds : 1024 ≤ fs.blockSize ∧ fs.blockSize ≤ 65536 ∧
    fs.blockSize % 1024 = 0 := by
  obtain ⟨k, hk, hsize⟩ := h.blockSize
  have hlow : 2 ^ 0 ≤ 2 ^ k := Nat.pow_le_pow_right (by decide) (Nat.zero_le k)
  have hhigh : 2 ^ k ≤ 2 ^ 6 := Nat.pow_le_pow_right (by decide) hk
  omega

theorem start_pos : 0 < fs.bgdtStartBlock := by
  rw [h.start]
  split <;> decide

/-- Blocks of the device have addresses below `2 ^ 32`. -/
theorem offset_lt (hbelow : fs.Below4G) {b : Nat} (hb : b < blocksCount fs.superblock) :
    b * fs.blockSize < 2 ^ 32 := by
  have hsize := h.blockSize_bounds
  have hmul := (mul_le_mul_right fs.blockSize (succ_le_of_lt hb)).trans hbelow
  rw [succ_mul] at hmul
  omega

/-- The descriptors end inside the table's blocks. -/
theorem descriptors_lt : groupDescriptorSize * fs.blockGroupsCount <
    fs.bgdtLength * fs.blockSize := by
  have hsize := h.blockSize_bounds
  have hpos : 0 < fs.blockSize := by omega
  have hlt := lt_mul_div_succ (groupDescriptorSize * fs.blockGroupsCount) hpos
  rwa [h.length, mul_comm _ fs.blockSize]

/-- The superblock image reaches the descriptor table in the first four bytes
at most. -/
theorem overlap {x : Nat} (hx : fs.bgdtStartBlock * fs.blockSize + x < 1024 + superblockSize) :
    fs.bgdtStartBlock * fs.blockSize = 2048 ∧ x < 4 := by
  have hsize := h.blockSize_bounds
  have hstart := h.start
  simp only [superblockSize] at hx
  split at hstart
  · rw [hstart, one_mul] at hx ⊢
    omega
  · rw [hstart] at hx ⊢
    omega

theorem groups_pos : 0 < fs.blockGroupsCount := by
  have hcovered := h.covered
  have hfits := h.tableFits
  have hstart := h.start_pos
  refine pos_of_ne_zero fun hzero => ?_
  rw [hzero, zero_mul] at hcovered
  omega

/-- The block behind the descriptors holds none, nor a byte of the superblock. -/
theorem clearOfTables_of_isTail {b : Nat} (hb : fs.IsTail b) : fs.ClearOfTables b := by
  intro a ha
  have hgroups := h.groups_pos
  have hle := div_mul_le_self a fs.blockSize
  obtain ⟨hin, hbeyond⟩ := hb
  rw [ha] at hle
  rw [Nat.sub_mul] at hbeyond
  have hstart := mul_le_mul_right fs.blockSize hin.1
  constructor
  · intro hsb
    have hover := h.overlap (x := a - fs.bgdtStartBlock * fs.blockSize)
      (by rw [add_sub_of_le (by omega)]; exact hsb.2)
    simp only [groupDescriptorSize] at hbeyond
    omega
  · intro htable
    have := htable.2
    omega

end Geometry

theorem Addressed.offset_lt {fs : Fs} (h : Addressed fs) {b : Nat}
    (hb : b < blocksCount fs.superblock) : b * fs.blockSize < 2 ^ 32 :=
  Geometry.offset_lt h.toGeometry h.below4G hb

section

variable {fs : Fs} {b : Nat} {buffer : Bytes}

theorem mem_block_iff {size a : Nat} (hpos : 0 < size) :
    b * size ≤ a ∧ a < b * size + size ↔ a / size = b := by
  rw [Nat.div_eq_iff hpos]
  omega

theorem sub_block {size a : Nat} (h : a / size = b) : a - b * size = a % size := by
  have hsplit := div_add_mod a size
  rw [h, mul_comm] at hsplit
  omega

theorem addr_div {size x : Nat} (hx : x < size) : (b * size + x) / size = b := by
  rw [mul_comm, mul_add_div (by omega), div_eq_of_lt hx, add_zero]

theorem addr_mod {size x : Nat} (hx : x < size) : (b * size + x) % size = x := by
  rw [mul_comm, mul_add_mod, mod_eq_of_lt hx]

theorem writeBlock_disk (hpos : 0 < fs.blockSize) (hb : b ≠ 0) (hlt : b * fs.blockSize < 2 ^ 32)
    (a : Nat) :
    (writeBlock fs b buffer).2.disk a =
      if a / fs.blockSize = b then buffer (a % fs.blockSize) else fs.disk a := by
  simp only [writeBlock, hb, if_false, u32_of_lt hlt, blit, mem_block_iff hpos]
  split
  · rename_i hin
    rw [sub_block hin, zero_add]
  · rfl

theorem writeBlock_eq : (writeBlock fs b buffer).2 =
    { fs with disk := (writeBlock fs b buffer).2.disk } := by
  rw [writeBlock]
  split <;> rfl

theorem readBlock_spec (buffer : Bytes) (hb : b ≠ 0) (hlt : b * fs.blockSize < 2 ^ 32) :
    (readBlock fs b buffer).1 = fs.blockSize ∧
      ∀ x < fs.blockSize, (readBlock fs b buffer).2 x = fs.block b x := by
  simp only [readBlock, hb, if_false, u32_of_lt hlt, true_and]
  intro x hx
  rw [blit_of_mem (Nat.zero_le x) (by omega), Nat.sub_zero, Fs.block]

end

section

/-- The device once the first `n` blocks of the descriptor image are written. -/
def Fs.tableDisk (fs : Fs) (n : Nat) : Bytes := fun a =>
  if fs.bgdtStartBlock ≤ a / fs.blockSize ∧ a / fs.blockSize < fs.bgdtStartBlock + n then
    fs.blockGroups (a - fs.bgdtStartBlock * fs.blockSize)
  else fs.disk a

variable {fs : Fs}

theorem Fs.tableDisk_zero : fs.tableDisk 0 = fs.disk := by
  funext a
  exact if_neg (by omega)

theorem writeBlock_tableDisk (hpos : 0 < fs.blockSize) (hstart : 0 < fs.bgdtStartBlock) {n : Nat}
    (hlt : (fs.bgdtStartBlock + n) * fs.blockSize < 2 ^ 32) :
    (writeBlock { fs with disk := fs.tableDisk n } (fs.bgdtStartBlock + n) fun x =>
        fs.blockGroups (fs.blockSize * n + x)).2 = { fs with disk := fs.tableDisk (n + 1) } := by
  rw [writeBlock_eq]
  refine congrArg (fun d => { fs with disk := d }) (funext fun a => ?_)
  have hblock : fs.bgdtStartBlock + n ≠ 0 := by omega
  rw [@writeBlock_disk { fs with disk := fs.tableDisk n } _ _ hpos hblock hlt]
  simp only [Fs.tableDisk]
  by_cases hthis : a / fs.blockSize = fs.bgdtStartBlock + n
  · have hindex : fs.blockSize * n + a % fs.blockSize = a - fs.bgdtStartBlock * fs.blockSize := by
      have hsplit := div_add_mod a fs.blockSize
      rw [hthis, mul_add, mul_comm fs.blockSize fs.bgdtStartBlock] at hsplit
      omega
    rw [if_pos hthis, if_pos (by omega), hindex]
  · rw [if_neg hthis]
    exact if_congr (by omega) rfl rfl

theorem foldl_writeBlock (hpos : 0 < fs.blockSize) (hstart : 0 < fs.bgdtStartBlock) (n : Nat)
    (hfit : (fs.bgdtStartBlock + n) * fs.blockSize ≤ 2 ^ 32) :
    (List.range n).foldl (fun fs i => (writeBlock fs (fs.bgdtStartBlock + i) fun x =>
        fs.blockGroups (fs.blockSize * i + x)).2) fs = { fs with disk := fs.tableDisk n } := by
  induction n with
  | zero => rw [Fs.tableDisk_zero, range_zero, foldl_nil]
  | succ n ih =>
    rw [← add_assoc, succ_mul] at hfit
    rw [range_succ, foldl_append, ih (by omega)]
    have hlt : (fs.bgdtStartBlock + n) * fs.blockSize < 2 ^ 32 := by omega
    exact writeBlock_tableDisk hpos hstart hlt

theorem writeBgdt_eq (geo : Geometry fs) (hbelow : fs.Below4G) :
    writeBgdt fs = { fs with disk := fs.tableDisk fs.bgdtLength } := by
  have hsize := geo.blockSize_bounds
  have hfit := mul_le_mul_right fs.blockSize geo.tableFits
  exact foldl_writeBlock (by omega) geo.start_pos fs.bgdtLength (le_trans hfit hbelow)

@[simp] theorem writeBlock_blockGroups (b : Nat) (buffer : Bytes) :
    (writeBlock fs b buffer).2.blockGroups = fs.blockGroups := by
  rw [writeBlock_eq]

@[simp] theorem writeBlock_superblock (b : Nat) (buffer : Bytes) :
    (writeBlock fs b buffer).2.superblock = fs.superblock := by
  rw [writeBlock_eq]

@[simp] theorem writeBgdt_superblock : (writeBgdt fs).superblock = fs.superblock := by
  rw [writeBgdt]
  generalize List.range fs.bgdtLength = blocks
  induction blocks generalizing fs with
  | nil => rfl
  | cons i blocks ih => rw [foldl_cons, ih, writeBlock_superblock]

end

/-- The fields that no call changes. -/
def Fs.layout (fs : Fs) : Fs :=
  { fs with disk := zeroed, superblock := zeroed, blockGroups := zeroed }

/-- The bytes of the first `n` blocks that `ext2_read_bgdt` and `ext2_write_bgdt` go through. -/
def Fs.Covered (fs : Fs) (n a : Nat) : Prop :=
  ∃ i < n, u32 ((fs.bgdtStartBlock + i) * fs.blockSize) ≤ a ∧
    a < u32 ((fs.bgdtStartBlock + i) * fs.blockSize) + fs.blockSize

/-- For some device and some image `ext2_write_bgdt` changes the byte at `a`. -/
def Fs.Rewrites (fs : Fs) (a : Nat) : Prop :=
  ∃ disk bg, (writeBgdt { fs with disk := disk, blockGroups := bg }).disk a ≠ disk a

/-- For some device the image that `ext2_read_bgdt` makes depends on the byte at `a`. -/
def Fs.Reads (fs : Fs) (a : Nat) : Prop :=
  ∃ disk v, (readBgdt { fs with disk := Function.update disk a v }).blockGroups ≠
    (readBgdt { fs with disk := disk }).blockGroups

section

variable {fs : Fs} {n a : Nat}

theorem Fs.covered_succ : fs.Covered (n + 1) a ↔ fs.Covered n a ∨
    u32 ((fs.bgdtStartBlock + n) * fs.blockSize) ≤ a ∧
      a < u32 ((fs.bgdtStartBlock + n) * fs.blockSize) + fs.blockSize :=
  exists_lt_succ_right

/-- The image is written to the covered bytes and nowhere else. -/
theorem foldl_writeBlock_covered (fs : Fs) (hstart : 0 < fs.bgdtStartBlock) (n a : Nat) :
    ∃ disk, (List.range n).foldl (fun fs i => (writeBlock fs (fs.bgdtStartBlock + i) fun x =>
        fs.blockGroups (fs.blockSize * i + x)).2) fs = { fs with disk := disk } ∧
      (fs.Covered n a → ∃ x, disk a = fs.blockGroups x) ∧
      (¬fs.Covered n a → disk a = fs.disk a) := by
  induction n with
  | zero => exact ⟨fs.disk, rfl, fun ⟨_, hi, _⟩ => absurd hi (not_lt_zero _), fun _ => rfl⟩
  | succ n ih =>
    obtain ⟨disk, hrun, hin, hout⟩ := ih
    rw [range_succ, foldl_append, hrun, Fs.covered_succ]
    have hblock : fs.bgdtStartBlock + n ≠ 0 := by omega
    refine ⟨_, writeBlock_eq, ?_, ?_⟩ <;> simp only [writeBlock, hblock, if_false, blit]
    · intro hcovered
      split
      · exact ⟨_, rfl⟩
      · exact hin (hcovered.resolve_right ‹_›)
    · intro hcovered
      rw [if_neg fun hmem => hcovered (.inr hmem)]
      exact hout fun hbefore => hcovered (.inl hbefore)

theorem Fs.rewrites_iff (hstart : 0 < fs.bgdtStartBlock) :
    fs.Rewrites a ↔ fs.Covered fs.bgdtLength a := by
  constructor
  · rintro ⟨disk, bg, hne⟩
    by_contra hout
    obtain ⟨disk', hrun, -, hsame⟩ := foldl_writeBlock_covered
      { fs with disk := disk, blockGroups := bg } hstart fs.bgdtLength a
    rw [writeBgdt, hrun] at hne
    exact hne (hsame hout)
  · intro hin
    refine ⟨fun _ => 0, fun _ => 1, ?_⟩
    obtain ⟨disk', hrun, hone, -⟩ := foldl_writeBlock_covered
      { fs with disk := fun _ => 0, blockGroups := fun _ => 1 } hstart fs.bgdtLength a
    obtain ⟨x, hx⟩ := hone hin
    rw [writeBgdt, hrun]
    intro hzero
    cases hx.symm.trans hzero

/-- The image after `n` blocks have been read. -/
theorem foldl_readBlock (fs : Fs) (hpos : 0 < fs.blockSize) (hstart : 0 < fs.bgdtStartBlock)
    (n : Nat) :
    (List.range n).foldl (fun fs i =>
      let (_, block) := readBlock fs (fs.bgdtStartBlock + i) zeroed
      { fs with blockGroups := fs.blockGroups.blit (fs.blockSize * i) block 0 fs.blockSize }) fs =
    { fs with blockGroups := fun x => if x / fs.blockSize < n then
        fs.disk (u32 ((fs.bgdtStartBlock + x / fs.blockSize) * fs.blockSize) + x % fs.blockSize)
      else fs.blockGroups x } := by
  induction n with
  | zero => simp
  | succ n ih =>
    have hblock : fs.bgdtStartBlock + n ≠ 0 := by omega
    rw [range_succ, foldl_append, ih, foldl_cons, foldl_nil]
    dsimp only
    rw [readBlock, if_neg hblock]
    refine congrArg (fun bg => { fs with blockGroups := bg }) (funext fun x => ?_)
    simp only [blit, zero_add, mul_comm fs.blockSize, mem_block_iff hpos]
    by_cases hthis : x / fs.blockSize = n
    · rw [if_pos hthis, sub_block hthis, if_pos ⟨Nat.zero_le _, mod_lt _ hpos⟩, Nat.sub_zero,
        if_pos (by omega), hthis]
    · rw [if_neg hthis]
      exact if_congr (by omega) rfl rfl

theorem Fs.reads_iff (hpos : 0 < fs.blockSize) (hstart : 0 < fs.bgdtStartBlock) :
    fs.Reads a ↔ fs.Covered fs.bgdtLength a := by
  have himage : ∀ disk : Bytes, (readBgdt { fs with disk := disk }).blockGroups = fun x =>
      if x / fs.blockSize < fs.bgdtLength then
        disk (u32 ((fs.bgdtStartBlock + x / fs.blockSize) * fs.blockSize) + x % fs.blockSize)
      else fs.blockGroups x := fun disk =>
    congrArg Fs.blockGroups (foldl_readBlock { fs with disk := disk } hpos hstart _)
  simp only [Fs.Reads, himage]
  constructor
  · rintro ⟨disk, v, hne⟩
    by_contra hout
    refine hne (funext fun x => ?_)
    split
    · rename_i hx
      refine (Function.update_apply disk a v _).trans (if_neg fun heq => ?_)
      have hrest := mod_lt x hpos
      exact hout ⟨x / fs.blockSize, hx, by omega, by omega⟩
    · rfl
  · rintro ⟨i, hi, hlow, hhigh⟩
    refine ⟨fun _ => 0, 1, fun heq => ?_⟩
    obtain ⟨y, rfl⟩ := Nat.exists_eq_add_of_le hlow
    have hbyte := congrFun heq (i * fs.blockSize + y)
    rw [addr_div (by omega), addr_mod (by omega), if_pos hi, if_pos hi, Function.update_self]
      at hbyte
    cases hbyte

end

section

variable {fs : Fs}

theorem writeBlock_layout (b : Nat) (buffer : Bytes) :
    (writeBlock fs b buffer).2.layout = fs.layout := by
  rw [writeBlock_eq]
  rfl

theorem writeBgdt_layout (fs : Fs) : (writeBgdt fs).layout = fs.layout :=
  foldl_keeps Fs.layout (fun _ _ => writeBlock_layout _ _) _ fs

theorem readBgdt_layout (fs : Fs) : (readBgdt fs).layout = fs.layout := by
  refine foldl_keeps Fs.layout ?_ _ fs
  exact fun _ _ => rfl

/-- An allocation. -/
inductive Allocation where
  | block
  | inode (preferredGroup : Nat)

def Allocation.exec : Allocation → Fs → Option Fs
  | block, fs => some (allocateBlock fs).2
  | inode preferredGroup, fs => some (allocateInode fs preferredGroup).2

theorem Allocation.exec_layout {allocation : Allocation} {fs' : Fs}
    (h : allocation.exec fs = some fs') : fs'.layout = fs.layout := by
  cases allocation with
  | block =>
    obtain rfl := some.inj h
    rw [allocateBlock]
    split
    · rfl
    · refine (writeBlock_layout _ _).trans ((writeBgdt_layout _).trans ?_)
      exact writeBlock_layout _ _
  | inode preferredGroup =>
    obtain rfl := some.inj h
    rw [allocateInode]
    split
    · rfl
    · exact (writeBgdt_layout _).trans (writeBlock_layout _ _)

end

/-- The number of blocks that the descriptors take. -/
def Fs.tableBlocks (fs : Fs) : Nat :=
  (groupDescriptorSize * fs.blockGroupsCount + fs.blockSize - 1) / fs.blockSize

/-- In every run of allocations `ext2_read_bgdt` and `ext2_write_bgdt` access the bytes of the
blocks that the descriptors take, and no others. -/
def Fs.TableOnly (fs : Fs) : Prop :=
  ∀ fs', Runs Allocation.exec (fun _ _ => True) fs fs' → ∀ a,
    (fs'.Rewrites a ↔ fs.bgdtStartBlock ≤ a / fs.blockSize ∧
      a / fs.blockSize < fs.bgdtStartBlock + fs.tableBlocks) ∧
    (fs'.Reads a ↔ fs.bgdtStartBlock ≤ a / fs.blockSize ∧
      a / fs.blockSize < fs.bgdtStartBlock + fs.tableBlocks)

variable {fs : Fs} {disk : Bytes}

/-- What `ext2_mount` computes for the descriptor table. -/
theorem table_of_mount (h : mount disk = some fs) :
    0 < fs.blockSize ∧ fs.blockSize < 2 ^ 32 ∧ fs.blockSize ∣ 2 ^ 32 ∧ 0 < fs.bgdtStartBlock ∧
      fs.bgdtLength = u32 (groupDescriptorSize * fs.blockGroupsCount) / fs.blockSize + 1 := by
  simp only [mount, ite_none_left_eq_some, ite_none_right_eq_some,
    some.injEq] at h
  obtain ⟨-, hdivisors, -, rfl⟩ := h
  have hkeeps fs := readBgdt_layout fs
  simp only [Fs.layout, Fs.mk.injEq] at hkeeps
  simp only [hkeeps]
  rw [not_or, not_or, not_or] at hdivisors
  have hsize := hdivisors.2.2.1
  generalize logBlockSize _ = k at hsize ⊢
  refine ⟨pos_of_ne_zero hsize, u32_lt _, ?_, by split <;> decide, trivial⟩
  have hshift : 1024 <<< k = 2 ^ (10 + k) := by rw [Nat.shiftLeft_eq, Nat.pow_add]
  rw [hshift, u32] at hsize ⊢
  obtain hlt | hge := lt_or_ge (10 + k) 32
  · rw [mod_eq_of_lt (Nat.pow_lt_pow_right (by decide) hlt)]
    exact pow_dvd_pow 2 hlt.le
  · exact absurd (mod_eq_zero_of_dvd (pow_dvd_pow 2 hge)) hsize

/-- The length of the table is right exactly when its last block is not full. -/
theorem bgdtLength_eq_iff {n size : Nat} (hpos : 0 < size) (hsize : size < 2 ^ 32) :
    u32 n / size + 1 = (n + size - 1) / size ↔ n < 2 ^ 32 ∧ ¬size ∣ n := by
  have hdiv := div_add_mod (u32 n) size
  have hrest := mod_lt (u32 n) hpos
  rw [eq_comm, Nat.div_eq_iff hpos, dvd_iff_mod_eq_zero, Nat.add_mul, Nat.mul_comm, Nat.one_mul]
  rcases Nat.lt_or_ge n (2 ^ 32) with hlt | hge
  · rw [u32_of_lt hlt] at *
    omega
  · have hwrap : u32 n ≤ n - 2 ^ 32 := by
      rw [u32, Nat.mod_eq_sub_mod hge]
      exact mod_le _ _
    omega

/-- A block at a 32-bit offset ends below 4 GiB. -/
theorem u32_mul_add_le {size : Nat} (hdvd : size ∣ 2 ^ 32) (b : Nat) :
    u32 (b * size) + size ≤ 2 ^ 32 := by
  obtain ⟨q, hq⟩ := hdvd
  have hpos : 0 < q := pos_of_ne_zero fun hzero => by
    rw [hzero, mul_zero] at hq
    cases hq
  rw [u32, hq, mul_comm b, mul_mod_mul_left, ← mul_succ]
  exact mul_le_mul_left size (mod_lt b hpos)

theorem covered_iff_of_below (hpos : 0 < fs.blockSize)
    (hbelow : (fs.bgdtStartBlock + fs.bgdtLength) * fs.blockSize ≤ 2 ^ 32) (a : Nat) :
    fs.Covered fs.bgdtLength a ↔ fs.bgdtStartBlock ≤ a / fs.blockSize ∧
      a / fs.blockSize < fs.bgdtStartBlock + fs.bgdtLength := by
  have haddr : ∀ i < fs.bgdtLength, u32 ((fs.bgdtStartBlock + i) * fs.blockSize) =
      (fs.bgdtStartBlock + i) * fs.blockSize := fun i hi =>
    u32_of_lt ((Nat.mul_lt_mul_of_pos_right (Nat.add_lt_add_left hi _) hpos).trans_le hbelow)
  constructor
  · rintro ⟨i, hi, hmem⟩
    rw [haddr i hi, mem_block_iff hpos] at hmem
    omega
  · rintro ⟨hlow, hhigh⟩
    refine ⟨a / fs.blockSize - fs.bgdtStartBlock, by omega, ?_⟩
    rw [haddr _ (by omega), add_sub_of_le hlow, mem_block_iff hpos]

/-- What is covered are the blocks of the descriptors exactly when their number is right and
the table ends below 4 GiB. -/
theorem covered_iff_table (hpos : 0 < fs.blockSize) (hdvd : fs.blockSize ∣ 2 ^ 32)
    (hstart : 0 < fs.bgdtStartBlock) (hlength : 0 < fs.bgdtLength) :
    (∀ a, fs.Covered fs.bgdtLength a ↔ fs.bgdtStartBlock ≤ a / fs.blockSize ∧
        a / fs.blockSize < fs.bgdtStartBlock + fs.tableBlocks) ↔
      fs.bgdtLength = fs.tableBlocks ∧
        (fs.bgdtStartBlock + fs.tableBlocks) * fs.blockSize ≤ 2 ^ 32 := by
  constructor
  · intro h
    have hnonempty : fs.tableBlocks ≠ 0 := by
      intro hzero
      have hcovered := (h _).mp ⟨0, hlength, Nat.le_refl _, Nat.lt_add_of_pos_right hpos⟩
      omega
    -- Every covered byte has a 32-bit address, and the last byte of the table is covered.
    have hbelow : (fs.bgdtStartBlock + fs.tableBlocks) * fs.blockSize ≤ 2 ^ 32 := by
      have hmul := Nat.sub_one_mul (fs.bgdtStartBlock + fs.tableBlocks) fs.blockSize
      have hle := Nat.le_mul_of_pos_left fs.blockSize
        (show 0 < fs.bgdtStartBlock + fs.tableBlocks by omega)
      obtain ⟨i, -, -, hhigh⟩ := (h ((fs.bgdtStartBlock + fs.tableBlocks - 1) * fs.blockSize +
        (fs.blockSize - 1))).mpr (by rw [addr_div (by omega)]; omega)
      have hlast := u32_mul_add_le hdvd (fs.bgdtStartBlock + i)
      omega
    refine ⟨Nat.le_antisymm ?_ ?_, hbelow⟩
    · -- Otherwise the block behind the table is covered.
      refine Nat.le_of_not_lt fun hlt => ?_
      have hcovered := (h _).mp ⟨_, hlt, Nat.le_refl _, Nat.lt_add_of_pos_right hpos⟩
      rcases Nat.lt_or_eq_of_le hbelow with hless | hend
      · rw [u32_of_lt hless, Nat.mul_div_cancel _ hpos] at hcovered
        omega
      · rw [hend, show u32 (2 ^ 32) = 0 by decide, Nat.zero_div] at hcovered
        omega
    · -- Otherwise the first block that is left out is in the table.
      refine Nat.le_of_not_lt fun hlt => ?_
      obtain ⟨i, hi, hmem⟩ := (h ((fs.bgdtStartBlock + fs.bgdtLength) * fs.blockSize)).mpr
        (by rw [Nat.mul_div_cancel _ hpos]; omega)
      have hless : (fs.bgdtStartBlock + i) * fs.blockSize < 2 ^ 32 :=
        (Nat.mul_lt_mul_of_pos_right (by omega) hpos).trans_le hbelow
      rw [u32_of_lt hless, mem_block_iff hpos, Nat.mul_div_cancel _ hpos] at hmem
      omega
  · rintro ⟨hlen, hbelow⟩ a
    rw [covered_iff_of_below hpos (hlen ▸ hbelow), hlen]

/-- The descriptor table is accessed as it should exactly when its last block is not full and
it ends below 4 GiB. -/
theorem bgdt_extent_iff (h : mount disk = some fs) :
    fs.TableOnly ↔ ¬fs.blockSize ∣ groupDescriptorSize * fs.blockGroupsCount ∧
      (fs.bgdtStartBlock + fs.tableBlocks) * fs.blockSize ≤ 2 ^ 32 := by
  obtain ⟨hpos, hlt, hdvd, hstart, hlength⟩ := table_of_mount h
  -- No allocation changes what is accessed.
  have honly : fs.TableOnly ↔ ∀ a, fs.Covered fs.bgdtLength a ↔
      fs.bgdtStartBlock ≤ a / fs.blockSize ∧
        a / fs.blockSize < fs.bgdtStartBlock + fs.tableBlocks := by
    constructor
    · exact fun honly a => (Fs.rewrites_iff hstart).symm.trans (honly fs (Runs.refl fs) a).1
    · intro hcovered fs' hrun a
      have hlayout : fs'.layout = fs.layout := hrun.invariant (fun fs' => fs'.layout = fs.layout)
        (fun _ _ _ hkept _ hexec => (Allocation.exec_layout hexec).trans hkept) rfl
      simp only [Fs.layout, Fs.mk.injEq, true_and] at hlayout
      obtain ⟨hsize', -, -, -, -, hstart', hlength', -⟩ := hlayout
      have hsame : fs'.Covered fs'.bgdtLength a ↔ fs.Covered fs.bgdtLength a := by
        rw [Fs.Covered, hsize', hstart', hlength', Fs.Covered]
      rw [Fs.rewrites_iff (hstart' ▸ hstart), Fs.reads_iff (hsize' ▸ hpos) (hstart' ▸ hstart),
        hsame]
      exact ⟨hcovered a, hcovered a⟩
  rw [honly, covered_iff_table hpos hdvd hstart (hlength ▸ Nat.succ_pos _), hlength,
    Fs.tableBlocks, bgdtLength_eq_iff hpos hlt]
  refine ⟨fun hboth => ⟨hboth.1.2, hboth.2⟩, fun hboth => ⟨⟨?_, hboth.1⟩, hboth.2⟩⟩
  have hbelow := hboth.2
  have hceil := Nat.lt_div_mul_add hpos
    (a := groupDescriptorSize * fs.blockGroupsCount + fs.blockSize - 1)
  have hfirst := Nat.le_mul_of_pos_left fs.blockSize hstart
  rw [Nat.add_mul] at hbelow
  omega

/-- The start of a disk with blocks of 1024 bytes, groups of 8192 blocks and `n * 65536` blocks. -/
def diskImage (n : Byte) : Bytes := fun a =>
  ([(1030, n), (1057, 0x20), (1065, 8), (1080, 0x53), (1081, 0xEF), (1112, 0x80), (2056, 10),
    (10369, 0x41)].lookup a).getD 0

set_option maxRecDepth 20000 in
theorem bgdt_extent_eight_groups : ∃ fs, mount (diskImage 1) = some fs ∧ fs.TableOnly := by
  have heval : (mount (diskImage 1)).map (fun fs => (fs.blockGroupsCount, fs.blockSize,
      fs.bgdtStartBlock)) = some (8, 1024, 2) := by
    decide +kernel
  obtain ⟨fs, hmount, hfields⟩ := map_eq_some_iff.mp heval
  simp only [Prod.mk.injEq] at hfields
  obtain ⟨hgroups, hsize, hstart⟩ := hfields
  refine ⟨fs, hmount, (bgdt_extent_iff hmount).mpr ?_⟩
  rw [Fs.tableBlocks, hgroups, hsize, hstart]
  decide

set_option maxRecDepth 20000 in
/-- The descriptors of 32 groups fill block 2. Block 3 is rewritten with what it held when the
file system was mounted. -/
theorem bgdt_of_full_block :
    (mount (diskImage 4)).map (fun fs => (fs.blockGroupsCount, fs.blockSize, fs.bgdtStartBlock,
      fs.bgdtLength,
      (writeBgdt { fs with disk := Function.update fs.disk 3072 1 }).disk 3072)) = some
        (32, 1024, 2, 2, 0) := by
  decide +kernel

/-- The file system lies on a hard disk, within the offsets that the driver has. -/
structure OnDisk (dev : Ata.Device) (fs : Fs) : Prop extends Geometry fs where
  disk : dev.IsDisk
  inside : blocksCount fs.superblock * fs.blockSize ≤ min (2 ^ 31) dev.maxOffset

/-- For every block but the first, `ata_read` and `ata_write` with the buffer `cache` in memory do
what the file system takes its device to do. -/
theorem ata_serves_blocks {dev : Ata.Device} {fs : Fs} (h : OnDisk dev fs) {b buffer : Nat}
    (hzero : b ≠ 0)
    (hb : b < blocksCount fs.superblock) (hfit : buffer + fs.blockSize ≤ 2 ^ 32) (support : Bytes)
    {mem cache : Bytes} (hcache : ∀ x < fs.blockSize, mem (buffer + x) = cache x) :
    Ata.read dev fs.disk support mem buffer ↑(b * fs.blockSize) fs.blockSize =
        some ((readBlock fs b cache).1, mem.blit buffer (readBlock fs b cache).2 0 fs.blockSize) ∧
      Ata.write dev fs.disk support mem buffer ↑(b * fs.blockSize) fs.blockSize =
        some ((writeBlock fs b cache).1, (writeBlock fs b cache).2.disk) := by
  obtain ⟨hlow, hhigh, hsector⟩ := h.blockSize_bounds
  have hstop := (mul_le_mul_right fs.blockSize (succ_le_of_lt hb)).trans h.inside
  rw [succ_mul] at hstop
  have hexact : Ata.Exact dev.maxOffset (b * fs.blockSize) fs.blockSize := by
    have haligned : Ata.sectorSize ∣ fs.blockSize :=
      (show Ata.sectorSize ∣ 1024 by decide).trans (dvd_of_mod_eq_zero hsector)
    exact ⟨by omega, fun _ => le_of_dvd (by omega) haligned, .inl (haligned.mul_left b)⟩
  have hoff : b * fs.blockSize < 2 ^ 31 := by omega
  rw [Ata.read, Ata.write, Ata.access_disk h.disk, Ata.access_disk h.disk,
    hexact.transfer_eq (Ata.copies_read fs.disk support buffer) dev.maxOffset_lt hoff hfit,
    hexact.transfer_eq (Ata.copies_write mem support buffer) dev.maxOffset_lt hoff hfit,
    i32_of_lt (by omega), readBlock, writeBlock, if_neg hzero, if_neg hzero, u32_of_lt (by omega)]
  constructor
  · rw [blit_congr fun x hx => ?_]
    dsimp only
    rw [Nat.zero_add, blit_of_mem (Nat.zero_le x) (by omega), Nat.sub_zero]
  · rw [blit_congr fun x hx => (hcache x hx).trans (congrArg cache (zero_add x).symm)]

theorem ata_serves_tiny :
    Ata.write Ata.smallDisk (tiny false).disk zeroed (fun _ => 65) 0xD0001000 ↑(9 * 2048) 2048 =
      some (2048, (writeBlock (tiny false) 9 fun _ => 65).2.disk) :=
  (ata_serves_blocks ⟨tiny_geometry, .inl rfl, by decide⟩ (by decide) (by decide) (by decide) zeroed
    fun _ _ => rfl).2

end Hos.Ext2
