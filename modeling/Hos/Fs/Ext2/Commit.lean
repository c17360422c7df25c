import Hos.Fs.Ext2.Device

/-!
# Committing a bitmap change

Both allocators end with the same three writes: a bitmap block, then the
descriptor table, then the superblock. On a well-formed file system these writes
change the free counters, keep the images and the device in agreement, and store
the bitmap, unless the table's last block lies over it: the stale image is then
written back over the new bitmap.

The counters follow the bitmaps when one clear bit is taken. The result of a
commit is a well-formed file system again as long as no bit has been cleared.
-/

namespace Hos.Ext2

open Bytes Nat

/-- The file system with other contents of its device and its images. -/
def Fs.withImages (fs : Fs) (disk bg sb : Bytes) : Fs :=
  { fs with disk := disk, blockGroups := bg, superblock := sb }

section

/-- Images of the descriptor table and the superblock that differ from those of
`fs` in the free counters alone. -/
structure CountersOnly (fs : Fs) (bg sb : Bytes) : Prop where
  table : ∀ x, x % groupDescriptorSize < 12 ∨ 16 ≤ x % groupDescriptorSize →
    bg x = fs.blockGroups x
  beyond : ∀ x, groupDescriptorSize * fs.blockGroupsCount ≤ x → bg x = fs.blockGroups x
  superblock : ∀ x, x < 12 ∨ 20 ≤ x → sb x = fs.superblock x

namespace CountersOnly

variable {fs : Fs} {bg sb : Bytes}

theorem refl (fs : Fs) : CountersOnly fs fs.blockGroups fs.superblock :=
  ⟨fun _ _ => rfl, fun _ _ => rfl, fun _ _ => rfl⟩

variable (h : CountersOnly fs bg sb)
include h

theorem blockBitmap : Group.blockBitmap bg = Group.blockBitmap fs.blockGroups := by
  funext g
  refine load32_congr fun x hlo hhi => h.table x ?_
  simp only [groupDescriptorSize] at hlo hhi ⊢
  omega

theorem inodeBitmap : Group.inodeBitmap bg = Group.inodeBitmap fs.blockGroups := by
  funext g
  refine load32_congr fun x hlo hhi => h.table x ?_
  simp only [groupDescriptorSize] at hlo hhi ⊢
  omega

theorem inodeTable : Group.inodeTable bg = Group.inodeTable fs.blockGroups := by
  funext g
  refine load32_congr fun x hlo hhi => h.table x ?_
  simp only [groupDescriptorSize] at hlo hhi ⊢
  omega

theorem word {a : Nat} (ha : a + 4 ≤ 12 ∨ 20 ≤ a) : load32 sb a = load32 fs.superblock a :=
  load32_congr fun x hlo hhi => h.superblock x (by omega)

theorem inodeSize : Ext2.inodeSize sb = Ext2.inodeSize fs.superblock :=
  load16_congr fun x hlo hhi => h.superblock x (by omega)

theorem blocksCount :
    Ext2.blocksCount sb = Ext2.blocksCount fs.superblock := h.word (by omega)

theorem firstDataBlock :
    Ext2.firstDataBlock sb = Ext2.firstDataBlock fs.superblock := h.word (by omega)

theorem blocksPerGroup :
    Ext2.blocksPerGroup sb = Ext2.blocksPerGroup fs.superblock := h.word (by omega)

theorem inodesPerGroup :
    Ext2.inodesPerGroup sb = Ext2.inodesPerGroup fs.superblock := h.word (by omega)

theorem firstIno :
    Ext2.firstIno sb = Ext2.firstIno fs.superblock := h.word (by omega)

end CountersOnly

/-- The geometry does not depend on the device, the descriptors or the counters. -/
theorem Geometry.withImages {fs : Fs} {sb : Bytes} (geo : Geometry fs) (disk bg : Bytes)
    (hsb : ∀ x, x < 12 ∨ 20 ≤ x → sb x = fs.superblock x) :
    Geometry (fs.withImages disk bg sb) := by
  have h : CountersOnly fs fs.blockGroups sb := ⟨fun _ _ => rfl, fun _ _ => rfl, hsb⟩
  constructor
  case inodesPerBlock => exact h.inodeSize ▸ geo.inodesPerBlock
  all_goals simp only [Fs.withImages, h.blocksCount, h.blocksPerGroup, h.inodesPerGroup]
  exacts [geo.blockSize, geo.blocksPerBlock, geo.pointers, geo.start, geo.length, geo.covered,
    geo.tight, geo.tableFits, geo.blocksPerGroup_pos, geo.blocksPerGroup_le,
    geo.inodesPerGroup_pos, geo.inodesPerGroup_le, geo.inodes_lt, geo.indirect, geo.doubly,
    geo.trebly]

end

section

/-- The writes that end both allocators: the bitmap in block `b`, the descriptor
table with image `bg`, and the superblock `sb`. -/
def commit (fs : Fs) (b : Nat) (cache bg sb : Bytes) : Fs :=
  writeSuperblock
    { writeBgdt { (writeBlock fs b cache).2 with blockGroups := bg } with superblock := sb }

/-- The device after `commit`; later writes win. -/
def Fs.commitDisk (fs : Fs) (b : Nat) (cache bg sb : Bytes) : Bytes := fun a =>
  if InSuperblock a then sb (a - 1024)
  else if fs.InBgdt (a / fs.blockSize) then bg (a - fs.bgdtStartBlock * fs.blockSize)
  else if a / fs.blockSize = b then cache (a % fs.blockSize)
  else fs.disk a

variable {fs : Fs} {b : Nat} {cache bg sb : Bytes}

/-- Whatever block the bitmap is written to, a commit installs the images. -/
theorem commit_images (geo : Geometry fs) (hbelow : fs.Below4G) :
    commit fs b cache bg sb = fs.withImages (commit fs b cache bg sb).disk bg sb := by
  have htable :=
    writeBgdt_eq (geo.withImages (writeBlock fs b cache).2.disk bg fun _ _ => rfl) hbelow
  rw [Fs.withImages] at htable
  rw [commit, writeBlock_eq, htable]
  rfl

theorem commit_eq (geo : Geometry fs) (hbelow : fs.Below4G) (hb : b ≠ 0)
    (hlt : b < blocksCount fs.superblock) :
    commit fs b cache bg sb = fs.withImages (fs.commitDisk b cache bg sb) bg sb := by
  have hsize := geo.blockSize_bounds
  have htable :=
    writeBgdt_eq (geo.withImages (writeBlock fs b cache).2.disk bg fun _ _ => rfl) hbelow
  rw [Fs.withImages] at htable
  rw [commit, writeBlock_eq, htable, writeSuperblock]
  refine congrArg (fun disk => fs.withImages disk bg sb) (funext fun a => ?_)
  simp only [blit, Fs.tableDisk, Fs.commitDisk, zero_add,
    writeBlock_disk (show 0 < fs.blockSize by omega) hb (geo.offset_lt hbelow hlt)]
  rfl

theorem commitDisk_synced (wf : WellFormed fs) (hco : CountersOnly fs bg sb) (b : Nat)
    (cache : Bytes) :
    (fs.withImages (fs.commitDisk b cache bg sb) bg sb).Synced := by
  have hsize := wf.blockSize_bounds
  constructor
  · intro x hx
    simp only [Fs.withImages, Fs.commitDisk]
    rw [if_pos ⟨by omega, by omega⟩, Nat.add_sub_cancel_left]
  · intro x hx
    simp only [Fs.withImages, Fs.commitDisk] at hx ⊢
    by_cases hsb : fs.bgdtStartBlock * fs.blockSize + x < 1024 + superblockSize
    · obtain ⟨hbase, hlt⟩ := wf.overlap hsb
      have hshared := wf.synced.superblock (1024 + x) (by simp only [superblockSize]; omega)
      have htable := wf.synced.table x hx
      rw [hbase] at hsb htable ⊢
      rw [if_pos ⟨by omega, hsb⟩, hco.table x (by simp only [groupDescriptorSize]; omega), htable]
      have hindex : 2048 + x - 1024 = 1024 + x := by omega
      have hbyte : 1024 + (1024 + x) = 2048 + x := by omega
      rw [hindex, hco.superblock _ (by omega), hshared, hbyte]
    · have hin : fs.InBgdt ((fs.bgdtStartBlock * fs.blockSize + x) / fs.blockSize) := by
        have hlt := Nat.lt_of_mul_lt_mul_right (Nat.lt_trans hx wf.descriptors_lt)
        rw [Nat.mul_comm, Nat.mul_add_div (by omega)]
        exact ⟨Nat.le_add_right _ _, Nat.add_lt_add_left hlt _⟩
      rw [if_neg fun h => hsb h.2, if_pos hin, Nat.add_sub_cancel_left]

/-- Away from the superblock and the descriptors, a commit writes the bitmap
block, and the stale image over the block behind the descriptors. -/
theorem commitDisk_of_clear (wf : WellFormed fs) (hco : CountersOnly fs bg sb) {a : Nat}
    (hb : fs.ClearOfTables b) (hsb : ¬InSuperblock a) (htable : ¬fs.InTable a) :
    fs.commitDisk b cache bg sb a =
      if fs.IsTail (a / fs.blockSize) then fs.blockGroups (a - fs.bgdtStartBlock * fs.blockSize)
      else if a / fs.blockSize = b then cache (a % fs.blockSize) else fs.disk a := by
  have hsize := wf.blockSize_bounds
  rw [Fs.commitDisk, if_neg hsb]
  by_cases hin : fs.InBgdt (a / fs.blockSize)
  · have hle : fs.bgdtStartBlock * fs.blockSize ≤ a :=
      le_trans (mul_le_mul_right _ hin.1) (div_mul_le_self a _)
    have hbeyond : groupDescriptorSize * fs.blockGroupsCount ≤
        a - fs.bgdtStartBlock * fs.blockSize := by
      simp only [Fs.InTable] at htable
      omega
    rw [if_pos hin, hco.beyond _ hbeyond]
    by_cases htail : fs.IsTail (a / fs.blockSize)
    · rw [if_pos htail]
    · have hdesc : (a / fs.blockSize - fs.bgdtStartBlock) * fs.blockSize <
          groupDescriptorSize * fs.blockGroupsCount := Nat.lt_of_not_le fun h => htail ⟨hin, h⟩
      have hne : a / fs.blockSize ≠ b := by
        rintro rfl
        refine (hb ((a / fs.blockSize) * fs.blockSize) ?_).2 ⟨?_, ?_⟩
        · exact Nat.mul_div_cancel _ (by omega)
        · exact mul_le_mul_right _ hin.1
        · rw [Nat.sub_mul] at hdesc
          omega
      rw [if_neg htail, if_neg hne, wf.synced.table, add_sub_of_le hle]
      rwa [mul_comm fs.bgdtStartBlock, sub_mul_div]
  · have htail : ¬fs.IsTail (a / fs.blockSize) := fun h => hin h.1
    rw [if_neg hin, if_neg htail]

/-- Overwriting a block away from the tables keeps the images in agreement. -/
theorem Fs.Synced.overwrite {disk disk' : Bytes} (h : (fs.withImages disk bg sb).Synced)
    (hpos : 0 < fs.blockSize) (hclear : fs.ClearOfTables b)
    (hsame : ∀ a, a / fs.blockSize ≠ b → disk' a = disk a) :
    (fs.withImages disk' bg sb).Synced := by
  constructor
  · intro x hx
    have hne : (1024 + x) / fs.blockSize ≠ b := fun heq => (hclear _ heq).1 ⟨by omega, by omega⟩
    exact (h.superblock x hx).trans (hsame _ hne).symm
  · intro x hx
    have hne : (fs.bgdtStartBlock * fs.blockSize + x) / fs.blockSize ≠ b := by
      intro heq
      refine (hclear (fs.bgdtStartBlock * fs.blockSize + x / fs.blockSize * fs.blockSize) ?_).2
        ⟨by omega, Nat.add_lt_add_left hx _⟩
      rw [← Nat.add_mul, Nat.mul_div_cancel _ hpos, ← heq, Nat.mul_comm, Nat.mul_add_div hpos]
    exact (h.table x hx).trans (hsame _ hne).symm

end

section

/-- The descriptor image after `free--` on the counter of group `g`. -/
def Fs.takenGroups (fs : Fs) (groupField g : Nat) : Bytes :=
  fs.blockGroups.store16 (groupDescriptorSize * g + groupField)
    (u16 (fs.blockGroups.load16 (groupDescriptorSize * g + groupField) + (2 ^ 16 - 1)))

/-- The superblock image after `free--` on the counter of the file system. -/
def Fs.takenTotal (fs : Fs) (field : Nat) : Bytes :=
  fs.superblock.store32 field (sub32 (fs.superblock.load32 field) 1)

variable {fs : Fs} {disk bg sb : Bytes} {g i groupField field perGroup : Nat}
  {bit bit' : Nat → Nat → Bool}

theorem countersOnly_taken (hgf : 12 ≤ groupField ∧ groupField + 2 ≤ 16)
    (hf : 12 ≤ field ∧ field + 4 ≤ 20) (hg : g < fs.blockGroupsCount) :
    CountersOnly fs (fs.takenGroups groupField g) (fs.takenTotal field) where
  table := by
    intro x hx
    refine store16_of_notMem ?_
    simp only [groupDescriptorSize] at hx ⊢
    omega
  beyond := by
    intro x hx
    refine store16_of_notMem (Or.inr ?_)
    simp only [groupDescriptorSize] at hx ⊢
    omega
  superblock := by
    intro x hx
    exact store32_of_notMem (by omega)

theorem countersOnly_takenBlock (hg : g < fs.blockGroupsCount) :
    CountersOnly fs (fs.takenGroups 12 g) (fs.takenTotal 12) := countersOnly_taken (by decide)
    (by decide) hg

theorem countersOnly_takenInode (hg : g < fs.blockGroupsCount) :
    CountersOnly fs (fs.takenGroups 14 g) (fs.takenTotal 16) := countersOnly_taken (by decide)
    (by decide) hg

/-- Counters in synced images are those on the device. -/
theorem Fs.Synced.counts (hsync : fs.Synced) (hgf : groupField + 2 ≤ 16) (hf : field + 4 ≤ 20)
    (hgroup : ∀ g < fs.blockGroupsCount, fs.blockGroups.load16
      (groupDescriptorSize * g + groupField) = clearCount (bit g) perGroup)
    (htotal : fs.superblock.load32 field =
      ∑ g ∈ Finset.range fs.blockGroupsCount, clearCount (bit g) perGroup) :
    fs.Counts groupField field perGroup bit where
  group := hgroup
  total := htotal
  groupOnDisk := by
    intro g hg
    rw [← hgroup g hg]
    refine load16_congr fun x _ hx => (hsync.table x ?_).symm
    refine lt_of_le_of_lt (div_mul_le_self x fs.blockSize) ?_
    simp only [groupDescriptorSize] at hx ⊢
    omega
  totalOnDisk := by
    rw [← htotal]
    refine load32_copy fun x hx => ?_
    rw [add_assoc, hsync.superblock _ (by simp only [superblockSize]; omega)]

/-- Counters that are untouched still count bitmaps that are untouched. -/
theorem Fs.Counts.keep (h : fs.Counts groupField field perGroup bit)
    (hsync : (fs.withImages disk bg sb).Synced) (hgf : groupField + 2 ≤ 16) (hf : field + 4 ≤ 20)
    (hgroup : ∀ g < fs.blockGroupsCount, bg.load16 (groupDescriptorSize * g + groupField) =
      fs.blockGroups.load16 (groupDescriptorSize * g + groupField))
    (htotal : sb.load32 field = fs.superblock.load32 field)
    (hbits : ∀ g < fs.blockGroupsCount, ∀ i < perGroup, bit' g i = bit g i) :
    (fs.withImages disk bg sb).Counts groupField field perGroup bit' := by
  have hcount : ∀ g < fs.blockGroupsCount,
      clearCount (bit' g) perGroup = clearCount (bit g) perGroup := by
    intro g hg
    exact clearCount_congr (hbits g hg)
  refine hsync.counts hgf hf ?_ ?_
  · intro g hg
    exact (hgroup g hg).trans ((h.group g hg).trans (hcount g hg).symm)
  · refine htotal.trans (h.total.trans (Finset.sum_congr rfl ?_))
    intro g hg
    exact (hcount g (Finset.mem_range.mp hg)).symm

/-- Taking a clear bit of group `g` and decrementing its two counters. -/
theorem Fs.Counts.take (h : fs.Counts groupField field perGroup bit)
    (hsync : (fs.withImages disk (fs.takenGroups groupField g) (fs.takenTotal field)).Synced)
    (hgf : groupField + 2 ≤ 16) (hf : field + 4 ≤ 20)
    (hg : g < fs.blockGroupsCount) (hi : i < perGroup) (hclear : bit g i = false)
    (hbits : ∀ g' < fs.blockGroupsCount, ∀ i' < perGroup,
      bit' g' i' = (bit g' i' || (g' == g && i' == i))) :
    (fs.withImages disk (fs.takenGroups groupField g) (fs.takenTotal field)).Counts
      groupField field perGroup bit' := by
  have hdrop : clearCount (bit' g) perGroup + 1 = clearCount (bit g) perGroup := by
    refine clearCount_take hi hclear fun j hj => ?_
    rw [hbits g hg j hj, beq_self_eq_true, Bool.true_and]
  have hkeep : ∀ g' < fs.blockGroupsCount, g' ≠ g →
      clearCount (bit' g') perGroup = clearCount (bit g') perGroup := by
    intro g' hg' hne
    refine clearCount_congr fun j hj => ?_
    rw [hbits g' hg' j hj, beq_false_of_ne hne, Bool.false_and, Bool.or_false]
  refine hsync.counts hgf hf ?_ ?_
  · intro g' hg'
    by_cases hgg : g' = g
    · subst hgg
      have hcount := h.group g' hg'
      have hlt := load16_lt (m := fs.blockGroups) (a := groupDescriptorSize * g' + groupField)
      refine (load16_store16_self).trans ?_
      simp only [u16]
      omega
    · refine (load16_store16_of_sep ?_).trans ((h.group g' hg').trans (hkeep g' hg' hgg).symm)
      simp only [groupDescriptorSize]
      omega
  · have htotal := h.total
    have hsum := sum_range_pred hg hdrop hkeep
    have hlt := load32_lt (m := fs.superblock) (a := field)
    refine (load32_store32_self).trans ?_
    rw [sub32_of_le hlt (by omega), mod_eq_of_lt (by omega)]
    exact Nat.sub_eq_of_eq_add (htotal.trans hsum.symm)

end

variable {fs : Fs} {disk bg sb : Bytes} {b : Nat}

theorem CountersOnly.inInodeTable_iff (h : CountersOnly fs bg sb) {g : Nat} :
    (fs.withImages disk bg sb).InInodeTable g b ↔ fs.InInodeTable g b := by
  simp only [Fs.InInodeTable, Fs.withImages, h.inodeTable, h.inodesPerGroup, h.inodeSize]

theorem CountersOnly.isMeta_iff (h : CountersOnly fs bg sb) :
    (fs.withImages disk bg sb).IsMeta b ↔ fs.IsMeta b := by
  simp only [Fs.IsMeta, h.inInodeTable_iff]
  simp only [Fs.withImages, h.blockBitmap, h.inodeBitmap]
  exact Iff.rfl

/-- Changing counters, setting bits and writing other blocks keeps a file
system well formed. -/
theorem WellFormed.withImages (wf : WellFormed fs) (hco : CountersOnly fs bg sb)
    (hsync : (fs.withImages disk bg sb).Synced)
    (hblocks : ∀ g < fs.blockGroupsCount, ∀ i < blocksPerGroup fs.superblock,
      fs.blockBit g i = true → (fs.withImages disk bg sb).blockBit g i = true)
    (hinodes : ∀ g < fs.blockGroupsCount, ∀ i < inodesPerGroup fs.superblock,
      fs.inodeBit g i = true → (fs.withImages disk bg sb).inodeBit g i = true)
    (hblockCounts : (fs.withImages disk bg sb).BlockCounts)
    (hinodeCounts : (fs.withImages disk bg sb).InodeCounts) :
    WellFormed (fs.withImages disk bg sb) where
  toGeometry := wf.toGeometry.withImages disk bg hco.superblock
  synced := hsync
  blockCounts := hblockCounts
  inodeCounts := hinodeCounts
  blockBitmap_valid := by
    simp only [Fs.withImages, hco.blockBitmap, hco.blocksCount]
    exact wf.blockBitmap_valid
  inodeBitmap_valid := by
    simp only [Fs.withImages, hco.inodeBitmap, hco.blocksCount]
    exact wf.inodeBitmap_valid
  blockBitmap_inj := by
    simpa only [Fs.withImages, hco.blockBitmap] using wf.blockBitmap_inj
  inodeBitmap_inj := by
    simpa only [Fs.withImages, hco.inodeBitmap] using wf.inodeBitmap_inj
  bitmaps_ne := by
    simpa only [Fs.withImages, hco.blockBitmap, hco.inodeBitmap] using wf.bitmaps_ne
  inodeSize_ge := by
    simpa only [Fs.withImages, hco.inodeSize] using wf.inodeSize_ge
  inodeSize_dvd := by
    simpa only [Fs.withImages, hco.inodeSize] using wf.inodeSize_dvd
  inodeTable_valid := by
    intro g hg b hb
    simp only [Fs.withImages, hco.blockBitmap, hco.inodeBitmap, hco.blocksCount]
    exact wf.inodeTable_valid g hg b (hco.inInodeTable_iff.mp hb)
  meta_used := by
    simp only [hco.isMeta_iff]
    simp only [Fs.withImages, hco.firstDataBlock, hco.blocksPerGroup]
    intro g hg i hi hmeta
    exact hblocks g hg i hi (wf.meta_used g hg i hi hmeta)
  padding_used := by
    simp only [Fs.withImages, hco.firstDataBlock, hco.blocksPerGroup, hco.blocksCount]
    intro g hg i hi hpad
    exact hblocks g hg i hi (wf.padding_used g hg i hi hpad)
  reserved_used := by
    simp only [Fs.withImages, hco.firstIno, hco.inodesPerGroup]
    intro g hg i hi hres
    exact hinodes g hg i hi (wf.reserved_used g hg i hi hres)

theorem CountersOnly.below4G (h : CountersOnly fs bg sb) (hbelow : fs.Below4G) :
    (fs.withImages disk bg sb).Below4G := by
  simpa only [Fs.Below4G, Fs.withImages, h.blocksCount] using hbelow

end Hos.Ext2
