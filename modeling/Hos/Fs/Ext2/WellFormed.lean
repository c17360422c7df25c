import Hos.Fs.Ext2.Basic

/-!
# Well-formed file systems

A mounted file system is well formed when its images agree with the device, its
metadata blocks are separate from each other, marked as used and inside the
device, and its free counters count the clear bits of the bitmaps. Bit `i` of
group `g` stands for the block `first_data_block + g * blocks_per_group + i`,
and for the inode `g * inodes_per_group + i + 1`.

Addresses on the device are related to blocks by division, so that two blocks
never overlap by definition.
-/

namespace Hos.Ext2

/-- The bytes that `ext2_write_superblock` covers. -/
def InSuperblock (a : Nat) : Prop := 1024 ≤ a ∧ a < 1024 + superblockSize

instance (a : Nat) : Decidable (InSuperblock a) := inferInstanceAs (Decidable (_ ∧ _))

namespace Fs

variable (fs : Fs)

/-- The contents of a block of the device. -/
def block (b : Nat) : Bytes := fun x => fs.disk (b * fs.blockSize + x)

/-- The bit of the block bitmap of group `g`, on the device. -/
def blockBit (g i : Nat) : Bool := (fs.block (Group.blockBitmap fs.blockGroups g)).bit i

/-- The bit of the inode bitmap of group `g`, on the device. -/
def inodeBit (g i : Nat) : Bool := (fs.block (Group.inodeBitmap fs.blockGroups g)).bit i

/-- The bytes of the group descriptors. -/
def InTable (a : Nat) : Prop :=
  fs.bgdtStartBlock * fs.blockSize ≤ a ∧
    a < fs.bgdtStartBlock * fs.blockSize + groupDescriptorSize * fs.blockGroupsCount

/-- The blocks that `ext2_write_bgdt` covers. -/
def InBgdt (b : Nat) : Prop := fs.bgdtStartBlock ≤ b ∧ b < fs.bgdtStartBlock + fs.bgdtLength

instance (b : Nat) : Decidable (fs.InBgdt b) := inferInstanceAs (Decidable (_ ∧ _))

/-- The block behind the descriptors that `ext2_write_bgdt` covers as well. There
is one when the descriptors fill their blocks exactly. -/
def IsTail (b : Nat) : Prop :=
  fs.InBgdt b ∧
    groupDescriptorSize * fs.blockGroupsCount ≤ (b - fs.bgdtStartBlock) * fs.blockSize

instance (b : Nat) : Decidable (fs.IsTail b) := inferInstanceAs (Decidable (_ ∧ _))

/-- A block that shares no byte with the superblock or the descriptors. -/
def ClearOfTables (b : Nat) : Prop :=
  ∀ a, a / fs.blockSize = b → ¬InSuperblock a ∧ ¬fs.InTable a

/-- The blocks of the inode table of group `g`. -/
def InInodeTable (g b : Nat) : Prop :=
  Group.inodeTable fs.blockGroups g ≤ b ∧ (b - Group.inodeTable fs.blockGroups g) * fs.blockSize <
    inodesPerGroup fs.superblock * inodeSize fs.superblock

/-- The boot block and the blocks with metadata. -/
def IsMeta (b : Nat) : Prop :=
  b = 0 ∨ ¬fs.ClearOfTables b ∨ ∃ g < fs.blockGroupsCount,
    b = Group.blockBitmap fs.blockGroups g ∨ b = Group.inodeBitmap fs.blockGroups g ∨
      fs.InInodeTable g b

/-- The images in memory are those on the device, in the superblock and in every
block with a descriptor. -/
structure Synced : Prop where
  superblock : ∀ x < superblockSize, fs.superblock x = fs.disk (1024 + x)
  table : ∀ x, x / fs.blockSize * fs.blockSize < groupDescriptorSize * fs.blockGroupsCount →
    fs.blockGroups x = fs.disk (fs.bgdtStartBlock * fs.blockSize + x)

/-- The free counters at `groupField` of the descriptors and at `field` of the
superblock, in memory and on the device, count the clear bits of bitmaps with
`perGroup` bits. -/
structure Counts (groupField field perGroup : Nat) (bit : Nat → Nat → Bool) : Prop where
  group : ∀ g < fs.blockGroupsCount,
    fs.blockGroups.load16 (groupDescriptorSize * g + groupField) = clearCount (bit g) perGroup
  groupOnDisk : ∀ g < fs.blockGroupsCount,
    (fs.block fs.bgdtStartBlock).load16 (groupDescriptorSize * g + groupField) =
      clearCount (bit g) perGroup
  total : fs.superblock.load32 field =
    ∑ g ∈ Finset.range fs.blockGroupsCount, clearCount (bit g) perGroup
  totalOnDisk : fs.disk.load32 (1024 + field) =
    ∑ g ∈ Finset.range fs.blockGroupsCount, clearCount (bit g) perGroup

/-- Every `free_blocks_count` counts the clear bits of the block bitmaps. -/
def BlockCounts : Prop := fs.Counts 12 12 (blocksPerGroup fs.superblock) fs.blockBit

/-- Every `free_inodes_count` counts the clear bits of the inode bitmaps. -/
def InodeCounts : Prop := fs.Counts 14 16 (inodesPerGroup fs.superblock) fs.inodeBit

end Fs

/-- The byte offset of every block fits into 32 bits. -/
def Fs.Below4G (fs : Fs) : Prop := blocksCount fs.superblock * fs.blockSize ≤ 2 ^ 32

instance (fs : Fs) : Decidable fs.Below4G := inferInstanceAs (Decidable (_ ≤ _))

/-- The geometry that `ext2_mount` computes. -/
structure Geometry (fs : Fs) : Prop where
  blockSize : ∃ k ≤ 6, fs.blockSize = 1024 * 2 ^ k
  inodesPerBlock : fs.inodesPerBlockCount = fs.blockSize / inodeSize fs.superblock
  blocksPerBlock : fs.blocksPerBlockCount = fs.blockSize / 512
  pointers : fs.pointersPerBlock = fs.blockSize / 4
  start : fs.bgdtStartBlock = if 1024 < fs.blockSize then 1 else 2
  length : fs.bgdtLength = groupDescriptorSize * fs.blockGroupsCount / fs.blockSize + 1
  covered : blocksCount fs.superblock ≤ fs.blockGroupsCount * blocksPerGroup fs.superblock
  tight : fs.blockGroupsCount * blocksPerGroup fs.superblock <
    blocksCount fs.superblock + blocksPerGroup fs.superblock
  tableFits : fs.bgdtStartBlock + fs.bgdtLength ≤ blocksCount fs.superblock
  blocksPerGroup_pos : 0 < blocksPerGroup fs.superblock
  blocksPerGroup_le : blocksPerGroup fs.superblock ≤ 8 * fs.blockSize
  inodesPerGroup_pos : 0 < inodesPerGroup fs.superblock
  inodesPerGroup_le : inodesPerGroup fs.superblock ≤ 8 * fs.blockSize
  inodes_lt : fs.blockGroupsCount * inodesPerGroup fs.superblock < 2 ^ 32
  indirect : fs.indirectBlocksIndex = 12 + fs.pointersPerBlock
  doubly : fs.doublyIndirectBlocksIndex =
    12 + fs.pointersPerBlock * (fs.pointersPerBlock + 1)
  trebly : fs.treblyIndirectBlocksIndex = u32 (fs.doublyIndirectBlocksIndex +
    fs.pointersPerBlock * fs.pointersPerBlock * (fs.pointersPerBlock + 1))

/-- A mounted, consistent file system. -/
structure WellFormed (fs : Fs) : Prop extends Geometry fs where
  synced : fs.Synced
  blockBitmap_valid : ∀ g < fs.blockGroupsCount,
    0 < Group.blockBitmap fs.blockGroups g ∧
      Group.blockBitmap fs.blockGroups g < blocksCount fs.superblock ∧
      fs.ClearOfTables (Group.blockBitmap fs.blockGroups g)
  inodeBitmap_valid : ∀ g < fs.blockGroupsCount,
    0 < Group.inodeBitmap fs.blockGroups g ∧
      Group.inodeBitmap fs.blockGroups g < blocksCount fs.superblock ∧
      fs.ClearOfTables (Group.inodeBitmap fs.blockGroups g)
  blockBitmap_inj : ∀ g < fs.blockGroupsCount, ∀ g' < fs.blockGroupsCount,
    Group.blockBitmap fs.blockGroups g = Group.blockBitmap fs.blockGroups g' → g = g'
  inodeBitmap_inj : ∀ g < fs.blockGroupsCount, ∀ g' < fs.blockGroupsCount,
    Group.inodeBitmap fs.blockGroups g = Group.inodeBitmap fs.blockGroups g' → g = g'
  bitmaps_ne : ∀ g < fs.blockGroupsCount, ∀ g' < fs.blockGroupsCount,
    Group.blockBitmap fs.blockGroups g ≠ Group.inodeBitmap fs.blockGroups g'
  inodeSize_ge : inodeStructSize ≤ inodeSize fs.superblock
  inodeSize_dvd : inodeSize fs.superblock ∣ fs.blockSize
  inodeTable_valid : ∀ g < fs.blockGroupsCount, ∀ b, fs.InInodeTable g b →
    0 < b ∧ b < blocksCount fs.superblock ∧ fs.ClearOfTables b ∧
      ∀ g' < fs.blockGroupsCount, b ≠ Group.blockBitmap fs.blockGroups g' ∧
        b ≠ Group.inodeBitmap fs.blockGroups g'
  meta_used : ∀ g < fs.blockGroupsCount, ∀ i < blocksPerGroup fs.superblock,
    fs.IsMeta (firstDataBlock fs.superblock + g * blocksPerGroup fs.superblock + i) →
      fs.blockBit g i = true
  padding_used : ∀ g < fs.blockGroupsCount, ∀ i < blocksPerGroup fs.superblock,
    blocksCount fs.superblock ≤
        firstDataBlock fs.superblock + g * blocksPerGroup fs.superblock + i →
      fs.blockBit g i = true
  reserved_used : ∀ g < fs.blockGroupsCount, ∀ i < inodesPerGroup fs.superblock,
    g * inodesPerGroup fs.superblock + i + 1 < firstIno fs.superblock → fs.inodeBit g i = true
  blockCounts : fs.BlockCounts
  inodeCounts : fs.InodeCounts

/-- A consistent file system of at most 4 GiB. -/
structure Addressed (fs : Fs) : Prop extends WellFormed fs where
  below4G : fs.Below4G

/-- A device with twenty blocks in two groups: block bitmaps in blocks 3 and 6,
inode bitmaps in blocks 4 and 7, inode tables in blocks 5 and 8, and the root
directory in block 9. Small blocks have 1024 bytes and number from block 1, the
others have 2048 bytes and number from block 0. -/
def tinyDisk (small : Bool) : Bytes :=
  let size := if small then 1024 else 2048
  zeroed
    |>.store32 (1024 + 4) 20 |>.store32 (1024 + 12) 10 |>.store32 (1024 + 16) 6
    |>.store32 (1024 + 20) (if small then 1 else 0) |>.store32 (1024 + 24) (if small then 0 else 1)
    |>.store32 (1024 + 32) 16 |>.store32 (1024 + 40) 8 |>.store16 (1024 + 56) 0xEF53
    |>.store32 (1024 + 84) 11 |>.store16 (1024 + 88) 128
    |>.store32 2048 3 |>.store32 2052 4 |>.store32 2056 5
    |>.store16 2060 (if small then 7 else 6)
    |>.store32 2080 6 |>.store32 2084 7 |>.store32 2088 8
    |>.store16 2092 (if small then 3 else 4) |>.store16 2094 6
    |>.store16 (3 * size) (if small then 0x01FF else 0x03FF) |>.store16 (4 * size) 0x00FF
    |>.store16 (6 * size) (if small then 0xFFF8 else 0xFFF0) |>.store16 (7 * size) 0x0003

/-- The file system on that device, as mounted. -/
def tiny (small : Bool) : Fs where
  disk := tinyDisk small
  superblock := fun x => tinyDisk small (1024 + x)
  blockGroups := fun x => tinyDisk small (2048 + x)
  blockSize := if small then 1024 else 2048
  inodesPerBlockCount := if small then 8 else 16
  blocksPerBlockCount := if small then 2 else 4
  blockGroupsCount := 2
  pointersPerBlock := if small then 256 else 512
  bgdtStartBlock := if small then 2 else 1
  bgdtLength := 1
  indirectBlocksIndex := if small then 268 else 524
  doublyIndirectBlocksIndex := if small then 65804 else 262668
  treblyIndirectBlocksIndex := if small then 16908556 else 134742540

variable {small : Bool}

theorem tiny_clearOfTables {b : Nat} (hb : 3 ≤ b) : (tiny small).ClearOfTables b := by
  intro a ha
  cases small <;> simp only [tiny, InSuperblock, Fs.InTable, superblockSize, groupDescriptorSize]
    at ha ⊢ <;> simp at ha ⊢ <;> omega

theorem tiny_geometry : Geometry (tiny small) := by
  constructor
  case blockSize => cases small; exacts [⟨1, by decide, rfl⟩, ⟨0, by decide, rfl⟩]
  all_goals cases small <;> decide

theorem tiny_eq_of_inInodeTable {g b : Nat} (h : (tiny small).InInodeTable g b) :
    b = Group.inodeTable (tiny small).blockGroups g := by
  have htable : inodesPerGroup (tiny small).superblock * inodeSize (tiny small).superblock ≤
      (tiny small).blockSize := by cases small <;> decide
  obtain ⟨hle, hlt⟩ := h
  have hzero : b - Group.inodeTable (tiny small).blockGroups g = 0 := by
    by_contra hpos
    have hmul := Nat.mul_le_mul_right (tiny small).blockSize (Nat.pos_of_ne_zero hpos)
    omega
  omega

theorem tiny_le_of_isMeta {b : Nat} (h : (tiny small).IsMeta b) : b ≤ 8 := by
  have hblock : ∀ g < 2, Group.blockBitmap (tiny small).blockGroups g ≤ 8 := by
    cases small <;> decide
  have hinode : ∀ g < 2, Group.inodeBitmap (tiny small).blockGroups g ≤ 8 := by
    cases small <;> decide
  have htable : ∀ g < 2, Group.inodeTable (tiny small).blockGroups g ≤ 8 := by
    cases small <;> decide
  rcases h with rfl | hclear | ⟨g, hg, rfl | rfl | hin⟩
  · omega
  · by_contra hlt
    exact hclear (tiny_clearOfTables (by omega))
  · exact hblock g hg
  · exact hinode g hg
  · exact tiny_eq_of_inInodeTable hin ▸ htable g hg

theorem tiny_wellFormed : WellFormed (tiny small) where
  toGeometry := tiny_geometry
  synced := by
    constructor
    · exact fun _ _ => rfl
    · intro x _
      cases small <;> rfl
  blockBitmap_valid := by
    intro g hg
    have hvalid : ∀ g < 2, 3 ≤ Group.blockBitmap (tiny small).blockGroups g ∧
        Group.blockBitmap (tiny small).blockGroups g < blocksCount (tiny small).superblock := by
      cases small <;> decide
    obtain ⟨hge, hlt⟩ := hvalid g hg
    exact ⟨by omega, hlt, tiny_clearOfTables hge⟩
  inodeBitmap_valid := by
    intro g hg
    have hvalid : ∀ g < 2, 3 ≤ Group.inodeBitmap (tiny small).blockGroups g ∧
        Group.inodeBitmap (tiny small).blockGroups g < blocksCount (tiny small).superblock := by
      cases small <;> decide
    obtain ⟨hge, hlt⟩ := hvalid g hg
    exact ⟨by omega, hlt, tiny_clearOfTables hge⟩
  blockBitmap_inj := by cases small <;> decide
  inodeBitmap_inj := by cases small <;> decide
  bitmaps_ne := by cases small <;> decide
  inodeSize_ge := by cases small <;> decide
  inodeSize_dvd := by cases small <;> decide
  inodeTable_valid := by
    intro g hg b hb
    have hvalid : ∀ g < 2, 3 ≤ Group.inodeTable (tiny small).blockGroups g ∧
        Group.inodeTable (tiny small).blockGroups g < blocksCount (tiny small).superblock ∧
        ∀ g' < 2, Group.inodeTable (tiny small).blockGroups g ≠
            Group.blockBitmap (tiny small).blockGroups g' ∧
          Group.inodeTable (tiny small).blockGroups g ≠
            Group.inodeBitmap (tiny small).blockGroups g' := by
      cases small <;> decide
    rw [tiny_eq_of_inInodeTable hb]
    obtain ⟨hge, hlt, hne⟩ := hvalid g hg
    exact ⟨by omega, hlt, tiny_clearOfTables hge, hne⟩
  meta_used := by
    intro g hg i hi hmeta
    have hused : ∀ g < 2, ∀ i < blocksPerGroup (tiny small).superblock,
        firstDataBlock (tiny small).superblock + g * blocksPerGroup (tiny small).superblock + i ≤
          8 → (tiny small).blockBit g i = true := by
      cases small <;> decide
    exact hused g hg i hi (tiny_le_of_isMeta hmeta)
  padding_used := by cases small <;> decide
  reserved_used := by cases small <;> decide
  blockCounts := by constructor <;> cases small <;> decide
  inodeCounts := by constructor <;> cases small <;> decide

theorem tiny_below4G : (tiny small).Below4G := by cases small <;> decide

theorem tiny_addressed : Addressed (tiny small) := ⟨tiny_wellFormed, tiny_below4G⟩

theorem tiny_not_isTail (b : Nat) : ¬(tiny small).IsTail b := by
  rintro ⟨⟨hle, hlt⟩, hbeyond⟩
  have hzero : b - (tiny small).bgdtStartBlock = 0 := Nat.sub_eq_zero_of_le (Nat.le_of_lt_succ hlt)
  rw [hzero, Nat.zero_mul] at hbeyond
  exact absurd hbeyond (by cases small <;> decide)

end Hos.Ext2
