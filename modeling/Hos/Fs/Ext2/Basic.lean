import Hos.Lib.Bitmap
import Hos.Lib.Loop

/-!
# The ext2 driver of `ext2.c`

The block device is a byte store. The mounted file system keeps raw images of
the superblock and of the block group descriptor table next to the geometry
that `ext2_mount` derives from them; inodes and cache buffers are byte stores
as well, so every field access below is a load or a store at its C offset.

`sizeof(ext2_superblock_t)` is 1028: the padding before `default_mount_options`
moves the reserved tail beyond the 1024 bytes of the format. Buffers obtained
from `kmalloc` are assumed to be available; they are cleared before use.
-/

namespace Hos.Ext2

/-- `ext2_filesystem_t`, with the contents of its block device. -/
structure Fs where
  disk : Bytes
  superblock : Bytes
  blockGroups : Bytes
  blockSize : Nat
  inodesPerBlockCount : Nat
  blocksPerBlockCount : Nat
  blockGroupsCount : Nat
  pointersPerBlock : Nat
  bgdtStartBlock : Nat
  bgdtLength : Nat
  indirectBlocksIndex : Nat
  doublyIndirectBlocksIndex : Nat
  treblyIndirectBlocksIndex : Nat

def superblockSize : Nat := 1028

def groupDescriptorSize : Nat := 32

def inodeStructSize : Nat := 128

/-- A cleared buffer. -/
def zeroed : Bytes := fun _ => 0

section

def blocksCount (sb : Bytes) : Nat := sb.load32 4
def freeBlocksCount (sb : Bytes) : Nat := sb.load32 12
def freeInodesCount (sb : Bytes) : Nat := sb.load32 16
def firstDataBlock (sb : Bytes) : Nat := sb.load32 20
def logBlockSize (sb : Bytes) : Nat := sb.load32 24
def blocksPerGroup (sb : Bytes) : Nat := sb.load32 32
def inodesPerGroup (sb : Bytes) : Nat := sb.load32 40
def magic (sb : Bytes) : Nat := sb.load16 56
def firstIno (sb : Bytes) : Nat := sb.load32 84
def inodeSize (sb : Bytes) : Nat := sb.load16 88

def setFreeBlocksCount (sb : Bytes) (v : Nat) : Bytes := sb.store32 12 v
def setFreeInodesCount (sb : Bytes) (v : Nat) : Bytes := sb.store32 16 v

end

namespace Group

/-- Fields of the descriptor of group `g` in the table image `bg`. -/
def blockBitmap (bg : Bytes) (g : Nat) : Nat := bg.load32 (groupDescriptorSize * g)
def inodeBitmap (bg : Bytes) (g : Nat) : Nat := bg.load32 (groupDescriptorSize * g + 4)
def inodeTable (bg : Bytes) (g : Nat) : Nat := bg.load32 (groupDescriptorSize * g + 8)
def freeBlocksCount (bg : Bytes) (g : Nat) : Nat := bg.load16 (groupDescriptorSize * g + 12)
def freeInodesCount (bg : Bytes) (g : Nat) : Nat := bg.load16 (groupDescriptorSize * g + 14)

def setFreeBlocksCount (bg : Bytes) (g v : Nat) : Bytes :=
  bg.store16 (groupDescriptorSize * g + 12) v
def setFreeInodesCount (bg : Bytes) (g v : Nat) : Bytes :=
  bg.store16 (groupDescriptorSize * g + 14) v

end Group

namespace Inode

/-- Fields of an `ext2_inode_t`. -/
def mode (inode : Bytes) : Nat := inode.load16 0
def size (inode : Bytes) : Nat := inode.load32 4
def blocksCount (inode : Bytes) : Nat := inode.load32 28
def dirBlock (inode : Bytes) (k : Nat) : Nat := inode.load32 (40 + 4 * k)
def indirBlock (inode : Bytes) : Nat := inode.load32 88
def doublyIndirBlock (inode : Bytes) : Nat := inode.load32 92
def treblyIndirBlock (inode : Bytes) : Nat := inode.load32 96

def setSize (inode : Bytes) (v : Nat) : Bytes := inode.store32 4 v
def setBlocksCount (inode : Bytes) (v : Nat) : Bytes := inode.store32 28 v
def setDirBlock (inode : Bytes) (k v : Nat) : Bytes := inode.store32 (40 + 4 * k) v

end Inode

section

/-- `ext2_read_block`. -/
def readBlock (fs : Fs) (blockIndex : Nat) (buffer : Bytes) : Int × Bytes :=
  if blockIndex = 0 then (-1, buffer)
  else (fs.blockSize, buffer.blit 0 fs.disk (u32 (blockIndex * fs.blockSize)) fs.blockSize)

/-- `ext2_write_block`. -/
def writeBlock (fs : Fs) (blockIndex : Nat) (buffer : Bytes) : Int × Fs :=
  if blockIndex = 0 then (-1, fs)
  else (fs.blockSize,
    { fs with disk := fs.disk.blit (u32 (blockIndex * fs.blockSize)) buffer 0 fs.blockSize })

/-- `ext2_read_bgdt`: fill the table image block by block. -/
def readBgdt (fs : Fs) : Fs :=
  (List.range fs.bgdtLength).foldl (fun fs i =>
    let (_, block) := readBlock fs (fs.bgdtStartBlock + i) zeroed
    { fs with blockGroups := fs.blockGroups.blit (fs.blockSize * i) block 0 fs.blockSize }) fs

/-- `ext2_write_bgdt`: all `bgdt_length` blocks of the image. -/
def writeBgdt (fs : Fs) : Fs :=
  (List.range fs.bgdtLength).foldl (fun fs i =>
    (writeBlock fs (fs.bgdtStartBlock + i) fun x => fs.blockGroups (fs.blockSize * i + x)).2) fs

/-- `ext2_write_superblock`. -/
def writeSuperblock (fs : Fs) : Fs :=
  { fs with disk := fs.disk.blit 1024 fs.superblock 0 superblockSize }

end

section

def getGroupIndexFromInode (fs : Fs) (inodeIndex : Nat) : Nat :=
  sub32 inodeIndex 1 / inodesPerGroup fs.superblock

def getInodeOffsetInGroup (fs : Fs) (inodeIndex : Nat) : Nat :=
  sub32 inodeIndex 1 % inodesPerGroup fs.superblock

def getBlockIndexFromInodeOffset (fs : Fs) (inodeOffset : Nat) : Nat :=
  u32 (inodeOffset * inodeSize fs.superblock) / fs.blockSize

/-- The block of the inode table with the given inode, and the byte offset of
the inode inside that block. -/
def inodeLocation (fs : Fs) (inodeIndex : Nat) : Nat × Nat :=
  let groupIndex := getGroupIndexFromInode fs inodeIndex
  let inodeOffset := getInodeOffsetInGroup fs inodeIndex
  let blockIndex := getBlockIndexFromInodeOffset fs inodeOffset
  (u32 (Group.inodeTable fs.blockGroups groupIndex + blockIndex),
    (inodeOffset % fs.inodesPerBlockCount) * inodeSize fs.superblock)

/-- `ext2_read_inode`. -/
def readInode (fs : Fs) (inode : Bytes) (inodeIndex : Nat) : Int × Bytes :=
  if inodeIndex = 0 then (-1, inode)
  else if fs.blockGroupsCount < getGroupIndexFromInode fs inodeIndex then (-1, inode)
  else
    let (block, offset) := inodeLocation fs inodeIndex
    let (_, cache) := readBlock fs block zeroed
    (0, inode.blit 0 cache offset inodeStructSize)

/-- `ext2_write_inode`. -/
def writeInode (fs : Fs) (inode : Bytes) (inodeIndex : Nat) : Int × Fs :=
  if inodeIndex = 0 then (-1, fs)
  else if fs.blockGroupsCount < getGroupIndexFromInode fs inodeIndex then (-1, fs)
  else
    let (block, offset) := inodeLocation fs inodeIndex
    let (_, cache) := readBlock fs block zeroed
    let cache := cache.blit offset inode 0 inodeStructSize
    (0, (writeBlock fs block cache).2)

end

/-- The geometry and the images that `ext2_mount` sets up, up to its check of
the root directory. A divisor that is zero is a fault. -/
def mount (disk : Bytes) : Option Fs :=
  let superblock := zeroed.blit 0 disk 1024 superblockSize
  let blockSize := u32 (1024 <<< logBlockSize superblock)
  if magic superblock ≠ 0xEF53 then none
  else if inodeSize superblock = 0 ∨ blocksPerGroup superblock = 0 ∨ blockSize = 0 ∨
      inodesPerGroup superblock = 0 ∨ blockSize / inodeSize superblock = 0 then none
  else
    let pointersPerBlock := blockSize / 4
    let doublyIndirectBlocksIndex := u32 (12 + pointersPerBlock * (pointersPerBlock + 1))
    let groups := blocksCount superblock / blocksPerGroup superblock
    let blockGroupsCount :=
      if u32 (blocksPerGroup superblock * groups) < blocksCount superblock then groups + 1
      else groups
    let fs : Fs :=
      { disk
        superblock
        blockGroups := zeroed
        blockSize
        inodesPerBlockCount := blockSize / inodeSize superblock
        blocksPerBlockCount := blockSize / 512
        blockGroupsCount
        pointersPerBlock
        bgdtStartBlock := if 1024 < blockSize then 1 else 2
        bgdtLength := u32 (groupDescriptorSize * blockGroupsCount) / blockSize + 1
        indirectBlocksIndex := 12 + pointersPerBlock
        doublyIndirectBlocksIndex
        treblyIndirectBlocksIndex := u32 (doublyIndirectBlocksIndex +
          pointersPerBlock * pointersPerBlock * (pointersPerBlock + 1)) }
    let fs := readBgdt fs
    let (_, root) := readInode fs zeroed 2
    if Inode.mode root &&& 0x4000 = 0x4000 then some fs else none

section

/-- `ext2_check_bitmap_bit`. -/
def checkBitmapBit (buffer : Bytes) (linearIndex : Nat) : Bool := buffer.bit linearIndex

/-- `ext2_set_bitmap_bit`. -/
def setBitmapBit (buffer : Bytes) (linearIndex : Nat) (occupied : Bool) : Bytes :=
  buffer.setBit linearIndex occupied

/-- `ext2_find_free_inode_in_group`. -/
def findFreeInodeInGroup (fs : Fs) (cache : Bytes) (skipReserved : Bool) : Option Nat :=
  firstBelow (inodesPerGroup fs.superblock) fun linearIndex =>
    !(skipReserved && decide (linearIndex < firstIno fs.superblock)) &&
      !checkBitmapBit cache linearIndex

/-- `ext2_find_free_block_in_group`. -/
def findFreeBlockInGroup (fs : Fs) (cache : Bytes) : Option Nat :=
  firstBelow (blocksPerGroup fs.superblock) fun linearIndex => !checkBitmapBit cache linearIndex

/-- The scan of the groups: skip groups without free entries, load the bitmap
of the others and search it. A bitmap that cannot be read ends the scan. -/
def scanGroups (fs : Fs) (free bitmap : Nat → Nat) (search : Nat → Bytes → Option Nat) :
    List Nat → Bytes → Option (Nat × Nat × Bytes)
  | [], _ => none
  | g :: gs, cache =>
    if 0 < free g then
      let (ret, cache) := readBlock fs (bitmap g) cache
      if ret < 0 then none
      else
        match search g cache with
        | some linearIndex => some (g, linearIndex, cache)
        | none => scanGroups fs free bitmap search gs cache
    else scanGroups fs free bitmap search gs cache

/-- `ext2_find_free_inode`: the group, the index in it and the cache. -/
def findFreeInode (fs : Fs) (cache : Bytes) (preferredGroup : Nat) :
    Option (Nat × Nat × Bytes) :=
  let scan := scanGroups fs (Group.freeInodesCount fs.blockGroups)
    (Group.inodeBitmap fs.blockGroups) (fun g cache => findFreeInodeInGroup fs cache (g == 0))
    (List.range fs.blockGroupsCount) cache
  if preferredGroup ≠ 0 then
    -- The bitmap of the preferred group has not been read at this point.
    match findFreeInodeInGroup fs cache (preferredGroup == 0) with
    | some linearIndex => some (preferredGroup, linearIndex, cache)
    | none => scan
  else scan

/-- `ext2_find_free_block`. -/
def findFreeBlock (fs : Fs) (cache : Bytes) : Option (Nat × Nat × Bytes) :=
  scanGroups fs (Group.freeBlocksCount fs.blockGroups) (Group.blockBitmap fs.blockGroups)
    (fun _ cache => findFreeBlockInGroup fs cache) (List.range fs.blockGroupsCount) cache

end

/-- `ext2_allocate_inode`: the new inode, or zero. -/
def allocateInode (fs : Fs) (preferredGroup : Nat) : Nat × Fs :=
  match findFreeInode fs zeroed preferredGroup with
  | none => (0, fs)
  | some (g, linearIndex, cache) =>
    let inodeIndex := u32 (u32 (g * inodesPerGroup fs.superblock) + linearIndex + 1)
    let cache := setBitmapBit cache linearIndex true
    let (_, fs) := writeBlock fs (Group.inodeBitmap fs.blockGroups g) cache
    let inGroup := u16 (Group.freeInodesCount fs.blockGroups g + (2 ^ 16 - 1))
    let fs := { fs with blockGroups := Group.setFreeInodesCount fs.blockGroups g inGroup }
    let fs := writeBgdt fs
    let inAll := sub32 (freeInodesCount fs.superblock) 1
    let fs := { fs with superblock := setFreeInodesCount fs.superblock inAll }
    (inodeIndex, writeSuperblock fs)

/-- `ext2_allocate_block`: the new block, or zero. -/
def allocateBlock (fs : Fs) : Nat × Fs :=
  match findFreeBlock fs zeroed with
  | none => (0, fs)
  | some (g, linearIndex, cache) =>
    let blockIndex := u32 (u32 (g * blocksPerGroup fs.superblock) + linearIndex)
    let cache := setBitmapBit cache linearIndex true
    let (_, fs) := writeBlock fs (Group.blockBitmap fs.blockGroups g) cache
    let inGroup := u16 (Group.freeBlocksCount fs.blockGroups g + (2 ^ 16 - 1))
    let fs := { fs with blockGroups := Group.setFreeBlocksCount fs.blockGroups g inGroup }
    let fs := writeBgdt fs
    let inAll := sub32 (freeBlocksCount fs.superblock) 1
    let fs := { fs with superblock := setFreeBlocksCount fs.superblock inAll }
    let fs := writeSuperblock fs
    (blockIndex, (writeBlock fs blockIndex zeroed).2)

end Hos.Ext2
