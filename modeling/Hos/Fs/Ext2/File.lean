import Hos.Fs.Ext2.Basic

/-!
# File contents in `ext2.c`

The block map of an inode and the functions that read and write file data
through it. Each function returns its C result together with the file system
and the in-memory inode it leaves behind. `ext2_write_inode_block` loops until
the inode has enough blocks, and that loop need not end.

Data buffers are addressed relative to their start, modulo `2 ^ 32`, as the
pointer arithmetic of the source does.
-/

namespace Hos.Ext2

/-- `EXT2_INDIRECT_BLOCKS`. -/
def indirectBlocks : Nat := 12

/-- `((uint32_t *)cache)[k]`. -/
def pointerAt (cache : Bytes) (k : Nat) : Nat := cache.load32 (4 * k)

def setPointerAt (cache : Bytes) (k v : Nat) : Bytes := cache.store32 (4 * k) v

/-- `memcpy` of `n` bytes of `src` at `s` to the relative address `a`. -/
def memcpy (m : Bytes) (a : Nat) (src : Bytes) (s n : Nat) : Bytes := fun x =>
  if sub32 x a < n then src (u32 (s + sub32 x a)) else m x

section

/-- Offsets of `indir_block`, `doubly_indir_block` and `trebly_indir_block`. -/
def indirOffset : Nat := 88
def doublyIndirOffset : Nat := 92
def treblyIndirOffset : Nat := 96

/-- Allocate the block for the pointer at `offset` of the inode, unless it has one. -/
def ensureInodePointer (fs : Fs) (inode : Bytes) (inodeIndex offset : Nat) : Bool × Fs × Bytes :=
  if inode.load32 offset ≠ 0 then (true, fs, inode)
  else
    let (newBlockIndex, fs) := allocateBlock fs
    if newBlockIndex = 0 then (false, fs, inode)
    else
      let inode := inode.store32 offset newBlockIndex
      let written := writeInode fs inode inodeIndex
      (written.1 != -1, written.2, inode)

/-- Allocate the block for entry `k` of the pointer block `block` in `cache`,
unless it has one, and write the pointer block back. -/
def ensureCachePointer (fs : Fs) (block : Nat) (cache : Bytes) (k : Nat) : Bool × Fs × Bytes :=
  if pointerAt cache k ≠ 0 then (true, fs, cache)
  else
    let (newBlockIndex, fs) := allocateBlock fs
    if newBlockIndex = 0 then (false, fs, cache)
    else
      let cache := setPointerAt cache k newBlockIndex
      (true, (writeBlock fs block cache).2, cache)

/-- The indices that the source computes below the doubly-indirect limit. -/
def doublyIndices (fs : Fs) (blockIndex : Nat) : Nat × Nat :=
  let p1 := fs.pointersPerBlock
  let a := sub32 blockIndex indirectBlocks
  let b := sub32 a p1
  let c := b / p1
  let d := sub32 b (u32 (c * p1))
  (c, d)

/-- The indices that the source computes below the trebly-indirect limit. -/
def treblyIndices (fs : Fs) (blockIndex : Nat) : Nat × Nat × Nat :=
  let p1 := fs.pointersPerBlock
  let p2 := u32 (fs.pointersPerBlock * fs.pointersPerBlock)
  let a := sub32 blockIndex indirectBlocks
  let b := sub32 a p1
  let c := sub32 b p2
  let d := c / p2
  let e := sub32 c (u32 (d * p2))
  let f := e / p1
  let g := sub32 e (u32 (f * p1))
  (d, f, g)

/-- `ext2_set_real_block_index`. In the indirect cases the pointer is stored in
the cache, and the block is then read into the cache once more instead of being
written back; the cache is dropped. -/
def setRealBlockIndex (fs : Fs) (inode : Bytes) (inodeIndex blockIndex realIndex : Nat) :
    Int × Fs × Bytes :=
  if blockIndex < indirectBlocks then (0, fs, Inode.setDirBlock inode blockIndex realIndex)
  else if blockIndex < fs.indirectBlocksIndex then
    let a := sub32 blockIndex indirectBlocks
    match ensureInodePointer fs inode inodeIndex indirOffset with
    | (false, fs, inode) => (-1, fs, inode)
    | (true, fs, inode) =>
      let cache := (readBlock fs (Inode.indirBlock inode) zeroed).2
      let cache := setPointerAt cache a realIndex
      let _cache := (readBlock fs (Inode.indirBlock inode) cache).2
      (0, fs, inode)
  else if blockIndex < fs.doublyIndirectBlocksIndex then
    let c := (doublyIndices fs blockIndex).1
    let d := (doublyIndices fs blockIndex).2
    match ensureInodePointer fs inode inodeIndex doublyIndirOffset with
    | (false, fs, inode) => (-1, fs, inode)
    | (true, fs, inode) =>
      let cache := (readBlock fs (Inode.doublyIndirBlock inode) zeroed).2
      match ensureCachePointer fs (Inode.doublyIndirBlock inode) cache c with
      | (false, fs, _) => (-1, fs, inode)
      | (true, fs, cache) =>
        let cache := (readBlock fs (pointerAt cache c) cache).2
        let cache := setPointerAt cache d realIndex
        let _cache := (readBlock fs (pointerAt cache c) cache).2
        (0, fs, inode)
  else if blockIndex < fs.treblyIndirectBlocksIndex then
    let d := (treblyIndices fs blockIndex).1
    let f := (treblyIndices fs blockIndex).2.1
    let g := (treblyIndices fs blockIndex).2.2
    match ensureInodePointer fs inode inodeIndex treblyIndirOffset with
    | (false, fs, inode) => (-1, fs, inode)
    | (true, fs, inode) =>
      let cache := (readBlock fs (Inode.treblyIndirBlock inode) zeroed).2
      match ensureCachePointer fs (Inode.treblyIndirBlock inode) cache d with
      | (false, fs, _) => (-1, fs, inode)
      | (true, fs, cache) =>
        let blockIndexSave := pointerAt cache d
        let cache := (readBlock fs blockIndexSave cache).2
        match ensureCachePointer fs blockIndexSave cache f with
        | (false, fs, _) => (-1, fs, inode)
        | (true, fs, cache) =>
          let blockIndexSave := pointerAt cache f
          let cache := (readBlock fs blockIndexSave cache).2
          let cache := setPointerAt cache g realIndex
          let _cache := (readBlock fs blockIndexSave cache).2
          (0, fs, inode)
  else (-1, fs, inode)

/-- `ext2_get_real_block_index`. A pointer of zero leaves the previous block in
the cache. -/
def getRealBlockIndex (fs : Fs) (inode : Bytes) (blockIndex : Nat) : Nat :=
  if blockIndex < indirectBlocks then Inode.dirBlock inode blockIndex
  else if blockIndex < fs.indirectBlocksIndex then
    let a := sub32 blockIndex indirectBlocks
    let cache := (readBlock fs (Inode.indirBlock inode) zeroed).2
    pointerAt cache a
  else if blockIndex < fs.doublyIndirectBlocksIndex then
    let c := (doublyIndices fs blockIndex).1
    let d := (doublyIndices fs blockIndex).2
    let cache := (readBlock fs (Inode.doublyIndirBlock inode) zeroed).2
    let cache := (readBlock fs (pointerAt cache c) cache).2
    pointerAt cache d
  else if blockIndex < fs.treblyIndirectBlocksIndex then
    let d := (treblyIndices fs blockIndex).1
    let f := (treblyIndices fs blockIndex).2.1
    let g := (treblyIndices fs blockIndex).2.2
    let cache := (readBlock fs (Inode.treblyIndirBlock inode) zeroed).2
    let cache := (readBlock fs (pointerAt cache d) cache).2
    let cache := (readBlock fs (pointerAt cache f) cache).2
    pointerAt cache g
  else 0

end

section

/-- The number of blocks that the inode accounts for. -/
def inodeBlocks (fs : Fs) (inode : Bytes) : Nat := Inode.blocksCount inode / fs.blocksPerBlockCount

/-- `ext2_allocate_inode_block`. A failed allocation returns zero, not `-1`, and
is not noticed. -/
def allocateInodeBlock (fs : Fs) (inode : Bytes) (inodeIndex blockIndex : Nat) :
    Int × Fs × Bytes :=
  let (realIndex, fs) := allocateBlock fs
  if i32 realIndex = -1 then (-1, fs, inode)
  else
    let (ret, fs, inode) := setRealBlockIndex fs inode inodeIndex blockIndex realIndex
    if ret = -1 then (-1, fs, inode)
    else
      let blocksCount := u32 (u32 (blockIndex + 1) * fs.blocksPerBlockCount)
      let inode :=
        if Inode.blocksCount inode < blocksCount then
          Inode.setSize (Inode.setBlocksCount inode blocksCount)
            (u32 (blocksCount / fs.blocksPerBlockCount * fs.blockSize))
        else inode
      let written := writeInode fs inode inodeIndex
      if written.1 = -1 then (-1, written.2, inode) else (0, written.2, inode)

/-- `ext2_read_inode_block`. -/
def readInodeBlock (fs : Fs) (inode : Bytes) (blockIndex : Nat) (buffer : Bytes) : Int × Bytes :=
  if inodeBlocks fs inode ≤ blockIndex then (-1, buffer)
  else
    let realIndex := getRealBlockIndex fs inode blockIndex
    if realIndex = 0 then (-1, buffer) else readBlock fs realIndex buffer

/-- The body of the loop in `ext2_write_inode_block`: one more block for the
inode. The result of the allocation is not looked at. -/
def appendBlock (inodeIndex : Nat) (fs : Fs) (inode : Bytes) : Fs × Bytes :=
  let allocated := allocateInodeBlock fs inode inodeIndex (inodeBlocks fs inode)
  ((writeInode allocated.2.1 allocated.2.2 inodeIndex).2, allocated.2.2)

/-- `ext2_write_inode_block`. -/
def writeInodeBlock (fs : Fs) (inode : Bytes) (inodeIndex blockIndex : Nat) (buffer : Bytes) :
    Option (Int × Fs × Bytes) := do
  let (fs, inode) ← whileLoop
    (fun s => decide (inodeBlocks s.1 s.2 ≤ blockIndex))
    (fun s => some (appendBlock inodeIndex s.1 s.2))
    (fs, inode)
  let realIndex := getRealBlockIndex fs inode blockIndex
  if realIndex = 0 then some (-1, fs, inode)
  else
    let written := writeBlock fs realIndex buffer
    some (written.1, written.2, inode)

end

/-- The loop of `ext2_read_inode_data` over the blocks before the last one: `k`
blocks are read, `n` remain. -/
def readBlocks (fs : Fs) (inode : Bytes) (offset startBlock : Nat) :
    Nat → Nat → Bytes → Bytes → Bool × Bytes × Bytes
  | 0, _, cache, buffer => (true, cache, buffer)
  | n + 1, k, cache, buffer =>
    let read := readInodeBlock fs inode (startBlock + k) cache
    let cache := read.2
    if read.1 = -1 then (false, cache, buffer)
    else
      let buffer :=
        if k = 0 then
          memcpy buffer 0 cache (offset % fs.blockSize)
            (fs.blockSize - offset % fs.blockSize)
        else
          memcpy buffer (sub32 (u32 (fs.blockSize * k)) (offset % fs.blockSize)) cache 0
            fs.blockSize
      readBlocks fs inode offset startBlock n (k + 1) cache buffer

/-- `ext2_read_inode_data`: the result and the buffer. -/
def readInodeData (fs : Fs) (inode : Bytes) (offset nbyte : Nat) (buffer : Bytes) : Int × Bytes :=
  if Inode.size inode = 0 then (0, buffer)
  else
    let endOffset :=
      if Inode.size inode < u32 (offset + nbyte) then Inode.size inode else u32 (offset + nbyte)
    let startBlock := offset / fs.blockSize
    let endBlock := endOffset / fs.blockSize
    let endSize := sub32 endOffset (u32 (endBlock * fs.blockSize))
    let sizeToRead := sub32 endOffset offset
    if startBlock = endBlock then
      let read := readInodeBlock fs inode startBlock zeroed
      if read.1 = -1 then (-1, buffer)
      else (i32 sizeToRead, memcpy buffer 0 read.2 (offset % fs.blockSize) sizeToRead)
    else
      match readBlocks fs inode offset startBlock (endBlock - startBlock) 0 zeroed buffer with
      | (false, _, buffer) => (-1, buffer)
      | (true, cache, buffer) =>
        if endSize ≠ 0 then
          let read := readInodeBlock fs inode endBlock cache
          if read.1 = -1 then (-1, buffer)
          else
            (i32 sizeToRead,
              memcpy buffer (sub32 (u32 (fs.blockSize * (endBlock - startBlock)))
                (offset % fs.blockSize)) read.2 0 endSize)
        else (i32 sizeToRead, buffer)

/-- The loop of `ext2_write_inode_data` over the blocks before the last one. A
block is taken for written unless the result is zero, so `-1` passes. -/
def writeBlocks (inodeIndex offset startBlock : Nat) (buffer : Bytes) :
    Nat → Nat → Fs → Bytes → Bytes → Option (Bool × Fs × Bytes × Bytes)
  | 0, _, fs, inode, cache => some (true, fs, inode, cache)
  | n + 1, k, fs, inode, cache => do
      let cache := (readInodeBlock fs inode (startBlock + k) cache).2
      let cache :=
        if k = 0 then
          memcpy cache (offset % fs.blockSize) buffer 0 (fs.blockSize - offset % fs.blockSize)
        else
          memcpy cache 0 buffer (sub32 (u32 (fs.blockSize * k)) (offset % fs.blockSize))
            fs.blockSize
      let (ret, fs, inode) ← writeInodeBlock fs inode inodeIndex (startBlock + k) cache
      if ret = 0 then some (false, fs, inode, cache)
      else writeBlocks inodeIndex offset startBlock buffer n (k + 1) fs inode cache

/-- `ext2_write_inode_data`. The last partial block is taken for written when the
result is zero, the opposite of the other tests. -/
def writeInodeData (fs : Fs) (inode : Bytes) (inodeIndex offset nbyte : Nat) (buffer : Bytes) :
    Option (Int × Fs × Bytes) := do
  let endOffset := u32 (offset + nbyte)
  let inode := if Inode.size inode < endOffset then Inode.setSize inode endOffset else inode
  let startBlock := offset / fs.blockSize
  let endBlock := endOffset / fs.blockSize
  let endSize := sub32 endOffset (u32 (endBlock * fs.blockSize))
  let sizeToWrite := sub32 endOffset offset
  if startBlock = endBlock then
    let cache := (readInodeBlock fs inode startBlock zeroed).2
    let cache := memcpy cache (offset % fs.blockSize) buffer 0 sizeToWrite
    let (ret, fs, inode) ← writeInodeBlock fs inode inodeIndex startBlock cache
    if ret = 0 then some (-1, fs, inode) else some (i32 sizeToWrite, fs, inode)
  else
    match ← writeBlocks inodeIndex offset startBlock buffer (endBlock - startBlock) 0 fs inode
        zeroed with
    | (false, fs, inode, _) => some (-1, fs, inode)
    | (true, fs, inode, cache) =>
      if endSize ≠ 0 then
        let cache := (readInodeBlock fs inode endBlock cache).2
        let cache := memcpy cache 0 buffer
          (sub32 (u32 (fs.blockSize * (endBlock - startBlock))) (offset % fs.blockSize)) endSize
        let (ret, fs, inode) ← writeInodeBlock fs inode inodeIndex endBlock cache
        if ret = 0 then some (i32 sizeToWrite, fs, inode) else some (-1, fs, inode)
      else some (i32 sizeToWrite, fs, inode)

end Hos.Ext2
