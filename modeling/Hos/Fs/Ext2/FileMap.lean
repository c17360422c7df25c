import Hos.Fs.Ext2.BlockMap
import Mathlib.Tactic.IntervalCases

/-!
# Files as trees of blocks

The blocks of an inode form a tree: every block in use has a level, zero for
data and the number of remaining pointers for a pointer block, so that no block
serves two purposes. Operations that write data blocks, inodes and fresh blocks
keep the pointer blocks and with them the map of the inode.

The blocks that a file can use are those below its block count that the map
leads to a block of their own. The loop of `ext2_write_inode_block` adds such
blocks at the end of the file, as long as they are direct.
-/

namespace Hos.Ext2

open Bytes Nat Function

section

/-- The pointers on a path are missing or lead to blocks in use of the level
that the rest of the path requires. -/
def Fs.Tree (fs : Fs) (level : Nat → Nat) : Nat → List Nat → Prop
  | p, [] => p = 0 ∨ fs.InUse p ∧ level p = 0
  | p, i :: is => p = 0 ∨ fs.InUse p ∧ level p = is.length + 1 ∧ fs.Tree level (fs.entry p i) is

/-- The pointer blocks of `fs` are in use in `fs'` with the same level and the
same entries. -/
structure KeepsTree (fs : Fs) (level : Nat → Nat) (fs' : Fs) (level' : Nat → Nat) : Prop where
  evolves : Evolves fs fs'
  levels : ∀ q, fs.InUse q → level' q = level q
  entries : ∀ q, fs.InUse q → 0 < level q → ∀ j < fs.pointersPerBlock,
    fs'.entry q j = fs.entry q j

variable {fs fs' fs'' : Fs} {level level' level'' : Nat → Nat} {p : Nat} {is : List Nat}

theorem KeepsTree.refl (h : Sound fs) (level : Nat → Nat) : KeepsTree fs level fs level :=
  ⟨Evolves.refl h, fun _ _ => rfl, fun _ _ _ _ _ => rfl⟩

theorem KeepsTree.trans (h : KeepsTree fs level fs' level')
    (h' : KeepsTree fs' level' fs'' level'') : KeepsTree fs level fs'' level'' where
  evolves := h.evolves.trans h'.evolves
  levels := fun q hq => (h'.levels q (h.evolves.inUse q hq)).trans (h.levels q hq)
  entries := by
    intro q hq hpos j hj
    have hq' := h.evolves.inUse q hq
    have hpos' : 0 < level' q := (h.levels q hq).symm ▸ hpos
    have hj' : j < fs'.pointersPerBlock := h.evolves.pointersPerBlock.symm ▸ hj
    exact (h'.entries q hq' hpos' j hj').trans (h.entries q hq hpos j hj)

/-- Kept pointer blocks lead to the same places. -/
theorem KeepsTree.follow_eq (h : KeepsTree fs level fs' level')
    (hlt : ∀ k ∈ is, k < fs.pointersPerBlock) (htree : fs.Tree level p is) :
    fs'.Tree level' p is ∧ follow fs'.entry p is = follow fs.entry p is := by
  induction is generalizing p with
  | nil =>
    refine ⟨htree.imp_right fun hp => ⟨h.evolves.inUse p hp.1, ?_⟩, rfl⟩
    rw [h.levels p hp.1, hp.2]
  | cons i is ih =>
    rcases htree with rfl | ⟨hp, hlevel, hrest⟩
    · exact ⟨.inl rfl, rfl⟩
    · have hentry := h.entries p hp (by omega) i (hlt i List.mem_cons_self)
      obtain ⟨htree', hfollow⟩ := ih (fun k hk => hlt k (List.mem_cons_of_mem i hk)) hrest
      refine ⟨.inr ⟨h.evolves.inUse p hp, (h.levels p hp).trans hlevel, ?_⟩, ?_⟩
      · rwa [hentry]
      · rw [follow_cons hp.ne_zero, follow_cons hp.ne_zero, hentry, hfollow]

/-- Where a path in a tree ends there is nothing, or a data block in use. -/
theorem Fs.Tree.data {r : Nat} (h : fs.Tree level p is) (hfollow : follow fs.entry p is = some r)
    (hr : r ≠ 0) : fs.InUse r ∧ level r = 0 := by
  induction is generalizing p with
  | nil =>
    cases hfollow
    exact h.resolve_left hr
  | cons i is ih =>
    obtain ⟨hp, hrest⟩ := follow_cons_eq_some.mp hfollow
    exact ih (h.resolve_left hp).2.2 hrest

/-- A fresh block may be given any level. -/
theorem Fresh.keepsTree {new : Nat} (h : Sound fs) (hfresh : Fresh fs new fs')
    (level : Nat → Nat) (l : Nat) : KeepsTree fs level fs' (update level new l) where
  evolves := hfresh.evolves
  levels := by
    intro q hq
    refine update_of_ne ?_ _ _
    rintro rfl
    exact hfresh.notInUse hq
  entries := fun q hq _ _ hj => hfresh.evolves.entry_eq h hq (hfresh.keep q hq) hj

theorem writeInode_keepsTree {inodeIndex : Nat} (h : Sound fs)
    (hindex : fs.ValidInode inodeIndex) (inode : Bytes) (level : Nat → Nat) :
    KeepsTree fs level (writeInode fs inode inodeIndex).2 level := by
  obtain ⟨_, hevolves, _, hblocks⟩ := writeInode_spec h hindex inode
  exact ⟨hevolves, fun _ _ => rfl, fun q hq _ _ hj => hevolves.entry_eq h hq (hblocks q hq) hj⟩

/-- Writing a data block touches no pointer block. -/
theorem writeBlock_keepsTree {r : Nat} (h : Sound fs) (hr : fs.InUse r) (hlevel : level r = 0)
    (buffer : Bytes) : KeepsTree fs level (writeBlock fs r buffer).2 level := by
  have hevolves := h.writeBlock_inUse hr buffer
  refine ⟨hevolves, fun _ _ => rfl, ?_⟩
  intro q hq hpos j hj
  refine hevolves.entry_eq h hq (fun x hx => ?_) hj
  rw [writeBlock_block h.wellFormed hr.ne_zero hr.lt buffer q hx, if_neg]
  rintro rfl
  omega

end

section

/-- The map of an inode on a sound file system, as a tree. -/
structure MapTree (fs : Fs) (inode : Bytes) (inodeIndex : Nat) (level : Nat → Nat) : Prop where
  sound : Sound fs
  valid : fs.ValidInode inodeIndex
  tree : ∀ b, fs.Addressable b → fs.Tree level (inode.load32 (fs.path b).1) (fs.path b).2

variable {fs fs' : Fs} {inode inode' : Bytes} {inodeIndex b r : Nat} {level level' : Nat → Nat}

theorem MapTree.data (h : MapTree fs inode inodeIndex level) (hb : fs.Addressable b)
    (hlookup : fs.lookup inode b = some r) (hr : r ≠ 0) : fs.InUse r ∧ level r = 0 :=
  (h.tree b hb).data hlookup hr

theorem Evolves.addressable_iff (h : Evolves fs fs') : fs'.Addressable b ↔ fs.Addressable b := by
  obtain ⟨_, _, _, rfl, _⟩ := h.layout
  exact Iff.rfl

theorem addressable_of_direct (geo : Geometry fs) (hb : b < indirectBlocks) : fs.Addressable b := by
  have hb' : b < 12 := hb
  have hpointers := geo.pointers
  have htrebly := geo.trebly
  refine ⟨?_, lt_of_lt_of_le hb (by omega)⟩
  rw [geo.doubly, u32] at htrebly
  -- the limit is computed modulo `2 ^ 32`, so this is a matter of the block sizes
  obtain ⟨k, hk, hsize⟩ := geo.blockSize
  interval_cases k <;> simp only [hsize, hpointers] at htrebly <;> omega

section

variable (h : MapTree fs inode inodeIndex level) (hkeep : KeepsTree fs level fs' level')
include h hkeep

/-- A kept tree under the same pointer of the inode maps the block the same way. -/
theorem MapTree.lookup_eq (hb : fs.Addressable b)
    (hroot : inode'.load32 (fs.path b).1 = inode.load32 (fs.path b).1) :
    fs'.Tree level' (inode'.load32 (fs'.path b).1) (fs'.path b).2 ∧
      fs'.lookup inode' b = fs.lookup inode b := by
  have hlt := path_lt h.sound.wellFormed.toGeometry hb
  rw [Fs.lookup, Fs.lookup, hkeep.evolves.path_eq, hroot]
  exact hkeep.follow_eq hlt (h.tree b hb)

theorem MapTree.keep (hroots : ∀ b, inode'.load32 (fs.path b).1 = inode.load32 (fs.path b).1) :
    MapTree fs' inode' inodeIndex level' where
  sound := hkeep.evolves.sound
  valid := hkeep.evolves.validInode h.valid
  tree := fun b hb => (h.lookup_eq hkeep (hkeep.evolves.addressable_iff.mp hb) (hroots b)).1

end

/-- The pointers of the inode to file blocks. -/
theorem path_offset (fs : Fs) (b : Nat) :
    b < indirectBlocks ∧ fs.path b = (40 + 4 * b, []) ∨ indirectBlocks ≤ b ∧
      88 ≤ (fs.path b).1 := by
  rw [Fs.path]
  split
  · rename_i hb
    exact .inl ⟨hb, rfl⟩
  · rename_i hb
    refine .inr ⟨Nat.le_of_not_lt hb, ?_⟩
    split
    · rfl
    · split <;> simp only [doublyIndirOffset, treblyIndirOffset] <;> omega

/-- Fields in front of the pointers do not matter. -/
theorem load32_path_congr (h : ∀ x, 40 ≤ x → inode' x = inode x) (b : Nat) :
    inode'.load32 (fs.path b).1 = inode.load32 (fs.path b).1 := by
  refine load32_congr fun x hx _ => h x ?_
  rcases path_offset fs b with ⟨_, hpath⟩ | ⟨_, hle⟩
  · rw [hpath] at hx
    omega
  · omega

theorem load32_path_setDirBlock {c v : Nat} (hc : c < indirectBlocks) (hne : b ≠ c) :
    (Inode.setDirBlock inode c v).load32 (fs.path b).1 = inode.load32 (fs.path b).1 := by
  have hc' : c < 12 := hc
  refine load32_store32_of_sep ?_
  rcases path_offset fs b with ⟨_, hpath⟩ | ⟨_, hle⟩
  · rw [hpath]
    omega
  · omega

theorem lookup_direct (fs : Fs) (inode : Bytes) {c : Nat} (hc : c < indirectBlocks) :
    ∃ v, fs.lookup inode c = some v := by
  have hpath : fs.path c = (40 + 4 * c, []) := if_pos hc
  exact ⟨inode.load32 (40 + 4 * c), by rw [Fs.lookup, hpath]; rfl⟩

end

/-- The map of a file, in which no two file blocks share a block. -/
structure MappedFile (fs : Fs) (inode : Bytes) (inodeIndex : Nat) (level : Nat → Nat) : Prop
    extends MapTree fs inode inodeIndex level where
  inj : ∀ b b' r, r ≠ 0 → fs.Addressable b → fs.Addressable b' → fs.lookup inode b = some r →
    fs.lookup inode b' = some r → b = b'

/-- File block `b` is one of the blocks of the file and has a block of the device. -/
def Fs.Mapped (fs : Fs) (inode : Bytes) (b : Nat) : Prop :=
  b < inodeBlocks fs inode ∧ fs.Addressable b ∧ ∃ r, r ≠ 0 ∧ fs.lookup inode b = some r

/-- The contents of the file at a position. -/
def Fs.fileByte (fs : Fs) (inode : Bytes) (pos : Nat) : Byte :=
  fs.block ((fs.lookup inode (pos / fs.blockSize)).getD 0) (pos % fs.blockSize)

variable {fs fs' : Fs} {inode inode' : Bytes} {inodeIndex b c new : Nat} {level level' : Nat → Nat}

theorem Geometry.blocksPerBlock_bounds (geo : Geometry fs) :
    2 ≤ fs.blocksPerBlockCount ∧ fs.blocksPerBlockCount ≤ 128 := by
  have hsize := geo.blockSize_bounds
  have hper := geo.blocksPerBlock
  omega

theorem Evolves.inodeBlocks_eq (h : Evolves fs fs') :
    inodeBlocks fs' inode = inodeBlocks fs inode := by
  rw [inodeBlocks, inodeBlocks, h.blocksPerBlockCount]

/-- The inode with the counts that `ext2_allocate_inode_block` stores. -/
def countedInode (fs : Fs) (inode : Bytes) (blockIndex : Nat) : Bytes :=
  let blocksCount := u32 (u32 (blockIndex + 1) * fs.blocksPerBlockCount)
  if Inode.blocksCount inode < blocksCount then
    Inode.setSize (Inode.setBlocksCount inode blocksCount)
      (u32 (blocksCount / fs.blocksPerBlockCount * fs.blockSize))
  else inode

theorem allocateInodeBlock_eq {new : Nat} {ret : Int} {fs₁ fs₂ : Fs}
    (halloc : allocateBlock fs = (new, fs₁)) (hnew : i32 new ≠ -1)
    (hset : setRealBlockIndex fs₁ inode inodeIndex c new = (ret, fs₂, inode')) :
    (allocateInodeBlock fs inode inodeIndex c).2 = if ret = -1 then (fs₂, inode')
      else ((writeInode fs₂ (countedInode fs₂ inode' c) inodeIndex).2,
        countedInode fs₂ inode' c) := by
  simp only [allocateInodeBlock, halloc, hnew, if_false, hset]
  by_cases hret : ret = -1
  · rw [if_pos hret, if_pos hret]
  · rw [if_neg hret, if_neg hret, ← countedInode]
    generalize writeInode fs₂ (countedInode fs₂ inode' c) inodeIndex = written
    by_cases hwritten : written.1 = -1
    · rw [if_pos hwritten]
    · rw [if_neg hwritten]

theorem countedInode_of_le {x : Nat} (hx : 40 ≤ x) : countedInode fs inode c x = inode x := by
  simp only [countedInode]
  split
  · rw [Inode.setSize, store32_of_notMem (by omega), Inode.setBlocksCount,
      store32_of_notMem (by omega)]
  · rfl

/-- The counts of the next block of the file. -/
theorem countedInode_counts (geo : Geometry fs) (hc : inodeBlocks fs inode = c)
    (hlt : (c + 1) * fs.blockSize < 2 ^ 32) :
    inodeBlocks fs (countedInode fs inode c) = c + 1 ∧
      Inode.size (countedInode fs inode c) = (c + 1) * fs.blockSize := by
  have hper := geo.blocksPerBlock_bounds
  have hsize := geo.blockSize_bounds
  have hle := Nat.mul_le_mul_left (c + 1) (show fs.blocksPerBlockCount ≤ fs.blockSize by omega)
  have hsmall := Nat.le_mul_of_pos_right (c + 1) (show 0 < fs.blockSize by omega)
  have hcount : u32 (u32 (c + 1) * fs.blocksPerBlockCount) = (c + 1) * fs.blocksPerBlockCount := by
    rw [u32_of_lt (show c + 1 < 2 ^ 32 by omega), u32_of_lt (by omega)]
  have hless : Inode.blocksCount inode < (c + 1) * fs.blocksPerBlockCount :=
    (Nat.div_lt_iff_lt_mul (by omega)).mp (Nat.lt_succ_of_le (Nat.le_of_eq hc))
  have hdiv : (c + 1) * fs.blocksPerBlockCount / fs.blocksPerBlockCount = c + 1 :=
    Nat.mul_div_cancel _ (by omega)
  have heq : countedInode fs inode c =
      Inode.setSize (Inode.setBlocksCount inode ((c + 1) * fs.blocksPerBlockCount))
        ((c + 1) * fs.blockSize) := by
    rw [countedInode]
    simp only [hcount]
    rw [if_pos hless, hdiv, u32_of_lt hlt]
  have hstored : Inode.blocksCount (countedInode fs inode c) =
      (c + 1) * fs.blocksPerBlockCount := by
    rw [heq, Inode.setSize, Inode.blocksCount, load32_store32_of_sep (by decide),
      Inode.setBlocksCount, load32_store32_self, Nat.mod_eq_of_lt (by omega)]
  refine ⟨?_, ?_⟩
  · rw [inodeBlocks, hstored, hdiv]
  · rw [heq, Inode.setSize, Inode.size, load32_store32_self, Nat.mod_eq_of_lt hlt]

theorem allocateBlock_ne_minusOne {new : Nat} {fs₁ : Fs} (h : Sound fs)
    (halloc : allocateBlock fs = (new, fs₁)) : i32 new ≠ -1 := by
  have hlt : new < 2 ^ 31 := by
    obtain ⟨-, heq⟩ | ⟨new', fs₁', heq, -, hfresh⟩ := allocateBlock_full_or_fresh h <;>
      obtain ⟨rfl, rfl⟩ := Prod.mk.inj (halloc.symm.trans heq)
    · decide
    · exact hfresh.lt
  rw [i32_of_lt hlt]
  omega

/-- A file has become one with at least its blocks, each new one taken from the
free ones. When there are new ones the size counts whole blocks. -/
structure FileExtends (fs : Fs) (inode : Bytes) (inodeIndex : Nat) (fs' : Fs) (inode' : Bytes)
    (level' : Nat → Nat) : Prop where
  file : MappedFile fs' inode' inodeIndex level'
  evolves : Evolves fs fs'
  free : freeBlocksCount fs'.superblock + inodeBlocks fs' inode' =
    freeBlocksCount fs.superblock + inodeBlocks fs inode
  size : inodeBlocks fs' inode' = inodeBlocks fs inode ∧ Inode.size inode' = Inode.size inode ∨
    inodeBlocks fs inode < inodeBlocks fs' inode' ∧
      Inode.size inode' = inodeBlocks fs' inode' * fs.blockSize
  mapped : ∀ b, fs.Mapped inode b → fs'.Mapped inode' b
  appended : ∀ b, inodeBlocks fs inode ≤ b → b < inodeBlocks fs' inode' → fs'.Mapped inode' b

theorem FileExtends.refl (h : MappedFile fs inode inodeIndex level) :
    FileExtends fs inode inodeIndex fs inode level :=
  ⟨h, Evolves.refl h.sound, rfl, .inl ⟨rfl, rfl⟩, fun _ hb => hb,
    fun _ hle hlt => absurd hle (not_le.mpr hlt)⟩

theorem FileExtends.le (h : FileExtends fs inode inodeIndex fs' inode' level') :
    inodeBlocks fs inode ≤ inodeBlocks fs' inode' := by
  rcases h.size with ⟨heq, _⟩ | ⟨hlt, _⟩
  · omega
  omega

theorem FileExtends.trans {fs'' : Fs} {inode'' : Bytes} {level'' : Nat → Nat}
    (h : FileExtends fs inode inodeIndex fs' inode' level')
    (h' : FileExtends fs' inode' inodeIndex fs'' inode'' level'') :
    FileExtends fs inode inodeIndex fs'' inode'' level'' where
  file := h'.file
  evolves := h.evolves.trans h'.evolves
  free := h'.free.trans h.free
  size := by
    have hle := h.le
    rcases h'.size with ⟨heq, hsize⟩ | ⟨hlt, hsize⟩
    · rw [heq, hsize]
      exact h.size
    · refine .inr ⟨by omega, ?_⟩
      rw [hsize, h.evolves.blockSize]
  mapped := fun b hb => h'.mapped b (h.mapped b hb)
  appended := by
    intro b hle hlt
    by_cases hb : b < inodeBlocks fs' inode'
    · exact h'.mapped b (h.appended b hle hb)
    · exact h'.appended b (Nat.le_of_not_lt hb) hlt

/-- The file keeps what it had in its blocks. -/
def KeepsBytes (fs : Fs) (inode : Bytes) (fs' : Fs) (inode' : Bytes) : Prop :=
  ∀ pos, fs.Mapped inode (pos / fs.blockSize) → fs'.fileByte inode' pos = fs.fileByte inode pos

theorem KeepsBytes.trans {fs'' : Fs} {inode'' : Bytes} (hbytes : KeepsBytes fs inode fs' inode')
    (h : FileExtends fs inode inodeIndex fs' inode' level')
    (hbytes' : KeepsBytes fs' inode' fs'' inode'') : KeepsBytes fs inode fs'' inode'' := by
  intro pos hpos
  have hnext := hbytes' pos
  rw [h.evolves.blockSize] at hnext
  exact (hnext (h.mapped _ hpos)).trans (hbytes pos hpos)

/-- A file whose inode is given a fresh direct block. -/
theorem MappedFile.append (h : MappedFile fs inode inodeIndex level)
    (hkeep : KeepsTree fs level fs' level') (hc : c < indirectBlocks)
    (hnew : fs'.InUse new) (hlevel : level' new = 0) (hfresh : ¬fs.InUse new)
    (hinode : ∀ x, 40 ≤ x → inode' x = Inode.setDirBlock inode c new x) :
    MappedFile fs' inode' inodeIndex level' ∧ fs'.lookup inode' c = some new ∧
      ∀ b, fs.Addressable b → b ≠ c → fs'.lookup inode' b = fs.lookup inode b := by
  have hlt : new < 2 ^ 32 := by
    have hoffset := hkeep.evolves.sound.wellFormed.offset_lt hnew.lt
    have hsize := hkeep.evolves.sound.wellFormed.blockSize_bounds
    exact Nat.lt_of_le_of_lt (Nat.le_mul_of_pos_right new (by omega)) hoffset
  have hpath : fs'.path c = (40 + 4 * c, []) := if_pos hc
  have hself : inode'.load32 (40 + 4 * c) = new := by
    rw [load32_congr fun x hx _ => hinode x (by omega), Inode.setDirBlock, load32_store32_self,
      mod_eq_of_lt hlt]
  have hroot : ∀ b, b ≠ c → inode'.load32 (fs.path b).1 = inode.load32 (fs.path b).1 := fun b hne =>
    (load32_path_congr hinode b).trans (load32_path_setDirBlock hc hne)
  have hlookup : fs'.lookup inode' c = some new := by
    rw [Fs.lookup, hpath]
    exact congrArg some hself
  have hold : ∀ b, fs.Addressable b → b ≠ c → fs'.lookup inode' b = fs.lookup inode b :=
    fun b hb hne => (h.lookup_eq hkeep hb (hroot b hne)).2
  have hneNew : ∀ b, fs.Addressable b → fs.lookup inode b ≠ some new :=
    fun b hb heq => hfresh (h.data hb heq hnew.ne_zero).1
  refine ⟨⟨⟨hkeep.evolves.sound, hkeep.evolves.validInode h.valid, ?_⟩, ?_⟩, hlookup, hold⟩
  · intro b hb
    by_cases hbc : b = c
    · rw [hbc, hpath, hself]
      exact .inr ⟨hnew, hlevel⟩
    · exact (h.lookup_eq hkeep (hkeep.evolves.addressable_iff.mp hb) (hroot b hbc)).1
  · intro b b' r hr hb hb' heq heq'
    rw [hkeep.evolves.addressable_iff] at hb hb'
    by_cases hbc : b = c <;> by_cases hbc' : b' = c
    · rw [hbc, hbc']
    · rw [hbc, hlookup] at heq
      rw [hold b' hb' hbc', ← heq] at heq'
      exact absurd heq' (hneNew b' hb')
    · rw [hbc', hlookup] at heq'
      rw [hold b hb hbc, ← heq'] at heq
      exact absurd heq (hneNew b hb)
    · rw [hold b hb hbc] at heq
      rw [hold b' hb' hbc'] at heq'
      exact h.inj b b' r hr hb hb' heq heq'

theorem appendBlock_direct (h : MappedFile fs inode inodeIndex level)
    (hc : inodeBlocks fs inode < indirectBlocks) (hfree : 0 < freeBlocksCount fs.superblock) :
    ∃ fs' inode' level', appendBlock inodeIndex fs inode = (fs', inode') ∧
      FileExtends fs inode inodeIndex fs' inode' level' ∧ KeepsBytes fs inode fs' inode' ∧
      inodeBlocks fs' inode' = inodeBlocks fs inode + 1 := by
  have geo := h.sound.wellFormed.toGeometry
  obtain ⟨hfull, -⟩ | ⟨new, fs₁, halloc, hnew, hfresh⟩ := allocateBlock_full_or_fresh h.sound
  · omega
  have hset : setRealBlockIndex fs₁ inode inodeIndex (inodeBlocks fs inode) new =
      (0, fs₁, Inode.setDirBlock inode (inodeBlocks fs inode) new) := by
        rw [setRealBlockIndex, if_pos hc]
  have halloc' := allocateInodeBlock_eq halloc (allocateBlock_ne_minusOne h.sound halloc) hset
  rw [if_neg (by decide)] at halloc'
  have hbounded : (inodeBlocks fs inode + 1) * fs₁.blockSize < 2 ^ 32 := by
    have hmul := mul_le_mul (show inodeBlocks fs inode + 1 ≤ 12 from hc)
      geo.blockSize_bounds.2.1
    rw [hfresh.evolves.blockSize]
    omega
  have hsame : inodeBlocks fs₁ (Inode.setDirBlock inode (inodeBlocks fs inode) new) =
      inodeBlocks fs inode := by
    rw [hfresh.evolves.inodeBlocks_eq, inodeBlocks, Inode.blocksCount, Inode.setDirBlock,
      load32_store32_of_sep (by omega)]
    rfl
  obtain ⟨hcount, hsize⟩ := countedInode_counts hfresh.evolves.sound.wellFormed.toGeometry
    hsame hbounded
  have hinode : ∀ x, 40 ≤ x → countedInode fs₁ (Inode.setDirBlock inode (inodeBlocks fs inode) new)
      (inodeBlocks fs inode) x = _ := fun x => countedInode_of_le
  generalize countedInode fs₁ (Inode.setDirBlock inode (inodeBlocks fs inode) new)
    (inodeBlocks fs inode) = inode' at *
  have hkeep₁ := hfresh.keepsTree h.sound level 0
  have hvalid₁ := hfresh.evolves.validInode h.valid
  obtain ⟨-, hevolves₂, hsb₂, hblocks₂⟩ := writeInode_spec hfresh.evolves.sound hvalid₁ inode'
  have hkeep₂ := writeInode_keepsTree hfresh.evolves.sound hvalid₁ inode'
    (update level new 0)
  generalize hfs₂ : (writeInode fs₁ inode' inodeIndex).2 = fs₂ at *
  have hvalid₂ := hevolves₂.validInode hvalid₁
  obtain ⟨_, hevolves₃, hsb₃, hblocks₃⟩ := writeInode_spec hevolves₂.sound hvalid₂ inode'
  have hkeep₃ := writeInode_keepsTree hevolves₂.sound hvalid₂ inode' (update level new 0)
  have hkeep := (hkeep₁.trans hkeep₂).trans hkeep₃
  have happend : appendBlock inodeIndex fs inode = ((writeInode fs₂ inode' inodeIndex).2,
      inode') := by
    rw [appendBlock, halloc']
  generalize hfs₃ : (writeInode fs₂ inode' inodeIndex).2 = fs₃ at *
  have huse : fs₃.InUse new := hevolves₃.inUse _ (hevolves₂.inUse _ hfresh.inUse)
  obtain ⟨hfile, hself, hlookup⟩ := h.append hkeep hc huse (update_self new 0 level)
    hfresh.notInUse hinode
  rw [← (hkeep₂.trans hkeep₃).evolves.inodeBlocks_eq] at hcount
  rw [hfresh.evolves.blockSize] at hsize
  have hmapped : ∀ b, fs.Mapped inode b → fs₃.lookup inode' b = fs.lookup inode b :=
    fun b hb => hlookup b hb.2.1 (Nat.ne_of_lt hb.1)
  refine ⟨fs₃, inode', _, happend, ⟨hfile, hkeep.evolves, ?_, ?_, ?_, ?_⟩, ?_, hcount⟩
  · rw [hcount, hsb₃, hsb₂, ← hfresh.free]
    omega
  · refine .inr ⟨by omega, ?_⟩
    rw [hcount, hsize]
  · intro b hb
    refine ⟨lt_trans hb.1 (by omega), hkeep.evolves.addressable hb.2.1, ?_⟩
    rw [hmapped b hb]
    exact hb.2.2
  · intro b hle hlt
    obtain rfl : b = inodeBlocks fs inode := by omega
    exact ⟨hlt, hkeep.evolves.addressable (addressable_of_direct geo hc), new, hnew, hself⟩
  · intro pos hpos
    have hsize := geo.blockSize_bounds
    have hmod : pos % fs.blockSize < fs.blockSize := mod_lt _ (by omega)
    obtain ⟨r, hr, hmap⟩ := hpos.2.2
    have hin := (h.data hpos.2.1 hmap hr).1
    rw [Fs.fileByte, Fs.fileByte, hkeep.evolves.blockSize, hmapped _ hpos, hmap, Option.getD_some]
    have hx₂ : pos % fs.blockSize < fs₁.blockSize := hfresh.evolves.blockSize.symm ▸ hmod
    have hx₃ : pos % fs.blockSize < fs₂.blockSize :=
      (hkeep₁.trans hkeep₂).evolves.blockSize.symm ▸ hmod
    have hin₁ := hfresh.evolves.inUse _ hin
    rw [hblocks₃ r (hevolves₂.inUse _ hin₁) _ hx₃, hblocks₂ r hin₁ _ hx₂, hfresh.keep r hin _ hmod]

/-- File block `b` has a block of the device, or will get one that is not lost. -/
def Fs.Usable (fs : Fs) (inode : Bytes) (b : Nat) : Prop :=
  fs.Mapped inode b ∨ inodeBlocks fs inode ≤ b ∧ b < indirectBlocks

theorem FileExtends.usable (h : FileExtends fs inode inodeIndex fs' inode' level')
    (hb : fs.Usable inode b) : fs'.Usable inode' b := by
  rcases hb with hmapped | ⟨hle, hdirect⟩
  · exact .inl (h.mapped b hmapped)
  · by_cases hlt : b < inodeBlocks fs' inode'
    · exact .inl (h.appended b hle hlt)
    · exact .inr ⟨Nat.le_of_not_lt hlt, hdirect⟩

/-- The loop of `ext2_write_inode_block` gives a file the direct blocks it lacks. -/
theorem appendBlocks_direct (h : MappedFile fs inode inodeIndex level) (hb : fs.Usable inode b)
    (hfree : b < inodeBlocks fs inode + freeBlocksCount fs.superblock) :
    ∃ fs' inode' level', whileLoop (fun s => decide (inodeBlocks s.1 s.2 ≤ b))
        (fun s => some (appendBlock inodeIndex s.1 s.2)) (fs, inode) = some (fs', inode') ∧
      FileExtends fs inode inodeIndex fs' inode' level' ∧ KeepsBytes fs inode fs' inode' ∧
      fs'.Mapped inode' b := by
  have step : ∀ s : Fs × Bytes,
      (∃ level', FileExtends fs inode inodeIndex s.1 s.2 level' ∧ KeepsBytes fs inode s.1 s.2) →
      decide (inodeBlocks s.1 s.2 ≤ b) = true →
      ∃ t, some (appendBlock inodeIndex s.1 s.2) = some t ∧
        (∃ level', FileExtends fs inode inodeIndex t.1 t.2 level' ∧ KeepsBytes fs inode t.1 t.2) ∧
        b + 1 - inodeBlocks t.1 t.2 < b + 1 - inodeBlocks s.1 s.2 := by
    intro s ⟨level₁, hextends, hbytes⟩ hcond
    have hle : inodeBlocks s.1 s.2 ≤ b := of_decide_eq_true hcond
    have hfree₁ := hextends.free
    have hdirect : b < indirectBlocks := by
      rcases hb with hmapped | hnew
      · exact absurd hle (not_le.mpr (hextends.mapped b hmapped).1)
      · exact hnew.2
    obtain ⟨fs₂, inode₂, level₂, happend, hextends₂, hbytes₂, hcount⟩ :=
      appendBlock_direct hextends.file (by omega) (by omega)
    refine ⟨(fs₂, inode₂), congrArg some happend,
      ⟨level₂, hextends.trans hextends₂, hbytes.trans hextends hbytes₂⟩, ?_⟩
    simp only [hcount]
    omega
  obtain ⟨⟨fs', inode'⟩, hrun, ⟨level', hextends, hbytes⟩, hexit⟩ :=
    whileLoop_total _ _ step (s := (fs, inode)) ⟨level, FileExtends.refl h, fun _ _ => rfl⟩
  have hlt : b < inodeBlocks fs' inode' := Nat.lt_of_not_le (of_decide_eq_false hexit)
  refine ⟨fs', inode', level', hrun, hextends, hbytes, ?_⟩
  rcases hb with hmapped | hnew
  · exact hextends.mapped b hmapped
  · exact hextends.appended b hnew.1 hlt

end Hos.Ext2
