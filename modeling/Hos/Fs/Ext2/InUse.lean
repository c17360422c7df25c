import Mathlib.Algebra.Order.BigOperators.Group.Finset
import Hos.Fs.Ext2.AllocateBlock
import Hos.Fs.Ext2.File

/-!
# Blocks in use

On a sound file system the block allocator is correct: blocks number from zero
and no block lies behind the descriptors. A block in use holds no metadata and
has its bit set. The writes that file operations perform are an allocation, a
write of a block in use, and a write of an inode; each leads to a sound file
system, keeps blocks in use, and changes the contents of at most one of them.
-/

namespace Hos.Ext2

open Nat Finset

open Bytes

/-- A well-formed file system of at most 4 GiB on which `ext2_allocate_block` is correct. -/
structure Sound (fs : Fs) : Prop where
  wellFormed : Addressed fs
  first : firstDataBlock fs.superblock = 0
  noTail : ∀ b, ¬fs.IsTail b

/-- A block of the device without metadata whose bit is set. -/
structure Fs.InUse (fs : Fs) (b : Nat) : Prop where
  lt : b < blocksCount fs.superblock
  notMeta : ¬fs.IsMeta b
  bit : fs.blockBit (b / blocksPerGroup fs.superblock) (b % blocksPerGroup fs.superblock) = true

/-- `fs'` has the layout of `fs`, is sound, and keeps the blocks in use. -/
structure Evolves (fs fs' : Fs) : Prop where
  layout : ∃ disk bg sb, fs' = fs.withImages disk bg sb ∧ CountersOnly fs bg sb
  sound : Sound fs'
  inUse : ∀ b, fs.InUse b → fs'.InUse b

section

variable {fs fs' fs'' : Fs}

theorem Evolves.refl (h : Sound fs) : Evolves fs fs :=
  ⟨⟨fs.disk, fs.blockGroups, fs.superblock, rfl, CountersOnly.refl fs⟩, h, fun _ hb => hb⟩

section

variable (h : Evolves fs fs')
include h

theorem Evolves.trans (h' : Evolves fs' fs'') : Evolves fs fs'' := by
  obtain ⟨disk, bg, sb, rfl, hco⟩ := h.layout
  obtain ⟨disk', bg', sb', rfl, hco'⟩ := h'.layout
  refine ⟨⟨disk', bg', sb', rfl, ?_⟩, h'.sound, fun b hb => h'.inUse b (h.inUse b hb)⟩
  exact ⟨fun x hx => (hco'.table x hx).trans (hco.table x hx),
    fun x hx => (hco'.beyond x hx).trans (hco.beyond x hx),
    fun x hx => (hco'.superblock x hx).trans (hco.superblock x hx)⟩

theorem Evolves.blockSize : fs'.blockSize = fs.blockSize := by
  obtain ⟨_, _, _, rfl, _⟩ := h.layout
  rfl

theorem Evolves.pointersPerBlock : fs'.pointersPerBlock = fs.pointersPerBlock := by
  obtain ⟨_, _, _, rfl, _⟩ := h.layout
  rfl

theorem Evolves.blocksPerBlockCount :
    fs'.blocksPerBlockCount = fs.blocksPerBlockCount := by
  obtain ⟨_, _, _, rfl, _⟩ := h.layout
  rfl

end

theorem Geometry.group_lt (geo : Geometry fs) {b : Nat} (hb : b < blocksCount fs.superblock) :
    b / blocksPerGroup fs.superblock < fs.blockGroupsCount := by
  refine Nat.div_lt_of_lt_mul ?_
  rw [Nat.mul_comm]
  exact lt_of_lt_of_le hb geo.covered

/-- Other contents of the device lead to a sound file system when it is well
formed and no bit has been cleared. -/
theorem Sound.evolves (h : Sound fs) {disk bg sb : Bytes} (hco : CountersOnly fs bg sb)
    (hwf : WellFormed (fs.withImages disk bg sb))
    (hbits : ∀ g < fs.blockGroupsCount, ∀ i < blocksPerGroup fs.superblock,
      fs.blockBit g i = true → (fs.withImages disk bg sb).blockBit g i = true) :
    Evolves fs (fs.withImages disk bg sb) where
  layout := ⟨disk, bg, sb, rfl, hco⟩
  sound := ⟨⟨hwf, hco.below4G h.wellFormed.below4G⟩, hco.firstDataBlock.trans h.first, h.noTail⟩
  inUse := by
    intro b hb
    have hper : blocksPerGroup (fs.withImages disk bg sb).superblock =
        blocksPerGroup fs.superblock := hco.blocksPerGroup
    refine ⟨lt_of_lt_of_eq hb.lt hco.blocksCount.symm, ?_, ?_⟩
    · exact fun hmeta => hb.notMeta (hco.isMeta_iff.mp hmeta)
    · rw [hper]
      exact hbits _ (h.wellFormed.group_lt hb.lt) _
        (mod_lt _ h.wellFormed.blocksPerGroup_pos) hb.bit

theorem Fs.InUse.ne_zero {b : Nat} (h : fs.InUse b) : b ≠ 0 := fun hzero => h.notMeta (.inl hzero)

theorem Fs.InUse.clearOfTables {b : Nat} (h : fs.InUse b) : fs.ClearOfTables b :=
  clearOfTables_of_not_isMeta h.notMeta

theorem Fs.InUse.ne_blockBitmap {b g : Nat} (h : fs.InUse b) (hg : g < fs.blockGroupsCount) :
    b ≠ Group.blockBitmap fs.blockGroups g :=
  fun heq => h.notMeta (.inr (.inr ⟨g, hg, .inl heq⟩))

end

section

variable {fs fs' : Fs} {r : Nat}

/-- Block `r` was not in use; it is now, and holds zeros. -/
structure Fresh (fs : Fs) (r : Nat) (fs' : Fs) : Prop where
  evolves : Evolves fs fs'
  notInUse : ¬fs.InUse r
  inUse : fs'.InUse r
  zero : ∀ x < fs.blockSize, fs'.block r x = 0
  keep : ∀ b, fs.InUse b → ∀ x < fs.blockSize, fs'.block b x = fs.block b x
  free : freeBlocksCount fs'.superblock + 1 = freeBlocksCount fs.superblock

theorem Sound.tailKept (h : Sound fs) (g i : Nat) : fs.TailKept g i :=
  fun a htail => absurd htail (h.noTail (a / fs.blockSize))

theorem allocateBlock_fresh (h : Sound fs) (halloc : allocateBlock fs = (r, fs')) (hr : r ≠ 0) :
    Fresh fs r fs' := by
  obtain ⟨g, i, cache, hclear, hcache, rfl, rfl⟩ := allocateBlock_cases h.wellFormed halloc hr
  have hco : CountersOnly fs (fs.takenGroups 12 g) (fs.takenTotal 12) :=
    countersOnly_taken (by decide) (by decide) hclear.group_lt
  have hkept := h.tailKept g i
  have hwf := taken_wellFormed h.wellFormed.toWellFormed hclear h.first hcache hkept
  have htakes := takesBlock_taken h.wellFormed.toWellFormed hclear h.first hcache hkept
  have hle := h.wellFormed.blocksPerGroup_le
  have hper : blocksPerGroup (fs.taken g i cache).superblock = blocksPerGroup fs.superblock :=
    hco.blocksPerGroup
  have hnotInUse : ¬fs.InUse (g * blocksPerGroup fs.superblock + i) := by
    intro huse
    have hbit := huse.bit
    rw [addr_div hclear.index_lt, addr_mod hclear.index_lt, hclear.clear] at hbit
    exact Bool.false_ne_true hbit
  refine ⟨h.evolves hco hwf ?_, hnotInUse, ⟨?_, ?_, ?_⟩, ?_, ?_, ?_⟩
  · intro g' hg' j hj hset
    refine (htakes.bits g' hg' j (lt_of_lt_of_le hj hle)).trans ?_
    rw [hset, Bool.true_or]
  · have hlt := h.wellFormed.lt_of_clear hclear
    rw [h.first, zero_add] at hlt
    assumption
  · exact fun hmeta => h.wellFormed.not_isMeta hclear h.first (hco.isMeta_iff.mp hmeta)
  · rw [hper, addr_div hclear.index_lt, addr_mod hclear.index_lt,
      htakes.bits g hclear.group_lt i (lt_of_lt_of_le hclear.index_lt hle), beq_self_eq_true,
      beq_self_eq_true, Bool.and_true, Bool.or_true]
  · intro x hx
    exact htakes.zeroed _ (addr_div hx)
  · intro b hb x hx
    obtain ⟨hsb, htable⟩ := hb.clearOfTables _ (addr_div hx)
    refine htakes.frame (b * fs.blockSize + x) ?_ ?_ hsb htable
    · rw [addr_div hx]
      rintro rfl
      exact hnotInUse hb
    · rw [addr_div hx]
      exact hb.ne_blockBitmap hclear.group_lt
  · have htotal := h.wellFormed.blockCounts.total
    have hpos : 0 < clearCount (fs.blockBit g) (blocksPerGroup fs.superblock) :=
      clearCount_pos_iff.mpr ⟨i, hclear.index_lt, hclear.clear⟩
    have hle := single_le_sum (f := fun g =>
      clearCount (fs.blockBit g) (blocksPerGroup fs.superblock))
      (fun _ _ => zero_le _) (mem_range.mpr hclear.group_lt)
    have hlt : fs.superblock.load32 12 < 2 ^ 32 := load32_lt
    have hnew : freeBlocksCount (fs.taken g i cache).superblock =
        sub32 (fs.superblock.load32 12) 1 % 2 ^ 32 := load32_store32_self
    rw [hnew, sub32_of_le hlt (by omega), mod_eq_of_lt (by omega), freeBlocksCount]
    omega

/-- An allocation fails only when every block is in use, and then changes nothing. -/
theorem allocateBlock_full_or_fresh (h : Sound fs) :
    freeBlocksCount fs.superblock = 0 ∧ allocateBlock fs = (0, fs) ∨
      ∃ r fs', allocateBlock fs = (r, fs') ∧ r ≠ 0 ∧ Fresh fs r fs' := by
  cases hfind : findFreeBlock fs zeroed with
  | none =>
    refine .inl ⟨?_, by rw [allocateBlock, hfind]⟩
    rw [freeBlocksCount, h.wellFormed.blockCounts.total]
    refine sum_eq_zero fun g hg => Nat.eq_zero_of_not_pos fun hpos => ?_
    obtain ⟨i, hi, hclear⟩ := clearCount_pos_iff.mp hpos
    have hset := findFreeBlock_eq_none h.wellFormed hfind (mem_range.mp hg) hi
    exact Bool.false_ne_true (hclear.symm.trans hset)
  | some hit =>
    obtain ⟨g, i, cache⟩ := hit
    obtain ⟨hclear, _⟩ := findFreeBlock_eq_some h.wellFormed hfind
    have hpos : g * blocksPerGroup fs.superblock + i ≠ 0 := fun hzero =>
      h.wellFormed.not_isMeta hclear h.first (.inl hzero)
    have heq := allocateBlock_eq h.wellFormed hfind hpos
    exact .inr ⟨_, _, heq, hpos, allocateBlock_fresh h heq hpos⟩

theorem Fresh.lt (h : Fresh fs r fs') : r < 2 ^ 31 := by
  have hoffset := h.evolves.sound.wellFormed.offset_lt h.inUse.lt
  have hsize := h.evolves.sound.wellFormed.blockSize_bounds
  have hmul := mul_le_mul_left r hsize.1
  omega

end

section

variable {fs : Fs} {b : Nat}

theorem writeBlock_withImages (buffer : Bytes) : (writeBlock fs b buffer).2 =
    fs.withImages (writeBlock fs b buffer).2.disk fs.blockGroups fs.superblock := writeBlock_eq

theorem writeBlock_block (wf : Addressed fs) (hb : b ≠ 0) (hlt : b < blocksCount fs.superblock)
    (buffer : Bytes) (b' : Nat) {x : Nat} (hx : x < fs.blockSize) :
    (writeBlock fs b buffer).2.block b' x = if b' = b then buffer x else fs.block b' x := by
  have hpos : 0 < fs.blockSize := by omega
  rw [writeBlock_withImages]
  refine (writeBlock_disk hpos hb (wf.offset_lt hlt) (b' * fs.blockSize + x)).trans ?_
  rw [addr_div hx, addr_mod hx, Fs.block]

/-- Writing a block that holds neither a bitmap nor a table keeps a file system
well formed, with the same bits. -/
theorem Sound.writeBlock (h : Sound fs) (hb : b ≠ 0) (hlt : b < blocksCount fs.superblock)
    (hclear : fs.ClearOfTables b)
    (hbitmaps : ∀ g < fs.blockGroupsCount, b ≠ Group.blockBitmap fs.blockGroups g ∧
      b ≠ Group.inodeBitmap fs.blockGroups g) (buffer : Bytes) :
    Evolves fs (writeBlock fs b buffer).2 := by
  have hwf := h.wellFormed
  have hsize := hwf.blockSize_bounds
  have hpos : 0 < fs.blockSize := by omega
  have hdisk : ∀ a, a / fs.blockSize ≠ b → (Ext2.writeBlock fs b buffer).2.disk a = fs.disk a :=
    fun a hne => (writeBlock_disk hpos hb (hwf.offset_lt hlt) a).trans (if_neg hne)
  have hblock := writeBlock_block hwf hb hlt buffer
  have hco := CountersOnly.refl fs
  rw [writeBlock_withImages] at hblock ⊢
  have hsync : (fs.withImages (Ext2.writeBlock fs b buffer).2.disk fs.blockGroups
      fs.superblock).Synced :=
    Fs.Synced.overwrite (show (fs.withImages fs.disk _ _).Synced from hwf.synced) hpos hclear hdisk
  have hblockBits : ∀ g < fs.blockGroupsCount, ∀ i < blocksPerGroup fs.superblock,
      (fs.withImages (Ext2.writeBlock fs b buffer).2.disk fs.blockGroups fs.superblock).blockBit
        g i = fs.blockBit g i := by
    intro g hg i hi
    have hle := hwf.blocksPerGroup_le
    refine bit_congr ((hblock _ (show i / 8 < fs.blockSize by omega)).trans (if_neg ?_))
    exact (hbitmaps g hg).1.symm
  have hinodeBits : ∀ g < fs.blockGroupsCount, ∀ i < inodesPerGroup fs.superblock,
      (fs.withImages (Ext2.writeBlock fs b buffer).2.disk fs.blockGroups fs.superblock).inodeBit
        g i = fs.inodeBit g i := by
    intro g hg i hi
    have hle := hwf.inodesPerGroup_le
    refine bit_congr ((hblock _ (show i / 8 < fs.blockSize by omega)).trans (if_neg ?_))
    exact (hbitmaps g hg).2.symm
  refine h.evolves hco (hwf.withImages hco hsync ?_ ?_ ?_ ?_) ?_
  · exact fun g hg i hi hset => (hblockBits g hg i hi).trans hset
  · exact fun g hg i hi hset => (hinodeBits g hg i hi).trans hset
  · exact hwf.blockCounts.keep hsync (by decide) (by decide) (fun _ _ => rfl) rfl hblockBits
  · exact hwf.inodeCounts.keep hsync (by decide) (by decide) (fun _ _ => rfl) rfl hinodeBits
  · exact fun g hg i hi hset => (hblockBits g hg i hi).trans hset

theorem Fs.InUse.ne_inodeBitmap {g : Nat} (h : fs.InUse b) (hg : g < fs.blockGroupsCount) :
    b ≠ Group.inodeBitmap fs.blockGroups g :=
  fun heq => h.notMeta (.inr (.inr ⟨g, hg, .inr (.inl heq)⟩))

theorem Sound.writeBlock_inUse (h : Sound fs) (hb : fs.InUse b) (buffer : Bytes) :
    Evolves fs (Ext2.writeBlock fs b buffer).2 :=
  h.writeBlock hb.ne_zero hb.lt hb.clearOfTables
    (fun _ hg => ⟨hb.ne_blockBitmap hg, hb.ne_inodeBitmap hg⟩) buffer

end

variable {fs : Fs} {inodeIndex : Nat}

/-- The numbers of the inodes of the file system. -/
def Fs.ValidInode (fs : Fs) (inodeIndex : Nat) : Prop :=
  0 < inodeIndex ∧ inodeIndex ≤ fs.blockGroupsCount * inodesPerGroup fs.superblock

theorem Evolves.validInode {fs' : Fs} (h : Evolves fs fs') (hindex : fs.ValidInode inodeIndex) :
    fs'.ValidInode inodeIndex := by
  obtain ⟨_, _, _, rfl, hco⟩ := h.layout
  simp only [Fs.ValidInode, Fs.withImages, hco.inodesPerGroup]
  exact hindex

/-- An inode table fits on the device, so its size does not overflow. -/
theorem Addressed.inodeTable_le (wf : Addressed fs) :
    inodesPerGroup fs.superblock * inodeSize fs.superblock ≤ 2 ^ 32 := by
  have hsize := wf.blockSize_bounds
  have hpos := mul_pos wf.inodesPerGroup_pos
    (lt_of_lt_of_le (by decide : 0 < inodeStructSize) wf.inodeSize_ge)
  generalize hbytes : inodesPerGroup fs.superblock * inodeSize fs.superblock = bytes at hpos ⊢
  have hlast : fs.InInodeTable 0 (Group.inodeTable fs.blockGroups 0 + (bytes - 1) /
      fs.blockSize) := by
    refine ⟨le_add_right _ _, ?_⟩
    rw [Nat.add_sub_cancel_left, hbytes]
    have := div_mul_le_self (bytes - 1) fs.blockSize
    omega
  obtain ⟨_, hlt, _⟩ := wf.inodeTable_valid 0 wf.groups_pos _ hlast
  have hdiv : (bytes - 1) / fs.blockSize < blocksCount fs.superblock := by omega
  rw [div_lt_iff_lt_mul (by omega)] at hdiv
  have hbelow := wf.below4G
  rw [Fs.Below4G] at hbelow
  omega

section

variable (wf : Addressed fs) (hindex : fs.ValidInode inodeIndex)
include wf hindex

/-- The block with the slot of a valid inode is one of the inode table of its group. -/
theorem slotBlock_inInodeTable :
    getGroupIndexFromInode fs inodeIndex < fs.blockGroupsCount ∧
      fs.InInodeTable (getGroupIndexFromInode fs inodeIndex)
        (Group.inodeTable fs.blockGroups (getGroupIndexFromInode fs inodeIndex) +
          getBlockIndexFromInodeOffset fs (getInodeOffsetInGroup fs inodeIndex)) := by
  obtain ⟨hpos, hle⟩ := hindex
  have hinodes := wf.inodes_lt
  have hper := wf.inodesPerGroup_pos
  have hpred : sub32 inodeIndex 1 = inodeIndex - 1 := sub32_of_le (by omega) (by omega)
  have hgroup : getGroupIndexFromInode fs inodeIndex < fs.blockGroupsCount := by
    refine Nat.div_lt_of_lt_mul ?_
    rw [Nat.mul_comm]
    omega
  refine ⟨hgroup, ?_⟩
  have hoffset : getInodeOffsetInGroup fs inodeIndex < inodesPerGroup fs.superblock := mod_lt _ hper
  have hsize := lt_of_lt_of_le (by decide : 0 < inodeStructSize) wf.inodeSize_ge
  have hbytes := mul_lt_mul_of_pos_right hoffset hsize
  have htable := wf.inodeTable_le
  have hblock : getBlockIndexFromInodeOffset fs (getInodeOffsetInGroup fs inodeIndex) =
      getInodeOffsetInGroup fs inodeIndex * inodeSize fs.superblock / fs.blockSize := by
    rw [getBlockIndexFromInodeOffset, u32_of_lt (by omega)]
  refine ⟨le_add_right _ _, ?_⟩
  rw [Nat.add_sub_cancel_left, hblock]
  exact lt_of_le_of_lt (div_mul_le_self _ _) hbytes

theorem inodeLocation_fst :
    (inodeLocation fs inodeIndex).1 = Group.inodeTable fs.blockGroups
      (getGroupIndexFromInode fs inodeIndex) +
        getBlockIndexFromInodeOffset fs (getInodeOffsetInGroup fs inodeIndex) := by
  obtain ⟨hgroup, hin⟩ := slotBlock_inInodeTable wf hindex
  have hlt := (wf.inodeTable_valid _ hgroup _ hin).2.1
  have hcount : blocksCount fs.superblock < 2 ^ 32 := load32_lt
  exact u32_of_lt (by omega)

/-- A valid inode lies in the inode table of its group. -/
theorem inodeLocation_inInodeTable :
    getGroupIndexFromInode fs inodeIndex < fs.blockGroupsCount ∧
      fs.InInodeTable (getGroupIndexFromInode fs inodeIndex) (inodeLocation fs inodeIndex).1 := by
  rw [inodeLocation_fst wf hindex]
  exact slotBlock_inInodeTable wf hindex

end

theorem writeInode_eq (hpos : inodeIndex ≠ 0)
    (hgroup : ¬fs.blockGroupsCount < getGroupIndexFromInode fs inodeIndex) (inode : Bytes) :
    (writeInode fs inode inodeIndex).1 = 0 ∧ ∃ cache, (writeInode fs inode inodeIndex).2 =
      (Ext2.writeBlock fs (inodeLocation fs inodeIndex).1 cache).2 := by
  rw [writeInode, if_neg hpos, if_neg hgroup]
  generalize inodeLocation fs inodeIndex = location
  obtain ⟨block, offset⟩ := location
  exact ⟨rfl, _, rfl⟩

/-- Writing an inode succeeds and changes no block in use. -/
theorem writeInode_spec (h : Sound fs) (hindex : fs.ValidInode inodeIndex) (inode : Bytes) :
    (writeInode fs inode inodeIndex).1 = 0 ∧ Evolves fs (writeInode fs inode inodeIndex).2 ∧
      (writeInode fs inode inodeIndex).2.superblock = fs.superblock ∧ ∀ b, fs.InUse b →
        ∀ x < fs.blockSize, (writeInode fs inode inodeIndex).2.block b x = fs.block b x := by
  obtain ⟨hgroup, hin⟩ := inodeLocation_inInodeTable h.wellFormed hindex
  obtain ⟨hpos, hlt, hclear, hbitmaps⟩ := h.wellFormed.inodeTable_valid _ hgroup _ hin
  obtain ⟨hret, cache, heq⟩ := writeInode_eq (ne_of_gt hindex.1) (lt_asymm hgroup) inode
  rw [heq]
  refine ⟨hret, h.writeBlock (ne_of_gt hpos) hlt hclear hbitmaps cache,
    writeBlock_superblock _ cache, ?_⟩
  intro b hb x hx
  rw [writeBlock_block h.wellFormed (ne_of_gt hpos) hlt cache b hx, if_neg]
  rintro rfl
  exact hb.notMeta (.inr (.inr ⟨_, hgroup, .inr (.inr hin)⟩))

end Hos.Ext2
