import Hos.Fs.Ext2.InodeTable
import Hos.Fs.Ext2.ReadAfterWrite
import Hos.Fs.Ext2.Room

/-!
# The size on the device

`ext2_write_inode_data` puts the new size in the inode in memory and leaves it there:
the inode goes to the device only with a new block, and then with the size of
all blocks of the file. Without a new block the device keeps the old size.
-/

namespace Hos.Ext2

open Bytes Nat

/-- `ext2_write`: the inode is read from the device, and dropped at the end. -/
def write (fs : Fs) (inodeIndex offset nbyte : Nat) (buffer : Bytes) : Option (Int × Fs) :=
  let read := readInode fs zeroed inodeIndex
  if read.1 = -1 then some (-1, fs)
  else do
    let (ret, fs, _) ← writeInodeData fs read.2 inodeIndex offset nbyte buffer
    some (ret, fs)

/-- The inode on the device. -/
def Fs.storedInode (fs : Fs) (inodeIndex : Nat) : Bytes := (readInode fs zeroed inodeIndex).2

/-- The size of a file on the device. -/
def Fs.storedSize (fs : Fs) (inodeIndex : Nat) : Nat := Inode.size (fs.storedInode inodeIndex)

/-- A write returns, and the size on the device covers what was there and the range. -/
def SizeStored (fs : Fs) (inodeIndex offset n : Nat) (buffer : Bytes) : Prop :=
  ∃ ret fs', write fs inodeIndex offset n buffer = some (ret, fs') ∧
    fs'.storedSize inodeIndex = max (fs.storedSize inodeIndex) (offset + n)

section

variable {fs : Fs} {inodeIndex r : Nat}

theorem storedSize_eq (wf : Addressed fs) (hindex : fs.ValidInode inodeIndex) (disk : Bytes) :
    Fs.storedSize { fs with disk := disk } inodeIndex =
      disk.load32 (fs.inodeAddr inodeIndex + 4) := by
  rw [Fs.storedSize, Fs.storedInode, readInode_eq wf hindex]
  refine load32_copy fun x hx => ?_
  dsimp only
  rw [blit_of_mem (Nat.zero_le _) (by rw [inodeStructSize]; omega), Nat.sub_zero, Nat.add_assoc]

theorem storedSize_writeInode (wf : Addressed fs) (hindex : fs.ValidInode inodeIndex)
    (inode : Bytes) :
    (writeInode fs inode inodeIndex).2.storedSize inodeIndex = Inode.size inode := by
  rw [writeInode_eq_blit wf hindex]
  refine (storedSize_eq wf hindex _).trans (load32_copy fun x hx => ?_)
  rw [blit_of_mem (by omega) (by rw [inodeStructSize]; omega)]
  exact congrArg inode (by omega)

theorem storedSize_writeBlock (h : Sound fs) (hindex : fs.ValidInode inodeIndex) (hr : fs.InUse r)
    (buffer : Bytes) : (writeBlock fs r buffer).2.storedSize inodeIndex =
      fs.storedSize inodeIndex := by
  have hwf := h.wellFormed
  have hbounds := hwf.blockSize_bounds
  obtain ⟨hgroup, hin⟩ := inodeLocation_inInodeTable hwf hindex
  rw [writeBlock_eq]
  refine (storedSize_eq hwf hindex _).trans (Eq.trans ?_ (storedSize_eq hwf hindex fs.disk).symm)
  refine load32_copy fun x hx => ?_
  rw [writeBlock_disk (by omega) hr.ne_zero (hwf.offset_lt hr.lt), if_neg]
  have hx' : 4 + x < inodeStructSize := by rw [inodeStructSize]; omega
  rw [add_assoc, (inodeAddr_split hwf.toWellFormed inodeIndex hx').1]
  rintro rfl
  exact hr.notMeta (.inr (.inr ⟨_, hgroup, .inr (.inr hin)⟩))

end

section

/-- While the blocks from `first` up to `last` of a file that had `blocks` blocks and `size`
bytes on the device are written: the size on the device changes with the number of
blocks only, and there is room for the rest. -/
structure Writing (fs₀ : Fs) (inodeIndex first last blocks size : Nat) (fs : Fs)
    (inode : Bytes) : Prop where
  evolves : Evolves fs₀ fs
  map : ∃ level, MapTree fs inode inodeIndex level
  found : ∀ b, first ≤ b → b ≤ last → b < inodeBlocks fs inode → ∃ v, fs.lookup inode b = some v
  stored : inodeBlocks fs inode = blocks ∧ fs.storedSize inodeIndex = size ∨
    blocks < inodeBlocks fs inode ∧ inodeBlocks fs inode ≤ last + 1 ∧
      fs.storedSize inodeIndex = inodeBlocks fs inode * fs₀.blockSize
  room : fs.blocksFor (inodeBlocks fs inode) (last + 1 - inodeBlocks fs inode) ≤
    freeBlocksCount fs.superblock

variable {fs₀ fs : Fs} {inode : Bytes} {inodeIndex first last blocks size b : Nat}

variable (h : Writing fs₀ inodeIndex first last blocks size fs inode) (haddr : fs₀.Addressable last)
include h haddr

/-- Where the map has grown, blocks that had a number have it still. -/
theorem Writing.found_of_grows {fs' : Fs} {inode' : Bytes} {level' : Nat → Nat}
    (hgrows : MapGrows fs inode inodeIndex fs' inode' level') (hlo : first ≤ b) (hhi : b ≤ last)
    (hb : b < inodeBlocks fs inode) : ∃ v, fs'.lookup inode' b = some v := by
  by_cases hdirect : b < indirectBlocks
  · exact lookup_direct fs' inode' hdirect
  · obtain ⟨v, hv⟩ := h.found b hlo hhi hb
    exact ⟨v, hgrows.found b v (Nat.le_of_not_lt hdirect)
      ((h.evolves.addressable haddr).mono hhi) hv⟩

variable (hbounded : (last + 1) * fs₀.blockSize < 2 ^ 32)
include hbounded

theorem Writing.append (hle : inodeBlocks fs inode ≤ last) :
    ∃ fs' inode', appendBlock inodeIndex fs inode = (fs', inode') ∧
      Writing fs₀ inodeIndex first last blocks size fs' inode' ∧
      inodeBlocks fs' inode' = inodeBlocks fs inode + 1 := by
  obtain ⟨level, hmap⟩ := h.map
  have hroom := h.room
  obtain ⟨rest, hrest⟩ : ∃ rest, last + 1 - inodeBlocks fs inode = rest + 1 :=
    ⟨last - inodeBlocks fs inode, by omega⟩
  rw [hrest, Fs.blocksFor] at hroom
  have hmul : (inodeBlocks fs inode + 1) * fs.blockSize < 2 ^ 32 := by
    rw [h.evolves.blockSize]
    exact lt_of_le_of_lt (mul_le_mul_right _ (succ_le_succ hle)) hbounded
  obtain ⟨fs', inode', level', happend, hgrows, hcount, hsize, hnew, hfree, fs₃, hsound,
      hvalid, rfl⟩ :=
    appendBlock_room hmap ((h.evolves.addressable haddr).mono hle) hmul (by omega)
  have hstored := storedSize_writeInode hsound.wellFormed hvalid inode'
  refine ⟨_, inode', happend, ⟨h.evolves.trans hgrows.evolves, ⟨level', hgrows.map⟩,
    fun b hlo hhi hb => ?_, .inr ⟨?_, by omega, ?_⟩, ?_⟩, hcount⟩
  · by_cases hat : b = inodeBlocks fs inode
    · exact hat ▸ hnew
    · exact h.found_of_grows haddr hgrows hlo hhi (by omega)
  · rcases h.stored with ⟨hsame, -⟩ | ⟨hmore, -, -⟩ <;> omega
  · rw [hstored, hsize, hcount, h.evolves.blockSize]
  · rw [hcount, show last + 1 - (inodeBlocks fs inode + 1) = rest by omega,
      hgrows.evolves.blocksFor]
    omega

theorem Writing.writeInodeBlock (hlo : first ≤ b)
    (hhi : b ≤ last) (cache : Bytes) :
    ∃ ret fs' inode', Ext2.writeInodeBlock fs inode inodeIndex b cache = some (ret, fs', inode') ∧
      ret ≠ 0 ∧
      Writing fs₀ inodeIndex first last blocks size fs' inode' ∧ b < inodeBlocks fs' inode' := by
  have hstep : ∀ s : Fs × Bytes, Writing fs₀ inodeIndex first last blocks size s.1 s.2 →
      decide (inodeBlocks s.1 s.2 ≤ b) = true → ∃ t,
        some (appendBlock inodeIndex s.1 s.2) = some t ∧
        Writing fs₀ inodeIndex first last blocks size t.1 t.2 ∧
        b + 1 - inodeBlocks t.1 t.2 < b + 1 - inodeBlocks s.1 s.2 := by
    rintro ⟨fs, inode⟩ hs hcond
    dsimp only at hs hcond ⊢
    have hle := of_decide_eq_true hcond
    obtain ⟨fs', inode', happend, hnext, hcount⟩ := hs.append haddr hbounded (hle.trans hhi)
    exact ⟨(fs', inode'), congrArg some happend, hnext, by dsimp only; omega⟩
  obtain ⟨⟨fs₁, inode₁⟩, hloop, h₁, hexit⟩ := whileLoop_total _ _ hstep (s := (fs, inode)) h
  dsimp only at h₁ hexit
  have hlt := Nat.lt_of_not_le (of_decide_eq_false hexit)
  obtain ⟨level, hmap⟩ := h₁.map
  obtain ⟨v, hv⟩ := h₁.found b hlo hhi hlt
  have haddr₁ := (h₁.evolves.addressable haddr).mono hhi
  have hreal := getRealBlockIndex_of_lookup hmap.sound.wellFormed.toGeometry haddr₁ hv
  have hbounds := hmap.sound.wellFormed.blockSize_bounds
  by_cases hzero : v = 0
  · refine ⟨-1, fs₁, inode₁, ?_, by decide, h₁, hlt⟩
    rw [Ext2.writeInodeBlock, hloop]
    exact if_pos (hreal.trans hzero)
  · obtain ⟨hin, hlevel⟩ := hmap.data haddr₁ hv hzero
    have hgrows : MapGrows fs₁ inode₁ inodeIndex (writeBlock fs₁ v cache).2 inode₁ level :=
      hmap.grow (writeBlock_keepsTree hmap.sound hin hlevel cache).grows fun _ => rfl
    have hcount : inodeBlocks (writeBlock fs₁ v cache).2 inode₁ = inodeBlocks fs₁ inode₁ :=
      hgrows.evolves.inodeBlocks_eq
    refine ⟨fs₁.blockSize, (writeBlock fs₁ v cache).2, inode₁, ?_, by omega,
      ⟨h₁.evolves.trans hgrows.evolves,
      ⟨level, hgrows.map⟩, fun b hlo hhi hb => ?_, ?_, ?_⟩, hcount.symm ▸ hlt⟩
    · have hret : (writeBlock fs₁ v cache).1 = fs₁.blockSize := by rw [writeBlock, if_neg hzero]
      rw [Ext2.writeInodeBlock, hloop]
      refine (if_neg (hreal.symm ▸ hzero)).trans ?_
      rw [hreal, hret]
    · exact h₁.found_of_grows haddr hgrows hlo hhi (hcount ▸ hb)
    · rw [hcount, storedSize_writeBlock hmap.sound hmap.valid hin]
      exact h₁.stored
    · rw [hcount, hgrows.evolves.blocksFor, writeBlock_superblock]
      exact h₁.room

theorem Writing.writeBlocks {n k : Nat}
    (hlast : first + k + n ≤ last + 1) (offset : Nat) (buffer cache : Bytes) :
    ∃ fs' inode' cache', Ext2.writeBlocks inodeIndex offset first buffer n k fs inode cache =
        some (true, fs', inode', cache') ∧
      Writing fs₀ inodeIndex first last blocks size fs' inode' ∧
      (n ≠ 0 → first + k + n ≤ inodeBlocks fs' inode') := by
  induction n generalizing k fs inode cache with
  | zero => exact ⟨fs, inode, cache, rfl, h, fun hne => absurd rfl hne⟩
  | succ n ih =>
    rw [Ext2.writeBlocks]
    generalize (if k = 0 then _ else _ : Bytes) = cache₁
    obtain ⟨ret, fs₁, inode₁, hwrite, hret, h₁, hlt⟩ :=
      h.writeInodeBlock haddr hbounded (le_add_right first k) (by omega) cache₁
    obtain ⟨fs', inode', cache', hrun, h', hcovered⟩ := ih h₁ (k := k + 1) (by omega) cache₁
    refine ⟨fs', inode', cache', ?_, h', fun _ => ?_⟩
    · rw [hwrite]
      exact (if_neg hret).trans hrun
    · cases n with
      | zero =>
        obtain ⟨-, rfl, rfl, -⟩ := hrun
        exact hlt
      | succ n =>
        omega

end

variable {fs : Fs} {inode buffer : Bytes} {inodeIndex offset n : Nat} {level : Nat → Nat}

/-- A range that ends inside a block. -/
theorem lastBlock_of_rest (hpos : 0 < fs.blockSize) (hrest : (offset + n) % fs.blockSize ≠ 0) :
    fs.lastBlock offset n = (offset + n) / fs.blockSize := by
  have hdiv := div_add_mod' (offset + n) fs.blockSize
  refine Nat.le_antisymm (Nat.div_le_div_right (by omega)) ((Nat.le_div_iff_mul_le hpos).mpr ?_)
  omega

/-- `ext2_write_inode_data` writes the blocks from the first up to the last one of the range. -/
theorem Writing.writeInodeData {blocks size : Nat}
    (h : Writing fs inodeIndex (offset / fs.blockSize) (fs.lastBlock offset n) blocks size fs
      (extendedInode inode (offset + n)))
    (haddr : fs.Addressable (fs.lastBlock offset n))
    (hbounded : (fs.lastBlock offset n + 1) * fs.blockSize < 2 ^ 32) (hpos : 0 < fs.blockSize)
    (buffer : Bytes) :
    ∃ ret fs' inode', Ext2.writeInodeData fs inode inodeIndex offset n buffer = some
      (ret, fs', inode') ∧
      Writing fs inodeIndex (offset / fs.blockSize) (fs.lastBlock offset n) blocks size fs' inode' ∧
      fs.lastBlock offset n < inodeBlocks fs' inode' := by
  have hend : offset + n < 2 ^ 32 := lt_of_le_of_lt (le_lastBlock offset n hpos) hbounded
  rw [Ext2.writeInodeData]
  simp only [u32_of_lt hend, sub32_div_mul hend]
  rw [← extendedInode]
  by_cases hsame : offset / fs.blockSize = (offset + n) / fs.blockSize
  · have hlast := lastBlock_of_same hsame
    rw [if_pos hsame]
    generalize memcpy _ _ buffer _ _ = cache
    obtain ⟨ret, fs', inode', hrun, hret, h', hlt⟩ :=
      h.writeInodeBlock haddr hbounded (le_refl _) (le_of_eq hlast.symm) cache
    refine ⟨i32 (sub32 (offset + n) offset), fs', inode', ?_, h', hlast ▸ hlt⟩
    rw [hrun]
    exact if_neg hret
  have hle : offset / fs.blockSize ≤ (offset + n) / fs.blockSize :=
    Nat.div_le_div_right (Nat.le_add_right _ _)
  rw [if_neg hsame]
  by_cases hrest : (offset + n) % fs.blockSize = 0
  · have hlast := lastBlock_of_ends hpos hsame hrest
    obtain ⟨fs', inode', cache', hrun, h', hcovered⟩ := h.writeBlocks haddr hbounded (k := 0)
      (n := (offset + n) / fs.blockSize - offset / fs.blockSize) (by omega) offset buffer zeroed
    refine ⟨i32 (sub32 (offset + n) offset), fs', inode', ?_, h', by omega⟩
    rw [hrun]
    exact if_neg (not_not.mpr hrest)
  · have hlast := lastBlock_of_rest hpos hrest
    obtain ⟨fs₁, inode₁, cache₁, hblocks, h₁, -⟩ := h.writeBlocks haddr hbounded (k := 0)
      (n := (offset + n) / fs.blockSize - offset / fs.blockSize) (by omega) offset buffer zeroed
    rw [hblocks]
    dsimp only [Option.bind_eq_bind, Option.bind_some]
    rw [if_pos hrest]
    generalize memcpy _ _ buffer _ _ = cache
    obtain ⟨ret, fs', inode', hrun, hret, h', hlt⟩ :=
      h₁.writeInodeBlock haddr hbounded hle (le_of_eq hlast.symm) cache
    refine ⟨-1, fs', inode', ?_, h', hlast ▸ hlt⟩
    rw [hrun]
    exact if_neg hret

/-- The writes whose blocks can be found or allocated: on a sound file system, in the range
of block numbers and of 32-bit offsets, with no pointer block missing on the way to a block
that the file has, and with a free block for each new block and each pointer block to it. -/
structure Accommodated (fs : Fs) (inodeIndex offset n : Nat) : Prop where
  map : ∃ level, MapTree fs (fs.storedInode inodeIndex) inodeIndex level
  addressable : fs.Addressable (fs.lastBlock offset n)
  bounded : (fs.lastBlock offset n + 1) * fs.blockSize < 2 ^ 32
  found : ∀ b, offset / fs.blockSize ≤ b → b ≤ fs.lastBlock offset n →
    b < inodeBlocks fs (fs.storedInode inodeIndex) →
      ∃ v, fs.lookup (fs.storedInode inodeIndex) b = some v
  room : fs.blocksFor (inodeBlocks fs (fs.storedInode inodeIndex))
    (fs.lastBlock offset n + 1 - inodeBlocks fs (fs.storedInode inodeIndex)) ≤
      freeBlocksCount fs.superblock

/-- The size on the device after a write: the old one, or that of all blocks. -/
theorem write_storedSize (ready : Accommodated fs inodeIndex offset n) (buffer : Bytes) :
    ∃ ret fs', write fs inodeIndex offset n buffer = some (ret, fs') ∧
      fs'.storedSize inodeIndex = if fs.lastBlock offset n < inodeBlocks fs
        (fs.storedInode inodeIndex)
        then fs.storedSize inodeIndex else (fs.lastBlock offset n + 1) * fs.blockSize := by
  obtain ⟨⟨level, h⟩, haddr, hbounded, hfound, hroom⟩ := ready
  have hread : (readInode fs zeroed inodeIndex).1 = 0 :=
    congrArg Prod.fst (readInode_eq h.sound.wellFormed h.valid fs.disk zeroed)
  have hbounds := h.sound.wellFormed.blockSize_bounds
  have hstart : Writing fs inodeIndex (offset / fs.blockSize) (fs.lastBlock offset n)
      (inodeBlocks fs (fs.storedInode inodeIndex)) (fs.storedSize inodeIndex) fs
      (extendedInode (fs.storedInode inodeIndex) (offset + n)) := by
    have hgrows : MapGrows fs (fs.storedInode inodeIndex) inodeIndex fs
        (extendedInode (fs.storedInode inodeIndex) (offset + n)) level :=
      h.grow (KeepsTree.refl h.sound level).grows (load32_path_congr fun _ hx =>
        extendedInode_of_le (offset + n) hx)
    refine ⟨Evolves.refl h.sound, ⟨level, hgrows.map⟩, fun b hlo hhi hb => ?_, .inl ⟨?_, rfl⟩, ?_⟩
    · rw [inodeBlocks_extendedInode] at hb
      rw [lookup_extendedInode]
      exact hfound b hlo hhi hb
    · rw [inodeBlocks_extendedInode]
    · rw [inodeBlocks_extendedInode]
      exact hroom
  obtain ⟨ret, fs', inode', hrun, h', hlt⟩ := hstart.writeInodeData haddr hbounded (by omega) buffer
  refine ⟨ret, fs', ?_, ?_⟩
  · rw [write, ← Fs.storedInode, hread, if_neg (by decide), hrun]
    rfl
  · rcases h'.stored with ⟨hsame, hsize⟩ | ⟨hmore, hle, hsize⟩
    · rw [if_pos (by omega), hsize]
    · rw [if_neg (by omega), hsize, show inodeBlocks fs' inode' =
        fs.lastBlock offset n + 1 by omega]

/-- A write that can be accommodated leaves the right size on the device exactly when
it stays within the blocks and the size of the file, or has new blocks and their end
is the new end of the file. -/
theorem size_stored_iff (ready : Accommodated fs inodeIndex offset n) :
    SizeStored fs inodeIndex offset n buffer ↔
      fs.lastBlock offset n < inodeBlocks fs (fs.storedInode inodeIndex) ∧
          offset + n ≤ fs.storedSize inodeIndex ∨
        inodeBlocks fs (fs.storedInode inodeIndex) ≤ fs.lastBlock offset n ∧
          max (fs.storedSize inodeIndex) (offset + n) =
            (fs.lastBlock offset n + 1) * fs.blockSize := by
  obtain ⟨ret, fs', hrun, hsize⟩ := write_storedSize ready buffer
  have hiff : SizeStored fs inodeIndex offset n buffer ↔
      fs'.storedSize inodeIndex = max (fs.storedSize inodeIndex) (offset + n) := by
    constructor
    · rintro ⟨ret₁, fs₁, hrun₁, hsize₁⟩
      rw [hrun] at hrun₁
      obtain ⟨-, rfl⟩ := hrun₁
      exact hsize₁
    · exact fun hsize' => ⟨ret, fs', hrun, hsize'⟩
  rw [hiff, hsize]
  split <;> omega

theorem tiny_storedInode : (tiny false).storedInode 12 = zeroed := by
  have hbytes : ∀ x < 128, (tinyDisk false) ((tiny false).inodeAddr 12 + x) = 0 := by decide +kernel
  have hvalid : (tiny false).ValidInode 12 := ⟨by decide, by decide⟩
  have hread := readInode_eq tiny_addressed hvalid (tinyDisk false) zeroed
  refine (congrArg Prod.snd hread).trans (funext fun x => ?_)
  by_cases hx : x < 128
  · exact (blit_of_mem (zero_le x) (by rw [inodeStructSize]; omega)).trans (hbytes x hx)
  · exact blit_of_notMem (by rw [inodeStructSize]; omega)

theorem tiny_mapTree : MapTree (tiny false) ((tiny false).storedInode 12) 12 fun _ => 0 := by
  rw [tiny_storedInode]
  exact (mappedFile_zeroed (fun _ => 0) tiny_sound ⟨by decide, by decide⟩).toMapTree

theorem tiny_inodeBlocks : inodeBlocks (tiny false) ((tiny false).storedInode 12) = 0 := by
  rfl

theorem tiny_accommodated (hpos : 0 < n) (hn : n ≤ 2048) : Accommodated (tiny false) 12 0 n := by
  have hlast : (tiny false).lastBlock 0 n = 0 := div_eq_of_lt (show 0 + (n - 1) < 2048 by omega)
  refine ⟨⟨_, tiny_mapTree⟩, ?_, ?_, fun b _ _ hb =>
    absurd (tiny_inodeBlocks ▸ hb) b.not_lt_zero, ?_⟩
  · rw [hlast]
    exact ⟨by decide, by decide⟩
  · rw [hlast]
    decide
  · rw [hlast, tiny_inodeBlocks]
    decide

/-- A whole block, written to an empty file. -/
theorem size_stored_block : SizeStored (tiny false) 12 0 2048 fun _ => 65 :=
  (size_stored_iff (tiny_accommodated (by decide) (by decide))).mpr
    (.inr ⟨tiny_inodeBlocks ▸ zero_le _, by rw [Fs.storedSize, tiny_storedInode]; decide⟩)

/-- Five bytes, written to an empty file: its size is that of a block afterwards. -/
theorem short_write_fills_block :
    (∃ ret fs', write (tiny false) 12 0 5 (fun _ => 65) = some (ret, fs') ∧
      fs'.storedSize 12 = 2048) ∧ ¬SizeStored (tiny false) 12 0 5 fun _ => 65 := by
  have hwrite : ∃ ret fs', write (tiny false) 12 0 5 (fun _ => 65) = some (ret, fs') ∧ _ :=
    write_storedSize (tiny_accommodated (by decide) (by decide)) fun _ => 65
  refine ⟨hwrite, ?_⟩
  rintro ⟨ret, fs', hrun, hsize⟩
  obtain ⟨ret₁, fs₁, hrun₁, hsize₁⟩ := hwrite
  rw [hrun] at hrun₁
  obtain ⟨-, rfl⟩ := hrun₁
  rw [hsize, Fs.storedSize, tiny_storedInode] at hsize₁
  cases hsize₁

end Hos.Ext2
