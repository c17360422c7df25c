import Hos.Fs.Ext2.InUse

/-!
# The inode table

A valid inode has the first 128 bytes of its slot in the inode table of its group.
`ext2_read_inode` copies these bytes and `ext2_write_inode` replaces them, each
through the whole block around the slot. The size of a slot divides the size of a block,
so slots do not cross blocks and different inodes have their bytes apart.

The check of the group index lets one group too many pass: the numbers behind the
last group are looked up in a descriptor that the file system does not have.
-/

namespace Hos.Ext2

open Nat

open Bytes

/-- The address of an inode on the device. -/
def Fs.inodeAddr (fs : Fs) (inodeIndex : Nat) : Nat :=
  (inodeLocation fs inodeIndex).1 * fs.blockSize + (inodeLocation fs inodeIndex).2

/-- The inode tables share no block. -/
def Fs.TablesApart (fs : Fs) : Prop :=
  ∀ g < fs.blockGroupsCount, ∀ g' < fs.blockGroupsCount, ∀ b,
    fs.InInodeTable g b → fs.InInodeTable g' b → g = g'

/-- A well-formed file system of at most 4 GiB whose inode tables share no block. -/
structure Tabled (fs : Fs) : Prop extends Addressed fs where
  tables_apart : fs.TablesApart

section

variable {fs : Fs} {inodeIndex : Nat}

theorem inodeLocation_offset (wf : WellFormed fs) (inodeIndex : Nat) :
    (inodeLocation fs inodeIndex).2 + inodeStructSize ≤ fs.blockSize := by
  have hge := wf.inodeSize_ge
  have hsize := wf.blockSize_bounds
  have hpos : 0 < inodeSize fs.superblock := lt_of_lt_of_le (by decide) hge
  obtain ⟨slots, hslots⟩ := wf.inodeSize_dvd
  have hcount : fs.inodesPerBlockCount = slots := by
    rw [wf.inodesPerBlock, hslots, Nat.mul_div_cancel_left _ hpos]
  have hslot : getInodeOffsetInGroup fs inodeIndex % slots < slots := by
    refine mod_lt _ (pos_of_ne_zero ?_)
    rintro rfl
    omega
  have hmul := mul_le_mul_right (inodeSize fs.superblock) (succ_le_of_lt hslot)
  rw [succ_mul, mul_comm slots, ← hslots] at hmul
  change getInodeOffsetInGroup fs inodeIndex % fs.inodesPerBlockCount * _ + _ ≤ _
  rw [hcount]
  omega

theorem inodeAddr_split (wf : WellFormed fs) (inodeIndex : Nat) {x : Nat}
    (hx : x < inodeStructSize) :
    (fs.inodeAddr inodeIndex + x) / fs.blockSize = (inodeLocation fs inodeIndex).1 ∧
      (fs.inodeAddr inodeIndex + x) % fs.blockSize = (inodeLocation fs inodeIndex).2 + x := by
  have hle := inodeLocation_offset wf inodeIndex
  rw [Fs.inodeAddr, add_assoc]
  exact ⟨addr_div (by omega), addr_mod (by omega)⟩

section

variable (wf : Addressed fs) (hindex : fs.ValidInode inodeIndex)
include wf hindex

theorem inodeLocation_valid :
    (inodeLocation fs inodeIndex).1 ≠ 0 ∧ (inodeLocation fs inodeIndex).1 * fs.blockSize <
      2 ^ 32 := by
  obtain ⟨hgroup, hin⟩ := inodeLocation_inInodeTable wf hindex
  obtain ⟨hpos, hlt, _⟩ := wf.inodeTable_valid _ hgroup _ hin
  exact ⟨ne_of_gt hpos, wf.offset_lt hlt⟩

theorem not_lt_group : ¬fs.blockGroupsCount < getGroupIndexFromInode fs inodeIndex :=
  lt_asymm (inodeLocation_inInodeTable wf hindex).1

/-- The slots of a group follow each other from the start of its table on. -/
theorem inodeAddr_eq :
    fs.inodeAddr inodeIndex =
      Group.inodeTable fs.blockGroups (getGroupIndexFromInode fs inodeIndex) * fs.blockSize +
        getInodeOffsetInGroup fs inodeIndex * inodeSize fs.superblock := by
  have hge := wf.inodeSize_ge
  have hpos : 0 < inodeSize fs.superblock := lt_of_lt_of_le (by decide) hge
  have hoffset : getInodeOffsetInGroup fs inodeIndex < inodesPerGroup fs.superblock :=
    mod_lt _ wf.inodesPerGroup_pos
  have hbytes := mul_lt_mul_of_pos_right hoffset hpos
  have htable := wf.inodeTable_le
  obtain ⟨slots, hslots⟩ := wf.inodeSize_dvd
  have hcount : fs.inodesPerBlockCount = slots := by
    rw [wf.inodesPerBlock, hslots, Nat.mul_div_cancel_left _ hpos]
  have hblock : getBlockIndexFromInodeOffset fs (getInodeOffsetInGroup fs inodeIndex) =
      getInodeOffsetInGroup fs inodeIndex / slots := by
    rw [getBlockIndexFromInodeOffset, u32_of_lt (by omega), hslots, mul_comm,
      Nat.mul_div_mul_left _ _ hpos]
  have hlocation := inodeLocation_fst wf hindex
  have hsecond : (inodeLocation fs inodeIndex).2 =
      getInodeOffsetInGroup fs inodeIndex % slots * inodeSize fs.superblock := by
    rw [← hcount]
    rfl
  rw [Fs.inodeAddr, hlocation, hblock, hsecond, add_mul, add_assoc]
  refine add_left_cancel_iff.mpr ?_
  conv_rhs => rw [← div_add_mod' (getInodeOffsetInGroup fs inodeIndex) slots]
  rw [hslots, add_mul, mul_assoc, mul_comm slots]

end

/-- The bytes of different inodes lie apart. -/
theorem inodeAddr_apart {j x y : Nat} (wf : Tabled fs) (hindex : fs.ValidInode inodeIndex)
    (hj : fs.ValidInode j) (hne : j ≠ inodeIndex) (hx : x < inodeStructSize)
    (hy : y < inodeStructSize) :
    fs.inodeAddr j + x ≠ fs.inodeAddr inodeIndex + y := by
  intro heq
  obtain ⟨hgroup, hin⟩ := inodeLocation_inInodeTable wf.toAddressed hindex
  obtain ⟨hgroup', hin'⟩ := inodeLocation_inInodeTable wf.toAddressed hj
  have hblock : (inodeLocation fs j).1 = (inodeLocation fs inodeIndex).1 := by
    rw [← (inodeAddr_split wf.toWellFormed j hx).1, heq,
      (inodeAddr_split wf.toWellFormed inodeIndex hy).1]
  have hsame := wf.tables_apart _ hgroup' _ hgroup _ (hblock ▸ hin') hin
  -- in one table the slots are a multiple of the slot size apart
  have hge := wf.inodeSize_ge
  rw [inodeAddr_eq wf.toAddressed hindex, inodeAddr_eq wf.toAddressed hj, hsame] at heq
  have hoffset : getInodeOffsetInGroup fs j = getInodeOffsetInGroup fs inodeIndex := by
    refine Nat.le_antisymm (Nat.le_of_not_lt fun hlt => ?_) (Nat.le_of_not_lt fun hlt => ?_)
    all_goals
      have hmul := mul_le_mul_right (inodeSize fs.superblock) (succ_le_of_lt hlt)
      rw [succ_mul] at hmul
      omega
  have hinodes := wf.inodes_lt
  obtain ⟨hpos, hle⟩ := hindex
  obtain ⟨hpos', hle'⟩ := hj
  have hpred : sub32 inodeIndex 1 = inodeIndex - 1 := sub32_of_le (by omega) hpos
  have hpred' : sub32 j 1 = j - 1 := sub32_of_le (by omega) hpos'
  rw [getInodeOffsetInGroup, getInodeOffsetInGroup, hpred, hpred'] at hoffset
  rw [getGroupIndexFromInode, getGroupIndexFromInode, hpred, hpred'] at hsame
  have hsplit := div_add_mod (inodeIndex - 1) (inodesPerGroup fs.superblock)
  rw [← hsame, ← hoffset, div_add_mod] at hsplit
  omega

end

section

variable {fs : Fs} {inodeIndex : Nat}

theorem readInode_eq (wf : Addressed fs) (hindex : fs.ValidInode inodeIndex)
    (disk buffer : Bytes) :
    readInode { fs with disk := disk } buffer inodeIndex =
      (0, buffer.blit 0 disk (fs.inodeAddr inodeIndex) inodeStructSize) := by
  obtain ⟨hblock, hlt⟩ := inodeLocation_valid wf hindex
  have hle := inodeLocation_offset wf.toWellFormed inodeIndex
  have hread := (@readBlock_spec { fs with disk := disk } _ zeroed hblock hlt).2
  have hgroup : ¬fs.blockGroupsCount < getGroupIndexFromInode { fs with disk := disk } inodeIndex :=
    not_lt_group wf hindex
  have hlocation : inodeLocation { fs with disk := disk } inodeIndex =
    inodeLocation fs inodeIndex := rfl
  rw [readInode, if_neg (ne_of_gt hindex.1), if_neg hgroup, hlocation, Fs.inodeAddr]
  generalize inodeLocation fs inodeIndex = location at *
  obtain ⟨block, offset⟩ := location
  dsimp only at *
  generalize readBlock { fs with disk := disk } block zeroed = cache at *
  refine congrArg (Prod.mk 0) (blit_congr fun x hx => ?_)
  rw [hread _ (by omega), Fs.block, add_assoc]

theorem writeInode_eq_blit (wf : Addressed fs) (hindex : fs.ValidInode inodeIndex)
    (inode : Bytes) :
    writeInode fs inode inodeIndex =
      (0, { fs with disk := fs.disk.blit (fs.inodeAddr inodeIndex) inode 0 inodeStructSize }) := by
  obtain ⟨hblock, hlt⟩ := inodeLocation_valid wf hindex
  have hle := inodeLocation_offset wf.toWellFormed inodeIndex
  have hread := (readBlock_spec zeroed hblock hlt).2
  have hbounds := wf.blockSize_bounds
  have hsize : 0 < fs.blockSize := by omega
  have hsplit := fun x hx => @inodeAddr_split fs wf.toWellFormed inodeIndex x hx
  rw [writeInode, if_neg (ne_of_gt hindex.1), if_neg (not_lt_group wf hindex)]
  rw [Fs.inodeAddr] at hsplit ⊢
  generalize inodeLocation fs inodeIndex = location at *
  obtain ⟨block, offset⟩ := location
  dsimp only at *
  rw [writeBlock_eq]
  refine congrArg (fun disk => ((0 : Int), { fs with disk := disk })) (funext fun a => ?_)
  rw [writeBlock_disk hsize hblock hlt]
  by_cases hmem : block * fs.blockSize + offset ≤ a ∧
    a < block * fs.blockSize + offset + inodeStructSize
  · -- the byte is one of the inode
    obtain ⟨x, rfl⟩ := Nat.exists_eq_add_of_le hmem.1
    obtain ⟨hdiv, hmod⟩ := hsplit x (by omega)
    rw [blit_of_mem hmem.1 hmem.2, if_pos hdiv, hmod, blit_of_mem (le_add_right _ _) (by omega)]
    simp
  · rw [@blit_of_notMem fs.disk inode _ 0 inodeStructSize a (by omega)]
    split
    · -- another byte of the block has been read before
      rename_i hin
      have hmod := mod_lt a hsize
      have hsum := div_add_mod' a fs.blockSize
      rw [hin] at hsum
      rw [blit_of_notMem (by omega), hread _ hmod, Fs.block, hsum]
    · rfl

end

/-- Reading an inode gives what was written, and nothing else than this inode has
changed; other numbers are rejected. -/
structure InodeStored (fs : Fs) (inodeIndex : Nat) : Prop where
  round_trip : fs.ValidInode inodeIndex → ∀ inode, (writeInode fs inode inodeIndex).1 = 0 ∧
    ∀ buffer, readInode (writeInode fs inode inodeIndex).2 buffer inodeIndex =
      (0, buffer.blit 0 inode 0 inodeStructSize)
  others : fs.ValidInode inodeIndex → ∀ inode j, fs.ValidInode j → j ≠ inodeIndex → ∀ buffer,
    readInode (writeInode fs inode inodeIndex).2 buffer j = readInode fs buffer j
  blocks : fs.ValidInode inodeIndex → ∀ inode b, (∀ g < fs.blockGroupsCount, ¬fs.InInodeTable g b) →
    ∀ x < fs.blockSize, (writeInode fs inode inodeIndex).2.block b x = fs.block b x
  rejected : ¬fs.ValidInode inodeIndex → ∀ inode, readInode fs inode inodeIndex = (-1, inode) ∧
    writeInode fs inode inodeIndex = (-1, fs)

variable {fs : Fs} {inodeIndex : Nat}

section

variable (wf : Tabled fs) (hindex : fs.ValidInode inodeIndex)
include wf hindex

theorem Tabled.inode_round_trip (inode buffer : Bytes) :
    readInode (writeInode fs inode inodeIndex).2 buffer inodeIndex =
      (0, buffer.blit 0 inode 0 inodeStructSize) := by
  rw [writeInode_eq_blit wf.toAddressed hindex, readInode_eq wf.toAddressed hindex]
  refine congrArg (Prod.mk 0) (blit_congr fun x hx => ?_)
  rw [blit_of_mem (le_add_right _ _) (by omega)]
  simp

theorem Tabled.other_inode (inode : Bytes) {j : Nat}
    (hj : fs.ValidInode j) (hne : j ≠ inodeIndex) (buffer : Bytes) :
    readInode (writeInode fs inode inodeIndex).2 buffer j = readInode fs buffer j := by
  rw [writeInode_eq_blit wf.toAddressed hindex, readInode_eq wf.toAddressed hj]
  refine Eq.trans ?_ (readInode_eq wf.toAddressed hj fs.disk buffer).symm
  refine congrArg (Prod.mk 0) (blit_congr fun x hx => blit_of_notMem ?_)
  by_contra hmem
  refine inodeAddr_apart wf hindex hj hne hx
    (y := fs.inodeAddr j + x - fs.inodeAddr inodeIndex) (by omega) (by omega)

theorem Tabled.other_block (inode : Bytes) {b x : Nat}
    (hb : ∀ g < fs.blockGroupsCount, ¬fs.InInodeTable g b) (hx : x < fs.blockSize) :
    (writeInode fs inode inodeIndex).2.block b x = fs.block b x := by
  obtain ⟨hgroup, hin⟩ := inodeLocation_inInodeTable wf.toAddressed hindex
  have hblock : ∀ disk : Bytes, ({ fs with disk := disk } : Fs).block b x =
    disk (b * fs.blockSize + x) :=
    fun _ => rfl
  rw [writeInode_eq_blit wf.toAddressed hindex, hblock, blit_of_notMem, Fs.block]
  by_contra hmem
  have hsplit := (inodeAddr_split wf.toWellFormed inodeIndex
    (x := b * fs.blockSize + x - fs.inodeAddr inodeIndex) (by omega)).1
  rw [add_sub_of_le (by omega), addr_div hx] at hsplit
  exact hb _ hgroup (hsplit ▸ hin)

end

/-- The group of a number that is not zero, by the first and the last number in it. -/
theorem getGroupIndex_eq_iff (wf : WellFormed fs) (hpos : 0 < inodeIndex)
    (hlt : inodeIndex < 2 ^ 32) {g : Nat} :
    getGroupIndexFromInode fs inodeIndex = g ↔
      g * inodesPerGroup fs.superblock < inodeIndex ∧
        inodeIndex ≤ (g + 1) * inodesPerGroup fs.superblock := by
  have hpred : sub32 inodeIndex 1 = inodeIndex - 1 := sub32_of_le hlt hpos
  rw [getGroupIndexFromInode, hpred, Nat.div_eq_iff wf.inodesPerGroup_pos, succ_mul]
  have hper := wf.inodesPerGroup_pos
  omega

/-- Below 4 GiB an inode number is either stored and found again, or rejected, exactly when
it is not one of the numbers of the group that would follow the last one. -/
theorem inode_stored_iff (wf : WellFormed fs) (hbelow : fs.Below4G) (hapart : fs.TablesApart)
    (hlt : inodeIndex < 2 ^ 32) :
    InodeStored fs inodeIndex ↔ ¬(fs.blockGroupsCount * inodesPerGroup fs.superblock < inodeIndex ∧
        inodeIndex ≤ (fs.blockGroupsCount + 1) * inodesPerGroup fs.superblock) := by
  have tabled : Tabled fs := ⟨⟨wf, hbelow⟩, hapart⟩
  constructor
  · rintro h ⟨hbeyond, hlast⟩
    have hpos : 0 < inodeIndex := zero_lt_of_lt hbeyond
    have hgroup := (getGroupIndex_eq_iff wf hpos hlt).mpr ⟨hbeyond, hlast⟩
    have hret := congrArg Prod.fst (h.rejected
      (fun hvalid => Nat.not_lt.mpr hvalid.2 hbeyond) zeroed).2
    rw [(writeInode_eq (Nat.ne_of_gt hpos) (hgroup ▸ Nat.lt_irrefl _) zeroed).1] at hret
    cases hret
  · intro hout
    refine ⟨fun hindex inode => ⟨?_, tabled.inode_round_trip hindex inode⟩,
      fun hindex inode j hj hne buffer => tabled.other_inode hindex inode hj hne buffer,
      fun hindex inode b hb x hx => tabled.other_block hindex inode hb hx, fun hinvalid inode => ?_⟩
    · rw [writeInode_eq_blit tabled.toAddressed hindex]
    · rw [readInode, writeInode]
      by_cases hzero : inodeIndex = 0
      · rw [if_pos hzero, if_pos hzero]
        simp
      · have hpos := Nat.pos_of_ne_zero hzero
        have hbeyond : fs.blockGroupsCount < getGroupIndexFromInode fs inodeIndex := by
          have hspan := (getGroupIndex_eq_iff wf hpos hlt).mp rfl
          by_contra hle
          obtain heq | hless := Nat.eq_or_lt_of_le (Nat.le_of_not_lt hle)
          · exact hout (heq ▸ hspan)
          · refine hinvalid ⟨hpos, hspan.2.trans ?_⟩
            exact Nat.mul_le_mul_right _ (succ_le_of_lt hless)
        rw [if_neg hzero, if_pos hbeyond, if_neg hzero, if_pos hbeyond]
        simp

theorem tiny_tablesApart {small : Bool} : (tiny small).TablesApart := by
  intro g hg g' hg' b hb hb'
  have htables : ∀ g < 2, ∀ g' < 2, Group.inodeTable (tiny small).blockGroups g =
      Group.inodeTable (tiny small).blockGroups g' → g = g' := by
    cases small <;> decide
  have hsame := (tiny_eq_of_inInodeTable hb).symm.trans (tiny_eq_of_inInodeTable hb')
  exact htables g hg g' hg' hsame

/-- The first inode of the second group. -/
theorem inode_stored_nine : InodeStored (tiny true) 9 :=
  (inode_stored_iff tiny_wellFormed tiny_below4G tiny_tablesApart (by decide)).mpr (by decide)

/-- The file system has sixteen inodes. Number seventeen is read and written all the
same, in the block that the bytes behind the last descriptor name. -/
theorem inode_behind_last_group : (readInode (tiny true) zeroed 17).1 = 0 ∧
    (writeInode (tiny true) zeroed 17).1 = 0 ∧ ¬(tiny true).ValidInode 17 ∧
      ¬InodeStored (tiny true) 17 := by
  have hread : (readInode (tiny true) zeroed 17).1 = 0 := rfl
  have hwrite : (writeInode (tiny true) zeroed 17).1 = 0 := rfl
  have hinvalid : ¬(tiny true).ValidInode 17 := fun h => absurd h.2 (by decide)
  refine ⟨hread, hwrite, hinvalid, fun h => ?_⟩
  have hret := congrArg Prod.fst (h.rejected hinvalid zeroed).1
  rw [hread] at hret
  cases hret

end Hos.Ext2
