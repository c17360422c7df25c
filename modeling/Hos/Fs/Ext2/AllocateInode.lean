import Hos.Fs.Ext2.AllocateBlock

/-!
# Allocation of inodes

Without a preferred group, `ext2_allocate_inode` scans the groups as the block
allocator does. With one, it searches a cleared buffer instead of the group's
bitmap: it always finds bit zero, and then writes the buffer, with that bit set,
over the bitmap. What this leaves on the device is compared below with the
bitmap that ought to be there.
-/

namespace Hos.Ext2

open Bytes Bool

variable {fs fs' : Fs} {g i r preferredGroup : Nat} {cache : Bytes}

/-- The bits that the scan considers: in group 0 those below `first_ino` are skipped. -/
def Fs.Eligible (fs : Fs) (g i : Nat) : Prop :=
  i < inodesPerGroup fs.superblock ∧ ¬(g = 0 ∧ i < firstIno fs.superblock)

/-- The first clear bit that the scan considers. -/
structure Fs.FirstClearInode (fs : Fs) (g i : Nat) : Prop where
  group_lt : g < fs.blockGroupsCount
  eligible : fs.Eligible g i
  clear : fs.inodeBit g i = false
  earlier : ∀ g' i', fs.Eligible g' i' → g' < g ∨ g' = g ∧ i' < i → fs.inodeBit g' i' = true

theorem Fs.FirstClearInode.unique {g' i' : Nat} (h : fs.FirstClearInode g i)
    (h' : fs.FirstClearInode g' i') : g = g' ∧ i = i' := by
  have hnot : ¬(g < g' ∨ g = g' ∧ i < i') := fun hlt =>
    false_ne_true (h.clear.symm.trans (h'.earlier g i h.eligible hlt))
  have hnot' : ¬(g' < g ∨ g' = g ∧ i' < i) := fun hlt =>
    false_ne_true (h'.clear.symm.trans (h.earlier g' i' h'.eligible hlt))
  omega

/-- The inode bitmap of group `g'` on the device after bit `i` of group `g` has
been set in `cache` and committed. -/
def Fs.storedInodeBitmap (fs : Fs) (g i : Nat) (cache : Bytes) (g' : Nat) : Bytes := fun x =>
  if fs.IsTail (Group.inodeBitmap fs.blockGroups g') then
    fs.blockGroups ((Group.inodeBitmap fs.blockGroups g' - fs.bgdtStartBlock) * fs.blockSize + x)
  else if g' = g then setBitmapBit cache i true x
  else fs.block (Group.inodeBitmap fs.blockGroups g') x

/-- The bitmap that group `g'` ought to have then. -/
def Fs.takenInodeBitmap (fs : Fs) (g i g' : Nat) : Bytes :=
  if g' = g then setBitmapBit (fs.block (Group.inodeBitmap fs.blockGroups g)) i true
  else fs.block (Group.inodeBitmap fs.blockGroups g')

/-- The state after `ext2_allocate_inode` has committed `cache` for group `g`. -/
def Fs.takenInode (fs : Fs) (g i : Nat) (cache : Bytes) : Fs :=
  fs.withImages
    (fs.commitDisk (Group.inodeBitmap fs.blockGroups g) (setBitmapBit cache i true)
      (fs.takenGroups 14 g) (fs.takenTotal 16))
    (fs.takenGroups 14 g) (fs.takenTotal 16)

/-- Bit `i` of group `g` stands for the inode `r`, which is not reserved and was
free; it is the one bit that changes, and the counters remain exact. -/
structure TakesInode (fs : Fs) (r g i : Nat) (fs' : Fs) : Prop where
  group_lt : g < fs.blockGroupsCount
  index_lt : i < inodesPerGroup fs.superblock
  number : r = g * inodesPerGroup fs.superblock + i + 1
  unreserved : firstIno fs.superblock ≤ r
  clear : fs.inodeBit g i = false
  bits : ∀ g' < fs.blockGroupsCount, ∀ i' < 8 * fs.blockSize,
    fs'.inodeBit g' i' = (fs.inodeBit g' i' || (g' == g && i' == i))
  counts : fs'.InodeCounts

/-- Inode `r` was free and has been allocated in `fs'`. -/
def InodeAllocated (fs : Fs) (r : Nat) (fs' : Fs) : Prop := ∃ g i, TakesInode fs r g i fs'

theorem takenInode_block (i : Nat) (cache : Bytes) (wf : WellFormed fs)
    (hg : g < fs.blockGroupsCount) {g' x : Nat} (hg' : g' < fs.blockGroupsCount)
    (hx : x < fs.blockSize) :
    (fs.takenInode g i cache).block (Group.inodeBitmap fs.blockGroups g') x =
      fs.storedInodeBitmap g i cache g' x := by
  have hco := countersOnly_takenInode hg
  obtain ⟨hsb, htable⟩ := (wf.inodeBitmap_valid g' hg').2.2 _ (addr_div hx)
  refine (commitDisk_of_clear wf hco (wf.inodeBitmap_valid g hg).2.2 hsb htable).trans ?_
  rw [addr_div hx, addr_mod hx, Fs.storedInodeBitmap]
  by_cases htail : fs.IsTail (Group.inodeBitmap fs.blockGroups g')
  · have hle := Nat.mul_le_mul_right fs.blockSize htail.1.1
    rw [if_pos htail, if_pos htail, Nat.sub_mul, Nat.sub_add_comm hle]
  · rw [if_neg htail, if_neg htail]
    by_cases hgg : g' = g
    · rw [if_pos hgg, if_pos (congrArg _ hgg)]
    · rw [if_neg hgg, if_neg fun heq => hgg (wf.inodeBitmap_inj g' hg' g hg heq), Fs.block]

theorem bit_takenInodeBitmap (g' j : Nat) :
    (fs.takenInodeBitmap g i g').bit j = (fs.inodeBit g' j || (g' == g && j == i)) := by
  by_cases hgg : g' = g
  · subst hgg
    rw [Fs.takenInodeBitmap, if_pos rfl, setBitmapBit, bit_setBit, Fs.inodeBit]
    by_cases hji : j = i <;> simp [hji]
  · rw [Fs.takenInodeBitmap, if_neg hgg, Fs.inodeBit, beq_false_of_ne hgg, Bool.false_and,
      Bool.or_false]

/-- The inode bitmaps of the committed state are the stored ones. -/
theorem takenInode_inodeBit (wf : WellFormed fs) (hg : g < fs.blockGroupsCount) {g' j : Nat}
    (hg' : g' < fs.blockGroupsCount) (hj : j < 8 * fs.blockSize) :
    (fs.takenInode g i cache).inodeBit g' j = (fs.storedInodeBitmap g i cache g').bit j := by
  have hco := countersOnly_takenInode hg
  have hx : j / 8 < fs.blockSize := by omega
  have hbit := bit_congr (takenInode_block i cache wf hg hg' hx)
  simpa only [Fs.inodeBit, Fs.takenInode, Fs.withImages, hco.inodeBitmap] using hbit

/-- A commit for a group of the file system is correct exactly when the bit was
clear and every inode bitmap is stored as it ought to be. -/
theorem inodeAllocated_takenInode_iff (wf : WellFormed fs) (hg : g < fs.blockGroupsCount)
    (hi : i < inodesPerGroup fs.superblock) :
    InodeAllocated fs (g * inodesPerGroup fs.superblock + i + 1) (fs.takenInode g i cache) ↔
      fs.inodeBit g i = false ∧ ∀ g' < fs.blockGroupsCount, ∀ x < fs.blockSize,
        fs.storedInodeBitmap g i cache g' x = fs.takenInodeBitmap g i g' x := by
  have hco := countersOnly_takenInode hg
  constructor
  · rintro ⟨g₁, i₁, htakes⟩
    have hnumber := Nat.succ.inj htakes.number
    have hgroup := congrArg (· / inodesPerGroup fs.superblock) hnumber
    have hindex := congrArg (· % inodesPerGroup fs.superblock) hnumber
    simp only [addr_div hi, addr_div htakes.index_lt] at hgroup
    simp only [addr_mod hi, addr_mod htakes.index_lt] at hindex
    subst hgroup hindex
    refine ⟨htakes.clear, ?_⟩
    intro g' hg' x hx
    refine eq_of_bits fun j hj => ?_
    rw [bit_takenInodeBitmap, ← takenInode_inodeBit wf hg hg' (by omega)]
    exact htakes.bits g' hg' _ (by omega)
  · rintro ⟨hclear, hstored⟩
    have hbits : ∀ g' < fs.blockGroupsCount, ∀ j < 8 * fs.blockSize,
        (fs.takenInode g i cache).inodeBit g' j = (fs.inodeBit g' j || (g' == g && j == i)) := by
      intro g' hg' j hj
      rw [takenInode_inodeBit wf hg hg' hj, ← bit_takenInodeBitmap]
      exact bit_congr (hstored g' hg' (j / 8) (by omega))
    have hcounts : (fs.takenInode g i cache).Counts 14 16 (inodesPerGroup fs.superblock)
        (fs.takenInode g i cache).inodeBit := by
      refine wf.inodeCounts.take (commitDisk_synced wf hco _ _) (by decide) (by decide) hg hi
        hclear fun g' hg' j hj => ?_
      exact hbits g' hg' j (Nat.lt_of_lt_of_le hj wf.inodesPerGroup_le)
    have hper : inodesPerGroup (fs.takenInode g i cache).superblock =
        inodesPerGroup fs.superblock := hco.inodesPerGroup
    refine ⟨g, i, hg, hi, rfl, ?_, hclear, hbits, by rwa [Fs.InodeCounts, hper]⟩
    by_contra hreserved
    have hset := wf.reserved_used g hg i hi (by omega)
    exact false_ne_true (hclear.symm.trans hset)

section

theorem Addressed.inodeBitmap_readable (wf : Addressed fs) (hg : g < fs.blockGroupsCount) :
    Group.inodeBitmap fs.blockGroups g ≠ 0 ∧
      Group.inodeBitmap fs.blockGroups g * fs.blockSize < 2 ^ 32 := by
  obtain ⟨hpos, hlt, _⟩ := wf.inodeBitmap_valid g hg
  exact ⟨Nat.ne_of_gt hpos, wf.offset_lt hlt⟩

theorem findFreeInode_eq_some (wf : Addressed fs)
    (h : findFreeInode fs zeroed 0 = some (g, i, cache)) :
    fs.FirstClearInode g i ∧
      ∀ x < fs.blockSize, cache x = fs.block (Group.inodeBitmap fs.blockGroups g) x := by
  have hscan := scanGroups_searchClear wf.inodesPerGroup_le (fun _ => wf.inodeBitmap_readable)
    wf.inodeCounts.group (fun g i => (g == 0) && decide (i < firstIno fs.superblock)) zeroed
  have hconsidered : ∀ g i, ((g == 0) && decide (i < firstIno fs.superblock)) = false ↔
      ¬(g = 0 ∧ i < firstIno fs.superblock) := fun g i => by
    simp
  have hrun : scanGroups fs (fun g => fs.blockGroups.load16 (groupDescriptorSize * g + 14))
      (Group.inodeBitmap fs.blockGroups)
      (searchClear (inodesPerGroup fs.superblock) fun g i =>
        (g == 0) && decide (i < firstIno fs.superblock))
      (List.range fs.blockGroupsCount) zeroed = some (g, i, cache) := h
  rw [hrun] at hscan
  obtain ⟨⟨hg, hi, hskip, hclear⟩, hcached, hearlier⟩ := hscan
  refine ⟨⟨hg, ⟨hi, (hconsidered g i).mp hskip⟩, hclear, fun g' i' hi' => ?_⟩, hcached⟩
  exact hearlier g' i' hi'.1 ((hconsidered g' i').mpr hi'.2)

/-- A preferred group is answered from the cleared buffer. -/
theorem findFreeInode_preferred (geo : Geometry fs) (h : preferredGroup ≠ 0) :
    findFreeInode fs zeroed preferredGroup = some (preferredGroup, 0, zeroed) := by
  have hfound : findFreeInodeInGroup fs zeroed (preferredGroup == 0) = some 0 := by
    refine firstBelow_eq_some_iff.mpr ⟨geo.inodesPerGroup_pos, ?_, fun j hj => absurd hj (by omega)⟩
    simp [h, checkBitmapBit, bit, zeroed]
  simp only [findFreeInode, hfound]
  rw [if_pos h]

end

theorem allocateInode_of_some (h : findFreeInode fs zeroed preferredGroup = some (g, i, cache)) :
    allocateInode fs preferredGroup = (u32 (u32 (g * inodesPerGroup fs.superblock) + i + 1),
        commit fs (Group.inodeBitmap fs.blockGroups g) (setBitmapBit cache i true)
          (fs.takenGroups 14 g) (fs.takenTotal 16)) := by
  simp only [allocateInode, h, commit, writeBlock_blockGroups, writeBgdt_superblock,
    writeBlock_superblock]
  rfl

theorem allocateInode_eq (wf : Addressed fs) (hg : g < fs.blockGroupsCount)
    (hi : i < inodesPerGroup fs.superblock)
    (h : findFreeInode fs zeroed preferredGroup = some (g, i, cache)) :
    allocateInode fs preferredGroup =
      (g * inodesPerGroup fs.superblock + i + 1, fs.takenInode g i cache) := by
  have hlt : g * inodesPerGroup fs.superblock + i + 1 < 2 ^ 32 := by
    have hmul := Nat.mul_le_mul_right (inodesPerGroup fs.superblock) (Nat.succ_le_of_lt hg)
    rw [Nat.succ_mul] at hmul
    have hinodes := wf.inodes_lt
    omega
  have hindex : u32 (u32 (g * inodesPerGroup fs.superblock) + i + 1) =
      g * inodesPerGroup fs.superblock + i + 1 := by
    rw [u32_of_lt (show g * inodesPerGroup fs.superblock < 2 ^ 32 by omega), u32_of_lt hlt]
  obtain ⟨hpos, hbitmap, _⟩ := wf.inodeBitmap_valid g hg
  rw [allocateInode_of_some h, hindex,
    commit_eq wf.toGeometry wf.below4G (Nat.ne_of_gt hpos) hbitmap, Fs.takenInode]

/-- A group that does not exist: no counter of the file system is decremented
for the bit that would have to be taken. -/
theorem not_inodeAllocated_of_le (wf : WellFormed fs) (hg : fs.blockGroupsCount ≤ g)
    {disk : Bytes} :
    ¬InodeAllocated fs r (fs.withImages disk (fs.takenGroups 14 g) (fs.takenTotal 16)) := by
  rintro ⟨g', i', htakes⟩
  have hold := wf.inodeCounts.group g' htakes.group_lt
  have hnew := htakes.counts.group g' htakes.group_lt
  have hper : inodesPerGroup (fs.takenTotal 16) = inodesPerGroup fs.superblock :=
    load32_store32_of_sep (by decide)
  have hsame : (fs.takenGroups 14 g).load16 (groupDescriptorSize * g' + 14) =
      fs.blockGroups.load16 (groupDescriptorSize * g' + 14) := by
    refine load16_store16_of_sep (Or.inr ?_)
    have := htakes.group_lt
    simp only [groupDescriptorSize]
    omega
  have hdrop : clearCount ((fs.withImages disk (fs.takenGroups 14 g) (fs.takenTotal 16)).inodeBit
      g') (inodesPerGroup fs.superblock) + 1 =
        clearCount (fs.inodeBit g') (inodesPerGroup fs.superblock) := by
    refine clearCount_take htakes.index_lt htakes.clear fun j hj => ?_
    have hbit := htakes.bits g' htakes.group_lt j (Nat.lt_of_lt_of_le hj wf.inodesPerGroup_le)
    rwa [beq_self_eq_true, Bool.true_and] at hbit
  simp only [Fs.withImages, hper, hsame] at hnew hdrop
  omega

/-- The stale image of the block behind the descriptors holds the inode bitmap
that ought to be there, if there is one. -/
def Fs.InodeTailKept (fs : Fs) (g i : Nat) : Prop :=
  ∀ g' < fs.blockGroupsCount, fs.IsTail (Group.inodeBitmap fs.blockGroups g') →
    ∀ x < fs.blockSize, fs.blockGroups ((Group.inodeBitmap fs.blockGroups g' - fs.bgdtStartBlock) *
      fs.blockSize + x) = fs.takenInodeBitmap g i g' x

theorem stored_eq_taken_iff (hg : g < fs.blockGroupsCount) :
    (∀ g' < fs.blockGroupsCount, ∀ x < fs.blockSize,
        fs.storedInodeBitmap g i cache g' x = fs.takenInodeBitmap g i g' x) ↔
      fs.InodeTailKept g i ∧ (¬fs.IsTail (Group.inodeBitmap fs.blockGroups g) → ∀ x < fs.blockSize,
          setBitmapBit cache i true x = fs.takenInodeBitmap g i g x) := by
  constructor
  · intro h
    refine ⟨?_, ?_⟩
    · intro g' hg' htail x hx
      have hstored := h g' hg' x hx
      rwa [Fs.storedInodeBitmap, if_pos htail] at hstored
    · intro htail x hx
      have hstored := h g hg x hx
      rwa [Fs.storedInodeBitmap, if_neg htail, if_pos rfl] at hstored
  · rintro ⟨hkept, hcache⟩ g' hg' x hx
    rw [Fs.storedInodeBitmap]
    by_cases htail : fs.IsTail (Group.inodeBitmap fs.blockGroups g')
    · rw [if_pos htail, hkept g' hg' htail x hx]
    · rw [if_neg htail]
      by_cases hgg : g' = g
      · subst hgg
        rw [if_pos rfl, hcache htail x hx]
      · rw [if_neg hgg, Fs.takenInodeBitmap, if_neg hgg]

/-- Setting bit zero of a cleared buffer gives the right bitmap only for a group
without any inode in use. -/
theorem setBit_zeroed_iff (hclear : fs.inodeBit g 0 = false) :
    (∀ x < fs.blockSize, setBitmapBit zeroed 0 true x = fs.takenInodeBitmap g 0 g x) ↔
      ∀ j < 8 * fs.blockSize, fs.inodeBit g j = false := by
  have hzero : ∀ j, (setBitmapBit zeroed 0 true).bit j = (j == 0) := by
    intro j
    rw [setBitmapBit, bit_setBit]
    by_cases hj : j = 0 <;> simp [hj, bit, zeroed]
  constructor
  · intro h j hj
    have hbit := bit_congr (h (j / 8) (by omega))
    rw [hzero, bit_takenInodeBitmap, beq_self_eq_true, Bool.true_and] at hbit
    by_cases hj0 : j = 0
    · rw [hj0, hclear]
    · rwa [beq_false_of_ne hj0, Bool.or_false, eq_comm] at hbit
  · intro h x hx
    refine eq_of_bits fun j hj => ?_
    rw [hzero, bit_takenInodeBitmap, h _ (by omega), beq_self_eq_true, Bool.true_and, Bool.false_or]

/-- Below 4 GiB, `ext2_allocate_inode` is correct without a preferred group; with one it
is correct only when no inode of that group is in use. In both cases the block
behind the descriptors must not be reverted by its stale image. -/
theorem allocateInode_correct_iff (wf : WellFormed fs) (hbelow : fs.Below4G)
    (h : allocateInode fs preferredGroup = (r, fs')) (hr : r ≠ 0) :
    InodeAllocated fs r fs' ↔ (preferredGroup = 0 ∧ ∀ g i, fs.FirstClearInode g i →
      fs.InodeTailKept g i) ∨ (preferredGroup ≠ 0 ∧ preferredGroup < fs.blockGroupsCount ∧
        fs.inodeBit preferredGroup 0 = false ∧ fs.InodeTailKept preferredGroup 0 ∧
        (¬fs.IsTail (Group.inodeBitmap fs.blockGroups preferredGroup) →
          ∀ j < 8 * fs.blockSize, fs.inodeBit preferredGroup j = false)) := by
  by_cases hpref : preferredGroup = 0
  · subst hpref
    cases hfind : findFreeInode fs zeroed 0 with
    | none =>
      simp only [allocateInode, hfind, Prod.mk.injEq] at h
      omega
    | some hit =>
      obtain ⟨g, i, cache⟩ := hit
      obtain ⟨hfirst, hcache⟩ := findFreeInode_eq_some ⟨wf, hbelow⟩ hfind
      rw [allocateInode_eq ⟨wf, hbelow⟩ hfirst.group_lt hfirst.eligible.1 hfind, Prod.mk.injEq] at h
      obtain ⟨rfl, rfl⟩ := h
      have hloaded : ∀ x < fs.blockSize,
          setBitmapBit cache i true x = fs.takenInodeBitmap g i g x := fun x hx => by
        rw [Fs.takenInodeBitmap, if_pos rfl, setBitmapBit, setBitmapBit, setBit_congr (hcache x hx)]
      rw [inodeAllocated_takenInode_iff wf hfirst.group_lt hfirst.eligible.1,
        stored_eq_taken_iff hfirst.group_lt]
      constructor
      · rintro ⟨_, hkept, _⟩
        refine Or.inl ⟨rfl, fun g' i' hfirst' => ?_⟩
        obtain ⟨rfl, rfl⟩ := hfirst.unique hfirst'
        exact hkept
      · rintro (⟨_, hkept⟩ | ⟨hne, _⟩)
        · exact ⟨hfirst.clear, hkept g i hfirst, fun _ => hloaded⟩
        omega
  · have hfind := findFreeInode_preferred wf.toGeometry hpref
    by_cases hg : preferredGroup < fs.blockGroupsCount
    · rw [allocateInode_eq ⟨wf, hbelow⟩ hg wf.inodesPerGroup_pos hfind, Prod.mk.injEq] at h
      obtain ⟨rfl, rfl⟩ := h
      rw [inodeAllocated_takenInode_iff wf hg wf.inodesPerGroup_pos, stored_eq_taken_iff hg]
      constructor
      · rintro ⟨hclear, hkept, hbitmap⟩
        exact Or.inr ⟨hpref, hg, hclear, hkept, fun htail =>
          (setBit_zeroed_iff hclear).mp (hbitmap htail)⟩
      · rintro (⟨hzero, _⟩ | ⟨_, _, hclear, hkept, hempty⟩)
        · omega
        · exact ⟨hclear, hkept, fun htail => (setBit_zeroed_iff hclear).mpr (hempty htail)⟩
    · rw [allocateInode_of_some hfind, commit_images wf.toGeometry hbelow, Prod.mk.injEq] at h
      obtain ⟨_, rfl⟩ := h
      constructor
      · exact fun halloc => absurd halloc (not_inodeAllocated_of_le wf (Nat.le_of_not_lt hg))
      omega

theorem allocateInode_correct_tiny : InodeAllocated (tiny true) 11
    (allocateInode (tiny true) 0).2 :=
  (allocateInode_correct_iff tiny_wellFormed tiny_below4G (Prod.ext (by decide) rfl :
      allocateInode (tiny true) 0 = (11, (allocateInode (tiny true) 0).2)) (by decide)).mpr
    (Or.inl ⟨rfl, fun _ _ _ _ _ htail => absurd htail (tiny_not_isTail _)⟩)

/-- A preference for group 1 returns inode 9, which is reserved and in use. -/
theorem allocateInode_preferred_group :
    WellFormed (tiny true) ∧ (allocateInode (tiny true) 1).1 = 9 ∧ (tiny true).inodeBit 1 0 = true ∧
      ¬InodeAllocated (tiny true) 9 (allocateInode (tiny true) 1).2 := by
  refine ⟨tiny_wellFormed, by decide, by decide, ?_⟩
  rintro ⟨g, i, htakes⟩
  have hnumber : 9 = g * 8 + i + 1 := htakes.number
  have hindex : i < 8 := htakes.index_lt
  obtain ⟨rfl, rfl⟩ : g = 1 ∧ i = 0 := by omega
  cases htakes.clear

end Hos.Ext2
