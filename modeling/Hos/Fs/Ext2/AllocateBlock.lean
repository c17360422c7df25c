import Hos.Fs.Ext2.Commit

/-!
# Allocation of blocks

The scan of the groups returns the first clear bit of the first group whose
counter reports a free entry. `ext2_allocate_block` then takes the position of
that bit in the bitmaps for the number of the block: it never adds
`first_data_block`. It also rewrites the block behind the descriptors from a
stale image, when there is such a block. On file systems where neither matters,
an allocation leads from one well-formed state to another.
-/

namespace Hos.Ext2

open List Nat Bool Prod

open Bytes

section

variable {fs : Fs} {free bitmap : Nat → Nat} {search : Nat → Bytes → Option Nat}

/-- A search that depends on the bytes of one block only. -/
def Fs.SearchesBlock (fs : Fs) (search : Nat → Bytes → Option Nat) : Prop :=
  ∀ g m m', (∀ x < fs.blockSize, m x = m' x) → search g m = search g m'

/-- The first of the groups `gs` with a free entry in which the search succeeds,
with the bitmap of that group in the cache. -/
structure FirstHit (fs : Fs) (free bitmap : Nat → Nat) (search : Nat → Bytes → Option Nat)
    (gs : List Nat) (g i : Nat) (cache : Bytes) : Prop where
  mem : g ∈ gs
  free_pos : 0 < free g
  found : search g (fs.block (bitmap g)) = some i
  cached : ∀ x < fs.blockSize, cache x = fs.block (bitmap g) x
  earlier : ∀ g' ∈ gs, g' < g → 0 < free g' → search g' (fs.block (bitmap g')) = none

theorem FirstHit.cons {gs : List Nat} {g i head : Nat} {cache : Bytes}
    (h : FirstHit fs free bitmap search gs g i cache)
    (hskip : 0 < free head → search head (fs.block (bitmap head)) = none) :
    FirstHit fs free bitmap search (head :: gs) g i cache where
  mem := mem_cons_of_mem head h.mem
  free_pos := h.free_pos
  found := h.found
  cached := h.cached
  earlier := by
    intro g' hg' hlt hfree
    rcases mem_cons.mp hg' with rfl | htail
    · exact hskip hfree
    · exact h.earlier g' htail hlt hfree

theorem scanGroups_spec (free : Nat → Nat) (hsearch : fs.SearchesBlock search) {gs : List Nat}
    (hread : ∀ g ∈ gs, bitmap g ≠ 0 ∧ bitmap g * fs.blockSize < 2 ^ 32)
    (hsorted : gs.Pairwise (· < ·)) (cache : Bytes) :
    match scanGroups fs free bitmap search gs cache with
    | none => ∀ g ∈ gs, 0 < free g → search g (fs.block (bitmap g)) = none
    | some (g, i, cache') => FirstHit fs free bitmap search gs g i cache' := by
  induction gs generalizing cache with
  | nil => exact fun _ hg => absurd hg not_mem_nil
  | cons head gs ih =>
    obtain ⟨hhead, hrest⟩ := pairwise_cons.mp hsorted
    have hnext := ih (fun g hg => hread g (mem_cons_of_mem head hg)) hrest
    -- a group that is skipped leaves the scan of the others
    have hskip : (0 < free head → search head (fs.block (bitmap head)) = none) → ∀ cache,
        match scanGroups fs free bitmap search gs cache with
        | none => ∀ g ∈ head :: gs, 0 < free g → search g (fs.block (bitmap g)) = none
        | some (g, i, cache') => FirstHit fs free bitmap search (head :: gs) g i cache' := by
      intro hnone cache
      have hrun := hnext cache
      split at hrun
      · exact fun g hg => (mem_cons.mp hg).elim (fun heq => heq ▸ hnone) (hrun g)
      · exact hrun.cons hnone
    obtain ⟨hne, hlt⟩ := hread head mem_cons_self
    obtain ⟨hret, hblock⟩ := readBlock_spec cache hne hlt
    rw [scanGroups]
    by_cases hfree : 0 < free head
    · simp only [hret, hsearch head _ _ hblock]
      rw [if_pos hfree, if_neg (by omega)]
      cases hs : search head (fs.block (bitmap head)) with
      | none => exact hskip (fun _ => hs) _
      | some j =>
        refine ⟨mem_cons_self, hfree, hs, hblock, ?_⟩
        intro g' hg' hbefore _
        rcases mem_cons.mp hg' with rfl | htail
        · omega
        · exact absurd hbefore (lt_asymm (hhead g' htail))
    · rw [if_neg hfree]
      exact hskip (fun hpos => absurd hpos hfree) cache

/-- A search for a clear bit among those below `n` that are not skipped. -/
def searchClear (n : Nat) (skip : Nat → Nat → Bool) (g : Nat) (m : Bytes) : Option Nat :=
  firstBelow n fun i => !skip g i && !checkBitmapBit m i

variable {n count g i : Nat} {skip : Nat → Nat → Bool} {cache : Bytes}
  (hn : n ≤ 8 * fs.blockSize) (hread : ∀ g < count, bitmap g ≠ 0 ∧ bitmap g * fs.blockSize < 2 ^ 32)
  (hfree : ∀ g < count, free g = clearCount (fs.block (bitmap g)).bit n)

include hfree in
/-- A group without a free entry, or without a hit, has no clear bit to consider. -/
theorem bit_of_skipped (hg : g < count) (hskip : 0 < free g →
    searchClear n skip g (fs.block (bitmap g)) = none)
    (hi : i < n) (hconsidered : skip g i = false) : (fs.block (bitmap g)).bit i = true := by
  by_contra hclear
  rw [not_eq_true] at hclear
  have hcount : 0 < free g := lt_of_lt_of_eq (clearCount_pos_iff.mpr ⟨i, hi, hclear⟩)
    (hfree g hg).symm
  have hnone := firstBelow_eq_none_iff.mp (hskip hcount) i hi
  rw [hconsidered, checkBitmapBit, hclear] at hnone
  cases hnone

include hn hread hfree

/-- The scan finds the first clear bit of all groups that it considers. -/
theorem scanGroups_searchClear (skip : Nat → Nat → Bool) (cache : Bytes) :
    match scanGroups fs free bitmap (searchClear n skip) (List.range count) cache with
    | none => ∀ g < count, ∀ i < n, skip g i = false → (fs.block (bitmap g)).bit i = true
    | some (g, i, cache') =>
      (g < count ∧ i < n ∧ skip g i = false ∧ (fs.block (bitmap g)).bit i = false) ∧
        (∀ x < fs.blockSize, cache' x = fs.block (bitmap g) x) ∧
        ∀ g' i', i' < n → skip g' i' = false → g' < g ∨ g' = g ∧ i' < i →
          (fs.block (bitmap g')).bit i' = true := by
  have hsearch : fs.SearchesBlock (searchClear n skip) := by
    intro g m m' h
    refine firstBelow_congr fun j hj => ?_
    rw [checkBitmapBit, checkBitmapBit, bit_congr (h (j / 8) (by omega))]
  have hspec := scanGroups_spec free hsearch (fun g hg => hread g (mem_range.mp hg))
    pairwise_lt_range cache
  split at hspec
  · exact fun g hg i hi => bit_of_skipped hfree hg (hspec g (mem_range.mpr hg)) hi
  · have hg := mem_range.mp hspec.mem
    obtain ⟨hi, hfound, hbefore⟩ := firstBelow_eq_some_iff.mp hspec.found
    rw [and_eq_true, not_eq_true', not_eq_true'] at hfound
    refine ⟨⟨hg, hi, hfound⟩, hspec.cached, ?_⟩
    rintro g' i' hi' hconsidered (hlt | ⟨rfl, hlt⟩)
    · have hg' := lt_trans hlt hg
      exact bit_of_skipped hfree hg' (hspec.earlier g' (mem_range.mpr hg') hlt) hi' hconsidered
    · have hset := hbefore i' hlt
      rw [hconsidered, Bool.not_false, Bool.true_and, not_eq_false'] at hset
      exact hset

end

section

variable {fs : Fs} {g i : Nat} {cache : Bytes}

/-- The first clear bit of the block bitmaps. -/
structure Fs.FirstClearBlock (fs : Fs) (g i : Nat) : Prop where
  group_lt : g < fs.blockGroupsCount
  index_lt : i < blocksPerGroup fs.superblock
  clear : fs.blockBit g i = false
  earlier : ∀ g' i', i' < blocksPerGroup fs.superblock → g' < g ∨ g' = g ∧ i' < i →
    fs.blockBit g' i' = true

theorem Fs.FirstClearBlock.unique {g' i' : Nat} (h : fs.FirstClearBlock g i)
    (h' : fs.FirstClearBlock g' i') : g = g' ∧ i = i' := by
  have hnot : ¬(g < g' ∨ g = g' ∧ i < i') := fun hlt =>
    false_ne_true (h.clear.symm.trans (h'.earlier g i h.index_lt hlt))
  have hnot' : ¬(g' < g ∨ g' = g ∧ i' < i) := fun hlt =>
    false_ne_true (h'.clear.symm.trans (h.earlier g' i' h'.index_lt hlt))
  omega

theorem Addressed.blockBitmap_readable (wf : Addressed fs) (hg : g < fs.blockGroupsCount) :
    Group.blockBitmap fs.blockGroups g ≠ 0 ∧
      Group.blockBitmap fs.blockGroups g * fs.blockSize < 2 ^ 32 := by
  obtain ⟨hpos, hlt, _⟩ := wf.blockBitmap_valid g hg
  exact ⟨ne_of_gt hpos, wf.offset_lt hlt⟩

theorem findFreeBlock_eq (fs : Fs) : findFreeBlock fs zeroed =
    scanGroups fs (fun g => fs.blockGroups.load16 (groupDescriptorSize * g + 12))
    (Group.blockBitmap fs.blockGroups)
      (searchClear (blocksPerGroup fs.superblock) fun _ _ => false)
        (List.range fs.blockGroupsCount) zeroed := rfl

theorem findFreeBlock_eq_some (wf : Addressed fs)
    (h : findFreeBlock fs zeroed = some (g, i, cache)) :
    fs.FirstClearBlock g i ∧
      ∀ x < fs.blockSize, cache x = fs.block (Group.blockBitmap fs.blockGroups g) x := by
  have hscan := scanGroups_searchClear wf.blocksPerGroup_le
    (fun _ => wf.blockBitmap_readable) wf.blockCounts.group (fun _ _ => false) zeroed
  rw [← findFreeBlock_eq, h] at hscan
  obtain ⟨⟨hg, hi, -, hclear⟩, hcached, hearlier⟩ := hscan
  exact ⟨⟨hg, hi, hclear, fun g' i' hi' => hearlier g' i' hi' rfl⟩, hcached⟩

theorem findFreeBlock_eq_none (wf : Addressed fs) (h : findFreeBlock fs zeroed = none)
    (hg : g < fs.blockGroupsCount) (hi : i < blocksPerGroup fs.superblock) :
    fs.blockBit g i = true := by
  have hscan := scanGroups_searchClear wf.blocksPerGroup_le
    (fun _ => wf.blockBitmap_readable) wf.blockCounts.group (fun _ _ => false) zeroed
  rw [← findFreeBlock_eq, h] at hscan
  exact hscan g hg i hi rfl

end

variable {fs fs' : Fs} {g i r a : Nat} {cache : Bytes}

/-- The position of a bit in the bitmaps decides the order of the scan. -/
theorem lex_of_position_lt {n g' i' : Nat} (hi : i < n) (h : g' * n + i' < g * n + i) :
    g' < g ∨ g' = g ∧ i' < i := by
  by_cases hlt : g < g'
  · have hmul := mul_le_mul_right n (succ_le_of_lt hlt)
    rw [succ_mul] at hmul
    omega
  · by_cases heq : g' = g
    · subst heq
      omega
    · omega

/-- A clear bit stands for a block inside the device. -/
theorem WellFormed.lt_of_clear (wf : WellFormed fs) (h : fs.FirstClearBlock g i) :
    firstDataBlock fs.superblock + g * blocksPerGroup fs.superblock + i <
      blocksCount fs.superblock := by
  by_contra hle
  have hset := wf.padding_used g h.group_lt i h.index_lt (Nat.le_of_not_lt hle)
  exact false_ne_true (h.clear.symm.trans hset)

/-- The state after `ext2_allocate_block` has taken bit `i` of group `g`. -/
def Fs.taken (fs : Fs) (g i : Nat) (cache : Bytes) : Fs :=
  fs.withImages
    (fun a =>
      if a / fs.blockSize = g * blocksPerGroup fs.superblock + i then 0
      else fs.commitDisk (Group.blockBitmap fs.blockGroups g) (setBitmapBit cache i true)
        (fs.takenGroups 12 g) (fs.takenTotal 12) a)
    (fs.takenGroups 12 g) (fs.takenTotal 12)

theorem allocateBlock_of_some (h : findFreeBlock fs zeroed = some (g, i, cache)) :
    allocateBlock fs = (u32 (u32 (g * blocksPerGroup fs.superblock) + i),
        (writeBlock (commit fs (Group.blockBitmap fs.blockGroups g) (setBitmapBit cache i true)
          (fs.takenGroups 12 g) (fs.takenTotal 12))
          (u32 (u32 (g * blocksPerGroup fs.superblock) + i)) zeroed).2) := by
  simp only [allocateBlock, h, commit, writeBlock_blockGroups, writeBgdt_superblock,
    writeBlock_superblock]
  rfl

theorem allocateBlock_eq (wf : Addressed fs) (h : findFreeBlock fs zeroed = some (g, i, cache))
    (hpos : g * blocksPerGroup fs.superblock + i ≠ 0) :
    allocateBlock fs = (g * blocksPerGroup fs.superblock + i, fs.taken g i cache) := by
  obtain ⟨hfirst, _⟩ := findFreeBlock_eq_some wf h
  have hlt : g * blocksPerGroup fs.superblock + i < blocksCount fs.superblock := by
    have := wf.lt_of_clear hfirst
    omega
  have hsize := wf.blockSize_bounds
  have hcount : blocksCount fs.superblock < 2 ^ 32 := load32_lt
  obtain ⟨hbitmap, hbitmap_lt, _⟩ := wf.blockBitmap_valid g hfirst.group_lt
  have hindex : u32 (u32 (g * blocksPerGroup fs.superblock) + i) =
      g * blocksPerGroup fs.superblock + i := by
    rw [u32_of_lt (show g * blocksPerGroup fs.superblock < 2 ^ 32 by omega), u32_of_lt (by omega)]
  rw [allocateBlock_of_some h, hindex,
    commit_eq wf.toGeometry wf.below4G (ne_of_gt hbitmap) hbitmap_lt, writeBlock_eq]
  refine congrArg (fun disk => (_, fs.withImages disk _ _)) (funext fun a => ?_)
  refine (writeBlock_disk ?_ hpos ?_ a).trans rfl
  · exact lt_of_lt_of_le (by decide) hsize.1
  · exact wf.offset_lt hlt

/-- The stale image of the block behind the descriptors holds what the device
must hold once bit `i` of group `g` is taken. -/
def Fs.TailKept (fs : Fs) (g i : Nat) : Prop :=
  ∀ a, fs.IsTail (a / fs.blockSize) →
    a / fs.blockSize ≠ g * blocksPerGroup fs.superblock + i →
    fs.blockGroups (a - fs.bgdtStartBlock * fs.blockSize) =
      if a / fs.blockSize = Group.blockBitmap fs.blockGroups g then
        setBitmapBit (fs.block (Group.blockBitmap fs.blockGroups g)) i true (a % fs.blockSize)
      else fs.disk a

section

variable (wf : WellFormed fs) (hg : g < fs.blockGroupsCount)
  (hcache : ∀ x < fs.blockSize, cache x = fs.block (Group.blockBitmap fs.blockGroups g) x)
include wf hg hcache

theorem taken_disk (hne : a / fs.blockSize ≠ g * blocksPerGroup fs.superblock + i)
    (hsb : ¬InSuperblock a) (htable : ¬fs.InTable a) :
    (fs.taken g i cache).disk a =
      if fs.IsTail (a / fs.blockSize) then fs.blockGroups (a - fs.bgdtStartBlock * fs.blockSize)
      else if a / fs.blockSize = Group.blockBitmap fs.blockGroups g then
        setBitmapBit (fs.block (Group.blockBitmap fs.blockGroups g)) i true (a % fs.blockSize)
      else fs.disk a := by
  have hsize := wf.blockSize_bounds
  have hmod := hcache _ (mod_lt a (show 0 < fs.blockSize by omega))
  have hco := countersOnly_takenBlock hg
  simp only [Fs.taken, Fs.withImages, hne, if_false]
  rw [commitDisk_of_clear wf hco (wf.blockBitmap_valid g hg).2.2 hsb htable, setBitmapBit,
    setBitmapBit, setBit_congr hmod]

theorem taken_disk_of_tailKept (hkept : fs.TailKept g i)
    (hne : a / fs.blockSize ≠ g * blocksPerGroup fs.superblock + i)
    (hsb : ¬InSuperblock a) (htable : ¬fs.InTable a) :
    (fs.taken g i cache).disk a = if a / fs.blockSize = Group.blockBitmap fs.blockGroups g then
        setBitmapBit (fs.block (Group.blockBitmap fs.blockGroups g)) i true (a % fs.blockSize)
      else fs.disk a := by
  rw [taken_disk wf hg hcache hne hsb htable]
  split
  · rename_i htail
    exact hkept a htail hne
  · rfl

end

/-- A block whose bit is clear holds no metadata. -/
theorem WellFormed.not_isMeta (wf : WellFormed fs) (h : fs.FirstClearBlock g i)
    (hfirst : firstDataBlock fs.superblock = 0) :
    ¬fs.IsMeta (g * blocksPerGroup fs.superblock + i) := by
  intro hmeta
  have hset := wf.meta_used g h.group_lt i h.index_lt
  rw [hfirst, zero_add] at hset
  exact false_ne_true (h.clear.symm.trans (hset hmeta))

theorem clearOfTables_of_not_isMeta {b : Nat} (h : ¬fs.IsMeta b) : fs.ClearOfTables b :=
  Classical.byContradiction fun hclear => h (.inr (.inl hclear))

/-- Zeroing a block away from the tables keeps the images in agreement. -/
theorem taken_synced (wf : WellFormed fs) (hg : g < fs.blockGroupsCount)
    (hclear : fs.ClearOfTables (g * blocksPerGroup fs.superblock + i)) :
    (fs.taken g i cache).Synced := by
  have hsize := wf.blockSize_bounds
  have hco := countersOnly_takenBlock hg
  have hsync := commitDisk_synced wf hco (Group.blockBitmap fs.blockGroups g)
    (setBitmapBit cache i true)
  exact hsync.overwrite (by omega) hclear fun a hne => if_neg hne

theorem taken_bit (wf : WellFormed fs) (hg : g < fs.blockGroupsCount)
    (hcache : ∀ x < fs.blockSize, cache x = fs.block (Group.blockBitmap fs.blockGroups g) x)
    (hkept : fs.TailKept g i) {b j : Nat} (hb : fs.ClearOfTables b)
    (hne : b ≠ g * blocksPerGroup fs.superblock + i) (hj : j < 8 * fs.blockSize) :
    ((fs.taken g i cache).block b).bit j =
      ((fs.block b).bit j || (decide (b = Group.blockBitmap fs.blockGroups g) && j == i)) := by
  have hx : j / 8 < fs.blockSize := by omega
  obtain ⟨hsb, htable⟩ := hb (b * fs.blockSize + j / 8) (addr_div hx)
  have hbyte := taken_disk_of_tailKept wf hg hcache hkept (by rwa [addr_div hx]) hsb htable
  rw [addr_div hx, addr_mod hx] at hbyte
  by_cases hbitmap : b = Group.blockBitmap fs.blockGroups g
  · rw [if_pos hbitmap] at hbyte
    refine (bit_congr hbyte).trans ?_
    rw [setBitmapBit, bit_setBit, decide_eq_true hbitmap, Bool.true_and, hbitmap]
    by_cases hji : j = i <;> simp [hji]
  · rw [if_neg hbitmap] at hbyte
    rw [decide_eq_false hbitmap, Bool.false_and, Bool.or_false]
    exact bit_congr hbyte

/-- Bit `i` of group `g` was clear and is taken, the block it stands for is
zeroed, and nothing else changes but the counters, which remain exact. -/
structure TakesBlock (fs : Fs) (r g i : Nat) (fs' : Fs) : Prop where
  group_lt : g < fs.blockGroupsCount
  index_lt : i < blocksPerGroup fs.superblock
  number : r = firstDataBlock fs.superblock + g * blocksPerGroup fs.superblock + i
  clear : fs.blockBit g i = false
  bits : ∀ g' < fs.blockGroupsCount, ∀ i' < 8 * fs.blockSize,
    fs'.blockBit g' i' = (fs.blockBit g' i' || (g' == g && i' == i))
  zeroed : ∀ a, a / fs.blockSize = r → fs'.disk a = 0
  frame : ∀ a, a / fs.blockSize ≠ r →
    a / fs.blockSize ≠ Group.blockBitmap fs.blockGroups g →
    ¬InSuperblock a → ¬fs.InTable a → fs'.disk a = fs.disk a
  counts : fs'.BlockCounts

/-- Block `r` was free and has been allocated in `fs'`. -/
def BlockAllocated (fs : Fs) (r : Nat) (fs' : Fs) : Prop := ∃ g i, TakesBlock fs r g i fs'

section

variable (wf : WellFormed fs) (h : fs.FirstClearBlock g i)
  (hfirst : firstDataBlock fs.superblock = 0)
  (hcache : ∀ x < fs.blockSize, cache x = fs.block (Group.blockBitmap fs.blockGroups g) x)
  (hkept : fs.TailKept g i)

include wf h hfirst hcache hkept

section

variable {g' j : Nat} (hg' : g' < fs.blockGroupsCount) (hj : j < 8 * fs.blockSize)
include hg' hj

theorem taken_blockBit :
    (fs.taken g i cache).blockBit g' j = (fs.blockBit g' j || (g' == g && j == i)) := by
  have hmeta := wf.not_isMeta h hfirst
  have hco := countersOnly_takenBlock h.group_lt
  have hbit := taken_bit wf h.group_lt hcache hkept (wf.blockBitmap_valid g' hg').2.2
    (fun heq => hmeta (.inr (.inr ⟨g', hg', .inl heq.symm⟩))) hj
  have hsame : decide (Group.blockBitmap fs.blockGroups g' = Group.blockBitmap fs.blockGroups g) =
      (g' == g) := by
    by_cases hgg : g' = g
    · simp [hgg]
    · have hne : Group.blockBitmap fs.blockGroups g' ≠ Group.blockBitmap fs.blockGroups g :=
        fun heq => hgg (wf.blockBitmap_inj g' hg' g h.group_lt heq)
      simp [hgg, hne]
  rw [hsame] at hbit
  simpa only [Fs.blockBit, Fs.taken, Fs.withImages, hco.blockBitmap] using hbit

theorem taken_inodeBit :
    (fs.taken g i cache).inodeBit g' j = fs.inodeBit g' j := by
  have hmeta := wf.not_isMeta h hfirst
  have hco := countersOnly_takenBlock h.group_lt
  have hbit := taken_bit wf h.group_lt hcache hkept (wf.inodeBitmap_valid g' hg').2.2
    (fun heq => hmeta (.inr (.inr ⟨g', hg', .inr (.inl heq.symm)⟩))) hj
  rw [decide_eq_false (wf.bitmaps_ne g h.group_lt g' hg').symm, Bool.false_and, Bool.or_false]
    at hbit
  simpa only [Fs.inodeBit, Fs.taken, Fs.withImages, hco.inodeBitmap] using hbit

end

theorem taken_blockCounts : (fs.taken g i cache).BlockCounts := by
  have hco := countersOnly_takenBlock h.group_lt
  have hclear := clearOfTables_of_not_isMeta (wf.not_isMeta h hfirst)
  have hcounts : (fs.taken g i cache).Counts 12 12 (blocksPerGroup fs.superblock)
      (fs.taken g i cache).blockBit := by
    refine wf.blockCounts.take (taken_synced wf h.group_lt hclear) (by decide) (by decide)
      h.group_lt h.index_lt h.clear fun g' hg' j hj => ?_
    exact taken_blockBit wf h hfirst hcache hkept hg' (lt_of_lt_of_le hj wf.blocksPerGroup_le)
  exact hcounts

theorem takesBlock_taken :
    TakesBlock fs (g * blocksPerGroup fs.superblock + i) g i (fs.taken g i cache) where
  group_lt := h.group_lt
  index_lt := h.index_lt
  number := by rw [hfirst, zero_add]
  clear := h.clear
  bits := fun _ hg' _ hj => taken_blockBit wf h hfirst hcache hkept hg' hj
  zeroed := fun _ ha => if_pos ha
  frame := by
    intro a hne hbitmap hsb htable
    rw [taken_disk_of_tailKept wf h.group_lt hcache hkept hne hsb htable, if_neg hbitmap]
  counts := taken_blockCounts wf h hfirst hcache hkept

/-- A correct allocation leads from one well-formed file system to another. -/
theorem taken_wellFormed : WellFormed (fs.taken g i cache) := by
  have hco := countersOnly_takenBlock h.group_lt
  have hclear := clearOfTables_of_not_isMeta (wf.not_isMeta h hfirst)
  have hsync : (fs.taken g i cache).Synced := taken_synced wf h.group_lt hclear
  have hinodes : ∀ g' < fs.blockGroupsCount, ∀ j < inodesPerGroup fs.superblock,
      (fs.taken g i cache).inodeBit g' j = fs.inodeBit g' j := fun g' hg' j hj =>
    taken_inodeBit wf h hfirst hcache hkept hg' (lt_of_lt_of_le hj wf.inodesPerGroup_le)
  refine wf.withImages hco hsync ?_ ?_ (taken_blockCounts wf h hfirst hcache hkept) ?_
  · intro g' hg' j hj hset
    refine (taken_blockBit wf h hfirst hcache hkept hg'
      (lt_of_lt_of_le hj wf.blocksPerGroup_le)).trans ?_
    rw [hset, Bool.true_or]
  · intro g' hg' j hj hset
    exact (hinodes g' hg' j hj).trans hset
  · have hcounts : (fs.taken g i cache).Counts 14 16 (inodesPerGroup fs.superblock)
        (fs.taken g i cache).inodeBit := by
      refine wf.inodeCounts.keep hsync (by decide) (by decide) ?_ ?_ hinodes
      · intro g' hg'
        refine load16_store16_of_sep ?_
        simp only [groupDescriptorSize]
        omega
      rfl
    have hper : inodesPerGroup (fs.taken g i cache).superblock = inodesPerGroup fs.superblock :=
      hco.inodesPerGroup
    have hgoal : (fs.taken g i cache).InodeCounts := by rwa [Fs.InodeCounts, hper]
    exact hgoal

end

/-- A call that returns a block has taken the first clear bit. -/
theorem allocateBlock_cases (wf : Addressed fs) (h : allocateBlock fs = (r, fs')) (hr : r ≠ 0) :
    ∃ g i cache, fs.FirstClearBlock g i ∧
      (∀ x < fs.blockSize, cache x = fs.block (Group.blockBitmap fs.blockGroups g) x) ∧
      r = g * blocksPerGroup fs.superblock + i ∧ fs' = fs.taken g i cache := by
  cases hfind : findFreeBlock fs zeroed with
  | none =>
    simp only [allocateBlock, hfind, mk.injEq] at h
    omega
  | some hit =>
    obtain ⟨g, i, cache⟩ := hit
    obtain ⟨hclear, hcache⟩ := findFreeBlock_eq_some wf hfind
    by_cases hpos : g * blocksPerGroup fs.superblock + i = 0
    · rw [allocateBlock_of_some hfind, mk.injEq] at h
      have hzero : g * blocksPerGroup fs.superblock = 0 ∧ i = 0 := by omega
      rw [hzero.1, hzero.2] at h
      exact absurd h.1.symm hr
    · rw [allocateBlock_eq wf hfind hpos, mk.injEq] at h
      exact ⟨g, i, cache, hclear, hcache, h.1.symm, h.2.symm⟩

/-- The block number that the code returns is the one of the bit it takes only
when the first data block is block zero. -/
theorem TakesBlock.position (h : fs.FirstClearBlock g i) {g' i' : Nat}
    (htakes : TakesBlock fs (g * blocksPerGroup fs.superblock + i) g' i' fs') :
    firstDataBlock fs.superblock = 0 ∧ g' = g ∧ i' = i := by
  have hnumber := htakes.number
  have hfirst : firstDataBlock fs.superblock = 0 := by
    by_contra hne
    have hlt : g' * blocksPerGroup fs.superblock + i' < g * blocksPerGroup fs.superblock + i := by
      omega
    have hset := h.earlier g' i' htakes.index_lt (lex_of_position_lt h.index_lt hlt)
    exact false_ne_true (htakes.clear.symm.trans hset)
  rw [hfirst, zero_add] at hnumber
  have hgroup := congrArg (· / blocksPerGroup fs.superblock) hnumber
  have hindex := congrArg (· % blocksPerGroup fs.superblock) hnumber
  simp only [addr_div h.index_lt, addr_div htakes.index_lt] at hgroup
  simp only [addr_mod h.index_lt, addr_mod htakes.index_lt] at hindex
  omega

/-- After a correct allocation the image behind the descriptors cannot have
reverted anything. -/
theorem TakesBlock.tailKept (wf : WellFormed fs) (hg : g < fs.blockGroupsCount)
    (hcache : ∀ x < fs.blockSize, cache x = fs.block (Group.blockBitmap fs.blockGroups g) x)
    (h : TakesBlock fs (g * blocksPerGroup fs.superblock + i) g i (fs.taken g i cache)) :
    fs.TailKept g i := by
  intro a htail hne
  have hsize := wf.blockSize_bounds
  have hco := countersOnly_takenBlock hg
  obtain ⟨hsb, htable⟩ := wf.clearOfTables_of_isTail htail a rfl
  have hdisk := taken_disk wf hg hcache hne hsb htable
  rw [if_pos htail] at hdisk
  rw [← hdisk]
  split
  · rename_i hbitmap
    have hx : a % fs.blockSize < fs.blockSize := mod_lt a (by omega)
    have haddr : a = Group.blockBitmap fs.blockGroups g * fs.blockSize + a % fs.blockSize := by
      rw [← hbitmap, mul_comm, div_add_mod]
    have hbyte : (fs.taken g i cache).block (Group.blockBitmap fs.blockGroups g)
        (a % fs.blockSize) = (fs.taken g i cache).disk a := congrArg _ haddr.symm
    rw [← hbyte]
    refine eq_of_bits fun j hj => ?_
    have hbits := h.bits g hg (8 * (a % fs.blockSize) + j) (by omega)
    simp only [Fs.blockBit, Fs.taken, Fs.withImages, hco.blockBitmap, beq_self_eq_true,
      Bool.true_and] at hbits
    refine Eq.trans hbits ?_
    rw [setBitmapBit, bit_setBit]
    by_cases hji : 8 * (a % fs.blockSize) + j = i <;> simp [hji]
  · rename_i hbitmap
    exact h.frame a hne hbitmap hsb htable

/-- Below 4 GiB, `ext2_allocate_block` is correct exactly on file systems whose first
data block is block zero and whose block behind the descriptors, if there is one, is
not reverted by its stale image. -/
theorem allocateBlock_correct_iff (wf : WellFormed fs) (hbelow : fs.Below4G)
    (h : allocateBlock fs = (r, fs')) (hr : r ≠ 0) :
    BlockAllocated fs r fs' ↔
      firstDataBlock fs.superblock = 0 ∧ ∀ g i, fs.FirstClearBlock g i → fs.TailKept g i := by
  obtain ⟨g, i, cache, hclear, hcache, rfl, rfl⟩ := allocateBlock_cases ⟨wf, hbelow⟩ h hr
  constructor
  · rintro ⟨g', i', htakes⟩
    obtain ⟨hfirst, rfl, rfl⟩ := htakes.position hclear
    refine ⟨hfirst, ?_⟩
    intro g₂ i₂ hclear₂
    obtain ⟨rfl, rfl⟩ := hclear.unique hclear₂
    exact htakes.tailKept wf hclear.group_lt hcache
  · rintro ⟨hfirst, hkept⟩
    exact ⟨g, i, takesBlock_taken wf hclear hfirst hcache (hkept g i hclear)⟩

theorem allocateBlock_correct_tiny : BlockAllocated (tiny false) 10
    (allocateBlock (tiny false)).2 :=
  (allocateBlock_correct_iff tiny_wellFormed tiny_below4G
    (Prod.ext (by decide) rfl : allocateBlock (tiny false) = (10, (allocateBlock (tiny false)).2))
    (by decide)).mpr
    ⟨by decide, fun _ _ _ a htail => absurd htail (tiny_not_isTail (a / (tiny false).blockSize))⟩

/-- With blocks of 1024 bytes the bit taken stands for block 10, but block 9 is
returned and cleared: the root directory, whose own bit is set. -/
theorem allocateBlock_small_blocks :
    WellFormed (tiny true) ∧ (allocateBlock (tiny true)).1 = 9 ∧ (tiny true).blockBit 0 8 = true ∧
      ¬BlockAllocated (tiny true) 9 (allocateBlock (tiny true)).2 := by
  refine ⟨tiny_wellFormed, by decide, by decide, ?_⟩
  rintro ⟨g, i, htakes⟩
  have hnumber : 9 = 1 + g * 16 + i := htakes.number
  obtain ⟨rfl, rfl⟩ : g = 0 ∧ i = 8 := by omega
  cases htakes.clear

end Hos.Ext2
