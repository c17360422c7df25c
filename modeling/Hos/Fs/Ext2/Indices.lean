import Hos.Fs.Ext2.BlockMap

/-!
# Indices of file blocks

A file block has a level, the number of pointer blocks on the way to it, and an index
in each of them. The indices determine the block. `ext2_mount` computes the number
of blocks that have indices with one factor too many: behind the capacity
`12 + p + p² + p³` it lets another `p²` blocks pass, whose first index is not one of
a pointer block. With blocks of more than 4096 bytes the number does not fit in 32 bits.

Lookups use one buffer for all pointer blocks, and a missing pointer block is not read.
What comes next is then looked up in the pointer block before it.
-/

namespace Hos.Ext2

open Option List Nat

section

/-- The limits that `ext2_mount` computes for blocks of `1024 << k` bytes. -/
structure Limits (fs : Fs) (k : Nat) : Prop where
  log_le : k ≤ 21
  blockSize : fs.blockSize = 1024 * 2 ^ k
  pointers : fs.pointersPerBlock = fs.blockSize / 4
  indirect : fs.indirectBlocksIndex = 12 + fs.pointersPerBlock
  doubly : fs.doublyIndirectBlocksIndex = u32 (12 + fs.pointersPerBlock * (fs.pointersPerBlock + 1))
  trebly : fs.treblyIndirectBlocksIndex = u32 (fs.doublyIndirectBlocksIndex +
    fs.pointersPerBlock * fs.pointersPerBlock * (fs.pointersPerBlock + 1))

/-- The file block with the given level and indices. -/
def Fs.blockOfPath (fs : Fs) : Nat × List Nat → Nat
  | (offset, []) => (offset - 40) / 4
  | (_, [a]) => 12 + a
  | (_, [c, d]) => fs.indirectBlocksIndex + c * fs.pointersPerBlock + d
  | (_, d :: f :: g :: _) => fs.doublyIndirectBlocksIndex +
      d * (fs.pointersPerBlock * fs.pointersPerBlock) + f * fs.pointersPerBlock + g

/-- Level and indices of a file block are in range and belong to no other block, and the
limits are the sums that they stand for. -/
structure Decomposed (fs : Fs) (b : Nat) : Prop where
  inside : ∀ i ∈ (fs.path b).2, i < fs.pointersPerBlock
  distinct : ∀ b' < fs.treblyIndirectBlocksIndex, fs.path b' = fs.path b → b' = b
  doubly : fs.doublyIndirectBlocksIndex = 12 + fs.pointersPerBlock * (fs.pointersPerBlock + 1)
  trebly : fs.treblyIndirectBlocksIndex = fs.doublyIndirectBlocksIndex +
    fs.pointersPerBlock * fs.pointersPerBlock * (fs.pointersPerBlock + 1)

variable {fs : Fs} {b k : Nat}

theorem Limits.pointers_eq (h : Limits fs k) : fs.pointersPerBlock = 256 * 2 ^ k := by
  rw [h.pointers, h.blockSize]
  omega

/-- The limits do not depend on the images. -/
theorem Limits.layout : Limits fs.layout k ↔ Limits fs k :=
  ⟨fun h => ⟨h.log_le, h.blockSize, h.pointers, h.indirect, h.doubly, h.trebly⟩,
    fun h => ⟨h.log_le, h.blockSize, h.pointers, h.indirect, h.doubly, h.trebly⟩⟩

/-- A mounted file system has these limits. A block size that does not fit in 32 bits is
zero, and `ext2_mount` divides by it. -/
theorem limits_of_mount {disk : Bytes} (h : mount disk = some fs) : ∃ k, Limits fs k := by
  simp only [mount, ite_none_left_eq_some, ite_none_right_eq_some, some.injEq] at h
  obtain ⟨-, hdivisors, -, rfl⟩ := h
  generalize zeroed.blit 0 disk 1024 superblockSize = sb at *
  rw [not_or, not_or, not_or] at hdivisors
  have hsize := hdivisors.2.2.1
  have hlog : logBlockSize sb ≤ 21 := by
    by_contra hlarge
    refine hsize ?_
    rw [u32, shiftLeft_eq, show 1024 = 2 ^ 10 from rfl, ← pow_add]
    exact mod_eq_zero_of_dvd (pow_dvd_pow 2 (by omega))
  have hpow : 2 ^ logBlockSize sb ≤ 2 ^ 21 := Nat.pow_le_pow_right (by decide) hlog
  have hblock : u32 (1024 <<< logBlockSize sb) = 1024 * 2 ^ logBlockSize sb := by
    rw [shiftLeft_eq, u32_of_lt (by omega)]
  refine ⟨logBlockSize sb, Limits.layout.mp ?_⟩
  rw [readBgdt_layout]
  exact ⟨hlog, hblock, rfl, rfl, rfl, rfl⟩

/-- The limits of blocks of up to 4096 bytes are exact. -/
theorem Limits.exact (h : Limits fs k) (hk : k ≤ 2) :
    PointerGeometry fs ∧ fs.treblyIndirectBlocksIndex = fs.doublyIndirectBlocksIndex +
      fs.pointersPerBlock * fs.pointersPerBlock * (fs.pointersPerBlock + 1) := by
  have hpointers : fs.pointersPerBlock = 256 ∨ fs.pointersPerBlock = 512 ∨
      fs.pointersPerBlock = 1024 := by
    rw [h.pointers_eq]
    obtain rfl | rfl | rfl : k = 0 ∨ k = 1 ∨ k = 2 := by omega
    all_goals decide
  have hindirect := h.indirect
  have hdoubly := h.doubly
  have htrebly := h.trebly
  obtain hp | hp | hp := hpointers
  all_goals
    rw [hp] at hindirect hdoubly htrebly
    simp only [u32, reduceAdd, reduceMul, reduceMod, reducePow] at hdoubly htrebly
    refine ⟨⟨by omega, by omega, ?_, ?_, by omega⟩, ?_⟩
  all_goals
    rw [hp]
    omega

/-- Level and indices determine the file block. -/
theorem PointerGeometry.blockOfPath_path (geo : PointerGeometry fs)
    (hb : b < fs.treblyIndirectBlocksIndex) :
    fs.blockOfPath (fs.path b) = b := by
  have hb32 : b < 2 ^ 32 := hb.trans geo.trebly_lt
  rw [Fs.path, indirectBlocks]
  split
  · rw [Fs.blockOfPath]
    omega
  split
  · have ha : sub32 b 12 = b - 12 := sub32_of_le hb32 (by omega)
    rw [ha, Fs.blockOfPath]
    omega
  split
  · rw [doublyIndices_eq geo hb32 (by omega), Fs.blockOfPath, add_assoc, div_add_mod']
    omega
  · rw [treblyIndices_eq geo hb32 (by omega), Fs.blockOfPath, add_assoc, div_add_mod',
      add_assoc, div_add_mod']
    omega

/-- Below the limit of `ext2_mount`, a file block has level and indices of its own, in
range and with limits that have not wrapped, exactly when blocks have at most 4096
bytes and the block is within the capacity. -/
theorem decomposed_iff (h : Limits fs k) (hb : b < fs.treblyIndirectBlocksIndex) :
    Decomposed fs b ↔ fs.blockSize ≤ 4096 ∧ b < fs.capacity := by
  have hsize : fs.blockSize ≤ 4096 ↔ k ≤ 2 := by
    rw [h.blockSize, show 4096 = 1024 * 2 ^ 2 from rfl,
      Nat.mul_le_mul_left_iff (show 0 < 1024 by decide),
      Nat.pow_le_pow_iff_right (show 1 < 2 by decide)]
  rw [hsize]
  constructor
  · intro hdecomposed
    have hk : k ≤ 2 := by
      by_contra hlarge
      -- with 2048 pointers in a block the limit is more than a word can hold
      have hpointers : 2048 ≤ fs.pointersPerBlock := by
        rw [h.pointers_eq]
        exact Nat.mul_le_mul_left 256 (Nat.pow_le_pow_right (show 0 < 2 by decide)
          (show 3 ≤ k by omega))
      have hsquare := Nat.mul_le_mul hpointers hpointers
      have hcube := Nat.mul_le_mul hsquare (show 2048 ≤ fs.pointersPerBlock + 1 by omega)
      have htrebly := hdecomposed.trebly
      have hlt : fs.treblyIndirectBlocksIndex < 2 ^ 32 := h.trebly ▸ u32_lt _
      omega
    exact ⟨hk, ((h.exact hk).1.path_lt_iff hb).mp hdecomposed.inside⟩
  · rintro ⟨hk, hcapacity⟩
    obtain ⟨geo, htrebly⟩ := h.exact hk
    refine ⟨(geo.path_lt_iff hb).mpr hcapacity, fun b' hb' heq => ?_, geo.doubly, htrebly⟩
    rw [← geo.blockOfPath_path hb', heq, geo.blockOfPath_path hb]

theorem limits_tiny : Limits (tiny true) 0 := ⟨by decide, rfl, rfl, rfl, rfl, rfl⟩

/-- The first trebly-indirect block of a file with blocks of 1024 bytes. -/
theorem decomposed_trebly : Decomposed (tiny true) 65804 :=
  (decomposed_iff limits_tiny (by decide)).mpr ⟨by decide, by decide⟩

/-- Block 16843020 is the first one behind the capacity of blocks of 1024 bytes. It passes
the check, and its first index is 256 in a block of 256 pointers. -/
theorem index_outside_block : 16843020 < (tiny true).treblyIndirectBlocksIndex ∧
    (tiny true).path 16843020 = (treblyIndirOffset, [256, 0, 0]) ∧
      (tiny true).pointersPerBlock = 256 ∧ ¬Decomposed (tiny true) 16843020 := by
  have hpath : (tiny true).path 16843020 = (treblyIndirOffset, [256, 0, 0]) := by decide
  refine ⟨by decide, hpath, rfl, fun h => ?_⟩
  have hinside := h.inside
  exact absurd (hinside 256 mem_cons_self) (by decide)

end

/-- What the reads of a lookup give, when the buffer holds the pointer block `q` and the
pointer to be followed is `p`. A pointer of zero is not followed. -/
def Fs.reads (fs : Fs) : Nat → Nat → List Nat → Nat
  | _, p, [] => p
  | q, p, i :: is =>
    let q' := if p = 0 then q else p
    fs.reads q' (fs.entry q' i) is

/-- Where the path from `p` has a missing pointer block, the remaining reads in the
pointer block before it give zero. -/
def Fs.HolesRead (fs : Fs) : Nat → List Nat → Prop
  | _, [] => True
  | p, i :: is => p = 0 ∨
      if fs.entry p i = 0 then fs.reads p 0 is = 0 else fs.HolesRead (fs.entry p i) is

/-- `ext2_get_real_block_index` stays inside the pointer blocks and answers the number at
the end of the path, or zero where a pointer is missing. -/
structure LooksUp (fs : Fs) (inode : Bytes) (b : Nat) : Prop where
  inside : ∀ i ∈ (fs.path b).2, i < fs.pointersPerBlock
  value : getRealBlockIndex fs inode b = (fs.lookup inode b).getD 0

variable {fs : Fs} {inode : Bytes} {b p q : Nat} {is : List Nat}

/-- A lookup with a buffer that holds the block `q`. -/
theorem chase_eq_reads (geo : Geometry fs) (hlt : ∀ k ∈ is, k < fs.pointersPerBlock)
    {buffer : Bytes} (hbuffer : ∀ k < fs.pointersPerBlock, pointerAt buffer k = fs.entry q k) :
    chase fs p buffer is = fs.reads q p is := by
  induction is generalizing p q buffer with
  | nil => rfl
  | cons i is ih =>
    have hi := hlt i mem_cons_self
    have hrest := fun k hk => hlt k (mem_cons_of_mem i hk)
    rw [chase, Fs.reads]
    by_cases hp : p = 0
    · have hkeep : (readBlock fs p buffer).2 = buffer := by
        rw [readBlock, if_pos hp]
      rw [hkeep, hbuffer i hi, if_pos hp]
      exact ih hrest hbuffer
    · rw [if_neg hp, pointerAt_readBlock geo buffer hp hi]
      exact ih hrest fun k hk => pointerAt_readBlock geo buffer hp hk

/-- Nothing is read from a cleared buffer. -/
theorem reads_zero : fs.reads 0 0 is = 0 := by
  induction is with
  | nil => rfl
  | cons _ _ ih => exact ih

theorem reads_eq_iff (hp : p ≠ 0) : fs.reads q p is = (follow fs.entry p is).getD 0 ↔
    fs.HolesRead p is := by
  induction is generalizing p q with
  | nil => exact iff_of_true rfl trivial
  | cons i is ih =>
    rw [Fs.reads, if_neg hp, follow_cons hp, Fs.HolesRead, or_iff_right hp]
    by_cases hentry : fs.entry p i = 0
    · rw [if_pos hentry, hentry, follow_zero_getD]
    · rw [if_neg hentry]
      exact ih hentry

/-- Below the limit of `ext2_mount`, a lookup gives the number at the end of the path, or
zero for a hole, exactly when the block is within the capacity and the reads that go
on behind a missing pointer block give zero. -/
theorem looks_up_iff (geo : Geometry fs) (hb : b < fs.treblyIndirectBlocksIndex) :
    LooksUp fs inode b ↔ b < fs.capacity ∧ fs.HolesRead (inode.load32 (fs.path b).1)
    (fs.path b).2 := by
  have hcapacity := geo.pointerGeometry.path_lt_iff hb
  have hvalue : (∀ i ∈ (fs.path b).2, i < fs.pointersPerBlock) →
      (getRealBlockIndex fs inode b = (fs.lookup inode b).getD 0 ↔
        fs.HolesRead (inode.load32 (fs.path b).1) (fs.path b).2) := by
    intro hinside
    have hclear : ∀ k < fs.pointersPerBlock, pointerAt zeroed k = fs.entry 0 k := fun _ _ => rfl
    rw [getRealBlockIndex_eq_chase hb, Fs.lookup, chase_eq_reads geo hinside hclear]
    by_cases hroot : inode.load32 (fs.path b).1 = 0
    · rw [hroot, reads_zero, follow_zero_getD]
      refine iff_of_true rfl ?_
      cases (fs.path b).2 with
      | nil => trivial
      | cons i is => exact Or.inl rfl
    · exact reads_eq_iff hroot
  constructor
  · rintro ⟨hinside, hlookup⟩
    exact ⟨hcapacity.mp hinside, (hvalue hinside).mp hlookup⟩
  · rintro ⟨hlt, hholes⟩
    have hinside := hcapacity.mpr hlt
    exact ⟨hinside, (hvalue hinside).mpr hholes⟩

/-- The pointer block 12 of the disk has one pointer, entry 5, to the block 14. -/
def onePointer : Fs := { tiny true with disk := (tinyDisk true).store32 (12 * 1024 + 4 * 5) 14 }

theorem onePointer_geometry : Geometry onePointer := by
  have h : Geometry (tiny true) := tiny_geometry
  exact ⟨h.blockSize, h.inodesPerBlock, h.blocksPerBlock, h.pointers, h.start, h.length,
    h.covered, h.tight,
    h.tableFits, h.blocksPerGroup_pos, h.blocksPerGroup_le, h.inodesPerGroup_pos,
    h.inodesPerGroup_le, h.inodes_lt, h.indirect, h.doubly, h.trebly⟩

/-- The way to file block 1548 has both pointer blocks, 12 and 14, and the block is a hole. -/
theorem looks_up_hole : LooksUp onePointer (zeroed.store32 doublyIndirOffset 12) 1548 := by
  refine (looks_up_iff onePointer_geometry (by decide)).mpr ⟨by decide, ?_⟩
  exact Or.inr (Or.inr rfl)

/-- On the way to file block 273 the second pointer block is missing. Its index in that
block is used in block 12, and the pointer block 14 comes out as a block of the file. -/
theorem hole_reads_pointer_block :
    onePointer.lookup (zeroed.store32 doublyIndirOffset 12) 273 = none ∧
      getRealBlockIndex onePointer (zeroed.store32 doublyIndirOffset 12) 273 = 14 ∧
      ¬LooksUp onePointer (zeroed.store32 doublyIndirOffset 12) 273 := by
  have hlookup : onePointer.lookup (zeroed.store32 doublyIndirOffset 12) 273 = none := by
    decide +kernel
  have hreal : getRealBlockIndex onePointer (zeroed.store32 doublyIndirOffset 12) 273 = 14 := by
    decide +kernel
  refine ⟨hlookup, hreal, fun h => ?_⟩
  have hvalue := h.value
  cases hvalue

end Hos.Ext2
