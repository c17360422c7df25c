import Hos.Fs.Ext2.Data

/-!
# How much is read

`ext2_read_inode_data` adds offset and count as unsigned words and takes the smaller of
the sum and the size for the end of the range. It does not look at an offset behind
that end: the length of the range is then a difference below zero, which is the
result, and as an unsigned word the number of bytes that are copied. At the end of
the file it reads the next block, and fails if there is none.
-/

namespace Hos.Ext2

open Bytes

/-- How many bytes a file of the given size has in a range. The offset is signed. -/
def readCount (size offset nbyte : Nat) : Int :=
  if i32 offset + nbyte ≤ size then nbyte
  else if i32 offset < size then size - i32 offset
  else 0

/-- A read returns the number of bytes that the file has in the range, and replaces as many
bytes of the buffer. -/
structure ReadsCount (fs : Fs) (inode : Bytes) (offset nbyte : Nat) : Prop where
  result : ∀ buffer, (readInodeData fs inode offset nbyte buffer).1 =
    readCount (Inode.size inode) offset nbyte
  writes : ∃ content : Bytes, ∀ buffer, ∀ x < 2 ^ 32,
    (readInodeData fs inode offset nbyte buffer).2 x =
    if (x : Int) < readCount (Inode.size inode) offset nbyte then content x else buffer x

/-- `ext2_read_inode_block` finds a block for file block `b`. -/
def Fs.HasBlock (fs : Fs) (inode : Bytes) (b : Nat) : Prop :=
  b < inodeBlocks fs inode ∧ getRealBlockIndex fs inode b ≠ 0

/-- What `ext2_read_inode_block` finds at a position of the file. -/
def Fs.rawByte (fs : Fs) (inode : Bytes) (pos : Nat) : Byte :=
  (readInodeBlock fs inode (pos / fs.blockSize) zeroed).2 (pos % fs.blockSize)

variable {fs : Fs} {inode buffer : Bytes} {b offset nbyte : Nat}

theorem hasBlock_of_mapped (geo : Geometry fs) (h : fs.Mapped inode b) : fs.HasBlock inode b := by
  obtain ⟨hlt, haddr, r, hr, hlookup⟩ := h
  refine ⟨hlt, ?_⟩
  rwa [getRealBlockIndex_of_lookup geo haddr hlookup]

theorem readInodeBlock_ne_iff : (readInodeBlock fs inode b buffer).1 ≠ -1 ↔
    fs.HasBlock inode b := by
  rw [readInodeBlock, Fs.HasBlock]
  by_cases hlt : b < inodeBlocks fs inode
  · rw [if_neg (Nat.not_le.mpr hlt)]
    by_cases hzero : getRealBlockIndex fs inode b = 0
    · simp [hzero]
    · simp only [hzero, if_false, readBlock]
      omega
  · rw [if_pos (Nat.le_of_not_lt hlt)]
    omega

theorem HasBlock.readable (h : fs.HasBlock inode b) : fs.Readable inode (fs.rawByte inode) b := by
  have hread : ∀ buffer, readInodeBlock fs inode b buffer =
      readBlock fs (getRealBlockIndex fs inode b) buffer := by
    intro buffer
    rw [readInodeBlock, if_neg (Nat.not_le.mpr h.1)]
    exact if_neg h.2
  intro buffer
  rw [hread]
  simp only [readBlock, h.2, if_false, true_and]
  intro x hx
  rw [Fs.rawByte, addr_div hx, addr_mod hx, hread]
  simp only [readBlock, h.2, if_false]
  rw [blit_of_mem (Nat.zero_le x) (by omega), blit_of_mem (Nat.zero_le x) (by omega)]

/-- Where the range is in one block, that block is read. -/
theorem hasBlock_of_result (hsize : Inode.size inode ≠ 0)
    (hsame : offset / fs.blockSize = readEnd inode offset nbyte / fs.blockSize)
    (hret : (readInodeData fs inode offset nbyte buffer).1 ≠ -1) :
    fs.HasBlock inode (offset / fs.blockSize) := by
  rw [readInodeData, if_neg hsize, ← readEnd] at hret
  rw [if_pos hsame] at hret
  have hread : (readInodeBlock fs inode (offset / fs.blockSize) zeroed).1 ≠ -1 :=
    fun hfails => hret (by rw [if_pos hfails])
  exact readInodeBlock_ne_iff.mp hread

/-- The number of bytes within the size decides what is read. -/
theorem readInodeData_min (hle : offset ≤ Inode.size inode) (hlt : offset + nbyte < 2 ^ 32) :
    readInodeData fs inode offset nbyte buffer =
      readInodeData fs inode offset (min nbyte (Inode.size inode - offset)) buffer := by
  have hend : readEnd inode offset nbyte = readEnd inode offset
      (min nbyte (Inode.size inode - offset)) := by
    rw [readEnd, readEnd, u32_of_lt hlt, u32_of_lt (by omega)]
    split <;> split <;> omega
  rw [readInodeData, readInodeData, ← readEnd, ← readEnd, hend]

/-- Where the range ends in a block before the offset, its last block is copied to the
wrong place, and the byte that follows the copied part is not written. -/
theorem readInodeData_backward (hpos : 0 < fs.blockSize) (hle : fs.blockSize ≤ 2 ^ 31)
    (hsize : Inode.size inode ≠ 0)
    (hlt : readEnd inode offset nbyte / fs.blockSize < offset / fs.blockSize) (buffer : Bytes) :
    (readInodeData fs inode offset nbyte buffer).2 (readEnd inode offset nbyte % fs.blockSize) =
      buffer (readEnd inode offset nbyte % fs.blockSize) := by
  have hend : readEnd inode offset nbyte < 2 ^ 32 := by
    have hsum := u32_lt (offset + nbyte)
    rw [readEnd]
    split <;> omega
  rw [readInodeData, if_neg hsize, ← readEnd]
  generalize readEnd inode offset nbyte = last at *
  have hmod : last % fs.blockSize < fs.blockSize := Nat.mod_lt _ hpos
  have hmod' : offset % fs.blockSize < fs.blockSize := Nat.mod_lt _ hpos
  rw [if_neg (Nat.ne_of_gt hlt), Nat.sub_eq_zero_of_le (Nat.le_of_lt hlt), readBlocks,
    sub32_div_mul hend]
  dsimp only
  split
  · split
    · rfl
    · dsimp only
      rw [Nat.mul_zero, memcpy, if_neg]
      simp only [sub32, u32]
      omega
  · rfl

theorem ReadsCount.of_empty (hsize : Inode.size inode = 0) (hvalid : offset < 2 ^ 31 ∨ nbyte = 0) :
    ReadsCount fs inode offset nbyte := by
  have hread : ∀ buffer, readInodeData fs inode offset nbyte buffer = (0, buffer) := by
    intro buffer
    rw [readInodeData, if_pos hsize]
  have hcount : readCount (Inode.size inode) offset nbyte = 0 := by
    rw [readCount, hsize]
    rcases hvalid with hoffset | rfl
    · rw [i32_of_lt hoffset]
      omega
    omega
  refine ⟨fun buffer => ?_, zeroed, fun buffer x hx => ?_⟩
  · rw [hread, hcount]
  · rw [hread, hcount, if_neg (by omega)]

/-- The number of bytes, for an offset that is not behind the end. -/
theorem readCount_eq_min (hoffset : offset < 2 ^ 32) (hle : offset ≤ size)
    (hvalid : offset + nbyte ≤ size ∨ offset < 2 ^ 31) :
    readCount size offset nbyte = (min nbyte (size - offset) : Nat) := by
  rw [readCount]
  by_cases hlow : offset < 2 ^ 31
  · rw [i32_of_lt hlow]
    omega
  · have hneg := i32_neg (Nat.le_of_not_lt hlow) hoffset
    omega

theorem ReadsCount.of_inside (geo : Geometry fs)
    (hdense : ∀ b, b * fs.blockSize < Inode.size inode → fs.Mapped inode b)
    (hoffset : offset < Inode.size inode ∨
      offset = Inode.size inode ∧ fs.HasBlock inode (Inode.size inode / fs.blockSize))
    (hfits : min nbyte (Inode.size inode - offset) < 2 ^ 31)
    (hvalid : offset + nbyte ≤ Inode.size inode ∨ offset < 2 ^ 31 ∧ offset + nbyte < 2 ^ 32) :
    ReadsCount fs inode offset nbyte := by
  have hlt : Inode.size inode < 2 ^ 32 := load32_lt
  have hbounds := geo.blockSize_bounds
  have hpos : 0 < fs.blockSize := by omega
  have hle : offset ≤ Inode.size inode := by omega
  have hreadable : ∀ b, offset / fs.blockSize ≤ b →
      b ≤ fs.lastBlock offset (min nbyte (Inode.size inode - offset)) →
        fs.Readable inode (fs.rawByte inode) b := by
    intro b hlo hhi
    have hmul := (Nat.le_div_iff_mul_le hpos).mp hhi
    rcases hoffset with hinside | ⟨hend, hblock⟩
    · exact HasBlock.readable (hasBlock_of_mapped geo (hdense b (by omega)))
    · rw [Fs.lastBlock, show offset + (min nbyte (Inode.size inode - offset) - 1) = offset by omega]
        at hhi
      rw [Nat.le_antisymm hhi hlo, hend]
      exact HasBlock.readable hblock
  have hread := readInodeData_readable hpos (by omega) hreadable hfits
  have hcount : readCount (Inode.size inode) offset nbyte = _ :=
    readCount_eq_min (by omega) hle (by omega)
  refine ⟨fun buffer => ?_, fun x => fs.rawByte inode (offset + x), fun buffer x hx => ?_⟩
  · rw [readInodeData_min hle (by omega), (hread buffer).1, hcount]
  · rw [readInodeData_min hle (by omega), hcount]
    by_cases hin : x < min nbyte (Inode.size inode - offset)
    · rw [(hread buffer).2.1 x hin, if_pos (by exact_mod_cast hin)]
    · rw [(hread buffer).2.2 x hx (Nat.le_of_not_lt hin), if_neg (by exact_mod_cast hin)]

theorem readCount_nonneg (size offset nbyte : Nat) : 0 ≤ readCount size offset nbyte := by
  rw [readCount]
  omega

/-- The length of the range is the right number of bytes. -/
theorem ReadsCount.length_eq (h : ReadsCount fs inode offset nbyte) (hsize : Inode.size inode ≠ 0) :
    sub32 (readEnd inode offset nbyte) offset < 2 ^ 31 ∧
      (sub32 (readEnd inode offset nbyte) offset : Nat) = readCount
        (Inode.size inode) offset nbyte := by
  have hnonneg := readCount_nonneg (Inode.size inode) offset nbyte
  have hresult := h.result zeroed
  have hcases : (readInodeData fs inode offset nbyte zeroed).1 = -1 ∨ _ := readInodeData_fst hsize
  rcases hcases with hfails | hlength
  · omega
  · have hlt : sub32 (readEnd inode offset nbyte) offset < 2 ^ 31 := by
      by_contra hlarge
      have hneg := i32_neg (Nat.le_of_not_lt hlarge) (sub32_lt _ _)
      omega
    rw [i32_of_lt hlt] at hlength
    omega

/-- A range that wraps is not read: either its length is a word of 2 GiB and more, or the
offset is negative and not all bytes are written. -/
theorem ReadsCount.sum_lt (h : ReadsCount fs inode offset nbyte) (geo : Geometry fs)
    (hsize : Inode.size inode ≠ 0) (hoffset : offset < 2 ^ 32) (hnbyte : nbyte < 2 ^ 32) :
    offset + nbyte < 2 ^ 32 := by
  by_contra hwraps
  have hbounds := geo.blockSize_bounds
  have hpos : 0 < fs.blockSize := by omega
  obtain ⟨hlt, hlength⟩ := h.length_eq hsize
  have hend : readEnd inode offset nbyte < offset := by
    have hsum : u32 (offset + nbyte) = offset + nbyte - 2 ^ 32 := by
      rw [u32]
      omega
    rw [readEnd, hsum]
    split <;> omega
  have hback : readEnd inode offset nbyte + 2 ^ 31 < offset := by
    rw [sub32] at hlt
    omega
  have hblocks : readEnd inode offset nbyte / fs.blockSize < offset / fs.blockSize := by
    rw [Nat.div_lt_iff_lt_mul hpos]
    have hmod : offset % fs.blockSize < fs.blockSize := Nat.mod_lt _ hpos
    have hdiv := Nat.div_add_mod offset fs.blockSize
    rw [Nat.mul_comm] at hdiv
    omega
  obtain ⟨content, hwrites⟩ := h.writes
  have hat : readEnd inode offset nbyte % fs.blockSize ≤ readEnd inode offset nbyte :=
    Nat.mod_le _ _
  have hsame : ∀ buffer : Bytes, buffer (readEnd inode offset nbyte % fs.blockSize) =
      content (readEnd inode offset nbyte % fs.blockSize) := by
    intro buffer
    have hkept := readInodeData_backward hpos (by omega) hsize hblocks buffer
    rw [hwrites buffer _ (by omega), if_pos] at hkept
    · exact hkept.symm
    · rw [← hlength, sub32]
      omega
  have hzero : (0 : Byte) = 1 := (hsame zeroed).trans (hsame fun _ => 1).symm
  cases hzero

/-- In a file without holes, a read returns the number of bytes of the file in the range
exactly when the file is empty (and a negative offset comes with no bytes to read),
or the offset is not behind the end, the next block exists if it is the end, the
number is below 2 GiB, and neither offset nor sum wraps. -/
theorem reads_count_iff (geo : Geometry fs)
    (hdense : ∀ b, b * fs.blockSize < Inode.size inode → fs.Mapped inode b)
    (hoffset : offset < 2 ^ 32) (hnbyte : nbyte < 2 ^ 32) :
    ReadsCount fs inode offset nbyte ↔ Inode.size inode = 0 ∧ (offset < 2 ^ 31 ∨ nbyte = 0) ∨
      0 < Inode.size inode ∧ (offset < Inode.size inode ∨
          offset = Inode.size inode ∧ fs.HasBlock inode (Inode.size inode / fs.blockSize)) ∧
        min nbyte (Inode.size inode - offset) < 2 ^ 31 ∧
        (offset + nbyte ≤ Inode.size inode ∨ offset < 2 ^ 31 ∧ offset + nbyte < 2 ^ 32) := by
  constructor
  · intro h
    by_cases hsize : Inode.size inode = 0
    · refine .inl ⟨hsize, ?_⟩
      by_contra hnot
      have hneg := i32_neg (show 2 ^ 31 ≤ offset by omega) hoffset
      have hresult := h.result zeroed
      rw [readInodeData, if_pos hsize, readCount, hsize] at hresult
      omega
    · have hsum := h.sum_lt geo hsize hoffset hnbyte
      obtain ⟨hlt, hlength⟩ := h.length_eq hsize
      have hend : readEnd inode offset nbyte = min (Inode.size inode) (offset + nbyte) := by
        rw [readEnd, u32_of_lt hsum]
        split <;> omega
      have hnegative : 2 ^ 31 ≤ offset → readCount (Inode.size inode) offset nbyte = nbyte := by
        intro hlow
        rw [readCount, if_pos]
        rw [i32, u32_of_lt hoffset, if_neg (by omega)]
        omega
      have hle : offset ≤ Inode.size inode := by
        by_contra hbehind
        have hwrap : sub32 (readEnd inode offset nbyte) offset =
            Inode.size inode + 2 ^ 32 - offset := by
          rw [hend, sub32]
          omega
        omega
      have hlength' : sub32 (readEnd inode offset nbyte) offset =
          min nbyte (Inode.size inode - offset) := by
        rw [hend, sub32_of_le (by omega) (by omega)]
        omega
      refine .inr ⟨Nat.pos_of_ne_zero hsize, ?_, hlength' ▸ hlt, ?_⟩
      · rcases Nat.lt_or_eq_of_le hle with hinside | hat
        · exact .inl hinside
        · have hsame : offset / fs.blockSize = readEnd inode offset nbyte / fs.blockSize := by
            rw [hend, hat, Nat.min_eq_left (Nat.le_add_right _ _)]
          have hret : (readInodeData fs inode offset nbyte zeroed).1 ≠ -1 := by
            rw [h.result zeroed]
            omega
          exact .inr ⟨hat, hat ▸ hasBlock_of_result hsize hsame hret⟩
      omega
  · rintro (⟨hempty, hvalid⟩ | ⟨_, hinside, hfits, hvalid⟩)
    · exact ReadsCount.of_empty hempty hvalid
    · exact ReadsCount.of_inside geo hdense hinside hfits hvalid

/-- A file of ten bytes in block 12. -/
def tenBytes : Bytes := (Inode.setBlocksCount (Inode.setSize zeroed 10) 2).store32 40 12

theorem tenBytes_dense {b : Nat} (hb : b * (tiny true).blockSize < Inode.size tenBytes) :
    (tiny true).Mapped tenBytes b := by
  have hsize : Inode.size tenBytes = 10 := by decide
  have hblock : (tiny true).blockSize = 1024 := rfl
  obtain rfl : b = 0 := by
    rw [hsize, hblock] at hb
    omega
  exact ⟨by decide, ⟨by decide, by decide⟩, 12, by decide, by decide⟩

/-- From byte four on there are six bytes. -/
theorem reads_count_six : ReadsCount (tiny true) tenBytes 4 100 :=
  (reads_count_iff tiny_geometry (fun _ => tenBytes_dense) (by decide) (by decide)).mpr
    (.inr ⟨by decide, .inl (by decide), by decide, .inr ⟨by decide, by decide⟩⟩)

/-- From byte twenty on there is none. The result is -10, and the byte of the buffer at
offset 5000 is overwritten. -/
theorem read_behind_end : readCount (Inode.size tenBytes) 20 5 = 0 ∧
    (readInodeData (tiny true) tenBytes 20 5 fun _ => 1).1 = -10 ∧
    (readInodeData (tiny true) tenBytes 20 5 fun _ => 1).2 5000 = 0 ∧
    ¬ReadsCount (tiny true) tenBytes 20 5 := by
  have hcount : readCount (Inode.size tenBytes) 20 5 = 0 := by decide
  have hresult : (readInodeData (tiny true) tenBytes 20 5 fun _ => 1).1 = -10 := by decide +kernel
  refine ⟨hcount, hresult, by decide +kernel, fun h => ?_⟩
  have hzero := h.result fun _ => 1
  omega

end Hos.Ext2
