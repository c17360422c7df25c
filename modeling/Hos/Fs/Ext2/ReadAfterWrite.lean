import Hos.Fs.Ext2.Lost
import Hos.Lib.Refinement

/-!
# Reading what was written

A write to a file is correct exactly when the driver loses none of the blocks it
writes to and does not take a finished write for a failed one. `Data` has the
writes that succeed, `Lost` the ones that do not. Over sequences of such calls a file
is an array of bytes.
-/

namespace Hos.Ext2

open Nat

/-- `ext2_write_inode_data` writes the whole buffer, a read of the range returns
it, and the other bytes below the old size read as before. -/
def ReadAfterWrite (fs : Fs) (inode : Bytes) (inodeIndex offset n : Nat) (buffer : Bytes) : Prop :=
  ∃ fs' inode', writeInodeData fs inode inodeIndex offset n buffer = some ((n : Int), fs', inode') ∧
    (∀ out, (readInodeData fs' inode' offset n out).1 = n ∧
      ∀ x < n, (readInodeData fs' inode' offset n out).2 x = buffer x) ∧
    ∀ pos < Inode.size inode, pos < offset ∨ offset + n ≤ pos → ∀ out,
      (readInodeData fs' inode' pos 1 out).1 = (readInodeData fs inode pos 1 out).1 ∧
        (readInodeData fs' inode' pos 1 out).2 0 = (readInodeData fs inode pos 1 out).2 0

/-- The range ends inside its first block or with a block, and every block of it
is mapped already or is a direct block behind the end of the file. -/
def Fs.Writable (fs : Fs) (inode : Bytes) (offset n : Nat) : Prop :=
  (offset / fs.blockSize = (offset + n) / fs.blockSize ∨ (offset + n) % fs.blockSize = 0) ∧
    ∀ b, offset / fs.blockSize ≤ b → b ≤ fs.lastBlock offset n → fs.Usable inode b

variable {fs fs' : Fs} {inode inode' buffer : Bytes} {inodeIndex offset n : Nat}
  {level level' : Nat → Nat}

theorem le_lastBlock (offset n : Nat) (hpos : 0 < fs.blockSize) :
    offset + n ≤ (fs.lastBlock offset n + 1) * fs.blockSize := by
  have hmod : (offset + (n - 1)) % fs.blockSize < fs.blockSize := mod_lt _ hpos
  have hdiv := div_add_mod (offset + (n - 1)) fs.blockSize
  rw [Fs.lastBlock, add_mul, one_mul, mul_comm]
  omega

theorem size_le_of_mapped (hpos : 0 < fs.blockSize)
    (hheld : ∀ pos < Inode.size inode, fs.Mapped inode (pos / fs.blockSize)) :
    Inode.size inode ≤ inodeBlocks fs inode * fs.blockSize := by
  by_cases hzero : Inode.size inode = 0
  · rw [hzero]
    omega
  · have hlt := (hheld (Inode.size inode - 1) (by omega)).1
    rw [div_lt_iff_lt_mul hpos] at hlt
    omega

section

variable (h : MappedFile fs inode inodeIndex level)
include h

theorem readInodeData_byte {pos : Nat}
    (hsize : pos < Inode.size inode) (hmapped : fs.Mapped inode (pos / fs.blockSize))
    (out : Bytes) :
    (readInodeData fs inode pos 1 out).1 = 1 ∧
      (readInodeData fs inode pos 1 out).2 0 = fs.fileByte inode pos := by
  have hblocks : ∀ b, pos / fs.blockSize ≤ b → b ≤ fs.lastBlock pos 1 → fs.Mapped inode b :=
    fun b hlo hhi => by rwa [le_antisymm hhi hlo]
  obtain ⟨hret, hbyte⟩ := readInodeData_mapped h hsize hblocks (by decide) out
  exact ⟨hret, hbyte 0 one_pos⟩

theorem readAfterWrite_of_writable (hheld : ∀ pos < Inode.size inode,
    fs.Mapped inode (pos / fs.blockSize)) (hn : n < 2 ^ 31)
    (hend : (fs.lastBlock offset n + 1) * fs.blockSize < 2 ^ 32)
    (hfree : fs.lastBlock offset n < inodeBlocks fs inode + freeBlocksCount fs.superblock)
    (hwritable : fs.Writable inode offset n) :
    ReadAfterWrite fs inode inodeIndex offset n buffer := by
  have hbounds := h.sound.wellFormed.blockSize_bounds
  have hpos : 0 < fs.blockSize := by omega
  have hlast := le_lastBlock offset n hpos
  have hold := size_le_of_mapped hpos hheld
  obtain ⟨fs', inode', level', hrun, hmapped, hwritten⟩ := writeInodeData_mapped h hn (by omega)
    hwritable.1 hwritable.2 hfree buffer
  have hsize := hwritten.evolves.blockSize
  have hle := hwritten.le
  rw [inodeBlocks_extendedInode] at hle
  have hsize' : max (Inode.size inode) (offset + n) ≤ Inode.size inode' := by
    have hcover := (hmapped _ (Nat.div_le_div_right (Nat.le_add_right _ _)) (Nat.le_refl _)).1
    have hmul := mul_le_mul_right fs.blockSize hcover
    have hmul' := mul_le_mul_right fs.blockSize hle
    rcases hwritten.size with ⟨_, heq⟩ | ⟨_, heq⟩
    · rw [heq, size_extendedInode (by omega)]
    · have hcommute : (fs.lastBlock offset n + 1) * fs.blockSize ≤
          inodeBlocks fs' inode' * fs.blockSize := hmul
      omega
  have hlast' : fs'.lastBlock offset n = fs.lastBlock offset n := by
    rw [Fs.lastBlock, hsize, Fs.lastBlock]
  refine ⟨fs', inode', hrun, ?_, ?_⟩
  · intro out
    have hblocks : ∀ b, offset / fs'.blockSize ≤ b → b ≤ fs'.lastBlock offset n →
        fs'.Mapped inode' b := by rwa [hsize, hlast']
    obtain ⟨hret, hbytes⟩ := readInodeData_mapped hwritten.file (by omega) hblocks hn out
    refine ⟨hret, fun x hx => ?_⟩
    rw [hbytes x hx, hwritten.written _ (by omega) (by omega), bufferData, Nat.add_sub_cancel_left]
  · intro pos hpos' hout out
    have hat := hheld pos hpos'
    have hat' := hwritten.mapped _ ((mapped_extendedInode (offset + n) _).mpr hat)
    obtain ⟨hret, hbyte⟩ := readInodeData_byte h hpos' hat out
    have hlt : pos < Inode.size inode' := by omega
    obtain ⟨hret', hbyte'⟩ := readInodeData_byte hwritten.file hlt (hsize.symm ▸ hat') out
    refine ⟨hret'.trans hret.symm, ?_⟩
    rw [hbyte', hbyte, hwritten.kept pos ((mapped_extendedInode (offset + n) _).mpr hat) hout,
      fileByte_extendedInode]

/-- Where the last block of the range would be new and is not direct, the file
block is lost from the start. -/
theorem LostBlock.start (hend : (fs.lastBlock offset n + 1) * fs.blockSize < 2 ^ 32)
    (haddr : fs.Addressable (fs.lastBlock offset n))
    (hmapped : ∀ b < inodeBlocks fs inode, fs.Mapped inode b)
    (hvacant : ∀ b, inodeBlocks fs inode ≤ b → fs.Addressable b → (fs.lookup inode b).getD 0 = 0)
    (hcount : inodeBlocks fs inode ≤ fs.lastBlock offset n)
    (hindirect : indirectBlocks ≤ fs.lastBlock offset n) :
    LostBlock fs (extendedInode inode (offset + n)) inodeIndex (fs.lastBlock offset n) where
  map := ⟨level, (h.extended (offset + n)).toMapTree⟩
  indirect := hindirect
  addressable := haddr
  bounded := hend
  lost := by
    rw [lookup_extendedInode]
    exact hvacant _ hcount haddr
  found := by
    intro b _ _ hb
    rw [inodeBlocks_extendedInode] at hb
    obtain ⟨_, _, r, _, hr⟩ := hmapped b hb
    exact ⟨r, (lookup_extendedInode (offset + n) b).trans hr⟩
  count_le := by
    rw [inodeBlocks_extendedInode]
    omega
  nonempty := by
    have hbounds := h.sound.wellFormed.blockSize_bounds
    have hpos : 0 < fs.blockSize := by omega
    have hlast := le_lastBlock offset n hpos
    have hge : indirectBlocks * fs.blockSize ≤ offset + (n - 1) := by
      rw [← le_div_iff_mul_le hpos]
      exact hindirect
    rw [size_extendedInode (by omega), indirectBlocks] at *
    omega

end

/-- A sound file system, a file on it without holes below its size, and a range in the reach
of block numbers and 32-bit offsets with a free block for each of its new blocks. -/
structure WriteReady (fs : Fs) (inode : Bytes) (inodeIndex offset n : Nat) : Prop where
  file : ∃ level, MappedFile fs inode inodeIndex level
  held : ∀ pos < Inode.size inode, fs.Mapped inode (pos / fs.blockSize)
  count : n < 2 ^ 31
  bounded : (fs.lastBlock offset n + 1) * fs.blockSize < 2 ^ 32
  addressable : fs.Addressable (fs.lastBlock offset n)
  room : fs.lastBlock offset n < inodeBlocks fs inode + freeBlocksCount fs.superblock

/-- Writes that are ready are right if they are writable in the sense above. For a file
whose blocks are the ones it accounts for they are right in no other case. -/
theorem readAfterWrite_iff_writable :
    (WriteReady fs inode inodeIndex offset n ∧ fs.Writable inode offset n →
        ReadAfterWrite fs inode inodeIndex offset n buffer) ∧
      (WriteReady fs inode inodeIndex offset n →
        (∀ b < inodeBlocks fs inode, fs.Mapped inode b) →
        (∀ b, inodeBlocks fs inode ≤ b → fs.Addressable b → (fs.lookup inode b).getD 0 = 0) →
        (ReadAfterWrite fs inode inodeIndex offset n buffer ↔ fs.Writable inode offset n)) := by
  have hsuffices : WriteReady fs inode inodeIndex offset n → fs.Writable inode offset n →
      ReadAfterWrite fs inode inodeIndex offset n buffer := by
    rintro ⟨⟨level, h⟩, hheld, hn, hend, -, hfree⟩
    exact readAfterWrite_of_writable h hheld hn hend hfree
  refine ⟨fun ⟨hready, hwritable⟩ => hsuffices hready hwritable,
    fun hready hmapped hvacant => ⟨?_, hsuffices hready⟩⟩
  obtain ⟨⟨level, h⟩, hheld, hn, hend, haddr, hfree⟩ := hready
  rintro ⟨fs', inode', hrun, hread, _⟩
  have hbounds := h.sound.wellFormed.blockSize_bounds
  have hpos : 0 < fs.blockSize := by omega
  have hlast := le_lastBlock offset n hpos
  have hshape : offset / fs.blockSize = (offset + n) / fs.blockSize ∨
      (offset + n) % fs.blockSize = 0 := by
    by_contra hnot
    rw [not_or] at hnot
    have hret := writeInodeData_of_inside hpos (by omega) hnot.1 hnot.2 hrun
    omega
  refine ⟨hshape, fun b _ hb => ?_⟩
  by_cases hlt : b < inodeBlocks fs inode
  · exact Or.inl (hmapped b hlt)
  · refine Or.inr ⟨Nat.le_of_not_lt hlt, ?_⟩
    by_contra hindirect
    have hlost := LostBlock.start h hend haddr hmapped hvacant
      (Nat.le_trans (Nat.le_of_not_lt hlt) hb) (Nat.le_trans (Nat.le_of_not_lt hindirect) hb)
    obtain ⟨hlost', hevolves⟩ := writeInodeData_lost hlost (by omega) hpos hshape hrun
    have hlast' : fs'.lastBlock offset n = fs.lastBlock offset n := by
      rw [Fs.lastBlock, hevolves.blockSize, Fs.lastBlock]
    rw [← hlast'] at hlost'
    rw [← hevolves.blockSize] at hshape hpos
    exact readInodeData_ne hpos hlost'.nonempty (by omega) hshape hlost'.read zeroed
      (hread zeroed).1

theorem mappedFile_zeroed (level : Nat → Nat) (h : Sound fs) (hindex : fs.ValidInode inodeIndex) :
    MappedFile fs zeroed inodeIndex level where
  sound := h
  valid := hindex
  tree := fun b _ => tree_zero fs level (fs.path b).2
  inj := by
    intro b _ r hr _ _ hlookup _
    have hzero := follow_zero_getD fs.entry (fs.path b).2
    have hroot : zeroed.load32 (fs.path b).1 = 0 := rfl
    rw [Fs.lookup, hroot] at hlookup
    rw [hlookup] at hzero
    exact absurd hzero hr

theorem tiny_sound : Sound (tiny false) := ⟨tiny_addressed, by decide, tiny_not_isTail⟩

theorem readAfterWrite_whole_block : ReadAfterWrite (tiny false) zeroed 12 0 2048 fun _ => 65 :=
  readAfterWrite_iff_writable.1
    ⟨⟨⟨_, mappedFile_zeroed (fun _ => 0) tiny_sound ⟨by decide, by decide⟩⟩,
      fun _ hpos => absurd hpos (not_lt_zero _), by decide, by decide, ⟨by decide, by decide⟩,
      by decide⟩,
    Or.inr (by decide), fun _ _ hb => Or.inr ⟨zero_le _, lt_of_le_of_lt hb (by decide)⟩⟩

/-- Writing a block and a half to an empty file: the write reports a failure. -/
theorem writeInodeData_block_and_half :
    Sound (tiny false) ∧ 2 ≤ freeBlocksCount (tiny false).superblock ∧
      (∀ ret fs' inode', writeInodeData (tiny false) zeroed 12 0 3072 (fun _ => 65) =
        some (ret, fs', inode') → ret = -1) ∧
      ¬ReadAfterWrite (tiny false) zeroed 12 0 3072 fun _ => 65 := by
  have hfails : ∀ ret fs' inode', writeInodeData (tiny false) zeroed 12 0 3072 (fun _ => 65) =
      some (ret, fs', inode') → ret = -1 := fun ret fs' inode' hrun =>
    writeInodeData_of_inside (by decide) (by decide) (by decide) (by decide) hrun
  refine ⟨tiny_sound, by decide, hfails, ?_⟩
  rintro ⟨fs', inode', hrun, _⟩
  cases hfails _ _ _ hrun

/-- A call on a file. -/
inductive FileCall where
  | read (offset n : Nat) (out : Bytes)
  | write (offset n : Nat) (buffer : Bytes)

namespace FileCall

/-- The call with its returned value and the bytes that it reads. -/
def exec (inodeIndex : Nat) : FileCall → Fs × Bytes → Option ((Fs × Bytes) × Int × List Byte)
  | read offset n out, (fs, inode) =>
    let (ret, out) := readInodeData fs inode offset n out
    some ((fs, inode), ret, (List.range n).map out)
  | write offset n buffer, (fs, inode) => do
    let (ret, fs, inode) ← writeInodeData fs inode inodeIndex offset n buffer
    some ((fs, inode), ret, [])

/-- The call on an array, which has no byte where none was written. -/
def spec : FileCall → (Nat → Option Byte) → (Nat → Option Byte) × Int × List Byte
  | read offset n _, data => (data, n, (List.range n).map fun x => (data (offset + x)).getD 0)
  | write offset n buffer, data =>
    (fun pos => if offset ≤ pos ∧ pos < offset + n then some (buffer (pos - offset)) else data pos,
      n, [])

/-- Reads of bytes that were written, and writes that lose no block. -/
def Safe : FileCall → Fs × Bytes → (Nat → Option Byte) → Prop
  | read offset n _, _, data => 0 < n ∧ n < 2 ^ 31 ∧ ∀ x < n, data (offset + x) ≠ none
  | write offset n _, (fs, inode), _ =>
    n < 2 ^ 31 ∧ (fs.lastBlock offset n + 1) * fs.blockSize < 2 ^ 32 ∧
    fs.lastBlock offset n < inodeBlocks fs inode + freeBlocksCount fs.superblock ∧
      fs.Writable inode offset n

end FileCall

/-- The file has all the blocks that it accounts for, and the bytes of `data` are in them. -/
structure HoldsData (inodeIndex : Nat) (fs : Fs) (inode : Bytes)
    (data : Nat → Option Byte) : Prop where
  file : ∃ level, MappedFile fs inode inodeIndex level
  mapped : ∀ b < inodeBlocks fs inode, fs.Mapped inode b
  size_le : Inode.size inode ≤ inodeBlocks fs inode * fs.blockSize
  byte : ∀ pos v, data pos = some v → pos < Inode.size inode ∧ fs.fileByte inode pos = v

namespace HoldsData

variable {data : Nat → Option Byte}

theorem mapped_of_lt (h : HoldsData inodeIndex fs inode data) {pos : Nat}
    (hpos : pos < Inode.size inode) :
    ∀ b ≤ pos / fs.blockSize, fs.Mapped inode b := by
  intro b hb
  have hlt : pos / fs.blockSize < inodeBlocks fs inode :=
    Nat.div_lt_of_lt_mul (Nat.mul_comm _ _ ▸ hpos.trans_le h.size_le)
  exact h.mapped b (hb.trans_lt hlt)

theorem read (h : HoldsData inodeIndex fs inode data) (hpos : 0 < n) (hn : n < 2 ^ 31)
    (hdata : ∀ x < n, data (offset + x) ≠ none) (out : Bytes) :
    (readInodeData fs inode offset n out).1 = n ∧
      ∀ x < n, (readInodeData fs inode offset n out).2 x = (data (offset + x)).getD 0 := by
  obtain ⟨level, hfile⟩ := h.file
  have hbyte : ∀ x < n, offset + x < Inode.size inode ∧
      fs.fileByte inode (offset + x) = (data (offset + x)).getD 0 := by
    intro x hx
    obtain ⟨v, hv⟩ := Option.ne_none_iff_exists'.mp (hdata x hx)
    rw [hv]
    exact h.byte _ v hv
  have hlast := (hbyte (n - 1) (by omega)).1
  obtain ⟨hret, hread⟩ := readInodeData_mapped hfile (by omega)
    (fun b _ hb => h.mapped_of_lt hlast b hb) hn out
  exact ⟨hret, fun x hx => (hread x hx).trans (hbyte x hx).2⟩

theorem write (h : HoldsData inodeIndex fs inode data)
    (hsafe : (FileCall.write offset n buffer).Safe (fs, inode) data) :
    ∃ fs' inode', writeInodeData fs inode inodeIndex offset n buffer = some
      ((n : Int), fs', inode') ∧
      HoldsData inodeIndex fs' inode' (FileCall.spec (.write offset n buffer) data).1 := by
  obtain ⟨level, hfile⟩ := h.file
  obtain ⟨hn, hend, hfree, hshape, hblocks⟩ := hsafe
  have hbounds := hfile.sound.wellFormed.blockSize_bounds
  have hlast : offset + n ≤ (fs.lastBlock offset n + 1) * fs.blockSize :=
    le_lastBlock offset n (by omega)
  obtain ⟨fs', inode', level', hrun, hmapped, hwritten⟩ :=
    writeInodeData_mapped hfile hn (by omega) hshape hblocks hfree buffer
  have hle := hwritten.le
  have happended := hwritten.appended
  rw [inodeBlocks_extendedInode] at hle happended
  have hold := h.size_le.trans (mul_le_mul_right fs.blockSize hle)
  have hnew : (fs.lastBlock offset n + 1) * fs.blockSize ≤ inodeBlocks fs' inode' * fs.blockSize :=
    Nat.mul_le_mul_right _ (hmapped _ (Nat.div_le_div_right (Nat.le_add_right _ _))
      (le_refl _)).1
  have hsize : max (Inode.size inode) (offset + n) ≤ Inode.size inode' ∧
      Inode.size inode' ≤ inodeBlocks fs' inode' * fs.blockSize := by
    have hextended : Inode.size (extendedInode inode (offset + n)) = max (Inode.size inode)
        (offset + n) :=
      size_extendedInode (by omega)
    obtain ⟨-, heq⟩ | ⟨-, heq⟩ := hwritten.size <;> omega
  refine ⟨fs', inode', hrun, ⟨level', hwritten.file⟩, fun b hb => ?_, ?_, fun pos v hv => ?_⟩
  · obtain hlt | hge := lt_or_ge b (inodeBlocks fs inode)
    · exact hwritten.mapped b ((mapped_extendedInode _ b).mpr (h.mapped b hlt))
    · exact happended b hge hb
  · rw [hwritten.evolves.blockSize]
    exact hsize.2
  · dsimp only [FileCall.spec] at hv
    split at hv
    · cases hv
      exact ⟨by omega, hwritten.written pos (by omega) (by omega)⟩
    · obtain ⟨hlt, rfl⟩ := h.byte pos v hv
      have hat := h.mapped_of_lt hlt _ (le_refl _)
      refine ⟨by omega, ?_⟩
      rw [hwritten.kept pos ((mapped_extendedInode _ _).mpr hat) (by omega), fileByte_extendedInode]

end HoldsData

end Hos.Ext2
