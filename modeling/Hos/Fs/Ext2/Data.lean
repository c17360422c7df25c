import Hos.Fs.Ext2.FileMap

/-!
# File data

`ext2_read_inode_data` on a dense file returns the contents of the file, and
`ext2_write_inode_data` changes exactly the range it is given, as long as every
block it touches is a direct block or one that the file has already, and the
range does not end inside a block other than its first one. In the first case
the pointer to a new block is lost, in the second a test of the source is the
wrong way round.
-/

namespace Hos.Ext2

open Option Nat

open Bytes

section

variable {m src : Bytes} {a s n x : Nat}

theorem memcpy_of_mem (hlo : a ≤ x) (hhi : x < a + n) (hx : x < 2 ^ 32)
    (hs : s + (x - a) < 2 ^ 32) : memcpy m a src s n x = src (s + (x - a)) := by
  rw [memcpy, sub32_of_le hx hlo, if_pos (by omega), u32_of_lt hs]

theorem memcpy_of_notMem (h : x < a ∨ a + n ≤ x) (hx : x < 2 ^ 32) (ha : a + n ≤ 2 ^ 32) :
    memcpy m a src s n x = m x := by
  rw [memcpy, if_neg]
  simp only [sub32]
  omega

/-- Where in its block a position is. -/
theorem sub32_div_mul {e k : Nat} (he : e < 2 ^ 32) : sub32 e (u32 (e / k * k)) = e % k := by
  have hdiv := div_add_mod' e k
  rw [u32_of_lt (by omega), sub32_of_le he (by omega)]
  omega

end

section

variable {fs : Fs} {inode : Bytes} {inodeIndex b offset n : Nat} {level : Nat → Nat}
  {data : Nat → Byte}

section

variable (h : MappedFile fs inode inodeIndex level) (hb : fs.Mapped inode b)
include h hb

theorem MappedFile.realBlock :
    fs.InUse (getRealBlockIndex fs inode b) ∧ level (getRealBlockIndex fs inode b) = 0 ∧
      fs.lookup inode b = some (getRealBlockIndex fs inode b) := by
  obtain ⟨_, haddr, r, hr, hlookup⟩ := hb
  rw [getRealBlockIndex_of_lookup h.sound.wellFormed.toGeometry haddr hlookup]
  obtain ⟨hin, hlevel⟩ := h.data haddr hlookup hr
  exact ⟨hin, hlevel, hlookup⟩

theorem MappedFile.fileByte_eq {x : Nat} (hx : x < fs.blockSize) :
    fs.fileByte inode (b * fs.blockSize + x) = fs.block (getRealBlockIndex fs inode b) x := by
  rw [Fs.fileByte, addr_div hx, addr_mod hx, (h.realBlock hb).2.2, getD_some]

theorem readInodeBlock_mapped (buffer : Bytes) :
    (readInodeBlock fs inode b buffer).1 = fs.blockSize ∧
      ∀ x < fs.blockSize, (readInodeBlock fs inode b buffer).2 x =
        fs.fileByte inode (b * fs.blockSize + x) := by
  obtain ⟨hin, _⟩ := h.realBlock hb
  have hread := readBlock_spec buffer hin.ne_zero (h.sound.wellFormed.offset_lt hin.lt)
  have heq : readInodeBlock fs inode b buffer = readBlock fs (getRealBlockIndex fs inode b)
      buffer := by
    rw [readInodeBlock, if_neg (not_le.mpr hb.1)]
    exact if_neg hin.ne_zero
  rw [heq]
  refine ⟨hread.1, fun x hx => ?_⟩
  rw [hread.2 x hx, h.fileByte_eq hb hx]

end

/-- `ext2_read_inode_block` reads file block `b`, and these are its bytes. -/
def Fs.Readable (fs : Fs) (inode : Bytes) (data : Nat → Byte) (b : Nat) : Prop :=
  ∀ buffer, (readInodeBlock fs inode b buffer).1 = fs.blockSize ∧
    ∀ x < fs.blockSize, (readInodeBlock fs inode b buffer).2 x = data (b * fs.blockSize + x)

/-- Where the bytes of file block `startBlock + k` begin in the block and in the buffer: in the
first block not before the offset. -/
theorem exists_piece (hpos : 0 < fs.blockSize) {offset k : Nat}
    (hlt : (offset / fs.blockSize + k) * fs.blockSize < 2 ^ 32) :
    ∃ p s, p < fs.blockSize ∧ (p = 0 ∨ s = 0) ∧
      (offset / fs.blockSize + k) * fs.blockSize + p = offset + s ∧
      (∀ m src : Bytes, (if k = 0 then
          memcpy m 0 src (offset % fs.blockSize) (fs.blockSize - offset % fs.blockSize)
        else memcpy m (sub32 (u32 (fs.blockSize * k)) (offset % fs.blockSize)) src 0 fs.blockSize) =
          memcpy m s src p (fs.blockSize - p)) ∧
      ∀ m src : Bytes, (if k = 0 then
          memcpy m (offset % fs.blockSize) src 0 (fs.blockSize - offset % fs.blockSize)
        else memcpy m 0 src (sub32 (u32 (fs.blockSize * k)) (offset % fs.blockSize)) fs.blockSize) =
          memcpy m p src s (fs.blockSize - p) := by
  have hmod : offset % fs.blockSize < fs.blockSize := mod_lt _ hpos
  have hdiv := div_add_mod offset fs.blockSize
  have hmul : (offset / fs.blockSize + k) * fs.blockSize =
      fs.blockSize * (offset / fs.blockSize) + fs.blockSize * k := by ring
  by_cases hk : k = 0
  · have hzero : fs.blockSize * k = 0 := by rw [hk, mul_zero]
    exact ⟨offset % fs.blockSize, 0, hmod, .inr rfl, by omega, fun _ _ => if_pos hk,
      fun _ _ => if_pos hk⟩
  · have hge : fs.blockSize ≤ fs.blockSize * k := Nat.le_mul_of_pos_right _ (Nat.pos_of_ne_zero hk)
    have hat : sub32 (u32 (fs.blockSize * k)) (offset % fs.blockSize) =
        fs.blockSize * k - offset % fs.blockSize := by
      rw [u32_of_lt (by omega), sub32_of_le (by omega) (by omega)]
    exact ⟨0, fs.blockSize * k - offset % fs.blockSize, hpos, .inl rfl, by omega,
      fun _ _ => hat ▸ if_neg hk, fun _ _ => hat ▸ if_neg hk⟩

/-- The blocks behind block `b + k`. -/
theorem block_succ (b k n size : Nat) : b + (k + 1) + n = b + k + (n + 1) ∧
    (b + (k + 1)) * size = (b + k) * size + size ∧
      (b + (k + 1)) * size ≤ (b + (k + 1) + n) * size :=
  ⟨by omega, by ring, mul_le_mul_right _ (le_add_right _ n)⟩

/-- Copying the bytes of a block from `p` on behind the first `s` bytes of the buffer. -/
theorem memcpy_read {p s : Nat} {cache buffer : Bytes} (hat : b * fs.blockSize + p = offset + s)
    (hin : p + n ≤ fs.blockSize) (hp : p + n ≤ 2 ^ 32) (hs : s + n ≤ 2 ^ 32)
    (hbytes : ∀ x < fs.blockSize, cache x = data (b * fs.blockSize + x))
    (hread : ∀ x < s, buffer x = data (offset + x)) :
    (∀ x < s + n, memcpy buffer s cache p n x = data (offset + x)) ∧
      ∀ x < 2 ^ 32, s + n ≤ x → memcpy buffer s cache p n x = buffer x := by
  refine ⟨fun x hx => ?_, fun x hx hout => memcpy_of_notMem (.inr hout) hx hs⟩
  by_cases hold : x < s
  · rw [memcpy_of_notMem (.inl hold) (by omega) hs, hread x hold]
  · rw [memcpy_of_mem (by omega) hx (by omega) (by omega), hbytes _ (by omega)]
    exact congrArg data (by omega)

/-- The loop has read the file up to block `startBlock + k`. What it reads goes before
the end of the last block. -/
theorem readBlocks_readable (hpos : 0 < fs.blockSize) (offset : Nat) {k : Nat}
    (hreadable : ∀ b, offset / fs.blockSize + k ≤ b → b < offset / fs.blockSize + k + n →
      fs.Readable inode data b)
    (hlt : (offset / fs.blockSize + k + n) * fs.blockSize < 2 ^ 32) (cache buffer : Bytes)
    (hread : ∀ x, offset + x < (offset / fs.blockSize + k) * fs.blockSize →
      buffer x = data (offset + x)) :
    ∃ cache' buffer', readBlocks fs inode offset (offset / fs.blockSize) n k cache buffer =
        (true, cache', buffer') ∧
      (∀ x, offset + x < (offset / fs.blockSize + k + n) * fs.blockSize →
        buffer' x = data (offset + x)) ∧
      ∀ x < 2 ^ 32, (offset / fs.blockSize + k + n) * fs.blockSize ≤ offset + x →
        buffer' x = buffer x := by
  induction n generalizing k cache buffer with
  | zero => exact ⟨cache, buffer, rfl, hread, fun _ _ _ => rfl⟩
  | succ n ih =>
    obtain ⟨hret, hbytes⟩ := hreadable (offset / fs.blockSize + k) (le_refl _) (by omega) cache
    have hok : (readInodeBlock fs inode (offset / fs.blockSize + k) cache).1 ≠ -1 := by omega
    obtain ⟨hshift, hmul, hle⟩ := block_succ (offset / fs.blockSize) k n fs.blockSize
    rw [← hshift] at hlt ⊢
    obtain ⟨p, s, hp, hends, hat, hcopy, -⟩ :=
      exists_piece hpos (show (offset / fs.blockSize + k) * fs.blockSize < 2 ^ 32 by omega)
    obtain ⟨hnew, hkept⟩ := memcpy_read (n := fs.blockSize - p) hat (by omega) (by omega) (by omega)
      hbytes fun x hx => hread x (by omega)
    obtain ⟨cache', buffer', hrun, hdone, hrest⟩ :=
      ih (fun b hlo hhi => hreadable b (by omega) (by omega)) hlt
        (readInodeBlock fs inode (offset / fs.blockSize + k) cache).2 _ fun x hx =>
          hnew x (by omega)
    refine ⟨cache', buffer', ?_, hdone, fun x hx hout => ?_⟩
    · rw [readBlocks]
      simp only [hok, if_false, hcopy]
      exact hrun
    · rw [hrest x hx hout, hkept x hx (by omega)]

/-- The last file block with bytes of a range, or the block where an empty range lies. -/
def Fs.lastBlock (fs : Fs) (offset n : Nat) : Nat := (offset + (n - 1)) / fs.blockSize

theorem lastBlock_of_same (h : offset / fs.blockSize = (offset + n) / fs.blockSize) :
    fs.lastBlock offset n = offset / fs.blockSize := by
  apply le_antisymm
  · rw [h]
    exact Nat.div_le_div_right (by omega)
  · exact Nat.div_le_div_right (Nat.le_add_right _ _)

theorem lastBlock_of_ends (hpos : 0 < fs.blockSize)
    (hne : offset / fs.blockSize ≠ (offset + n) / fs.blockSize)
    (hzero : (offset + n) % fs.blockSize = 0) :
    fs.lastBlock offset n + 1 = (offset + n) / fs.blockSize := by
  have hn : n ≠ 0 := by
    rintro rfl
    exact hne rfl
  have hdiv := div_add_mod (offset + n) fs.blockSize
  obtain ⟨m, hm⟩ : ∃ m, (offset + n) / fs.blockSize = m + 1 := by
    apply exists_eq_add_one_of_ne_zero
    intro hquot
    rw [hquot, mul_zero] at hdiv
    omega
  rw [hm, mul_succ] at hdiv
  rw [hm, Fs.lastBlock]
  congr 1
  apply Nat.div_eq_of_lt_le
  · rw [Nat.mul_comm]
    omega
  · rw [succ_mul, mul_comm]
    omega

/-- The end of the range in `ext2_read_inode_data`. -/
def readEnd (inode : Bytes) (offset nbyte : Nat) : Nat :=
  if Inode.size inode < u32 (offset + nbyte) then Inode.size inode else u32 (offset + nbyte)

/-- A read fails or returns the length of the range. -/
theorem readInodeData_fst {buffer : Bytes} (hsize : Inode.size inode ≠ 0) :
    (readInodeData fs inode offset n buffer).1 = -1 ∨
      (readInodeData fs inode offset n buffer).1 = i32 (sub32 (readEnd inode offset n) offset) := by
  rw [readInodeData, if_neg hsize, ← readEnd]
  dsimp only
  split
  · split
    · exact .inl rfl
    · exact .inr rfl
  · split
    · exact .inl rfl
    · split
      · split
        · exact .inl rfl
        · exact .inr rfl
      · exact .inr rfl

theorem readInodeData_readable (hpos : 0 < fs.blockSize) (hsize : offset + n ≤ Inode.size inode)
    (hreadable : ∀ b, offset / fs.blockSize ≤ b → b ≤ fs.lastBlock offset n →
      fs.Readable inode data b) (hn : n < 2 ^ 31) (buffer : Bytes) :
    (readInodeData fs inode offset n buffer).1 = n ∧
      (∀ x < n, (readInodeData fs inode offset n buffer).2 x = data (offset + x)) ∧
      ∀ x < 2 ^ 32, n ≤ x → (readInodeData fs inode offset n buffer).2 x = buffer x := by
  have hlt : Inode.size inode < 2 ^ 32 := load32_lt
  by_cases hempty : Inode.size inode = 0
  · rw [readInodeData, if_pos hempty]
    exact ⟨by omega, by omega, fun _ _ _ => rfl⟩
  have hend : readEnd inode offset n = offset + n := by
    rw [readEnd, u32_of_lt (by omega), if_neg (not_lt.mpr hsize)]
  have hlength : sub32 (offset + n) offset = n := by
    rw [sub32_of_le (by omega) (by omega)]
    omega
  rw [readInodeData, if_neg hempty, ← readEnd]
  simp only [hend, sub32_div_mul (show offset + n < 2 ^ 32 by omega), hlength, i32_of_lt hn]
  have hmod : offset % fs.blockSize < fs.blockSize := mod_lt _ hpos
  have hdiv := div_add_mod offset fs.blockSize
  have hmod' : (offset + n) % fs.blockSize < fs.blockSize := mod_lt _ hpos
  have hdiv' := div_add_mod (offset + n) fs.blockSize
  rw [mul_comm] at hdiv hdiv'
  by_cases hsame : offset / fs.blockSize = (offset + n) / fs.blockSize
  · obtain ⟨hret, hbytes⟩ := hreadable _ (le_refl _)
      (Nat.div_le_div_right (Nat.le_add_right _ _)) zeroed
    have hok : (readInodeBlock fs inode (offset / fs.blockSize) zeroed).1 ≠ -1 := by omega
    rw [← hsame] at hdiv'
    rw [if_pos hsame, if_neg hok]
    have hcopied := memcpy_read (n := n) (s := 0) hdiv (by omega) (by omega) (by omega) hbytes
      (show ∀ x < 0, buffer x = data (offset + x) by omega)
    rw [zero_add] at hcopied
    exact ⟨rfl, hcopied⟩
  · have hle : offset / fs.blockSize ≤ (offset + n) / fs.blockSize :=
      Nat.div_le_div_right (Nat.le_add_right _ _)
    have hlast : ∀ b, b * fs.blockSize < offset + n → b ≤ fs.lastBlock offset n :=
      fun b hb => (le_div_iff_mul_le hpos).mpr (by omega)
    have hbefore : ∀ b, b < (offset + n) / fs.blockSize → b * fs.blockSize < offset + n := by
      intro b hb
      have hmul := mul_le_mul_right fs.blockSize hb
      rw [succ_mul] at hmul
      omega
    have hsum : offset / fs.blockSize + 0 + ((offset + n) / fs.blockSize - offset / fs.blockSize) =
        (offset + n) / fs.blockSize := by omega
    obtain ⟨cache, buffer', hrun, hbuffer, hkept⟩ := readBlocks_readable hpos offset (k := 0)
      (n := (offset + n) / fs.blockSize - offset / fs.blockSize)
      (fun b hlo hhi => hreadable b hlo (hlast b (hbefore b (by omega))))
      (by rw [hsum]; omega) zeroed buffer (by intro x hx; rw [add_zero] at hx; omega)
    rw [hsum] at hbuffer hkept
    rw [if_neg hsame, hrun]
    by_cases hrest : (offset + n) % fs.blockSize = 0
    · simp only [hrest, ne_eq, not_true, if_false]
      exact ⟨trivial, fun x hx => hbuffer x (by omega), fun x hx hout => hkept x hx (by omega)⟩
    · obtain ⟨hret, hbytes⟩ := hreadable _ hle (hlast _ (by omega)) cache
      have hok : (readInodeBlock fs inode ((offset + n) / fs.blockSize) cache).1 ≠ -1 := by omega
      have hspan : fs.blockSize * ((offset + n) / fs.blockSize - offset / fs.blockSize) =
          (offset + n) / fs.blockSize * fs.blockSize - offset / fs.blockSize * fs.blockSize := by
        rw [Nat.mul_sub, Nat.mul_comm, Nat.mul_comm fs.blockSize]
      have hge : fs.blockSize ≤ fs.blockSize *
          ((offset + n) / fs.blockSize - offset / fs.blockSize) :=
        Nat.le_mul_of_pos_right _ (by omega)
      simp only [hrest, ne_eq, not_false_eq_true, if_true, hok, if_false]
      rw [u32_of_lt (by omega), sub32_of_le (by omega) (by omega)]
      obtain ⟨hnew, hold⟩ := memcpy_read (p := 0) (n := (offset + n) % fs.blockSize)
        (s := fs.blockSize * ((offset + n) / fs.blockSize - offset / fs.blockSize) - offset %
          fs.blockSize)
        (by omega) (by omega) (by omega) (by omega) hbytes fun x hx => hbuffer x (by omega)
      refine ⟨trivial, fun x hx => hnew x (by omega), fun x hx hout => ?_⟩
      rw [hold x hx (by omega), hkept x hx (by omega)]

theorem readInodeData_mapped (h : MappedFile fs inode inodeIndex level)
    (hsize : offset + n ≤ Inode.size inode)
    (hmapped : ∀ b, offset / fs.blockSize ≤ b → b ≤ fs.lastBlock offset n → fs.Mapped inode b)
    (hn : n < 2 ^ 31) (buffer : Bytes) :
    (readInodeData fs inode offset n buffer).1 = n ∧
      ∀ x < n, (readInodeData fs inode offset n buffer).2 x = fs.fileByte inode (offset + x) := by
  have hbounds := h.sound.wellFormed.blockSize_bounds
  obtain ⟨hret, hbytes, _⟩ := readInodeData_readable (by omega) hsize
    (fun b hlo hhi => readInodeBlock_mapped h (hmapped b hlo hhi)) hn buffer
  exact ⟨hret, hbytes⟩

end

variable {fs fs' : Fs} {inode inode' : Bytes} {inodeIndex b lo hi : Nat}
  {level level' : Nat → Nat} {data : Nat → Byte}

theorem MappedFile.write (h : MappedFile fs inode inodeIndex level)
    (hb : fs.Mapped inode b) (buffer : Bytes) :
    FileExtends fs inode inodeIndex (writeBlock fs (getRealBlockIndex fs inode b) buffer).2
      inode level ∧ ∀ pos, fs.Mapped inode (pos / fs.blockSize) →
        (writeBlock fs (getRealBlockIndex fs inode b) buffer).2.fileByte inode pos =
          if pos / fs.blockSize = b then buffer (pos % fs.blockSize)
          else fs.fileByte inode pos := by
  obtain ⟨hin, hlevel, hlookup⟩ := h.realBlock hb
  have hkeep := writeBlock_keepsTree h.sound hin hlevel buffer
  have hblock := writeBlock_block h.sound.wellFormed hin.ne_zero hin.lt buffer
  have hsb : (writeBlock fs (getRealBlockIndex fs inode b) buffer).2.superblock = fs.superblock :=
    writeBlock_superblock _ buffer
  generalize getRealBlockIndex fs inode b = r at *
  generalize (writeBlock fs r buffer).2 = fs' at *
  have hcount : inodeBlocks fs' inode = inodeBlocks fs inode := hkeep.evolves.inodeBlocks_eq
  have hlookups : ∀ b', fs.Addressable b' → fs'.lookup inode b' = fs.lookup inode b' :=
    fun b' hb' => (h.lookup_eq hkeep hb' rfl).2
  refine ⟨⟨⟨h.toMapTree.keep hkeep fun _ => rfl, ?_⟩, hkeep.evolves, ?_, ?_, ?_, ?_⟩, ?_⟩
  · intro b₁ b₂ r' hr' hb₁ hb₂ heq₁ heq₂
    rw [hkeep.evolves.addressable_iff] at hb₁ hb₂
    rw [hlookups b₁ hb₁] at heq₁
    rw [hlookups b₂ hb₂] at heq₂
    exact h.inj b₁ b₂ r' hr' hb₁ hb₂ heq₁ heq₂
  · rw [hsb, hcount]
  · omega
  · intro b' hb'
    refine ⟨hcount.symm ▸ hb'.1, hkeep.evolves.addressable hb'.2.1, ?_⟩
    rw [hlookups b' hb'.2.1]
    exact hb'.2.2
  · omega
  · intro pos hpos
    have hbounds := h.sound.wellFormed.blockSize_bounds
    have hmod : pos % fs.blockSize < fs.blockSize := mod_lt _ (by omega)
    obtain ⟨r', hr', hmap⟩ := hpos.2.2
    rw [Fs.fileByte, Fs.fileByte, hkeep.evolves.blockSize, hlookups _ hpos.2.1, hmap,
      getD_some, hblock r' hmod]
    refine if_congr ⟨?_, ?_⟩ rfl rfl
    · rintro rfl
      exact h.inj _ b r' hr' hpos.2.1 hb.2.1 hmap hlookup
    · rintro rfl
      exact some.inj (hmap.symm.trans hlookup)

/-- `ext2_write_inode_block` of a block that is not lost. -/
theorem writeInodeBlock_mapped (h : MappedFile fs inode inodeIndex level) (hb : fs.Usable inode b)
    (hfree : b < inodeBlocks fs inode + freeBlocksCount fs.superblock) (buffer : Bytes) :
    ∃ fs' inode' level', writeInodeBlock fs inode inodeIndex b buffer =
        some ((fs.blockSize : Int), fs', inode') ∧
      FileExtends fs inode inodeIndex fs' inode' level' ∧ fs'.Mapped inode' b ∧
      (∀ x < fs.blockSize, fs'.fileByte inode' (b * fs.blockSize + x) = buffer x) ∧
      ∀ pos, fs.Mapped inode (pos / fs.blockSize) → pos / fs.blockSize ≠ b →
        fs'.fileByte inode' pos = fs.fileByte inode pos := by
  obtain ⟨fs₁, inode₁, level₁, hrun, hextends, hbytes, hmapped⟩ := appendBlocks_direct h hb hfree
  obtain ⟨hin, _⟩ := hextends.file.realBlock hmapped
  obtain ⟨hextends₂, hbytes₂⟩ := hextends.file.write hmapped buffer
  have hwritten : (writeBlock fs₁ (getRealBlockIndex fs₁ inode₁ b) buffer).1 = fs.blockSize := by
    rw [← hextends.evolves.blockSize, writeBlock, if_neg hin.ne_zero]
  have heq : writeInodeBlock fs inode inodeIndex b buffer =
      some ((fs.blockSize : Int), (writeBlock fs₁ (getRealBlockIndex fs₁ inode₁ b) buffer).2,
        inode₁) := by
    rw [writeInodeBlock, hrun, ← hwritten]
    exact if_neg hin.ne_zero
  rw [hextends.evolves.blockSize] at hbytes₂
  refine ⟨_, inode₁, level₁, heq, hextends.trans hextends₂, hextends₂.mapped b hmapped, ?_, ?_⟩
  · intro x hx
    have hat := hbytes₂ (b * fs.blockSize + x)
    rw [addr_div hx, addr_mod hx, if_pos rfl] at hat
    exact hat hmapped
  · intro pos hpos hne
    rw [hbytes₂ pos (hextends.mapped _ hpos), if_neg hne]
    exact hbytes pos hpos

/-- The file now holds `data` from `lo` up to `hi`, and what it held elsewhere. -/
structure FileWritten (fs : Fs) (inode : Bytes) (inodeIndex : Nat) (data : Nat → Byte) (lo hi : Nat)
    (fs' : Fs) (inode' : Bytes) (level' : Nat → Nat) : Prop
    extends FileExtends fs inode inodeIndex fs' inode' level' where
  covers : ∀ pos, lo ≤ pos → pos < hi → fs'.Mapped inode' (pos / fs.blockSize)
  written : ∀ pos, lo ≤ pos → pos < hi → fs'.fileByte inode' pos = data pos
  kept : ∀ pos, fs.Mapped inode (pos / fs.blockSize) → pos < lo ∨ hi ≤ pos →
    fs'.fileByte inode' pos = fs.fileByte inode pos

theorem FileWritten.refl (h : MappedFile fs inode inodeIndex level) (hle : hi ≤ lo) :
    FileWritten fs inode inodeIndex data lo hi fs inode level where
  toFileExtends := FileExtends.refl h
  covers := fun pos hlo hhi => by omega
  written := fun pos hlo hhi => by omega
  kept := fun _ _ _ => rfl

theorem FileWritten.trans {fs'' : Fs} {inode'' : Bytes} {level'' : Nat → Nat} {mid : Nat}
    (h : FileWritten fs inode inodeIndex data lo mid fs' inode' level')
    (h' : FileWritten fs' inode' inodeIndex data mid hi fs'' inode'' level'')
    (hlo : lo ≤ mid) (hhi : mid ≤ hi) : FileWritten fs inode inodeIndex data lo hi fs'' inode''
      level'' := by
  have hsize := h.evolves.blockSize
  have hcovers := h'.covers
  have hkept := h'.kept
  rw [hsize] at hcovers hkept
  refine ⟨h.toFileExtends.trans h'.toFileExtends, ?_, ?_, ?_⟩
  · intro pos hpos hpos'
    by_cases hmid : pos < mid
    · exact h'.mapped _ (h.covers pos hpos hmid)
    · exact hcovers pos (Nat.le_of_not_lt hmid) hpos'
  · intro pos hpos hpos'
    by_cases hmid : pos < mid
    · rw [hkept pos (h.covers pos hpos hmid) (.inl hmid), h.written pos hpos hmid]
    · exact h'.written pos (Nat.le_of_not_lt hmid) hpos'
  · intro pos hpos hout
    rw [hkept pos (h.mapped _ hpos) (by omega), h.kept pos hpos (by omega)]

section

variable (h : MappedFile fs inode inodeIndex level)
include h

/-- Writing back a block of the file after a change from `p` up to `q`. -/
theorem writeInodeBlock_patch {p q : Nat} (hb : fs.Usable inode b)
    (hfree : b < inodeBlocks fs inode + freeBlocksCount fs.superblock) {cache : Bytes}
    (hq : q ≤ fs.blockSize) (hnew : ∀ x, p ≤ x → x < q → cache x = data (b * fs.blockSize + x))
    (hold : fs.Mapped inode b → ∀ x < fs.blockSize, x < p ∨ q ≤ x →
      cache x = fs.fileByte inode (b * fs.blockSize + x)) :
    ∃ fs' inode' level', writeInodeBlock fs inode inodeIndex b cache =
        some ((fs.blockSize : Int), fs', inode') ∧ fs'.Mapped inode' b ∧
      FileWritten fs inode inodeIndex data (b * fs.blockSize + p) (b * fs.blockSize + q)
        fs' inode' level' := by
  obtain ⟨fs', inode', level', hrun, hextends, hmapped, hblock, hother⟩ :=
    writeInodeBlock_mapped h hb hfree cache
  refine ⟨fs', inode', level', hrun, hmapped, hextends, ?_, ?_, ?_⟩
  · intro pos hlo hhi
    obtain ⟨x, rfl⟩ := Nat.exists_eq_add_of_le (Nat.le_trans (Nat.le_add_right _ p) hlo)
    rw [addr_div (by omega)]
    exact hmapped
  · intro pos hlo hhi
    obtain ⟨x, rfl⟩ := Nat.exists_eq_add_of_le (Nat.le_trans (Nat.le_add_right _ p) hlo)
    rw [hblock x (by omega), hnew x (by omega) (by omega)]
  · intro pos hpos hout
    by_cases hsame : pos / fs.blockSize = b
    · have hbounds := h.sound.wellFormed.blockSize_bounds
      have hmod : pos % fs.blockSize < fs.blockSize := mod_lt _ (by omega)
      have hdiv := div_add_mod pos fs.blockSize
      rw [hsame, mul_comm] at hdiv
      rw [← hdiv, hblock _ hmod]
      exact hold (hsame ▸ hpos) _ hmod (by omega)
    · exact hother pos hpos hsame

/-- Position `pos` of the file gets the byte of the buffer for it. -/
def bufferData (offset : Nat) (buffer : Bytes) (pos : Nat) : Byte := buffer (pos - offset)

/-- Writing back a block with the bytes of the buffer that belong from `p` up to `q`. -/
theorem writeInodeBlock_copy {p q s n offset : Nat} (hb : fs.Usable inode b)
    (hfree : b < inodeBlocks fs inode + freeBlocksCount fs.superblock) (hn : p + n = q)
    (hq : q ≤ fs.blockSize) (hat : b * fs.blockSize + p = offset + s) (hs : s + n ≤ 2 ^ 32)
    (buffer cache : Bytes) :
    ∃ fs' inode' level', writeInodeBlock fs inode inodeIndex b
        (memcpy (readInodeBlock fs inode b cache).2 p buffer s n) = some
          ((fs.blockSize : Int), fs', inode') ∧
      fs'.Mapped inode' b ∧ FileWritten fs inode inodeIndex (bufferData offset buffer)
        (b * fs.blockSize + p) (b * fs.blockSize + q) fs' inode' level' := by
  have hbounds := h.sound.wellFormed.blockSize_bounds
  refine writeInodeBlock_patch h hb hfree hq (fun x hlo hhi => ?_) fun hb x hx hout => ?_
  · rw [memcpy_of_mem hlo (by omega) (by omega) (by omega), bufferData]
    exact congrArg buffer (by omega)
  · rw [memcpy_of_notMem (by omega) (by omega) (by omega)]
    exact (readInodeBlock_mapped h hb cache).2 x hx

theorem writeBlocks_mapped {offset k n : Nat}
    (hblocks : ∀ b, offset / fs.blockSize + k ≤ b → b < offset / fs.blockSize + k + n →
      fs.Usable inode b)
    (hfree : n ≠ 0 → offset / fs.blockSize + k + n ≤ inodeBlocks fs inode + freeBlocksCount
      fs.superblock)
    (hlt : (offset / fs.blockSize + k + n) * fs.blockSize ≤ 2 ^ 32) (buffer cache : Bytes) :
    ∃ fs' inode' level' cache', writeBlocks inodeIndex offset (offset / fs.blockSize) buffer n k
        fs inode cache = some (true, fs', inode', cache') ∧
      FileWritten fs inode inodeIndex (bufferData offset buffer)
        (max offset ((offset / fs.blockSize + k) * fs.blockSize))
        (max offset ((offset / fs.blockSize + k + n) * fs.blockSize)) fs' inode' level' := by
  induction n generalizing k fs inode level cache with
  | zero => exact ⟨fs, inode, level, cache, rfl, FileWritten.refl h (le_refl _)⟩
  | succ n ih =>
    have hbounds := h.sound.wellFormed.blockSize_bounds
    obtain ⟨hshift, hnext, hle⟩ := block_succ (offset / fs.blockSize) k n fs.blockSize
    rw [← hshift] at hlt ⊢
    obtain ⟨p, s, hp, hends, hat, -, hcopy⟩ := exists_piece (by omega)
      (show (offset / fs.blockSize + k) * fs.blockSize < 2 ^ 32 by omega)
    obtain ⟨fs₁, inode₁, level₁, hrun, -, hwritten⟩ := writeInodeBlock_copy h
      (hblocks _ (le_refl _) (by omega)) (by omega) (add_sub_of_le (le_of_lt hp))
      (le_refl _) hat (by omega) buffer cache
    have hsize := hwritten.evolves.blockSize
    have hfree₁ := hwritten.free
    have hret : (fs.blockSize : Int) ≠ 0 := by omega
    obtain ⟨fs', inode', level', cache', hrest, hwritten'⟩ := ih hwritten.file (k := k + 1) (by
        rw [hsize]
        exact fun b hlo hhi => hwritten.usable (hblocks b (by omega) (by omega)))
      (by rw [hsize]; omega) (by rw [hsize]; exact hlt)
      (memcpy (readInodeBlock fs inode (offset / fs.blockSize + k) cache).2 p buffer s
        (fs.blockSize - p))
    rw [hsize] at hrest hwritten'
    have hlo : max offset ((offset / fs.blockSize + k) * fs.blockSize) =
        (offset / fs.blockSize + k) * fs.blockSize + p := by omega
    have hmid : max offset ((offset / fs.blockSize + (k + 1)) * fs.blockSize) =
        (offset / fs.blockSize + k) * fs.blockSize + fs.blockSize := by omega
    rw [hmid] at hwritten'
    rw [hlo]
    refine ⟨fs', inode', level', cache', ?_, hwritten.trans hwritten' (by omega) (by omega)⟩
    rw [writeBlocks, hcopy, hrun]
    simp only [bind_eq_bind, bind_some, hret, if_false]
    exact hrest

end

/-- The inode after `ext2_write_inode_data` has accounted for the end of the range. -/
def extendedInode (inode : Bytes) (endOffset : Nat) : Bytes :=
  if Inode.size inode < endOffset then Inode.setSize inode endOffset else inode

theorem extendedInode_of_le (endOffset : Nat) {x : Nat} (hx : 40 ≤ x) :
    extendedInode inode endOffset x = inode x := by
  rw [extendedInode]
  split
  · exact store32_of_notMem (by omega)
  · rfl

theorem inodeBlocks_extendedInode (endOffset : Nat) :
    inodeBlocks fs (extendedInode inode endOffset) = inodeBlocks fs inode := by
  rw [extendedInode]
  split
  · rfl
  · rfl

theorem size_extendedInode {endOffset : Nat} (hend : endOffset < 2 ^ 32) :
    Inode.size (extendedInode inode endOffset) = max (Inode.size inode) endOffset := by
  rw [extendedInode]
  split
  · rw [Inode.setSize, Inode.size, load32_store32_self, mod_eq_of_lt hend]
    omega
  · omega

theorem lookup_extendedInode (endOffset : Nat) (b : Nat) :
    fs.lookup (extendedInode inode endOffset) b = fs.lookup inode b := by
  rw [Fs.lookup, Fs.lookup, load32_path_congr (fun _ hx => extendedInode_of_le endOffset hx)]

theorem mapped_extendedInode (endOffset : Nat) (b : Nat) :
    fs.Mapped (extendedInode inode endOffset) b ↔ fs.Mapped inode b := by
  rw [Fs.Mapped, Fs.Mapped, inodeBlocks_extendedInode, lookup_extendedInode]

theorem fileByte_extendedInode (endOffset pos : Nat) :
    fs.fileByte (extendedInode inode endOffset) pos = fs.fileByte inode pos := by
  rw [Fs.fileByte, Fs.fileByte, lookup_extendedInode]

theorem MappedFile.extended (h : MappedFile fs inode inodeIndex level) (endOffset : Nat) :
    MappedFile fs (extendedInode inode endOffset) inodeIndex level where
  toMapTree := h.toMapTree.keep (KeepsTree.refl h.sound level)
    (load32_path_congr fun _ hx => extendedInode_of_le endOffset hx)
  inj := by
    intro b b' r hr hb hb' heq heq'
    rw [lookup_extendedInode] at heq heq'
    exact h.inj b b' r hr hb hb' heq heq'

/-- `ext2_write_inode_data` when no block is lost and the last partial block is also the first. -/
theorem writeInodeData_mapped (h : MappedFile fs inode inodeIndex level) {offset n : Nat}
    (hn : n < 2 ^ 31) (hend : offset + n < 2 ^ 32)
    (hshape : offset / fs.blockSize = (offset + n) / fs.blockSize ∨ (offset + n) % fs.blockSize = 0)
    (hblocks : ∀ b, offset / fs.blockSize ≤ b → b ≤ fs.lastBlock offset n → fs.Usable inode b)
    (hfree : fs.lastBlock offset n < inodeBlocks fs inode + freeBlocksCount fs.superblock)
    (buffer : Bytes) :
    ∃ fs' inode' level', writeInodeData fs inode inodeIndex offset n buffer = some
      ((n : Int), fs', inode') ∧
      (∀ b, offset / fs.blockSize ≤ b → b ≤ fs.lastBlock offset n → fs'.Mapped inode' b) ∧
      FileWritten fs (extendedInode inode (offset + n)) inodeIndex (bufferData offset buffer) offset
        (offset + n) fs' inode' level' := by
  have hbounds := h.sound.wellFormed.blockSize_bounds
  have hmod : offset % fs.blockSize < fs.blockSize := mod_lt _ (by omega)
  have hdiv := div_add_mod offset fs.blockSize
  have hmod' : (offset + n) % fs.blockSize < fs.blockSize := mod_lt _ (by omega)
  have hdiv' := div_add_mod (offset + n) fs.blockSize
  rw [Nat.mul_comm] at hdiv hdiv'
  have hlength : sub32 (offset + n) offset = n := by
    rw [sub32_of_le (by omega) (by omega)]
    omega
  have hfile := h.extended (offset + n)
  have husable : ∀ b, offset / fs.blockSize ≤ b → b ≤ fs.lastBlock offset n →
      fs.Usable (extendedInode inode (offset + n)) b := by
    intro b hlo hhi
    rw [Fs.Usable, mapped_extendedInode, inodeBlocks_extendedInode]
    exact hblocks b hlo hhi
  rw [← inodeBlocks_extendedInode (offset + n)] at hfree
  rw [writeInodeData]
  simp only [u32_of_lt hend, sub32_div_mul hend, hlength, i32_of_lt hn]
  rw [← extendedInode]
  generalize extendedInode inode (offset + n) = inode₁ at *
  by_cases hsame : offset / fs.blockSize = (offset + n) / fs.blockSize
  · rw [lastBlock_of_same hsame] at husable hfree ⊢
    rw [← hsame] at hdiv'
    obtain ⟨fs', inode', level', hrun, hmapped, hwritten⟩ := writeInodeBlock_copy hfile
      (husable _ (Nat.le_refl _) (Nat.le_refl _)) hfree rfl
        (show offset % fs.blockSize + n ≤ _ by omega)
      (show _ = offset + 0 by omega) (by omega) buffer zeroed
    have hret : (fs.blockSize : Int) ≠ 0 := by omega
    rw [if_pos hsame, hrun]
    simp only [bind_eq_bind, bind_some, hret, if_false]
    refine ⟨fs', inode', level', rfl, ?_, ?_⟩
    · intro b hlo hhi
      rwa [Nat.le_antisymm hhi hlo]
    · rwa [hdiv, ← Nat.add_assoc, hdiv] at hwritten
  · have hzero := hshape.resolve_left hsame
    have hle : offset / fs.blockSize ≤ (offset + n) / fs.blockSize :=
      Nat.div_le_div_right (Nat.le_add_right _ _)
    have hsum : offset / fs.blockSize + 0 + ((offset + n) / fs.blockSize - offset / fs.blockSize) =
        (offset + n) / fs.blockSize := by omega
    have hn0 : n ≠ 0 := by
      rintro rfl
      exact hsame rfl
    have hends := lastBlock_of_ends (by omega) hsame hzero
    have hlast : ∀ b, b ≤ fs.lastBlock offset n ↔ b < (offset + n) / fs.blockSize := by
      rw [← hends]
      omega
    obtain ⟨fs', inode', level', cache, hrun, hwritten⟩ := writeBlocks_mapped hfile (k := 0)
      (n := (offset + n) / fs.blockSize - offset / fs.blockSize)
      (fun b hlo hhi => husable b hlo ((hlast b).mpr (by omega))) (by omega)
      (by rw [hsum]; omega) buffer zeroed
    have hlo : max offset ((offset / fs.blockSize + 0) * fs.blockSize) = offset := by
      rw [Nat.add_zero]
      omega
    have hhi : max offset ((offset + n) / fs.blockSize * fs.blockSize) = offset + n := by omega
    rw [hsum, hlo, hhi] at hwritten
    rw [if_neg hsame, hrun]
    simp only [bind_eq_bind, bind_some, hzero, ne_eq, not_true, if_false]
    refine ⟨fs', inode', level', rfl, ?_, hwritten⟩
    intro b hlo hhi
    have hb := (hlast b).mp hhi
    have hmul := Nat.mul_le_mul_right fs.blockSize hb
    rw [succ_mul] at hmul
    have hat := hwritten.covers (max offset (b * fs.blockSize)) (by omega) (by omega)
    have hmul' := Nat.mul_le_mul_right fs.blockSize hlo
    have hblock : max offset (b * fs.blockSize) / fs.blockSize = b := by
      refine Nat.div_eq_of_lt_le (by omega) ?_
      have hstart : offset < b * fs.blockSize + fs.blockSize := by omega
      rw [succ_mul]
      omega
    rwa [hblock] at hat

end Hos.Ext2
