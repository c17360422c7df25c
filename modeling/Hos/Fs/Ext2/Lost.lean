import Hos.Fs.Ext2.Data
import Hos.Fs.Ext2.MapGrowth

/-!
# Writes that lose a block

A file block beyond the direct ones that the file does not have yet stays
without a block of the device, whatever the driver does to the file on the way:
`ext2_write_inode_block` counts it and goes on. So a write up to that block
leaves a file in which it cannot be read. A write that ends inside a block other
than its first one is reported as a failure in any case, since
`ext2_write_inode_block` never returns zero.
-/

namespace Hos.Ext2

open Option Prod Nat

open Bytes

section

variable {fs fs' : Fs} {inode inode' : Bytes} {inodeIndex b c last r : Nat} {level : Nat → Nat}

/-- File block `last` leads to nothing although the blocks up to it are
accounted for one after the other. -/
structure LostBlock (fs : Fs) (inode : Bytes) (inodeIndex last : Nat) : Prop where
  map : ∃ level, MapTree fs inode inodeIndex level
  indirect : indirectBlocks ≤ last
  addressable : fs.Addressable last
  bounded : (last + 1) * fs.blockSize < 2 ^ 32
  lost : (fs.lookup inode last).getD 0 = 0
  found : ∀ b, indirectBlocks ≤ b → b ≤ last → b < inodeBlocks fs inode →
    ∃ v, fs.lookup inode b = some v
  count_le : inodeBlocks fs inode ≤ last + 1
  nonempty : Inode.size inode ≠ 0

theorem Fs.Addressable.mono (hb : fs.Addressable b) (hle : c ≤ b) : fs.Addressable c :=
  ⟨lt_of_le_of_lt hle hb.1, lt_of_le_of_lt hle hb.2⟩

theorem LostBlock.grow {level' : Nat → Nat} (h : LostBlock fs inode inodeIndex last)
    (hgrows : MapGrows fs inode inodeIndex fs' inode' level')
    (hcount : inodeBlocks fs' inode' = inodeBlocks fs inode ∨
      inodeBlocks fs inode ≤ last ∧ inodeBlocks fs' inode' = inodeBlocks fs inode + 1 ∧
        (indirectBlocks ≤ inodeBlocks fs inode → ∃ v,
          fs'.lookup inode' (inodeBlocks fs inode) = some v))
    (hsize : Inode.size inode' ≠ 0) : LostBlock fs' inode' inodeIndex last where
  map := ⟨level', hgrows.map⟩
  indirect := h.indirect
  addressable := hgrows.evolves.addressable h.addressable
  bounded := hgrows.evolves.blockSize.symm ▸ h.bounded
  lost := (hgrows.value last h.indirect h.addressable).trans h.lost
  found := by
    intro b hlo hle hlt
    by_cases hold : b < inodeBlocks fs inode
    · obtain ⟨v, hv⟩ := h.found b hlo hle hold
      exact ⟨v, hgrows.found b v hlo (h.addressable.mono hle) hv⟩
    · obtain ⟨_, hnew, hfound⟩ := hcount.resolve_left (by omega)
      obtain rfl : b = inodeBlocks fs inode := by omega
      exact hfound hlo
  count_le := by
    have hle := h.count_le
    omega
  nonempty := hsize

/-- A direct pointer does not matter to the blocks beyond. -/
theorem MapTree.setDirect {new : Nat} (h : MapTree fs inode inodeIndex level)
    (hc : c < indirectBlocks) (hlt : new < 2 ^ 32) (hnew : new = 0 ∨ fs.InUse new ∧ level new = 0) :
    MapGrows fs inode inodeIndex fs (Inode.setDirBlock inode c new) level := by
  have hroot : ∀ b, b ≠ c → (Inode.setDirBlock inode c new).load32 (fs.path b).1 =
      inode.load32 (fs.path b).1 := fun b hne => load32_path_setDirBlock hc hne
  have hlookup : ∀ b, indirectBlocks ≤ b →
      fs.lookup (Inode.setDirBlock inode c new) b = fs.lookup inode b := by
    intro b hb
    rw [Fs.lookup, hroot b (by omega), Fs.lookup]
  refine ⟨⟨h.sound, h.valid, ?_⟩, Evolves.refl h.sound, ?_, ?_⟩
  · intro b hb
    by_cases hbc : b = c
    · have hpath : fs.path c = (40 + 4 * c, []) := if_pos hc
      rw [hbc, hpath, Inode.setDirBlock, load32_store32_self, mod_eq_of_lt hlt]
      exact hnew
    · rw [hroot b hbc]
      exact h.tree b hb
  · exact fun b hlo _ => by rw [hlookup b hlo]
  · exact fun b r hlo _ hr => (hlookup b hlo).trans hr

/-- Setting the pointer to a block that has just been allocated. -/
theorem setRealBlockIndex_map {new : Nat} {ret : Int} {fs₁ fs₂ : Fs}
    (h : MapTree fs inode inodeIndex level) (hc : fs.Addressable c)
    (halloc : allocateBlock fs = (new, fs₁))
    (hset : setRealBlockIndex fs₁ inode inodeIndex c new = (ret, fs₂, inode')) :
    ∃ level', MapGrows fs inode inodeIndex fs₂ inode' level' ∧ (∀ x < 40, inode' x = inode x) ∧
      (ret ≠ -1 → indirectBlocks ≤ c → ∃ v, fs₂.lookup inode' c = some v) := by
  have hfirst : ∃ level₁, GrowsTree fs level fs₁ level₁ ∧
      (new = 0 ∨ fs₁.InUse new ∧ level₁ new = 0) ∧ new < 2 ^ 32 := by
    obtain ⟨-, heq⟩ | ⟨new', fs₁', heq, -, hfresh⟩ := allocateBlock_full_or_fresh h.sound <;>
      obtain ⟨rfl, rfl⟩ := mk.inj (halloc.symm.trans heq)
    · exact ⟨level, (KeepsTree.refl h.sound level).grows, .inl rfl, by decide⟩
    · exact ⟨_, (hfresh.keepsTree h.sound level 0).grows,
        .inr ⟨hfresh.inUse, Function.update_self _ _ _⟩, lt_trans hfresh.lt (by decide)⟩
  obtain ⟨level₁, hgrows, hnew, hlt⟩ := hfirst
  have hmap₁ : MapGrows fs inode inodeIndex fs₁ inode level₁ := h.grow hgrows fun _ => rfl
  by_cases hdirect : c < indirectBlocks
  · rw [setRealBlockIndex, if_pos hdirect] at hset
    cases hset
    refine ⟨level₁, hmap₁.trans (hmap₁.map.setDirect hdirect hlt hnew), ?_, ?_⟩
    · exact fun x hx => store32_of_notMem (by omega)
    omega
  · obtain ⟨level₂, hmap₂, hlow, hfound, -⟩ := setRealBlockIndex_grows hmap₁.map
      (Nat.le_of_not_lt hdirect) (hgrows.evolves.addressable hc) hset
    exact ⟨level₂, hmap₁.trans hmap₂, fun x hx => hlow x (by omega), fun hret _ => hfound hret⟩

/-- Another block for the file. Either there is no pointer for it, and the counts stay, or
the file is that many whole blocks long. -/
theorem appendBlock_grows (h : MapTree fs inode inodeIndex level)
    (hc : fs.Addressable (inodeBlocks fs inode))
    (hbounded : (inodeBlocks fs inode + 1) * fs.blockSize < 2 ^ 32)
    {new : Nat} {ret : Int} {fs₁ fs₂ : Fs} {inode₂ : Bytes} (halloc : allocateBlock fs = (new, fs₁))
    (hset : setRealBlockIndex fs₁ inode inodeIndex (inodeBlocks fs inode) new =
      (ret, fs₂, inode₂)) :
    ∃ fs' inode' level', appendBlock inodeIndex fs inode = (fs', inode') ∧
      MapGrows fs inode inodeIndex fs' inode' level' ∧
      freeBlocksCount fs'.superblock = freeBlocksCount fs₂.superblock ∧
      (ret = -1 → inodeBlocks fs' inode' = inodeBlocks fs inode ∧
        Inode.size inode' = Inode.size inode) ∧
      (ret ≠ -1 → inodeBlocks fs' inode' = inodeBlocks fs inode + 1 ∧
        Inode.size inode' = (inodeBlocks fs inode + 1) * fs.blockSize ∧
        (indirectBlocks ≤ inodeBlocks fs inode → ∃ v,
          fs'.lookup inode' (inodeBlocks fs inode) = some v)) ∧
      ∃ fs₃, Sound fs₃ ∧ fs₃.ValidInode inodeIndex ∧
        fs' = (writeInode fs₃ inode' inodeIndex).2 := by
  obtain ⟨level₂, hgrows, hlow, hfound⟩ := setRealBlockIndex_map h hc halloc hset
  have hblocks : inodeBlocks fs₂ inode₂ = inodeBlocks fs inode := by
    rw [hgrows.evolves.inodeBlocks_eq]
    exact congrArg (· / fs.blocksPerBlockCount) (load32_congr fun x _ hx => hlow x (by omega))
  have hsize₂ : Inode.size inode₂ = Inode.size inode := load32_congr fun x _ hx => hlow x (by omega)
  have heq := allocateInodeBlock_eq halloc (allocateBlock_ne_minusOne h.sound halloc) hset
  by_cases hret : ret = -1
  · rw [if_pos hret] at heq
    have hwrite : MapGrows fs₂ inode₂ inodeIndex (writeInode fs₂ inode₂ inodeIndex).2
        inode₂ level₂ :=
      hgrows.map.grow (writeInode_keepsTree hgrows.map.sound hgrows.map.valid inode₂ level₂).grows
        fun _ => rfl
    refine ⟨_, _, level₂, by rw [appendBlock, heq], hgrows.trans hwrite, ?_, fun _ => ⟨?_, hsize₂⟩,
      fun hne => absurd hret hne, fs₂, hgrows.map.sound, hgrows.map.valid, rfl⟩
    · rw [(writeInode_spec hgrows.map.sound hgrows.map.valid inode₂).2.2.1]
    · rw [hwrite.evolves.inodeBlocks_eq, hblocks]
  · rw [if_neg hret] at heq
    rw [← hgrows.evolves.blockSize] at hbounded
    obtain ⟨hcount, hsize⟩ := countedInode_counts hgrows.map.sound.wellFormed.toGeometry
      hblocks hbounded
    have hroots : ∀ b, (countedInode fs₂ inode₂ (inodeBlocks fs inode)).load32 (fs₂.path b).1 =
        inode₂.load32 (fs₂.path b).1 := load32_path_congr fun _ hx => countedInode_of_le hx
    generalize countedInode fs₂ inode₂ (inodeBlocks fs inode) = inode₃ at *
    have hfirst := hgrows.map.grow
      (writeInode_keepsTree hgrows.map.sound hgrows.map.valid inode₃ level₂).grows hroots
    have hsecond : MapGrows _ inode₃ inodeIndex _ inode₃ level₂ := hfirst.map.grow
      (writeInode_keepsTree hfirst.map.sound hfirst.map.valid inode₃ level₂).grows fun _ => rfl
    have hwrites := hfirst.trans hsecond
    refine ⟨_, _, level₂, by rw [appendBlock, heq], hgrows.trans hwrites, ?_, fun heq =>
      absurd heq hret, fun _ => ⟨?_, ?_, fun hlo => ?_⟩, _, hfirst.map.sound, hfirst.map.valid, rfl⟩
    · rw [(writeInode_spec hfirst.map.sound hfirst.map.valid inode₃).2.2.1,
        (writeInode_spec hgrows.map.sound hgrows.map.valid inode₃).2.2.1]
    · rw [hwrites.evolves.inodeBlocks_eq, hcount]
    · rw [hsize, hgrows.evolves.blockSize]
    · obtain ⟨v, hv⟩ := hfound hret hlo
      exact ⟨v, hwrites.found _ v hlo (hgrows.evolves.addressable hc) hv⟩

variable (h : LostBlock fs inode inodeIndex last)
include h

/-- Another block for the file does not find the lost one. -/
theorem appendBlock_lost (hle : inodeBlocks fs inode ≤ last) :
    LostBlock (appendBlock inodeIndex fs inode).1
      (appendBlock inodeIndex fs inode).2 inodeIndex last ∧
      Evolves fs (appendBlock inodeIndex fs inode).1 := by
  obtain ⟨level, hmap⟩ := h.map
  have hbounded : (inodeBlocks fs inode + 1) * fs.blockSize < 2 ^ 32 :=
    lt_of_le_of_lt (mul_le_mul_right _ (succ_le_succ hle)) h.bounded
  obtain ⟨fs', inode', level', happend, hgrows, _, hfails, hgrown, _⟩ :=
    appendBlock_grows hmap (h.addressable.mono hle) hbounded rfl rfl
  rw [happend]
  refine ⟨?_, hgrows.evolves⟩
  by_cases hret : (setRealBlockIndex (allocateBlock fs).2 inode inodeIndex (inodeBlocks fs inode)
      (allocateBlock fs).1).1 = -1
  · obtain ⟨hcount, hsize⟩ := hfails hret
    exact h.grow hgrows (.inl hcount) (hsize ▸ h.nonempty)
  · obtain ⟨hcount, hsize, hfound⟩ := hgrown hret
    refine h.grow hgrows (.inr ⟨hle, hcount, hfound⟩) ?_
    have hbs := hmap.sound.wellFormed.blockSize_bounds
    rw [hsize]
    exact ne_of_gt (mul_pos (succ_pos _) (by omega))

theorem writeInodeBlock_lost {ret : Int} {cache : Bytes} (hb : b ≤ last)
    (hrun : writeInodeBlock fs inode inodeIndex b cache = some (ret, fs', inode')) :
    LostBlock fs' inode' inodeIndex last ∧ Evolves fs fs' := by
  rw [writeInodeBlock] at hrun
  simp only [bind_eq_bind, bind_eq_some_iff] at hrun
  obtain ⟨⟨fs₁, inode₁⟩, hloop, hrun⟩ := hrun
  have hsound : Sound fs := h.map.choose_spec.sound
  obtain ⟨⟨h₁, hevolves₁⟩, hexit⟩ := whileLoop_invariant
    (fun s => LostBlock s.1 s.2 inodeIndex last ∧ Evolves fs s.1)
    (by
      rintro s t ⟨hs, hevolves⟩ hcond hbody
      cases hbody
      obtain ⟨hnext, hevolves'⟩ := appendBlock_lost hs (le_trans (of_decide_eq_true hcond) hb)
      exact ⟨hnext, hevolves.trans hevolves'⟩)
    hloop ⟨h, Evolves.refl hsound⟩
  have hlt : b < inodeBlocks fs₁ inode₁ := Nat.lt_of_not_le (of_decide_eq_false hexit)
  obtain ⟨level, hmap⟩ := h₁.map
  have haddr := h₁.addressable.mono hb
  by_cases hzero : getRealBlockIndex fs₁ inode₁ b = 0
  · rw [if_pos hzero] at hrun
    cases hrun
    exact ⟨h₁, hevolves₁⟩
  · rw [if_neg hzero] at hrun
    simp only [some.injEq, mk.injEq] at hrun
    obtain ⟨-, rfl, rfl⟩ := hrun
    -- the block is a data block, so that writing it keeps the pointers
    have hfound : ∃ v, fs₁.lookup inode₁ b = some v := by
      by_cases hdirect : b < indirectBlocks
      · exact lookup_direct fs₁ inode₁ hdirect
      · exact h₁.found b (Nat.le_of_not_lt hdirect) hb hlt
    obtain ⟨v, hv⟩ := hfound
    rw [getRealBlockIndex_of_lookup hmap.sound.wellFormed.toGeometry haddr hv] at hzero ⊢
    obtain ⟨hin, hlevel⟩ := hmap.data haddr hv hzero
    have hgrows : MapGrows fs₁ inode₁ inodeIndex _ inode₁ level :=
      hmap.grow (writeBlock_keepsTree hmap.sound hin hlevel cache).grows fun _ => rfl
    exact ⟨h₁.grow hgrows (.inl hgrows.evolves.inodeBlocks_eq) h₁.nonempty,
      hevolves₁.trans hgrows.evolves⟩

theorem writeBlocks_lost {n k offset startBlock : Nat} {ok : Bool} {buffer cache cache' : Bytes}
    (hlast : startBlock + k + n ≤ last + 1)
    (hrun : writeBlocks inodeIndex offset startBlock buffer n k fs inode cache =
      some (ok, fs', inode', cache')) : LostBlock fs' inode' inodeIndex last ∧ Evolves fs fs' := by
  have hsound : Sound fs := h.map.choose_spec.sound
  induction n generalizing k fs inode cache with
  | zero =>
    obtain ⟨-, rfl, rfl, -⟩ := hrun
    exact ⟨h, Evolves.refl hsound⟩
  | succ n ih =>
    rw [writeBlocks] at hrun
    simp only [bind_eq_bind, bind_eq_some_iff] at hrun
    obtain ⟨⟨ret, fs₁, inode₁⟩, hwrite, hrest⟩ := hrun
    obtain ⟨h₁, hevolves⟩ := writeInodeBlock_lost h (by omega) hwrite
    split at hrest
    · cases hrest
      exact ⟨h₁, hevolves⟩
    · obtain ⟨h', hevolves'⟩ := ih h₁ (by omega) hrest hevolves.sound
      exact ⟨h', hevolves.trans hevolves'⟩

theorem LostBlock.read (buffer : Bytes) : (readInodeBlock fs inode last buffer).1 = -1 := by
  obtain ⟨level, hmap⟩ := h.map
  rw [readInodeBlock]
  by_cases hle : inodeBlocks fs inode ≤ last
  · rw [if_pos hle]
  · obtain ⟨v, hv⟩ := h.found last h.indirect (Nat.le_refl _) (Nat.lt_of_not_le hle)
    have hlost := h.lost
    rw [hv, getD_some] at hlost
    have hzero : getRealBlockIndex fs inode last = 0 :=
      (getRealBlockIndex_of_lookup hmap.sound.wellFormed.toGeometry h.addressable hv).trans hlost
    rw [if_neg hle]
    simp only [hzero, if_true]

end

section

variable {fs : Fs} {inode : Bytes} {inodeIndex b : Nat}

@[simp] theorem writeBlock_blockSize (b : Nat) (buffer : Bytes) :
    (writeBlock fs b buffer).2.blockSize = fs.blockSize := by
  rw [writeBlock_eq]

@[simp] theorem writeBgdt_blockSize : (writeBgdt fs).blockSize = fs.blockSize := by
  rw [writeBgdt]
  generalize List.range fs.bgdtLength = blocks
  induction blocks generalizing fs with
  | nil => rfl
  | cons i blocks ih => rw [List.foldl_cons, ih, writeBlock_blockSize]

@[simp] theorem allocateBlock_blockSize (fs : Fs) :
    (allocateBlock fs).2.blockSize = fs.blockSize := by
  cases hfind : findFreeBlock fs zeroed with
  | none => simp only [allocateBlock, hfind]
  | some hit =>
    rw [allocateBlock_of_some hfind, writeBlock_blockSize, commit, writeSuperblock]
    exact writeBgdt_blockSize.trans (writeBlock_blockSize _ _)

@[simp] theorem writeInode_blockSize (inode : Bytes) (inodeIndex : Nat) :
    (writeInode fs inode inodeIndex).2.blockSize = fs.blockSize := by
  rw [writeInode]
  split
  · rfl
  · split
    · rfl
    · generalize inodeLocation fs inodeIndex = location
      obtain ⟨block, offset⟩ := location
      exact writeBlock_blockSize _ _

theorem ensureInodePointer_blockSize (fs : Fs) (inode : Bytes) (inodeIndex offset : Nat) :
    (ensureInodePointer fs inode inodeIndex offset).2.1.blockSize = fs.blockSize := by
  have halloc : (allocateBlock fs).2.blockSize = fs.blockSize := allocateBlock_blockSize fs
  rw [ensureInodePointer]
  split
  · rfl
  · generalize allocateBlock fs = allocated at halloc
    split
    split
    · exact halloc
    · exact (writeInode_blockSize _ _).trans halloc

theorem ensureCachePointer_blockSize (fs : Fs) (block : Nat) (cache : Bytes) (k : Nat) :
    (ensureCachePointer fs block cache k).2.1.blockSize = fs.blockSize := by
  have halloc : (allocateBlock fs).2.blockSize = fs.blockSize := allocateBlock_blockSize fs
  rw [ensureCachePointer]
  split
  · rfl
  · generalize allocateBlock fs = allocated at halloc
    split
    split
    · exact halloc
    · exact (writeBlock_blockSize _ _).trans halloc

theorem ensurePath_blockSize (fs : Fs) (p : Nat) (buffer : Bytes) (is : List Nat) :
    (ensurePath fs p buffer is).2.blockSize = fs.blockSize := by
  induction is generalizing fs p buffer with
  | nil => rfl
  | cons i is ih =>
    cases is with
    | nil => rfl
    | cons j is =>
      have hensure := ensureCachePointer_blockSize fs p (readBlock fs p buffer).2 i
      rw [ensurePath]
      · generalize ensureCachePointer fs p (readBlock fs p buffer).2 i = ensured at hensure
        obtain ⟨_ | _, fs₁, cache⟩ := ensured
        · exact hensure
        · exact (ih _ _ _).trans hensure
      · simp

theorem setRealBlockIndex_blockSize (fs : Fs) (inode : Bytes)
    (inodeIndex blockIndex realIndex : Nat) :
    (setRealBlockIndex fs inode inodeIndex blockIndex realIndex).2.1.blockSize = fs.blockSize := by
  by_cases hdirect : blockIndex < indirectBlocks
  · rw [setRealBlockIndex, if_pos hdirect]
  · by_cases hlimit : blockIndex < fs.indirectBlocksIndex ∨
        blockIndex < fs.doublyIndirectBlocksIndex ∨ blockIndex < fs.treblyIndirectBlocksIndex
    · rw [setRealBlockIndex_eq (Nat.le_of_not_lt hdirect) hlimit]
      have hroot := ensureInodePointer_blockSize fs inode inodeIndex (fs.path blockIndex).1
      generalize ensureInodePointer fs inode inodeIndex (fs.path blockIndex).1 = ensured at hroot
      obtain ⟨_ | _, fs₁, inode₁⟩ := ensured
      · exact hroot
      · have hpath := ensurePath_blockSize fs₁ (inode₁.load32 (fs.path blockIndex).1) zeroed
          (fs.path blockIndex).2
        dsimp only
        generalize ensurePath fs₁ (inode₁.load32 (fs.path blockIndex).1) zeroed
          (fs.path blockIndex).2 = found at hpath
        obtain ⟨_ | _, fs₂⟩ := found <;> exact hpath.trans hroot
    · rw [not_or, not_or] at hlimit
      rw [setRealBlockIndex, if_neg hdirect, if_neg hlimit.1, if_neg hlimit.2.1, if_neg hlimit.2.2]

theorem appendBlock_blockSize : (appendBlock inodeIndex fs inode).1.blockSize = fs.blockSize := by
  obtain ⟨new, fs₁, halloc⟩ : ∃ new fs₁, allocateBlock fs = (new, fs₁) := ⟨_, _, rfl⟩
  have hsize₁ : fs₁.blockSize = fs.blockSize := by
    rw [← allocateBlock_blockSize fs, halloc]
  obtain ⟨ret, fs₂, inode₂, hset⟩ : ∃ ret fs₂ inode₂, setRealBlockIndex fs₁ inode inodeIndex
      (inodeBlocks fs inode) new = (ret, fs₂, inode₂) := ⟨_, _, _, rfl⟩
  have hsize₂ : fs₂.blockSize = fs.blockSize := by
    rw [← hsize₁, ← setRealBlockIndex_blockSize fs₁ inode inodeIndex (inodeBlocks fs inode) new,
      hset]
  rw [appendBlock, writeInode_blockSize]
  by_cases hnew : i32 new = -1
  · simp only [allocateInodeBlock, halloc, hnew, if_true]
    exact hsize₁
  · rw [allocateInodeBlock_eq halloc hnew hset]
    split
    · exact hsize₂
    · exact (writeInode_blockSize _ _).trans hsize₂

/-- `ext2_write_inode_block` never returns zero. -/
theorem writeInodeBlock_ret {ret : Int} {fs' : Fs} {inode' cache : Bytes} (hpos : 0 < fs.blockSize)
    (hrun : writeInodeBlock fs inode inodeIndex b cache = some (ret, fs', inode')) :
    ret ≠ 0 ∧ fs'.blockSize = fs.blockSize := by
  rw [writeInodeBlock] at hrun
  obtain ⟨⟨fs₁, inode₁⟩, hloop, hrun⟩ := bind_eq_some_iff.mp hrun
  obtain ⟨hsize, _⟩ := whileLoop_invariant (fun s => s.1.blockSize = fs.blockSize) (by
      rintro s t hs _ hbody
      cases hbody
      exact appendBlock_blockSize.trans hs)
    hloop rfl
  dsimp only at hrun hsize
  split at hrun
  · cases hrun
    omega
  · rename_i hreal
    cases hrun
    refine ⟨?_, (writeBlock_blockSize _ _).trans hsize⟩
    rw [writeBlock, if_neg hreal]
    omega

theorem writeBlocks_blockSize {n k offset startBlock : Nat} {ok : Bool}
    {buffer cache cache' inode' : Bytes} {fs' : Fs} (hpos : 0 < fs.blockSize)
    (hrun : writeBlocks inodeIndex offset startBlock buffer n k fs inode cache =
      some (ok, fs', inode', cache')) : fs'.blockSize = fs.blockSize := by
  induction n generalizing k fs inode cache with
  | zero =>
    simp only [writeBlocks, some.injEq, mk.injEq] at hrun
    rw [hrun.2.1]
  | succ n ih =>
    rw [writeBlocks] at hrun
    simp only [bind_eq_bind, bind_eq_some_iff] at hrun
    obtain ⟨⟨ret, fs₁, inode₁⟩, hwrite, hrest⟩ := hrun
    obtain ⟨hret, hsize⟩ := writeInodeBlock_ret hpos hwrite
    rw [if_neg hret] at hrest
    exact (ih (hsize.symm ▸ hpos) hrest).trans hsize

end

variable {fs fs' : Fs} {inode inode' : Bytes} {inodeIndex offset n last : Nat}

theorem readBlocks_of_unreadable (offset : Nat) {k startBlock : Nat}
    (hread : ∀ cache, (readInodeBlock fs inode last cache).1 = -1) (hlo : startBlock + k ≤ last)
    (hhi : last < startBlock + k + n) (cache buffer : Bytes) :
    (readBlocks fs inode offset startBlock n k cache buffer).1 = false := by
  induction n generalizing k cache buffer with
  | zero => omega
  | succ n ih =>
    rw [readBlocks]
    by_cases hret : (readInodeBlock fs inode (startBlock + k) cache).1 = -1
    · simp only [hret, if_true]
    · have hne : startBlock + k ≠ last := by
        rintro rfl
        exact hret (hread cache)
      simp only [hret, if_false]
      exact ih (by omega) (by omega) _ _

theorem i32_eq_natCast {v : Nat} (hv : v < 2 ^ 32) (h : i32 v = n) : v = n := by
  rw [i32, u32_of_lt hv] at h
  omega

/-- A range whose last block cannot be read is not read in full. -/
theorem readInodeData_ne (hbounds : 0 < fs.blockSize) (hsize : Inode.size inode ≠ 0)
    (hend : offset + n < 2 ^ 32)
    (hshape : offset / fs.blockSize = (offset + n) / fs.blockSize ∨ (offset + n) % fs.blockSize = 0)
    (hread : ∀ cache, (readInodeBlock fs inode (fs.lastBlock offset n) cache).1 = -1)
    (buffer : Bytes) : (readInodeData fs inode offset n buffer).1 ≠ n := by
  by_cases hshort : Inode.size inode < offset + n
  · intro heq
    have hret : (readInodeData fs inode offset n buffer).1 = -1 ∨ _ := readInodeData_fst hsize
    rw [readEnd, u32_of_lt hend, if_pos hshort, heq] at hret
    have hdiff := i32_eq_natCast (sub32_lt _ _) (hret.resolve_left (by omega)).symm
    simp only [sub32] at hdiff
    omega
  · rw [readInodeData, if_neg hsize]
    simp only [u32_of_lt hend, hshort, if_false]
    by_cases hsame : offset / fs.blockSize = (offset + n) / fs.blockSize
    · rw [lastBlock_of_same hsame] at hread
      rw [if_pos hsame]
      simp only [hread zeroed, if_true]
      omega
    · have hlast := lastBlock_of_ends hbounds hsame (hshape.resolve_left hsame)
      have hle : offset / fs.blockSize ≤ (offset + n) / fs.blockSize :=
        Nat.div_le_div_right (Nat.le_add_right _ _)
      have hfails : (readBlocks fs inode offset (offset / fs.blockSize)
          ((offset + n) / fs.blockSize - offset / fs.blockSize) 0 zeroed buffer).1 = false :=
        readBlocks_of_unreadable offset hread (by omega) (by omega) zeroed buffer
      rw [if_neg hsame]
      generalize readBlocks fs inode offset (offset / fs.blockSize)
        ((offset + n) / fs.blockSize - offset / fs.blockSize) 0 zeroed buffer = result at hfails
      obtain ⟨ok, cache, buffer'⟩ := result
      obtain rfl : ok = false := hfails
      simp

/-- A write that ends inside a block other than its first one reports a failure. -/
theorem writeInodeData_of_inside {ret : Int} {buffer : Bytes} (hpos : 0 < fs.blockSize)
    (hend : offset + n < 2 ^ 32) (hne : offset / fs.blockSize ≠ (offset + n) / fs.blockSize)
    (hinside : (offset + n) % fs.blockSize ≠ 0)
    (hrun : writeInodeData fs inode inodeIndex offset n buffer = some (ret, fs', inode')) :
    ret = -1 := by
  rw [writeInodeData] at hrun
  simp only [u32_of_lt hend, sub32_div_mul hend] at hrun
  rw [if_neg hne] at hrun
  simp only [bind_eq_bind, bind_eq_some_iff] at hrun
  obtain ⟨⟨ok, fs₁, inode₁, cache⟩, hblocks, hrun⟩ := hrun
  cases ok with
  | false =>
    simp only [some.injEq, mk.injEq] at hrun
    exact hrun.1.symm
  | true =>
    have hsize := writeBlocks_blockSize hpos hblocks
    simp only [hinside, ne_eq, not_false_eq_true, if_true, bind_eq_some_iff] at hrun
    obtain ⟨⟨ret', fs₂, inode₂⟩, hwrite, hrun⟩ := hrun
    have hret := (writeInodeBlock_ret (hsize.symm ▸ hpos) hwrite).1
    rw [if_neg hret] at hrun
    simp only [some.injEq, mk.injEq] at hrun
    exact hrun.1.symm

/-- A write up to a lost block leaves it lost. -/
theorem writeInodeData_lost {ret : Int} {buffer : Bytes}
    (h : LostBlock fs (extendedInode inode (offset + n)) inodeIndex (fs.lastBlock offset n))
    (hend : offset + n < 2 ^ 32) (hpos : 0 < fs.blockSize)
    (hshape : offset / fs.blockSize = (offset + n) / fs.blockSize ∨ (offset + n) % fs.blockSize = 0)
    (hrun : writeInodeData fs inode inodeIndex offset n buffer = some (ret, fs', inode')) :
    LostBlock fs' inode' inodeIndex (fs.lastBlock offset n) ∧ Evolves fs fs' := by
  rw [writeInodeData] at hrun
  simp only [u32_of_lt hend, sub32_div_mul hend] at hrun
  by_cases hsame : offset / fs.blockSize = (offset + n) / fs.blockSize
  · rw [if_pos hsame] at hrun
    obtain ⟨⟨ret', fs₁, inode₁⟩, hwrite, hrun⟩ := bind_eq_some_iff.mp hrun
    have hlost := writeInodeBlock_lost h (le_of_eq (lastBlock_of_same hsame).symm) hwrite
    split at hrun <;>
    · cases hrun
      exact hlost
  · have hzero := hshape.resolve_left hsame
    have hlast := lastBlock_of_ends hpos hsame hzero
    have hle : offset / fs.blockSize ≤ (offset + n) / fs.blockSize :=
      Nat.div_le_div_right (Nat.le_add_right _ _)
    rw [if_neg hsame] at hrun
    obtain ⟨⟨ok, fs₁, inode₁, cache⟩, hblocks, hrun⟩ := bind_eq_some_iff.mp hrun
    have hlost := writeBlocks_lost h (by omega) hblocks
    cases ok <;>
    · simp only [hzero, ne_eq, not_true, if_false, some.injEq, mk.injEq] at hrun
      obtain ⟨-, rfl, rfl⟩ := hrun
      exact hlost

end Hos.Ext2
