import Hos.Fs.Ext2.Lost

/-!
# Room for new blocks

A new block of a file takes a free block, and one for each pointer block that is missing
on its path. Where that many blocks are free, none of the allocations fails and the
file has the block afterwards, though for blocks that are not direct the pointer
to it is not set.
-/

namespace Hos.Ext2

/-- The blocks that `n` new file blocks from `c` on may take, with the pointer blocks on
their paths. -/
def Fs.blocksFor (fs : Fs) (c : Nat) : Nat → Nat
  | 0 => 0
  | n + 1 => 1 + (fs.path c).2.length + fs.blocksFor (c + 1) n

variable {fs fs' : Fs} {inode inode' : Bytes} {inodeIndex c r : Nat} {level : Nat → Nat}

theorem Evolves.blocksFor (h : Evolves fs fs') (c n : Nat) :
    fs'.blocksFor c n = fs.blocksFor c n := by
  induction n generalizing c with
  | zero => rfl
  | succ n ih => rw [Fs.blocksFor, Fs.blocksFor, h.path_eq, ih]

theorem setRealBlockIndex_room {ret : Int} (h : MapTree fs inode inodeIndex level)
    (hc : fs.Addressable c) (hfree : (fs.path c).2.length ≤ freeBlocksCount fs.superblock)
    (hrun : setRealBlockIndex fs inode inodeIndex c r = (ret, fs', inode')) :
    ret = 0 ∧ freeBlocksCount fs.superblock ≤
      freeBlocksCount fs'.superblock + (fs.path c).2.length := by
  by_cases hdirect : c < indirectBlocks
  · rw [setRealBlockIndex, if_pos hdirect] at hrun
    cases hrun
    omega
  obtain ⟨_, -, -, -, hroom, hused⟩ := setRealBlockIndex_grows h (Nat.le_of_not_lt hdirect) hc hrun
  omega

theorem appendBlock_room (h : MapTree fs inode inodeIndex level)
    (hc : fs.Addressable (inodeBlocks fs inode))
    (hbounded : (inodeBlocks fs inode + 1) * fs.blockSize < 2 ^ 32)
    (hfree : 1 + (fs.path (inodeBlocks fs inode)).2.length ≤ freeBlocksCount fs.superblock) :
    ∃ fs' inode' level', appendBlock inodeIndex fs inode = (fs', inode') ∧
      MapGrows fs inode inodeIndex fs' inode' level' ∧
        inodeBlocks fs' inode' = inodeBlocks fs inode + 1 ∧
      Inode.size inode' = (inodeBlocks fs inode + 1) * fs.blockSize ∧
      (∃ v, fs'.lookup inode' (inodeBlocks fs inode) = some v) ∧ freeBlocksCount fs.superblock ≤
        freeBlocksCount fs'.superblock + (1 + (fs.path (inodeBlocks fs inode)).2.length) ∧
      ∃ fs₃, Sound fs₃ ∧ fs₃.ValidInode inodeIndex ∧
        fs' = (writeInode fs₃ inode' inodeIndex).2 := by
  obtain ⟨hfull, -⟩ | ⟨new, fs₁, halloc, -, hfresh⟩ := allocateBlock_full_or_fresh h.sound
  · omega
  obtain ⟨ret, fs₂, inode₂, hset⟩ : ∃ ret fs₂ inode₂, setRealBlockIndex fs₁ inode inodeIndex
      (inodeBlocks fs inode) new = (ret, fs₂, inode₂) := ⟨_, _, _, rfl⟩
  have hmap₁ : MapGrows fs inode inodeIndex fs₁ inode _ :=
    h.grow (hfresh.keepsTree h.sound level 0).grows fun _ => rfl
  have hfree₁ := hfresh.free
  obtain ⟨rfl, hfree₂⟩ := setRealBlockIndex_room hmap₁.map (hfresh.evolves.addressable hc)
    (by rw [hfresh.evolves.path_eq]; omega) hset
  rw [hfresh.evolves.path_eq] at hfree₂
  obtain ⟨fs', inode', level', happend, hgrows, hsuper, _, hgrown, hstored⟩ :=
    appendBlock_grows h hc hbounded halloc hset
  obtain ⟨hcount, hsize, hfound⟩ := hgrown (by decide)
  refine ⟨fs', inode', level', happend, hgrows, hcount, hsize, ?_, by omega, hstored⟩
  by_cases hdirect : inodeBlocks fs inode < indirectBlocks
  · exact lookup_direct fs' inode' hdirect
  · exact hfound (Nat.le_of_not_lt hdirect)

end Hos.Ext2
