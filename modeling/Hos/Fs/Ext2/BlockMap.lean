import Hos.Fs.Ext2.InUse

/-!
# The block map of an inode

A file block beyond the direct ones is found by following one pointer of the
inode through one, two or three pointer blocks. The abstract map `lookup`
follows the pointers and fails at a missing pointer block.

`ext2_get_real_block_index` reads this map where it is defined.
`ext2_set_real_block_index` allocates the missing pointer blocks, but it never
writes the last one back: beyond the direct blocks it sets nothing.
-/

namespace Hos.Ext2

open Option List Nat Prod

open Bytes

section

/-- Follow the entries `is` from the block `p`. A zero pointer leads nowhere. -/
def follow (entry : Nat → Nat → Nat) : Nat → List Nat → Option Nat
  | p, [] => some p
  | p, i :: is => if p = 0 then none else follow entry (entry p i) is

/-- Entry `k` of the pointer block `p`. -/
def Fs.entry (fs : Fs) (p k : Nat) : Nat := pointerAt (readBlock fs p zeroed).2 k

/-- The offset of the pointer of the inode that leads to file block `b`, and the
entries to follow from there. -/
def Fs.path (fs : Fs) (b : Nat) : Nat × List Nat :=
  if b < indirectBlocks then (40 + 4 * b, [])
  else if b < fs.indirectBlocksIndex then (indirOffset, [sub32 b indirectBlocks])
  else if b < fs.doublyIndirectBlocksIndex then
    (doublyIndirOffset, [(doublyIndices fs b).1, (doublyIndices fs b).2])
  else
    (treblyIndirOffset,
      [(treblyIndices fs b).1, (treblyIndices fs b).2.1, (treblyIndices fs b).2.2])

/-- The block of the device with file block `b`, if all pointer blocks exist. -/
def Fs.lookup (fs : Fs) (inode : Bytes) (b : Nat) : Option Nat :=
  follow fs.entry (inode.load32 (fs.path b).1) (fs.path b).2

/-- The file blocks that three levels of pointer blocks can address. -/
def Fs.Addressable (fs : Fs) (b : Nat) : Prop :=
  b < fs.treblyIndirectBlocksIndex ∧
    b < indirectBlocks + fs.pointersPerBlock + fs.pointersPerBlock * fs.pointersPerBlock +
      fs.pointersPerBlock * fs.pointersPerBlock * fs.pointersPerBlock

variable {fs : Fs} {b p k : Nat}

theorem Geometry.pointers_bounds (geo : Geometry fs) :
    256 ≤ fs.pointersPerBlock ∧ fs.pointersPerBlock ≤ 16384 ∧
      4 * fs.pointersPerBlock = fs.blockSize := by
  have hsize := geo.blockSize_bounds
  have hpointers := geo.pointers
  omega

/-- A pointer block is read the same way into any buffer. -/
theorem pointerAt_readBlock (geo : Geometry fs) (buffer : Bytes) (hp : p ≠ 0)
    (hk : k < fs.pointersPerBlock) : pointerAt (readBlock fs p buffer).2 k = fs.entry p k := by
  have hpointers := geo.pointers_bounds
  simp only [Fs.entry, readBlock, hp, if_false, pointerAt]
  refine load32_congr fun x hlo hhi => ?_
  rw [blit_of_mem (by omega) (by omega), blit_of_mem (by omega) (by omega)]

/-- What `ext2_mount` computes for blocks of up to 65536 bytes, as far as the block map
depends on it. -/
structure PointerGeometry (fs : Fs) : Prop where
  pointers_ge : 256 ≤ fs.pointersPerBlock
  pointers_le : fs.pointersPerBlock ≤ 16384
  indirect : fs.indirectBlocksIndex = 12 + fs.pointersPerBlock
  doubly : fs.doublyIndirectBlocksIndex =
    12 + fs.pointersPerBlock * (fs.pointersPerBlock + 1)
  trebly_lt : fs.treblyIndirectBlocksIndex < 2 ^ 32

theorem Geometry.pointerGeometry (geo : Geometry fs) : PointerGeometry fs :=
  ⟨geo.pointers_bounds.1, geo.pointers_bounds.2.1, geo.indirect, geo.doubly, geo.trebly ▸ u32_lt _⟩

theorem doublyIndices_eq (geo : PointerGeometry fs) (hb : b < 2 ^ 32)
    (hlo : fs.indirectBlocksIndex ≤ b) :
    doublyIndices fs b = ((b - fs.indirectBlocksIndex) / fs.pointersPerBlock,
        (b - fs.indirectBlocksIndex) % fs.pointersPerBlock) := by
  have hge := geo.pointers_ge
  have hle := geo.pointers_le
  have hindirect := geo.indirect
  rw [hindirect] at hlo ⊢
  have ha : sub32 b indirectBlocks = b - 12 := sub32_of_le hb (by simp only [indirectBlocks]; omega)
  have hsub : sub32 (b - 12) fs.pointersPerBlock = b - (12 + fs.pointersPerBlock) := by
    rw [sub32_of_le (by omega) (by omega)]
    omega
  generalize hrest : b - (12 + fs.pointersPerBlock) = rest at hsub ⊢
  have hdiv := div_add_mod rest fs.pointersPerBlock
  rw [mul_comm] at hdiv
  simp only [doublyIndices, ha, hsub]
  rw [u32_of_lt (by omega), sub32_of_le (by omega) (by omega)]
  refine congrArg _ ?_
  omega

theorem treblyIndices_eq (geo : PointerGeometry fs) (hb : b < 2 ^ 32)
    (hlo : fs.doublyIndirectBlocksIndex ≤ b) :
    treblyIndices fs b = let rest := b - fs.doublyIndirectBlocksIndex
      let p2 := fs.pointersPerBlock * fs.pointersPerBlock
      (rest / p2, rest % p2 / fs.pointersPerBlock, rest % p2 % fs.pointersPerBlock) := by
  have hge := geo.pointers_ge
  have hle := geo.pointers_le
  have hdoubly := geo.doubly
  have hsquare := mul_le_mul hle hle
  rw [mul_add, mul_one] at hdoubly
  have ha : sub32 b indirectBlocks = b - 12 := sub32_of_le hb (by simp only [indirectBlocks]; omega)
  have hp1 : sub32 (b - 12) fs.pointersPerBlock = b - 12 - fs.pointersPerBlock :=
    sub32_of_le (by omega) (by omega)
  have hp2 : u32 (fs.pointersPerBlock * fs.pointersPerBlock) =
      fs.pointersPerBlock * fs.pointersPerBlock := u32_of_lt (by omega)
  simp only [treblyIndices, ha, hp1, hp2]
  generalize fs.pointersPerBlock * fs.pointersPerBlock = p2 at *
  have hrest : sub32 (b - 12 - fs.pointersPerBlock) p2 = b - fs.doublyIndirectBlocksIndex := by
    rw [sub32_of_le (by omega) (by omega)]
    omega
  rw [hrest]
  generalize b - fs.doublyIndirectBlocksIndex = rest at hrest ⊢
  have hlt : rest < 2 ^ 32 := hrest ▸ sub32_lt _ _
  have hdiv := div_add_mod rest p2
  rw [mul_comm] at hdiv
  have hmod : sub32 rest (u32 (rest / p2 * p2)) = rest % p2 := by
    rw [u32_of_lt (by omega), sub32_of_le (by omega) (by omega)]
    omega
  rw [hmod]
  generalize rest % p2 = low at hdiv hmod ⊢
  have hdiv' := div_add_mod low fs.pointersPerBlock
  rw [mul_comm] at hdiv'
  have hmod' : sub32 low (u32 (low / fs.pointersPerBlock * fs.pointersPerBlock)) =
      low % fs.pointersPerBlock := by
    rw [u32_of_lt (by omega), sub32_of_le (by omega) (by omega)]
    omega
  rw [hmod']

/-- The blocks that three levels of pointer blocks can hold. -/
def Fs.capacity (fs : Fs) : Nat :=
  indirectBlocks + fs.pointersPerBlock + fs.pointersPerBlock * fs.pointersPerBlock +
    fs.pointersPerBlock * fs.pointersPerBlock * fs.pointersPerBlock

/-- Below the limit that `ext2_mount` computes, the entries to follow lie inside their
pointer blocks exactly up to the capacity. -/
theorem PointerGeometry.path_lt_iff (geo : PointerGeometry fs)
    (hb : b < fs.treblyIndirectBlocksIndex) :
    (∀ k ∈ (fs.path b).2, k < fs.pointersPerBlock) ↔ b < fs.capacity := by
  have hge := geo.pointers_ge
  have hb32 : b < 2 ^ 32 := hb.trans geo.trebly_lt
  have hindirect := geo.indirect
  have hdoubly := geo.doubly
  rw [mul_add, mul_one] at hdoubly
  have hpos : 0 < fs.pointersPerBlock := by omega
  rw [Fs.path, Fs.capacity, indirectBlocks]
  split
  · refine iff_of_true (fun k hk => absurd hk not_mem_nil) (by omega)
  split
  · have ha : sub32 b 12 = b - 12 := sub32_of_le hb32 (by omega)
    simp only [ha, mem_singleton, forall_eq]
    omega
  split
  · rw [doublyIndices_eq geo hb32 (by omega)]
    simp only [mem_cons, not_mem_nil, or_false, forall_eq_or_imp, forall_eq]
    exact iff_of_true ⟨Nat.div_lt_of_lt_mul (by omega), mod_lt _ hpos⟩ (by omega)
  · rw [treblyIndices_eq geo hb32 (by omega)]
    simp only [mem_cons, not_mem_nil, or_false, forall_eq_or_imp, forall_eq]
    have hsquare := mul_pos hpos hpos
    -- only the first of the three indices can be too large
    rw [and_iff_left ⟨Nat.div_lt_of_lt_mul (mod_lt _ hsquare), mod_lt _ hpos⟩,
      div_lt_iff_lt_mul hsquare]
    rw [mul_comm fs.pointersPerBlock]
    omega

theorem path_lt (geo : Geometry fs) (hb : fs.Addressable b) : ∀ k ∈ (fs.path b).2,
    k < fs.pointersPerBlock :=
  (geo.pointerGeometry.path_lt_iff hb.1).mpr hb.2

end

section

variable {fs : Fs} {inode : Bytes} {b p r : Nat} {is : List Nat}

theorem follow_zero_getD (entry : Nat → Nat → Nat) (is : List Nat) :
    (follow entry 0 is).getD 0 = 0 := by
  cases is <;> rfl

theorem follow_cons {entry : Nat → Nat → Nat} {i : Nat} (hp : p ≠ 0) :
    follow entry p (i :: is) = follow entry (entry p i) is := if_neg hp

theorem follow_cons_eq_some {entry : Nat → Nat → Nat} {i : Nat} :
    follow entry p (i :: is) = some r ↔ p ≠ 0 ∧ follow entry (entry p i) is = some r := by
  by_cases hp : p = 0 <;> simp [follow, hp]

/-- The reads of `ext2_get_real_block_index`, all into one buffer. -/
def chase (fs : Fs) : Nat → Bytes → List Nat → Nat
  | p, _, [] => p
  | p, buffer, i :: is =>
    chase fs (pointerAt (readBlock fs p buffer).2 i) (readBlock fs p buffer).2 is

theorem getRealBlockIndex_eq_chase (hb : b < fs.treblyIndirectBlocksIndex) :
    getRealBlockIndex fs inode b = chase fs (inode.load32 (fs.path b).1) zeroed (fs.path b).2 := by
  rw [getRealBlockIndex, Fs.path]
  by_cases hdirect : b < indirectBlocks
  · rw [if_pos hdirect, if_pos hdirect]
    rfl
  rw [if_neg hdirect, if_neg hdirect]
  by_cases hindirect : b < fs.indirectBlocksIndex
  · rw [if_pos hindirect, if_pos hindirect]
    rfl
  · rw [if_neg hindirect, if_neg hindirect]
    by_cases hdoubly : b < fs.doublyIndirectBlocksIndex
    · rw [if_pos hdoubly, if_pos hdoubly]
      rfl
    · rw [if_neg hdoubly, if_neg hdoubly, if_pos hb]
      rfl

theorem chase_of_follow (geo : Geometry fs) (hlt : ∀ k ∈ is, k < fs.pointersPerBlock)
    (buffer : Bytes) (h : follow fs.entry p is = some r) : chase fs p buffer is = r := by
  induction is generalizing p buffer with
  | nil => exact some.inj h
  | cons i is ih =>
    obtain ⟨hp, hrest⟩ := follow_cons_eq_some.mp h
    rw [chase, pointerAt_readBlock geo buffer hp (hlt i mem_cons_self)]
    exact ih (fun k hk => hlt k (mem_cons_of_mem i hk)) _ hrest

/-- `ext2_get_real_block_index` reads the map where it is defined. -/
theorem getRealBlockIndex_of_lookup (geo : Geometry fs) (hb : fs.Addressable b)
    (h : fs.lookup inode b = some r) : getRealBlockIndex fs inode b = r := by
  rw [getRealBlockIndex_eq_chase hb.1]
  exact chase_of_follow geo (path_lt geo hb) zeroed h

end

variable {fs fs' : Fs} {inode inode' : Bytes} {b p r inodeIndex : Nat} {is : List Nat}

/-- The allocations of `ext2_set_real_block_index` below the inode: a pointer
block for every entry but the last. -/
def ensurePath (fs : Fs) : Nat → Bytes → List Nat → Bool × Fs
  | _, _, [] => (true, fs)
  | _, _, [_] => (true, fs)
  | p, buffer, i :: is =>
    match ensureCachePointer fs p (readBlock fs p buffer).2 i with
    | (false, fs, _) => (false, fs)
    | (true, fs, cache) => ensurePath fs (pointerAt cache i) cache is

/-- Beyond the direct blocks nothing is set: pointer blocks are allocated. -/
theorem setRealBlockIndex_eq (hlo : indirectBlocks ≤ b)
    (hb : b < fs.indirectBlocksIndex ∨ b < fs.doublyIndirectBlocksIndex ∨
      b < fs.treblyIndirectBlocksIndex) :
    setRealBlockIndex fs inode inodeIndex b r =
      match ensureInodePointer fs inode inodeIndex (fs.path b).1 with
      | (false, fs', inode') => (-1, fs', inode')
      | (true, fs', inode') =>
        match ensurePath fs' (inode'.load32 (fs.path b).1) zeroed (fs.path b).2 with
        | (false, fs') => (-1, fs', inode')
        | (true, fs') => (0, fs', inode') := by
  rw [setRealBlockIndex, if_neg (not_lt.mpr hlo), Fs.path, if_neg (not_lt.mpr hlo)]
  by_cases hindirect : b < fs.indirectBlocksIndex
  · rw [if_pos hindirect, if_pos hindirect]
    rfl
  · rw [if_neg hindirect, if_neg hindirect]
    by_cases hdoubly : b < fs.doublyIndirectBlocksIndex
    · rw [if_pos hdoubly, if_pos hdoubly]
      rcases ensureInodePointer fs inode inodeIndex doublyIndirOffset with ⟨_ | _, fs₁, inode₁⟩
      · rfl
      · simp only [ensurePath, Inode.doublyIndirBlock, doublyIndirOffset]
        rcases ensureCachePointer fs₁ (inode₁.load32 92)
          (readBlock fs₁ (inode₁.load32 92) zeroed).2 (doublyIndices fs b).1 with
          ⟨_ | _, fs₂, cache⟩ <;> rfl
    · have htrebly := (hb.resolve_left hindirect).resolve_left hdoubly
      rw [if_neg hdoubly, if_neg hdoubly, if_pos htrebly]
      rcases ensureInodePointer fs inode inodeIndex treblyIndirOffset with ⟨_ | _, fs₁, inode₁⟩
      · rfl
      · simp only [ensurePath, Inode.treblyIndirBlock, treblyIndirOffset]
        rcases ensureCachePointer fs₁ (inode₁.load32 96)
          (readBlock fs₁ (inode₁.load32 96) zeroed).2 (treblyIndices fs b).1 with
          ⟨_ | _, fs₂, cache⟩
        · rfl
        · simp only
          rcases ensureCachePointer fs₂ (pointerAt cache (treblyIndices fs b).1)
            (readBlock fs₂ (pointerAt cache (treblyIndices fs b).1) cache).2
            (treblyIndices fs b).2.1 with ⟨_ | _, fs₃, cache₃⟩ <;> rfl

/-- Pointer blocks on the device, as byte contents. -/
theorem entry_eq_block {k : Nat} (wf : Addressed fs) (hp : p ≠ 0)
    (hlt : p < blocksCount fs.superblock) (hk : k < fs.pointersPerBlock) :
    fs.entry p k = pointerAt (fs.block p) k := by
  have hpointers := wf.pointers_bounds
  obtain ⟨_, hblock⟩ := readBlock_spec zeroed hp (wf.offset_lt hlt)
  exact load32_congr fun x _ hhi => hblock x (by omega)

theorem pointerAt_congr {k : Nat} {m m' : Bytes} (geo : Geometry fs)
    (h : ∀ x < fs.blockSize, m' x = m x) (hk : k < fs.pointersPerBlock) :
    pointerAt m' k = pointerAt m k := by
  have hpointers := geo.pointers_bounds
  exact load32_congr fun x _ hhi => h x (by omega)

/-- A block in use whose contents are kept has the same entries. -/
theorem Evolves.entry_eq {k : Nat} (h : Evolves fs fs') (hsound : Sound fs) (hp : fs.InUse p)
    (hblock : ∀ x < fs.blockSize, fs'.block p x = fs.block p x) (hk : k < fs.pointersPerBlock) :
    fs'.entry p k = fs.entry p k := by
  have hp' := h.inUse p hp
  rw [entry_eq_block h.sound.wellFormed hp'.ne_zero hp'.lt (h.pointersPerBlock.symm ▸ hk),
    entry_eq_block hsound.wellFormed hp.ne_zero hp.lt hk]
  exact pointerAt_congr hsound.wellFormed.toGeometry hblock hk

/-- The existing pointer blocks on a path are in use. -/
def Fs.PathInUse (fs : Fs) : Nat → List Nat → Prop
  | _, [] => True
  | p, i :: is => p = 0 ∨ fs.InUse p ∧ fs.PathInUse (fs.entry p i) is

/-- Entries of blocks in use that hold a pointer are kept. -/
def KeepsPointers (fs fs' : Fs) : Prop :=
  ∀ b, fs.InUse b → ∀ j < fs.pointersPerBlock, fs.entry b j ≠ 0 → fs'.entry b j = fs.entry b j

/-- The effect of ensuring entry `k` of the pointer block `p`. -/
structure Ensured (fs : Fs) (p k : Nat) (fs' : Fs) : Prop where
  evolves : Evolves fs fs'
  inUse : fs'.InUse (fs'.entry p k)
  keep : KeepsPointers fs fs'
  same : fs.entry p k ≠ 0 → fs' = fs
  zero : fs.entry p k = 0 → ∀ j < fs.pointersPerBlock, fs'.entry (fs'.entry p k) j = 0

theorem pointerAt_setPointerAt {cache : Bytes} {j k v : Nat} (hv : v < 2 ^ 32) :
    pointerAt (setPointerAt cache k v) j = if j = k then v else pointerAt cache j := by
  by_cases hjk : j = k
  · rw [if_pos hjk, hjk, pointerAt, setPointerAt, load32_store32_self, mod_eq_of_lt hv]
  · rw [if_neg hjk, pointerAt, setPointerAt, load32_store32_of_sep (by omega), pointerAt]

theorem Fresh.entry_eq_zero {new j : Nat} (h : Fresh fs new fs') (hj : j < fs.pointersPerBlock) :
    fs'.entry new j = 0 := by
  have wf' := h.evolves.sound.wellFormed
  have hj' : j < fs'.pointersPerBlock := h.evolves.pointersPerBlock.symm ▸ hj
  rw [entry_eq_block wf' h.inUse.ne_zero h.inUse.lt hj']
  have hzero : ∀ x < fs'.blockSize, fs'.block new x = zeroed x :=
    fun x hx => h.zero x (h.evolves.blockSize ▸ hx)
  exact pointerAt_congr wf'.toGeometry hzero hj'

section

variable {k new : Nat} {cache : Bytes} {fs₁ : Fs} (hfresh : Fresh fs new fs₁) (h : Sound fs)
  (hp : fs.InUse p)
include hfresh h hp

/-- Storing a fresh block in an entry of a pointer block changes that entry only. -/
theorem Fresh.link_entry (hcache : ∀ j < fs.pointersPerBlock, pointerAt cache j = fs.entry p j) :
    Evolves fs₁ (writeBlock fs₁ p (setPointerAt cache k new)).2 ∧
      (∀ b, fs.InUse b → ∀ j < fs.pointersPerBlock,
        (writeBlock fs₁ p (setPointerAt cache k new)).2.entry b j =
          if b = p ∧ j = k then new else fs.entry b j) ∧
      ∀ j < fs.pointersPerBlock, (writeBlock fs₁ p (setPointerAt cache k new)).2.entry new j =
        0 := by
  have hp₁ := hfresh.evolves.inUse p hp
  have hsound₁ := hfresh.evolves.sound
  have geo₁ := hsound₁.wellFormed.toGeometry
  have hwrite := hsound₁.writeBlock_inUse hp₁ (setPointerAt cache k new)
  have hper := hfresh.evolves.pointersPerBlock
  have hnew : new < 2 ^ 32 := lt_trans hfresh.lt (by decide)
  have hblock := writeBlock_block hsound₁.wellFormed hp₁.ne_zero hp₁.lt (setPointerAt cache k new)
  generalize (writeBlock fs₁ p (setPointerAt cache k new)).2 = fs₂ at hwrite hblock ⊢
  have geo₂ := hwrite.sound.wellFormed.toGeometry
  have hper₂ := hwrite.pointersPerBlock
  have hother : ∀ b, fs₁.InUse b → b ≠ p → ∀ j < fs.pointersPerBlock,
      fs₂.entry b j = fs₁.entry b j := by
    intro b hb hne j hj
    exact hwrite.entry_eq hsound₁ hb (fun x hx => (hblock b hx).trans (if_neg hne)) (by omega)
  refine ⟨hwrite, ?_, ?_⟩
  · intro b hb j hj
    by_cases hbp : b = p
    · have hp₂ := hwrite.inUse p hp₁
      rw [hbp, entry_eq_block hwrite.sound.wellFormed hp₂.ne_zero hp₂.lt (by omega), ← hcache j hj]
      simp only [true_and]
      rw [← pointerAt_setPointerAt hnew]
      exact pointerAt_congr geo₁ (fun x hx => (hblock p hx).trans (if_pos rfl)) (by omega)
    · rw [if_neg (fun hand => hbp hand.1), hother b (hfresh.evolves.inUse b hb) hbp j hj]
      exact hfresh.evolves.entry_eq h hb (hfresh.keep b hb) hj
  · intro j hj
    rw [hother new hfresh.inUse (fun heq => hfresh.notInUse (heq ▸ hp)) j hj,
      hfresh.entry_eq_zero hj]

/-- Storing a fresh block in a missing entry of a pointer block. -/
theorem Fresh.link (hk : k < fs.pointersPerBlock)
    (hcache : ∀ j < fs.pointersPerBlock, pointerAt cache j = fs.entry p j)
    (hzero : fs.entry p k = 0) :
    Ensured fs p k (writeBlock fs₁ p (setPointerAt cache k new)).2 ∧
      (writeBlock fs₁ p (setPointerAt cache k new)).2.entry p k = new := by
  obtain ⟨hwrite, hentry, hnew⟩ := hfresh.link_entry (k := k) h hp hcache
  generalize (writeBlock fs₁ p (setPointerAt cache k new)).2 = fs₂ at hwrite hentry hnew ⊢
  have hlast : fs₂.entry p k = new := (hentry p hp k hk).trans (if_pos ⟨rfl, rfl⟩)
  refine ⟨⟨hfresh.evolves.trans hwrite, ?_, ?_, fun hne => absurd hzero hne, ?_⟩, hlast⟩
  · rw [hlast]
    exact hwrite.inUse new hfresh.inUse
  · intro b hb j hj hne
    rw [hentry b hb j hj, if_neg]
    rintro ⟨rfl, rfl⟩
    exact hne hzero
  · intro _ j hj
    rw [hlast, hnew j hj]

end

/-- An entry is there already, or there is no block for it, or it is a fresh one. -/
theorem ensureCachePointer_cases {k : Nat} {cache cache' : Bytes} {ok : Bool} (h : Sound fs)
    (hpointer : pointerAt cache k = fs.entry p k)
    (hrun : ensureCachePointer fs p cache k = (ok, fs', cache')) :
    (fs' = fs ∧ cache' = cache ∧ (ok = true ↔ fs.entry p k ≠ 0) ∧
        (ok = false → freeBlocksCount fs.superblock = 0)) ∨
      ok = true ∧ fs.entry p k = 0 ∧ ∃ new fs₁, Fresh fs new fs₁ ∧
        cache' = setPointerAt cache k new ∧ fs' = (writeBlock fs₁ p cache').2 := by
  rw [ensureCachePointer, hpointer] at hrun
  split at hrun
  next hne =>
    obtain ⟨rfl, rfl, rfl⟩ := hrun
    exact .inl ⟨rfl, rfl, by simp [hne], fun hok => by cases hok⟩
  next hzero =>
    rw [not_not] at hzero
    obtain ⟨hfull, halloc⟩ | ⟨new, fs₁, halloc, hnew, hfresh⟩ := allocateBlock_full_or_fresh h
    · simp only [halloc, if_true, mk.injEq] at hrun
      obtain ⟨rfl, rfl, rfl⟩ := hrun
      exact .inl ⟨rfl, rfl, by simp [hzero], fun _ => hfull⟩
    · simp only [halloc, hnew, if_false, mk.injEq] at hrun
      obtain ⟨rfl, rfl, rfl⟩ := hrun
      exact .inr ⟨rfl, hzero, new, fs₁, hfresh, rfl, rfl⟩

theorem pointerAt_cache {j : Nat} {cache : Bytes} (h : Sound fs) (hp : fs.InUse p)
    (hcache : ∀ x < fs.blockSize, cache x = fs.block p x) (hj : j < fs.pointersPerBlock) :
    pointerAt cache j = fs.entry p j :=
  (pointerAt_congr h.wellFormed.toGeometry hcache hj).trans
    (entry_eq_block h.wellFormed hp.ne_zero hp.lt hj).symm

theorem ensureCachePointer_spec {k : Nat} {cache cache' : Bytes} (h : Sound fs) (hp : fs.InUse p)
    (hk : k < fs.pointersPerBlock) (hcache : ∀ x < fs.blockSize, cache x = fs.block p x)
    (hnext : fs.entry p k = 0 ∨ fs.InUse (fs.entry p k))
    (hrun : ensureCachePointer fs p cache k = (true, fs', cache')) :
    Ensured fs p k fs' ∧ pointerAt cache' k = fs'.entry p k := by
  have hpointer : ∀ j < fs.pointersPerBlock, pointerAt cache j = fs.entry p j := fun _ =>
    pointerAt_cache h hp hcache
  obtain ⟨rfl, rfl, hne, -⟩ | ⟨-, hzero, new, fs₁, hfresh, rfl, rfl⟩ :=
    ensureCachePointer_cases h (hpointer k hk) hrun
  · have hne := hne.mp rfl
    exact ⟨⟨Evolves.refl h, hnext.resolve_left hne, fun _ _ _ _ _ => rfl, fun _ => rfl,
      fun hzero => absurd hzero hne⟩, hpointer k hk⟩
  · obtain ⟨hensured, hlast⟩ := hfresh.link h hp hk hpointer hzero
    refine ⟨hensured, ?_⟩
    rw [hlast, pointerAt_setPointerAt (lt_trans hfresh.lt (by decide)), if_pos rfl]

theorem KeepsPointers.trans {fs₁ : Fs} (h : KeepsPointers fs fs₁) (hev : Evolves fs fs₁)
    (h₁ : KeepsPointers fs₁ fs') : KeepsPointers fs fs' := by
  intro b hb j hj hne
  have hfirst := h b hb j hj hne
  rw [h₁ b (hev.inUse b hb) j (hev.pointersPerBlock.symm ▸ hj) (hfirst.symm ▸ hne), hfirst]

theorem pathInUse_zero (fs : Fs) (is : List Nat) : fs.PathInUse 0 is := by
  cases is with
  | nil => trivial
  | cons i is => exact .inl rfl

/-- Through a block without pointers a path leads to zero, if anywhere. -/
theorem follow_getD_of_entry_eq_zero {entry : Nat → Nat → Nat} {q j : Nat}
    (hzero : entry q j = 0) (is : List Nat) : (follow entry q (j :: is)).getD 0 = 0 := by
  by_cases hq : q = 0
  · simp [follow, hq]
  · cases is <;> simp [follow, hq, hzero]

section

variable {fs₁ : Fs} {i j : Nat} (h : Ensured fs p i fs₁) (hj : j < fs.pointersPerBlock)
include h hj

/-- After one entry has been ensured, the rest of the path is still in use. -/
theorem Ensured.pathInUse (hrest : fs.PathInUse (fs.entry p i) (j :: is)) :
    fs₁.PathInUse (fs₁.entry p i) (j :: is) := by
  by_cases hzero : fs.entry p i = 0
  · refine .inr ⟨h.inUse, ?_⟩
    rw [h.zero hzero j hj]
    exact pathInUse_zero fs₁ is
  · rwa [h.same hzero]

/-- The rest of the path leads where it led before, or to zero. -/
theorem Ensured.follow_getD :
    (follow fs₁.entry (fs₁.entry p i) (j :: is)).getD 0 =
      (follow fs.entry (fs.entry p i) (j :: is)).getD 0 := by
  by_cases hzero : fs.entry p i = 0
  · rw [follow_getD_of_entry_eq_zero (h.zero hzero j hj), hzero]
    simp [follow]
  · rw [h.same hzero]

end

/-- Ensuring a path completes it, and a path that had been incomplete ends in zero. -/
theorem ensurePath_spec (h : Sound fs) (hp : fs.InUse p) (hpath : fs.PathInUse p is)
    (hlt : ∀ k ∈ is, k < fs.pointersPerBlock) (hne : is ≠ []) (buffer : Bytes)
    (hrun : ensurePath fs p buffer is = (true, fs')) :
    Evolves fs fs' ∧ KeepsPointers fs fs' ∧ follow fs'.entry p is = some
      ((follow fs.entry p is).getD 0) := by
  induction is generalizing fs p buffer with
  | nil => exact absurd rfl hne
  | cons i is ih =>
    cases is with
    | nil =>
      obtain rfl : fs = fs' := congrArg Prod.snd hrun
      refine ⟨Evolves.refl h, fun _ _ _ _ _ => rfl, ?_⟩
      simp [follow, hp.ne_zero]
    | cons j is =>
      have hi := hlt i mem_cons_self
      have hlt' : ∀ k ∈ j :: is, k < fs.pointersPerBlock := fun k hk => hlt k (mem_cons_of_mem i hk)
      have hcache := (readBlock_spec buffer hp.ne_zero (h.wellFormed.offset_lt hp.lt)).2
      have hrest := (hpath.resolve_left hp.ne_zero).2
      rw [ensurePath] at hrun
      · obtain ⟨ok, fs₁, cache, hensure⟩ : ∃ ok fs₁ cache, ensureCachePointer fs p
            (readBlock fs p buffer).2 i = (ok, fs₁, cache) := ⟨_, _, _, rfl⟩
        rw [hensure] at hrun
        cases ok with
        | false => exact absurd (congrArg Prod.fst hrun) Bool.false_ne_true
        | true =>
          have hnext : fs.entry p i = 0 ∨ fs.InUse (fs.entry p i) := hrest.imp_right And.left
          obtain ⟨hensured, hpointer⟩ := ensureCachePointer_spec h hp hi hcache hnext hensure
          simp only [hpointer] at hrun
          have hper := hensured.evolves.pointersPerBlock
          obtain ⟨hevolves, hkeep, hfollow⟩ := ih hensured.evolves.sound hensured.inUse
            (hensured.pathInUse (hlt' j mem_cons_self) hrest)
            (fun k hk => hper.symm ▸ hlt' k hk) (cons_ne_nil j is) cache hrun
          refine ⟨hensured.evolves.trans hevolves, hensured.keep.trans hensured.evolves hkeep, ?_⟩
          have hentry := hkeep p (hensured.evolves.inUse p hp) i (hper.symm ▸ hi)
            hensured.inUse.ne_zero
          rw [hensured.follow_getD (hlt' j mem_cons_self)] at hfollow
          rw [follow_cons hp.ne_zero, hentry, hfollow, follow_cons hp.ne_zero]
      · simp

/-- The effect of ensuring the pointer at `offset` of the inode. -/
structure InodeEnsured (fs : Fs) (inode : Bytes) (offset : Nat) (fs' : Fs) (inode' : Bytes) :
    Prop where
  evolves : Evolves fs fs'
  inUse : fs'.InUse (inode'.load32 offset)
  keep : KeepsPointers fs fs'
  same : inode.load32 offset ≠ 0 → fs' = fs ∧ inode' = inode
  zero : inode.load32 offset = 0 → ∀ j < fs.pointersPerBlock,
    fs'.entry (inode'.load32 offset) j = 0

theorem Fresh.keepsPointers {new : Nat} (h : Sound fs) (hfresh : Fresh fs new fs') :
    KeepsPointers fs fs' :=
  fun b hb _ hj _ => hfresh.evolves.entry_eq h hb (hfresh.keep b hb) hj

theorem ensureInodePointer_cases {offset : Nat} {ok : Bool} (h : Sound fs)
    (hindex : fs.ValidInode inodeIndex)
    (hrun : ensureInodePointer fs inode inodeIndex offset = (ok, fs', inode')) :
    (fs' = fs ∧ inode' = inode ∧ (ok = true ↔ inode.load32 offset ≠ 0) ∧
        (ok = false → freeBlocksCount fs.superblock = 0)) ∨
      ok = true ∧ inode.load32 offset = 0 ∧ ∃ new fs₁, Fresh fs new fs₁ ∧
        inode' = inode.store32 offset new ∧ fs' = (writeInode fs₁ inode' inodeIndex).2 := by
  rw [ensureInodePointer] at hrun
  split at hrun
  next hne =>
    obtain ⟨rfl, rfl, rfl⟩ := hrun
    exact .inl ⟨rfl, rfl, by simp [hne], fun hok => by cases hok⟩
  next hzero =>
    rw [not_not] at hzero
    obtain ⟨hfull, halloc⟩ | ⟨new, fs₁, halloc, hnew, hfresh⟩ := allocateBlock_full_or_fresh h
    · simp only [halloc, if_true, mk.injEq] at hrun
      obtain ⟨rfl, rfl, rfl⟩ := hrun
      exact .inl ⟨rfl, rfl, by simp [hzero], fun _ => hfull⟩
    · have hret := (writeInode_spec hfresh.evolves.sound (hfresh.evolves.validInode hindex)
        (inode.store32 offset new)).1
      simp only [halloc, hnew, if_false, hret, mk.injEq] at hrun
      obtain ⟨rfl, rfl, rfl⟩ := hrun
      exact .inr ⟨rfl, hzero, new, fs₁, hfresh, rfl, rfl⟩

theorem ensureInodePointer_spec {offset : Nat} (h : Sound fs) (hindex : fs.ValidInode inodeIndex)
    (hroot : inode.load32 offset = 0 ∨ fs.InUse (inode.load32 offset))
    (hrun : ensureInodePointer fs inode inodeIndex offset = (true, fs', inode')) :
    InodeEnsured fs inode offset fs' inode' := by
  obtain ⟨rfl, rfl, hne, -⟩ | ⟨-, hzero, new, fs₁, hfresh, rfl, rfl⟩ :=
    ensureInodePointer_cases h hindex hrun
  · have hne := hne.mp rfl
    exact ⟨Evolves.refl h, hroot.resolve_left hne, fun _ _ _ _ _ => rfl, fun _ => ⟨rfl, rfl⟩,
      fun hzero => absurd hzero hne⟩
  · obtain ⟨-, hevolves, -, hblocks⟩ := writeInode_spec hfresh.evolves.sound
      (hfresh.evolves.validInode hindex) (inode.store32 offset new)
    have hload : (inode.store32 offset new).load32 offset = new := by
      rw [load32_store32_self, mod_eq_of_lt (lt_trans hfresh.lt (by decide))]
    have hkeep : ∀ b, fs₁.InUse b → ∀ j < fs.pointersPerBlock,
        (writeInode fs₁ (inode.store32 offset new) inodeIndex).2.entry b j = fs₁.entry b j :=
      fun b hb j hj => hevolves.entry_eq hfresh.evolves.sound hb (hblocks b hb)
        (hfresh.evolves.pointersPerBlock.symm ▸ hj)
    refine ⟨hfresh.evolves.trans hevolves, ?_, ?_, fun hne => absurd hzero hne, ?_⟩
    · rw [hload]
      exact hevolves.inUse new hfresh.inUse
    · exact (hfresh.keepsPointers h).trans hfresh.evolves fun b hb j hj _ =>
        hkeep b hb j (hfresh.evolves.pointersPerBlock ▸ hj)
    · intro _ j hj
      rw [hload, hkeep new hfresh.inUse j hj, hfresh.entry_eq_zero hj]

/-- The inode and the file system that `ext2_set_real_block_index` needs when
pointer blocks are missing. -/
structure MapReady (fs : Fs) (inode : Bytes) (inodeIndex b : Nat) : Prop where
  sound : Sound fs
  valid : fs.ValidInode inodeIndex
  path : fs.PathInUse (inode.load32 (fs.path b).1) (fs.path b).2

theorem path_ne_nil (fs : Fs) (hlo : indirectBlocks ≤ b) : ∃ i is, (fs.path b).2 = i :: is := by
  rw [Fs.path, if_neg (not_lt.mpr hlo)]
  split
  · simp
  · split <;> exact ⟨_, _, rfl⟩

theorem Evolves.path_eq (h : Evolves fs fs') (b : Nat) : fs'.path b = fs.path b := by
  obtain ⟨_, _, _, rfl, _⟩ := h.layout
  rfl

theorem Evolves.addressable (h : Evolves fs fs') (hb : fs.Addressable b) : fs'.Addressable b := by
  obtain ⟨_, _, _, rfl, _⟩ := h.layout
  exact hb

/-- After a successful call the pointer blocks exist, and the file block leads
where it led before, or to zero. -/
theorem setRealBlockIndex_lookup (hready : MapReady fs inode inodeIndex b)
    (hlo : indirectBlocks ≤ b) (hb : fs.Addressable b)
    (h : setRealBlockIndex fs inode inodeIndex b r = (0, fs', inode')) :
    Evolves fs fs' ∧ fs'.lookup inode' b = some ((fs.lookup inode b).getD 0) := by
  obtain ⟨i, is, hpath⟩ := path_ne_nil fs hlo
  have hlt := path_lt hready.sound.wellFormed.toGeometry hb
  have hin := hready.path
  rw [setRealBlockIndex_eq hlo (.inr (.inr hb.1))] at h
  rw [hpath] at h hlt hin
  have hroot : inode.load32 (fs.path b).1 = 0 ∨ fs.InUse (inode.load32 (fs.path b).1) :=
    hin.imp_right And.left
  obtain ⟨ok, fs₁, inode₁, hensure⟩ : ∃ ok fs₁ inode₁,
      ensureInodePointer fs inode inodeIndex (fs.path b).1 = (ok, fs₁, inode₁) := ⟨_, _, _, rfl⟩
  rw [hensure] at h
  cases ok with
  | false => simp at h
  | true =>
    have hensured := ensureInodePointer_spec hready.sound hready.valid hroot hensure
    have hper := hensured.evolves.pointersPerBlock
    obtain ⟨ok, fs₂, hrun⟩ : ∃ ok fs₂, ensurePath fs₁ (inode₁.load32 (fs.path b).1) zeroed
        (i :: is) = (ok, fs₂) := ⟨_, _, rfl⟩
    simp only [hrun] at h
    cases ok with
    | false => simp at h
    | true =>
      simp only [mk.injEq, true_and] at h
      obtain ⟨rfl, rfl⟩ := h
      have hin₁ : fs₁.PathInUse (inode₁.load32 (fs.path b).1) (i :: is) := by
        by_cases hzero : inode.load32 (fs.path b).1 = 0
        · refine .inr ⟨hensured.inUse, ?_⟩
          rw [hensured.zero hzero i (hlt i mem_cons_self)]
          exact pathInUse_zero fs₁ is
        · obtain ⟨hfs, hinode⟩ := hensured.same hzero
          rwa [hfs, hinode]
      obtain ⟨hevolves, _, hfollow⟩ := ensurePath_spec hensured.evolves.sound hensured.inUse
        hin₁ (fun k hk => hper.symm ▸ hlt k hk) (cons_ne_nil i is) zeroed hrun
      have hall := hensured.evolves.trans hevolves
      refine ⟨hall, ?_⟩
      rw [Fs.lookup, hall.path_eq, hpath, hfollow, Fs.lookup, hpath]
      refine congrArg some ?_
      by_cases hzero : inode.load32 (fs.path b).1 = 0
      · rw [follow_getD_of_entry_eq_zero (hensured.zero hzero i (hlt i mem_cons_self)), hzero]
        simp [follow]
      · obtain ⟨hfs, hinode⟩ := hensured.same hzero
        rw [hfs, hinode]

/-- With all pointer blocks in place, a call beyond the direct blocks does nothing. -/
theorem ensurePath_of_follow (geo : Geometry fs) (hlt : ∀ k ∈ is, k < fs.pointersPerBlock)
    (buffer : Bytes) (h : follow fs.entry p is = some r) :
    ensurePath fs p buffer is = (true, fs) := by
  induction is generalizing p buffer with
  | nil => rfl
  | cons i is ih =>
    cases is with
    | nil => rfl
    | cons j is =>
      obtain ⟨hp, hrest⟩ := follow_cons_eq_some.mp h
      obtain ⟨hnext, _⟩ := follow_cons_eq_some.mp hrest
      have hpointer := pointerAt_readBlock geo buffer hp (hlt i mem_cons_self)
      have hensure : ensureCachePointer fs p (readBlock fs p buffer).2 i =
          (true, fs, (readBlock fs p buffer).2) := by
        rw [ensureCachePointer, if_pos (hpointer.symm ▸ hnext)]
      rw [ensurePath]
      · rw [hensure]
        simp only [hpointer]
        exact ih (fun k hk => hlt k (mem_cons_of_mem i hk)) _ hrest
      · simp

theorem setRealBlockIndex_of_lookup {v : Nat} (geo : Geometry fs) (hlo : indirectBlocks ≤ b)
    (hb : fs.Addressable b) (h : fs.lookup inode b = some v) :
    setRealBlockIndex fs inode inodeIndex b r = (0, fs, inode) := by
  have hlt := path_lt geo hb
  obtain ⟨i, is, hpath⟩ := path_ne_nil fs hlo
  rw [Fs.lookup] at h
  have hroot : inode.load32 (fs.path b).1 ≠ 0 := by
    rw [hpath] at h
    exact (follow_cons_eq_some.mp h).1
  rw [setRealBlockIndex_eq hlo (.inr (.inr hb.1)), ensureInodePointer, if_pos hroot]
  simp only [ensurePath_of_follow geo hlt zeroed h]

/-- The map of `inode'` sends `b` to `r` and is that of `inode` elsewhere. -/
def MapUpdated (fs : Fs) (inode : Bytes) (b r : Nat) (fs' : Fs) (inode' : Bytes) : Prop :=
  getRealBlockIndex fs' inode' b = r ∧
    ∀ b', b' ≠ b → getRealBlockIndex fs' inode' b' = getRealBlockIndex fs inode b'

theorem mapUpdated_direct (hb : b < indirectBlocks) (hr : r < 2 ^ 32) :
    MapUpdated fs inode b r fs (Inode.setDirBlock inode b r) := by
  have hb' : b < 12 := hb
  constructor
  · rw [getRealBlockIndex, if_pos hb, Inode.dirBlock, Inode.setDirBlock, load32_store32_self,
      mod_eq_of_lt hr]
  · intro b' hne
    have hroot : ∀ offset, 88 ≤ offset → (Inode.setDirBlock inode b r).load32 offset =
        inode.load32 offset :=
      fun offset hoffset => load32_store32_of_sep (by omega)
    by_cases hdirect : b' < indirectBlocks
    · rw [getRealBlockIndex, if_pos hdirect, getRealBlockIndex, if_pos hdirect]
      exact load32_store32_of_sep (by omega)
    · simp only [getRealBlockIndex, hdirect, if_false, Inode.indirBlock, Inode.doublyIndirBlock,
        Inode.treblyIndirBlock, hroot 88 (by decide), hroot 92 (by decide), hroot 96 (by decide)]

/-- `ext2_set_real_block_index` updates the map for the direct blocks; beyond
them it does so only where there is nothing to update. Missing pointer blocks
require a sound file system for their allocation. -/
theorem setRealBlockIndex_correct_iff (geo : Geometry fs) (hb : fs.Addressable b) (hr : r ≠ 0)
    (hr32 : r < 2 ^ 32)
    (hready : b < indirectBlocks ∨ (fs.lookup inode b).isSome ∨ MapReady fs inode inodeIndex b)
    (h : setRealBlockIndex fs inode inodeIndex b r = (0, fs', inode')) :
    MapUpdated fs inode b r fs' inode' ↔ b < indirectBlocks ∨ fs.lookup inode b = some r := by
  by_cases hdirect : b < indirectBlocks
  · rw [setRealBlockIndex, if_pos hdirect] at h
    simp only [mk.injEq, true_and] at h
    obtain ⟨rfl, rfl⟩ := h
    exact ⟨fun _ => .inl hdirect, fun _ => mapUpdated_direct hdirect hr32⟩
  · have hlo := Nat.le_of_not_lt hdirect
    cases hlookup : fs.lookup inode b with
    | some v =>
      rw [setRealBlockIndex_of_lookup geo hlo hb hlookup] at h
      simp only [mk.injEq, true_and] at h
      obtain ⟨rfl, rfl⟩ := h
      have hget := getRealBlockIndex_of_lookup geo hb hlookup
      constructor
      · rintro ⟨hset, _⟩
        exact .inr (congrArg some (hget.symm.trans hset))
      · rintro (hlt | hsome)
        · omega
        · exact ⟨hget.trans (some.inj hsome), fun _ _ => rfl⟩
    | none =>
      have hready' : MapReady fs inode inodeIndex b :=
        (hready.resolve_left hdirect).resolve_left (by simp [hlookup])
      obtain ⟨hevolves, hzero⟩ := setRealBlockIndex_lookup hready' hlo hb h
      rw [hlookup, getD_none] at hzero
      have hget := getRealBlockIndex_of_lookup hevolves.sound.wellFormed.toGeometry
        (hevolves.addressable hb) hzero
      constructor
      · rintro ⟨hset, _⟩
        omega
      · rintro (hlt | hsome)
        · omega
        · cases hsome

theorem setRealBlockIndex_correct_direct :
    MapUpdated (tiny false) zeroed 3 15 (tiny false) (Inode.setDirBlock zeroed 3 15) :=
  (setRealBlockIndex_correct_iff tiny_geometry ⟨by decide, by decide⟩ (by decide) (by decide)
    (.inl (by decide))
    (rfl : setRealBlockIndex (tiny false) zeroed 11 3 15 =
      (0, tiny false, Inode.setDirBlock zeroed 3 15))).mpr (.inl (by decide))

/-- The first file block behind an existing indirect block: the call reports
success, and the block remains unmapped. -/
theorem setRealBlockIndex_indirect :
    WellFormed (tiny false) ∧ (setRealBlockIndex (tiny false) (zeroed.store32 indirOffset 9) 11
      12 15).1 = 0 ∧ ¬MapUpdated (tiny false) (zeroed.store32 indirOffset 9) 12 15
        (setRealBlockIndex (tiny false) (zeroed.store32 indirOffset 9) 11 12 15).2.1
        (setRealBlockIndex (tiny false) (zeroed.store32 indirOffset 9) 11 12 15).2.2 :=
  ⟨tiny_wellFormed, by decide, fun h => absurd h.1 (by decide)⟩

end Hos.Ext2
