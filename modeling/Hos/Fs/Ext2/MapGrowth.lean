import Hos.Fs.Ext2.FileMap

/-!
# Growing a file beyond its direct blocks

`ext2_set_real_block_index` gives a file the pointer blocks that lead to a new
block but never stores the pointer to the block itself. So a map only grows by
pointer blocks under which every path leads to nothing: wherever a path led
before, it leads there now, and a path that led nowhere still does.
-/

namespace Hos.Ext2

open List Function Nat

open Bytes

section

/-- Paths of the given length from `p` lead to nothing. -/
def Fs.VacantTree (fs : Fs) (level : Nat → Nat) (p length : Nat) : Prop :=
  ∀ is : List Nat, is.length = length → (∀ k ∈ is, k < fs.pointersPerBlock) →
    fs.Tree level p is ∧ (follow fs.entry p is).getD 0 = 0

/-- As `KeepsTree`, but missing entries may have got a vacant tree. -/
structure GrowsTree (fs : Fs) (level : Nat → Nat) (fs' : Fs) (level' : Nat → Nat) : Prop where
  evolves : Evolves fs fs'
  levels : ∀ q, fs.InUse q → level' q = level q
  entries : ∀ q, fs.InUse q → 0 < level q → ∀ j < fs.pointersPerBlock,
    fs'.entry q j = fs.entry q j ∨
      fs.entry q j = 0 ∧ fs'.VacantTree level' (fs'.entry q j) (level q - 1)

variable {fs fs' fs'' : Fs} {level level' level'' : Nat → Nat} {p length : Nat} {is : List Nat}

theorem tree_zero (fs : Fs) (level : Nat → Nat) (is : List Nat) : fs.Tree level 0 is := by
  cases is <;> exact .inl rfl

theorem Fs.Tree.root (h : fs.Tree level p is) : p = 0 ∨ fs.InUse p := by
  cases is <;> exact h.imp_right And.left

theorem Fs.Tree.pathInUse (h : fs.Tree level p is) : fs.PathInUse p is := by
  induction is generalizing p with
  | nil => trivial
  | cons i is ih => exact h.imp_right fun hp => ⟨hp.1, ih hp.2.2⟩

theorem KeepsTree.grows (h : KeepsTree fs level fs' level') : GrowsTree fs level fs' level' :=
  ⟨h.evolves, h.levels, fun q hq hpos j hj => .inl (h.entries q hq hpos j hj)⟩

section

variable (h : GrowsTree fs level fs' level')
include h

theorem GrowsTree.follow_eq (hlt : ∀ k ∈ is, k < fs.pointersPerBlock) (htree : fs.Tree level p is) :
    fs'.Tree level' p is ∧ (follow fs'.entry p is).getD 0 = (follow fs.entry p is).getD 0 ∧
      ∀ r, follow fs.entry p is = some r → follow fs'.entry p is = some r := by
  induction is generalizing p with
  | nil =>
    refine ⟨htree.imp_right fun hp => ⟨h.evolves.inUse p hp.1, ?_⟩, rfl, fun _ hr => hr⟩
    rw [h.levels p hp.1, hp.2]
  | cons i is ih =>
    rcases htree with rfl | ⟨hp, hlevel, hrest⟩
    · exact ⟨.inl rfl, rfl, fun _ hr => hr⟩
    · have hlt' : ∀ k ∈ is, k < fs.pointersPerBlock := fun k hk => hlt k (mem_cons_of_mem i hk)
      have hp' := h.evolves.inUse p hp
      have hlevel' := (h.levels p hp).trans hlevel
      rw [follow_cons hp.ne_zero, follow_cons hp.ne_zero]
      rcases h.entries p hp (by omega) i (hlt i mem_cons_self) with hentry | ⟨hzero, hvacant⟩
      · obtain ⟨htree', hvalue, hsome⟩ := ih hlt' hrest
        rw [hentry]
        refine ⟨.inr ⟨hp', hlevel', ?_⟩, hvalue, hsome⟩
        rwa [hentry]
      · have hlength : is.length = level p - 1 := by omega
        obtain ⟨htree', hvalue⟩ := hvacant is hlength
          (fun k hk => h.evolves.pointersPerBlock.symm ▸ hlt' k hk)
        refine ⟨.inr ⟨hp', hlevel', htree'⟩, ?_, ?_⟩
        · rw [hvalue, hzero, follow_zero_getD]
        · intro r hr
          rw [hzero] at hr
          -- only the end of a path may be missing, and there nothing is added
          cases is with
          | nil =>
            cases hr
            exact congrArg some hvalue
          | cons j is => exact absurd rfl (follow_cons_eq_some.mp hr).1

theorem GrowsTree.vacant (hp : fs.VacantTree level p length) :
    fs'.VacantTree level' p length := by
  intro is hlength hlt
  rw [h.evolves.pointersPerBlock] at hlt
  obtain ⟨htree, hvalue⟩ := hp is hlength hlt
  obtain ⟨htree', hvalue', _⟩ := h.follow_eq hlt htree
  exact ⟨htree', hvalue'.trans hvalue⟩

theorem GrowsTree.trans (h' : GrowsTree fs' level' fs'' level'') :
    GrowsTree fs level fs'' level'' where
  evolves := h.evolves.trans h'.evolves
  levels := fun q hq => (h'.levels q (h.evolves.inUse q hq)).trans (h.levels q hq)
  entries := by
    intro q hq hpos j hj
    have hlevel := h.levels q hq
    have hnext := h'.entries q (h.evolves.inUse q hq) (by omega) j
      (h.evolves.pointersPerBlock.symm ▸ hj)
    rw [hlevel] at hnext
    rcases h.entries q hq hpos j hj with hsame | ⟨hzero, hvacant⟩
    · rwa [hsame] at hnext
    · refine .inr ⟨hzero, ?_⟩
      rcases hnext with hsame' | ⟨_, hvacant'⟩
      · rw [hsame']
        exact h'.vacant hvacant
      · exact hvacant'

end

/-- A pointer block without pointers is a vacant tree. -/
theorem vacantTree_of_entries {new : Nat} (hnew : fs.InUse new) (hlevel : level new = length + 1)
    (hzero : ∀ j < fs.pointersPerBlock, fs.entry new j = 0) :
    fs.VacantTree level new (length + 1) := by
  intro is hlength hlt
  cases is with
  | nil => simp at hlength
  | cons j is =>
    have hentry := hzero j (hlt j mem_cons_self)
    refine ⟨.inr ⟨hnew, ?_, ?_⟩, follow_getD_of_entry_eq_zero hentry is⟩
    · rw [hlevel]
      simpa using hlength.symm
    · rw [hentry]
      exact tree_zero fs level is

/-- Linking a fresh block into a pointer block that does not hold data pointers. -/
theorem Fresh.link_grows {k new : Nat} {cache : Bytes} {fs₁ : Fs} (hfresh : Fresh fs new fs₁)
    (h : Sound fs) (hp : fs.InUse p) (hlevel : level p = length + 2)
    (hcache : ∀ j < fs.pointersPerBlock, pointerAt cache j = fs.entry p j)
    (hzero : fs.entry p k = 0) :
    GrowsTree fs level (writeBlock fs₁ p (setPointerAt cache k new)).2
      (Function.update level new (length + 1)) := by
  obtain ⟨hwrite, hentry, hnew⟩ := hfresh.link_entry (k := k) h hp hcache
  generalize (writeBlock fs₁ p (setPointerAt cache k new)).2 = fs₂ at hwrite hentry hnew ⊢
  have hall := hfresh.evolves.trans hwrite
  have hvacant : fs₂.VacantTree (Function.update level new (length + 1)) new (length + 1) :=
    vacantTree_of_entries (hwrite.inUse new hfresh.inUse) (update_self _ _ _)
      fun j hj => hnew j (hall.pointersPerBlock ▸ hj)
  refine ⟨hall, ?_, ?_⟩
  · intro q hq
    refine update_of_ne ?_ _ _
    rintro rfl
    exact hfresh.notInUse hq
  · intro q hq _ j hj
    rw [hentry q hq j hj]
    split
    · rename_i hand
      obtain ⟨rfl, rfl⟩ := hand
      refine .inr ⟨hzero, ?_⟩
      rwa [hlevel]
    · exact .inl rfl

end

section

variable {fs fs' : Fs} {inode inode' : Bytes} {inodeIndex p length : Nat}
  {level level' : Nat → Nat} {is : List Nat} {ok : Bool}

/-- Whether or not it succeeds, ensuring an entry only adds a vacant tree. With a free
block it succeeds, and takes one at most. -/
theorem ensureCachePointer_grows {k : Nat} {cache cache' : Bytes} (h : Sound fs) (hp : fs.InUse p)
    (hlevel : level p = length + 2) (hk : k < fs.pointersPerBlock)
    (hcache : ∀ x < fs.blockSize, cache x = fs.block p x)
    (hnext : fs.entry p k = 0 ∨ fs.InUse (fs.entry p k))
    (hrun : ensureCachePointer fs p cache k = (ok, fs', cache')) :
    ∃ level', GrowsTree fs level fs' level' ∧
      (ok = true → pointerAt cache' k = fs'.entry p k ∧ fs'.InUse (fs'.entry p k)) ∧
      (0 < freeBlocksCount fs.superblock → ok = true) ∧
      freeBlocksCount fs.superblock ≤ freeBlocksCount fs'.superblock + 1 := by
  have hspec : ok = true → pointerAt cache' k = fs'.entry p k ∧ fs'.InUse (fs'.entry p k) := by
    rintro rfl
    obtain ⟨hensured, hpointer⟩ := ensureCachePointer_spec h hp hk hcache hnext hrun
    exact ⟨hpointer, hensured.inUse⟩
  have hpointer : ∀ j < fs.pointersPerBlock, pointerAt cache j = fs.entry p j := fun _ =>
    pointerAt_cache h hp hcache
  obtain ⟨rfl, rfl, -, hfull⟩ | ⟨rfl, hzero, new, fs₁, hfresh, rfl, rfl⟩ :=
    ensureCachePointer_cases h (hpointer k hk) hrun
  · refine ⟨level, (KeepsTree.refl h level).grows, hspec, fun hfree => ?_, le_succ _⟩
    exact (Bool.eq_false_or_eq_true ok).resolve_right fun hok => ne_of_gt hfree (hfull hok)
  · refine ⟨_, hfresh.link_grows h hp hlevel hpointer hzero, hspec, fun _ => rfl, ?_⟩
    rw [writeBlock_superblock]
    exact le_of_eq hfresh.free.symm

theorem ensurePath_grows {i : Nat} (h : Sound fs) (hp : fs.InUse p)
    (htree : fs.Tree level p (i :: is)) (hlt : ∀ k ∈ i :: is, k < fs.pointersPerBlock)
    (buffer : Bytes) (hrun : ensurePath fs p buffer (i :: is) = (ok, fs')) :
    ∃ level', GrowsTree fs level fs' level' ∧
      (is.length ≤ freeBlocksCount fs.superblock → ok = true) ∧
      freeBlocksCount fs.superblock ≤ freeBlocksCount fs'.superblock + is.length := by
  induction is generalizing i fs p level buffer with
  | nil =>
    obtain ⟨rfl, rfl⟩ := hrun
    exact ⟨level, (KeepsTree.refl h level).grows, fun _ => rfl, le_refl _⟩
  | cons j is ih =>
    rw [length_cons]
    obtain ⟨_, hlevel, hrest⟩ := htree.resolve_left hp.ne_zero
    have hcache := (readBlock_spec buffer hp.ne_zero (h.wellFormed.offset_lt hp.lt)).2
    obtain ⟨ok₁, fs₁, cache, hensure⟩ : ∃ ok₁ fs₁ cache, ensureCachePointer fs p
        (readBlock fs p buffer).2 i = (ok₁, fs₁, cache) := ⟨_, _, _, rfl⟩
    have hnext : fs.entry p i = 0 ∨ fs.InUse (fs.entry p i) := hrest.imp_right And.left
    obtain ⟨level₁, hgrows, hok, hroom, hfree⟩ := ensureCachePointer_grows h hp hlevel
      (hlt i mem_cons_self) hcache hnext hensure
    rw [ensurePath] at hrun
    · rw [hensure] at hrun
      cases ok₁ with
      | false =>
        obtain ⟨-, rfl⟩ := hrun
        exact ⟨level₁, hgrows, fun hle => absurd (hroom (by omega)) Bool.false_ne_true, by omega⟩
      | true =>
        obtain ⟨hpointer, hin⟩ := hok rfl
        simp only [hpointer] at hrun
        have hp₁ := hgrows.evolves.inUse p hp
        obtain ⟨htree₁, _⟩ := hgrows.follow_eq hlt htree
        obtain ⟨level', hgrows', hroom', hfree'⟩ := ih hgrows.evolves.sound hin
          (htree₁.resolve_left hp₁.ne_zero).2.2
          (fun k hk => hgrows.evolves.pointersPerBlock.symm ▸ hlt k (mem_cons_of_mem i hk)) cache
            hrun
        exact ⟨level', hgrows.trans hgrows', fun hle => hroom' (by omega), by omega⟩
    · simp

/-- Whether or not it succeeds, ensuring a pointer of the inode only adds a vacant tree. -/
theorem ensureInodePointer_grows {offset : Nat} (level : Nat → Nat) (length : Nat) (h : Sound fs)
    (hindex : fs.ValidInode inodeIndex)
    (hrun : ensureInodePointer fs inode inodeIndex offset = (ok, fs', inode')) :
    ∃ level', GrowsTree fs level fs' level' ∧
      (inode' = inode ∨ inode.load32 offset = 0 ∧ ∃ new, new < 2 ^ 32 ∧
        inode' = inode.store32 offset new ∧ fs'.VacantTree level' new (length + 1)) ∧
      (0 < freeBlocksCount fs.superblock → ok = true) ∧
      freeBlocksCount fs.superblock ≤ freeBlocksCount fs'.superblock + 1 := by
  obtain ⟨rfl, rfl, -, hfull⟩ | ⟨rfl, hzero, new, fs₁, hfresh, rfl, rfl⟩ :=
    ensureInodePointer_cases h hindex hrun
  · refine ⟨level, (KeepsTree.refl h level).grows, .inl rfl, fun hfree => ?_, le_succ _⟩
    exact (Bool.eq_false_or_eq_true ok).resolve_right fun hok => ne_of_gt hfree (hfull hok)
  · have hindex₁ := hfresh.evolves.validInode hindex
    have hkeep := writeInode_keepsTree hfresh.evolves.sound hindex₁ (inode.store32 offset new)
      (Function.update level new (length + 1))
    have hper := hfresh.evolves.pointersPerBlock
    have hvacant : fs₁.VacantTree (Function.update level new (length + 1)) new (length + 1) :=
      vacantTree_of_entries hfresh.inUse (update_self _ _ _) fun j hj =>
        hfresh.entry_eq_zero (hper ▸ hj)
    refine ⟨_, ((hfresh.keepsTree h level (length + 1)).trans hkeep).grows, .inr ⟨hzero, new,
      lt_trans hfresh.lt (by decide), rfl, hkeep.grows.vacant hvacant⟩, fun _ => rfl, ?_⟩
    rw [(writeInode_spec hfresh.evolves.sound hindex₁ (inode.store32 offset new)).2.2.1]
    exact le_of_eq hfresh.free.symm

end

/-- The map of an inode, grown: beyond the direct blocks it leads where it led before. -/
structure MapGrows (fs : Fs) (inode : Bytes) (inodeIndex : Nat) (fs' : Fs) (inode' : Bytes)
    (level' : Nat → Nat) : Prop where
  map : MapTree fs' inode' inodeIndex level'
  evolves : Evolves fs fs'
  value : ∀ b, indirectBlocks ≤ b → fs.Addressable b →
    (fs'.lookup inode' b).getD 0 = (fs.lookup inode b).getD 0
  found : ∀ b r, indirectBlocks ≤ b → fs.Addressable b → fs.lookup inode b = some r →
    fs'.lookup inode' b = some r

variable {fs fs' fs'' : Fs} {inode inode' inode'' : Bytes} {inodeIndex b c r : Nat}
  {level level' level'' : Nat → Nat}

theorem MapGrows.trans (h : MapGrows fs inode inodeIndex fs' inode' level')
    (h' : MapGrows fs' inode' inodeIndex fs'' inode'' level'') :
    MapGrows fs inode inodeIndex fs'' inode'' level'' where
  map := h'.map
  evolves := h.evolves.trans h'.evolves
  value := fun b hlo hb =>
    (h'.value b hlo (h.evolves.addressable hb)).trans (h.value b hlo hb)
  found := fun b r hlo hb hr =>
    h'.found b r hlo (h.evolves.addressable hb) (h.found b r hlo hb hr)

/-- The pointers of the inode beyond the direct ones. -/
theorem path_indirect (fs : Fs) (hlo : indirectBlocks ≤ b) :
    (fs.path b).1 = 84 + 4 * (fs.path b).2.length ∧ 0 < (fs.path b).2.length := by
  rw [Fs.path, if_neg (not_lt.mpr hlo)]
  split
  · exact ⟨rfl, by simp⟩
  · split <;> exact ⟨rfl, by simp⟩

theorem MapTree.grow (h : MapTree fs inode inodeIndex level)
    (hgrows : GrowsTree fs level fs' level')
    (hroots : ∀ b, inode'.load32 (fs.path b).1 = inode.load32 (fs.path b).1) :
    MapGrows fs inode inodeIndex fs' inode' level' := by
  have hfollow : ∀ b, fs.Addressable b → _ := fun b hb =>
    hgrows.follow_eq (path_lt h.sound.wellFormed.toGeometry hb) (h.tree b hb)
  refine ⟨⟨hgrows.evolves.sound, hgrows.evolves.validInode h.valid, ?_⟩, hgrows.evolves, ?_, ?_⟩
  · intro b hb
    rw [hgrows.evolves.path_eq, hroots]
    exact (hfollow b (hgrows.evolves.addressable_iff.mp hb)).1
  · intro b _ hb
    rw [Fs.lookup, Fs.lookup, hgrows.evolves.path_eq, hroots]
    exact (hfollow b hb).2.1
  · intro b r _ hb
    rw [Fs.lookup, Fs.lookup, hgrows.evolves.path_eq, hroots]
    exact (hfollow b hb).2.2 r

/-- Giving the inode the vacant tree that one of its pointers lacked. -/
theorem MapTree.plant {new : Nat} (h : MapTree fs inode inodeIndex level)
    (hgrows : GrowsTree fs level fs' level') (hlo : indirectBlocks ≤ c) (hnew : new < 2 ^ 32)
    (hzero : inode.load32 (fs.path c).1 = 0)
    (hvacant : fs'.VacantTree level' new (fs.path c).2.length) :
    MapGrows fs inode inodeIndex fs' (inode.store32 (fs.path c).1 new) level' := by
  have hper := hgrows.evolves.pointersPerBlock
  -- a path starts at the pointer that was missing, or at one that is as before
  have hcases : ∀ b, fs.Addressable b →
      (fs'.lookup (inode.store32 (fs.path c).1 new) b).getD 0 = (fs.lookup inode b).getD 0 ∧
        (∀ r, fs.lookup inode b = some r → fs'.lookup (inode.store32 (fs.path c).1 new) b =
          some r) ∧
        fs'.Tree level' ((inode.store32 (fs.path c).1 new).load32 (fs'.path b).1)
          (fs'.path b).2 := by
    intro b hb
    have hlt := path_lt h.sound.wellFormed.toGeometry hb
    obtain ⟨hoffset, hpos⟩ := path_indirect fs hlo
    rw [Fs.lookup, Fs.lookup, hgrows.evolves.path_eq]
    by_cases hsame : (fs.path b).1 = (fs.path c).1
    · have hlength : (fs.path b).2.length = (fs.path c).2.length := by
        rcases path_offset fs b with ⟨hdirect, hpath⟩ | ⟨hlo', _⟩
        · have hdirect' : b < 12 := hdirect
          rw [hpath] at hsame
          omega
        · have hoffset' := (path_indirect fs hlo').1
          omega
      obtain ⟨htree, hvalue⟩ := hvacant (fs.path b).2 hlength (fun k hk => hper.symm ▸ hlt k hk)
      rw [hsame, load32_store32_self, mod_eq_of_lt hnew, hvalue, hzero, follow_zero_getD]
      refine ⟨rfl, ?_, htree⟩
      intro r hr
      obtain ⟨i, is, hpath⟩ := exists_cons_of_length_pos (hlength.symm ▸ hpos)
      rw [hpath] at hr
      exact absurd rfl (follow_cons_eq_some.mp hr).1
    · have hroot : (inode.store32 (fs.path c).1 new).load32 (fs.path b).1 =
          inode.load32 (fs.path b).1 := by
        refine load32_store32_of_sep ?_
        rcases path_offset fs b with ⟨hdirect, hpath⟩ | ⟨hlo', _⟩
        · have hdirect' : b < 12 := hdirect
          rw [hpath]
          omega
        · have hoffset' := (path_indirect fs hlo').1
          omega
      obtain ⟨htree, hvalue, hsome⟩ := hgrows.follow_eq hlt (h.tree b hb)
      rw [hroot]
      exact ⟨hvalue, hsome, htree⟩
  refine ⟨⟨hgrows.evolves.sound, hgrows.evolves.validInode h.valid, ?_⟩, hgrows.evolves, ?_, ?_⟩
  · exact fun b hb => (hcases b (hgrows.evolves.addressable_iff.mp hb)).2.2
  · exact fun b _ hb => (hcases b hb).1
  · exact fun b r _ hb hr => (hcases b hb).2.1 r hr

theorem setRealBlockIndex_ret {ret : Int} (hlo : indirectBlocks ≤ c)
    (hc : c < fs.treblyIndirectBlocksIndex)
    (hrun : setRealBlockIndex fs inode inodeIndex c r = (ret, fs', inode')) : ret = -1 ∨
      ret = 0 := by
  rw [setRealBlockIndex_eq hlo (.inr (.inr hc))] at hrun
  split at hrun
  · exact .inl (congrArg Prod.fst hrun).symm
  · split at hrun
    · exact .inl (congrArg Prod.fst hrun).symm
    · exact .inr (congrArg Prod.fst hrun).symm

/-- Beyond the direct blocks `ext2_set_real_block_index` grows the map, whether
or not it succeeds; when it succeeds, the path to the block is complete. With room for
the pointer blocks on the path it does succeed. -/
theorem setRealBlockIndex_grows {ret : Int} (h : MapTree fs inode inodeIndex level)
    (hlo : indirectBlocks ≤ c) (hc : fs.Addressable c)
    (hrun : setRealBlockIndex fs inode inodeIndex c r = (ret, fs', inode')) :
    ∃ level', MapGrows fs inode inodeIndex fs' inode' level' ∧ (∀ x < 84, inode' x = inode x) ∧
      (ret ≠ -1 → ∃ v, fs'.lookup inode' c = some v) ∧
      ((fs.path c).2.length ≤ freeBlocksCount fs.superblock → ret = 0) ∧
      freeBlocksCount fs.superblock ≤ freeBlocksCount fs'.superblock + (fs.path c).2.length := by
  obtain ⟨i, is, hpath⟩ := path_ne_nil fs hlo
  have hoffset := (path_indirect fs hlo).1
  have hlength : (fs.path c).2.length = is.length + 1 := by rw [hpath, length_cons]
  have hroot : inode.load32 (fs.path c).1 = 0 ∨ fs.InUse (inode.load32 (fs.path c).1) :=
    (h.tree c hc).root
  have hfound : ret ≠ -1 → ∃ v, fs'.lookup inode' c = some v := by
    intro hret
    rcases setRealBlockIndex_ret hlo hc.1 hrun with rfl | rfl
    · omega
    · exact ⟨_, (setRealBlockIndex_lookup ⟨h.sound, h.valid, (h.tree c hc).pathInUse⟩
        hlo hc hrun).2⟩
  obtain ⟨ok₁, fs₁, inode₁, hensure⟩ : ∃ ok₁ fs₁ inode₁,
      ensureInodePointer fs inode inodeIndex (fs.path c).1 = (ok₁, fs₁, inode₁) := ⟨_, _, _, rfl⟩
  obtain ⟨level₁, hgrows₁, hinode, hroom₁, hfree₁⟩ :=
    ensureInodePointer_grows level is.length h.sound h.valid hensure
  have hmap₁ : MapGrows fs inode inodeIndex fs₁ inode₁ level₁ ∧ ∀ x < 84, inode₁ x = inode x := by
    rcases hinode with rfl | ⟨hzero, new, hnew, rfl, hvacant⟩
    · exact ⟨h.grow hgrows₁ fun _ => rfl, fun _ _ => rfl⟩
    · rw [← hlength] at hvacant
      exact ⟨h.plant hgrows₁ hlo hnew hzero hvacant, fun x hx => store32_of_notMem (by omega)⟩
  rw [setRealBlockIndex_eq hlo (.inr (.inr hc.1)), hensure] at hrun
  cases ok₁ with
  | false =>
    cases hrun
    exact ⟨level₁, hmap₁.1, hmap₁.2, hfound,
      fun hle => absurd (hroom₁ (by omega)) Bool.false_ne_true, by omega⟩
  | true =>
    have hensured := ensureInodePointer_spec h.sound h.valid hroot hensure
    have htree₁ := hmap₁.1.map.tree c (hgrows₁.evolves.addressable hc)
    have hlt₁ := path_lt hgrows₁.evolves.sound.wellFormed.toGeometry
      (hgrows₁.evolves.addressable hc)
    obtain ⟨ok₂, fs₂, hpaths⟩ : ∃ ok₂ fs₂, ensurePath fs₁ (inode₁.load32 (fs.path c).1) zeroed
        (fs.path c).2 = (ok₂, fs₂) := ⟨_, _, rfl⟩
    simp only [hpaths] at hrun
    rw [hgrows₁.evolves.path_eq, hpath] at htree₁ hlt₁
    rw [hpath] at hpaths
    obtain ⟨level₂, hgrows₂, hroom₂, hfree₂⟩ :=
      ensurePath_grows hgrows₁.evolves.sound hensured.inUse htree₁ hlt₁ zeroed hpaths
    have hmap₂ := hmap₁.1.trans (hmap₁.1.map.grow hgrows₂ fun _ => rfl)
    cases ok₂ with
    | false =>
      cases hrun
      exact ⟨level₂, hmap₂, hmap₁.2, hfound, fun hle =>
        absurd (hroom₂ (by omega)) Bool.false_ne_true, by omega⟩
    | true =>
      cases hrun
      exact ⟨level₂, hmap₂, hmap₁.2, hfound, fun _ => rfl, by omega⟩

end Hos.Ext2
