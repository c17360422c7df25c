import Hos.Lib.Loop
import Hos.Memory.Vmm.Space

/-!
# Allocating and giving back a range of addresses

`vmm_allocate_range` rounds its bounds outwards to whole pages and
`vmm_deallocate_range` rounds them inwards, so that a page that a range covers
only in part is allocated and stays. Then `vmm_deallocate_range` frees the
directory entries from `(start >> 20) & 0x3ff` on, one for every megabyte of the
range. A directory entry stands for four megabytes: these are the entries of
other addresses, unless they happen to be of the range as well. The loop has no
bound either, and leaves the directory when the number is too large.
-/

namespace Hos.Vm

open List Nat

/-- `__ALIGN_DOWN(addr, PAGE_SIZE)`. -/
def alignDown (addr : Nat) : Nat := addr / pageSize * pageSize

/-- `__ALIGN_UP(addr, PAGE_SIZE)`. -/
def alignUp (addr : Nat) : Nat := u32 (addr + (pageSize - 1)) / pageSize * pageSize

/-- The loop over the pages from an address up to another one. -/
def pageLoop (body : Vm → Nat → Option Vm) (startAddr endAddr : Nat) (vm : Vm) : Option Vm :=
  (whileLoop (fun s : Nat × Vm => decide (s.1 < endAddr)) (fun s => do
    let vm ← body s.2 s.1
    return (u32 (s.1 + pageSize), vm)) (startAddr, vm)).map (·.2)

/-- `vmm_allocate_range`. -/
def allocateRange (vm : Vm) (virtAddr size flags : Nat) : Option Vm :=
  pageLoop (fun vm startAddr => (vm.createPage startAddr flags).map (·.1)) (alignDown virtAddr)
    (alignUp (u32 (virtAddr + size))) vm

/-- `vmm_map_range`. The physical address runs along with the virtual one. -/
def mapRange (vm : Vm) (virtAddr physAddr size flags : Nat) : Option Vm :=
  pageLoop (fun vm startAddr =>
    (vm.mapPage startAddr (u32 (alignDown physAddr + (startAddr - alignDown virtAddr))) flags).map
      (·.1))
    (alignDown virtAddr) (alignUp (u32 (virtAddr + size))) vm

/-- `vmm_unmap_range`. -/
def unmapRange (vm : Vm) (virtAddr size : Nat) : Option Vm :=
  pageLoop unmapPage (alignUp virtAddr) (alignDown (u32 (virtAddr + size))) vm

/-- One pass of the loop of `vmm_deallocate_range` over directory entries. An access
behind the directory is none of this state. -/
def freeTable (vm : Vm) (pdI : Nat) : Option Vm :=
  if 1024 ≤ pdI then none
  else if present (vm.phys.load32 (entryAddr vm.curPdir pdI)) then
    some { vm with
      pmm := vm.pmm.freeFrame (vm.phys.load32 (entryAddr vm.curPdir pdI))
      phys := vm.phys.store32 (entryAddr vm.curPdir pdI) 0 }
  else some vm

/-- `vmm_deallocate_range`. -/
def deallocateRange (vm : Vm) (virtAddr size : Nat) : Option Vm := do
  let vm ← pageLoop freePage (alignUp virtAddr) (alignDown (u32 (virtAddr + size))) vm
  let pdI := alignUp virtAddr / 2 ^ 20 % 1024
  let pdE := pdI + size / 2 ^ 20
  (List.range' pdI (pdE - pdI)).foldlM freeTable vm

section

variable {vm : Vm} {body : Vm → Nat → Option Vm} {a b : Nat}

/-- The loop takes the pages in order. -/
theorem pageLoop_eq (hb : b < 2 ^ 20) : pageLoop body (a * pageSize) (b * pageSize) vm =
    (List.range' a (b - a)).foldlM (fun vm p => body vm (p * pageSize)) vm := by
  generalize hn : b - a = n
  induction n generalizing a vm with
  | zero =>
    have hle : b * pageSize ≤ a * pageSize := mul_le_mul_right _ (by omega)
    rw [pageLoop, whileLoop_of_false (by simpa using hle)]
    rfl
  | succ n ih =>
    have hlt : a * pageSize < b * pageSize := mul_lt_mul_of_pos_right (by omega) (by decide)
    have hnext : u32 (a * pageSize + pageSize) = (a + 1) * pageSize := by
      rw [u32_of_lt, succ_mul]
      rw [pageSize]
      omega
    rw [range'_succ, foldlM_cons]
    cases hbody : body vm (a * pageSize) with
    | none =>
      rw [pageLoop, whileLoop_of_none (by simpa using hlt) (by rw [hbody]; rfl)]
      rfl
    | some vm₁ =>
      have hstep : (do
          let vm ← body vm (a * pageSize)
          return (u32 (a * pageSize + pageSize), vm) : Option (Nat × Vm)) =
          some ((a + 1) * pageSize, vm₁) := by
        rw [hbody, hnext]
        rfl
      rw [pageLoop, whileLoop_of_true (by simpa using hlt) hstep]
      exact ih (by omega)

theorem alignDown_eq {addr : Nat} : alignDown addr = addr / pageSize * pageSize := rfl

theorem alignUp_eq {addr : Nat} (h : addr ≤ 0xFFC00000) :
    alignUp addr = (addr + 4095) / pageSize * pageSize := by
  rw [alignUp, u32_of_lt]
  · rfl
  · rw [pageSize]
    omega

end

/-- The pages in `P` have been allocated: each of them has a frame of its own that
was free before, and all other entries are as they were. The slots in `S` may have
got a table. -/
structure Grown (vm vm' : Vm) (d : Nat) (S P : Set Nat) : Prop where
  space : vm'.Space d
  directory : ∀ i < 1024, present (vm.phys.word d i) = true ∨ i ∉ S →
    vm'.phys.word d i = vm.phys.word d i
  other : ∀ q < 1023 * 1024, q ∉ P → mapping vm'.phys d q = mapping vm.phys d q
  page : ∀ p ∈ P, ∃ raw, mapping vm'.phys d p = some raw ∧ vm.pmm.bit (frameNo raw) = false ∧
    vm'.pmm.bit (frameNo raw) = true ∧
    ∀ i < 1024, present (vm'.phys.word d i) = true → frameNo (vm'.phys.word d i) ≠ frameNo raw
  injective : ∀ p ∈ P, ∀ q ∈ P, ∀ raw raw', mapping vm'.phys d p = some raw →
    mapping vm'.phys d q = some raw' → frameNo raw = frameNo raw' → p = q
  own : ∀ p ∈ P, ∀ k < 1024, k ≠ p / 1024 → present (vm'.phys.word d k) = true →
    frameNo (vm'.phys.word d k) ≠ frameNo (vm'.phys.word d (p / 1024))
  used : ∀ g, vm.pmm.bit g = true → vm'.pmm.bit g = true

section

variable {vm vm₁ vm' : Vm} {d f i p flags : Nat} {S P : Set Nat} {ret : Option Nat}

theorem Space.grown (h : vm.Space d) : vm.Grown vm d ∅ ∅ where
  space := h
  directory _ _ _ := rfl
  other _ _ _ := rfl
  page _ hp := absurd hp (Set.notMem_empty _)
  injective _ hp := absurd hp (Set.notMem_empty _)
  own _ hp := absurd hp (Set.notMem_empty _)
  used _ hg := hg

theorem Grown.bit_fresh {g j : Nat} (h : vm.Grown vm₁ d S P) (ht : vm₁.Takes vm' g j f) :
    vm₁.pmm.bit f = false ∧ vm.pmm.bit f = false := by
  have hclear := (Pmm.allocateFrame_eq_some ht.alloc).2.2.1
  refine ⟨hclear, Bool.eq_false_iff.mpr fun hset => ?_⟩
  rw [h.used f hset] at hclear
  cases hclear

theorem Takes.bit_of_bit {g j b : Nat} (ht : vm.Takes vm' g j f) (h : vm.pmm.bit b = true) :
    vm'.pmm.bit b = true := by
  rw [ht.bit, h, Bool.true_or]

theorem Takes.bit_self {g j : Nat} (ht : vm.Takes vm' g j f) : vm'.pmm.bit f = true := by
  rw [ht.bit, beq_self_eq_true, Bool.or_true]

variable (h : vm.Grown vm₁ d S P) (hP : ∀ p ∈ P, p < 1023 * 1024)
include h hP

theorem Grown.table (hi : i < 1023) (hstep : vm₁.TableStep vm' d i) :
    vm.Grown vm' d (insert i S) P := by
  have hspace := h.space.tableStep hi hstep
  obtain ⟨-, hdir, hmapping⟩ := h.space.linked.tableStep hi hstep
  have hpages : ∀ p ∈ P, mapping vm'.phys d p = mapping vm₁.phys d p := fun p hp =>
    hmapping p (hP p hp)
  have hbits : ∀ b, vm₁.pmm.bit b = true → vm'.pmm.bit b = true := by
    obtain ⟨_, rfl⟩ | ⟨_, f, ht⟩ := hstep
    · simp
    · exact fun b => ht.bit_of_bit
  refine ⟨hspace, ?_, ?_, ?_, ?_, ?_, fun g hg => hbits g (h.used g hg)⟩
  · intro j hj hcases
    rw [Set.mem_insert_iff, not_or] at hcases
    have hbefore := h.directory j hj (hcases.imp_right (·.2))
    rw [hdir j hj (hcases.imp (fun hpresent => by rw [hbefore]; exact hpresent) (·.1)), hbefore]
  · intro q hq hqP
    rw [hmapping q hq, h.other q hq hqP]
  · intro p hp
    obtain ⟨raw, hraw, hfree, hset, hapart⟩ := h.page p hp
    refine ⟨raw, (hpages p hp).trans hraw, hfree, hbits _ hset, fun j hj hpresent => ?_⟩
    obtain ⟨_, rfl⟩ | ⟨_, f, ht⟩ := hstep
    · exact hapart j hj hpresent
    · by_cases hji : j = i
      · rintro hframe
        rw [hji, ht.frame] at hframe
        rw [← hframe, (h.bit_fresh ht).1] at hset
        cases hset
      · rw [hdir j hj (.inr hji)] at hpresent ⊢
        exact hapart j hj hpresent
  · intro p hp q hq raw raw' hraw hraw'
    rw [hpages p hp] at hraw
    rw [hpages q hq] at hraw'
    exact h.injective p hp q hq raw raw' hraw hraw'
  · intro p hp k hk hkp hpresent
    obtain ⟨raw, hraw, _⟩ := h.page p hp
    have htable := (mapping_eq_some_iff.mp hraw).1
    have hslot : p / 1024 < 1024 := by
      have hlt := hP p hp
      omega
    rw [hdir _ hslot (.inl htable)]
    obtain ⟨_, rfl⟩ | ⟨_, f, ht⟩ := hstep
    · exact h.own p hp k hk hkp hpresent
    · by_cases hki : k = i
      · rw [hki, ht.frame]
        exact ((h.space.linked.fresh ht.alloc).2.2 _ hslot htable).symm
      · rw [hdir k hk (.inr hki)] at hpresent ⊢
        exact h.own p hp k hk hkp hpresent

theorem Grown.takes (hp : p < 1023 * 1024) (htable : present (vm₁.phys.word d (p / 1024)) = true)
    (hleaf : present (leaf vm₁.phys d p) = false)
    (ht : vm₁.Takes vm' (frameNo (vm₁.phys.word d (p / 1024))) (p % 1024) f) :
    vm.Grown vm' d S (insert p P) := by
  obtain ⟨hspace, hdir, hmapping, raw, hraw, hframe⟩ := h.space.takes_page hp htable hleaf ht
  obtain ⟨hclear, hfree⟩ := h.bit_fresh ht
  have hunmapped : mapping vm₁.phys d p = none := mapping_eq_none_iff.mpr fun _ => hleaf
  have hne : ∀ q ∈ P, q ≠ p := by
    rintro q hq rfl
    obtain ⟨raw', hraw', _⟩ := h.page q hq
    rw [hunmapped] at hraw'
    cases hraw'
  have hpages : ∀ q ∈ P, mapping vm'.phys d q = mapping vm₁.phys d q := fun q hq =>
    hmapping q (hP q hq) (hne q hq)
  -- the frame of an earlier page is in use, so it is not the new one
  have hearlier : ∀ q ∈ P, ∀ raw', mapping vm₁.phys d q = some raw' → frameNo raw' ≠ f := by
    rintro q hq raw' hraw' rfl
    obtain ⟨raw'', hraw'', _, hset, _⟩ := h.page q hq
    rw [hraw'] at hraw''
    cases hraw''
    rw [hset] at hclear
    cases hclear
  have hslots : ∀ q ∈ insert p P, q / 1024 < 1024 := by
    rintro q (rfl | hq)
    · omega
    · have hlt := hP q hq
      omega
  refine ⟨hspace, ?_, ?_, ?_, ?_, ?_, fun g hg => ht.bit_of_bit (h.used g hg)⟩
  · intro j hj hcases
    rw [hdir j hj, h.directory j hj hcases]
  · intro q hq hqP
    rw [Set.mem_insert_iff, not_or] at hqP
    rw [hmapping q hq hqP.1, h.other q hq hqP.2]
  · intro q hq
    obtain rfl | hq := Set.mem_insert_iff.mp hq
    · refine ⟨raw, hraw, hframe ▸ hfree, hframe ▸ ht.bit_self, fun j hj hpresent => ?_⟩
      rw [hdir j hj] at hpresent ⊢
      rw [hframe]
      exact (h.space.linked.fresh ht.alloc).2.2 j hj hpresent
    · obtain ⟨raw', hraw', hfree', hset, hapart⟩ := h.page q hq
      refine ⟨raw', (hpages q hq).trans hraw', hfree', ht.bit_of_bit hset, fun j hj hpresent => ?_⟩
      rw [hdir j hj] at hpresent ⊢
      exact hapart j hj hpresent
  · intro q hq q' hq' rawq rawq' hrawq hrawq' heq
    obtain rfl | hmem := Set.mem_insert_iff.mp hq
    · obtain rfl | hmem' := Set.mem_insert_iff.mp hq'
      · rfl
      · rw [hraw] at hrawq
        cases hrawq
        rw [hpages q' hmem'] at hrawq'
        exact absurd (heq.symm.trans hframe) (hearlier q' hmem' rawq' hrawq')
    · rw [hpages q hmem] at hrawq
      obtain rfl | hmem' := Set.mem_insert_iff.mp hq'
      · rw [hraw] at hrawq'
        cases hrawq'
        exact absurd (heq.trans hframe) (hearlier q hmem rawq hrawq)
      · rw [hpages q' hmem'] at hrawq'
        exact h.injective q hmem q' hmem' rawq rawq' hrawq hrawq' heq
  · intro q hq k hk hkq hpresent
    rw [hdir k hk] at hpresent ⊢
    rw [hdir _ (hslots q hq)]
    obtain rfl | hmem := Set.mem_insert_iff.mp hq
    · exact h.space.own (by omega) (mod_lt q (by decide)) htable hleaf k hk hkq hpresent
    · exact h.own q hmem k hk hkq hpresent

theorem Grown.createPage (hp : p < 1023 * 1024) (hpP : p ∉ P) (hflags : present flags = true)
    (hlarge : large flags = false) (hunmapped : mapping vm.phys d p = none)
    (hrun : vm₁.createPage (p * pageSize) flags = some (vm', ret)) :
    vm.Grown vm' d (insert (p / 1024) S) (insert p P) := by
  have hnone : mapping vm₁.phys d p = none := (h.other p hp hpP).trans hunmapped
  obtain ⟨vm₂, f, htable, hleaf, ht⟩ := h.space.createPage_steps hp hflags hlarge hnone hrun
  exact (h.table hP (by omega) htable).takes hP hp htable.present_after hleaf ht

theorem Grown.createPages {ps : List Nat}
    (hps : ∀ p ∈ ps, p < 1023 * 1024 ∧ p ∉ P ∧ mapping vm.phys d p = none) (hnodup : ps.Nodup)
    (hflags : present flags = true) (hlarge : large flags = false)
    (hrun : ps.foldlM (fun vm p => (vm.createPage (p * pageSize) flags).map (·.1)) vm₁ = some vm') :
    vm.Grown vm' d ({i | ∃ p ∈ ps, p / 1024 = i} ∪ S) ({p | p ∈ ps} ∪ P) := by
  induction ps generalizing vm₁ S P with
  | nil =>
    cases hrun
    simpa using h
  | cons p ps ih =>
    rw [foldlM_cons, Option.bind_eq_bind, Option.bind_eq_some_iff] at hrun
    obtain ⟨_, hmap, hrest⟩ := hrun
    obtain ⟨⟨vm₂, ret⟩, hcreate, rfl⟩ := Option.map_eq_some_iff.mp hmap
    obtain ⟨hp, hpP, hunmapped⟩ := hps p mem_cons_self
    obtain ⟨hnotMem, hnodup⟩ := nodup_cons.mp hnodup
    have hP' : ∀ q ∈ insert p P, q < 1023 * 1024 := by
      rintro q (rfl | hq)
      · exact hp
      · exact hP q hq
    have hps' : ∀ q ∈ ps, q < 1023 * 1024 ∧ q ∉ insert p P ∧ mapping vm.phys d q = none := by
      intro q hq
      obtain ⟨hlt, hqP, hnone⟩ := hps q (mem_cons_of_mem p hq)
      refine ⟨hlt, ?_, hnone⟩
      rintro (rfl | hmem)
      · exact hnotMem hq
      · exact hqP hmem
    have hgrown := ih (h.createPage hP hp hpP hflags hlarge hunmapped hcreate) hP' hps' hnodup hrest
    convert hgrown using 1
    · ext i
      simp [eq_comm, or_assoc]
    · ext q
      simp [or_assoc]

end

/-- The tables of the directory are frames of their own, apart from those that other
slots have as well. -/
structure Tables (phys : Bytes) (d : Nat) (S : Set Nat) : Prop where
  ne : ∀ i < 1023, present (phys.word d i) = true → frameNo (phys.word d i) ≠ d
  own : ∀ i ∈ S, present (phys.word d i) = true → ∀ k < 1024, k ≠ i →
    present (phys.word d k) = true → frameNo (phys.word d k) ≠ frameNo (phys.word d i)

variable {vm vm' : Vm} {d p : Nat} {S : Set Nat}

theorem Tables.congr {phys phys' : Bytes} (h : Tables phys d S) (hS : ∀ i ∈ S, i < 1024)
    (hdir : ∀ i < 1024, phys'.word d i = phys.word d i) : Tables phys' d S where
  ne i hi := by
    rw [hdir i (by omega)]
    exact h.ne i hi
  own i hi hpresent k hk := by
    rw [hdir i (hS i hi)] at hpresent ⊢
    rw [hdir k hk]
    exact h.own i hi hpresent k hk

theorem Recursive.congr {phys : Bytes} (pmm : Pmm) (h : vm.Recursive d)
    (hself : phys.word d 1023 = vm.phys.word d 1023) :
    ({ vm with phys := phys, pmm := pmm } : Vm).Recursive d :=
  ⟨h.cr3, h.curPdir, hself ▸ h.self_present, hself ▸ h.self_frame⟩

/-- The entry that `vmm_unmap_page` and `vmm_free_page` find. -/
theorem Recursive.mappedEntry_eq (h : vm.Recursive d) (hp : p < 1023 * 1024) :
    vm.mappedEntry (p * pageSize) = some ((mapping vm.phys d p).map fun _ =>
      Bytes.wordAddr (frameNo (vm.phys.word d (p / 1024))) (p % 1024)) := by
  have haddr : p * pageSize / pageSize * pageSize = p * pageSize := by
    rw [Nat.mul_div_cancel p (by decide)]
  have hload : vm.phys.load32 (entryAddr vm.curPdir (p / 1024)) = vm.phys.word d (p / 1024) := by
    rw [h.curPdir]
    rfl
  have hindex := pdeIndex_page (show p < 2 ^ 20 by omega)
  simp only [mappedEntry, haddr, hindex, hload, pteIndex_page]
  by_cases htable : present (vm.phys.word d (p / 1024)) = true
  · have htranslate := h.translate_table (mod_lt p (by decide)) (hindex.symm ▸ htable)
    rw [hindex] at htranslate
    rw [if_pos htable, htranslate, Option.bind_eq_bind, Option.bind_some, mapping, htable,
      Bool.true_and]
    by_cases hleaf : present (leaf vm.phys d p) = true
    · rw [if_pos hleaf]
      exact congrArg some (if_pos hleaf)
    · rw [if_neg hleaf]
      exact congrArg some (if_neg hleaf)
  · rw [if_neg htable, mapping, Bool.eq_false_iff.mpr htable]
    rfl

/-- Frames given back one after the other. -/
def freeFrames (pmm : Pmm) (fs : List Nat) : Pmm :=
    fs.foldl (fun pmm f => pmm.freeFrame (f * pageSize)) pmm

theorem freeFrame_eq {pmm : Pmm} {raw : Nat} : pmm.freeFrame raw = pmm.freeFrame
    (frameNo raw * pageSize) := by
  have hdiv : frameNo raw * pageSize / 2 ^ Pmm.frameShift = raw / 2 ^ Pmm.frameShift :=
    Nat.mul_div_cancel _ (by decide)
  rw [Pmm.freeFrame, Pmm.freeFrame, Pmm.frameUnseta, Pmm.frameUnseta, hdiv]

theorem freeFrames_append {pmm : Pmm} {fs gs : List Nat} :
    freeFrames pmm (fs ++ gs) = freeFrames (freeFrames pmm fs) gs := foldl_append

theorem bit_freeFrames {pmm : Pmm} {fs : List Nat} {g : Nat} :
    (freeFrames pmm fs).bit g = true ↔ pmm.bit g = true ∧ g ∉ fs := by
  induction fs generalizing pmm with
  | nil => simp [freeFrames]
  | cons f fs ih =>
    have hdiv : f * pageSize / 2 ^ Pmm.frameShift = f := Nat.mul_div_cancel _ (by decide)
    have hstep : freeFrames pmm (f :: fs) = freeFrames (pmm.freeFrame (f * pageSize)) fs := rfl
    rw [hstep, ih, Pmm.bit_freeFrame, hdiv, Bool.and_eq_true, bne_iff_ne, mem_cons,
      not_or, and_assoc]

/-- `vmm_free_page` removes one page and gives its frame back. -/
theorem Recursive.freePage (h : vm.Recursive d) (htables : Tables vm.phys d S)
    (hS : ∀ i ∈ S, i < 1023) (hp : p / 1024 ∈ S) :
    ∃ vm', vm.freePage (p * pageSize) = some vm' ∧ vm'.Recursive d ∧
      (∀ i < 1024, vm'.phys.word d i = vm.phys.word d i) ∧
      (∀ q < 1023 * 1024, mapping vm'.phys d q = if q = p then none else mapping vm.phys d q) ∧
      vm'.pmm = freeFrames vm.pmm ((mapping vm.phys d p).map frameNo).toList := by
  have hslot := hS _ hp
  have hentry := h.mappedEntry_eq (show p < 1023 * 1024 by omega)
  cases hmapping : mapping vm.phys d p with
  | none =>
    refine ⟨vm, ?_, h, fun _ _ => rfl, fun q _ => ?_, rfl⟩
    · rw [Vm.freePage, hentry, hmapping]
      rfl
    · split
      · next hq => rw [hq, hmapping]
      · rfl
  | some raw =>
    obtain ⟨htable, hset, hleaf⟩ := mapping_eq_some_iff.mp hmapping
    have hmod : p % 1024 < 1024 := mod_lt p (by decide)
    have hne := htables.ne _ hslot htable
    have hdir : ∀ i < 1024, (vm.phys.setWord (frameNo (vm.phys.word d (p / 1024)))
        (p % 1024) 0).word d
        i = vm.phys.word d i := fun i hi => Bytes.word_setWord_of_ne hmod hi (.inl hne.symm)
    have hload : vm.phys.load32 (Bytes.wordAddr (frameNo (vm.phys.word d (p / 1024))) (p % 1024)) =
        raw := hleaf
    refine ⟨_, ?_, h.congr (vm.pmm.freeFrame raw) (hdir 1023 (by decide)), hdir,
      fun q hq => ?_, freeFrame_eq⟩
    · rw [Vm.freePage, hentry, hmapping]
      simp only [Option.map_some, Option.bind_eq_bind, Option.bind_some, hload]
      rfl
    · split
      · next hqp =>
        rw [hqp, mapping_eq_none_iff, leaf, hdir _ (by omega), Bytes.word_setWord_self]
        exact fun _ => rfl
      · next hqp =>
        refine mapping_congr (hdir _ (by omega)) fun hpresent =>
          Bytes.word_setWord_of_ne hmod (by omega) ?_
        by_cases hslots : q / 1024 = p / 1024
        · omega
        · exact .inl (htables.own _ hp htable _ (by omega) hslots hpresent)

theorem Recursive.freePages {ps : List Nat} (h : vm.Recursive d) (htables : Tables vm.phys d S)
    (hS : ∀ i ∈ S, i < 1023) (hps : ∀ p ∈ ps, p / 1024 ∈ S) (hnodup : ps.Nodup) :
    ∃ vm', ps.foldlM (fun vm p => vm.freePage (p * pageSize)) vm = some vm' ∧ vm'.Recursive d ∧
      (∀ i < 1024, vm'.phys.word d i = vm.phys.word d i) ∧
      (∀ q < 1023 * 1024, mapping vm'.phys d q = if q ∈ ps then none else mapping vm.phys d q) ∧
      vm'.pmm = freeFrames vm.pmm (ps.filterMap fun p => (mapping vm.phys d p).map frameNo) := by
  induction ps generalizing vm with
  | nil => exact ⟨vm, rfl, h, fun _ _ => rfl, by simp, rfl⟩
  | cons p ps ih =>
    obtain ⟨hnotMem, hnodup⟩ := nodup_cons.mp hnodup
    obtain ⟨vm₁, hfree, hrec, hdir, hmapping, hpmm⟩ := h.freePage htables hS (hps p mem_cons_self)
    obtain ⟨vm', hrest, hrec', hdir', hmapping', hpmm'⟩ := ih hrec
      (htables.congr (fun i hi => lt_succ_of_lt (hS i hi)) hdir)
      (fun q hq => hps q (mem_cons_of_mem p hq)) hnodup
    -- the pages that are still to come are mapped as before
    have hlater : (ps.filterMap fun q => (mapping vm₁.phys d q).map frameNo) =
        ps.filterMap fun q => (mapping vm.phys d q).map frameNo := by
      refine filterMap_congr fun q hq => ?_
      have hslot := hS _ (hps q (mem_cons_of_mem p hq))
      rw [hmapping q (by omega), if_neg]
      rintro rfl
      exact hnotMem hq
    refine ⟨vm', ?_, hrec', fun i hi => (hdir' i hi).trans (hdir i hi), fun q hq => ?_, ?_⟩
    · rw [foldlM_cons, hfree]
      exact hrest
    · rw [hmapping' q hq, hmapping q hq]
      by_cases hqps : q ∈ ps
      · rw [if_pos hqps, if_pos (mem_cons_of_mem p hqps)]
      · simp [hqps]
    · rw [hpmm', hpmm, hlater, ← freeFrames_append, filterMap_cons]
      cases mapping vm.phys d p <;> rfl

/-- What the second loop does to a directory entry. -/
theorem freeTable_eq {i : Nat} (h : vm.curPdir = d * pageSize) (hi : i < 1024) :
    vm.freeTable i = some (if present (vm.phys.word d i) = true then
      { vm with
        pmm := vm.pmm.freeFrame (vm.phys.word d i)
        phys := vm.phys.setWord d i 0 } else vm) := by
  have haddr : entryAddr vm.curPdir i = Bytes.wordAddr d i := by
    rw [h]
    rfl
  rw [freeTable, if_neg (by omega), haddr]
  by_cases hpresent : present (vm.phys.word d i) = true
  · rw [if_pos hpresent]
    exact if_pos hpresent
  · rw [if_neg hpresent]
    exact if_neg hpresent

theorem freeTables {is : List Nat} (h : vm.curPdir = d * pageSize) (his : ∀ i ∈ is, i < 1024)
    (hnodup : is.Nodup) :
    ∃ vm', is.foldlM freeTable vm = some vm' ∧ (∀ i < 1024, vm'.phys.word d i =
        if i ∈ is ∧ present (vm.phys.word d i) = true then 0 else vm.phys.word d i) ∧
      (∀ g ≠ d, ∀ k < 1024, vm'.phys.word g k = vm.phys.word g k) ∧
      ∀ g, vm'.pmm.bit g = true ↔ vm.pmm.bit g = true ∧
        ∀ i ∈ is, present (vm.phys.word d i) = true → frameNo (vm.phys.word d i) ≠ g := by
  induction is generalizing vm with
  | nil => exact ⟨vm, rfl, by simp, fun _ _ _ _ => rfl, by simp⟩
  | cons i is ih =>
    obtain ⟨hnotMem, hnodup⟩ := nodup_cons.mp hnodup
    have hi := his i mem_cons_self
    have hstep := freeTable_eq h hi
    rw [foldlM_cons, hstep, Option.bind_eq_bind, Option.bind_some]
    by_cases hpresent : present (vm.phys.word d i) = true
    · rw [if_pos hpresent]
      have hdir : ∀ k < 1024, k ≠ i → (vm.phys.setWord d i 0).word d k = vm.phys.word d k :=
        fun k hk hki => Bytes.word_setWord_of_ne hi hk (.inr hki)
      have hlater : ∀ k ∈ is, (vm.phys.setWord d i 0).word d k = vm.phys.word d k := by
        intro k hk
        refine hdir k (his k (mem_cons_of_mem i hk)) ?_
        rintro rfl
        exact hnotMem hk
      have hcur : ({ vm with
          pmm := vm.pmm.freeFrame (vm.phys.word d i)
          phys := vm.phys.setWord d i 0 } : Vm).curPdir = d * pageSize := h
      obtain ⟨vm', hrest, hwords, hother, hbits⟩ :=
        ih hcur (fun k hk => his k (mem_cons_of_mem i hk)) hnodup
      refine ⟨vm', hrest, fun k hk => ?_, fun g hg k hk => ?_, fun g => ?_⟩
      · rw [hwords k hk]
        by_cases hki : k = i
        · subst hki
          rw [Bytes.word_setWord_self, if_neg (fun hmem => hnotMem hmem.1),
            if_pos ⟨mem_cons_self, hpresent⟩, zero_mod]
        · simp [hdir k hk hki, hki]
      · rw [hother g hg k hk]
        exact Bytes.word_setWord_of_ne hi hk (.inl hg)
      · have hrewrite : (∀ k ∈ is, present ((vm.phys.setWord d i 0).word d k) = true →
            frameNo ((vm.phys.setWord d i 0).word d k) ≠ g) ↔
            ∀ k ∈ is, present (vm.phys.word d k) = true → frameNo (vm.phys.word d k) ≠ g :=
          forall_congr' fun k => forall_congr' fun hk => by rw [hlater k hk]
        rw [hbits, hrewrite, Pmm.bit_freeFrame, Bool.and_eq_true, bne_iff_ne,
          forall_mem_cons, and_assoc]
        exact and_congr_right fun _ => and_congr_left fun _ =>
          ⟨fun hg _ => hg.symm, fun hg => (hg hpresent).symm⟩
    · rw [if_neg hpresent]
      obtain ⟨vm', hrest, hwords, hother, hbits⟩ :=
        ih h (fun k hk => his k (mem_cons_of_mem i hk)) hnodup
      refine ⟨vm', hrest, fun k hk => ?_, hother, fun g => ?_⟩
      · rw [hwords k hk]
        by_cases hki : k = i
        · simp [hki, hpresent]
        · simp [hki]
      · rw [hbits, forall_mem_cons]
        exact and_congr_right fun _ => ⟨fun hrest => ⟨fun hset => absurd hset hpresent, hrest⟩,
          (·.2)⟩

/-- Leaving the directory. -/
theorem freeTables_eq_none {is : List Nat} {i : Nat} (hi : i ∈ is) (hout : 1024 ≤ i) :
    is.foldlM freeTable vm = none := by
  induction is generalizing vm with
  | nil => cases hi
  | cons k is ih =>
    rw [foldlM_cons, Option.bind_eq_bind]
    obtain rfl | hmem := mem_cons.mp hi
    · rw [freeTable, if_pos hout]
      rfl
    · cases vm.freeTable k with
      | none => rfl
      | some vm' => exact ih hmem

end Hos.Vm
