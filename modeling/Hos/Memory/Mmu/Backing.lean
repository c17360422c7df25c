import Hos.Memory.Mmu.Destroy
import Hos.Memory.Vmm.Map

/-!
# The frames behind a new area

The pages of a new area get frames that the allocator had not given out, and the
tables of the area show nothing else. Both depend on what the frames of the tables
held before: `__allocate_vm_area` reads the present bits of its new tables, and nothing
clears these tables first. A word with the bit set is taken for an entry and keeps
the frame that it happens to name.
-/

namespace Hos.Vm

open Option

/-- The slots of an area. -/
def InSlots (vmStart sizeAlloc i : Nat) : Prop :=
  (areaSlots vmStart sizeAlloc).1 ≤ i ∧ i <
    (areaSlots vmStart sizeAlloc).1 + (areaSlots vmStart sizeAlloc).2

/-- Every page of the area has a frame that the call has taken from the allocator, no
other page of the area and no table of the area has it, and the other pages of these
tables are absent. -/
structure FreshBacking (vm vm' : Vm) (e vmStart sizeAlloc : Nat) : Prop where
  backed : ∀ p, Overlaps vmStart sizeAlloc p → ∃ raw, mapping vm'.phys e p = some raw ∧
    vm.pmm.bit (frameNo raw) = false ∧ vm'.pmm.bit (frameNo raw) = true
  distinct : ∀ p q raw raw', Overlaps vmStart sizeAlloc p → Overlaps vmStart sizeAlloc q →
    mapping vm'.phys e p = some raw → mapping vm'.phys e q = some raw' →
      frameNo raw = frameNo raw' → p = q
  ne_table : ∀ p raw i, Overlaps vmStart sizeAlloc p → mapping vm'.phys e p = some raw →
    InSlots vmStart sizeAlloc i → frameNo raw ≠ frameNo (vm'.phys.word e i)
  only : ∀ p, InSlots vmStart sizeAlloc (p / 1024) → ¬Overlaps vmStart sizeAlloc p →
    mapping vm'.phys e p = none

/-- No word of the frames that the allocator gives out for the tables has its present
bit set. -/
def CleanTables (vm : Vm) (vmStart sizeAlloc : Nat) : Prop :=
  ∀ f pmm, vm.pmm.allocateFrames (areaSlots vmStart sizeAlloc).2 = some (f, pmm) →
    ∀ g, f ≤ g → g < f + (areaSlots vmStart sizeAlloc).2 → ∀ k < 1024,
      present (vm.phys.word g k) = false

section

variable {vmStart sizeAlloc p : Nat}

theorem Overlaps.page (h : Overlaps vmStart sizeAlloc p) :
    (areaPages vmStart sizeAlloc).1 ≤ p ∧ p < (areaPages vmStart sizeAlloc).2 := by
  obtain ⟨addr, hlo, hhi, rfl⟩ := h
  rw [areaPages, pageSize]
  dsimp only
  omega

theorem overlaps_of_page (h : 0 < sizeAlloc ∨ pageSize ∣ vmStart)
    (hle : (areaPages vmStart sizeAlloc).1 ≤ p)
    (hlt : p < (areaPages vmStart sizeAlloc).2) : Overlaps vmStart sizeAlloc p := by
  rw [areaPages] at hle hlt
  rw [overlaps_iff, Covered]
  rw [pageSize] at h ⊢
  omega

theorem inSlots_of_page (hle : (areaPages vmStart sizeAlloc).1 ≤ p)
    (hlt : p < (areaPages vmStart sizeAlloc).2) :
    InSlots vmStart sizeAlloc (p / 1024) := by
  rw [areaPages] at hle hlt
  rw [InSlots, areaSlots]
  omega

end

variable {vm vm' : Vm} {d e w s n f a b flags vmStart sizeAlloc : Nat}

section

variable (h : AreaMade vm vm' e w s n f a b flags)
include h

theorem AreaMade.frameNo_table (hlow : flags < pageSize) {i : Nat}
    (hi : s ≤ i ∧ i < s + n) : frameNo (vm'.phys.word e i) = f + (i - s) := by
  rw [h.entries i hi.1 hi.2, frameNo_entry hlow]

theorem AreaMade.present_page {p : Nat} (hle : a ≤ p) (hlt : p < b) :
    present (wordAt vm'.phys (tablePlace f s p)) = true := by
  by_cases hpresent : present (wordAt vm.phys (tablePlace f s p)) = true
  · rw [h.stale p hle hlt hpresent, hpresent]
  · exact (h.taken p hle hlt (Bool.eq_false_iff.mpr hpresent)).1

/-- A page of the new tables that is not from `a` up to `b` keeps its word. -/
theorem AreaMade.wordAt_other (hpages : ∀ p, a ≤ p → p < b → s ≤ p / 1024 ∧ p / 1024 < s + n)
    {p : Nat} (hp : s ≤ p / 1024 ∧ p / 1024 < s + n) (hout : ¬(a ≤ p ∧ p < b)) :
    wordAt vm'.phys (tablePlace f s p) = wordAt vm.phys (tablePlace f s p) := by
  obtain ⟨hge, hlt⟩ := tablePlace_mem (f := f) hp
  refine h.other _ hge hlt _ (Nat.mod_lt p (by decide)) fun q hq hq' heq => hout ?_
  obtain rfl := tablePlace_injective (hpages q hq hq').1 hp.1 heq
  omega

end

/-- In clean tables every page of the area gets a frame of its own. -/
theorem AreaMade.freshBacking
    (h : AreaMade vm vm' e w (areaSlots vmStart sizeAlloc).1 (areaSlots vmStart sizeAlloc).2 f
      (areaPages vmStart sizeAlloc).1 (areaPages vmStart sizeAlloc).2 flags)
    (hlow : flags < pageSize) (hflags : present flags = true)
    (hclean : ∀ g, f ≤ g → g < f + (areaSlots vmStart sizeAlloc).2 → ∀ k < 1024,
      present (vm.phys.word g k) = false)
    (hsize : 0 < sizeAlloc ∨ pageSize ∣ vmStart) : FreshBacking vm vm' e vmStart sizeAlloc := by
  have hpages : ∀ p, (areaPages vmStart sizeAlloc).1 ≤ p → p < (areaPages vmStart sizeAlloc).2 →
      InSlots vmStart sizeAlloc (p / 1024) := fun p hle hlt => inSlots_of_page hle hlt
  have habsent : ∀ p, InSlots vmStart sizeAlloc (p / 1024) →
      present (wordAt vm.phys (tablePlace f (areaSlots vmStart sizeAlloc).1 p)) = false := by
    intro p hp
    obtain ⟨hge, hlt⟩ := tablePlace_mem (f := f) hp
    exact hclean _ hge hlt _ (Nat.mod_lt p (by decide))
  have hentry : ∀ p, Overlaps vmStart sizeAlloc p →
      mapping vm'.phys e p = some (wordAt vm'.phys
        (tablePlace f (areaSlots vmStart sizeAlloc).1 p)) := by
    intro p hp
    obtain ⟨hle, hlt⟩ := hp.page
    rw [h.mapping_page hlow hflags (hpages p hle hlt), if_pos (h.present_page hle hlt)]
  have htaken : ∀ p, Overlaps vmStart sizeAlloc p → _ := fun p hp =>
    (h.taken p hp.page.1 hp.page.2 (habsent p (hpages p hp.page.1 hp.page.2))).2
  refine ⟨fun p hp => ?_, fun p q raw raw' hp hq hraw hraw' heq => ?_, fun p raw i hp hraw
    hi heq => ?_, fun p hp hout => ?_⟩
  · obtain ⟨hbefore, hafter, -⟩ := htaken p hp
    exact ⟨_, hentry p hp, hbefore, hafter⟩
  · obtain rfl := some.inj ((hentry p hp).symm.trans hraw)
    obtain rfl := some.inj ((hentry q hq).symm.trans hraw')
    obtain ⟨hle, hlt⟩ := hp.page
    obtain ⟨hle', hlt'⟩ := hq.page
    exact h.injective p hle hlt q hle' hlt' (habsent p (hpages p hle hlt))
      (habsent q (hpages q hle' hlt')) heq
  · obtain rfl := some.inj ((hentry p hp).symm.trans hraw)
    rw [h.frameNo_table hlow hi] at heq
    obtain ⟨hge, hlt⟩ := hi
    exact (htaken p hp).2.2 (by omega)
  · have hnone : ¬((areaPages vmStart sizeAlloc).1 ≤ p ∧ p < (areaPages vmStart sizeAlloc).2) :=
      fun hpage => hout (overlaps_of_page hsize hpage.1 hpage.2)
    rw [h.mapping_page hlow hflags hp, h.wordAt_other hpages hp hnone, if_neg]
    rw [habsent p hp]
    simp

section

variable (hfresh : FreshBacking vm vm' e vmStart sizeAlloc)
  (h : AreaMade vm vm' e w (areaSlots vmStart sizeAlloc).1 (areaSlots vmStart sizeAlloc).2 f
    (areaPages vmStart sizeAlloc).1 (areaPages vmStart sizeAlloc).2 flags) (hlow : flags < pageSize)
  (hflags : present flags = true)
include hfresh h hlow hflags

/-- A page that was present in its table before the call is not backed by it: a frame
that the call takes is the frame of a table or of a page that was absent. -/
theorem FreshBacking.absent {p : Nat} (hp : InSlots vmStart sizeAlloc (p / 1024))
    (hsize : 0 < sizeAlloc ∨ pageSize ∣ vmStart) :
    present (wordAt vm.phys (tablePlace f (areaSlots vmStart sizeAlloc).1 p)) = false := by
  refine Bool.eq_false_iff.mpr fun hpresent => ?_
  have hpages : ∀ p, (areaPages vmStart sizeAlloc).1 ≤ p → p < (areaPages vmStart sizeAlloc).2 →
      InSlots vmStart sizeAlloc (p / 1024) := fun p hle hlt => inSlots_of_page hle hlt
  by_cases hover : Overlaps vmStart sizeAlloc p
  · obtain ⟨hle, hlt⟩ := hover.page
    obtain ⟨raw, hraw, hbefore, hafter⟩ := hfresh.backed p hover
    obtain hold | hnew | ⟨q, hle', hlt', habsent, hframe⟩ := h.bits _ hafter
    · rw [hbefore] at hold
      cases hold
    · refine hfresh.ne_table p raw ((areaSlots vmStart sizeAlloc).1 + (frameNo raw - f))
        hover hraw ?_ ?_
      · rw [InSlots]
        omega
      · rw [h.frameNo_table hlow (by omega)]
        omega
    · have hq := h.mapping_page hlow hflags (hpages q hle' hlt')
      rw [if_pos (h.present_page hle' hlt')] at hq
      obtain rfl := hfresh.distinct p q raw _ hover (overlaps_of_page hsize hle' hlt') hraw
        hq hframe.symm
      rw [hpresent] at habsent
      cases habsent
  · have hnone : ¬((areaPages vmStart sizeAlloc).1 ≤ p ∧ p < (areaPages vmStart sizeAlloc).2) :=
      fun hpage => hover (overlaps_of_page hsize hpage.1 hpage.2)
    have hmapped := h.mapping_page hlow hflags hp
    rw [h.wordAt_other hpages hp hnone, if_pos hpresent, hfresh.only p hp hover] at hmapped
    cases hmapped

/-- An empty area that does not start at a page has one page. -/
theorem FreshBacking.nonempty : 0 < sizeAlloc ∨ pageSize ∣ vmStart := by
  by_contra hnone
  rw [not_or, Nat.not_lt, Nat.le_zero] at hnone
  obtain ⟨rfl, hdvd⟩ := hnone
  have hle : (areaPages vmStart 0).1 ≤ vmStart / 4096 := Nat.le_refl _
  have hlt : vmStart / 4096 < (areaPages vmStart 0).2 := by
    rw [pageSize] at hdvd
    rw [areaPages]
    omega
  have hout : ¬Overlaps vmStart 0 (vmStart / 4096) := fun hover =>
    Nat.lt_irrefl 0 (overlaps_iff.mp hover).1
  have hmapped := h.mapping_page hlow hflags (inSlots_of_page hle hlt)
  rw [if_pos (h.present_page hle hlt), hfresh.only _ (inSlots_of_page hle hlt) hout] at hmapped
  cases hmapped

end

/-- The processor has kept no page of the window that shows a table of the area. -/
def Uncached (tlb : Tlb) (vmStart sizeAlloc : Nat) : Prop :=
  ∀ i, InSlots vmStart sizeAlloc i → tlb (830 * 1024 + i) = none

/-- Without such pages the cache makes no difference. -/
theorem Uncached.allocateVmArea_eq {tlb : Tlb} {pd : Nat} (h : Uncached tlb vmStart sizeAlloc)
    (hend : vmStart + sizeAlloc ≤ userEnd) :
    vm.allocateVmAreaVia tlb pd vmStart flags sizeAlloc =
      vm.allocateVmArea pd vmStart flags sizeAlloc := by
  rw [userEnd] at hend
  have hpage : ∀ (vm : Vm) (pfn : Nat), InSlots vmStart sizeAlloc (pfn / 1024) → pfn / 1024 < 1024 →
      vm.allocateAreaPageVia tlb flags pfn = vm.allocateAreaPageVia (fun _ => none) flags pfn := by
    intro vm pfn hslot hlt
    have haddr : entryAddr (pageTableMapStart + pfn / 2 ^ 10 % 1024 * pageSize) (pfn % 1024) /
        pageSize = 830 * 1024 + pfn / 1024 := by
      rw [entryAddr, windowPage, pageSize]
      omega
    rw [allocateAreaPageVia, allocateAreaPageVia, translateVia, translateVia, haddr, h _ hslot]
  have hslots : ∀ pfn ∈ List.range' (pfnStart vmStart)
      (pfnEnd (u32 (vmStart + sizeAlloc)) - pfnStart vmStart),
      InSlots vmStart sizeAlloc (pfn / 1024) ∧ pfn / 1024 < 1024 := by
    intro pfn hpfn
    rw [List.mem_range'_1, pfnStart, pfnEnd, u32_of_lt (by omega), alignUp_eq (by omega),
      pageSize] at hpfn
    exact ⟨inSlots_of_page (by rw [areaPages]; omega) (by rw [areaPages]; omega), by omega⟩
  have hfold := foldlM_congr fun vm pfn hpfn => hpage vm pfn (hslots pfn hpfn).1 (hslots pfn hpfn).2
  simp only [allocateVmArea, allocateVmAreaVia, hfold]

theorem ready_bareKernel : bareKernel.vm.Ready 1 4 2 :=
  ⟨inOrder_bareKernel.kernel.window rfl rfl, by decide, by decide, by decide, by decide, by decide⟩

/-- The processor has kept page two of the window, as the last table it was used for. -/
def keptPage : Tlb := fun p => if p = 830 * 1024 + 2 then some 6 else none

/-- The state of `bareKernel` with frame seven as a destroyed image has left it: a table
whose first entry names frame five, which is in the kernel heap by now. -/
def staleKernel : Vm := { bareKernel.vm with phys := bareKernel.vm.phys.setWord 7 0 0x5007 }

/-- `__allocate_vm_area` takes the window down at the address it was put up at exactly when the
area starts in the first slot. -/
theorem window_restored_iff (hready : vm.Ready d e w) (hend : vmStart + sizeAlloc ≤ userEnd)
    (hflags : present flags = true) (hlow : flags < pageSize)
    (hrun : vm.allocateVmArea (e * pageSize) vmStart flags sizeAlloc = some vm') :
    WindowRestored vm vm' w (areaSlots vmStart sizeAlloc).1 (areaSlots vmStart sizeAlloc).2 ↔
      vmStart < 2 ^ 22 ∨ 2 ^ 22 ∣ vmStart ∧ sizeAlloc = 0 := by
  obtain ⟨-, -, -, -, -, hrestored⟩ := hready.toWindow.allocateVmArea hready.directory_used
    hready.image_used hready.window_used hready.window_ne hready.maxFrames_le hflags hlow hend hrun
  rw [hrestored, areaSlots]
  omega

theorem window_restored_first_page : ∃ vm',
    bareKernel.vm.allocateVmArea 0x4000 0 7 0x1000 = some vm' ∧
    WindowRestored bareKernel.vm vm' 2 (areaSlots 0 0x1000).1 (areaSlots 0 0x1000).2 := by
  have hsome : (bareKernel.vm.allocateVmArea 0x4000 0 7 0x1000).isSome = true := by
    simp only [allocateVmArea, allocateVmAreaVia, mapRange_eq_foldlM, unmapRange_eq_foldlM]
    decide +kernel
  obtain ⟨vm', hrun⟩ := isSome_iff_exists.mp hsome
  exact ⟨vm', hrun, (window_restored_iff ready_bareKernel (by decide) rfl (by decide) hrun).mpr
    (.inl (by decide))⟩

/-- An area at 8 MiB leaves page two of the window mapped. -/
theorem window_page_stays : ∃ vm', bareKernel.vm.allocateVmArea 0x4000 0x800000 7 0x1000 =
    some vm' ∧
    present (bareKernel.vm.phys.word 2 2) = false ∧ present (vm'.phys.word 2 2) = true := by
  have hcompute : (bareKernel.vm.allocateVmArea 0x4000 0x800000 7 0x1000).map
      (fun vm' => present (vm'.phys.word 2 2)) = some true := by
    simp only [allocateVmArea, allocateVmAreaVia, mapRange_eq_foldlM, unmapRange_eq_foldlM]
    decide +kernel
  obtain ⟨vm', hrun, hpresent⟩ := map_eq_some_iff.mp hcompute
  exact ⟨vm', hrun, by decide +kernel, hpresent⟩

end Hos.Vm
