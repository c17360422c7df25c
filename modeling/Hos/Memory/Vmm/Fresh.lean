import Hos.Memory.Kheap.Malloc
import Hos.Memory.Vmm.Init

/-!
# Pages of the kernel heap

`__do_brk` asks `vmm_create_page` for the pages that the heap grows into, each of them
once. A page gets a frame that was free and is cleared when it is not present before.
After `vmm_init` no page of the heap is present exactly when the frames that were
handed out for the tables of the kernel half contain no entry, apart from entries of
pages that `vmm_init` maps itself.
-/

namespace Hos.Vm

open Option List Nat

section

variable {vm vm' : Vm} {d p q flags virtAddr physAddr size : Nat} {ret : Option Nat} {ps : List Nat}

variable (h : vm.Space d)
include h

/-- `vmm_create_page` of a page that is present sets its flags once more. -/
theorem Space.createPage_mapped (hp : p < 1023 * 1024) (hmapped : mapping vm.phys d p ≠ none) :
    ∃ ret, vm.createPage (p * pageSize) flags =
      some (vm.pageSetFlags (Bytes.wordAddr (frameNo (vm.phys.word d (p / 1024))) (p % 1024)) flags,
        ret) := by
  obtain ⟨raw, hraw⟩ := ne_none_iff_exists'.mp hmapped
  obtain ⟨htable, hset, hleaf⟩ := mapping_eq_some_iff.mp hraw
  have haddr : p * pageSize / pageSize * pageSize = p * pageSize := by
    rw [Nat.mul_div_cancel p (by decide)]
  have hindex := pdeIndex_page (show p < 2 ^ 20 by omega)
  have htranslate := h.translate_table (mod_lt p (by decide)) (hindex.symm ▸ htable)
  have hdir : vm.phys.load32 (Bytes.wordAddr d (p / 1024)) = vm.phys.word d (p / 1024) := rfl
  have hentry : vm.phys.load32 (Bytes.wordAddr (frameNo (vm.phys.word d (p / 1024))) (p % 1024)) =
      raw := hleaf
  have hsmall : ¬large (vm.phys.word d (p / 1024)) = true := by
    rw [h.small _ (by omega)]
    simp
  simp only [createPage, haddr, hindex, pteIndex_page, bind_eq_bind,
    h.translate_directory (show p / 1024 < 1024 by omega), bind_some, ensureTable, hdir, htable,
    if_true, if_neg hsmall, htranslate, ensurePage, hentry, hset]
  simp

/-- `vmm_create_page` makes one page present and keeps the others. -/
theorem Space.createPage_present (hp : p < 1023 * 1024) (hflags : present flags = true)
    (hlarge : large flags = false) (hrun : vm.createPage (p * pageSize) flags = some (vm', ret)) :
    vm'.Space d ∧ (∀ i < 1024, present (vm.phys.word d i) = true →
      present (vm'.phys.word d i) = true) ∧
      ∀ q < 1023 * 1024, mapping vm'.phys d q ≠ none ↔ q = p ∨ mapping vm.phys d q ≠ none := by
  by_cases hmapped : mapping vm.phys d p = none
  · obtain ⟨vm₁, f, hstep, hleaf, ht⟩ := h.createPage_steps hp hflags hlarge hmapped hrun
    obtain ⟨-, hdir, hsame⟩ := h.linked.tableStep (by omega) hstep
    obtain ⟨hspace', hdir', hother, raw, hraw, -⟩ :=
      (h.tableStep (by omega) hstep).takes_page hp hstep.present_after hleaf ht
    refine ⟨hspace', fun i hi hset => ?_, fun q hq => ?_⟩
    · rw [hdir' i hi, hdir i hi (.inl hset)]
      exact hset
    · by_cases hqp : q = p
      · rw [hqp, hraw]
        simp
      · rw [hother q hq hqp, hsame q hq, or_iff_right hqp]
  · obtain ⟨raw, hraw⟩ := ne_none_iff_exists'.mp hmapped
    obtain ⟨htable, hset, hleaf⟩ := mapping_eq_some_iff.mp hraw
    have hentry : present (raw ||| flags % pageSize) = true := by
      rw [present_or_flags, hset, Bool.true_or]
    have hword : vm.phys.word (frameNo (vm.phys.word d (p / 1024))) (p % 1024) = raw := hleaf
    obtain ⟨_, hsetFlags⟩ := h.createPage_mapped hp hmapped
    have hvm := (Prod.mk.inj (some.inj (hrun.symm.trans hsetFlags))).1
    rw [pageSetFlags_eq, hword] at hvm
    have hlt : raw ||| flags % pageSize < 2 ^ 32 := or_flags_lt (hword ▸ Bytes.word_lt)
    obtain ⟨hwords, hsame, hother⟩ := h.linked.setLeaf hp htable hlt (congrArg Vm.phys hvm)
    have hpresent : ∀ q < 1023 * 1024, mapping vm'.phys d q ≠ none ↔
        mapping vm.phys d q ≠ none := by
      intro q hq
      by_cases hqp : SameEntry vm.phys d q p
      · rw [hsame q hq hqp, if_pos hentry, hqp.mapping_eq, hraw]
        simp
      · rw [hother q hq hqp]
    have hlinked : vm'.Linked d :=
      h.linked.congr (by rw [hvm]) (by rw [hvm]) hwords (fun g hg => by rwa [hvm]) (by rw [hvm])
    refine ⟨h.of_mono hlinked (fun i hi => hwords i (by omega)) (fun q hq => (hpresent q hq).mpr),
      fun i hi hset => by rw [hwords i hi]; exact hset, fun q hq => ?_⟩
    rw [hpresent q hq]
    refine ⟨.inr, fun hcases => hcases.elim (fun hqp => ?_) id⟩
    rw [hqp]
    exact hmapped

/-- A loop of `vmm_create_page`. -/
def createAt (flags : Nat) (vm : Vm) (p : Nat) : Option Vm :=
    (vm.createPage (p * pageSize) flags).map (·.1)

theorem Space.createPages_present (hflags : present flags = true) (hlarge : large flags = false)
    (hps : ∀ p ∈ ps, p < 1023 * 1024) (hrun : ps.foldlM (createAt flags) vm = some vm') :
    vm'.Space d ∧ (∀ i < 1024, present (vm.phys.word d i) = true →
      present (vm'.phys.word d i) = true) ∧
      ∀ q < 1023 * 1024, mapping vm'.phys d q ≠ none ↔ q ∈ ps ∨ mapping vm.phys d q ≠ none := by
  induction ps generalizing vm with
  | nil =>
    cases hrun
    exact ⟨h, fun _ _ hset => hset, fun q _ => (or_iff_right not_mem_nil).symm⟩
  | cons p ps ih =>
    rw [foldlM_cons, bind_eq_bind, bind_eq_some_iff] at hrun
    obtain ⟨_, hmap, hrest⟩ := hrun
    obtain ⟨⟨vm₁, ret⟩, hcreate, rfl⟩ := map_eq_some_iff.mp hmap
    obtain ⟨hspace, hdir, hpresent⟩ := h.createPage_present (hps p mem_cons_self) hflags
      hlarge hcreate
    obtain ⟨hspace', hdir', hpresent'⟩ := ih hspace (fun q hq => hps q (mem_cons_of_mem p hq)) hrest
    refine ⟨hspace', fun i hi hset => hdir' i hi (hdir i hi hset), fun q hq => ?_⟩
    rw [hpresent' q hq, hpresent q hq, mem_cons]
    exact or_left_comm.trans or_assoc.symm

/-- `vmm_map_range` over tables that are there. -/
theorem Space.mapRange_present (hrange : virtAddr + size ≤ 0xFFC00000)
    (hflags : present flags = true)
    (htables : ∀ i, Meets virtAddr size i → present (vm.phys.word d i) = true)
    (hrun : vm.mapRange virtAddr physAddr size flags = some vm') :
    vm'.Space d ∧ (∀ i < 1024, vm'.phys.word d i = vm.phys.word d i) ∧
      ∀ q < 1023 * 1024, mapping vm'.phys d q ≠ none ↔
        Covered virtAddr size q ∨ mapping vm.phys d q ≠ none := by
  have hsmall : SmallSlots vm.phys d flags {i | Meets virtAddr size i} := by
    intro i hi
    refine ⟨h.small i (meets_lt hrange i hi), fun habsent => ?_⟩
    rw [htables i hi] at habsent
    cases habsent
  obtain ⟨hlinked, hdir, hsame, hpages⟩ := h.linked.mapRange hrange hflags hsmall hrun
  have hwords : ∀ i < 1024, vm'.phys.word d i = vm.phys.word d i := by
    intro i hi
    by_cases hmeets : Meets virtAddr size i
    · exact hdir i hi (.inl (htables i hmeets))
    · exact hdir i hi (.inr hmeets)
  have hpresent : ∀ q < 1023 * 1024, mapping vm'.phys d q ≠ none ↔
      Covered virtAddr size q ∨ mapping vm.phys d q ≠ none := by
    intro q hq
    obtain ⟨p, hp, hqp, raw, hraw, -⟩ | ⟨hnone, hkept⟩ := hpages q hq
    · refine iff_of_true (by rw [hraw]; exact some_ne_none raw) ?_
      -- a page with the entry of another page was present already
      by_cases hmapped : mapping vm.phys d p = none
      · rw [h.eq_of_sameEntry hq (covered_lt hrange hp) hmapped hqp]
        exact .inl hp
      · rw [hqp.mapping_eq]
        exact .inr hmapped
    · rw [hkept, or_iff_right fun hcovered => hnone q hcovered (SameEntry.refl _ _ _)]
  exact ⟨h.of_mono hlinked (fun i hi => hwords i (by omega)) fun q hq hmapped =>
    (hpresent q hq).mpr (.inr hmapped), hwords, hpresent⟩

/-- A loop of `vmm_create_page` over pages that are present takes no frame. -/
theorem Space.createPages_isSome (hflags : present flags = true) (hlarge : large flags = false)
    (hps : ∀ p ∈ ps, p < 1023 * 1024 ∧ mapping vm.phys d p ≠ none) :
    ∃ vm', ps.foldlM (createAt flags) vm = some vm' ∧ vm'.pmm = vm.pmm := by
  induction ps generalizing vm with
  | nil => exact ⟨vm, rfl, rfl⟩
  | cons p ps ih =>
    obtain ⟨hp, hmapped⟩ := hps p mem_cons_self
    obtain ⟨ret, hcreate⟩ := h.createPage_mapped hp hmapped
    obtain ⟨hspace, -, hpresent⟩ := h.createPage_present hp hflags hlarge hcreate
    obtain ⟨vm', hrest, hpmm⟩ := ih hspace fun q hq => by
      obtain ⟨hlt, hq⟩ := hps q (mem_cons_of_mem p hq)
      exact ⟨hlt, (hpresent q hlt).mpr (.inr hq)⟩
    refine ⟨vm', ?_, hpmm⟩
    rw [foldlM_cons, createAt, hcreate]
    exact hrest

end

/-- The pages that `vmm_init` makes for the bitmap. -/
def BitmapPage (kernelEnd q : Nat) : Prop :=
  Pmm.pageAlign kernelEnd / pageSize ≤ q ∧ q < Pmm.pageAlign kernelEnd / pageSize + 32

/-- The pages of the video memory. -/
def VideoPage (boot : Pmm.BootInfo) (q : Nat) : Prop :=
    Covered Pmm.framebufferStart boot.videoMapSize q

/-- The only pages of the kernel half are those of the boot code, of the bitmap and of
the video memory. -/
def OnlyBootPages (vm : Vm) (d kernelEnd : Nat) (boot : Pmm.BootInfo) : Prop :=
  ∀ q, 768 * 1024 ≤ q → q < 1023 * 1024 → mapping vm.phys d q ≠ none →
    q < firstNewSlot * 1024 ∨ BitmapPage kernelEnd q ∨ VideoPage boot q

/-- The frames that are handed out for the tables of the kernel half have no entries,
apart from those of pages that are mapped anyway. -/
def CleanFrames (vm : Vm) (kernelEnd : Nat) (boot : Pmm.BootInfo) : Prop :=
  ∀ q, firstNewSlot * 1024 ≤ q → q < 1023 * 1024 →
    ∀ f, (vm.pmm.nextFrames (1023 - firstNewSlot))[q / 1024 - firstNewSlot]? = some f →
      present (vm.phys.word f (q % 1024)) = true → BitmapPage kernelEnd q ∨ VideoPage boot q

section

variable {vm vm₁ vm' : Vm} {d kernelEnd : Nat} {boot : Pmm.BootInfo}

theorem Recursive.switchDirectory_self (h : vm.Recursive d) :
    vm.switchDirectory (d * pageSize) (d * pageSize) = vm := by
  have hframe : entryFrame (vm.phys.load32 (entryAddr (d * pageSize) 1023)) = vm.cr3 := by
    rw [h.cr3, entryFrame_eq]
    exact congrArg (· * pageSize) h.self_frame
  simp only [switchDirectory, ite_self, hframe]
  rw [← h.curPdir]

theorem init_eq_some (hrun : vm.init (d * pageSize) kernelEnd boot = some vm') :
    ∃ vm₁ vm₂ vm₃, ({ vm with curPdir := d * pageSize } : Vm).allocateTables
      (d * pageSize) firstNewSlot (1023 - firstNewSlot) = some vm₁ ∧
      (vm₁.withTables d).createBitmapPages kernelEnd = some vm₂ ∧ vm₂.mapVideo boot = some vm₃ ∧
      vm' = vm₃.switchDirectory (d * pageSize) (d * pageSize) := by
  rw [init, bind_eq_bind, bind_eq_some_iff] at hrun
  obtain ⟨vm₁, htables, hrun⟩ := hrun
  obtain ⟨vm₂, hpages, hrun⟩ := bind_eq_some_iff.mp hrun
  obtain ⟨vm₃, hvideo, hrun⟩ := bind_eq_some_iff.mp hrun
  exact ⟨vm₁, vm₂, vm₃, htables, hpages, hvideo, (some.inj hrun).symm⟩

theorem createBitmapPages_eq (hkernel : kernelEnd + 0x21000 ≤ 0xD0000000) :
    vm.createBitmapPages kernelEnd =
      (range' (Pmm.pageAlign kernelEnd / pageSize) 32).foldlM (createAt kernelAccess) vm := by
  have halign : Pmm.pageAlign kernelEnd = (kernelEnd + 4095) / 4096 * 4096 := by
    rw [Pmm.pageAlign, u32_of_lt (by omega)]
  have hpage : ∀ i < 32, u32 (Pmm.pageAlign kernelEnd + i * pageSize) =
      (Pmm.pageAlign kernelEnd / pageSize + i) * pageSize := by
    intro i hi
    rw [halign, pageSize, u32_of_lt (by omega)]
    omega
  have hfold : ∀ n ≤ 32, ∀ vm : Vm, (range n).foldlM (fun (vm : Vm) i =>
      (vm.createPage (u32 (Pmm.pageAlign kernelEnd + i * pageSize)) kernelAccess).map (·.1)) vm =
      (range' (Pmm.pageAlign kernelEnd / pageSize) n).foldlM (createAt kernelAccess) vm := by
    intro n hn vm
    induction n with
    | zero => rw [range_zero, range'_zero, foldlM_nil, foldlM_nil]
    | succ n ih =>
      rw [range_succ, range'_concat, foldlM_append, foldlM_append, ih (by omega)]
      simp only [foldlM_cons, foldlM_nil, hpage n (by omega), one_mul]
      rfl
  exact hfold 32 (le_refl 32) vm

theorem present_kernelAccess : present kernelAccess = true := rfl

theorem large_kernelAccess : large kernelAccess = false := rfl

/-- The video memory is in slots that have new tables. -/
theorem Entered.videoSlot {fs : List Nat} (h : Entered vm vm' d fs)
    (hvideo : Pmm.framebufferStart + boot.videoMapSize ≤ 0xFFC00000) {i : Nat}
    (hi : Meets Pmm.framebufferStart boot.videoMapSize i) : i < 1024 ∧
      present (vm'.phys.word d i) = true := by
  obtain ⟨p, hp, rfl⟩ := hi
  have hlt := covered_lt hvideo hp
  have hle := hp.1
  rw [Pmm.framebufferStart, pageSize] at hle
  obtain ⟨f, -, -, hset, -⟩ := h.new_frame
    (show firstNewSlot ≤ p / 1024 by rw [firstNewSlot]; omega) (by omega)
  exact ⟨by omega, hset⟩

section

variable {vm₂ : Vm} (h : vm.Booted d) (hkernel : kernelEnd + 0x21000 ≤ 0xD0000000)
  (htables : ({ vm with curPdir := d * pageSize } : Vm).allocateTables (d * pageSize) firstNewSlot
    (1023 - firstNewSlot) = some vm₁)
  (hpages : (vm₁.withTables d).createBitmapPages kernelEnd = some vm₂)
include h hkernel htables hpages

/-- The tables and the pages of the bitmap are there when the video memory is mapped. -/
theorem Booted.bitmapPages : vm₂.Space d ∧
    (∀ i < 1024, present ((vm₁.withTables d).phys.word d i) = true →
      present (vm₂.phys.word d i) = true) ∧
    ∀ q < 1023 * 1024, mapping vm₂.phys d q ≠ none ↔
      q ∈ range' (Pmm.pageAlign kernelEnd / pageSize) 32 ∨
        mapping (vm₁.withTables d).phys d q ≠ none := by
  rw [createBitmapPages_eq hkernel] at hpages
  refine ((h.entered htables).space h).createPages_present present_kernelAccess large_kernelAccess
    (fun p hp => ?_) hpages
  have hlt := (mem_range'_1.mp hp).2
  rw [Pmm.pageAlign, u32_of_lt (by omega), pageSize] at hlt
  omega

theorem Booted.videoSlots (hvideo : Pmm.framebufferStart + boot.videoMapSize ≤ 0xFFC00000) :
    ∀ i, Meets Pmm.framebufferStart boot.videoMapSize i → present (vm₂.phys.word d i) = true := by
  intro i hi
  obtain ⟨hlt, hset⟩ := (h.entered htables).videoSlot hvideo hi
  exact (h.bitmapPages hkernel htables hpages).2.1 i hlt hset

end

variable (h : vm.Booted d) (hkernel : kernelEnd + 0x21000 ≤ 0xD0000000)
  (hvideo : Pmm.framebufferStart + boot.videoMapSize ≤ 0xFFC00000)
  (hrun : vm.init (d * pageSize) kernelEnd boot = some vm')
include h hkernel hvideo hrun

/-- What `vmm_init` leaves: an address space in order, whose kernel half has the pages
of the boot code, of the bitmap, of the video memory, and of the words that were found
in the new tables. -/
theorem Booted.init :
    vm'.Space d ∧ ∀ q, 768 * 1024 ≤ q → q < 1023 * 1024 →
      (mapping vm'.phys d q ≠ none ↔ VideoPage boot q ∨ BitmapPage kernelEnd q ∨
        q < firstNewSlot * 1024 ∨
        ∃ f, (vm.pmm.nextFrames (1023 - firstNewSlot))[q / 1024 - firstNewSlot]? = some f ∧
          present (vm.phys.word f (q % 1024)) = true) := by
  obtain ⟨vm₁, vm₂, vm₃, htables, hpages, hmap, rfl⟩ := init_eq_some hrun
  obtain ⟨hspace₂, -, hpresent₂⟩ := h.bitmapPages hkernel htables hpages
  obtain ⟨hspace₃, -, hpresent₃⟩ := hspace₂.mapRange_present hvideo (by decide)
    (h.videoSlots hkernel htables hpages hvideo) hmap
  rw [hspace₃.switchDirectory_self]
  refine ⟨hspace₃, fun q hlo hhi => ?_⟩
  rw [hpresent₃ q hhi, hpresent₂ q hhi, (h.entered htables).present_iff h hlo hhi, mem_range'_1]
  rfl

/-- The pages of the kernel half are the intended ones exactly when the new tables are
clean. -/
theorem Booted.onlyBootPages_iff : OnlyBootPages vm' d kernelEnd boot ↔
    CleanFrames vm kernelEnd boot := by
  obtain ⟨-, hpresent⟩ := h.init hkernel hvideo hrun
  constructor
  · intro honly q hlo hhi f hf hset
    have hkernelHalf : 768 * 1024 ≤ q := by
      rw [firstNewSlot] at hlo
      omega
    have hmapped := (hpresent q hkernelHalf hhi).mpr (.inr (.inr (.inr ⟨f, hf, hset⟩)))
    exact (honly q hkernelHalf hhi hmapped).resolve_left (not_lt.mpr hlo)
  · intro hclean q hlo hhi hmapped
    obtain hpage | hpage | hpage | ⟨f, hf, hset⟩ := (hpresent q hlo hhi).mp hmapped
    · exact .inr (.inr hpage)
    · exact .inr (.inl hpage)
    · exact .inl hpage
    · by_cases hq : q < firstNewSlot * 1024
      · exact .inl hq
      · exact .inr (hclean q (not_lt.mp hq) hhi f hf hset)

end

/-! ## Heap extensions -/

/-- `KERNEL_HEAP_START`. -/
def kernelHeapStart : Nat := 0xD0000000

/-- `KERNEL_HEAP_END`. -/
def kernelHeapEnd : Nat := 0xF0000000

/-- The pages that `__do_brk` asks for when the top of the heap is raised by `size`. -/
def brkPages (heapTop size : Nat) : List Nat :=
  List.range' (alignUp heapTop / pageSize)
    (alignUp (u32 (heapTop + size)) / pageSize - alignUp heapTop / pageSize)

/-- The pages of one extension after the other. -/
def extensionPages : Nat → List Nat → List Nat
  | _, [] => []
  | heapTop, size :: sizes => brkPages heapTop size ++ extensionPages (u32 (heapTop + size)) sizes

/-- All pages of the heap so far: the page of the three list heads, which `kheap_init`
asks for, and those of the extensions. -/
def heapPages (sizes : List Nat) : List Nat :=
  kernelHeapStart / pageSize :: extensionPages (kernelHeapStart + 12) sizes

/-- `vmm_create_page` as the heap sees it: a page that was not there is cleared. -/
def heapProvider : Kheap.PageProvider Vm where
  createPage vm virtAddr flags := (vm.createPage virtAddr flags).map fun r =>
    ((vm.translate (virtAddr / pageSize * pageSize)).isNone, r.1)

/-- An extension of the heap. -/
def extend (s : Kheap.Heap × Vm) (size : Nat) : Option (Kheap.Heap × Vm) :=
  (Kheap.ksbrk heapProvider s.1 s.2 size).map (·.2)

section

variable {vm vm' : Vm} {heap heap' : Kheap.Heap} {a n size : Nat}

theorem vmmCreatePage_heap {virtAddr : Nat} (haddr : virtAddr = a * pageSize)
    (hrun : Kheap.vmmCreatePage heapProvider heap vm virtAddr = some (heap', vm')) :
    createAt heap.vmFlags vm a = some vm' ∧ ∃ m, heap' = { heap with mem := m } := by
  subst haddr
  simp only [Kheap.vmmCreatePage, heapProvider, bind_eq_bind, bind_eq_some_iff, map_eq_some_iff] at hrun
  obtain ⟨_, ⟨r, hcreate, rfl⟩, hret⟩ := hrun
  cases hret
  exact ⟨map_eq_some_iff.mpr ⟨r, hcreate, rfl⟩, _, rfl⟩

theorem createPages_heap (hroom : (a + n) * pageSize < 2 ^ 32)
    (hrun : Kheap.createPages heapProvider heap vm (a * pageSize) n = some (heap', vm')) :
    (range' a n).foldlM (createAt heap.vmFlags) vm = some vm' ∧
      ∃ m, heap' = { heap with mem := m } := by
  induction n generalizing a heap vm with
  | zero =>
    cases hrun
    exact ⟨rfl, _, rfl⟩
  | succ n ih =>
    obtain ⟨⟨heap₁, vm₁⟩, hpage, hrest⟩ := bind_eq_some_iff.mp hrun
    obtain ⟨hcreate, m, rfl⟩ := vmmCreatePage_heap rfl hpage
    have hnext : u32 (a * pageSize + Kheap.pageSize) = (a + 1) * pageSize := by
      rw [pageSize] at hroom ⊢
      rw [Kheap.pageSize, u32_of_lt (by omega)]
      omega
    rw [hnext] at hrest
    obtain ⟨hpages, m', rfl⟩ := ih (a := a + 1)
      (by rwa [add_right_comm]) hrest
    refine ⟨?_, m', rfl⟩
    rw [range'_succ, foldlM_cons, hcreate]
    exact hpages

/-- `ksbrk` asks for the pages between the old and the new top. -/
theorem ksbrk_heap {ret : Nat} (hfit : heap.kernelHeapTop + size ≤ heap.vmEnd)
    (hend : heap.vmEnd ≤ kernelHeapEnd)
    (hrun : Kheap.ksbrk heapProvider heap vm size = some (ret, heap', vm')) :
    (brkPages heap.kernelHeapTop size).foldlM (createAt heap.vmFlags) vm = some vm' ∧
      ∃ m, heap' = { heap with mem := m, kernelHeapTop := heap.kernelHeapTop + size } := by
  have htop : kernelHeapEnd = 0xF0000000 := rfl
  have hnew : u32 (heap.kernelHeapTop + size) = heap.kernelHeapTop + size := u32_of_lt (by omega)
  rw [Kheap.ksbrk, Kheap.doBrk] at hrun
  by_cases hpos : 0 < size
  · rw [if_pos (by omega)] at hrun
    have hcount : ∀ x y, (y * pageSize - x * pageSize) / Kheap.pageSize = y - x := fun x y => by
      rw [← Nat.sub_mul]
      exact Nat.mul_div_cancel _ (by decide)
    have hup : ∀ x ≤ 0xF0000000, Kheap.pageAlignUp x = (x + 4095) / pageSize * pageSize :=
      fun x hx => Kheap.pageAlignUp_eq.trans (alignUp_eq (by omega))
    have hdiv : ∀ x, x * pageSize / pageSize = x := fun x => Nat.mul_div_cancel x (by decide)
    simp only [Int.toNat_natCast, hnew, hfit, if_true, hup _ (show heap.kernelHeapTop ≤ _ by omega),
      hup _ (show heap.kernelHeapTop + size ≤ _ by omega), hcount] at hrun
    obtain ⟨⟨heap₁, vm₁⟩, hpages, hret⟩ := bind_eq_some_iff.mp hrun
    obtain ⟨hcreated, m, rfl⟩ := createPages_heap (by rw [pageSize]; omega) hpages
    cases hret
    refine ⟨?_, m, rfl⟩
    rw [brkPages, hnew, alignUp_eq (by omega), alignUp_eq (by omega), hdiv, hdiv]
    exact hcreated
  · obtain rfl : size = 0 := by omega
    rw [if_neg (by decide)] at hrun
    cases hrun
    refine ⟨?_, _, rfl⟩
    rw [brkPages, hnew, Nat.add_zero, Nat.sub_self]
    rfl

/-- Extensions ask for the pages of `extensionPages`. -/
theorem extensions_heap {sizes : List Nat} (hsum : heap.kernelHeapTop + sizes.sum ≤ heap.vmEnd)
    (hend : heap.vmEnd ≤ kernelHeapEnd) (hrun : sizes.foldlM extend (heap, vm) = some (heap', vm')) :
    (extensionPages heap.kernelHeapTop sizes).foldlM (createAt heap.vmFlags) vm = some vm' := by
  induction sizes generalizing heap vm with
  | nil =>
    cases hrun
    rfl
  | cons size sizes ih =>
    rw [sum_cons] at hsum
    obtain ⟨⟨heap₁, vm₁⟩, hstep, hrest⟩ := bind_eq_some_iff.mp hrun
    obtain ⟨r, hbrk, hr⟩ := map_eq_some_iff.mp hstep
    obtain ⟨ret, rfl⟩ : ∃ ret, r = (ret, heap₁, vm₁) := ⟨r.1, Prod.ext rfl hr⟩
    obtain ⟨hpages, m, rfl⟩ := ksbrk_heap (by omega) hend hbrk
    have hnew : u32 (heap.kernelHeapTop + size) = heap.kernelHeapTop + size :=
      u32_of_lt (by have : kernelHeapEnd = 0xF0000000 := rfl; omega)
    rw [extensionPages, foldlM_append, hpages, hnew]
    refine ih ?_ ?_ hrest
    · dsimp only
      omega
    · exact hend

/-- `kheap_init` and the extensions after it ask for the pages of `heapPages`. -/
theorem heapPages_run {mem : Bytes} {vm₁ : Vm} {sizes : List Nat}
    (hsum : kernelHeapStart + 12 + sizes.sum ≤ kernelHeapEnd)
    (hinit : Kheap.kheapInit heapProvider mem vm Kheap.kernelBootInfo = some (heap, vm₁))
    (hrun : sizes.foldlM extend (heap, vm₁) = some (heap', vm')) :
    (heapPages sizes).foldlM (createAt kernelAccess) vm = some vm' := by
  obtain ⟨⟨heap₁, vm₂⟩, hpage, hret⟩ := bind_eq_some_iff.mp hinit
  obtain ⟨hcreate, m, rfl⟩ := vmmCreatePage_heap
    (show Kheap.kernelBootInfo.heapStart = kernelHeapStart / pageSize * pageSize by decide) hpage
  cases hret
  have htop : u32 (Kheap.kernelBootInfo.heapStart + 3 * 4) = kernelHeapStart + 12 := by decide
  have hpages := extensions_heap (by dsimp only; rw [htop]; exact hsum) (le_refl _) hrun
  dsimp only at hpages
  rw [htop] at hpages
  rw [heapPages, foldlM_cons]
  exact (congrArg (Option.bind · _) hcreate).trans hpages

end

/-- Over any run of heap extensions, every page that is asked for gets a frame that was
free before and is all zero then. -/
def HeapFresh (vm : Vm) (d : Nat) : Prop :=
  ∀ sizes : List Nat, kernelHeapStart + 12 + sizes.sum ≤ kernelHeapEnd →
    ∀ ps p rest, heapPages sizes = ps ++ p :: rest →
      ∀ vm₁ vm₂ ret, ps.foldlM (createAt kernelAccess) vm = some vm₁ →
        vm₁.createPage (p * pageSize) kernelAccess = some (vm₂, ret) →
          ∃ raw, mapping vm₂.phys d p = some raw ∧ vm₁.pmm.bit (frameNo raw) = false ∧
            ∀ k < 1024, vm₂.phys.word (frameNo raw) k = 0

section

variable {vm vm₁ vm' : Vm} {d kernelEnd heapTop : Nat} {boot : Pmm.BootInfo} {sizes : List Nat}

theorem range'_append_of_le {a b c : Nat} (hab : a ≤ b) (hbc : b ≤ c) :
    range' a (b - a) ++ range' b (c - b) = range' a (c - a) := by
  obtain ⟨m, rfl⟩ := Nat.exists_eq_add_of_le hab
  obtain ⟨n, rfl⟩ := Nat.exists_eq_add_of_le hbc
  rw [Nat.add_sub_cancel_left, Nat.add_sub_cancel_left, Nat.add_assoc, Nat.add_sub_cancel_left,
    range'_append_1]

/-- Extensions ask for consecutive pages. -/
theorem extensionPages_eq (hsum : heapTop + sizes.sum ≤ kernelHeapEnd) :
    extensionPages heapTop sizes = range' ((heapTop + 4095) / pageSize)
      ((heapTop + sizes.sum + 4095) / pageSize - (heapTop + 4095) / pageSize) := by
  induction sizes generalizing heapTop with
  | nil => simp [extensionPages]
  | cons size sizes ih =>
    rw [sum_cons, ← add_assoc] at hsum ⊢
    have hle : heapTop + size + sizes.sum ≤ 0xF0000000 := hsum
    have hdiv : ∀ a, a * pageSize / pageSize = a := fun a => Nat.mul_div_cancel a (by decide)
    rw [extensionPages, brkPages, u32_of_lt (by omega), ih hsum, alignUp_eq (by omega),
      alignUp_eq (by omega), hdiv, hdiv]
    exact range'_append_of_le (Nat.div_le_div_right (by omega)) (Nat.div_le_div_right (by omega))

theorem heapPages_eq (hsum : kernelHeapStart + 12 + sizes.sum ≤ kernelHeapEnd) :
    ∃ n, 0xD0000 + n ≤ 0xF0000 ∧ heapPages sizes = range' 0xD0000 n := by
  have hle : 0xD000000C + sizes.sum ≤ 0xF0000000 := hsum
  refine ⟨(0xD000000C + sizes.sum + 4095) / pageSize - 0xD0001 + 1, ?_, ?_⟩
  · rw [pageSize]
    omega
  · rw [heapPages, extensionPages_eq hsum, range'_succ]
    rfl

/-- A page of the heap that is not present gets a free frame, which is cleared. -/
theorem Space.createPage_fresh {vm₂ : Vm} {p : Nat} {ret : Option Nat} (h : vm.Space d)
    (hp : p < 1023 * 1024) (hunmapped : mapping vm.phys d p = none)
    (hrun : vm.createPage (p * pageSize) kernelAccess = some (vm₂, ret)) :
    ∃ raw, mapping vm₂.phys d p = some raw ∧ vm.pmm.bit (frameNo raw) = false ∧
      ∀ k < 1024, vm₂.phys.word (frameNo raw) k = 0 := by
  obtain ⟨vm₁, f, hstep, hleaf, ht⟩ := h.createPage_steps hp (by decide) (by decide) hunmapped hrun
  obtain ⟨-, -, -, raw, hraw, hframe⟩ :=
    (h.tableStep (by omega) hstep).takes_page hp hstep.present_after hleaf ht
  refine ⟨raw, hraw, ?_, ?_⟩
  · rw [hframe]
    have hclear := (Pmm.allocateFrame_eq_some ht.alloc).2.2.1
    obtain ⟨-, rfl⟩ | ⟨-, g, htable⟩ := hstep
    · exact hclear
    · refine Bool.eq_false_iff.mpr fun hset => ?_
      rw [htable.bit_of_bit hset] at hclear
      cases hclear
  · rw [hframe]
    exact ht.installed.cleared

/-- As long as no page of the heap is present, all of them get fresh frames. -/
theorem Space.heapFresh (h : vm.Space d)
    (hunmapped : ∀ q, 0xD0000 ≤ q → q < 0xF0000 → mapping vm.phys d q = none) : vm.HeapFresh d := by
  intro sizes hsum ps p rest hsplit vm₁ vm₂ ret hbefore hcreate
  obtain ⟨n, hn, hpages⟩ := heapPages_eq hsum
  rw [hsplit] at hpages
  have hmem : ∀ q ∈ ps ++ p :: rest, 0xD0000 ≤ q ∧ q < 0xF0000 := by
    intro q hq
    rw [hpages, mem_range'_1] at hq
    omega
  have hnodup : (ps ++ p :: rest).Nodup := hpages ▸ nodup_range'
  obtain ⟨hlo, hhi⟩ := hmem p (mem_append_right _ mem_cons_self)
  have hnew : p ∉ ps := fun hp => (nodup_append.mp hnodup).2.2 p hp p mem_cons_self rfl
  obtain ⟨hspace, -, hpresent⟩ := h.createPages_present (by decide) (by decide)
    (fun q hq => by have := hmem q (mem_append_left _ hq); omega) hbefore
  refine hspace.createPage_fresh (by omega) ?_ hcreate
  by_contra hmapped
  obtain hp | hbefore := (hpresent p (by omega)).mp hmapped
  · exact hnew hp
  · exact hbefore (hunmapped p hlo hhi)

/-- After `vmm_init` the kernel half has no other pages than the intended ones, and the
heap gets fresh pages only, exactly when the frames of the new tables are clean. -/
theorem kernel_half_clean_iff (h : vm.Booted d) (hkernel : kernelEnd + 0x21000 ≤ 0xD0000000)
    (hvideo : Pmm.framebufferStart + boot.videoMapSize ≤ 0xFFC00000)
    (hrun : vm.init (d * pageSize) kernelEnd boot = some vm') :
    OnlyBootPages vm' d kernelEnd boot ∧ vm'.HeapFresh d ↔ CleanFrames vm kernelEnd boot := by
  rw [← h.onlyBootPages_iff hkernel hvideo hrun]
  refine and_iff_left_of_imp fun honly => ?_
  obtain ⟨hspace, -⟩ := h.init hkernel hvideo hrun
  refine hspace.heapFresh fun q hlo hhi => ?_
  by_contra hmapped
  obtain hpage | ⟨-, hpage⟩ | ⟨hpage, -⟩ := honly q (by omega) (by omega) hmapped
  · rw [firstNewSlot] at hpage
    omega
  · rw [Pmm.pageAlign, u32_of_lt (by omega), pageSize] at hpage
    omega
  · rw [Pmm.framebufferStart, pageSize] at hpage
    omega

end

variable {vm vm' : Vm} {d m n s page flags kernelEnd : Nat} {A : Set Nat} {boot : Pmm.BootInfo}

theorem pageAllocate_isSome (page : Nat) (h : vm.pmm.Supplies (m + 1) A)
    (hmax : vm.pmm.maxFrames ≤ 2 ^ 20) :
    ∃ vm', vm.pageAllocate page flags = some vm' ∧ vm'.pmm.Supplies m A ∧
      vm'.pmm.maxFrames = vm.pmm.maxFrames := by
  by_cases hpresent : present (vm.phys.load32 page) = true
  · exact ⟨vm.pageSetFlags page flags, if_pos hpresent, h.mono (le_succ m), rfl⟩
  · obtain ⟨f, pmm, halloc, hrest⟩ := h.allocateFrame hmax
    obtain ⟨-, -, -, rfl⟩ := Pmm.allocateFrame_eq_some halloc
    rw [pageAllocate, if_neg hpresent, halloc]
    exact ⟨_, rfl, hrest, rfl⟩

theorem allocateTables_isSome (h : vm.pmm.Supplies (m + n) A) (hmax : vm.pmm.maxFrames ≤ 2 ^ 20) :
    ∃ vm', vm.allocateTables (d * pageSize) s n = some vm' ∧ vm'.pmm.Supplies m A := by
  induction n generalizing vm s with
  | zero => exact ⟨vm, rfl, h⟩
  | succ n ih =>
    obtain ⟨vm₁, hfirst, hsupply, hmax₁⟩ := pageAllocate_isSome (entryAddr (d * pageSize) s) h hmax
    obtain ⟨vm', hrest, hsupply'⟩ := ih hsupply (hmax₁ ▸ hmax)
    refine ⟨vm', ?_, hsupply'⟩
    rw [allocateTables, range'_succ, foldlM_cons, pdeAllocate, hfirst]
    exact hrest

/-- `vmm_init` returns when there are frames for the tables and the bitmap is in the
memory that the boot code maps. -/
theorem Booted.init_isSome (h : vm.Booted d)
    (hsupply : vm.pmm.Supplies (1023 - firstNewSlot)
      {g | ∃ p, Covered Pmm.framebufferStart boot.videoMapSize p ∧
      target Pmm.framebufferStart boot.videoPhyStart.toNat p = g})
    (hstart : 0xC0000000 ≤ kernelEnd) (hend : kernelEnd + 0x21000 ≤ 0xC0800000)
    (hvideo : Pmm.framebufferStart + boot.videoMapSize ≤ 0xFFC00000) :
    ∃ vm', vm.init (d * pageSize) kernelEnd boot = some vm' := by
  rw [← zero_add (1023 - firstNewSlot)] at hsupply
  obtain ⟨vm₁, htables, hsupply₁⟩ := @allocateTables_isSome { vm with curPdir := d * pageSize } d 0
    (1023 - firstNewSlot) firstNewSlot _ hsupply h.maxFrames
  have hentered := h.entered htables
  have hspace := hentered.space h
  have hbitmap : ∀ p ∈ range' (Pmm.pageAlign kernelEnd / pageSize) 32,
      p < 1023 * 1024 ∧ mapping (vm₁.withTables d).phys d p ≠ none := by
    intro p hp
    rw [mem_range'_1, Pmm.pageAlign, u32_of_lt (by omega), pageSize] at hp
    refine ⟨by omega, (hentered.present_iff h (by omega) (by omega)).mpr (.inl ?_)⟩
    rw [firstNewSlot]
    omega
  obtain ⟨vm₂, hpages, hpmm⟩ := hspace.createPages_isSome present_kernelAccess
    large_kernelAccess hbitmap
  have hbitmapPages : (vm₁.withTables d).createBitmapPages kernelEnd = some vm₂ :=
    (createBitmapPages_eq (by omega)).trans hpages
  obtain ⟨hspace₂, -⟩ := h.bitmapPages (by omega) htables hbitmapPages
  -- no table is missing for the video memory
  have hslots := h.videoSlots (by omega) htables hbitmapPages hvideo
  have hmissing : missing vm₂.phys d {i | Meets Pmm.framebufferStart boot.videoMapSize i} = ∅ := by
    refine Set.eq_empty_of_forall_notMem fun i hi => ?_
    exact absurd ((hslots i hi.1).symm.trans hi.2) (by decide)
  have hsmall : SmallSlots vm₂.phys d userAccess
      {i | Meets Pmm.framebufferStart boot.videoMapSize i} :=
    fun i hi => ⟨hspace₂.small i (meets_lt hvideo i hi), fun _ => rfl⟩
  have hsupply₂ : vm₂.pmm.Supplies (missing vm₂.phys d
      {i | Meets Pmm.framebufferStart boot.videoMapSize i}).ncard {g | ∃ p,
        Covered Pmm.framebufferStart boot.videoMapSize p ∧
          target Pmm.framebufferStart boot.videoPhyStart.toNat p = g} := by
    rw [hmissing, Set.ncard_empty, hpmm]
    exact hsupply₁
  obtain ⟨vm₃, hmap⟩ := hspace₂.linked.mapRange_isSome hvideo (show present userAccess = true
    from rfl) hsmall hsupply₂
  have hvideoPages : vm₂.mapVideo boot = some vm₃ := hmap
  refine ⟨vm₃.switchDirectory (d * pageSize) (d * pageSize), ?_⟩
  rw [Vm.init, htables, bind_eq_bind, bind_some]
  refine (congrArg (Option.bind · _) hbitmapPages).trans ?_
  rw [bind_some, hvideoPages]
  rfl

/-- The words of a memory with the directory and the two tables of the boot code, and
with `rest` everywhere else. -/
def bootWords (rest g j : Nat) : Nat :=
  if g = 0x110 then
    if j = 0 ∨ j = 768 then 0x111003 else if j = 1 ∨ j = 769 then 0x112003 else 0
  else if g = 0x111 then j * 4096 + 3
  else if g = 0x112 then (1024 + j) * 4096 + 3
  else rest

/-- A machine of 128 MiB as the boot code leaves it. The first four megabytes are in use,
with the directory and the tables in the image of the kernel. -/
def bootedMachine (rest : Nat) : Vm where
  phys := Bytes.ofWords (bootWords rest)
  pmm := ⟨fun i => if i < 32 then BitVec.allOnes 32 else 0#32, 0x7FE0, 0x400, 0⟩
  cr3 := 0x110000
  curPdir := 0

variable {rest g i j k : Nat}

theorem bit_bootedMachine : (bootedMachine rest).pmm.bit g = decide (g < 0x400) := by
  simp only [Pmm.bit, wordBit, bootedMachine]
  by_cases hg : g < 0x400
  · rw [if_pos (by omega), BitVec.getLsbD_allOnes, decide_eq_true (mod_lt g (by decide)),
      decide_eq_true hg]
  · rw [if_neg (by omega), BitVec.getLsbD_zero, decide_eq_false hg]

theorem word_bootedMachine (hj : j < 1024) :
    (bootedMachine rest).phys.word g j = bootWords rest g j % 2 ^ 32 := Bytes.word_ofWords hj

theorem bootWords_free (hg : 0x400 ≤ g) : bootWords rest g j = rest := by
  rw [bootWords, if_neg (by omega), if_neg (by omega), if_neg (by omega)]

theorem word_bootSlot (hi : BootSlot i) : (bootedMachine rest).phys.word 0x110 i = 0x111003 ∨
    (bootedMachine rest).phys.word 0x110 i = 0x112003 := by
  have hlt := hi.lt
  rw [firstNewSlot] at hlt
  rw [word_bootedMachine (by omega)]
  obtain rfl | rfl | rfl | rfl := hi
  · exact .inl rfl
  · exact .inr rfl
  · exact .inl rfl
  · exact .inr rfl

theorem present_bootTable (hk : k < 1024) (hg : g = 0x111 ∨ g = 0x112) :
    present ((bootedMachine rest).phys.word g k) = true := by
  have hodd : bootWords rest g k % 2 ^ 32 % 2 = 1 := by
    obtain rfl | rfl := hg
    · rw [show bootWords rest 0x111 k = k * 4096 + 3 from rfl]
      omega
    · rw [show bootWords rest 0x112 k = (1024 + k) * 4096 + 3 from rfl]
      omega
  rw [word_bootedMachine hk, present, testBit_zero, hodd]
  rfl

theorem booted_bootedMachine (rest : Nat) : (bootedMachine rest).Booted 0x110 := by
  refine ⟨rfl, by decide, ?_, by rw [bit_bootedMachine]; rfl, fun i hi => ?_, fun i hi => ?_,
    fun i hi => ?_, fun i hi => ?_, fun i hi k hk => ?_, fun i hi hboot => ?_⟩
  · exact show 0x7FE0 ≤ 2 ^ 20 by decide
  · obtain hword | hword := word_bootSlot hi <;> rw [hword] <;> rfl
  · obtain hword | hword := word_bootSlot hi <;> rw [hword] <;> rfl
  · obtain hword | hword := word_bootSlot hi <;> rw [hword] <;> decide
  · obtain hword | hword := word_bootSlot hi <;> rw [hword, bit_bootedMachine] <;> rfl
  · obtain hword | hword := word_bootSlot hi <;> rw [hword]
    · exact present_bootTable hk (.inl rfl)
    · exact present_bootTable hk (.inr rfl)
  · rw [BootSlot, not_or, not_or, not_or] at hboot
    rw [word_bootedMachine hi, bootWords, if_pos rfl, if_neg (by omega),
      if_neg (by omega), zero_mod]

theorem supplies_bootedMachine (hA : ∀ g ∈ A, g < 0x400) :
    (bootedMachine rest).pmm.Supplies (1023 - firstNewSlot) A := by
  refine ⟨by rw [bit_bootedMachine]; rfl, rfl, ?_, Finset.Ico 0x400 0x500, ?_, fun f hf => ?_⟩
  · exact show 0x400 + (1023 - 770) ≤ 0x7FE0 by decide
  · rw [card_Ico]
    decide
  · obtain ⟨hlo, hhi⟩ := Finset.mem_Ico.mp hf
    refine ⟨fun hmem => ?_, ?_, ?_⟩
    · have hlt := hA f hmem
      omega
    · rw [bit_bootedMachine, decide_eq_false (by omega)]
    · show f < 0x7FE0 / 32 * 32
      omega

/-- `vmm_init` on this machine, with a text screen at 0xB8000. -/
theorem init_bootedMachine (rest : Nat) :
    ∃ vm', (bootedMachine rest).init (0x110 * pageSize) 0xC0154321 Pmm.plainBoot = some vm' := by
  refine (booted_bootedMachine rest).init_isSome (supplies_bootedMachine ?_) (by decide)
    (by decide) (by decide)
  rintro _ ⟨p, ⟨hlo, hhi⟩, rfl⟩
  have hsize : Pmm.plainBoot.videoMapSize = 0x1000 := by decide
  have hstart : Pmm.plainBoot.videoPhyStart.toNat = 0xB8000 := by decide
  rw [hsize, Pmm.framebufferStart, pageSize] at hhi
  rw [target, hstart, Pmm.framebufferStart, pageSize]
  omega

/-- The frames for new tables are among the free ones. -/
theorem free_of_nextFrames {p : Pmm} {f : Nat} (h : f ∈ p.nextFrames n) : p.bit f = false := by
  induction n generalizing p with
  | zero => exact absurd h not_mem_nil
  | succ n ih =>
    rw [Pmm.nextFrames] at h
    cases halloc : p.allocateFrame with
    | none =>
      rw [halloc] at h
      exact absurd h not_mem_nil
    | some r =>
      obtain ⟨-, -, hclear, hpmm⟩ := Pmm.allocateFrame_eq_some halloc
      rw [halloc] at h
      obtain rfl | hmem := mem_cons.mp h
      · exact hclear
      · have hfree := ih hmem
        rw [hpmm, Pmm.bit_markFrameUsed, Bool.or_eq_false_iff] at hfree
        exact hfree.1

/-- With zeros in all free frames the kernel half is clean. -/
theorem kernel_half_clean_zeroed : ∃ vm', (bootedMachine 0).init (0x110 * pageSize) 0xC0154321
    Pmm.plainBoot = some vm' ∧ OnlyBootPages vm' 0x110 0xC0154321 Pmm.plainBoot ∧
      vm'.HeapFresh 0x110 := by
  obtain ⟨vm', hrun⟩ := init_bootedMachine 0
  refine ⟨vm', hrun, (kernel_half_clean_iff (booted_bootedMachine 0) (by decide)
    (by decide) hrun).mpr ?_⟩
  intro q _ _ f hf hset
  have hfree := free_of_nextFrames (mem_of_getElem? hf)
  rw [bit_bootedMachine, decide_eq_false_iff_not] at hfree
  rw [word_bootedMachine (mod_lt q (by decide)), bootWords_free (not_lt.mp hfree)] at hset
  cases hset

/-- With ones in all free frames the first page of the heap is present after `vmm_init`,
and `vmm_create_page` takes no frame for it. -/
theorem heap_page_present_at_boot : ∃ vm' vm₂ ret, (bootedMachine 0xFFFFFFFF).init
    (0x110 * pageSize) 0xC0154321 Pmm.plainBoot = some vm' ∧ mapping vm'.phys 0x110 0xD0000 ≠ none ∧
      ¬OnlyBootPages vm' 0x110 0xC0154321 Pmm.plainBoot ∧
      vm'.createPage kernelHeapStart kernelAccess = some (vm₂, ret) ∧ vm₂.pmm = vm'.pmm := by
  obtain ⟨vm', hrun⟩ := init_bootedMachine 0xFFFFFFFF
  have hbooted := booted_bootedMachine 0xFFFFFFFF
  obtain ⟨vm₁, -, -, htables, -⟩ := init_eq_some hrun
  have hentered := hbooted.entered htables
  obtain ⟨f, hf, hmem, -⟩ := hentered.new_frame (i := 0xD0000 / 1024) (by decide) (by decide)
  have hfree := (hentered.fresh f hmem).1
  rw [bit_bootedMachine, decide_eq_false_iff_not] at hfree
  have hset : present ((bootedMachine 0xFFFFFFFF).phys.word f (0xD0000 % 1024)) = true := by
    rw [word_bootedMachine (by decide), bootWords_free (not_lt.mp hfree)]
    rfl
  obtain ⟨hspace, hpresent⟩ := hbooted.init (by decide) (by decide) hrun
  have hmapped : mapping vm'.phys 0x110 0xD0000 ≠ none := by
    rw [hpresent 0xD0000 (by decide) (by decide)]
    exact .inr (.inr (.inr ⟨f, hf, hset⟩))
  obtain ⟨ret, hcreate⟩ := hspace.createPage_mapped (by decide) hmapped
  refine ⟨vm', _, ret, hrun, hmapped, fun honly => ?_, hcreate, rfl⟩
  obtain hpage | ⟨-, hpage⟩ | ⟨hpage, -⟩ := honly 0xD0000 (by decide) (by decide) hmapped
  · exact absurd hpage (by decide)
  · exact absurd hpage (by decide)
  · exact absurd hpage (by decide)

end Hos.Vm
