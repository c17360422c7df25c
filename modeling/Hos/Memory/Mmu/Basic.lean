import Hos.Memory.Vmm.Range

/-!
# Process images

The functions of `mmu.c` that create, clone and destroy the memory of a process. A
process image is a page directory and the list of its areas, the newest first.
Page directories and the structures themselves are blocks of the kernel heap: a
pointer to a directory is represented by the physical address of its frame, and
the virtual address that `kmalloc_align` answers for a new directory is an
argument. The heap is not part of the state.

The tables of an image are reached through a window of the active directory at
`PAGE_TABLE_MAP_START`, one page for every slot of a directory.
-/

namespace Hos

/-- `vm_area_struct_t`. -/
structure VmArea where
  vmStart : Nat
  vmEnd : Nat
  vmFlags : Nat

/-- `mm_struct_t`. -/
structure MmStruct where
  pgd : Nat
  mmapList : List VmArea
  mapCount : Nat
  startStack : Nat
  totalVm : Nat

namespace Vm

/-- `PAGE_TABLE_MAP_START`. -/
def pageTableMapStart : Nat := 0xCF800000

/-- `PML_KERNEL_ACCESS`. -/
def kernelAccess : Nat := 3

/-- `PML_USER_ACCESS`. -/
def userAccess : Nat := 7

/-- `USER_END`. -/
def userEnd : Nat := 0xC0000000

/-- `__ALIGN_UP(addr, PAGE_SIZE << 10)`. -/
def alignUpTable (addr : Nat) : Nat := u32 (addr + (2 ^ 22 - 1)) / 2 ^ 22 * 2 ^ 22

/-- The assignment to `pd->entries[i].raw`. -/
def setEntry (vm : Vm) (pd i raw : Nat) : Vm :=
  { vm with phys := vm.phys.store32 (entryAddr pd i) raw }

/-- The directory entries of an area, from which on and up to which. -/
def pdeStart (addrStart : Nat) : Nat := addrStart / 2 ^ 12 / 2 ^ 10 % 1024

def pdeEnd (addrEnd : Nat) : Nat := alignUpTable addrEnd / 2 ^ 22 % 1024

/-- The pages of an area, from which on and up to which. -/
def pfnStart (addrStart : Nat) : Nat := addrStart / 2 ^ 12

def pfnEnd (addrEnd : Nat) : Nat := alignUp addrEnd / 2 ^ 12

/-- The first loop of `__allocate_vm_area`: the entries get consecutive frames. -/
def setTables (vm : Vm) (pd start num ptablePhyStart flags : Nat) : Vm :=
  (List.range' start num).foldl (fun vm i =>
    vm.setEntry pd i (u32 (ptablePhyStart + (i - start) * pageSize) ||| flags)) vm

/-- The frames that the processor has kept for pages. -/
abbrev Tlb : Type := Nat → Option Nat

/-- An access through the translation cache: the tables are only looked at for pages that
are not in it. -/
def translateVia (tlb : Tlb) (vm : Vm) (addr : Nat) : Option Nat :=
  match tlb (addr / pageSize) with
  | some frame => some (frame * pageSize + addr % pageSize)
  | none => vm.translate addr

/-- One pass of the loop over pages in `__allocate_vm_area`: the table of the page is
read through the window. -/
def allocateAreaPageVia (tlb : Tlb) (vm : Vm) (flags pfn : Nat) : Option Vm := do
  let pde := pfn / 2 ^ 10 % 1024
  let pte := pfn % 1024
  let page ← vm.translateVia tlb (entryAddr (pageTableMapStart + pde * pageSize) pte)
  if present (vm.phys.load32 page) then some vm else vm.pageAllocate page flags

/-- `__allocate_vm_area`. It points pages of the window to the new tables without
`invlpg`, so the loop over the pages still goes where the cache says. -/
def allocateVmAreaVia (tlb : Tlb) (vm : Vm) (pd vmStart flags sizeAlloc : Nat) : Option Vm := do
  let addrEnd := u32 (vmStart + sizeAlloc)
  let start := pdeStart vmStart
  let num := sub32 (pdeEnd addrEnd) start
  let (startFrame, pmm) ← vm.pmm.allocateFrames num
  let ptablePhyStart := u32 (startFrame * pageSize)
  let vm := { vm with pmm }.setTables pd start (pdeEnd addrEnd - start) ptablePhyStart flags
  let vm ← vm.mapRange (pageTableMapStart + start * pageSize) ptablePhyStart (u32 (num * pageSize))
    kernelAccess
  let vm ← (List.range' (pfnStart vmStart) (pfnEnd addrEnd - pfnStart vmStart)).foldlM
    (fun vm pfn => vm.allocateAreaPageVia tlb flags pfn) vm
  vm.unmapRange (pageTableMapStart + start) (u32 (num * pageSize))

/-- `mmu_create_vm_area`. -/
def createVmAreaVia (tlb : Tlb) (vm : Vm) (mm : MmStruct) (virtStart size sizeAlloc pgflags : Nat) :
    Option (Vm × MmStruct) := do
  let vm ← vm.allocateVmAreaVia tlb mm.pgd virtStart pgflags sizeAlloc
  return (vm, { mm with
    mmapList := ⟨virtStart, u32 (virtStart + size), pgflags⟩ :: mm.mmapList
    mapCount := mm.mapCount + 1
    totalVm := u32 (mm.totalVm + sizeAlloc) })

/-- The functions when no page of the window is in the cache. -/
def allocateAreaPage (vm : Vm) (flags pfn : Nat) : Option Vm :=
  vm.allocateAreaPageVia (fun _ => none) flags pfn

def allocateVmArea (vm : Vm) (pd vmStart flags sizeAlloc : Nat) : Option Vm :=
  vm.allocateVmAreaVia (fun _ => none) pd vmStart flags sizeAlloc

def createVmArea (vm : Vm) (mm : MmStruct) (virtStart size sizeAlloc pgflags : Nat) :
    Option (Vm × MmStruct) :=
  vm.createVmAreaVia (fun _ => none) mm virtStart size sizeAlloc pgflags

/-- `vmm_r_get_phy_addr`. -/
def rGetPhyAddr (vm : Vm) (virtAddr : Nat) : Option Nat := do
  let page ← vm.translate (entryAddr (rGetPtable virtAddr) (pteIndex virtAddr))
  return entryFrame (vm.phys.load32 page) + virtAddr % pageSize

/-- `mmu_create_blank_process_image`; the new directory is at the virtual address
`pdirCpy`. -/
def createBlankProcessImage (vm : Vm) (kPdir pdirCpy stackSize : Nat) : Option (Vm × MmStruct) := do
  let pgd ← vm.translate pdirCpy
  let vm := { vm with phys := vm.phys.blit pgd vm.phys kPdir pageSize }
  let phyAddr ← vm.rGetPhyAddr pdirCpy
  let vm := vm.setEntry pgd 1023 (phyAddr ||| kernelAccess)
  let start := sub32 userEnd stackSize
  let (vm, mm) ← vm.createVmArea ⟨pgd, [], 0, 0, 0⟩ start stackSize stackSize userAccess
  return (vm, { mm with startStack := start })

/-- `vmm_switch_directory`; a null pointer is the address zero. -/
def switchDirectory (vm : Vm) (kPdir newPdir : Nat) : Vm :=
  let newPdir := if newPdir = 0 then kPdir else newPdir
  { vm with
    curPdir := newPdir
    cr3 := entryFrame (vm.phys.load32 (entryAddr newPdir 1023)) }

/-! ## Cloning -/

/-- `FRAME_MASK`. -/
def frameMask : Nat := 0xFFFFF000

/-- A word of the active address space; it may lie across two pages. -/
def loadVirt (vm : Vm) (addr : Nat) : Option Nat := do
  let b₀ ← vm.translate addr
  let b₁ ← vm.translate (u32 (addr + 1))
  let b₂ ← vm.translate (u32 (addr + 2))
  let b₃ ← vm.translate (u32 (addr + 3))
  return (vm.phys b₀).toNat + (vm.phys b₁).toNat * 2 ^ 8 + (vm.phys b₂).toNat * 2 ^ 16 +
    (vm.phys b₃).toNat * 2 ^ 24

/-- One byte of the active address space. -/
def storeByte (vm : Vm) (addr value : Nat) : Option Vm := do
  let b ← vm.translate addr
  return { vm with phys := Function.update vm.phys b (BitVec.ofNat 8 value) }

def storeVirt (vm : Vm) (addr value : Nat) : Option Vm := do
  let vm ← vm.storeByte addr value
  let vm ← vm.storeByte (u32 (addr + 1)) (value / 2 ^ 8)
  let vm ← vm.storeByte (u32 (addr + 2)) (value / 2 ^ 16)
  vm.storeByte (u32 (addr + 3)) (value / 2 ^ 24)

/-- `vmm_page_allocate` for an entry at a virtual address. -/
def pageAllocateVirt (vm : Vm) (page flags : Nat) : Option Vm := do
  let raw ← vm.loadVirt page
  if present raw then vm.storeVirt page (raw ||| flags % pageSize)
  else
    let (index, pmm) ← vm.pmm.allocateFrame
    { vm with pmm }.storeVirt page ((raw % pageSize + index % 2 ^ 20 * pageSize) |||
      flags % pageSize)

/-- `memcpy(dst, src, PAGE_SIZE)` for aligned addresses. -/
def copyPage (vm : Vm) (dst src : Nat) : Option Vm := do
  let dstPhys ← vm.translate dst
  let srcPhys ← vm.translate src
  return { vm with phys := vm.phys.blit dstPhys vm.phys srcPhys pageSize }

/-- One pass of the loop over the pages of a table in `mmu_clone_vm_area`. The
pointers to the tables are off by a factor of the page size. -/
def cloneAreaPage (vm : Vm) (pdEntry flags ptEntry : Nat) : Option Vm := do
  let ptSrc := pageTableMapStart + pdEntry
  let ptDst := pageTableMapStart + pdEntry + 1
  let raw ← vm.loadVirt (entryAddr ptSrc ptEntry)
  let vm ← (if present raw then vm.pageAllocateVirt (entryAddr ptDst ptEntry) flags else some vm :
    Option Vm)
  let pSrc := pageTableMapStart + pdEntry * pageSize
  let rawSrc ← vm.loadVirt (entryAddr ptSrc ptEntry)
  let (vm, _) ← vm.mapPage pSrc (rawSrc ||| frameMask) kernelAccess
  let pDst := pageTableMapStart + (pdEntry + 1) * pageSize
  let rawDst ← vm.loadVirt (entryAddr ptDst ptEntry)
  let (vm, _) ← vm.mapPage pDst (rawDst ||| frameMask) kernelAccess
  let vm ← vm.copyPage pDst pSrc
  let vm ← vm.unmapPage pSrc
  vm.unmapPage pDst

/-- One pass of the loop over tables in `mmu_clone_vm_area`, for a table of the source
that is present: the pages from `pageStart` on that are in the table. -/
def cloneAreaTable (vm : Vm) (pdirSrc pdirDst flags pageStart pageEnd : Nat) :
    Option (Nat × Vm) := do
  let pdEntry := pageStart / 2 ^ 10 % 1024
  let vm ← (if present (vm.phys.load32 (entryAddr pdirDst pdEntry)) then some vm
    else vm.pdeAllocate (entryAddr pdirDst pdEntry) flags : Option Vm)
  let ptSrc := pageTableMapStart + pdEntry
  let (vm, _) ← vm.mapPage ptSrc (vm.phys.load32 (entryAddr pdirSrc pdEntry) ||| frameMask)
    kernelAccess
  let ptDst := pageTableMapStart + pdEntry + 1
  let (vm, _) ← vm.mapPage ptDst (vm.phys.load32 (entryAddr pdirDst pdEntry) ||| frameMask)
    kernelAccess
  let ptEntry := pageStart % 1024
  let num := min (1024 - ptEntry) (pageEnd - pageStart)
  let vm ← (List.range' ptEntry num).foldlM
    (fun vm ptEntry => vm.cloneAreaPage pdEntry flags ptEntry) vm
  let vm ← vm.unmapPage ptSrc
  let vm ← vm.unmapPage ptDst
  return (pageStart + num, vm)

/-- `mmu_clone_vm_area` without copy on write. A missing table of the source is
skipped without a step forward, so the loop does not end. -/
def cloneVmArea (vm : Vm) (mm : MmStruct) (pdirSrc : Nat) (area : VmArea) :
    Option (Vm × MmStruct) := do
  let (_, vm) ← whileLoop (fun s : Nat × Vm => decide (s.1 < area.vmEnd / 2 ^ 12)) (fun s =>
    if present (s.2.phys.load32 (entryAddr pdirSrc (s.1 / 2 ^ 10 % 1024))) then
      s.2.cloneAreaTable pdirSrc mm.pgd area.vmFlags s.1 (area.vmEnd / 2 ^ 12)
    else some s) (area.vmStart / 2 ^ 12, vm)
  return (vm, { mm with
    mmapList := area :: mm.mmapList
    mapCount := mm.mapCount + 1
    totalVm := u32 (mm.totalVm + sub32 area.vmEnd area.vmStart) })

/-- `mmu_clone_process_image`; the new directory is at the virtual address `pdirCpy`. -/
def cloneProcessImage (vm : Vm) (kPdir pdirCpy : Nat) (mm : MmStruct) : Option (Vm × MmStruct) := do
  let pgd ← vm.translate pdirCpy
  let vm := { vm with phys := vm.phys.blit pgd vm.phys kPdir pageSize }
  mm.mmapList.foldlM (fun s area => s.1.cloneVmArea s.2 mm.pgd area)
    (vm, { mm with pgd := pgd, mmapList := [], mapCount := 0, totalVm := 0 })

/-! ## Destroying -/

/-- The bit `global` of a directory entry. -/
def global (raw : Nat) : Bool := raw.testBit 8

/-- One pass of the last loop of `mmu_destroy_process_image`. -/
def freeUserTable (pgd : Nat) (vm : Vm) (i : Nat) : Vm :=
  let raw := vm.phys.load32 (entryAddr pgd i)
  if present raw && !global raw then ({ vm with pmm := vm.pmm.freeFrame raw }).setEntry pgd i 0
    else vm

/-- `mmu_destroy_process_image`. -/
def destroyProcessImage (vm : Vm) (kPdir : Nat) (mm : MmStruct) : Option Vm := do
  let vm := if vm.curPdir ≠ mm.pgd then vm.switchDirectory kPdir mm.pgd else vm
  let vm ← mm.mmapList.foldlM (fun vm segment =>
    vm.deallocateRange segment.vmStart (sub32 segment.vmEnd segment.vmStart)) vm
  return (List.range 768).foldl (freeUserTable mm.pgd) vm

end Vm

end Hos
