import Hos.Memory.Pmm.Run

/-!
# The paging code of `vmm.c`

The state is the physical memory, the frame allocator, the directory that `CR3`
points to and the directory that `cur_pdir` names. Pointers to page directories
are represented by the physical address of the directory, since directories stay
mapped in the kernel half. All other pointers are virtual and are resolved by
the two-level walk of the processor, in particular those into the window of the
recursive entry. Large pages are not enabled in `CR4`, so the walk ignores the
size bit, and the translation cache is taken to be up to date.

An access to an address without translation is a fault, and an allocation that
finds no frame is fatal; both do not return, which is `none` here.
-/

namespace Hos

open Option

/-- The machine state of the paging code. -/
structure Vm where
  phys : Bytes
  pmm : Pmm
  cr3 : Nat
  curPdir : Nat

namespace Vm

/-- `PAGE_SIZE`. -/
def pageSize : Nat := 4096

/-- `PDE_INDEX`. -/
def pdeIndex (virtAddr : Nat) : Nat := virtAddr / 2 ^ 22 % 1024

/-- `PTE_INDEX`. -/
def pteIndex (virtAddr : Nat) : Nat := virtAddr / 2 ^ 12 % 1024

/-- The bit `present` of an entry. -/
def present (raw : Nat) : Bool := raw.testBit 0

/-- The bit `size` of a directory entry. -/
def large (raw : Nat) : Bool := raw.testBit 7

/-- The address of the frame of an entry. -/
def entryFrame (raw : Nat) : Nat := raw / pageSize * pageSize

/-- The physical address of entry `i` of the directory or table at `base`. -/
def entryAddr (base i : Nat) : Nat := base + 4 * i

/-- The walk of the processor from the directory at `dir`. -/
def walk (phys : Bytes) (dir virtAddr : Nat) : Option Nat :=
  let pde := phys.load32 (entryAddr dir (pdeIndex virtAddr))
  if present pde then
    let pte := phys.load32 (entryAddr (entryFrame pde) (pteIndex virtAddr))
    if present pte then some (entryFrame pte + virtAddr % pageSize) else none
  else none

/-- The physical address behind a virtual one in the active address space. -/
def translate (vm : Vm) (virtAddr : Nat) : Option Nat := walk vm.phys vm.cr3 virtAddr

/-- `memset(virtAddr, 0, PAGE_SIZE)` for an aligned address. -/
def zeroPage (vm : Vm) (virtAddr : Nat) : Option Vm := do
  let page ← vm.translate virtAddr
  return { vm with phys := vm.phys.fill page pageSize 0 }

/-- `vmm_r_get_directory`. -/
def rGetDirectory : Nat := 0xFFFFF000

/-- `vmm_r_get_ptable`. -/
def rGetPtable (virtAddr : Nat) : Nat := 0xFFC00000 + pdeIndex virtAddr * pageSize

/-- `vmm_page_set_flags`. -/
def pageSetFlags (vm : Vm) (page flags : Nat) : Vm :=
  { vm with phys := vm.phys.store32 page (vm.phys.load32 page ||| flags % pageSize) }

/-- The assignment to the 20 bits of `page->ptbits.frame`. -/
def pageSetFrame (vm : Vm) (page frame : Nat) : Vm :=
  { vm with
    phys := vm.phys.store32 page (vm.phys.load32 page % pageSize + frame % 2 ^ 20 * pageSize) }

/-- `vmm_page_allocate`. -/
def pageAllocate (vm : Vm) (page flags : Nat) : Option Vm :=
  if present (vm.phys.load32 page) then some (vm.pageSetFlags page flags)
  else do
    let (index, pmm) ← vm.pmm.allocateFrame
    return ({ vm with pmm }.pageSetFrame page index).pageSetFlags page flags

/-- `vmm_pde_allocate`. -/
def pdeAllocate (vm : Vm) (pde flags : Nat) : Option Vm := vm.pageAllocate pde flags

/-- `vmm_page_map_addr`. -/
def pageMapAddr (vm : Vm) (page flags physAddr : Nat) : Vm :=
  ({ vm with pmm := vm.pmm.frameSeta physAddr }.pageSetFrame page
    (physAddr / 2 ^ Pmm.frameShift)).pageSetFlags page flags

/-- The part that `vmm_create_page` and `vmm_map_page` share: a missing table is
allocated and cleared through the recursive window. The directory entry is at
`pde`. -/
def ensureTable (vm : Vm) (pde virtAddr flags : Nat) : Option Vm :=
  if present (vm.phys.load32 pde) then some vm
  else do
    let vm ← vm.pdeAllocate pde flags
    vm.zeroPage (rGetPtable virtAddr)

/-- The part of `vmm_create_page` below the table: a missing page is allocated and
cleared. The table entry is at `pte`. -/
def ensurePage (vm : Vm) (pte virtAddr flags : Nat) : Option Vm :=
  if present (vm.phys.load32 pte) then some vm
  else do
    let vm ← vm.pageAllocate pte flags
    vm.zeroPage virtAddr

/-- `vmm_create_page`; the second component is the returned pointer. -/
def createPage (vm : Vm) (virtAddr flags : Nat) : Option (Vm × Option Nat) := do
  let virtAddr := virtAddr / pageSize * pageSize
  let page := entryAddr (rGetPtable virtAddr) (pteIndex virtAddr)
  let pde ← vm.translate (entryAddr rGetDirectory (pdeIndex virtAddr))
  let vm ← vm.ensureTable pde virtAddr flags
  let pde ← vm.translate (entryAddr rGetDirectory (pdeIndex virtAddr))
  if large (vm.phys.load32 pde) then return (vm, none)
  else
    let pte ← vm.translate page
    let vm ← vm.ensurePage pte virtAddr flags
    let pte ← vm.translate page
    return (vm.pageSetFlags pte flags, some page)

/-- `vmm_map_page`. -/
def mapPage (vm : Vm) (virtAddr physAddr flags : Nat) : Option (Vm × Option Nat) := do
  let virtAddr := virtAddr / pageSize * pageSize
  let page := entryAddr (rGetPtable virtAddr) (pteIndex virtAddr)
  let pde := entryAddr vm.curPdir (pdeIndex virtAddr)
  let vm ← vm.ensureTable pde virtAddr flags
  if large (vm.phys.load32 pde) then return (vm, none)
  else
    let pte ← vm.translate page
    return (vm.pageMapAddr pte flags physAddr, some page)

/-- The physical address of the entry of a page that is mapped, as
`vmm_unmap_page` and `vmm_free_page` look it up. -/
def mappedEntry (vm : Vm) (virtAddr : Nat) : Option (Option Nat) :=
  let virtAddr := virtAddr / pageSize * pageSize
  if present (vm.phys.load32 (entryAddr vm.curPdir (pdeIndex virtAddr))) then do
    let pte ← vm.translate (entryAddr (rGetPtable virtAddr) (pteIndex virtAddr))
    return if present (vm.phys.load32 pte) then some pte else none
  else some none

/-- `vmm_unmap_page`. -/
def unmapPage (vm : Vm) (virtAddr : Nat) : Option Vm := do
  match ← vm.mappedEntry virtAddr with
  | none => return vm
  | some pte => return { vm with phys := vm.phys.store32 pte 0 }

/-- `vmm_free_page`. -/
def freePage (vm : Vm) (virtAddr : Nat) : Option Vm := do
  match ← vm.mappedEntry virtAddr with
  | none => return vm
  | some pte =>
    return { vm with
      pmm := vm.pmm.freeFrame (vm.phys.load32 pte)
      phys := vm.phys.store32 pte 0 }

end Vm

namespace Pmm

/-- The allocator states that single allocations lead to. -/
def Allocates : Pmm → Pmm → Prop :=
  Relation.ReflTransGen fun p p' => ∃ f, p.allocateFrame = some (f, p')

end Pmm

namespace Vm

variable {vm vm' : Vm} {page pde virtAddr physAddr flags : Nat} {ret : Option Nat}

theorem zeroPage_pmm (h : vm.zeroPage virtAddr = some vm') : vm'.pmm = vm.pmm := by
  simp only [zeroPage, bind_eq_bind, bind_eq_some_iff, pure_def, some.injEq] at h
  obtain ⟨_, _, rfl⟩ := h
  rfl

theorem pageAllocate_allocates (h : vm.pageAllocate page flags = some vm') :
    vm.pmm.Allocates vm'.pmm := by
  rw [pageAllocate] at h
  split at h
  · cases h
    exact .refl
  · simp only [bind_eq_bind, bind_eq_some_iff, pure_def, some.injEq] at h
    obtain ⟨⟨index, pmm⟩, halloc, rfl⟩ := h
    exact .single ⟨index, halloc⟩

theorem ensurePage_allocates (h : vm.ensurePage page virtAddr flags = some vm') :
    vm.pmm.Allocates vm'.pmm := by
  rw [ensurePage] at h
  split at h
  · cases h
    exact .refl
  · obtain ⟨vm₁, halloc, hzero⟩ := bind_eq_some_iff.mp h
    rw [zeroPage_pmm hzero]
    exact pageAllocate_allocates halloc

theorem ensureTable_allocates (h : vm.ensureTable pde virtAddr flags = some vm') :
    vm.pmm.Allocates vm'.pmm :=
  ensurePage_allocates (show vm.ensurePage pde (rGetPtable virtAddr) flags = some vm' from h)

/-- `vmm_create_page` takes frames one at a time and touches the allocator in no
other way. -/
theorem createPage_allocates (h : vm.createPage virtAddr flags = some (vm', ret)) :
    vm.pmm.Allocates vm'.pmm := by
  simp only [createPage, bind_eq_bind, bind_eq_some_iff] at h
  obtain ⟨_, _, vm₁, htable, _, _, h⟩ := h
  have hfirst := ensureTable_allocates htable
  split at h
  · cases h
    exact hfirst
  · simp only [bind_eq_some_iff] at h
    obtain ⟨pte, _, vm₂, hpage, _, _, hret⟩ := h
    cases hret
    have hsecond := ensurePage_allocates hpage
    exact hfirst.trans hsecond

/-- `vmm_map_page` may take a frame for the table and marks the mapped frame. -/
theorem mapPage_allocates (h : vm.mapPage virtAddr physAddr flags = some (vm', ret)) :
    ∃ pmm, vm.pmm.Allocates pmm ∧ (vm'.pmm = pmm ∨ vm'.pmm = pmm.frameSeta physAddr) := by
  obtain ⟨vm₁, htable, h⟩ := bind_eq_some_iff.mp h
  refine ⟨vm₁.pmm, ensureTable_allocates htable, ?_⟩
  split at h
  · cases h
    exact .inl rfl
  · obtain ⟨pte, _, hret⟩ := bind_eq_some_iff.mp h
    cases hret
    exact .inr rfl

/-- `vmm_free_page` gives the frame of a mapped page back. -/
theorem freePage_pmm (h : vm.freePage virtAddr = some vm') :
    vm'.pmm = vm.pmm ∨ ∃ pte, vm.mappedEntry virtAddr = some (some pte) ∧
      vm'.pmm = vm.pmm.freeFrame (vm.phys.load32 pte) := by
  obtain ⟨entry, hentry, h⟩ := bind_eq_some_iff.mp h
  cases entry with
  | none =>
    cases h
    exact .inl rfl
  | some pte =>
    cases h
    exact .inr ⟨pte, hentry, rfl⟩

end Vm

end Hos
