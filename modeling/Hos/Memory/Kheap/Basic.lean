import Hos.Lib.Bytes
import Hos.Lib.Loop

/-!
# The kernel heap of `kheap.c`

The heap is a region of kernel memory whose first three words hold the head
block, the tail block and the first free block. Every block starts with the
twelve bytes of a `block_t`: the size with the free flag in its last bit, the
next free block and the next block. All of these live in the same byte store
as the payloads, and the functions below read and write them there.

The pages behind the heap come from `vmm_create_page`, which is a parameter:
the heap only depends on whether a page was fresh and therefore zeroed.
`assert` prints a message and continues in this kernel, so a failed assertion
has no effect here either. `none` is a call that does not return.
-/

namespace Hos.Kheap

/-- `vmm_create_page(virtAddr, flags)`: whether the page had to be allocated,
and hence cleared, or `none` when physical memory is exhausted. -/
structure PageProvider (σ : Type) where
  createPage : σ → Nat → Nat → Option (Bool × σ)

/-- `kernel_heap`, `kernel_heap_top` and the memory they describe. -/
structure Heap where
  mem : Bytes
  vmStart : Nat
  vmEnd : Nat
  vmFlags : Nat
  kernelHeapTop : Nat

/-- The fields of `boot_info_t` that `kheap_init` reads. -/
structure BootInfo where
  heapStart : Nat
  heapEnd : Nat

/-- `KERNEL_HEAP_START` and `KERNEL_HEAP_END`, as `boot.c` passes them on. -/
def kernelBootInfo : BootInfo where
  heapStart := 0xD0000000
  heapEnd := 0xF0000000

def pmlKernelAccess : Nat := 0x03

def pageSize : Nat := 4096

/-- `OVERHEAD`, the size of a `block_t`. -/
def overhead : Nat := 12

/-- `CEIL(size, 16)` in `uint32_t` arithmetic. -/
def ceil16 (size : Nat) : Nat := u32 (size + 15) &&& 0xFFFFFFF0

/-- `__ALIGN_UP(addr, PAGE_SIZE)` in `uint32_t` arithmetic. -/
def pageAlignUp (addr : Nat) : Nat := u32 (addr + (pageSize - 1)) &&& 0xFFFFF000

namespace Heap

/-- Address of the word holding the head block. -/
def head (h : Heap) : Nat := h.vmStart

/-- Address of the word holding the tail block. -/
def tail (h : Heap) : Nat := h.vmStart + 4

/-- Address of the word holding the first free block. -/
def freelist (h : Heap) : Nat := h.vmStart + 8

end Heap

section

/-- The fields of the `block_t` at `b`. -/
def sizeField (m : Bytes) (b : Nat) : Nat := m.load32 b
def nextfree (m : Bytes) (b : Nat) : Nat := m.load32 (b + 4)
def next (m : Bytes) (b : Nat) : Nat := m.load32 (b + 8)

def setSize (m : Bytes) (b v : Nat) : Bytes := m.store32 b v
def setNextfree (m : Bytes) (b v : Nat) : Bytes := m.store32 (b + 4) v
def setNext (m : Bytes) (b v : Nat) : Bytes := m.store32 (b + 8) v

def blockGetRealSize (size : Nat) : Nat := (size >>> 1) <<< 1

def blockSetFree (size : Nat) (x : Bool) : Nat :=
  if x then size ||| 1 else size &&& 0xFFFFFFFE

def blockIsFree (m : Bytes) (block : Nat) : Bool :=
  if block = 0 then false else sizeField m block &&& 1 != 0

def blockIsFit (m : Bytes) (block size : Nat) : Bool :=
  decide (blockGetRealSize size ≤ sizeField m block) && blockIsFree m block

def blockRemoveFromFreelist (m : Bytes) (block freelist : Nat) : Option Bytes := do
  let firstFreeBlock := m.load32 freelist
  let m ←
    if block = firstFreeBlock then
      some (m.store32 freelist (nextfree m block))
    else do
      let prev ← whileLoop (fun prev => prev != 0 && nextfree m prev != block)
        (fun prev => some (nextfree m prev)) firstFreeBlock
      if prev ≠ 0 then some (setNextfree m prev (nextfree m block)) else some m
  some (setNextfree m block 0)

def blockAddToFreelist (m : Bytes) (block freelist : Nat) : Bytes :=
  let firstFreeBlock := m.load32 freelist
  (setNextfree m block firstFreeBlock).store32 freelist block

/-- One round of the best-fit scan: the cursor and the best block so far. -/
def bestFittingStep (m : Bytes) (size : Nat) (s : Nat × Nat) : Nat × Nat :=
  let best :=
    if !blockIsFit m s.1 size then s.2
    else if s.2 = 0 ∨ sizeField m s.1 < sizeField m s.2 then s.1
    else s.2
  (nextfree m s.1, best)

def blockFindBestFitting (m : Bytes) (size freelist : Nat) : Option Nat := do
  let firstFreeBlock := m.load32 freelist
  if firstFreeBlock = 0 then return 0
  let s ← whileLoop (fun s => s.1 != 0) (fun s => some (bestFittingStep m size s))
    (firstFreeBlock, 0)
  return s.2

/-- `IS_ALIGN(block + sizeof(block_t))`. The addition is on a `block_t *`, so it skips twelve
blocks of twelve bytes. -/
def isAlign (block : Nat) : Bool := u32 (block + overhead * overhead) &&& 0x00000FFF == 0

/-- One round of the scan of `block_find_best_fitting_align`. -/
def bestFittingAlignStep (m : Bytes) (size : Nat) (s : Nat × Nat) : Nat × Nat :=
  let best :=
    if !blockIsFit m s.1 size && isAlign s.1 then s.2
    else if s.2 = 0 ∨ sizeField m s.1 < sizeField m s.2 then s.1
    else s.2
  (nextfree m s.1, best)

def blockFindBestFittingAlign (m : Bytes) (size freelist : Nat) : Option Nat := do
  let firstFreeBlock := m.load32 freelist
  if firstFreeBlock = 0 then return 0
  let s ← whileLoop (fun s => s.1 != 0) (fun s => some (bestFittingAlignStep m size s))
    (firstFreeBlock, 0)
  return s.2

def blockGetPreviousBlock (m : Bytes) (block head : Nat) : Option Nat :=
  let headBlock := m.load32 head
  if block = headBlock then some 0
  else whileLoop (fun prev => next m prev != block) (fun prev => some (next m prev)) headBlock

def blockGetNextBlock (m : Bytes) (block tail : Nat) : Nat :=
  let tailBlock := m.load32 tail
  if block = tailBlock then 0 else next m block

end

section

variable {σ : Type} (P : PageProvider σ)

/-- `vmm_create_page` seen from the heap: a fresh page reads as zero. -/
def vmmCreatePage (h : Heap) (env : σ) (virtAddr : Nat) : Option (Heap × σ) := do
  let page := virtAddr &&& 0xFFFFF000
  let (fresh, env) ← P.createPage env virtAddr h.vmFlags
  let mem := if fresh then h.mem.fill page pageSize 0 else h.mem
  some ({ h with mem }, env)

/-- The page loop of `__do_brk`, `n` pages from `startAddr` on. -/
def createPages (h : Heap) (env : σ) (startAddr : Nat) : Nat → Option (Heap × σ)
  | 0 => some (h, env)
  | n + 1 => do
      let (h, env) ← vmmCreatePage P h env startAddr
      createPages h env (u32 (startAddr + pageSize)) n

def doBrk (h : Heap) (env : σ) (increment : Int) : Option (Nat × Heap × σ) := do
  if 0 < increment then
    let size := increment.toNat
    let newBoundary := u32 (h.kernelHeapTop + size)
    if newBoundary ≤ h.vmEnd then
      let startAddr := pageAlignUp h.kernelHeapTop
      let endAddr := pageAlignUp (u32 (h.kernelHeapTop + size))
      let (h', env) ← createPages P h env startAddr ((endAddr - startAddr) / pageSize)
      return (h.kernelHeapTop, { h' with kernelHeapTop := newBoundary }, env)
    else return (0, h, env)
  else return (0, h, env)

def ksbrk (h : Heap) (env : σ) (increment : Int) : Option (Nat × Heap × σ) :=
  doBrk P h env increment

end

section

variable {σ : Type} (P : PageProvider σ)

/-- Choice b) of `__do_malloc`: the rest of the chunk swallows the free block
after it. -/
def mergeRest (h : Heap) (m : Bytes) (tailBlock blockPtr remainingSize nextblock : Nat) :
    Option Bytes := do
  let m ← blockRemoveFromFreelist m nextblock h.freelist
  let m := setSize m blockPtr (u32 (remainingSize + blockGetRealSize (sizeField m nextblock)))
  let m := setSize m blockPtr (blockSetFree (sizeField m blockPtr) true)
  let m := setNext m blockPtr (blockGetNextBlock m nextblock h.tail)
  let m := if nextblock = tailBlock then m.store32 h.tail blockPtr else m
  some (blockAddToFreelist m blockPtr h.freelist)

/-- Choice a) of `__do_malloc`: the rest of the chunk becomes a free block. -/
def separateRest (h : Heap) (m : Bytes)
    (tailBlock basePtr blockPtr remainingSize storedNextBlock : Nat) : Bytes :=
  let m := setSize m blockPtr (sub32 remainingSize overhead)
  let m := setSize m blockPtr (blockSetFree (sizeField m blockPtr) true)
  let m := setNext m blockPtr storedNextBlock
  let m := if basePtr = tailBlock then m.store32 h.tail blockPtr else m
  blockAddToFreelist m blockPtr h.freelist

/-- The head of the branch of `__do_malloc` that reuses the free block `bestFitting`: the bytes
that remain of the chunk, the bytes that are taken, and the memory with the block marked used. -/
def cutBestFitting (h : Heap) (blockSize bestFitting : Nat) : Nat × Nat × Bytes :=
  let m := h.mem
  let chunkSize := u32 (blockGetRealSize (sizeField m bestFitting) + overhead)
  let remainingSize := sub32 chunkSize blockSize
  let realSize := if remainingSize < 8 + overhead then chunkSize else blockSize
  let m := setSize m bestFitting (sub32 realSize overhead)
  (remainingSize, realSize, setSize m bestFitting (blockSetFree (sizeField m bestFitting) false))

/-- The branch of `__do_malloc` that reuses the free block `bestFitting`, with `merge` for its
choice b). -/
def takeBestFittingBy (merge : Heap → Bytes → Nat → Nat → Nat → Nat → Option Bytes) (h : Heap)
    (blockSize bestFitting : Nat) : Option Bytes := do
  let tailBlock := h.mem.load32 h.tail
  let storedNextBlock := blockGetNextBlock h.mem bestFitting h.tail
  let (remainingSize, realSize, m) := cutBestFitting h blockSize bestFitting
  let blockPtr := u32 (bestFitting + realSize)
  let m ←
    if remainingSize < 8 + overhead then some m
    else do
      let m ←
        if blockIsFree m storedNextBlock then
          merge h m tailBlock blockPtr remainingSize storedNextBlock
        else
          some (separateRest h m tailBlock bestFitting blockPtr remainingSize storedNextBlock)
      some (setNext m bestFitting blockPtr)
  blockRemoveFromFreelist m bestFitting h.freelist

def takeBestFitting : Heap → Nat → Nat → Option Bytes := takeBestFittingBy mergeRest

/-- The branch of `__do_malloc` that extends the heap by `blockSize` bytes. -/
def extendHeap (h : Heap) (env : σ) (blockSize : Nat) : Option (Nat × Heap × σ) := do
  let headBlock := h.mem.load32 h.head
  let tailBlock := h.mem.load32 h.tail
  let (ret, h, env) ← ksbrk P h env (i32 blockSize)
  let m := h.mem
  let m := if headBlock = 0 then m.store32 h.head ret else setNext m tailBlock ret
  let m := setNext m ret 0
  let m := setNextfree m ret 0
  let m := m.store32 h.tail ret
  let m := setSize m ret (sub32 blockSize overhead)
  let m := setSize m ret (blockSetFree (sizeField m ret) false)
  return (u32 (ret + overhead), { h with mem := m }, env)

def doMalloc (h : Heap) (env : σ) (size : Nat) : Option (Nat × Heap × σ) := do
  if size = 0 then return (0, h, env)
  let roundedSize := ceil16 size
  let blockSize := u32 (roundedSize + overhead)
  let bestFitting ← blockFindBestFitting h.mem roundedSize h.freelist
  if bestFitting ≠ 0 then
    let mem ← takeBestFitting h blockSize bestFitting
    return (u32 (bestFitting + overhead), { h with mem }, env)
  else
    extendHeap P h env blockSize

def kmalloc (h : Heap) (env : σ) (sz : Nat) : Option (Nat × Heap × σ) := doMalloc P h env sz

/-- `ADDR_ALIGN(addr)`: the first page boundary above `addr`. -/
def addrAlign (addr : Nat) : Nat := u32 ((addr &&& 0xFFFFF000) + 0x1000)

/-- The pointer that `__do_malloc_align` returns when it extends the heap. -/
def neededAddr (h : Heap) : Nat := addrAlign (u32 (h.kernelHeapTop + overhead) &&& 0xFFFFF000)

/-- The branch of `__do_malloc_align` that extends the heap. The two links of the block at the
old top are cleared, not those of the block that is published. -/
def extendHeapAlign (h : Heap) (env : σ) (roundedSize : Nat) : Option (Nat × Heap × σ) := do
  let headBlock := h.mem.load32 h.head
  let tailBlock := h.mem.load32 h.tail
  let needed := neededAddr h
  let blockAddr := sub32 needed overhead
  let realsize := u32 (sub32 blockAddr h.kernelHeapTop + overhead + roundedSize)
  let (ret, h, env) ← ksbrk P h env (i32 realsize)
  let m := h.mem
  let m := if headBlock = 0 then m.store32 h.head blockAddr else setNext m tailBlock blockAddr
  let m := setNext m ret 0
  let m := setNextfree m ret 0
  let m := m.store32 h.tail blockAddr
  let m := setSize m blockAddr roundedSize
  let m := setSize m blockAddr (blockSetFree (sizeField m blockAddr) false)
  return (needed, { h with mem := m }, env)

/-- `__do_malloc_align`. A free block is reused as in `__do_malloc`. -/
def doMallocAlign (h : Heap) (env : σ) (size : Nat) : Option (Nat × Heap × σ) := do
  if size = 0 then return (0, h, env)
  let roundedSize := ceil16 size
  let blockSize := u32 (roundedSize + overhead)
  let bestFitting ← blockFindBestFittingAlign h.mem roundedSize h.freelist
  if bestFitting ≠ 0 ∧ isAlign bestFitting then
    let mem ← takeBestFitting h blockSize bestFitting
    return (u32 (bestFitting + overhead), { h with mem }, env)
  else
    extendHeapAlign P h env roundedSize

def kmallocAlign (h : Heap) (env : σ) (size : Nat) : Option (Nat × Heap × σ) :=
  doMallocAlign P h env size

/-- `memset(ptr, 0, num)`. The addresses wrap around at the end of the address space. -/
def memsetZero (m : Bytes) (ptr num : Nat) : Bytes := fun x =>
  if x < 2 ^ 32 ∧ sub32 x ptr < num then 0 else m x

def kcalloc (h : Heap) (env : σ) (num size : Nat) : Option (Nat × Heap × σ) := do
  let (ptr, h, env) ← kmalloc P h env (u32 (num * size))
  if ptr ≠ 0 then
    return (ptr, { h with mem := memsetZero h.mem ptr (u32 (num * size)) }, env)
  else return (ptr, h, env)

end

section

def doFree (h : Heap) (ptr : Nat) : Option Heap := do
  let m := h.mem
  let tailBlock := m.load32 h.tail
  let curr := sub32 ptr overhead
  let prev ← blockGetPreviousBlock m curr h.head
  let next := blockGetNextBlock m curr h.tail
  if blockIsFree m prev && blockIsFree m next then
    let m := setSize m prev (u32 (blockGetRealSize (sizeField m prev) + 2 * overhead +
      blockGetRealSize (sizeField m curr) + blockGetRealSize (sizeField m next)))
    let m := setSize m prev (blockSetFree (sizeField m prev) true)
    let m := setNext m prev (blockGetNextBlock m next h.tail)
    let m := if tailBlock = next then m.store32 h.tail prev else m
    let mem ← blockRemoveFromFreelist m next h.freelist
    return { h with mem }
  else if blockIsFree m prev then
    let m := setSize m prev (u32 (blockGetRealSize (sizeField m prev) + overhead +
      blockGetRealSize (sizeField m curr)))
    let m := setSize m prev (blockSetFree (sizeField m prev) true)
    let m := setNext m prev next
    let mem := if tailBlock = curr then m.store32 h.tail prev else m
    return { h with mem }
  else if blockIsFree m next then
    let m := setSize m curr (u32 (blockGetRealSize (sizeField m curr) + overhead +
      blockGetRealSize (sizeField m next)))
    let m := setSize m curr (blockSetFree (sizeField m curr) true)
    let m := setNext m curr (blockGetNextBlock m next h.tail)
    let m := if tailBlock = next then m.store32 h.tail curr else m
    let m ← blockRemoveFromFreelist m next h.freelist
    return { h with mem := blockAddToFreelist m curr h.freelist }
  else
    let m := setSize m curr (blockSetFree (sizeField m curr) true)
    return { h with mem := blockAddToFreelist m curr h.freelist }

def kfree (h : Heap) (ptr : Nat) : Option Heap := doFree h ptr

end

/-- The heap starts as three zero words on a freshly mapped page. -/
def kheapInit {σ : Type} (P : PageProvider σ) (mem : Bytes) (env : σ) (bootInfo : BootInfo) :
    Option (Heap × σ) := do
  let h : Heap :=
    { mem
      vmStart := bootInfo.heapStart
      vmEnd := bootInfo.heapEnd
      vmFlags := pmlKernelAccess
      kernelHeapTop := bootInfo.heapStart }
  let allocated := 3 * 4
  let (h, env) ← vmmCreatePage P h env h.kernelHeapTop
  return ({ h with
    mem := h.mem.fill h.kernelHeapTop allocated 0
    kernelHeapTop := u32 (h.kernelHeapTop + allocated) }, env)

end Hos.Kheap
