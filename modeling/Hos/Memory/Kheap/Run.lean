import Mathlib.Data.List.Nodup
import Hos.Memory.Kheap.Free
import Hos.Memory.Kheap.Malloc

/-!
# Runs of the kernel heap

A run starts with `kheap_init` and performs `kmalloc`, `kfree` of live pointers
and writes of the clients into the blocks they own. The state keeps the live
pointers with the sizes that were requested for them. One preservation lemma
per operation carries the layout along every run; the structural invariant of
the two lists and the separation of the payloads are read off from it.
-/

namespace Hos.Kheap

open List
open Option (bind_eq_bind bind_some isSome_iff_exists)

open Bytes

/-- The region of a kernel heap: it is not empty, ends inside the address space
and is small enough for an `int` increment. -/
structure BootInfo.Valid (bootInfo : BootInfo) : Prop where
  start_pos : 0 < bootInfo.heapStart
  room : bootInfo.heapStart + overhead ≤ bootInfo.heapEnd
  end_lt : bootInfo.heapEnd < 2 ^ 32
  region : bootInfo.heapEnd < bootInfo.heapStart + 2 ^ 31

/-- A heap in use: the live pointers carry the size they were requested with. -/
structure State (σ : Type) where
  heap : Heap
  env : σ
  live : List (Nat × Nat)

inductive Op where
  | kmalloc (size : Nat)
  | kfree (ptr : Nat)
  | write (addr : Nat) (byte : Byte)

/-- The bytes behind a pointer, as its block header counts them. -/
def payloadSize (h : Heap) (ptr : Nat) : Nat :=
  blockGetRealSize (sizeField h.mem (ptr - overhead))

/-- Clients free live pointers, write into live payloads, and request no more
than the region can hold. -/
def Legal {σ : Type} (s : State σ) : Op → Prop
  | .kmalloc size => s.heap.Fits size
  | .kfree ptr => ∃ size, (ptr, size) ∈ s.live
  | .write addr _ => ∃ ptr size, (ptr, size) ∈ s.live ∧ ptr ≤ addr ∧
      addr < ptr + payloadSize s.heap ptr

section

variable {σ : Type} (P : PageProvider σ)

def perform (s : State σ) : Op → Option (State σ)
  | .kmalloc size => do
      let (ptr, heap, env) ← kmalloc P s.heap s.env size
      some { heap, env, live := if ptr = 0 then s.live else (ptr, size) :: s.live }
  | .kfree ptr => do
      let heap ← kfree s.heap ptr
      some { s with heap, live := s.live.filter fun e => e.1 != ptr }
  | .write addr byte =>
    some { s with heap := { s.heap with mem := Function.update s.heap.mem addr byte } }

/-- The states of the legal runs from `kheap_init`. -/
inductive Reachable (bootInfo : BootInfo) : State σ → Prop
  | init {mem : Bytes} {heap : Heap} {env env' : σ}
      (run : kheapInit P mem env bootInfo = some (heap, env')) :
      Reachable bootInfo { heap, env := env', live := [] }
  | step {s s' : State σ} {op : Op} (before : Reachable bootInfo s) (legal : Legal s op)
      (run : perform P s op = some s') : Reachable bootInfo s'

end

/-- The invariant of a run, for the blocks `bs` and the free list `fs`. -/
structure Inv {σ : Type} (bootInfo : BootInfo) (s : State σ) (bs : List Block)
    (fs : List Nat) : Prop where
  layout : Layout (· = ·) s.heap.mem s.heap.vmStart s.heap.kernelHeapTop bs fs
  vmStart : s.heap.vmStart = bootInfo.heapStart
  vmEnd : s.heap.vmEnd = bootInfo.heapEnd
  top_le : s.heap.kernelHeapTop ≤ s.heap.vmEnd
  live : (s.live.map Prod.fst).Perm ((usedBlocks bs).map Block.payload)
  sized : ∀ e ∈ s.live, ∃ b ∈ usedBlocks bs, b.payload = e.1 ∧ (e.2 ≤ 0xFFFFFFF0 → e.2 ≤ b.size)

section

variable {σ : Type} {P : PageProvider σ} {bootInfo : BootInfo} {s s' : State σ}
  {bs : List Block} {fs : List Nat}

theorem kheapInit_spec {mem : Bytes} {heap : Heap} {env env' : σ} (valid : bootInfo.Valid)
    (run : kheapInit P mem env bootInfo = some (heap, env')) :
    Layout (· = ·) heap.mem heap.vmStart heap.kernelHeapTop [] [] ∧
      heap.vmStart = bootInfo.heapStart ∧ heap.vmEnd = bootInfo.heapEnd ∧
      heap.kernelHeapTop = bootInfo.heapStart + overhead := by
  have htop : u32 (bootInfo.heapStart + 3 * 4) = bootInfo.heapStart + overhead := by
    have hroom := valid.room
    have hend := valid.end_lt
    rw [u32_of_lt (by simp only [overhead] at hroom; omega)]
    rfl
  simp only [kheapInit, vmmCreatePage] at run
  cases hcreate : P.createPage env bootInfo.heapStart pmlKernelAccess with
  | none => simp [hcreate] at run
  | some created =>
    simp only [hcreate, htop, bind_eq_bind, bind_some, Option.pure_def,
      Option.some.injEq, Prod.mk.injEq] at run
    obtain ⟨rfl, rfl⟩ := run
    refine ⟨?_, rfl, rfl, rfl⟩
    have hroom := valid.room
    have hend := valid.end_lt
    refine ⟨valid.start_pos, by simp only []; omega, rfl, by simp, by simp, ?_, ?_, ?_, by simp,
      List.IsChain.nil⟩
    · exact load32_fill_zero (by simp only []; omega) (by simp only []; omega)
    · exact load32_fill_zero (by simp only []; omega) (by simp only []; omega)
    · exact load32_fill_zero (by simp only []; omega) (by simp only []; omega)

/-- A live pointer belongs to a used block. -/
theorem Inv.block_of_live (inv : Inv bootInfo s bs fs) {ptr size : Nat}
    (hlive : (ptr, size) ∈ s.live) : ∃ b ∈ bs, b.free = false ∧ b.payload = ptr := by
  obtain ⟨b, hb, hptr, -⟩ := inv.sized _ hlive
  obtain ⟨hmem, hused⟩ := mem_filter.mp hb
  exact ⟨b, hmem, by simpa using hused, hptr⟩

theorem Inv.payloadSize_eq (inv : Inv bootInfo s bs fs) {b : Block} (hb : b ∈ bs) :
    payloadSize s.heap b.payload = b.size := by
  rw [payloadSize, Block.payload, Nat.add_sub_cancel, inv.layout.realSize hb]

section

variable {size : Nat} (valid : bootInfo.Valid) (inv : Inv bootInfo s bs fs)
  (legal : Legal s (.kmalloc size)) (run : perform P s (.kmalloc size) = some s')
include valid inv legal run

/-- A request of no bytes changes nothing, and any other is served. -/
theorem Inv.kmalloc_cases :
    s' = s ∧ size = 0 ∨ size ≠ 0 ∧ ∃ ptr env m top bs' fs' c, ptr ≠ 0 ∧ top ≤ s.heap.vmEnd ∧
      s' = ⟨{ s.heap with mem := m, kernelHeapTop := top }, env, (ptr, size) :: s.live⟩ ∧
      Allocated (· = ·) s.heap s'.heap bs ptr (ceil16 size) bs' fs' c := by
  simp only [perform, bind_eq_bind, Option.bind_eq_some_iff, Option.some.injEq] at run
  obtain ⟨⟨ptr, heap, env⟩, hmalloc, rfl⟩ := run
  by_cases hsize : size = 0
  · simp only [kmalloc, doMalloc, hsize, if_true, Option.pure_def, Option.some.injEq,
      Prod.mk.injEq] at hmalloc
    obtain ⟨rfl, rfl, rfl⟩ := hmalloc
    exact Or.inl ⟨rfl, hsize⟩
  · obtain ⟨bs', fs', c, allocated, m, top, rfl, htop⟩ := doMalloc_spec inv.layout
      (by rw [inv.vmEnd]; exact valid.end_lt)
      (by rw [inv.vmEnd, inv.vmStart]; exact valid.region) inv.top_le hsize legal hmalloc
    have hptr : ptr ≠ 0 := by
      rw [← allocated.payload, Block.payload, overhead]
      omega
    exact Or.inr ⟨hsize, ptr, env, m, top, bs', fs', c, hptr, htop, by rw [if_neg hptr], allocated⟩

theorem inv_kmalloc : ∃ bs' fs', Inv bootInfo s' bs' fs' := by
  obtain ⟨rfl, -⟩ | ⟨-, ptr, env, m, top, bs', fs', c, -, htop, rfl, allocated⟩ :=
    inv.kmalloc_cases valid legal run
  · exact ⟨bs, fs, inv⟩
  · refine ⟨bs', fs', allocated.layout, inv.vmStart, inv.vmEnd, htop, ?_, ?_⟩
    · have hcons := inv.live.cons ptr
      rw [← allocated.payload, ← map_cons] at hcons
      simpa [allocated.payload] using hcons.trans (allocated.used.map Block.payload).symm
    · intro e he
      rcases mem_cons.mp he with rfl | he
      · refine ⟨c, allocated.used.mem_iff.mpr (by simp), allocated.payload, ?_⟩
        intro hsmall
        exact Nat.le_trans (le_ceil16 hsmall) allocated.size
      · obtain ⟨b, hb, hbe⟩ := inv.sized e he
        exact ⟨b, allocated.used.mem_iff.mpr (by simp [hb]), hbe⟩

end

/-- Freeing a live pointer returns, for whatever reason it is called. -/
theorem Inv.kfree_spec (inv : Inv bootInfo s bs fs) {ptr size : Nat}
    (hlive : (ptr, size) ∈ s.live) :
    ∃ l b r, bs = l ++ b :: r ∧ b.free = false ∧ b.payload = ptr ∧
      ∃ m bs' fs', kfree s.heap ptr = some { s.heap with mem := m } ∧
        Layout (· = ·) m s.heap.vmStart s.heap.kernelHeapTop bs' fs' ∧
        usedBlocks bs' = usedBlocks (l ++ r) ∧
        TouchesHeaders (IsHeader s.heap.vmStart bs) s.heap.mem m := by
  obtain ⟨b, hb, hused, rfl⟩ := inv.block_of_live hlive
  obtain ⟨l, r, rfl⟩ := append_of_mem hb
  exact ⟨l, b, r, rfl, hused, rfl, doFree_spec inv.layout hused⟩

theorem inv_kfree {ptr : Nat} (inv : Inv bootInfo s bs fs) (legal : Legal s (.kfree ptr))
    (run : perform P s (.kfree ptr) = some s') : ∃ bs' fs', Inv bootInfo s' bs' fs' := by
  obtain ⟨size, hlive⟩ := legal
  obtain ⟨l, b, r, rfl, hused, rfl, m, bs', fs', hfree, layout, hblocks, -⟩ := inv.kfree_spec hlive
  simp only [perform, hfree, bind_eq_bind, bind_some, Option.some.injEq] at run
  subst run
  have hbefore : l ++ b :: r = l ++ b :: ([] ++ r) := rfl
  have hold : usedBlocks (l ++ b :: r) = usedBlocks l ++ b :: usedBlocks r := by
    rw [usedBlocks_append, usedBlocks_cons_of_used hused]
  have hne : ∀ x ∈ usedBlocks (l ++ r), x.payload ≠ b.payload := by
    intro x hx
    have haddr := (inv.layout.others hbefore (mem_filter.mp hx).1).2
    simp only [Block.payload]
    omega
  rw [usedBlocks_append] at hblocks hne
  have hkept : (usedBlocks (l ++ b :: r)).filter (fun x => x.payload != b.payload) =
      usedBlocks l ++ usedBlocks r := by
    rw [hold, filter_append, filter_cons_of_neg (by simp), ← filter_append]
    exact filter_eq_self.mpr fun x hx => by simpa using hne x hx
  refine ⟨bs', fs', layout, inv.vmStart, inv.vmEnd, inv.top_le, ?_, ?_⟩
  · have hperm := inv.live.filter fun p => p != b.payload
    rw [filter_map, filter_map] at hperm
    rw [hblocks, ← hkept]
    exact hperm
  · intro e he
    obtain ⟨hmem, hptr⟩ := mem_filter.mp he
    obtain ⟨x, hx, hxe, hsize⟩ := inv.sized e hmem
    refine ⟨x, ?_, hxe, hsize⟩
    rw [hblocks, ← hkept]
    exact mem_filter.mpr ⟨hx, by rw [hxe]; exact hptr⟩

theorem inv_write {addr : Nat} {byte : Byte} (inv : Inv bootInfo s bs fs)
    (legal : Legal s (.write addr byte)) (run : perform P s (.write addr byte) = some s') :
    Inv bootInfo s' bs fs := by
  obtain ⟨ptr, size, hlive, hlow, hhigh⟩ := legal
  obtain ⟨b, hb, hused, rfl⟩ := inv.block_of_live hlive
  simp only [perform, Option.some.injEq] at run
  subst run
  have hstop : addr < b.stop := by
    rw [inv.payloadSize_eq hb] at hhigh
    exact hhigh
  refine ⟨inv.layout.congr ?_, inv.vmStart, inv.vmEnd, inv.top_le, inv.live, inv.sized⟩
  intro u hu x hlo hhi
  have hout := inv.layout.tiled.payload_outside hb hlow hstop u hu
  exact Function.update_of_ne (by omega) _ _

theorem Reachable.inv (valid : bootInfo.Valid) (reach : Reachable P bootInfo s) :
    ∃ bs fs, Inv bootInfo s bs fs := by
  induction reach with
  | init run =>
    obtain ⟨layout, hstart, hend, htop⟩ := kheapInit_spec valid run
    have hroom := valid.room
    exact ⟨[], [], layout, hstart, hend, by rw [htop, hend]; exact hroom, List.Perm.nil, by simp⟩
  | @step s s' op before legal run ih =>
    obtain ⟨bs, fs, inv⟩ := ih
    cases op with
    | kmalloc size => exact inv_kmalloc valid inv legal run
    | kfree ptr => exact inv_kfree inv legal run
    | write addr byte => exact ⟨bs, fs, inv_write inv legal run⟩

end

section

/-- The two lists of a heap, as addresses: the blocks reached from the head
through `next`, and the blocks reached from the free-list word through
`nextfree`. -/
structure WellFormed (h : Heap) (blocks frees : List Nat) : Prop where
  walk : Chain h.mem 8 h.head blocks 0
  increasing : blocks.Pairwise (· < ·)
  gapFree : blocks.IsChain fun b c => c = b + overhead + blockGetRealSize (sizeField h.mem b)
  tail : h.mem.load32 h.tail = blocks.getLast?.getD 0
  top : ∀ b ∈ blocks.getLast?,
    b + overhead + blockGetRealSize (sizeField h.mem b) = h.kernelHeapTop
  freelist : Chain h.mem 4 h.freelist frees 0
  once : frees.Nodup
  listed : ∀ a, a ∈ frees ↔ a ∈ blocks ∧ blockIsFree h.mem a = true

section

variable {a e : Nat} {bs : List Block} (h : Tiled (· = ·) a bs e)
include h

theorem Tiled.increasing : (bs.map Block.addr).Pairwise (· < ·) := by
  induction bs generalizing a with
  | nil => exact List.Pairwise.nil
  | cons b bs ih =>
    refine pairwise_cons.mpr ⟨?_, ih h.2⟩
    intro x hx
    obtain ⟨c, hc, rfl⟩ := mem_map.mp hx
    have hlow := (h.2.bounds hc).1
    simp only [Block.stop, overhead] at hlow
    omega

theorem Tiled.gapFree : bs.IsChain fun b c => c.addr = b.stop := by
  induction bs generalizing a with
  | nil => exact List.IsChain.nil
  | cons b bs ih =>
    refine isChain_cons.mpr ⟨?_, ih h.2⟩
    intro c hc
    cases bs with
    | nil => simp at hc
    | cons d bs =>
      obtain rfl : d = c := by simpa using hc
      exact h.2.1.symm

theorem Tiled.last_stop : ∀ b ∈ bs.getLast?, b.stop = e := by
  intro b hb
  rcases eq_nil_or_concat' bs with rfl | ⟨bs₀, z, rfl⟩
  · simp at hb
  · obtain rfl : z = b := by simpa using hb
    exact h.around.2

end

theorem Layout.wellFormed {h : Heap} {bs : List Block} {fs : List Nat}
    (lay : Layout (· = ·) h.mem h.vmStart h.kernelHeapTop bs fs) :
    WellFormed h (bs.map Block.addr) fs := by
  refine ⟨lay.blocks, lay.tiled.increasing, ?_, lay.tail, ?_, lay.frees, lay.nodup,
    lay.mem_frees_iff⟩
  · refine (isChain_map _).mpr (lay.tiled.gapFree.imp_of_mem_imp ?_)
    intro b c hb _ hnext
    rw [hnext, lay.stop_eq hb]
  · intro a ha
    rw [getLast?_map] at ha
    obtain ⟨b, hb, rfl⟩ := Option.mem_map.mp ha
    rw [lay.stop_eq (mem_of_mem_getLast? hb), lay.tiled.last_stop b hb]

variable {σ : Type} {P : PageProvider σ} {bootInfo : BootInfo} {s : State σ}

/-- In every state of a run both lists are finite, the blocks tile the heap up
to its top, the free list holds exactly the free blocks, and hence every walk
of the two lists, and every operation built from them, returns. -/
theorem heap_wellFormed (valid : bootInfo.Valid) (reach : Reachable P bootInfo s) :
    ∃ blocks frees, WellFormed s.heap blocks frees ∧
      (∀ b ∈ blocks, (blockGetPreviousBlock s.heap.mem b s.heap.head).isSome) ∧
      (∀ b ∈ frees, (blockRemoveFromFreelist s.heap.mem b s.heap.freelist).isSome) ∧
      (∀ e ∈ s.live, (kfree s.heap e.1).isSome) ∧
      (P.Total → ∀ size, (kmalloc P s.heap s.env size).isSome) := by
  obtain ⟨bs, fs, inv⟩ := reach.inv valid
  refine ⟨bs.map Block.addr, fs, inv.layout.wellFormed, ?_, ?_, ?_, ?_⟩
  · intro a ha
    obtain ⟨b, hb, rfl⟩ := mem_map.mp ha
    obtain ⟨l, r, rfl⟩ := append_of_mem hb
    exact isSome_iff_exists.mpr ⟨_, inv.layout.previous⟩
  · intro a ha
    obtain ⟨b, hb, rfl, hfree⟩ := inv.layout.free_isBlock ha
    obtain ⟨l, r, hbs⟩ := append_of_mem hb
    obtain ⟨m, -, run, -⟩ := inv.layout.remove_spec hbs hfree inv.layout.frees
    exact isSome_iff_exists.mpr ⟨m, run⟩
  · rintro ⟨ptr, size⟩ he
    obtain ⟨l, b, r, -, -, -, m, bs', fs', run, -⟩ := inv.kfree_spec he
    exact isSome_iff_exists.mpr ⟨_, run⟩
  · intro total size
    exact doMalloc_isSome inv.layout total s.env size

end

section

/-- Physical memory that never runs out and hands out cleared pages. -/
def clearedPages : PageProvider Unit where
  createPage _ _ _ := some (true, ())

theorem clearedPages_total : clearedPages.Total := fun _ _ _ => rfl

theorem kernelBootInfo_valid : kernelBootInfo.Valid := ⟨by decide, by decide, by decide, by decide⟩

section

variable (size : Nat) (hsize : size ≠ 0) (hfit : ceil16 size + overhead + overhead ≤ 0x20000000)
include size hsize hfit

/-- A first request after boot is served, whatever its size, if the wrapped
block size fits into the region. -/
theorem first_kmalloc :
    ∃ (s s' : State Unit) (ptr : Nat) (heap : Heap) (env : Unit),
      Reachable clearedPages kernelBootInfo s ∧
      Legal s (.kmalloc size) ∧ kmalloc clearedPages s.heap s.env size = some (ptr, heap, env) ∧
        ptr ≠ 0 ∧ perform clearedPages s (.kmalloc size) = some s' ∧ s'.live = [(ptr, size)] := by
  have hinit : ∃ heap env, kheapInit clearedPages (fun _ => 0) () kernelBootInfo =
      some (heap, env) := ⟨_, _, rfl⟩
  obtain ⟨heap, env, hrun⟩ := hinit
  obtain ⟨layout, hstart, hend, htop⟩ := kheapInit_spec kernelBootInfo_valid hrun
  have hfits : heap.Fits size := by
    intro _
    rw [htop, hend]
    simp only [kernelBootInfo]
    omega
  obtain ⟨⟨ptr, heap', env'⟩, hmalloc⟩ := isSome_iff_exists.mp
    (doMalloc_isSome layout clearedPages_total env size)
  have hptr : ptr ≠ 0 := by
    obtain ⟨bs, fs, c, allocated, -⟩ := doMalloc_spec layout (by rw [hend]; decide)
      (by rw [hend, hstart]; decide) (by rw [htop, hend]; decide) hsize hfits hmalloc
    rw [← allocated.payload, Block.payload, overhead]
    omega
  have hstep : perform clearedPages { heap, env, live := [] } (.kmalloc size) =
      some { heap := heap', env := env', live := [(ptr, size)] } := by
    simp only [perform, kmalloc, hmalloc, bind_eq_bind, bind_some, hptr, if_false]
  exact ⟨_, _, ptr, heap', env', .init hrun, hfits, hmalloc, hptr, hstep, rfl⟩

theorem reachable_first_kmalloc :
    ∃ s : State Unit, Reachable clearedPages kernelBootInfo s ∧ ∃ ptr, s.live = [(ptr, size)] := by
  obtain ⟨s, s', ptr, heap, env, reach, legal, -, -, run, hlive⟩ := first_kmalloc size hsize hfit
  exact ⟨s', .step reach legal run, ptr, hlive⟩

end

/-- The invariant at work on a heap with one live block. -/
theorem heap_wellFormed_first_kmalloc :
    ∃ s : State Unit, Reachable clearedPages kernelBootInfo s ∧ s.live ≠ [] ∧
      ∃ blocks frees, WellFormed s.heap blocks frees ∧
        (∀ b ∈ blocks, (blockGetPreviousBlock s.heap.mem b s.heap.head).isSome) ∧
        (∀ b ∈ frees, (blockRemoveFromFreelist s.heap.mem b s.heap.freelist).isSome) ∧
        (∀ e ∈ s.live, (kfree s.heap e.1).isSome) ∧
        (clearedPages.Total → ∀ size, (kmalloc clearedPages s.heap s.env size).isSome) := by
  obtain ⟨s, reach, ptr, hlive⟩ := reachable_first_kmalloc 100 (by decide) (by decide)
  exact ⟨s, reach, by simp [hlive], heap_wellFormed kernelBootInfo_valid reach⟩

end

variable {σ : Type}

/-- The payloads of the live pointers are disjoint, each has at least the size that was
requested and lies inside the heap region. -/
def Separated (s : State σ) : Prop :=
  s.live.Pairwise (fun e f =>
      e.1 + payloadSize s.heap e.1 ≤ f.1 ∨ f.1 + payloadSize s.heap f.1 ≤ e.1) ∧
    ∀ e ∈ s.live, e.2 ≤ payloadSize s.heap e.1 ∧ s.heap.vmStart ≤ e.1 ∧
      e.1 + payloadSize s.heap e.1 ≤ s.heap.vmEnd

/-- No further `kmalloc`, and no `kfree` of another pointer, changes a byte of
a live payload. -/
def PayloadsKept (P : PageProvider σ) (s : State σ) : Prop :=
  ∀ op s', (∀ addr byte, op ≠ .write addr byte) → Legal s op → perform P s op = some s' →
    ∀ e ∈ s.live, e ∈ s'.live → ∀ x, e.1 ≤ x → x < e.1 + payloadSize s.heap e.1 →
      s'.heap.mem x = s.heap.mem x

variable {P : PageProvider σ} {bootInfo : BootInfo} {s s' : State σ} {bs : List Block}
  {fs : List Nat}

section

variable (inv : Inv bootInfo s bs fs)
include inv

theorem Inv.live_nodup : (s.live.map Prod.fst).Nodup := by
  refine inv.live.nodup_iff.mpr ?_
  have haddrs : ((usedBlocks bs).map Block.addr).Nodup :=
    inv.layout.tiled.addrs_nodup.sublist (filter_sublist.map Block.addr)
  have hmap : (usedBlocks bs).map Block.payload = ((usedBlocks bs).map Block.addr).map
      (· + overhead) := by
    rw [map_map]
    rfl
  rw [hmap]
  exact List.Nodup.map (fun a b hab => Nat.add_right_cancel hab) haddrs

/-- The block behind a live pointer, large enough for any request that was not
rounded beyond the address space. -/
theorem Inv.block_of_request {e : Nat × Nat} (he : e ∈ s.live) :
    ∃ b ∈ usedBlocks bs, b ∈ bs ∧ b.payload = e.1 ∧ payloadSize s.heap e.1 = b.size ∧
      (e.2 ≤ 0xFFFFFFF0 → e.2 ≤ b.size) := by
  obtain ⟨b, hb, hptr, hsize⟩ := inv.sized e he
  have hmem := (mem_filter.mp hb).1
  exact ⟨b, hb, hmem, hptr, hptr ▸ inv.payloadSize_eq hmem, hsize⟩

theorem Inv.separated (hsmall : ∀ e ∈ s.live, e.2 ≤ 0xFFFFFFF0) : Separated s := by
  constructor
  · refine (pairwise_map.mp inv.live_nodup).imp_of_mem ?_
    intro e f he hf hne
    obtain ⟨b, -, hb, hbe, hbsize, -⟩ := inv.block_of_request he
    obtain ⟨c, -, hc, hcf, hcsize, -⟩ := inv.block_of_request hf
    simp only [Block.payload] at hbe hcf
    rcases inv.layout.tiled.disjoint hb hc with rfl | hlt | hlt
    · omega
    · simp only [Block.stop] at hlt
      omega
    · simp only [Block.stop] at hlt
      omega
  · intro e he
    obtain ⟨b, -, hb, hbe, hbsize, hble⟩ := inv.block_of_request he
    have hbounds := inv.layout.addr_bounds hb
    have htop := inv.top_le
    have hrequest := hble (hsmall e he)
    simp only [Block.payload] at hbe
    omega

end

/-- Allocation and release write to headers, to free blocks and above the heap
top, never to a used block. -/
theorem Inv.payloadsKept (valid : bootInfo.Valid) (inv : Inv bootInfo s bs fs) :
    PayloadsKept P s := by
  intro op s' hcall legal run e he he' x hlow hhigh
  obtain ⟨b, hbused, hb, hbe, hbsize, -⟩ := inv.block_of_request he
  have hstop : x < b.stop := by
    simp only [Block.payload, Block.stop] at hbe ⊢
    omega
  rw [← hbe] at hlow
  cases op with
  | write addr byte => exact absurd rfl (hcall addr byte)
  | kfree ptr =>
    obtain ⟨size, hlive⟩ := legal
    obtain ⟨-, -, -, -, -, -, m, -, -, hfree, -, -, touches⟩ := inv.kfree_spec hlive
    simp only [perform, hfree, bind_eq_bind, bind_some, Option.some.injEq] at run
    subst run
    exact inv.layout.tiled.payload_eq touches hb hlow hstop
  | kmalloc size =>
    obtain ⟨rfl, -⟩ | ⟨-, _, _, _, _, _, _, _, -, -, -, allocated⟩ :=
      inv.kmalloc_cases valid legal run
    · rfl
    · exact allocated.frame b hbused x hlow hstop

/-- The live payloads of a run are separated and kept exactly as long as every
live size can be rounded up to a multiple of sixteen. -/
theorem heap_separation_iff (valid : bootInfo.Valid) (reach : Reachable P bootInfo s) :
    Separated s ∧ PayloadsKept P s ↔ ∀ e ∈ s.live, e.2 ≤ 0xFFFFFFF0 := by
  obtain ⟨bs, fs, inv⟩ := reach.inv valid
  constructor
  · rintro ⟨⟨-, hbacked⟩, -⟩ e he
    obtain ⟨b, -, hb, -, hbsize, -⟩ := inv.block_of_request he
    have hle := (hbacked e he).1
    have hlow := (inv.layout.addr_bounds hb).1
    have hhigh := inv.layout.addr_lt hb
    simp only [overhead] at hlow hhigh
    omega
  · intro hsmall
    exact ⟨inv.separated hsmall, inv.payloadsKept valid⟩

/-- Separation after a first request of one hundred bytes. -/
theorem heap_separation_first_kmalloc :
    ∃ s : State Unit, Reachable clearedPages kernelBootInfo s ∧ s.live ≠ [] ∧
      (Separated s ∧ PayloadsKept clearedPages s ↔ ∀ e ∈ s.live, e.2 ≤ 0xFFFFFFF0) := by
  obtain ⟨s, reach, ptr, hlive⟩ := reachable_first_kmalloc 100 (by decide) (by decide)
  exact ⟨s, reach, by simp [hlive], heap_separation_iff kernelBootInfo_valid reach⟩

/-- A request of `0xFFFFFFFF` bytes is rounded to zero and served by a block
that is far too small for it. -/
theorem kmalloc_wrapped_size :
    ∃ (s : State Unit) (ptr : Nat), Reachable clearedPages kernelBootInfo s ∧
      s.live = [(ptr, 0xFFFFFFFF)] ∧ ptr ≠ 0 ∧ payloadSize s.heap ptr < 0x20000000 ∧
      s.heap.vmEnd < ptr + 0xFFFFFFFF ∧ ¬Separated s := by
  obtain ⟨s, reach, ptr, hlive⟩ := reachable_first_kmalloc 0xFFFFFFFF (by decide) (by decide)
  obtain ⟨bs, fs, inv⟩ := reach.inv kernelBootInfo_valid
  have hmem : (ptr, 0xFFFFFFFF) ∈ s.live := by simp [hlive]
  obtain ⟨b, hb, -, hbe⟩ := inv.block_of_live hmem
  have hbounds := inv.layout.addr_bounds hb
  have htop := inv.top_le
  have hstart := inv.vmStart
  have hend := inv.vmEnd
  simp only [kernelBootInfo] at hstart hend
  have hptr : ptr = b.addr + 12 := hbe.symm
  have hpayload : payloadSize s.heap ptr = b.size := by
    rw [← hbe, inv.payloadSize_eq hb]
  simp only [overhead] at hbounds
  refine ⟨s, ptr, reach, hlive, by omega, by omega, by omega, ?_⟩
  rintro ⟨-, hbacked⟩
  have hle : 0xFFFFFFFF ≤ payloadSize s.heap ptr := (hbacked _ hmem).1
  omega

end Hos.Kheap
