import Hos.Memory.Kheap.Run

/-!
# Full coalescing

No two neighbouring blocks of the heap are free. The layout carries this fact
along every run; here it is read off as a property of the memory. It makes the
branch of `__do_malloc` that merges the rest of a chunk with the free block
after it unreachable, and it leaves a single free block once every block has
been given back.
-/

namespace Hos.Kheap

open List Bool Option

/-- The test of `__do_malloc` for choice b): the rest of the chunk `bestFitting`
is large enough for a block and the block after the chunk is free. -/
def restMerges (h : Heap) (blockSize bestFitting : Nat) : Bool :=
  let (remainingSize, _, m) := cutBestFitting h blockSize bestFitting
  !decide (remainingSize < 8 + overhead) &&
    blockIsFree m (blockGetNextBlock h.mem bestFitting h.tail)

/-- When the test fails it does not matter what choice b) does. -/
theorem takeBestFittingBy_of_not_restMerges {h : Heap} {blockSize bestFitting : Nat}
    (hrest : restMerges h blockSize bestFitting = false)
    (merge : Heap → Bytes → Nat → Nat → Nat → Nat → Option Bytes) :
    takeBestFittingBy merge h blockSize bestFitting = takeBestFitting h blockSize bestFitting := by
  simp only [restMerges, and_eq_false_iff, not_eq_false', decide_eq_true_eq] at hrest
  obtain hsmall | hused := hrest
  · simp only [takeBestFitting, takeBestFittingBy, hsmall, if_true]
  · simp only [takeBestFitting, takeBestFittingBy, hused, false_eq_true, if_false]

section

variable {R : Nat → Nat → Prop} [Spacing R] {h : Heap} {bs : List Block} {fs : List Nat}

/-- A chunk that is reused has no free block behind it. -/
theorem Layout.not_restMerges (lay : Layout R h.mem h.vmStart h.kernelHeapTop bs fs) {n best : Nat}
    (hbest : blockFindBestFitting h.mem n h.freelist = some best) (hne : best ≠ 0)
    (blockSize : Nat) (hn : n % 16 = 0) : restMerges h blockSize best = false := by
  obtain hnone | ⟨l, b, r, rfl, hfit, -, hfound⟩ := findBestFitting_cases lay n
  · rw [hnone, some.injEq] at hbest
    omega
  · cases hfound.symm.trans hbest
    have hfree := ((lay.blockIsFit_iff (mem_append_right l mem_cons_self) hn).mp hfit).2
    have hnext : blockGetNextBlock h.mem b.addr h.tail = (r.map Block.addr).headD 0 := lay.following
    simp only [restMerges, cutBestFitting, hnext, setSize_setSize,
      following_notFree_setSize lay hfree, Bool.and_false]

theorem Layout.isChain_notFree (lay : Layout R h.mem h.vmStart h.kernelHeapTop bs fs) :
    (bs.map Block.addr).IsChain fun b c =>
      ¬(blockIsFree h.mem b = true ∧ blockIsFree h.mem c = true) := by
  refine (isChain_map _).mpr (lay.coalesced.imp_of_mem_imp ?_)
  intro b c hb hc hnot
  rw [lay.isFree hb, lay.isFree hc]
  exact hnot

/-- Blocks that are all free and not adjacent are at most one. -/
theorem eq_singleton_of_all_free (hne : bs ≠ []) (hfree : ∀ b ∈ bs, b.free = true)
    (hchain : bs.IsChain fun b c => ¬(b.free = true ∧ c.free = true)) : ∃ b, bs = [b] := by
  cases bs with
  | nil => exact absurd rfl hne
  | cons b bs =>
    cases bs with
    | nil => exact ⟨b, rfl⟩
    | cons c bs =>
      have hpair := (isChain_cons_cons.mp hchain).1
      exact absurd ⟨hfree b (by simp), hfree c (by simp)⟩ hpair

theorem Tiled.ne_nil_iff {a e : Nat} (tiled : Tiled (· = ·) a bs e) : bs ≠ [] ↔ a ≠ e := by
  cases bs with
  | nil =>
    have heq : a = e := tiled
    simp [heq]
  | cons b bs =>
    have hlow := tiled.2.le
    have haddr := tiled.1
    simp only [ne_eq, reduceCtorEq, not_false_eq_true, true_iff]
    simp only [Block.stop, overhead] at hlow
    omega

end

section

variable {σ : Type} (P : PageProvider σ)

/-- The states of runs in which some request has been served. -/
inductive Allocating (bootInfo : BootInfo) : State σ → Prop
  | first {s s' : State σ} {size ptr : Nat} {heap : Heap} {env : σ}
      (before : Reachable P bootInfo s) (legal : Legal s (.kmalloc size))
      (served : kmalloc P s.heap s.env size = some (ptr, heap, env)) (ret : ptr ≠ 0)
      (run : perform P s (.kmalloc size) = some s') : Allocating bootInfo s'
  | step {s s' : State σ} {op : Op} (before : Allocating bootInfo s) (legal : Legal s op)
      (run : perform P s op = some s') : Allocating bootInfo s'

end

variable {σ : Type} {P : PageProvider σ} {bootInfo : BootInfo} {s : State σ}

/-- The heap has grown past its three words. -/
def Grown (h : Heap) : Prop := h.vmStart + overhead ≠ h.kernelHeapTop

section

variable {bs : List Block} {fs : List Nat} (inv : Inv bootInfo s bs fs)
include inv

theorem Inv.grown_iff :
    Grown s.heap ↔ bs ≠ [] :=
  inv.layout.tiled.ne_nil_iff.symm

theorem Inv.grown_of_live (hlive : s.live ≠ []) : Grown s.heap := by
  rw [inv.grown_iff]
  rintro rfl
  have hperm := inv.live
  rw [usedBlocks, filter_nil, map_nil, perm_nil, map_eq_nil_iff] at hperm
  exact hlive hperm

end

/-- A request that is served leaves a live pointer; any other changes nothing. -/
theorem kmalloc_grown {s' : State σ} {size : Nat} (valid : bootInfo.Valid)
    (reach : Reachable P bootInfo s) (legal : Legal s (.kmalloc size))
    (run : perform P s (.kmalloc size) = some s') (hs : size = 0 → Grown s.heap) :
    Grown s'.heap := by
  obtain ⟨bs', fs', inv'⟩ := (Reachable.step reach legal run).inv valid
  obtain ⟨bs, fs, inv⟩ := reach.inv valid
  obtain ⟨rfl, hsize⟩ | ⟨-, _, _, _, _, _, _, _, -, -, rfl, -⟩ := inv.kmalloc_cases valid legal run
  · exact hs hsize
  · exact inv'.grown_of_live (cons_ne_nil _ _)

/-- Once a request has been served the heap has grown, and it never shrinks. -/
theorem Allocating.reachable_grown (valid : bootInfo.Valid) (alloc : Allocating P bootInfo s) :
    Reachable P bootInfo s ∧ Grown s.heap := by
  induction alloc with
  | first before legal served ret run =>
    refine ⟨.step before legal run, kmalloc_grown valid before legal run ?_⟩
    rintro rfl
    simp only [kmalloc, doMalloc, if_true, Option.pure_def, Option.some.injEq, Prod.mk.injEq]
      at served
    omega
  | @step s s' op before legal run ih =>
    obtain ⟨reach, hgrown⟩ := ih
    refine ⟨.step reach legal run, ?_⟩
    cases op with
    | kmalloc size => exact kmalloc_grown valid reach legal run fun _ => hgrown
    | kfree ptr =>
      obtain ⟨bs, fs, inv⟩ := reach.inv valid
      obtain ⟨size, hlive⟩ := legal
      obtain ⟨l, b, r, -, -, -, m, _, _, hfree, -⟩ := inv.kfree_spec hlive
      simp only [perform, hfree, Option.bind_eq_bind, Option.bind_some, Option.some.injEq] at run
      subst run
      exact hgrown
    | write addr byte =>
      simp only [perform, Option.some.injEq] at run
      subst run
      exact hgrown

/-- In every state of a run no two neighbouring blocks are free, so that the
merge of choice b) is never taken; and once all blocks have been given back the
heap is a single free block. -/
theorem heap_coalesced (valid : bootInfo.Valid) (reach : Reachable P bootInfo s) :
    ∃ blocks frees, WellFormed s.heap blocks frees ∧ (blocks.IsChain fun b c =>
        ¬(blockIsFree s.heap.mem b = true ∧ blockIsFree s.heap.mem c = true)) ∧
      (∀ size best, blockFindBestFitting s.heap.mem (ceil16 size) s.heap.freelist = some best →
        best ≠ 0 → restMerges s.heap (u32 (ceil16 size + overhead)) best = false ∧
          ∀ merge, takeBestFittingBy merge s.heap (u32 (ceil16 size + overhead)) best =
            takeBestFitting s.heap (u32 (ceil16 size + overhead)) best) ∧
      (Allocating P bootInfo s → s.live = [] →
        blocks = [s.heap.vmStart + overhead] ∧ frees = [s.heap.vmStart + overhead]) := by
  obtain ⟨bs, fs, inv⟩ := reach.inv valid
  refine ⟨bs.map Block.addr, fs, inv.layout.wellFormed, inv.layout.isChain_notFree, ?_, ?_⟩
  · intro size best hbest hne
    have hrest := inv.layout.not_restMerges hbest hne (u32 (ceil16 size + overhead)) ceil16_mod
    exact ⟨hrest, takeBestFittingBy_of_not_restMerges hrest⟩
  · intro alloc hlive
    have hused : usedBlocks bs = [] := by
      have hperm := inv.live
      rw [hlive, map_nil, nil_perm, map_eq_nil_iff] at hperm
      exact hperm
    have hfree : ∀ b ∈ bs, b.free = true := by
      simpa [usedBlocks] using hused
    have hne := inv.grown_iff.mp (alloc.reachable_grown valid).2
    obtain ⟨b, rfl⟩ := eq_singleton_of_all_free hne hfree inv.layout.coalesced
    have haddr : b.addr = s.heap.vmStart + overhead := inv.layout.tiled.1.symm
    have hlisted := inv.layout.listed
    rw [freeAddrs, filter_cons_of_pos (hfree b (by simp)), filter_nil, map_singleton,
      perm_singleton, haddr] at hlisted
    exact ⟨by rw [map_singleton, haddr], hlisted⟩

/-- A heap whose only block has been given back. -/
theorem heap_coalesced_after_kfree :
    ∃ s : State Unit, Allocating clearedPages kernelBootInfo s ∧ s.live = [] ∧
      ∃ blocks frees, WellFormed s.heap blocks frees ∧ (blocks.IsChain fun b c =>
          ¬(blockIsFree s.heap.mem b = true ∧ blockIsFree s.heap.mem c = true)) ∧
        (∀ size best, blockFindBestFitting s.heap.mem (ceil16 size) s.heap.freelist = some best →
          best ≠ 0 → restMerges s.heap (u32 (ceil16 size + overhead)) best = false ∧
            ∀ merge, takeBestFittingBy merge s.heap (u32 (ceil16 size + overhead)) best =
              takeBestFitting s.heap (u32 (ceil16 size + overhead)) best) ∧
        (Allocating clearedPages kernelBootInfo s → s.live = [] →
          blocks = [s.heap.vmStart + overhead] ∧ frees = [s.heap.vmStart + overhead]) := by
  obtain ⟨s₀, s, ptr, heap, env, before, legal, served, ret, run, hlive⟩ :=
    first_kmalloc 100 (by decide) (by decide)
  have hfirst := Allocating.first before legal served ret run
  have hmem : (ptr, 100) ∈ s.live := by rw [hlive]; exact mem_singleton_self _
  obtain ⟨bs, fs, inv⟩ := (hfirst.reachable_grown kernelBootInfo_valid).1.inv kernelBootInfo_valid
  obtain ⟨l, b, r, -, -, -, m, _, _, hfree, -⟩ := inv.kfree_spec hmem
  have hrun : perform clearedPages s (.kfree ptr) =
      some { s with heap := { s.heap with mem := m }
                    live := s.live.filter fun e => e.1 != ptr } := by
    simp only [perform, hfree, bind_eq_bind, bind_some]
  have hlegal : Legal s (.kfree ptr) := ⟨100, hmem⟩
  have halloc := Allocating.step hfirst hlegal hrun
  exact ⟨_, halloc, by simp [hlive],
    heap_coalesced kernelBootInfo_valid (halloc.reachable_grown kernelBootInfo_valid).1⟩

end Hos.Kheap
