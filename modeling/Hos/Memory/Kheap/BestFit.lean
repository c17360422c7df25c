import Hos.Memory.Kheap.Run

/-!
# The block that `kmalloc` chooses

A request is served from a smallest free block that is large enough, if there is one.
The sizes in the free list carry the free flag in their last bit; it does not change
the comparison with a size that is a multiple of sixteen, nor that of two free blocks.
-/

namespace Hos.Kheap

open List

/-- `b` is a smallest free block with room for `n` bytes. -/
structure IsBest (bs : List Block) (n : Nat) (b : Block) : Prop where
  mem : b ∈ bs
  free : b.free = true
  fits : n ≤ b.size
  least : ∀ c ∈ bs, c.free = true → n ≤ c.size → b.size ≤ c.size

section

variable {R : Nat → Nat → Prop} [Spacing R] {h : Heap} {bs : List Block} {fs : List Nat} {n : Nat}

/-- The scan of the free list finds a best block, or there is none. -/
theorem findBestFitting_best (lay : Layout R h.mem h.vmStart h.kernelHeapTop bs fs)
    (hn : n % 16 = 0) :
    (∃ b, IsBest bs n b ∧ blockFindBestFitting h.mem n h.freelist = some b.addr) ∨
      (∀ c ∈ bs, c.free = true → c.size < n) ∧ blockFindBestFitting h.mem n h.freelist =
        some 0 := by
  obtain ⟨best, run, ⟨rfl, hnone⟩ | ⟨hmem, hfit, hleast⟩⟩ :=
    blockFindBestFitting_spec n lay.frees fun a ha => lay.free_ne_zero ha
  · refine .inr ⟨fun c hc hfree => ?_, run⟩
    have hunfit := hnone c.addr (lay.mem_frees hc hfree)
    by_contra hlarge
    have hfit := (lay.blockIsFit_iff hc hn).mpr ⟨Nat.le_of_not_lt hlarge, hfree⟩
    cases hfit.symm.trans hunfit
  · obtain ⟨b, hb, rfl, hfree⟩ := lay.free_isBlock hmem
    have hroom := ((lay.blockIsFit_iff hb hn).mp hfit).1
    refine .inl ⟨b, ⟨hb, hfree, hroom, fun c hc hcfree hcroom => ?_⟩, run⟩
    have hle := hleast c.addr (lay.mem_frees hc hcfree)
      ((lay.blockIsFit_iff hc hn).mpr ⟨hcroom, hcfree⟩)
    rw [lay.sized b hb, lay.sized c hc, Block.word, Block.word, hfree, hcfree] at hle
    omega

end

variable {R : Nat → Nat → Prop} [Spacing R] {σ : Type} {P : PageProvider σ} {h : Heap}
    {bs : List Block} {fs : List Nat}

/-- A best block is carved up in place. Nothing outside the heap changes. -/
theorem kmalloc_of_best {l r : List Block} {b : Block} {size : Nat}
    (lay : Layout R h.mem h.vmStart h.kernelHeapTop (l ++ b :: r) fs) (env : σ) (hsize : size ≠ 0)
    (hbest : IsBest (l ++ b :: r) (ceil16 size) b)
    (hfind : blockFindBestFitting h.mem (ceil16 size) h.freelist = some b.addr) :
    ∃ m fs', kmalloc P h env size = some (b.payload, { h with mem := m }, env) ∧
      Layout R m h.vmStart h.kernelHeapTop (l ++ (carve b (ceil16 size) ++ r)) fs' ∧
      (∀ x ∈ l ++ r, ∀ y, x.payload ≤ y → y < x.stop → m y = h.mem y) ∧
      ∀ y, y < h.vmStart ∨ h.kernelHeapTop ≤ y → m y = h.mem y := by
  have hblock : u32 (ceil16 size + overhead) = ceil16 size + overhead := u32_of_lt ceil16_add_lt
  have hb : b.addr ≠ 0 := lay.addr_ne_zero hbest.mem
  have hfit := (lay.blockIsFit_iff hbest.mem ceil16_mod).mpr ⟨hbest.fits, hbest.free⟩
  obtain ⟨m, fs', htake, layout, frame, outside⟩ := takeBestFitting_carve lay ceil16_mod hfit
  have hptr : u32 (b.addr + overhead) = b.payload := by
    have hlt := lay.addr_lt hbest.mem
    exact u32_of_lt (by omega)
  refine ⟨m, fs', ?_, layout, frame, outside⟩
  simp only [kmalloc, doMalloc, hsize, if_false, hblock, hfind, Option.bind_eq_bind,
    Option.bind_some, ne_eq, hb, not_false_eq_true, if_true, htake, hptr, Option.pure_def]

omit [Spacing R] in
/-- The heap is extended if the free list has no block for the request. -/
theorem kmalloc_of_none {size : Nat} (env : σ) (hsize : size ≠ 0)
    (hfind : blockFindBestFitting h.mem (ceil16 size) h.freelist = some 0) :
    kmalloc P h env size = extendHeap P h env (ceil16 size + overhead) := by
  have hblock : u32 (ceil16 size + overhead) = ceil16 size + overhead := u32_of_lt ceil16_add_lt
  simp only [kmalloc, doMalloc, hsize, if_false, hblock, hfind, Option.bind_eq_bind,
    Option.bind_some, ne_eq, not_true_eq_false]

/-- `kmalloc` in a well-formed heap. A best block is carved up in place, with the heap top
and the pages as they were; the heap is extended only if no free block is large enough. -/
theorem kmalloc_best_fit (lay : Layout R h.mem h.vmStart h.kernelHeapTop bs fs) (env : σ)
    (size : Nat) :
    (size = 0 ∧ kmalloc P h env size = some (0, h, env)) ∨
      (size ≠ 0 ∧ ∃ l b r m fs', bs = l ++ b :: r ∧ IsBest bs (ceil16 size) b ∧
        kmalloc P h env size = some (b.payload, { h with mem := m }, env) ∧
        Layout R m h.vmStart h.kernelHeapTop (l ++ (carve b (ceil16 size) ++ r)) fs') ∨
      size ≠ 0 ∧ (∀ c ∈ bs, c.free = true → c.size < ceil16 size) ∧
        kmalloc P h env size = extendHeap P h env (ceil16 size + overhead) := by
  by_cases hsize : size = 0
  · exact .inl ⟨hsize, by rw [kmalloc, doMalloc, if_pos hsize]; rfl⟩
  refine .inr ?_
  obtain ⟨b, hbest, hfind⟩ | ⟨hnone, hfind⟩ :=
    findBestFitting_best (n := ceil16 size) lay ceil16_mod
  · obtain ⟨l, r, rfl⟩ := append_of_mem hbest.mem
    obtain ⟨m, fs', run, layout, -⟩ := kmalloc_of_best (P := P) lay env hsize hbest hfind
    exact .inl ⟨hsize, l, b, r, m, fs', rfl, hbest, run, layout⟩
  · exact .inr ⟨hsize, hnone, kmalloc_of_none env hsize hfind⟩

/-- A second request after a first one of one hundred bytes has been given back. -/
theorem kmalloc_best_fit_after_kfree :
    ∃ (h : Heap) (bs : List Block) (fs : List Nat),
      Layout (· = ·) h.mem h.vmStart h.kernelHeapTop bs fs ∧ usedBlocks bs = [] ∧
      ((50 = 0 ∧ kmalloc clearedPages h () 50 = some (0, h, ())) ∨
        (50 ≠ 0 ∧ ∃ l b r m fs', bs = l ++ b :: r ∧ IsBest bs (ceil16 50) b ∧
          kmalloc clearedPages h () 50 = some (b.payload, { h with mem := m }, ()) ∧
          Layout (· = ·) m h.vmStart h.kernelHeapTop (l ++ (carve b (ceil16 50) ++ r)) fs') ∨
        50 ≠ 0 ∧ (∀ c ∈ bs, c.free = true → c.size < ceil16 50) ∧
          kmalloc clearedPages h () 50 = extendHeap clearedPages h () (ceil16 50 + overhead)) := by
  obtain ⟨s, reach, ptr, hlive⟩ := reachable_first_kmalloc 100 (by decide) (by decide)
  obtain ⟨bs, fs, inv⟩ := reach.inv kernelBootInfo_valid
  have hmem : (ptr, 100) ∈ s.live := by rw [hlive]; exact mem_singleton_self _
  obtain ⟨l, b, r, rfl, hused, -, m, bs', fs', -, layout, hkept, -⟩ := inv.kfree_spec hmem
  refine ⟨{ s.heap with mem := m }, bs', fs', layout, ?_, kmalloc_best_fit layout () 50⟩
  have hcount := inv.live.length_eq
  rw [hlive, usedBlocks_append, usedBlocks_cons_of_used hused] at hcount
  rw [hkept, usedBlocks_append, ← length_eq_zero_iff]
  simp only [map_cons, map_nil, length_nil, length_map, length_append, length_cons] at hcount ⊢
  omega

end Hos.Kheap
