import Hos.Memory.Kheap.BestFit

/-!
# `kmalloc_align`

The aligned allocator takes a free block or extends the heap. A free block counts
as aligned if the address `sizeof(block_t)` blocks behind it lies on a page
boundary, not if its payload does. The extension puts the new header right in
front of the next page boundary, which leaves a gap behind the old top, and clears
the links at the old top instead of those of the new block.
-/

namespace Hos.Kheap

open Option

section

/-- The first page boundary above `a`. -/
def pageAfter (a : Nat) : Nat := (a / 4096 + 1) * 4096

theorem lt_pageAfter (a : Nat) : a < pageAfter a := by
  simp only [pageAfter]
  omega

theorem pageAfter_mod (a : Nat) : pageAfter a % 4096 = 0 := Nat.mul_mod_left _ _

theorem isAlign_iff {a : Nat} : isAlign a = true ↔ (a + 144) % 4096 = 0 := by
  have hmask : u32 (a + overhead * overhead) &&& 0x00000FFF = u32 (a + 144) % 4096 :=
    Nat.and_two_pow_sub_one_eq_mod _ 12
  rw [isAlign, hmask, beq_iff_eq, u32]
  omega

theorem neededAddr_eq {h : Heap} (hlt : pageAfter (h.kernelHeapTop + overhead) < 2 ^ 32) :
    neededAddr h = pageAfter (h.kernelHeapTop + overhead) := by
  have hbelow := lt_pageAfter (h.kernelHeapTop + overhead)
  have hpage : ∀ a < 2 ^ 32, a &&& 0xFFFFF000 = a / 4096 * 4096 := by
    intro a ha
    have hmask := and_highMask (k := 12) ha (by decide)
    simpa using hmask
  have hinner := hpage (h.kernelHeapTop + overhead) (by omega)
  rw [neededAddr, addrAlign, u32_of_lt (n := h.kernelHeapTop + overhead) (by omega), hinner,
    hpage _ (by omega), Nat.mul_div_cancel _ (by decide)]
  simp only [pageAfter] at hlt ⊢
  rw [u32_of_lt (by omega)]
  omega

end

/-- The request is served from a free block. -/
def Heap.ReusesAlign (h : Heap) (size : Nat) : Prop :=
  ∃ best, blockFindBestFittingAlign h.mem (ceil16 size) h.freelist = some best ∧ best ≠ 0 ∧
    isAlign best = true

/-- The size can be rounded, and an extension ends below the end of the region. -/
def Heap.FitsAlign (h : Heap) (size : Nat) : Prop :=
  size ≤ 0xFFFFFFF0 ∧ (¬h.ReusesAlign size →
    pageAfter (h.kernelHeapTop + overhead) + ceil16 size ≤ h.vmEnd)

/-- The word that will be the successor of the new block reads as zero once the pages behind it
have been mapped. -/
def Heap.CleanAlign {σ : Type} (P : PageProvider σ) (h : Heap) (env : σ) (size : Nat) : Prop :=
  ∀ ret h' env', ksbrk P h env
    (i32 (pageAfter (h.kernelHeapTop + overhead) + ceil16 size - h.kernelHeapTop)) =
      some (ret, h', env') →
    next (clearLinks h'.mem h.kernelHeapTop) (pageAfter (h.kernelHeapTop + overhead) - overhead) = 0

variable {R : Nat → Nat → Prop} [Spacing R] {σ : Type} {P : PageProvider σ} {h : Heap}
    {bs : List Block} {fs : List Nat} {size : Nat}

/-- The scan returns in a well-formed heap. A block it reuses is large enough: those that are
not are only taken when they are not aligned either. -/
theorem findBestFittingAlign_cases (lay : Layout R h.mem h.vmStart h.kernelHeapTop bs fs)
    (n : Nat) :
    ∃ best, blockFindBestFittingAlign h.mem n h.freelist = some best ∧
      (best ≠ 0 → isAlign best = true →
        ∃ b ∈ bs, b.addr = best ∧ blockIsFit h.mem b.addr n = true) := by
  obtain ⟨best, run, hbest⟩ := blockFindBestFittingAlign_spec n lay.frees fun a ha =>
    lay.free_ne_zero ha
  refine ⟨best, run, fun hne halign => ?_⟩
  rcases hbest with ⟨rfl, -⟩ | ⟨hmem, hfit, -⟩
  · omega
  · obtain ⟨b, hb, rfl, -⟩ := lay.free_isBlock hmem
    exact ⟨b, hb, rfl, by simpa [halign] using hfit⟩

/-- Reusing a free block is what `kmalloc` does with it. -/
theorem kmallocAlign_of_reuses (lay : Layout R h.mem h.vmStart h.kernelHeapTop bs fs) (env : σ)
    (hsize : size ≠ 0) (hreuse : h.ReusesAlign size) :
    ∃ l b r m fs', bs = l ++ b :: r ∧ b.free = true ∧ ceil16 size ≤ b.size ∧
      (b.addr + 144) % 4096 = 0 ∧
      kmallocAlign P h env size = some (b.payload, { h with mem := m }, env) ∧
      Layout R m h.vmStart h.kernelHeapTop (l ++ (carve b (ceil16 size) ++ r)) fs' ∧
      (∀ x ∈ l ++ r, ∀ y, x.payload ≤ y → y < x.stop → m y = h.mem y) ∧
      ∀ y, y < h.vmStart ∨ h.kernelHeapTop ≤ y → m y = h.mem y := by
  obtain ⟨best, hfind, hne, halign⟩ := hreuse
  obtain ⟨best', hfind', hcases⟩ := findBestFittingAlign_cases lay (ceil16 size)
  cases hfind.symm.trans hfind'
  obtain ⟨b, hb, rfl, hfit⟩ := hcases hne halign
  obtain ⟨hle, hfree⟩ := (lay.blockIsFit_iff hb ceil16_mod).mp hfit
  obtain ⟨l, r, rfl⟩ := List.append_of_mem hb
  obtain ⟨m, fs', htake, layout, frame, outside⟩ := takeBestFitting_carve lay ceil16_mod hfit
  have hblock : u32 (ceil16 size + overhead) = ceil16 size + overhead := u32_of_lt ceil16_add_lt
  have hptr : u32 (b.addr + overhead) = b.payload := by
    have hlt := lay.addr_lt hb
    exact u32_of_lt (by omega)
  refine ⟨l, b, r, m, fs', rfl, hfree, hle, isAlign_iff.mp halign, ?_, layout, frame, outside⟩
  simp only [kmallocAlign, doMallocAlign, hsize, if_false, hblock, hfind, bind_eq_bind,
    bind_some, ne_eq, hne, not_false_eq_true, halign, and_self, if_true, htake, hptr, pure_def]

omit [Spacing R] in
/-- The payload of a block that counts as aligned is not. -/
theorem payload_not_aligned {b : Block} (halign : (b.addr + 144) % 4096 = 0) :
    b.payload % 4096 ≠ 0 := by
  simp only [Block.payload, overhead]
  omega

/-- Without reuse the heap is extended up to the rounded size behind the page boundary, and the
new block is published in front of it. -/
theorem kmallocAlign_of_extends (lay : Layout R h.mem h.vmStart h.kernelHeapTop bs fs)
    (env : σ) {a : Nat} (hsize : size ≠ 0) (hnot : ¬h.ReusesAlign size)
    (ha : a + overhead = pageAfter (h.kernelHeapTop + overhead))
    (hfit : a + overhead + ceil16 size ≤ h.vmEnd) (hend : h.vmEnd < 2 ^ 32)
    (hregion : h.vmEnd < h.vmStart + 2 ^ 31) :
    kmallocAlign P h env size =
      (ksbrk P h env (i32 (a + overhead + ceil16 size - h.kernelHeapTop))).map fun s =>
        (a + overhead, { s.2.1 with
          mem := publishBlock (clearLinks s.2.1.mem h.kernelHeapTop) h.vmStart
            (h.mem.load32 h.vmStart) (h.mem.load32 (h.vmStart + 4)) a (ceil16 size) }, s.2.2) := by
  have hbelow := lt_pageAfter (h.kernelHeapTop + overhead)
  have hlow := lay.tiled.le
  have hneeded : neededAddr h = a + overhead := (neededAddr_eq (by omega)).trans ha.symm
  have hblock : sub32 (a + overhead) overhead = a := by
    rw [sub32_of_le (by omega) (Nat.le_add_left _ _), Nat.add_sub_cancel]
  have hreal : u32 (sub32 a h.kernelHeapTop + overhead + ceil16 size) =
      a + overhead + ceil16 size - h.kernelHeapTop := by
    rw [sub32_of_le (by omega) (by omega), u32_of_lt (by omega)]
    omega
  obtain ⟨best, hfind, -⟩ := findBestFittingAlign_cases lay (ceil16 size)
  have hskip : ¬(best ≠ 0 ∧ isAlign best = true) :=
    fun hboth => hnot ⟨best, hfind, hboth.1, hboth.2⟩
  simp only [kmallocAlign, doMallocAlign, hsize, if_false, hfind, bind_eq_bind, bind_some,
    if_neg hskip, extendHeapAlign, hneeded, hblock, hreal]
  cases hbrk : ksbrk P h env (i32 (a + overhead + ceil16 size - h.kernelHeapTop)) with
  | none => rfl
  | some s =>
    obtain ⟨ret, h', env'⟩ := s
    obtain ⟨rfl, m, rfl, -⟩ := doBrk_frame (by omega) (by omega) (by omega) hend hbrk
    have hmod : ceil16 size % 16 = 0 := ceil16_mod
    simp only [bind_some, pure_def, map_some,
      setSize_markUsed (show ceil16 size % 4 = 0 by omega) (show ceil16 size < 2 ^ 32 by omega)]
    rw [publishBlock, ← clearLinks_linkLast (by omega) lay.tail_le]
    rfl

end Hos.Kheap
