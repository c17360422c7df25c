import Hos.Memory.Kheap.Sizes

/-!
# What `kmalloc_align` delivers

From every state of a run, a request that fits is answered with a page-aligned
block and leaves both lists well-formed, except in two situations: a free block
is reused, which never is aligned, or the word that becomes the successor of the
new block does not read as zero. The second cannot happen if pages are handed out
cleared, because nothing is written above the top.
-/

namespace Hos.Kheap

open List

open Bytes

/-- The two lists of a heap: blocks in address order that do not overlap, and a free list of exactly
the blocks that are flagged free. -/
structure ListsFormed (h : Heap) (blocks frees : List Nat) : Prop where
  walk : Chain h.mem 8 h.head blocks 0
  apart : blocks.Pairwise fun b c => b + overhead + blockGetRealSize (sizeField h.mem b) ≤ c
  tail : h.mem.load32 h.tail = blocks.getLast?.getD 0
  top : ∀ b ∈ blocks, b + overhead + blockGetRealSize (sizeField h.mem b) ≤ h.kernelHeapTop
  freelist : Chain h.mem 4 h.freelist frees 0
  once : frees.Nodup
  listed : ∀ a, a ∈ frees ↔ a ∈ blocks ∧ blockIsFree h.mem a = true

/-- A page-aligned pointer to a block of at least `size` bytes that does not overlap the blocks that
were handed out before; these are still there, and both lists are well-formed. -/
def AlignServed {σ : Type} (P : PageProvider σ) (h : Heap) (env : σ) (size : Nat) : Prop :=
  ∃ p h' env' blocks frees blocks' frees', kmallocAlign P h env size = some (p, h', env') ∧
    p % 4096 = 0 ∧ ListsFormed h blocks frees ∧ ListsFormed h' blocks' frees' ∧
    (∃ c ∈ blocks', c + overhead = p ∧ blockIsFree h'.mem c = false) ∧ size ≤ payloadSize h' p ∧
    ∀ b ∈ blocks, blockIsFree h.mem b = false → b ∈ blocks' ∧ blockIsFree h'.mem b = false ∧
      sizeField h'.mem b = sizeField h.mem b ∧
      (b + overhead + blockGetRealSize (sizeField h.mem b) ≤ p - overhead ∨
        p + payloadSize h' p ≤ b)

section

variable {R : Nat → Nat → Prop} [Spacing R] {h : Heap} {bs : List Block} {fs : List Nat}

theorem Tiled.pairwise {a e : Nat} (tiled : Tiled R a bs e) :
    bs.Pairwise fun b c => b.stop ≤ c.addr := by
  induction bs generalizing a with
  | nil => exact List.Pairwise.nil
  | cons b bs ih => exact pairwise_cons.mpr ⟨fun c hc => (tiled.2.bounds hc).1, ih tiled.2⟩

theorem Layout.listsFormed (lay : Layout R h.mem h.vmStart h.kernelHeapTop bs fs) :
    ListsFormed h (bs.map Block.addr) fs := by
  refine ⟨lay.blocks, ?_, lay.tail, ?_, lay.frees, lay.nodup, lay.mem_frees_iff⟩
  · refine pairwise_map.mpr (lay.tiled.pairwise.imp_of_mem ?_)
    intro b c hb _ hle
    rw [lay.stop_eq hb]
    exact hle
  · intro a ha
    obtain ⟨b, hb, rfl⟩ := mem_map.mp ha
    rw [lay.stop_eq hb]
    exact (lay.tiled.bounds hb).2

end

section

variable {σ : Type} {P : PageProvider σ} {mapped : σ → Nat → Prop} {h : Heap} {env : σ}
    {bs : List Block} {fs : List Nat} {size : Nat}

theorem store32_zero_eq {m : Bytes} {a x : Nat} (hx : m x = 0) : m.store32 a 0 x = 0 := by
  simp only [store32, hx]
  split_ifs <;> rfl

/-- Cleared pages are still clear where the next block is going to be. -/
theorem Good.cleanAlign (good : Good P mapped h env bs fs) (tracks : P.Tracks mapped)
    (fresh : P.Fresh)
    (hfit : pageAfter (h.kernelHeapTop + overhead) + ceil16 size ≤ h.vmEnd) :
    h.CleanAlign P env size := by
  intro ret h' env' run
  have hbelow := lt_pageAfter (h.kernelHeapTop + overhead)
  have hgrow : h.kernelHeapTop + (pageAfter (h.kernelHeapTop + overhead) + ceil16
      size - h.kernelHeapTop) = pageAfter (h.kernelHeapTop + overhead) + ceil16 size := by omega
  obtain ⟨-, -, -, -, hzero⟩ := good.brk tracks (by omega) (by omega) run
  have hceil := le_pageCeil (pageAfter (h.kernelHeapTop + overhead) + ceil16 size)
  rw [hgrow] at hzero
  have hbyte : ∀ x, pageAfter (h.kernelHeapTop + overhead) - overhead + 8 ≤ x →
      x < pageAfter (h.kernelHeapTop + overhead) - overhead + 8 + 4 →
      clearLinks h'.mem h.kernelHeapTop x = 0 := by
    intro x hlow hhigh
    refine store32_zero_eq (store32_zero_eq (hzero fresh x ?_ ?_))
    all_goals
      simp only [overhead] at *
      omega
  simp only [next, load32, hbyte _ (Nat.le_refl _) (by omega),
    hbyte _ (Nat.le_add_right _ 1) (by omega),
    hbyte _ (Nat.le_add_right _ 2) (by omega), hbyte _ (Nat.le_add_right _ 3) (by omega)]
  rfl

end

section

variable {σ : Type} {P : PageProvider σ} {mapped : σ → Nat → Prop} {h : Heap} {env : σ}
    {bs : List Block} {fs : List Nat} {size : Nat}

/-- The extension of the heap, once its pages are mapped. -/
theorem Good.alignServed_iff (good : Good P mapped h env bs fs) (tracks : P.Tracks mapped)
    (total : P.Total) (fits : h.FitsAlign size) :
    AlignServed P h env size ↔ size ≠ 0 ∧ ¬h.ReusesAlign size ∧ h.CleanAlign P env size := by
  obtain ⟨hend, hregion, hlow⟩ := good.bounds
  by_cases hsize : size = 0
  · refine iff_of_false ?_ (fun hall => hall.1 hsize)
    rintro ⟨p, h', env', -, -, -, -, hcall, -, -, -, ⟨c, -, hc, -⟩, -⟩
    simp only [kmallocAlign, doMallocAlign, hsize, if_true, Option.pure_def, Option.some.injEq,
      Prod.mk.injEq] at hcall
    simp only [overhead] at hc
    omega
  rw [and_iff_right hsize]
  by_cases hreuse : h.ReusesAlign size
  · refine iff_of_false ?_ (fun hall => hall.1 hreuse)
    rintro ⟨p, h', env', -, -, -, -, hcall, halign, -⟩
    obtain ⟨l, b, r, m, fs', -, -, -, haddr, hrun, -⟩ :=
      kmallocAlign_of_reuses (P := P) good.layout env hsize hreuse
    obtain ⟨rfl, -⟩ : p = b.payload ∧ _ := by simpa using hcall.symm.trans hrun
    exact payload_not_aligned haddr halign
  rw [and_iff_right hreuse]
  have hbelow := lt_pageAfter (h.kernelHeapTop + overhead)
  obtain ⟨a, ha⟩ : ∃ a, a + overhead = pageAfter (h.kernelHeapTop + overhead) :=
    ⟨pageAfter (h.kernelHeapTop + overhead) - overhead, by omega⟩
  have hfit := fits.2 hreuse
  rw [← ha] at hfit hbelow
  have hcall := kmallocAlign_of_extends (P := P) good.layout env hsize hreuse ha hfit hend hregion
  obtain ⟨⟨ret, h₁, env₁⟩, hbrk⟩ := Option.isSome_iff_exists.mp
    (doBrk_isSome total h env (i32 (a + overhead + ceil16 size - h.kernelHeapTop)))
  have hrun : ksbrk P h env (i32 (a + overhead + ceil16 size - h.kernelHeapTop)) =
      some (ret, h₁, env₁) := hbrk
  rw [hrun, Option.map_some] at hcall
  have hgap : h.kernelHeapTop ≤ a := by omega
  have hclean : h.CleanAlign P env size ↔ next (clearLinks h₁.mem h.kernelHeapTop) a = 0 := by
    rw [Heap.CleanAlign, ← ha, Nat.add_sub_cancel, hrun]
    simp
  obtain ⟨-, ⟨m, rfl⟩, -⟩ := good.brk tracks (by omega) (by omega) hrun
  have appended : Appended h.vmStart _ a (ceil16 size) _ (clearLinks m h.kernelHeapTop) _ :=
    good.layout.publishBlock_appended hgap rfl (by omega)
  rw [hclean]
  constructor
  · rintro ⟨p, h', env', -, -, blocks', frees', hcall', -, -, formed, -⟩
    -- The tail is the new block, so its successor is the end of the list.
    obtain ⟨rfl, rfl, rfl⟩ : p = a + overhead ∧ h' = _ ∧ env' = _ := by
      simpa using hcall'.symm.trans hcall
    have htail : blocks'.getLast?.getD 0 = a := formed.tail.symm.trans appended.tail
    obtain hnil | ⟨front, z, rfl⟩ := eq_nil_or_concat' blocks'
    · rw [hnil] at htail
      simp only [getLast?_nil, Option.getD_none, overhead] at htail hlow
      omega
    · obtain rfl : z = a := by simpa using htail
      exact appended.next_self.symm.trans (Chain.concat_iff.mp formed.walk).2
  · intro hnext
    have grants := good.published tracks hgap ceil16_mod (by omega) hfit hrun hnext
    have layout := grants.good.layout
    refine ⟨_, _, _, _, _, _, _, hcall, ha ▸ pageAfter_mod _, good.layout.listsFormed,
      layout.listsFormed, ⟨a, mem_map_of_mem grants.mem, rfl, layout.isFree grants.mem⟩, ?_, ?_⟩
    · rw [grants.payloadSize_eq]
      exact le_ceil16 fits.1
    · intro u hu hused
      obtain ⟨b, hb, rfl⟩ := mem_map.mp hu
      have hmem : b ∈ bs ++ [⟨a, ceil16 size, false⟩] := mem_append_left _ hb
      rw [good.layout.isFree hb] at hused
      refine ⟨mem_map_of_mem hmem, (layout.isFree hmem).trans hused,
        (layout.sized b hmem).trans (good.layout.sized b hb).symm, Or.inl ?_⟩
      rw [good.layout.realSize hb, Nat.add_sub_cancel]
      exact Nat.le_trans (good.layout.addr_bounds hb).2 hgap

/-- From every state of a run. -/
theorem kmallocAlign_iff (total : P.Total) {s : Heap × σ} (attained : Attained P s)
    (fits : s.1.FitsAlign size) :
    AlignServed P s.1 s.2 size ↔ size ≠ 0 ∧ ¬s.1.ReusesAlign size ∧ s.1.CleanAlign P s.2 size := by
  have tracks : P.Tracks fun _ _ => True := ⟨fun _ => trivial, fun _ _ => trivial⟩
  obtain ⟨bs, fs, good⟩ := attained.good tracks
  exact good.alignServed_iff tracks total fits

end

variable {σ : Type} {P : PageProvider σ} {mapped : σ → Nat → Prop} {h : Heap} {env : σ}
    {bs : List Block}

/-- Without free blocks the next request gets a new last block. -/
theorem Good.kmalloc_last (good : Good P mapped h env bs []) (tracks : P.Tracks mapped)
    (total : P.Total) (size : Nat)
    (hsize : size ≠ 0) (hfit : h.kernelHeapTop + (ceil16 size + overhead) ≤ h.vmEnd)
    (attained : Attained P (h, env)) :
    ∃ h' env', Attained P (h', env') ∧ h'.kernelHeapTop =
      h.kernelHeapTop + (ceil16 size + overhead) ∧
      Good P mapped h' env' (bs ++ [⟨h.kernelHeapTop, ceil16 size, false⟩]) [] := by
  obtain ⟨hend, hregion, hlow⟩ := good.bounds
  have hfind : blockFindBestFitting h.mem (ceil16 size) h.freelist = some 0 := by
    obtain ⟨b, hbest, -⟩ | ⟨-, hnone⟩ := findBestFitting_best (n := ceil16 size)
      good.layout ceil16_mod
    · exact absurd (good.layout.mem_frees hbest.mem hbest.free) not_mem_nil
    · exact hnone
  obtain ⟨⟨ret, h₁, env₁⟩, hbrk⟩ := Option.isSome_iff_exists.mp
    (doBrk_isSome total h env (i32 (ceil16 size + overhead)))
  have hrun : kmalloc P h env size = _ :=
    (kmalloc_of_none env hsize hfind).trans (extendHeap_eq good.layout ceil16_mod
      (by omega) hend hfit hbrk)
  have grants := good.published (n := ceil16 size) tracks (Nat.le_refl _) ceil16_mod (by omega)
    (by omega) hbrk next_clearLinks
  obtain ⟨-, ⟨m, rfl⟩, -⟩ := good.brk tracks (by simp only [overhead]; omega) hfit hbrk
  refine ⟨_, env₁, attained.step (.kmalloc size) (Or.inr fun _ => hfit) ?_, rfl, grants.good⟩
  rw [Call.exec, hrun]
  rfl

/-- A series of requests without free blocks. -/
theorem Good.kmallocs_last (tracks : P.Tracks mapped) (total : P.Total) (sizes : List Nat)
    (hsizes : 0 ∉ sizes) (good : Good P mapped h env bs [])
    (hfit : h.kernelHeapTop + (sizes.map fun size => ceil16 size + overhead).sum ≤ h.vmEnd)
    (attained : Attained P (h, env)) :
    ∃ h' env' bs', Attained P (h', env') ∧ Good P mapped h' env' bs' [] ∧
      h'.kernelHeapTop = h.kernelHeapTop + (sizes.map fun size => ceil16 size + overhead).sum := by
  induction sizes generalizing h env bs with
  | nil => exact ⟨h, env, bs, attained, good, rfl⟩
  | cons size sizes ih =>
    rw [map_cons, sum_cons] at hfit
    have hne : size ≠ 0 := fun hzero => hsizes (hzero ▸ mem_cons_self)
    obtain ⟨h₁, env₁, attained₁, htop, good₁⟩ :=
      good.kmalloc_last tracks total size hne (by omega) attained
    have hend := good₁.vmEnd.trans good.vmEnd.symm
    obtain ⟨h', env', bs', attained', good', htop'⟩ :=
      ih (fun hmem => hsizes (mem_cons_of_mem _ hmem)) good₁ (by omega) attained₁
    refine ⟨h', env', bs', attained', good', ?_⟩
    rw [htop', htop, map_cons, sum_cons, Nat.add_assoc]

theorem loggedPages_fresh : loggedPages.Fresh := by
  rintro pages addr flags fresh pages' ⟨⟩
  rfl

/-- The first aligned request after boot. -/
theorem kmallocAlign_boot : ∃ s, Attained loggedPages s ∧ AlignServed loggedPages s.1 s.2 100 := by
  obtain ⟨s, attained, htop, good⟩ := attained_boot
  have hend := good.vmEnd
  have hfit : pageAfter (s.1.kernelHeapTop + overhead) + ceil16 100 ≤ s.1.vmEnd := by
    rw [htop, hend]
    decide
  have hreuse : ¬s.1.ReusesAlign 100 := by
    rintro ⟨best, hfind, hne, halign⟩
    obtain ⟨best', hfind', hcases⟩ := findBestFittingAlign_cases good.layout (ceil16 100)
    cases hfind.symm.trans hfind'
    obtain ⟨b, hb, -⟩ := hcases hne halign
    exact absurd hb not_mem_nil
  exact ⟨s, attained, (kmallocAlign_iff loggedPages_total attained ⟨by decide, fun _ => hfit⟩).mpr
    ⟨by decide, hreuse, good.cleanAlign loggedPages_tracks loggedPages_fresh hfit⟩⟩

/-- A block whose header stands 144 bytes in front of a page boundary has been freed. -/
theorem attained_free_block :
    ∃ s bs, Attained loggedPages s ∧
      Good loggedPages (fun pages p => p ∈ pages) s.1 s.2 (bs ++ [⟨0xD0000F70, 16, true⟩])
        [0xD0000F70] := by
  obtain ⟨⟨h₀, env₀⟩, attained₀, htop₀, good₀⟩ := attained_boot
  change h₀.kernelHeapTop = 0xD000000C at htop₀
  have hend := good₀.vmEnd
  obtain ⟨h₁, env₁, bs, attained₁, good₁, htop₁⟩ :=
    Good.kmallocs_last loggedPages_tracks loggedPages_total
    [16, 16, 3872] (by decide) good₀ (by rw [htop₀]; exact hend ▸ by decide) attained₀
  have haddr : h₁.kernelHeapTop = 0xD0000F70 := by
    rw [htop₁, htop₀]
    decide
  have hend₁ := good₁.vmEnd
  obtain ⟨h₂, env₂, attained₂, -, good₂⟩ :=
    good₁.kmalloc_last loggedPages_tracks loggedPages_total 16 (by decide)
    (by rw [haddr]; exact hend₁ ▸ by decide) attained₁
  rw [haddr, show ceil16 16 = 16 by decide] at good₂
  have hused : ∀ x ∈ bs.getLast?, x.free = false := by
    intro x hx
    by_contra hfree
    exact absurd (good₁.layout.mem_frees (mem_of_mem_getLast? hx)
      (Bool.eq_true_of_not_eq_false hfree)) not_mem_nil
  obtain ⟨m, hrun, layout, touches⟩ := doFree_alone good₂.layout rfl hused (by simp)
  have good₃ := good₂.inPlace layout fun x hx _ => touches x (good₂.layout.outside (Or.inr hx))
  refine ⟨({ h₂ with mem := m }, env₂), bs, attained₂.step (.kfree 0xD0000F7C) ?_ ?_, good₃⟩
  · have hmem : (⟨0xD0000F70, 16, false⟩ : Block) ∈ bs ++ [⟨0xD0000F70, 16, false⟩] := by simp
    refine ⟨_, ⟨good₂.layout.blocks, fun hzero => ?_⟩, 0xD0000F70, mem_map_of_mem hmem, rfl,
      good₂.layout.isFree hmem⟩
    obtain ⟨b, hb, hb0⟩ := mem_map.mp hzero
    exact good₂.layout.addr_ne_zero hb hb0
  · rw [Call.exec, kfree]
    exact congrArg (Option.map (·, env₂)) hrun

/-- That block is reused, and the pointer is not aligned. -/
theorem kmallocAlign_reuse_unaligned :
    ∃ s h env, Attained loggedPages s ∧ s.1.FitsAlign 16 ∧
      kmallocAlign loggedPages s.1 s.2 16 = some (0xD0000F7C, h, env) ∧
        ¬AlignServed loggedPages s.1 s.2 16 := by
  obtain ⟨s, bs, attained, good⟩ := attained_free_block
  have hmem : (⟨0xD0000F70, 16, true⟩ : Block) ∈ bs ++ [⟨0xD0000F70, 16, true⟩] := by simp
  have hfit : blockIsFit s.1.mem 0xD0000F70 (ceil16 16) = true :=
    (good.layout.blockIsFit_iff hmem ceil16_mod).mpr ⟨by decide, rfl⟩
  obtain ⟨best, hfind, hbest⟩ :=
    blockFindBestFittingAlign_spec (ceil16 16) good.layout.frees fun a ha =>
      good.layout.free_ne_zero ha
  obtain rfl : best = 0xD0000F70 := by
    rcases hbest with ⟨-, hnone⟩ | ⟨hin, -⟩
    · have hno := hnone 0xD0000F70 mem_cons_self
      simp [hfit] at hno
    · exact mem_singleton.mp hin
  have hreuse : s.1.ReusesAlign 16 := ⟨_, hfind, by decide, by decide⟩
  have fits : s.1.FitsAlign 16 := ⟨by decide, fun hno => absurd hreuse hno⟩
  obtain ⟨l, b, r, m, fs', hbs, hfree, -, halign, hrun, -⟩ :=
    kmallocAlign_of_reuses (P := loggedPages) good.layout s.2 (by decide) hreuse
  have hb : b.payload = 0xD0000F7C := by
    have hin := good.layout.mem_frees (b := b) (by rw [hbs]; simp) hfree
    rw [Block.payload, mem_singleton.mp hin]
    rfl
  rw [hb] at hrun
  refine ⟨s, _, _, attained, fits, hrun, fun hserved => ?_⟩
  exact ((good.alignServed_iff loggedPages_tracks loggedPages_total fits).mp hserved).2.1 hreuse

end Hos.Kheap
