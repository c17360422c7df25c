import Hos.Lib.Run
import Hos.Memory.Kheap.Align

/-!
# Runs of all calls of the kernel heap

Besides `kmalloc` and `kfree` the heap is used through `kcalloc`, `kmalloc_align`
and `ksbrk`. The last two leave gaps between the blocks, so the layout of these
runs admits them. A client may free any block that is handed out and write
anywhere except to the headers and to the unused rest of the region.

The invariant adds to the layout that every byte below the top is mapped, and that
a byte between the top and the end of its page is still zero if pages are always
handed out cleared.
-/

namespace Hos.Kheap

open List Prod Option Nat
open Option (bind_eq_bind bind_eq_some_iff map_eq_some_iff)

open Bytes

section

variable {σ : Type} {P : PageProvider σ} {mapped : σ → Nat → Prop} {h h' : Heap} {env env' : σ}

/-- `mapped env p` says that page `p` is mapped; creating a page maps it and unmaps none. -/
structure PageProvider.Tracks (P : PageProvider σ) (mapped : σ → Nat → Prop) : Prop where
  creates : ∀ {env addr flags fresh env'}, P.createPage env addr flags = some (fresh, env') →
    mapped env' (addr / 4096)
  keeps : ∀ {env addr flags fresh env' p}, P.createPage env addr flags = some (fresh, env') →
    mapped env p → mapped env' p

/-- Every page is handed out cleared. -/
def PageProvider.Fresh (P : PageProvider σ) : Prop :=
  ∀ env addr flags fresh env', P.createPage env addr flags = some (fresh, env') → fresh = true

/-- What creating `n` pages from `a` on does to the mapping and to the pages themselves. -/
theorem createPages_pages (tracks : P.Tracks mapped) {a n : Nat} (halign : a % 4096 = 0)
    (hroom : a + n * 4096 < 2 ^ 32) (run : createPages P h env a n = some (h', env')) :
    (∀ p, mapped env p → mapped env' p) ∧ (∀ x, a ≤ x → x < a + n * 4096 → mapped env' (x / 4096)) ∧
      (P.Fresh → ∀ x, a ≤ x → x < a + n * 4096 → h'.mem x = 0) := by
  induction n generalizing h env a with
  | zero =>
    obtain ⟨rfl, rfl⟩ := run
    exact ⟨fun _ hp => hp, fun _ _ _ => by omega, fun _ _ _ _ => by omega⟩
  | succ n ih =>
    obtain ⟨⟨h₁, env₁⟩, hpage, hrest⟩ := bind_eq_some_iff.mp run
    simp only [vmmCreatePage, bind_eq_bind, bind_eq_some_iff, some.injEq, mk.injEq] at hpage
    obtain ⟨⟨fresh, env₂⟩, hcreate, rfl, rfl⟩ := hpage
    have hstep : u32 (a + pageSize) = a + 4096 := u32_of_lt (by simp only [pageSize]; omega)
    have hbase : a &&& 0xFFFFF000 = a := by
      have hmask := and_highMask (k := 12) (show a < 2 ^ 32 by omega) (by decide)
      simp only [reducePow, reduceSub] at hmask
      omega
    rw [hstep] at hrest
    obtain ⟨hkeep, hmap, hzero⟩ := ih (a := a + 4096) (by omega) (by omega) hrest
    obtain ⟨m, rfl, hframe⟩ := createPages_frame (a := a + 4096) (by omega) (by omega) hrest
    refine ⟨fun p hp => hkeep p (tracks.keeps hcreate hp),
      fun x hlow hhigh => ?_, fun hfresh x hlow hhigh => ?_⟩
    · by_cases hx : x < a + 4096
      · have hsame : x / 4096 = a / 4096 := by omega
        rw [hsame]
        exact hkeep _ (tracks.creates hcreate)
      · exact hmap x (by omega) (by omega)
    · by_cases hx : x < a + 4096
      · refine (hframe x (.inl hx)).trans ?_
        obtain rfl := hfresh _ _ _ _ _ hcreate
        simp only [if_true, hbase]
        exact fill_of_mem hlow (by simpa [pageSize] using hx)
      · exact hzero hfresh x (by omega) (by omega)

end

/-- The invariant, for the blocks `bs` and the free list `fs`. -/
structure Good {σ : Type} (P : PageProvider σ) (mapped : σ → Nat → Prop) (h : Heap) (env : σ)
    (bs : List Block) (fs : List Nat) : Prop where
  layout : Layout (· ≤ ·) h.mem h.vmStart h.kernelHeapTop bs fs
  vmStart : h.vmStart = 0xD0000000
  vmEnd : h.vmEnd = 0xF0000000
  top_le : h.kernelHeapTop ≤ h.vmEnd
  mapped : ∀ a, h.vmStart ≤ a → a < h.kernelHeapTop → mapped env (a / 4096)
  zero : P.Fresh → ∀ a, h.kernelHeapTop ≤ a → a < pageCeil h.kernelHeapTop → h.mem a = 0

namespace Good

variable {σ : Type} {P : PageProvider σ} {mapped : σ → Nat → Prop} {h h' : Heap} {env env' : σ}
    {bs bs' : List Block} {fs fs' : List Nat}

variable (good : Good P mapped h env bs fs)
include good

theorem bounds :
    h.vmEnd < 2 ^ 32 ∧ h.vmEnd < h.vmStart + 2 ^ 31 ∧ h.vmStart + overhead ≤ h.kernelHeapTop := by
  rw [good.vmStart, good.vmEnd]
  exact ⟨by decide, by decide, good.vmStart ▸ good.layout.tiled.le⟩

/-- A change of memory below the top that keeps a layout. -/
theorem inPlace {m : Bytes} (layout : Layout (· ≤ ·) m h.vmStart h.kernelHeapTop bs' fs')
    (agree : ∀ x, h.kernelHeapTop ≤ x → x < pageCeil h.kernelHeapTop → m x = h.mem x) :
    Good P mapped { h with mem := m } env bs' fs' :=
  ⟨layout, good.vmStart, good.vmEnd, good.top_le, good.mapped, fun fresh a hlow hhigh =>
    (agree a hlow hhigh).trans (good.zero fresh a hlow hhigh)⟩

/-- What `ksbrk` does if the region has room. -/
theorem brk {size ret : Nat} (tracks : P.Tracks mapped) (hpos : 0 < size)
    (hfit : h.kernelHeapTop + size ≤ h.vmEnd)
    (run : ksbrk P h env (i32 size) = some (ret, h', env')) :
    ret = h.kernelHeapTop ∧ (∃ m,
      h' = { h with mem := m, kernelHeapTop := h.kernelHeapTop + size }) ∧
      (∀ x, x < h.kernelHeapTop ∨ pageCeil (h.kernelHeapTop + size) ≤ x → h'.mem x = h.mem x) ∧
      (∀ a, h.vmStart ≤ a → a < h.kernelHeapTop + size → mapped env' (a / 4096)) ∧
      (P.Fresh → ∀ a, h.kernelHeapTop ≤ a → a < pageCeil (h.kernelHeapTop + size) →
        h'.mem a = 0) := by
  obtain ⟨hend, hregion, hlow⟩ := good.bounds
  have hvm := good.vmEnd
  obtain ⟨hret, m, rfl, agree⟩ := doBrk_frame hpos (by omega) hfit hend run
  refine ⟨hret, ⟨m, rfl⟩, agree, ?_⟩
  -- The pages that were created start at the end of the page of the old top.
  have hceil : ∀ a ≤ h.vmEnd, pageAlignUp a = pageCeil a := by
    intro a ha
    rw [pageAlignUp_eq, pageCeil, u32_of_lt (by omega)]
  have hinc : (0 : Int) < size := by omega
  have hboundary : u32 (h.kernelHeapTop + size) = h.kernelHeapTop + size := u32_of_lt (by omega)
  simp only [ksbrk, doBrk, i32_of_lt (show size < 2 ^ 31 by omega), hinc, if_true,
    Int.toNat_natCast, hboundary, hfit,
    hceil _ good.top_le, hceil _ hfit, bind_eq_bind, bind_eq_some_iff, Option.pure_def,
    Option.some.injEq, mk.injEq] at run
  obtain ⟨⟨h₁, env₁⟩, hpages, -, hh, rfl⟩ := run
  have hmem : h₁.mem = m := congrArg Heap.mem hh
  have hcount : pageCeil h.kernelHeapTop +
      (pageCeil (h.kernelHeapTop + size) - pageCeil h.kernelHeapTop) / pageSize * 4096 =
        pageCeil (h.kernelHeapTop + size) := by
    simp only [pageCeil, pageSize]
    omega
  have halign : pageCeil h.kernelHeapTop % 4096 = 0 := mul_mod_left _ _
  have hhigh : pageCeil (h.kernelHeapTop + size) < 2 ^ 32 := by
    simp only [pageCeil]
    omega
  obtain ⟨hkeep, hmap, hzero⟩ := createPages_pages tracks halign
    (by rw [hcount]; exact hhigh) hpages
  rw [hcount] at hmap hzero
  refine ⟨fun a ha hlt => ?_, fun fresh a ha hlt => ?_⟩
  · by_cases hpage : pageCeil h.kernelHeapTop ≤ a
    · exact hmap a hpage (lt_of_lt_of_le hlt (le_pageCeil _))
    · -- The rest of the page of the old top was mapped before.
      refine hkeep _ ?_
      by_cases hold : a < h.kernelHeapTop
      · exact good.mapped a ha hold
      · have hsame : a / 4096 = (h.kernelHeapTop - 1) / 4096 := by
          simp only [pageCeil, overhead] at hpage hlow
          omega
        rw [hsame]
        simp only [overhead] at hlow
        exact good.mapped _ (by omega) (by omega)
  · by_cases hpage : pageCeil h.kernelHeapTop ≤ a
    · exact hmem ▸ hzero fresh a hpage hlt
    · obtain ⟨m', hm', hframe⟩ := createPages_frame halign (by omega) hpages
      have hsame : h₁.mem a = h.mem a := by
        rw [hm']
        exact hframe a (.inl (by omega))
      rw [← hmem, hsame]
      exact good.zero fresh a ha (by omega)

/-- An extension followed by changes below the new top that keep a layout. -/
theorem extended {size ret : Nat} {m : Bytes} (tracks : P.Tracks mapped) (hpos : 0 < size)
    (hfit : h.kernelHeapTop + size ≤ h.vmEnd)
    (run : ksbrk P h env (i32 size) = some (ret, h', env'))
    (layout : Layout (· ≤ ·) m h.vmStart (h.kernelHeapTop + size) bs' fs')
    (agree : ∀ x, h.kernelHeapTop + size ≤ x → m x = h'.mem x) :
    Good P mapped { h' with mem := m } env' bs' fs' := by
  obtain ⟨-, ⟨m₁, rfl⟩, -, hmap, hzero⟩ := good.brk tracks hpos hfit run
  exact ⟨layout, good.vmStart, good.vmEnd, hfit, hmap, fun fresh a hlow hhigh =>
    (agree a hlow).trans (hzero fresh a (le_trans (le_add_right _ _) hlow) hhigh)⟩

end Good

/-- A served request: the block behind the pointer. -/
structure Grants {σ : Type} (P : PageProvider σ) (mapped : σ → Nat → Prop) (h : Heap) (env : σ)
    (ptr n : Nat) (bs : List Block) (fs : List Nat) (c : Block) : Prop where
  good : Good P mapped h env bs fs
  mem : c ∈ bs
  used : c.free = false
  payload : c.payload = ptr
  size : n ≤ c.size

/-- The top may move away from the last block. -/
theorem Layout.raise {m : Bytes} {vs top top' : Nat} {bs : List Block} {fs : List Nat}
    (lay : Layout (· ≤ ·) m vs top bs fs) (hle : top ≤ top') (hlt : top' < 2 ^ 32) :
    Layout (· ≤ ·) m vs top' bs fs :=
  { lay with top_lt := hlt, tiled := lay.tiled.stop hle }

section

variable {σ : Type} {P : PageProvider σ} {mapped : σ → Nat → Prop} {h h' : Heap} {env env' : σ}
    {bs : List Block} {fs : List Nat} {size ptr : Nat}

/-- A free block that is carved up. -/
theorem Good.carved {l r : List Block} {b : Block} {m : Bytes} {fs' : List Nat} {n : Nat}
    (good : Good P mapped h env (l ++ b :: r) fs) (hfree : b.free = true) (hle : n ≤ b.size)
    (layout : Layout (· ≤ ·) m h.vmStart h.kernelHeapTop (l ++ (carve b n ++ r)) fs')
    (outside : ∀ y, y < h.vmStart ∨ h.kernelHeapTop ≤ y → m y = h.mem y) :
    Grants P mapped { h with mem := m } env b.payload n (l ++ (carve b n ++ r)) fs'
      (Kheap.carved b n) := by
  have hmem : Kheap.carved b n ∈ usedBlocks (l ++ (carve b n ++ r)) :=
    (usedBlocks_carve hfree).mem_iff.mpr mem_cons_self
  exact ⟨good.inPlace layout fun x hx _ => outside x (.inr hx), (mem_filter.mp hmem).1, rfl, rfl,
    le_carved_size hle⟩

section

variable (good : Good P mapped h env bs fs) (tracks : P.Tracks mapped)
include good tracks

/-- A new block at the end, behind a gap if `a` is above the old top. -/
theorem Good.published {a n ret k : Nat} (hgap : h.kernelHeapTop ≤ a) (hn : n % 16 = 0)
    (hk : h.kernelHeapTop + k = a + overhead + n) (hfit : a + overhead + n ≤ h.vmEnd)
    (run : ksbrk P h env (i32 k) = some (ret, h', env'))
    (hnext : next (clearLinks h'.mem h.kernelHeapTop) a = 0) :
    Grants P mapped { h' with
        mem := publishBlock (clearLinks h'.mem h.kernelHeapTop) h.vmStart (h.mem.load32 h.vmStart)
          (h.mem.load32 (h.vmStart + 4)) a n } env' (a + overhead) n (bs ++ [⟨a, n, false⟩]) fs ⟨a,
            n, false⟩ := by
  have hend := good.bounds.1
  have hpos : 0 < k := by
    simp only [overhead] at hk
    omega
  obtain ⟨-, -, agree, -⟩ := good.brk tracks hpos (by omega) run
  have layout := good.layout.published (n := n) hgap (by omega) (by omega)
    (fun x hx => agree x (.inl hx)) hnext
  refine ⟨good.extended tracks hpos (by omega) run (hk ▸ layout) fun x hx => ?_, by simp, rfl, rfl,
    le_refl n⟩
  exact good.layout.published_frame hgap (by omega) (.inr (.inr (by omega)))

theorem Good.after_kmalloc (hsize : size ≠ 0) (fits : h.Fits size)
    (run : kmalloc P h env size = some (ptr, h', env')) :
    ∃ bs' fs' c, Grants P mapped h' env' ptr (ceil16 size) bs' fs' c := by
  obtain ⟨b, hbest, hfind⟩ | ⟨-, hfind⟩ :=
    findBestFitting_best (n := ceil16 size) good.layout ceil16_mod
  · obtain ⟨l, r, rfl⟩ := append_of_mem hbest.mem
    obtain ⟨m, fs', hrun, layout, -, outside⟩ :=
      kmalloc_of_best (P := P) good.layout env hsize hbest hfind
    simp only [hrun, some.injEq, mk.injEq] at run
    obtain ⟨rfl, rfl, rfl⟩ := run
    exact ⟨_, fs', _, good.carved hbest.free hbest.fits layout outside⟩
  · obtain ⟨hend, hregion, hlow⟩ := good.bounds
    have hroom := fits hfind
    rw [kmalloc_of_none env hsize hfind] at run
    cases hbrk : ksbrk P h env (i32 (ceil16 size + overhead)) with
    | none => simp [extendHeap, hbrk] at run
    | some s =>
      rw [extendHeap_eq good.layout ceil16_mod (by omega) hend hroom hbrk] at run
      cases run
      exact ⟨_, fs, _, good.published tracks (le_refl _) ceil16_mod (by omega) (by omega) hbrk
        next_clearLinks⟩

theorem Good.after_kmallocAlign (hsize : size ≠ 0) (fits : h.FitsAlign size)
    (clean : h.ReusesAlign size ∨ h.CleanAlign P env size)
    (run : kmallocAlign P h env size = some (ptr, h', env')) :
    ∃ bs' fs' c, Grants P mapped h' env' ptr (ceil16 size) bs' fs' c := by
  by_cases hreuse : h.ReusesAlign size
  · obtain ⟨l, b, r, m, fs', rfl, hfree, hle, -, hrun, layout, -, outside⟩ :=
      kmallocAlign_of_reuses (P := P) good.layout env hsize hreuse
    simp only [hrun, some.injEq, mk.injEq] at run
    obtain ⟨rfl, rfl, rfl⟩ := run
    exact ⟨_, fs', _, good.carved hfree hle layout outside⟩
  · obtain ⟨hend, hregion, hlow⟩ := good.bounds
    have hbelow := lt_pageAfter (h.kernelHeapTop + overhead)
    obtain ⟨a, ha⟩ : ∃ a, a + overhead = pageAfter (h.kernelHeapTop + overhead) :=
      ⟨pageAfter (h.kernelHeapTop + overhead) - overhead, by omega⟩
    have hfit := fits.2 hreuse
    have hclean := clean.resolve_left hreuse
    rw [Heap.CleanAlign, ← ha, Nat.add_sub_cancel] at hclean
    rw [← ha] at hfit hbelow
    rw [kmallocAlign_of_extends good.layout env hsize hreuse ha hfit hend hregion, map_eq_some_iff]
      at run
    obtain ⟨⟨ret, h₁, env₁⟩, hbrk, hrun⟩ := run
    cases hrun
    exact ⟨_, fs, _, good.published tracks (by omega) ceil16_mod (by omega) hfit hbrk
      (hclean _ _ _ hbrk)⟩

theorem Good.after_ksbrk {increment : Int} (hsmall : increment < 2 ^ 31)
    (hwrap : increment ≤ 0 ∨ h.kernelHeapTop + increment < 2 ^ 32)
    (run : ksbrk P h env increment = some (ptr, h', env')) : Good P mapped h' env' bs fs := by
  by_cases hpos : 0 < increment
  · obtain ⟨size, rfl⟩ := Int.eq_ofNat_of_zero_le (Int.le_of_lt hpos)
    have hboundary : u32 (h.kernelHeapTop + size) = h.kernelHeapTop + size := u32_of_lt (by omega)
    by_cases hfit : h.kernelHeapTop + size ≤ h.vmEnd
    · have hrun := run
      rw [← i32_of_lt (show size < 2 ^ 31 by omega)] at hrun
      obtain ⟨-, ⟨m, rfl⟩, agree, -⟩ := good.brk tracks (by omega) hfit hrun
      refine good.extended tracks (by omega) hfit hrun ?_ fun _ _ => rfl
      have lay := good.layout.congr fun u hu x _ hx =>
        agree x (.inl (lt_of_lt_of_le hx (good.layout.header_le hu)))
      exact lay.raise (le_add_right _ _) (by omega)
    · simp only [ksbrk, doBrk, hpos, if_true, Int.toNat_natCast, hboundary, hfit, if_false,
        Option.pure_def, Option.some.injEq, mk.injEq] at run
      obtain ⟨-, rfl, rfl⟩ := run
      exact good
  · simp only [ksbrk, doBrk, hpos, if_false, Option.pure_def, Option.some.injEq, mk.injEq] at run
    obtain ⟨-, rfl, rfl⟩ := run
    exact good

end

/-- Writes that miss every header and the unused rest of the region. -/
theorem Good.writes {m : Bytes} (good : Good P mapped h env bs fs)
    (agree : ∀ x, (∃ u, IsHeader h.vmStart bs u ∧ u ≤ x ∧ x < u + overhead) ∨
      h.kernelHeapTop ≤ x ∧ x < pageCeil h.kernelHeapTop → m x = h.mem x) :
    Good P mapped { h with mem := m } env bs fs :=
  good.inPlace (good.layout.congr fun u hu x hlow hhigh => agree x (.inl ⟨u, hu, hlow, hhigh⟩))
    fun x hlow hhigh => agree x (.inr ⟨hlow, hhigh⟩)

theorem Grants.payloadSize_eq {n : Nat} {c : Block} (grants : Grants P mapped h env ptr n bs fs c) :
    payloadSize h ptr = c.size := by
  rw [← grants.payload, payloadSize, Block.payload, Nat.add_sub_cancel,
    grants.good.layout.realSize grants.mem]

/-- Clearing the payload of a block that is handed out. -/
theorem Grants.memset {n k : Nat} {c : Block} (grants : Grants P mapped h env ptr n bs fs c)
    (hk : k ≤ n) :
    Grants P mapped { h with mem := memsetZero h.mem ptr k } env ptr n bs fs c := by
  obtain ⟨good, hmem, hused, rfl, hsize⟩ := grants
  refine ⟨good.writes fun x hx => ?_, hmem, hused, rfl, hsize⟩
  have hbounds := good.layout.addr_bounds hmem
  have hlt := good.layout.top_lt
  have hout : x < c.payload ∨ c.payload + k ≤ x := by
    simp only [Block.payload]
    rcases hx with ⟨u, hu, hlow, hhigh⟩ | hx
    · by_contra hin
      have haway := good.layout.tiled.payload_outside hmem (x := x)
        (by simp only [Block.payload]; omega) (by simp only [Block.stop]; omega) u hu
      omega
    · omega
  have hceil : x < 2 ^ 32 → ¬sub32 x c.payload < k := by
    intro hx
    simp only [sub32]
    simp only [Block.payload] at hout ⊢
    omega
  rw [memsetZero, if_neg (by tauto)]

theorem Good.after_kcalloc {num : Nat} (good : Good P mapped h env bs fs) (tracks : P.Tracks mapped)
    (hsize : u32 (num * size) ≠ 0) (hsmall : u32 (num * size) ≤ 0xFFFFFFF0)
    (fits : h.Fits (u32 (num * size))) (run : kcalloc P h env num size = some (ptr, h', env')) :
    ∃ bs' fs' c, Grants P mapped h' env' ptr (ceil16 (u32 (num * size))) bs' fs' c := by
  obtain ⟨⟨p, h₁, env₁⟩, hmalloc, hrest⟩ := bind_eq_some_iff.mp run
  obtain ⟨bs', fs', c, grants⟩ := good.after_kmalloc tracks hsize fits hmalloc
  have hp : p ≠ 0 := by
    rw [← grants.payload, Block.payload, overhead]
    omega
  simp only [ne_eq, hp, not_false_eq_true, if_true, Option.pure_def, Option.some.injEq, mk.injEq]
    at hrest
  obtain ⟨rfl, rfl, rfl⟩ := hrest
  exact ⟨bs', fs', c, grants.memset (le_ceil16 hsmall)⟩

theorem Good.after_kfree {b : Block} (good : Good P mapped h env bs fs) (hb : b ∈ bs)
    (hused : b.free = false)
    (run : kfree h b.payload = some h') : ∃ bs' fs', Good P mapped h' env bs' fs' := by
  obtain ⟨l, r, rfl⟩ := append_of_mem hb
  obtain ⟨m, bs', fs', hfree, layout, -, touches⟩ := doFree_spec good.layout hused
  cases hfree.symm.trans run
  exact ⟨bs', fs', good.inPlace layout fun x hx _ => touches x (good.layout.outside (.inr hx))⟩

end

section

inductive Call where
  | kmalloc (size : Nat)
  | kcalloc (num size : Nat)
  | kmallocAlign (size : Nat)
  | ksbrk (increment : Int)
  | kfree (ptr : Nat)
  | write (addr : Nat) (byte : Byte)

variable {σ : Type} (P : PageProvider σ)

def Call.exec : Call → Heap × σ → Option (Heap × σ)
  | .kmalloc size, (h, env) => (Kheap.kmalloc P h env size).map Prod.snd
  | .kcalloc num size, (h, env) => (Kheap.kcalloc P h env num size).map Prod.snd
  | .kmallocAlign size, (h, env) => (Kheap.kmallocAlign P h env size).map Prod.snd
  | .ksbrk increment, (h, env) => (Kheap.ksbrk P h env increment).map Prod.snd
  | .kfree ptr, (h, env) => (Kheap.kfree h ptr).map (·, env)
  | .write addr byte, (h, env) => some ({ h with mem := Function.update h.mem addr byte }, env)

/-- The blocks reached from the head of the heap. -/
def Heap.Blocks (h : Heap) (blocks : List Nat) : Prop := Chain h.mem 8 h.head blocks 0 ∧ 0 ∉ blocks

/-- What callers keep to: requests that the region can hold, `kfree` of blocks that are handed
out, and writes that spare the headers and the unused rest of the region. -/
def Call.Admitted : Call → Heap × σ → Prop
  | .kmalloc size, (h, _) => size = 0 ∨ h.Fits size
  | .kcalloc num size, (h, _) =>
    u32 (num * size) = 0 ∨ u32 (num * size) ≤ 0xFFFFFFF0 ∧ h.Fits (u32 (num * size))
  | .kmallocAlign size, (h, env) =>
    size = 0 ∨ h.FitsAlign size ∧ (h.ReusesAlign size ∨ h.CleanAlign P env size)
  | .ksbrk increment, (h, _) =>
    increment < 2 ^ 31 ∧ (increment ≤ 0 ∨ h.kernelHeapTop + increment < 2 ^ 32)
  | .kfree ptr, (h, _) =>
    ∃ blocks, h.Blocks blocks ∧ ∃ a ∈ blocks, ptr = a + overhead ∧ blockIsFree h.mem a = false
  | .write addr _, (h, _) =>
    (∃ blocks, h.Blocks blocks ∧ ∀ a ∈ h.vmStart :: blocks, addr < a ∨ a + overhead ≤ addr) ∧
      (addr < h.kernelHeapTop ∨ pageCeil h.vmEnd ≤ addr)

/-- The states of the runs from `kheap_init` in which every call is admitted. -/
def Attained (s : Heap × σ) : Prop :=
  ∃ mem env s₀, kheapInit P mem env kernelBootInfo = some s₀ ∧
    Runs (Call.exec P) (Call.Admitted P) s₀ s

end

variable {σ : Type} {P : PageProvider σ} {mapped : σ → Nat → Prop} {h : Heap} {env : σ}
    {bs : List Block} {fs : List Nat}

theorem Good.blocks_eq (good : Good P mapped h env bs fs) {blocks : List Nat}
    (hblocks : h.Blocks blocks) :
    blocks = bs.map Block.addr := by
  refine hblocks.1.unique good.layout.blocks hblocks.2 fun hzero => ?_
  obtain ⟨b, hb, haddr⟩ := mem_map.mp hzero
  exact good.layout.addr_ne_zero hb haddr

theorem good_step (tracks : P.Tracks mapped) (call : Call) (s t : Heap × σ)
    (good : ∃ bs fs, Good P mapped s.1 s.2 bs fs) (admitted : call.Admitted P s)
    (run : call.exec P s = some t) :
    ∃ bs fs, Good P mapped t.1 t.2 bs fs := by
  obtain ⟨h, env⟩ := s
  obtain ⟨bs, fs, good⟩ := good
  change Good P mapped h env bs fs at good
  cases call with
  | kmalloc size =>
    obtain ⟨⟨ptr, t⟩, hcall, rfl⟩ := map_eq_some_iff.mp run
    by_cases hsize : size = 0
    · simp only [kmalloc, doMalloc, hsize, if_true, Option.pure_def, Option.some.injEq, mk.injEq]
        at hcall
      obtain ⟨-, rfl⟩ := hcall
      exact ⟨bs, fs, good⟩
    · obtain ⟨bs', fs', c, grants⟩ := good.after_kmalloc tracks hsize
        (admitted.resolve_left hsize) hcall
      exact ⟨bs', fs', grants.good⟩
  | kcalloc num size =>
    obtain ⟨⟨ptr, t⟩, hcall, rfl⟩ := map_eq_some_iff.mp run
    by_cases hsize : u32 (num * size) = 0
    · simp only [kcalloc, kmalloc, doMalloc, hsize, if_true, bind_eq_bind, Option.pure_def,
        bind_some, ne_eq, not_true_eq_false, if_false, some.injEq, mk.injEq] at hcall
      obtain ⟨-, rfl⟩ := hcall
      exact ⟨bs, fs, good⟩
    · obtain ⟨hsmall, fits⟩ := admitted.resolve_left hsize
      obtain ⟨bs', fs', c, grants⟩ := good.after_kcalloc tracks hsize hsmall fits hcall
      exact ⟨bs', fs', grants.good⟩
  | kmallocAlign size =>
    obtain ⟨⟨ptr, t⟩, hcall, rfl⟩ := map_eq_some_iff.mp run
    by_cases hsize : size = 0
    · simp only [kmallocAlign, doMallocAlign, hsize, if_true, Option.pure_def, Option.some.injEq,
        mk.injEq] at hcall
      obtain ⟨-, rfl⟩ := hcall
      exact ⟨bs, fs, good⟩
    · obtain ⟨fits, clean⟩ := admitted.resolve_left hsize
      obtain ⟨bs', fs', c, grants⟩ := good.after_kmallocAlign tracks hsize fits clean hcall
      exact ⟨bs', fs', grants.good⟩
  | ksbrk increment =>
    obtain ⟨⟨ptr, h', env'⟩, hcall, rfl⟩ := map_eq_some_iff.mp run
    obtain ⟨hsmall, hwrap⟩ := admitted
    exact ⟨bs, fs, good.after_ksbrk tracks hsmall hwrap hcall⟩
  | kfree ptr =>
    rw [Call.exec, map_eq_some_iff] at run
    obtain ⟨h', hcall, rfl⟩ := run
    obtain ⟨blocks, hblocks, a, ha, rfl, hfree⟩ := admitted
    rw [good.blocks_eq hblocks] at ha
    obtain ⟨b, hb, rfl⟩ := mem_map.mp ha
    rw [good.layout.isFree hb] at hfree
    exact good.after_kfree hb hfree hcall
  | write addr byte =>
    cases run
    obtain ⟨⟨blocks, hblocks, haway⟩, hused⟩ := admitted
    rw [good.blocks_eq hblocks] at haway
    refine ⟨bs, fs, good.writes fun x hx => Function.update_of_ne ?_ _ _⟩
    rintro rfl
    rcases hx with ⟨u, hu, hlow, hhigh⟩ | ⟨hlow, hhigh⟩
    · have hout := haway u (by
        rcases hu with rfl | ⟨b, hb, rfl⟩
        · simp
        · exact mem_cons_of_mem _ (mem_map_of_mem hb))
      omega
    · have hceil := pageCeil_mono good.top_le
      omega

theorem good_init (tracks : P.Tracks mapped) {mem : Bytes} {env env' : σ} {heap : Heap}
    (run : kheapInit P mem env kernelBootInfo = some (heap, env')) :
    Good P mapped heap env' [] [] := by
  obtain ⟨layout, hstart, hend, htop⟩ := kheapInit_spec kernelBootInfo_valid run
  have hle : Layout (· ≤ ·) heap.mem heap.vmStart heap.kernelHeapTop [] [] :=
    { layout with tiled := le_of_eq layout.tiled }
  simp only [kheapInit, vmmCreatePage, bind_eq_bind, bind_eq_some_iff, Option.pure_def,
    Option.some.injEq, mk.injEq] at run
  obtain ⟨⟨h₁, env₁⟩, ⟨⟨fresh, env₂⟩, hcreate, rfl, rfl⟩, hheap, rfl⟩ := run
  simp only [kernelBootInfo, overhead] at hstart hend htop
  refine ⟨hle, hstart, hend, by omega, fun a hlow hhigh => ?_, fun hfresh a hlow hhigh => ?_⟩
  · have hpage : a / 4096 = kernelBootInfo.heapStart / 4096 := by
      simp only [kernelBootInfo]
      omega
    rw [hpage]
    exact tracks.creates hcreate
  · obtain rfl := hfresh _ _ _ _ _ hcreate
    have hfill : heap.mem = (mem.fill 0xD0000000 4096 0).fill 0xD0000000 12 0 := by
      rw [← hheap]
      rfl
    rw [htop] at hlow hhigh
    simp only [pageCeil] at hhigh
    rw [hfill, fill_of_notMem (.inr hlow), fill_of_mem (by omega) (by omega)]

theorem Attained.good (tracks : P.Tracks mapped) {s : Heap × σ} (attained : Attained P s) :
    ∃ bs fs, Good P mapped s.1 s.2 bs fs := by
  obtain ⟨mem, env, s₀, hinit, hruns⟩ := attained
  exact hruns.invariant (fun s => ∃ bs fs, Good P mapped s.1 s.2 bs fs) (good_step tracks)
    ⟨[], [], good_init tracks hinit⟩

theorem Attained.step {s t : Heap × σ} (attained : Attained P s) (call : Call)
    (admitted : call.Admitted P s) (run : call.exec P s = some t) : Attained P t := by
  obtain ⟨mem, env, s₀, hinit, hruns⟩ := attained
  exact ⟨mem, env, s₀, hinit, hruns.trans (Runs.single admitted run)⟩

end Hos.Kheap
