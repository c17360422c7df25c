import Hos.Memory.Kheap.Calls

/-!
# Sizes up to the limit of the type

A request passes through several additions modulo `2^32`: the rounding to
sixteen bytes, the header, the product of `kcalloc`, the signed increment of
`ksbrk` and the new boundary of the heap. Here every 32-bit size is followed
through them, from any state of a run.

A failed extension is not noticed by `__do_malloc`, whose assertion only prints:
it goes on with a null block and returns the address twelve.
-/

namespace Hos.Kheap

open List Int

section

variable {σ : Type} {P : PageProvider σ} {mapped : σ → Nat → Prop} {h h' : Heap} {env env' : σ}
    {bs : List Block} {fs : List Nat} {size p : Nat}

/-- The call fails and leaves the heap as it was, or it returns `size` bytes that lie in the region
and on mapped pages. In both cases the top stays in the region. -/
def Served (mapped : σ → Nat → Prop) (h : Heap) (size : Nat) (call : Option (Nat × Heap × σ)) :
    Prop :=
  ∃ p h' env', call = some (p, h', env') ∧
    (p = 0 ∧ h' = h ∨
      p ≠ 0 ∧ h.vmStart ≤ p ∧ p + size ≤ h.vmEnd ∧ ∀ a, p ≤ a → a < p + size →
        mapped env' (a / 4096)) ∧
    h.vmStart ≤ h'.kernelHeapTop ∧ h'.kernelHeapTop ≤ h.vmEnd

theorem Good.failed (good : Good P mapped h env bs fs) {call : Option (Nat × Heap × σ)}
    (hcall : call = some (0, h, env)) : Served mapped h size call :=
  ⟨0, h, env, hcall, .inl ⟨rfl, rfl⟩, Nat.le_trans (Nat.le_add_right _ _) good.bounds.2.2,
    good.top_le⟩

/-- The block behind a pointer bounds the bytes that may be used. -/
theorem Grants.served {n : Nat} {c : Block} (good : Good P mapped h env bs fs) {bs' : List Block}
    {fs' : List Nat}
    (grants : Grants P mapped h' env' p n bs' fs' c) {call : Option (Nat × Heap × σ)}
    (hcall : call = some (p, h', env')) (hsize : size ≤ n) : Served mapped h size call := by
  obtain ⟨good', hmem, -, rfl, hle⟩ := grants
  have hbounds := good'.layout.addr_bounds hmem
  have htop := good'.top_le
  have hstart := good'.vmStart.trans good.vmStart.symm
  have hend := good'.vmEnd.trans good.vmEnd.symm
  refine ⟨_, h', env', hcall, .inr ⟨?_, ?_, ?_, fun a hal hah => good'.mapped a ?_ ?_⟩, ?_, ?_⟩
  all_goals
    simp only [Block.payload, overhead] at *
    omega

/-- A pointer to bytes that leave the region. -/
theorem not_served {call : Option (Nat × Heap × σ)} (hcall : call = some (p, h', env')) (hp : p ≠ 0)
    (hout : p < h.vmStart ∨ h.vmEnd < p + size) : ¬Served mapped h size call := by
  rintro ⟨p', h₁, env₁, hcall', hcases, -⟩
  obtain ⟨rfl, -⟩ : p = p' ∧ _ := by simpa using hcall.symm.trans hcall'
  omega

end

section

variable {σ : Type} {P : PageProvider σ} {mapped : σ → Nat → Prop} {h h' : Heap} {env env' : σ}
    {bs : List Block} {fs : List Nat} {size p : Nat}

/-- An increment that the region cannot hold: `ksbrk` refuses it, unless the new boundary wraps
around. Then the old top is returned, and no page is mapped. -/
theorem Good.brk_over (good : Good P mapped h env bs fs) (k : Nat) (hk : k < 2 ^ 32)
    (hover : h.vmEnd < h.kernelHeapTop + k) :
    (ksbrk P h env (i32 k) = some (0, h, env) ∧ (k < 2 ^ 31 → h.kernelHeapTop + k < 2 ^ 32)) ∨
      k < 2 ^ 31 ∧ 2 ^ 32 ≤ h.kernelHeapTop + k ∧
        ksbrk P h env (i32 k) = some (h.kernelHeapTop,
          { h with kernelHeapTop := h.kernelHeapTop + k - 2 ^ 32 }, env) := by
  have hend := good.vmEnd
  have htop := good.top_le
  by_cases hneg : 2 ^ 31 ≤ k
  · have hinc : ¬0 < i32 k := Int.not_lt.mpr (Int.le_of_lt (i32_neg hneg hk))
    refine .inl ⟨?_, fun hpos => absurd hpos (Nat.not_lt.mpr hneg)⟩
    simp only [ksbrk, doBrk, hinc, if_false, Option.pure_def]
  · have hpos : (0 : Int) < k := by omega
    have hint : i32 k = k := i32_of_lt (by omega)
    by_cases hwrap : h.kernelHeapTop + k < 2 ^ 32
    · refine .inl ⟨?_, fun _ => hwrap⟩
      have hno : ¬h.kernelHeapTop + k ≤ h.vmEnd := by omega
      simp only [ksbrk, doBrk, hint, hpos, if_true, toNat_natCast, u32_of_lt hwrap, hno, if_false,
        Option.pure_def]
    · have hboundary : u32 (h.kernelHeapTop + k) = h.kernelHeapTop + k - 2 ^ 32 := by
        simp only [u32]
        omega
      have hle : h.kernelHeapTop + k - 2 ^ 32 ≤ h.vmEnd := by omega
      -- The wrapped boundary lies below the top, so the page loop is not entered.
      have hnone : (pageAlignUp (h.kernelHeapTop + k - 2 ^ 32) - pageAlignUp h.kernelHeapTop) /
          pageSize = 0 := by
        simp only [pageAlignUp_eq, u32, pageSize]
        omega
      refine .inr ⟨by omega, by omega, ?_⟩
      simp only [ksbrk, doBrk, hint, hpos, if_true, toNat_natCast, hboundary, hle, hnone,
        createPages, Option.bind_eq_bind, Option.bind_some, Option.pure_def]

/-- A request that is rounded to nothing or does not fit returns bytes outside the region. -/
theorem Good.kmalloc_over (good : Good P mapped h env bs fs) (tracks : P.Tracks mapped)
    (hsize : size ≠ 0) (hlt : size < 2 ^ 32) (hbad : ¬(size ≤ 0xFFFFFFF0 ∧ h.Fits size))
    (run : kmalloc P h env size = some (p, h', env')) :
    p ≠ 0 ∧ (p < h.vmStart ∨ h.vmEnd < p + size) := by
  have hend := good.vmEnd
  have hstart := good.vmStart
  by_cases hfits : h.Fits size
  · obtain ⟨bs', fs', c, grants⟩ := good.after_kmalloc tracks hsize hfits run
    have hlarge : 0xFFFFFFF0 < size := Nat.lt_of_not_le fun hsmall => hbad ⟨hsmall, hfits⟩
    have hp := grants.payload
    simp only [Block.payload, overhead] at hp
    omega
  · obtain ⟨hfind, hover⟩ := Classical.not_imp.mp hfits
    have hround : ceil16 size + overhead < 2 ^ 32 := ceil16_add_lt
    have hnear : size ≤ 0xFFFFFFF0 → ceil16 size < size + 16 := by
      intro hsmall
      rw [ceil16_eq, u32_of_lt (by omega)]
      omega
    rw [kmalloc_of_none env hsize hfind] at run
    simp only [extendHeap, Option.bind_eq_bind, Option.bind_eq_some_iff, Option.pure_def,
      Option.some.injEq, Prod.mk.injEq] at run
    obtain ⟨⟨ret, h₁, env₁⟩, hbrk, rfl, -⟩ := run
    rcases good.brk_over (ceil16 size + overhead) hround (by omega) with
      ⟨hfail, -⟩ | ⟨-, hwrap, hmove⟩
    · obtain ⟨rfl, -⟩ : ret = 0 ∧ _ := by simpa using hbrk.symm.trans hfail
      simp only [u32, overhead]
      omega
    · obtain ⟨rfl, -⟩ : ret = h.kernelHeapTop ∧ _ := by simpa using hbrk.symm.trans hmove
      have htop := good.top_le
      have hptr : u32 (h.kernelHeapTop + overhead) = h.kernelHeapTop + overhead :=
        u32_of_lt (by simp only [overhead]; omega)
      rw [hptr]
      omega

end

section

variable {σ : Type} {P : PageProvider σ} {mapped : σ → Nat → Prop} {h : Heap} {env : σ}
    {bs : List Block} {fs : List Nat} {size : Nat}

theorem Good.kmalloc_served_iff (good : Good P mapped h env bs fs) (tracks : P.Tracks mapped)
    (total : P.Total) (hlt : size < 2 ^ 32) :
    Served mapped h size (kmalloc P h env size) ↔ size = 0 ∨ size ≤ 0xFFFFFFF0 ∧ h.Fits size := by
  obtain ⟨⟨p, h', env'⟩, run⟩ := Option.isSome_iff_exists.mp
    (doMalloc_isSome good.layout total env size)
  by_cases hsize : size = 0
  · refine iff_of_true (good.failed ?_) (.inl hsize)
    simp only [kmalloc, doMalloc, hsize, if_true, Option.pure_def]
  · rw [or_iff_right hsize]
    constructor
    · intro hserved
      by_contra hbad
      obtain ⟨hp, hout⟩ := good.kmalloc_over tracks hsize hlt hbad run
      exact not_served run hp hout hserved
    · rintro ⟨hsmall, hfits⟩
      obtain ⟨bs', fs', c, grants⟩ := good.after_kmalloc tracks hsize hfits run
      exact grants.served good run (le_ceil16 hsmall)

/-- The pointer of `kcalloc` is that of `kmalloc` for the wrapped product. -/
theorem kcalloc_ptr {num p : Nat} {h' : Heap} {env' : σ}
    (run : kmalloc P h env (u32 (num * size)) = some (p, h', env')) :
    ∃ m, kcalloc P h env num size = some (p, { h' with mem := m }, env') ∧
      (p = 0 → m = h'.mem) := by
  by_cases hp : p = 0
  · refine ⟨h'.mem, ?_, fun _ => rfl⟩
    simp only [kcalloc, run, Option.bind_eq_bind, Option.bind_some, hp, ne_eq,
      not_true_eq_false, if_false, Option.pure_def]
  · refine ⟨memsetZero h'.mem p (u32 (num * size)), ?_, fun hzero => absurd hzero hp⟩
    simp only [kcalloc, run, Option.bind_eq_bind, Option.bind_some, ne_eq, hp,
      not_false_eq_true, if_true, Option.pure_def]

section

variable (good : Good P mapped h env bs fs) (tracks : P.Tracks mapped) (total : P.Total)
include good tracks total

theorem Good.kcalloc_served_iff (num size : Nat) :
    Served mapped h (num * size) (kcalloc P h env num size) ↔
      u32 (num * size) = 0 ∨ num * size ≤ 0xFFFFFFF0 ∧ h.Fits (num * size) := by
  obtain ⟨⟨p, h', env'⟩, run⟩ :=
    Option.isSome_iff_exists.mp (doMalloc_isSome good.layout total env (u32 (num * size)))
  obtain ⟨m, hcall, hfail⟩ := kcalloc_ptr run
  by_cases hsize : u32 (num * size) = 0
  · refine iff_of_true (good.failed ?_) (.inl hsize)
    have hnull : kmalloc P h env (u32 (num * size)) = some (0, h, env) := by
      simp only [kmalloc, doMalloc, hsize, if_true, Option.pure_def]
    obtain ⟨rfl, rfl, rfl⟩ : p = 0 ∧ h' = h ∧ env' = env := by simpa using run.symm.trans hnull
    rw [hcall, hfail rfl]
  · rw [or_iff_right hsize]
    have hlt := u32_lt (num * size)
    have hle : u32 (num * size) ≤ num * size := Nat.mod_le _ _
    constructor
    · intro hserved
      by_contra hbad
      have hout : p ≠ 0 ∧ (p < h.vmStart ∨ h.vmEnd < p + num * size) := by
        by_cases hok : u32 (num * size) ≤ 0xFFFFFFF0 ∧ h.Fits (u32 (num * size))
        · -- The product has wrapped.
          obtain ⟨bs', fs', c, grants⟩ := good.after_kmalloc tracks hsize hok.2 run
          have hp := grants.payload
          have hend := good.bounds.1
          have hwrap : 2 ^ 32 ≤ num * size := by
            by_contra hno
            rw [u32_of_lt (by omega)] at hok
            exact hbad hok
          simp only [Block.payload, overhead] at hp
          omega
        · obtain ⟨hp, hout⟩ := good.kmalloc_over tracks hsize hlt hok run
          omega
      exact not_served hcall hout.1 hout.2 hserved
    · rintro ⟨hsmall, hfits⟩
      have hsame : u32 (num * size) = num * size := u32_of_lt (by omega)
      obtain ⟨bs', fs', c, grants⟩ :=
        good.after_kcalloc tracks hsize (by omega) (by rw [hsame]; exact hfits) hcall
      exact grants.served good hcall (by rw [hsame]; exact le_ceil16 hsmall)

theorem Good.ksbrk_served_iff {increment : Int} (hlt : increment < 2 ^ 31) :
    Served mapped h increment.toNat (ksbrk P h env increment) ↔
      increment ≤ 0 ∨ h.kernelHeapTop + increment < 2 ^ 32 := by
  obtain ⟨hend, hregion, hlow⟩ := good.bounds
  by_cases hpos : 0 < increment
  · obtain ⟨k, rfl⟩ := eq_ofNat_of_zero_le (Int.le_of_lt hpos)
    have hint : i32 k = k := i32_of_lt (by omega)
    rw [toNat_natCast, or_iff_right (by omega), ← hint]
    by_cases hfit : h.kernelHeapTop + k ≤ h.vmEnd
    · refine iff_of_true ?_ (by omega)
      obtain ⟨⟨p, h', env'⟩, run⟩ := Option.isSome_iff_exists.mp (doBrk_isSome total h env (i32 k))
      obtain ⟨rfl, ⟨m, rfl⟩, -, hmap, -⟩ := good.brk tracks (by omega) hfit run
      refine ⟨_, _, env', run, .inr ⟨?_, ?_, hfit, fun a hal hah => hmap a ?_ hah⟩, ?_, hfit⟩
      all_goals
        simp only [overhead] at hlow ⊢
        omega
    · rcases good.brk_over k (by omega) (by omega) with ⟨hfail, hwrap⟩ | ⟨hk, hwrap, hmove⟩
      · exact iff_of_true (good.failed hfail) (by omega)
      · refine iff_of_false (not_served hmove ?_ (.inr (by omega))) (by omega)
        omega
  · refine iff_of_true (good.failed ?_) (.inl (Int.not_lt.mp hpos))
    simp only [ksbrk, doBrk, hpos, if_false, Option.pure_def]

end

/-- All sizes, from every state of a run. -/
theorem heap_sizes_iff (tracks : P.Tracks mapped) (total : P.Total) {s : Heap × σ}
    (attained : Attained P s) :
    (∀ size < 2 ^ 32, Served mapped s.1 size (kmalloc P s.1 s.2 size) ↔
      size = 0 ∨ size ≤ 0xFFFFFFF0 ∧ s.1.Fits size) ∧
    (∀ num < 2 ^ 32, ∀ size < 2 ^ 32, Served mapped s.1 (num * size) (kcalloc P s.1 s.2 num size) ↔
      u32 (num * size) = 0 ∨ num * size ≤ 0xFFFFFFF0 ∧ s.1.Fits (num * size)) ∧
    ∀ increment : Int, -2 ^ 31 ≤ increment → increment < 2 ^ 31 →
      (Served mapped s.1 increment.toNat (ksbrk P s.1 s.2 increment) ↔
        increment ≤ 0 ∨ s.1.kernelHeapTop + increment < 2 ^ 32) := by
  obtain ⟨bs, fs, good⟩ := attained.good tracks
  exact ⟨fun size hlt => good.kmalloc_served_iff tracks total hlt,
    fun num _ size _ => good.kcalloc_served_iff tracks total num size,
    fun increment _ hlt => good.ksbrk_served_iff tracks total hlt⟩

end

/-- Physical memory that never runs out and remembers which pages it has handed out. -/
def loggedPages : PageProvider (List Nat) where
  createPage pages addr _ := some (true, addr / 4096 :: pages)

theorem loggedPages_total : loggedPages.Total := fun _ _ _ => rfl

theorem loggedPages_tracks : loggedPages.Tracks fun pages p => p ∈ pages where
  creates := by
    rintro pages addr flags fresh pages' ⟨⟩
    simp
  keeps := by
    rintro pages addr flags fresh pages' p ⟨⟩ hp
    exact mem_cons_of_mem _ hp

theorem attained_boot : ∃ s, Attained loggedPages s ∧ s.1.kernelHeapTop = 0xD000000C ∧
    Good loggedPages (fun pages p => p ∈ pages) s.1 s.2 [] [] := by
  have hinit : ∃ s, kheapInit loggedPages (fun _ => 0) [] kernelBootInfo = some s := ⟨_, rfl⟩
  obtain ⟨⟨h, pages⟩, hinit⟩ := hinit
  obtain ⟨-, -, -, htop⟩ := kheapInit_spec kernelBootInfo_valid hinit
  exact ⟨_, ⟨_, _, _, hinit, Runs.refl _⟩, htop, good_init loggedPages_tracks hinit⟩

/-- Ordinary requests after boot. -/
theorem heap_sizes_boot :
    ∃ s, Attained loggedPages s ∧
      Served (fun pages p => p ∈ pages) s.1 100 (kmalloc loggedPages s.1 s.2 100) ∧
      Served (fun pages p => p ∈ pages) s.1 (3 * 4096) (kcalloc loggedPages s.1 s.2 3 4096) ∧
      Served (fun pages p => p ∈ pages) s.1 8192 (ksbrk loggedPages s.1 s.2 8192) := by
  obtain ⟨s, attained, htop, good⟩ := attained_boot
  obtain ⟨hkmalloc, hkcalloc, hksbrk⟩ := heap_sizes_iff loggedPages_tracks
    loggedPages_total attained
  have hend := good.vmEnd
  have fits : ∀ size ≤ 0x10000, s.1.Fits size := by
    intro size hsize _
    rw [htop, hend, ceil16_eq, u32_of_lt (by omega), overhead]
    omega
  refine ⟨s, attained, (hkmalloc 100 (by decide)).mpr (.inr ⟨by decide, fits _ (by decide)⟩),
    (hkcalloc 3 (by decide) 4096 (by decide)).mpr (.inr ⟨by decide, fits _ (by decide)⟩),
    (hksbrk 8192 (by decide) (by decide)).mpr (.inr ?_)⟩
  rw [htop]
  decide

/-- After boot `kmalloc` of the whole region returns a pointer below the heap, `kcalloc` of a
product
that wraps returns a block that is too small, and `ksbrk` of a gibibyte moves the top out of the
region. -/
theorem heap_sizes_over :
    ∃ s, Attained loggedPages s ∧
      ¬Served (fun pages p => p ∈ pages) s.1 0x20000000 (kmalloc loggedPages s.1 s.2 0x20000000) ∧
      ¬Served (fun pages p => p ∈ pages) s.1 (0x10001 * 0x10000)
        (kcalloc loggedPages s.1 s.2 0x10001 0x10000) ∧
      ∃ h pages, ksbrk loggedPages s.1 s.2 0x40000000 = some (0xD000000C, h, pages) ∧
        h.kernelHeapTop = 0x1000000C := by
  obtain ⟨s, attained, htop, good⟩ := attained_boot
  have hend := good.vmEnd
  refine ⟨s, attained, ?_, ?_, ?_⟩
  · rw [good.kmalloc_served_iff loggedPages_tracks loggedPages_total (by decide)]
    rintro (hzero | ⟨-, fits⟩)
    · omega
    · obtain ⟨b, hbest, -⟩ | ⟨-, hfind⟩ :=
        findBestFitting_best (n := ceil16 0x20000000) good.layout ceil16_mod
      · exact absurd hbest.mem not_mem_nil
      · have hroom := fits hfind
        rw [htop, hend] at hroom
        exact absurd hroom (by decide)
  · rw [good.kcalloc_served_iff loggedPages_tracks loggedPages_total]
    rintro (hzero | ⟨hsmall, -⟩)
    · exact absurd hzero (by decide)
    omega
  · rcases good.brk_over 0x40000000 (by decide) (by omega) with ⟨-, hwrap⟩ | ⟨-, -, hmove⟩
    · omega
    · rw [htop, show i32 0x40000000 = 0x40000000 by decide] at hmove
      exact ⟨_, _, hmove, rfl⟩

end Hos.Kheap
