import Hos.Memory.Vmm.Range

/-!
# Giving a range back after allocating it

`vmm_deallocate_range` undoes `vmm_allocate_range` exactly when the range consists
of whole pages and the directory entries that it clears by megabytes do no harm:
each of them is an entry of the range whose table has no other page, or an entry
that is not present.
-/

namespace Hos.Vm

open Option List

/-- The pages that a range covers, in whole or in part. -/
def Covered (virtAddr size p : Nat) : Prop :=
  virtAddr / pageSize ≤ p ∧ p < (virtAddr + size + 4095) / pageSize

/-- The directory entries of these pages. -/
def Meets (virtAddr size i : Nat) : Prop := ∃ p, Covered virtAddr size p ∧ p / 1024 = i

/-- The directory entries that `vmm_deallocate_range` clears. -/
def Clears (virtAddr size i : Nat) : Prop :=
  alignUp virtAddr / 2 ^ 20 % 1024 ≤ i ∧ i < alignUp virtAddr / 2 ^ 20 % 1024 + size / 2 ^ 20

instance {virtAddr size i : Nat} : Decidable (Clears virtAddr size i) :=
  inferInstanceAs (Decidable (_ ∧ _))

/-- What is left of the range after giving it back: no page of it is mapped, the
frames that are free again are those of its pages and of the tables that are gone,
other pages are mapped as before, and a directory entry is as before when it is
not one of the range; a table that was there before is still there or gone. -/
structure Restored (vm vm₁ vm₂ : Vm) (d virtAddr size : Nat) : Prop where
  unmapped : ∀ p, Covered virtAddr size p → mapping vm₂.phys d p = none
  returned : ∀ g, vm₁.pmm.bit g = true ∧ vm₂.pmm.bit g = false ↔
    (∃ p raw, Covered virtAddr size p ∧ mapping vm₁.phys d p = some raw ∧ frameNo raw = g) ∨
      ∃ i < 1024, vm₂.phys.word d i ≠ vm₁.phys.word d i ∧ frameNo (vm₁.phys.word d i) = g
  pages : ∀ q < 1023 * 1024, ¬Covered virtAddr size q → mapping vm₂.phys d q = mapping vm.phys d q
  directory : ∀ i < 1024, ¬Meets virtAddr size i → vm₂.phys.word d i = vm.phys.word d i
  tables : ∀ i < 1024, present (vm.phys.word d i) = true →
    vm₂.phys.word d i = vm.phys.word d i ∨ vm₂.phys.word d i = 0

/-- The ranges that can be given back: whole pages, such that the entries which are
cleared are in the directory and are either entries of the range without other
pages or not present. -/
structure Invertible (vm : Vm) (d virtAddr size : Nat) : Prop where
  start_aligned : pageSize ∣ virtAddr
  size_aligned : pageSize ∣ size
  inside : ∀ i, Clears virtAddr size i → i < 1024
  alone : ∀ i, Clears virtAddr size i → Meets virtAddr size i →
    ∀ q, q / 1024 = i → ¬Covered virtAddr size q → mapping vm.phys d q = none
  absent : ∀ i, Clears virtAddr size i → ¬Meets virtAddr size i → present (vm.phys.word d i) = false

section

variable {vm vm₁ : Vm} {d virtAddr size flags : Nat}

theorem covered_lt {p : Nat} (hrange : virtAddr + size ≤ 0xFFC00000)
    (hp : Covered virtAddr size p) :
    p < 1023 * 1024 := by
  have hlt := hp.2
  rw [pageSize] at hlt
  omega

theorem mem_covered {p : Nat} : p ∈ List.range' (virtAddr / pageSize)
    ((virtAddr + size + 4095) / pageSize - virtAddr / pageSize) ↔ Covered virtAddr size p := by
  rw [mem_range'_1, Covered]
  omega

/-- `vmm_allocate_range` allocates every page that the range covers. -/
theorem Space.allocateRange (h : vm.Space d) (hrange : virtAddr + size ≤ 0xFFC00000)
    (hflags : present flags = true) (hlarge : large flags = false)
    (hunmapped : ∀ p, Covered virtAddr size p → mapping vm.phys d p = none)
    (hrun : vm.allocateRange virtAddr size flags = some vm₁) :
    vm.Grown vm₁ d {i | Meets virtAddr size i} {p | Covered virtAddr size p} := by
  have hend : (virtAddr + size + 4095) / pageSize < 2 ^ 20 := by
    rw [pageSize]
    omega
  rw [Vm.allocateRange, u32_of_lt (by omega), alignUp_eq hrange, alignDown, pageLoop_eq hend]
    at hrun
  have hps : ∀ p ∈ List.range' (virtAddr / pageSize)
      ((virtAddr + size + 4095) / pageSize - virtAddr / pageSize),
      p < 1023 * 1024 ∧ p ∉ (∅ : Set Nat) ∧ mapping vm.phys d p = none := by
    intro p hp
    have hcovered := mem_covered.mp hp
    exact ⟨covered_lt hrange hcovered, Set.notMem_empty p, hunmapped p hcovered⟩
  have hgrown := h.grown.createPages (fun p hp => absurd hp (Set.notMem_empty p)) hps
    nodup_range' hflags hlarge hrun
  simp only [mem_covered, Set.union_empty] at hgrown
  exact hgrown

end

/-- The pages that `vmm_deallocate_range` frees. -/
def Inner (virtAddr size p : Nat) : Prop :=
  (virtAddr + 4095) / pageSize ≤ p ∧ p < (virtAddr + size) / pageSize

section

variable {vm vm₁ vm₂ : Vm} {d virtAddr size : Nat}

theorem Inner.covered {p : Nat} (h : Inner virtAddr size p) : Covered virtAddr size p := by
  rw [Inner, pageSize] at h
  rw [Covered, pageSize]
  omega

/-- What `vmm_deallocate_range` leaves of the pages, the directory and the frames. -/
structure Deallocated (vm vm' : Vm) (d virtAddr size : Nat) : Prop where
  directory : ∀ i < 1024, vm'.phys.word d i =
    if Clears virtAddr size i ∧ present (vm.phys.word d i) = true then 0 else vm.phys.word d i
  gone : ∀ q < 1023 * 1024, Inner virtAddr size q ∨ Clears virtAddr size (q / 1024) →
    mapping vm'.phys d q = none
  kept : ∀ q < 1023 * 1024, ¬Inner virtAddr size q → ¬Clears virtAddr size (q / 1024) →
    mapping vm'.phys d q = mapping vm.phys d q
  bits : ∀ g, vm'.pmm.bit g = true ↔ vm.pmm.bit g = true ∧
    (∀ p, Inner virtAddr size p → ∀ raw, mapping vm.phys d p = some raw → frameNo raw ≠ g) ∧
    ∀ i, Clears virtAddr size i → present (vm.phys.word d i) = true → frameNo (vm.phys.word d i) ≠ g

theorem mem_inner {p : Nat} : p ∈ List.range' ((virtAddr + 4095) / pageSize)
    ((virtAddr + size) / pageSize - (virtAddr + 4095) / pageSize) ↔ Inner virtAddr size p := by
  rw [mem_range'_1, Inner]
  omega

theorem mem_clears {i : Nat} : i ∈ List.range' (alignUp virtAddr / 2 ^ 20 % 1024)
    (alignUp virtAddr / 2 ^ 20 % 1024 + size / 2 ^ 20 - alignUp virtAddr / 2 ^ 20 % 1024) ↔
      Clears virtAddr size i := by
  rw [mem_range'_1, Clears]
  omega

theorem deallocateRange_eq (hrange : virtAddr + size ≤ 0xFFC00000) :
    vm.deallocateRange virtAddr size = ((List.range' ((virtAddr + 4095) / pageSize)
        ((virtAddr + size) / pageSize - (virtAddr + 4095) / pageSize)).foldlM
          (fun (vm : Vm) p => vm.freePage (p * pageSize)) vm).bind
        fun vm => (List.range' (alignUp virtAddr / 2 ^ 20 % 1024)
          (alignUp virtAddr / 2 ^ 20 % 1024 + size / 2 ^ 20 - alignUp virtAddr / 2 ^
            20 % 1024)).foldlM freeTable vm := by
  have hend : (virtAddr + size) / pageSize < 2 ^ 20 := by
    rw [pageSize]
    omega
  have hstart : alignUp virtAddr = (virtAddr + 4095) / pageSize * pageSize := alignUp_eq (by omega)
  rw [← pageLoop_eq hend, ← hstart, ← alignDown_eq, deallocateRange, u32_of_lt (by omega)]
  rfl

variable {S : Set Nat} (h : vm.Recursive d) (htables : Tables vm.phys d S) (hS : ∀ i ∈ S, i < 1023)
  (hslots : ∀ p, Inner virtAddr size p → p / 1024 ∈ S) (hrange : virtAddr + size ≤ 0xFFC00000)

include h htables hS hslots hrange

theorem Recursive.deallocateRange (hinside : ∀ i, Clears virtAddr size i → i < 1024) :
    ∃ vm', vm.deallocateRange virtAddr size = some vm' ∧ vm.Deallocated vm' d virtAddr size := by
  obtain ⟨vm₁, hfree, hrec, hdir, hmapping, hpmm⟩ := h.freePages htables hS
    (fun p hp => hslots p (mem_inner.mp hp)) nodup_range'
  obtain ⟨vm₂, hclear, hdir', hother, hbits'⟩ := freeTables hrec.curPdir
    (fun i hi => hinside i (mem_clears.mp hi)) nodup_range'
  have hbits : ∀ g, vm₁.pmm.bit g = true ↔ vm.pmm.bit g = true ∧
      ∀ p, Inner virtAddr size p → ∀ raw, mapping vm.phys d p = some raw → frameNo raw ≠ g := by
    intro g
    simp only [hpmm, bit_freeFrames, mem_filterMap, mem_inner, map_eq_some_iff, not_exists, not_and]
  simp only [mem_clears] at hdir' hbits'
  have hkept : ∀ q < 1023 * 1024, ¬Clears virtAddr size (q / 1024) →
      mapping vm₂.phys d q = mapping vm₁.phys d q := by
    intro q hq hclears
    have hsame : vm₂.phys.word d (q / 1024) = vm₁.phys.word d (q / 1024) :=
      (hdir' _ (by omega)).trans (if_neg fun hand => hclears hand.1)
    refine mapping_congr hsame fun hpresent => hother _ ?_ _ (by omega)
    rw [hdir _ (by omega)] at hpresent ⊢
    exact htables.ne _ (by omega) hpresent
  refine ⟨vm₂, ?_, ?_, fun q hq hcases => ?_, fun q hq hinner hclears => ?_, fun g => ?_⟩
  · rw [deallocateRange_eq hrange, hfree]
    exact hclear
  · intro i hi
    rw [hdir' i hi, hdir i hi]
  · by_cases hclears : Clears virtAddr size (q / 1024)
    · refine mapping_eq_none_iff.mpr fun hpresent => absurd hpresent ?_
      rw [hdir' _ (by omega)]
      split
      · decide
      · next hand => exact fun hset => hand ⟨hclears, hset⟩
    · rw [hkept q hq hclears, hmapping q hq, if_pos (mem_inner.mpr (hcases.resolve_right hclears))]
  · rw [hkept q hq hclears, hmapping q hq, if_neg (mt mem_inner.mp hinner)]
  · have hrewrite : (∀ i, Clears virtAddr size i → present (vm₁.phys.word d i) = true →
        frameNo (vm₁.phys.word d i) ≠ g) ↔
        ∀ i, Clears virtAddr size i → present (vm.phys.word d i) = true →
          frameNo (vm.phys.word d i) ≠ g :=
      forall_congr' fun i => forall_congr' fun hi => by rw [hdir i (hinside i hi)]
    rw [hbits', hbits, hrewrite, and_assoc]

/-- The loop over directory entries runs out of the directory. -/
theorem Recursive.deallocateRange_eq_none {i : Nat} (hi : Clears virtAddr size i)
    (hout : 1024 ≤ i) : vm.deallocateRange virtAddr size = none := by
  obtain ⟨vm₁, hfree, _⟩ := h.freePages htables hS (fun p hp => hslots p (mem_inner.mp hp))
    nodup_range'
  rw [deallocateRange_eq hrange, hfree]
  exact freeTables_eq_none (mem_clears.mpr hi) hout

end

variable {vm vm₁ vm₂ : Vm} {d virtAddr size flags : Nat}

theorem Grown.tables {S P : Set Nat} (h : vm.Grown vm₁ d S P) :
    Tables vm₁.phys d {i | ∃ p ∈ P, p / 1024 = i} where
  ne := h.space.table_ne
  own := by
    rintro _ ⟨p, hp, rfl⟩ _ k hk hne hpresent
    exact h.own p hp k hk hne hpresent

theorem aligned_of_inner (h : ∀ p, Covered virtAddr size p → Inner virtAddr size p) :
    pageSize ∣ virtAddr ∧ pageSize ∣ size := by
  have hstart : pageSize ∣ virtAddr := by
    by_contra hne
    rw [pageSize, Nat.dvd_iff_mod_eq_zero] at hne
    have hinner := h (virtAddr / pageSize) ⟨Nat.le_refl _, by rw [pageSize]; omega⟩
    rw [Inner, pageSize] at hinner
    omega
  refine ⟨hstart, ?_⟩
  by_contra hne
  rw [pageSize, Nat.dvd_iff_mod_eq_zero] at hne hstart
  have hinner := h ((virtAddr + size) / pageSize) ⟨by rw [pageSize]; omega, by rw [pageSize]; omega⟩
  rw [Inner] at hinner
  omega

theorem covered_iff_inner (hstart : pageSize ∣ virtAddr) (hsize : pageSize ∣ size) {p : Nat} :
    Covered virtAddr size p ↔ Inner virtAddr size p := by
  rw [pageSize, Nat.dvd_iff_mod_eq_zero] at hstart hsize
  rw [Covered, Inner, pageSize]
  omega

section

variable (hgrown : vm.Grown vm₁ d {i | Meets virtAddr size i} {p | Covered virtAddr size p})
  (hdealloc : vm₁.Deallocated vm₂ d virtAddr size)

include hgrown hdealloc

/-- A page that is covered but not freed keeps its frame. -/
theorem inner_of_returned (hinside : ∀ i, Clears virtAddr size i → i < 1024)
    (hrestored : Restored vm vm₁ vm₂ d virtAddr size) {p : Nat} (hp : Covered virtAddr size p) :
    Inner virtAddr size p := by
  obtain ⟨raw, hraw, _, hset, hapart⟩ := hgrown.page p hp
  obtain ⟨_, hclear⟩ := (hrestored.returned (frameNo raw)).mpr (.inl ⟨p, raw, hp, hraw, rfl⟩)
  by_contra hinner
  have hbit : vm₂.pmm.bit (frameNo raw) = true := by
    refine (hdealloc.bits _).mpr ⟨hset, fun q hq raw' hraw' heq => hinner ?_, fun i hi hpresent =>
      hapart i (hinside i hi) hpresent⟩
    have hpq := hgrown.injective q hq.covered p hp raw' raw hraw' hraw heq
    exact hpq ▸ hq
  rw [hbit] at hclear
  cases hclear

theorem invertible_of_restored (hrange : virtAddr + size ≤ 0xFFC00000)
    (hinside : ∀ i, Clears virtAddr size i → i < 1024)
    (hrestored : Restored vm vm₁ vm₂ d virtAddr size) : Invertible vm d virtAddr size := by
  obtain ⟨hstart, hsize⟩ := aligned_of_inner fun p hp =>
    inner_of_returned hgrown hdealloc hinside hrestored hp
  refine ⟨hstart, hsize, hinside, fun i hi hmeets q hq hcovered => ?_, fun i hi hmeets => ?_⟩
  · obtain ⟨p, hp, hpi⟩ := hmeets
    have hlt := covered_lt hrange hp
    rw [← hrestored.pages q (by omega) hcovered]
    exact hdealloc.gone q (by omega) (.inr (hq ▸ hi))
  · refine Bool.eq_false_iff.mpr fun hpresent => ?_
    have hsame := hrestored.directory i (hinside i hi) hmeets
    have hkept := hgrown.directory i (hinside i hi) (.inl hpresent)
    rw [hdealloc.directory i (hinside i hi), hkept, if_pos ⟨hi, hpresent⟩] at hsame
    rw [← hsame] at hpresent
    cases hpresent

/-- The frames that are free again are those of the pages that were freed and of the
tables that are gone. -/
theorem Deallocated.returned (hinside : ∀ i, Clears virtAddr size i → i < 1024) (g : Nat) :
    vm₁.pmm.bit g = true ∧ vm₂.pmm.bit g = false ↔
      (∃ p raw, Inner virtAddr size p ∧ mapping vm₁.phys d p = some raw ∧ frameNo raw = g) ∨
        ∃ i < 1024, vm₂.phys.word d i ≠ vm₁.phys.word d i ∧ frameNo (vm₁.phys.word d i) = g := by
  have hbits := hdealloc.bits g
  have hchanged : ∀ i < 1024, Clears virtAddr size i → present (vm₁.phys.word d i) = true →
      vm₂.phys.word d i ≠ vm₁.phys.word d i := by
    intro i hi hclears hpresent heq
    rw [hdealloc.directory i hi, if_pos ⟨hclears, hpresent⟩] at heq
    rw [← heq] at hpresent
    cases hpresent
  constructor
  · rintro ⟨hset, hclear⟩
    by_contra hnone
    rw [not_or] at hnone
    rw [hbits.mpr ⟨hset, fun p hp raw hraw heq => hnone.1 ⟨p, raw, hp, hraw, heq⟩,
      fun i hi hpresent heq => hnone.2 ⟨i, hinside i hi, hchanged i (hinside i hi) hi hpresent,
        heq⟩⟩]
      at hclear
    cases hclear
  · rintro (⟨p, raw, hp, hraw, rfl⟩ | ⟨i, hi, hne, rfl⟩)
    · obtain ⟨raw', hraw', _, hset, _⟩ := hgrown.page p hp.covered
      rw [hraw] at hraw'
      cases hraw'
      refine ⟨hset, Bool.eq_false_iff.mpr fun hbit => ?_⟩
      exact (hbits.mp hbit).2.1 p hp raw hraw rfl
    · have hand : Clears virtAddr size i ∧ present (vm₁.phys.word d i) = true := by
        by_contra hnot
        exact hne ((hdealloc.directory i hi).trans (if_neg hnot))
      refine ⟨hgrown.space.used i hi hand.2, Bool.eq_false_iff.mpr fun hbit => ?_⟩
      exact (hbits.mp hbit).2.2 i hand.1 hand.2 rfl

theorem restored_of_invertible (hrange : virtAddr + size ≤ 0xFFC00000) (h : Invertible vm d virtAddr size) :
    Restored vm vm₁ vm₂ d virtAddr size := by
  have hinner : ∀ {p}, Covered virtAddr size p ↔ Inner virtAddr size p :=
    covered_iff_inner h.start_aligned h.size_aligned
  refine ⟨fun p hp => ?_, fun g => ?_, fun q hq hcovered => ?_, fun i hi hmeets => ?_, fun i hi
    hpresent => ?_⟩
  · exact hdealloc.gone p (covered_lt hrange hp) (.inl (hinner.mp hp))
  · rw [hdealloc.returned hgrown h.inside]
    simp only [hinner]
  · by_cases hclears : Clears virtAddr size (q / 1024)
    · rw [hdealloc.gone q hq (.inr hclears)]
      by_cases hmeets : Meets virtAddr size (q / 1024)
      · exact (h.alone _ hclears hmeets q rfl hcovered).symm
      · refine (mapping_eq_none_iff.mpr fun hpresent => ?_).symm
        rw [h.absent _ hclears hmeets] at hpresent
        cases hpresent
    · rw [hdealloc.kept q hq (mt hinner.mpr hcovered) hclears]
      exact hgrown.other q hq hcovered
  · have hsame := hgrown.directory i hi (.inr hmeets)
    rw [hdealloc.directory i hi, hsame]
    refine if_neg fun hand => ?_
    rw [h.absent i hand.1 hmeets] at hand
    cases hand.2
  · rw [hdealloc.directory i hi, hgrown.directory i hi (.inl hpresent)]
    split
    · exact .inr rfl
    · exact .inl rfl

end

/-- Allocating and giving back a range that is not mapped restores the directory,
the tables and the frames exactly when the range is invertible. -/
theorem range_restored_iff (hspace : vm.Space d) (hrange : virtAddr + size ≤ 0xFFC00000)
    (hflags : present flags = true) (hlarge : large flags = false)
    (hunmapped : ∀ p, Covered virtAddr size p → mapping vm.phys d p = none)
    (halloc : vm.allocateRange virtAddr size flags = some vm₁) :
    (∃ vm₂, vm₁.deallocateRange virtAddr size = some vm₂ ∧ Restored vm vm₁ vm₂ d virtAddr size) ↔
      Invertible vm d virtAddr size := by
  have hgrown := hspace.allocateRange hrange hflags hlarge hunmapped halloc
  have hslots : ∀ i ∈ {i | ∃ p ∈ {p | Covered virtAddr size p}, p / 1024 = i}, i < 1023 := by
    rintro _ ⟨p, hp, rfl⟩
    have hlt := covered_lt hrange hp
    omega
  have hinner : ∀ p, Inner virtAddr size p →
      p / 1024 ∈ {i | ∃ p ∈ {p | Covered virtAddr size p}, p / 1024 = i} :=
    fun p hp => ⟨p, hp.covered, rfl⟩
  have hrec := hgrown.space.toRecursive
  constructor
  · rintro ⟨vm₂, hdealloc, hrestored⟩
    have hinside : ∀ i, Clears virtAddr size i → i < 1024 := by
      intro i hi
      by_contra hout
      rw [hrec.deallocateRange_eq_none hgrown.tables hslots hinner hrange hi (by omega)] at hdealloc
      cases hdealloc
    obtain ⟨vm₂', hdealloc', heffect⟩ := hrec.deallocateRange hgrown.tables hslots hinner
      hrange hinside
    rw [hdealloc] at hdealloc'
    cases hdealloc'
    exact invertible_of_restored hgrown heffect hrange hinside hrestored
  · intro h
    obtain ⟨vm₂, hdealloc, heffect⟩ := hrec.deallocateRange hgrown.tables hslots hinner
      hrange h.inside
    exact ⟨vm₂, hdealloc, restored_of_invertible hgrown heffect hrange h⟩

/-- A directory in frame one of a memory of 64 frames, with nothing mapped. -/
def bareSpace : Vm where
  phys := Bytes.setWord (fun _ => 0) 1 1023 0x1003
  pmm := ⟨fun i => if i = 0 then 3#32 else 0, 64, 2, 0⟩
  cr3 := 0x1000
  curPdir := 0x1000

theorem word_bareSpace {i : Nat} (hi : i < 1023) : bareSpace.phys.word 1 i = 0 :=
  (Bytes.word_setWord_of_ne (by decide) (by omega) (.inr (by omega))).trans rfl

theorem space_bareSpace : bareSpace.Space 1 := by
  have hself : bareSpace.phys.word 1 1023 = 0x1003 := by decide
  have habsent : ∀ i < 1023, present (bareSpace.phys.word 1 i) = false := fun i hi => by
    rw [word_bareSpace hi]
    rfl
  refine ⟨⟨rfl, rfl, by rw [hself]; rfl, by rw [hself]; rfl⟩, ?_, ?_, ?_, ?_, by decide⟩
  · intro i hi hpresent
    rw [habsent i hi] at hpresent
    cases hpresent
  · intro i hi hpresent
    by_cases hlast : i = 1023
    · subst hlast
      decide
    · rw [habsent i (by omega)] at hpresent
      cases hpresent
  · intro i hi
    rw [word_bareSpace hi]
    rfl
  · intro i hi j hj hij hpresent
    rw [habsent i hi] at hpresent
    cases hpresent

theorem mapping_bareSpace {p : Nat} (hp : p < 1023 * 1024) : mapping bareSpace.phys 1 p = none := by
  refine mapping_eq_none_iff.mpr fun hpresent => ?_
  rw [word_bareSpace (by omega)] at hpresent
  cases hpresent

/-- One page at four megabytes. -/
theorem range_restored_iff_page : ∃ vm₁ vm₂, bareSpace.allocateRange 0x400000 0x1000 7 = some vm₁ ∧
    vm₁.deallocateRange 0x400000 0x1000 = some vm₂ ∧
      Restored bareSpace vm₁ vm₂ 1 0x400000 0x1000 := by
  have halloc : (bareSpace.allocateRange 0x400000 0x1000 7).isSome = true := by
    rw [allocateRange, show alignDown 0x400000 = 0x400 * pageSize from rfl,
      show alignUp (u32 (0x400000 + 0x1000)) = 0x401 * pageSize from rfl, pageLoop_eq (by decide)]
    decide +kernel
  obtain ⟨vm₁, hvm₁⟩ := isSome_iff_exists.mp halloc
  have hnone : ∀ i, ¬Clears 0x400000 0x1000 i := fun i hi => by
    have hlt := hi.2
    have hle := hi.1
    omega
  obtain ⟨vm₂, hdealloc, hrestored⟩ := (range_restored_iff space_bareSpace (by decide) (by decide)
    (by decide) (fun p hp => mapping_bareSpace (covered_lt (by decide) hp)) hvm₁).mpr
      ⟨by decide, by decide, fun i hi => absurd hi (hnone i), fun i hi => absurd hi (hnone i),
        fun i hi => absurd hi (hnone i)⟩
  exact ⟨vm₁, vm₂, hvm₁, hdealloc, hrestored⟩

/-- Four kilobytes that are spread over two pages: both are allocated, and neither
is given back. -/
theorem unaligned_range_stays_mapped : ∃ vm₁ vm₂,
    bareSpace.allocateRange 0x400800 0x1000 7 = some vm₁ ∧
      vm₁.deallocateRange 0x400800 0x1000 = some vm₂ ∧
      mapping vm₂.phys 1 0x400 ≠ none ∧ mapping vm₂.phys 1 0x401 ≠ none := by
  have halloc : (bareSpace.allocateRange 0x400800 0x1000 7).isSome = true := by
    rw [allocateRange, show alignDown 0x400800 = 0x400 * pageSize from rfl,
      show alignUp (u32 (0x400800 + 0x1000)) = 0x402 * pageSize from rfl, pageLoop_eq (by decide)]
    decide +kernel
  obtain ⟨vm₁, hvm₁⟩ := isSome_iff_exists.mp halloc
  have hgrown := space_bareSpace.allocateRange (by decide) (by decide) (by decide)
    (fun p hp => mapping_bareSpace (covered_lt (by decide) hp)) hvm₁
  have hmapped : ∀ p, Covered 0x400800 0x1000 p → mapping vm₁.phys 1 p ≠ none := by
    intro p hp hnone
    obtain ⟨raw, hraw, _⟩ := hgrown.page p hp
    rw [hnone] at hraw
    cases hraw
  refine ⟨vm₁, vm₁, hvm₁, ?_, hmapped 0x400 ⟨by decide, by decide⟩,
    hmapped 0x401 ⟨by decide, by decide⟩⟩
  rw [deallocateRange_eq (by decide)]
  rfl

end Hos.Vm
