import Hos.Memory.Vmm.Map

/-!
# Unmapping a range after mapping it

`vmm_map_range` rounds the bounds of the range outwards and `vmm_unmap_range` rounds
them inwards. A page that the range covers in part is mapped by the one and left
alone by the other, so the two undo each other for ranges of whole pages. For an
empty range inside a page, nothing is unmapped, and the page is as before when its
entry was the one that is written.
-/

namespace Hos.Vm

open List

/-- No page of the range is mapped, and every other page is as before. -/
structure Unmapped (vm vm' : Vm) (d virtAddr size : Nat) : Prop where
  range : ∀ p, Overlaps virtAddr size p → mapping vm'.phys d p = none
  other : ∀ q < 1023 * 1024, ¬Overlaps virtAddr size q → mapping vm'.phys d q = mapping vm.phys d q

variable {vm vm₁ vm' : Vm} {d virtAddr physAddr size flags p q : Nat} {ps : List Nat}

/-- `vmm_unmap_page` clears the entry of a page that is mapped. -/
theorem Linked.unmapPage (h : vm.Linked d) (hp : p < 1023 * 1024) :
    ∃ vm', vm.unmapPage (p * pageSize) = some vm' ∧ vm'.Linked d ∧
      (∀ i < 1024, vm'.phys.word d i = vm.phys.word d i) ∧
      (∀ q < 1023 * 1024, SameEntry vm.phys d q p → mapping vm'.phys d q = none) ∧
      ∀ q < 1023 * 1024, ¬SameEntry vm.phys d q p → mapping vm'.phys d q = mapping vm.phys d q := by
  have hentry := h.mappedEntry_eq hp
  cases hmapping : mapping vm.phys d p with
  | none =>
    refine ⟨vm, ?_, h, fun _ _ => rfl, fun q _ hqp => hqp.mapping_eq.trans hmapping,
      fun _ _ _ => rfl⟩
    rw [Vm.unmapPage, hentry, hmapping]
    rfl
  | some raw =>
    obtain ⟨htable, -, -⟩ := mapping_eq_some_iff.mp hmapping
    obtain ⟨phys, hphys⟩ : ∃ phys, phys =
        vm.phys.setWord (frameNo (vm.phys.word d (p / 1024))) (p % 1024) 0 := ⟨_, rfl⟩
    obtain ⟨hwords, hsame, hother⟩ := h.setLeaf hp htable (Nat.two_pow_pos 32) hphys
    refine ⟨{ vm with phys := phys }, ?_, h.congr rfl rfl hwords (fun _ hg => hg) rfl, hwords,
      hsame, hother⟩
    rw [Vm.unmapPage, hentry, hmapping, hphys]
    rfl

theorem Linked.unmapPages (h : vm.Linked d) (hps : ∀ p ∈ ps, p < 1023 * 1024) :
    ∃ vm', ps.foldlM (fun vm p => vm.unmapPage (p * pageSize)) vm = some vm' ∧
      (∀ q < 1023 * 1024, (∃ p ∈ ps, SameEntry vm.phys d q p) → mapping vm'.phys d q = none) ∧
      ∀ q < 1023 * 1024, (∀ p ∈ ps, ¬SameEntry vm.phys d q p) →
        mapping vm'.phys d q = mapping vm.phys d q := by
  induction ps generalizing vm with
  | nil =>
    simp
  | cons p ps ih =>
    have hp := hps p mem_cons_self
    have hlater : ∀ r ∈ ps, r < 1023 * 1024 := fun r hr => hps r (mem_cons_of_mem p hr)
    obtain ⟨vm₁, hfirst, hlinked, hdir, hgone, hkept⟩ := h.unmapPage hp
    have hsame : ∀ q < 1023 * 1024, ∀ r < 1023 * 1024,
        SameEntry vm₁.phys d q r ↔ SameEntry vm.phys d q r := fun q hq r hr =>
      SameEntry.congr (hdir _ (by omega)) (hdir _ (by omega))
    obtain ⟨vm', hrest, hgone', hkept'⟩ := ih hlinked hlater
    refine ⟨vm', ?_, fun q hq hmem => ?_, fun q hq hnone => ?_⟩
    · rw [foldlM_cons, hfirst]
      exact hrest
    · by_cases hlast : ∃ r ∈ ps, SameEntry vm.phys d q r
      · obtain ⟨r, hr, hqr⟩ := hlast
        exact hgone' q hq ⟨r, hr, (hsame q hq r (hlater r hr)).mpr hqr⟩
      · rw [hkept' q hq fun r hr hqr => hlast ⟨r, hr, (hsame q hq r (hlater r hr)).mp hqr⟩]
        obtain ⟨r, hr, hqr⟩ := hmem
        obtain rfl | hmem := mem_cons.mp hr
        · exact hgone q hq hqr
        · exact absurd ⟨r, hmem, hqr⟩ hlast
    · rw [hkept' q hq fun r hr hqr => hnone r (mem_cons_of_mem p hr)
        ((hsame q hq r (hlater r hr)).mp hqr)]
      exact hkept q hq (hnone p mem_cons_self)

theorem unmapRange_eq (hrange : virtAddr + size ≤ 0xFFC00000) : vm.unmapRange virtAddr size =
    (List.range' ((virtAddr + 4095) / pageSize)
      ((virtAddr + size) / pageSize - (virtAddr + 4095) / pageSize)).foldlM
        (fun vm p => vm.unmapPage (p * pageSize)) vm := by
  have hend : (virtAddr + size) / pageSize < 2 ^ 20 := by
    rw [pageSize]
    omega
  rw [Vm.unmapRange, u32_of_lt (by omega), alignUp_eq (by omega), @alignDown_eq (virtAddr + size),
    pageLoop_eq hend]

/-- `vmm_unmap_range` unmaps the pages that lie in the range as a whole. -/
theorem Linked.unmapRange (h : vm.Linked d) (hrange : virtAddr + size ≤ 0xFFC00000) :
    ∃ vm', vm.unmapRange virtAddr size = some vm' ∧
      (∀ q < 1023 * 1024, (∃ p, Inner virtAddr size p ∧ SameEntry vm.phys d q p) →
        mapping vm'.phys d q = none) ∧
      ∀ q < 1023 * 1024, (∀ p, Inner virtAddr size p → ¬SameEntry vm.phys d q p) →
        mapping vm'.phys d q = mapping vm.phys d q := by
  obtain ⟨vm', hrun, hgone, hkept⟩ := h.unmapPages
    (fun p hp => covered_lt hrange (mem_inner.mp hp).covered)
  refine ⟨vm', (unmapRange_eq hrange).trans hrun, fun q hq hmem => ?_, fun q hq hnone => ?_⟩
  · obtain ⟨p, hp, hqp⟩ := hmem
    exact hgone q hq ⟨p, mem_inner.mpr hp, hqp⟩
  · exact hkept q hq fun p hp => hnone p (mem_inner.mp hp)

theorem Space.unmapped_iff_of_pos (h : vm.Space d) (hrange : virtAddr + size ≤ 0xFFC00000)
    (hflags : present flags = true) (hlarge : large flags = false) (hsize : 0 < size)
    (hunmapped : ∀ p, Overlaps virtAddr size p → mapping vm.phys d p = none)
    (hrun : vm.mapRange virtAddr physAddr size flags = some vm₁) :
    (∃ vm₂, vm₁.unmapRange virtAddr size = some vm₂ ∧ Unmapped vm vm₂ d virtAddr size) ↔
      pageSize ∣ virtAddr ∧ pageSize ∣ size := by
  have hsmall : SmallSlots vm.phys d flags {i | Meets virtAddr size i} := fun i hi =>
    ⟨h.small i (meets_lt hrange i hi), fun _ => hlarge⟩
  obtain ⟨hlinked, -, hsame, hpages⟩ := h.linked.mapRange hrange hflags hsmall hrun
  have hlt : ∀ {p}, Covered virtAddr size p → p < 1023 * 1024 := covered_lt hrange
  have hoverlaps : ∀ {p}, Overlaps virtAddr size p ↔ Covered virtAddr size p := fun {p} => by
    rw [overlaps_iff, and_iff_right hsize]
  have heq : ∀ {q p}, q < 1023 * 1024 → Covered virtAddr size p → SameEntry vm.phys d q p → q = p :=
    fun hq hp hqp => h.eq_of_sameEntry hq (hlt hp) (hunmapped _ (hoverlaps.mpr hp)) hqp
  have hmapped : ∀ p, Covered virtAddr size p → mapping vm₁.phys d p ≠ none := by
    intro p hp hnone
    obtain ⟨_, _, _, raw, hraw, -⟩ | ⟨hother, -⟩ := hpages p (hlt hp)
    · rw [hnone] at hraw
      cases hraw
    · exact hother p hp (SameEntry.refl _ _ _)
  have hothers : ∀ q < 1023 * 1024, ¬Covered virtAddr size q →
      mapping vm₁.phys d q = mapping vm.phys d q := by
    intro q hq hcovered
    obtain ⟨p, hp, hqp, -⟩ | ⟨-, hkept⟩ := hpages q hq
    · exact absurd (heq hq hp hqp ▸ hp) hcovered
    · exact hkept
  obtain ⟨vm₂, hunmap, hgone, hkept⟩ := hlinked.unmapRange hrange
  -- the pages of the range share no entries, so exactly the inner ones are unmapped
  have houter : ∀ q < 1023 * 1024, ¬Inner virtAddr size q →
      mapping vm₂.phys d q = mapping vm₁.phys d q := by
    intro q hq hinner
    refine hkept q hq fun p hp hqp => hinner ?_
    have hqp' := (hsame q hq p (hlt hp.covered)).mp hqp
    exact heq hq hp.covered hqp' ▸ hp
  constructor
  · rintro ⟨vm₂', hunmap', hrestored⟩
    rw [hunmap] at hunmap'
    cases hunmap'
    refine aligned_of_inner fun p hp => ?_
    by_contra hinner
    exact hmapped p hp ((houter p (hlt hp) hinner).symm.trans
      (hrestored.range p (hoverlaps.mpr hp)))
  · rintro ⟨hstart, hlength⟩
    have hinner : ∀ {p}, Covered virtAddr size p ↔ Inner virtAddr size p :=
      covered_iff_inner hstart hlength
    refine ⟨vm₂, hunmap, fun p hp => ?_, fun q hq hoverlap => ?_⟩
    · have hp := hoverlaps.mp hp
      exact hgone p (hlt hp) ⟨p, hinner.mp hp, SameEntry.refl _ _ _⟩
    · have hcovered := mt hoverlaps.mpr hoverlap
      exact (houter q hq (mt hinner.mpr hcovered)).trans (hothers q hq hcovered)

theorem newEntry_mod {old f : Nat} : newEntry old (f % 2 ^ 20) flags = newEntry old f flags := by
  rw [newEntry, newEntry, Nat.mod_mod]

theorem Linked.unmapped_iff_of_inside (h : vm.Linked d) (hrange : virtAddr ≤ 0xFFC00000)
    (hinside : ¬pageSize ∣ virtAddr) (hflags : present flags = true)
    (hsmall : SmallSlots vm.phys d flags {i | Meets virtAddr 0 i})
    (hrun : vm.mapRange virtAddr physAddr 0 flags = some vm₁) :
    (∀ q < 1023 * 1024, mapping vm₁.phys d q = mapping vm.phys d q) ↔
      ∃ raw, mapping vm.phys d (virtAddr / pageSize) = some raw ∧
        newEntry raw (physAddr / pageSize) flags = raw := by
  rw [pageSize, Nat.dvd_iff_mod_eq_zero] at hinside
  have hone : (virtAddr + 0 + 4095) / pageSize - virtAddr / pageSize = 1 := by
    rw [pageSize]
    omega
  have hpage : virtAddr / pageSize < 1023 * 1024 := by
    rw [pageSize]
    omega
  rw [mapRange_eq (by omega), hone] at hrun
  simp only [range'_one, foldlM_cons, foldlM_nil, bind_pure] at hrun
  have hslot : virtAddr / pageSize / 1024 ∈ {i | Meets virtAddr 0 i} := by
    refine ⟨_, ⟨Nat.le_refl _, ?_⟩, rfl⟩
    omega
  obtain ⟨-, -, -, hmaps⟩ := h.mapAt_step (meets_lt hrange) hsmall hflags hslot hrun
  obtain ⟨old, hold⟩ := hmaps.entry
  rw [physAddr_div (Nat.le_refl _), target, Nat.sub_self, Nat.add_zero] at hold
  simp only [newEntry_mod] at hold
  have hfirst := hold _ hpage (SameEntry.refl _ _ _)
  constructor
  · intro hsame
    have hraw := (hsame _ hpage).symm.trans hfirst.2
    have heq := hfirst.1 _ hraw
    exact ⟨old, hraw.trans (congrArg some heq.symm), heq.symm⟩
  · rintro ⟨raw, hraw, hentry⟩ q hq
    by_cases hqp : SameEntry vm.phys d q (virtAddr / pageSize)
    · rw [(hold q hq hqp).2, hqp.mapping_eq, hraw, hfirst.1 raw hraw]
      exact congrArg some hentry
    · exact hmaps.other q hq hqp

/-- Mapping and unmapping a range of which no page is mapped leaves none of its pages
mapped and all others as before exactly when it consists of whole pages, or is empty
and inside a page that already has the entry that is written. -/
theorem map_unmap_iff (h : vm.Space d) (hrange : virtAddr + size ≤ 0xFFC00000)
    (hflags : present flags = true) (hlarge : large flags = false)
    (hunmapped : ∀ p, Overlaps virtAddr size p → mapping vm.phys d p = none)
    (hrun : vm.mapRange virtAddr physAddr size flags = some vm₁) :
    (∃ vm₂, vm₁.unmapRange virtAddr size = some vm₂ ∧ Unmapped vm vm₂ d virtAddr size) ↔
      pageSize ∣ virtAddr ∧ pageSize ∣ size ∨
        size = 0 ∧ ∃ raw, mapping vm.phys d (virtAddr / pageSize) = some raw ∧
          newEntry raw (physAddr / pageSize) flags = raw := by
  by_cases hsize : 0 < size
  · rw [h.unmapped_iff_of_pos hrange hflags hlarge hsize hunmapped hrun]
    omega
  · obtain rfl : size = 0 := by omega
    have hnone : ∀ p, ¬Overlaps virtAddr 0 p := fun p hp => hsize (overlaps_iff.mp hp).1
    have hsmall : SmallSlots vm.phys d flags {i | Meets virtAddr 0 i} := fun i hi =>
      ⟨h.small i (meets_lt hrange i hi), fun _ => hlarge⟩
    obtain ⟨hlinked, -, -, hpages⟩ := h.linked.mapRange hrange hflags hsmall hrun
    obtain ⟨vm₂, hunmap, -, hkept⟩ := hlinked.unmapRange hrange
    have hsame : ∀ q < 1023 * 1024, mapping vm₂.phys d q = mapping vm₁.phys d q := by
      intro q hq
      refine hkept q hq fun p hp _ => ?_
      rw [Inner, pageSize] at hp
      omega
    have hiff : (∃ vm₂, vm₁.unmapRange virtAddr 0 = some vm₂ ∧ Unmapped vm vm₂ d virtAddr 0) ↔
        ∀ q < 1023 * 1024, mapping vm₁.phys d q = mapping vm.phys d q := by
      constructor
      · rintro ⟨vm₂', hunmap', hrestored⟩ q hq
        rw [hunmap] at hunmap'
        cases hunmap'
        exact (hsame q hq).symm.trans (hrestored.other q hq (hnone q))
      · intro hall
        exact ⟨vm₂, hunmap, fun p hp => absurd hp (hnone p),
          fun q hq _ => (hsame q hq).trans (hall q hq)⟩
    rw [hiff]
    by_cases haligned : pageSize ∣ virtAddr
    · refine iff_of_true (fun q hq => ?_) (Or.inl ⟨haligned, Nat.dvd_zero _⟩)
      obtain ⟨p, hp, -⟩ | ⟨-, hkept⟩ := hpages q hq
      · rw [pageSize, Nat.dvd_iff_mod_eq_zero] at haligned
        rw [Covered, pageSize] at hp
        omega
      · exact hkept
    · rw [h.linked.unmapped_iff_of_inside hrange haligned hflags hsmall hrun]
      simp [haligned]

/-- Two pages at four megabytes. -/
theorem map_unmap_pages : ∃ vm₁ vm₂, bareSpace.mapRange 0x400000 0x3000 0x2000 7 = some vm₁ ∧
    vm₁.unmapRange 0x400000 0x2000 = some vm₂ ∧ Unmapped bareSpace vm₂ 1 0x400000 0x2000 := by
  have hmap : (bareSpace.mapRange 0x400000 0x3000 0x2000 7).isSome = true := by
    rw [mapRange_eq (by decide)]
    decide +kernel
  obtain ⟨vm₁, hvm₁⟩ := Option.isSome_iff_exists.mp hmap
  have hunmapped : ∀ p, Overlaps 0x400000 0x2000 p → mapping bareSpace.phys 1 p = none :=
    fun p hp =>
    mapping_bareSpace (covered_lt (by decide) (overlaps_iff.mp hp).2)
  obtain ⟨vm₂, hunmap, hrestored⟩ :=
    (map_unmap_iff space_bareSpace (by decide) (by decide) (by decide)
    hunmapped hvm₁).mpr (Or.inl ⟨by decide, by decide⟩)
  exact ⟨vm₁, vm₂, hvm₁, hunmap, hrestored⟩

/-- Half a page is mapped and stays mapped. -/
theorem half_page_stays_mapped : ∃ vm₁, bareSpace.mapRange 0x400000 0x3000 0x800 7 = some vm₁ ∧
    vm₁.unmapRange 0x400000 0x800 = some vm₁ ∧ Overlaps 0x400000 0x800 0x400 ∧
      mapping bareSpace.phys 1 0x400 = none ∧ mapping vm₁.phys 1 0x400 = some 0x3007 := by
  have hmap : ((bareSpace.mapRange 0x400000 0x3000 0x800 7).bind fun vm₁ =>
      mapping vm₁.phys 1 0x400) = some 0x3007 := by
    rw [mapRange_eq (by decide)]
    decide +kernel
  obtain ⟨vm₁, hvm₁, hmapped⟩ := Option.bind_eq_some_iff.mp hmap
  refine ⟨vm₁, hvm₁, ?_, ⟨0x400000, by decide, by decide, by decide⟩, mapping_bareSpace (by decide),
    hmapped⟩
  rw [unmapRange_eq (by decide)]
  rfl

end Hos.Vm
