import Hos.Lib.Ownership
import Hos.Memory.Mmu.Directory

/-!
# Creating and destroying an image

`mmu_destroy_process_image` frees the pages of every area through the recursive
window and then every table of the user half that is not marked global. Creation
followed by destruction leaves the allocator as it was when the image owns what is
freed: the frames it took for its tables and pages and nothing else. That needs a
kernel directory without user tables, areas that are whole pages in slots of their
own and less than a megabyte long, and new frames without stale entries.
-/

namespace Hos

open Option List

/-- The pages of an area. -/
def VmArea.pages (area : VmArea) : List Nat :=
  List.range' (area.vmStart / 4096) (area.vmEnd / 4096 - area.vmStart / 4096)

/-- The directory entries of an area. -/
def VmArea.Reaches (area : VmArea) (i : Nat) : Prop :=
  area.vmStart / 2 ^ 22 ≤ i ∧ i < (area.vmEnd + (2 ^ 22 - 1)) / 2 ^ 22

instance (area : VmArea) (i : Nat) : Decidable (area.Reaches i) :=
    inferInstanceAs (Decidable (_ ∧ _))

theorem VmArea.mem_pages {area : VmArea} {p : Nat} :
    p ∈ area.pages ↔ area.vmStart / 4096 ≤ p ∧ p < area.vmEnd / 4096 := by
  rw [pages, mem_range'_1]
  omega

theorem VmArea.reaches_of_mem {area : VmArea} {p : Nat} (h : p ∈ area.pages) :
    area.Reaches (p / 1024) := by
  rw [mem_pages] at h
  rw [Reaches]
  omega

namespace Vm

/-- The frames in use. -/
def inUse (vm : Vm) : Set Nat := {g | vm.pmm.bit g = true}

/-- What an image holds frames for: the table of a slot or a page. -/
def imageFrame (phys : Bytes) (e : Nat) : Nat ⊕ Nat → Option Nat
  | .inl i => if present (phys.word e i) then some (frameNo (phys.word e i)) else none
  | .inr p => (mapping phys e p).map frameNo

/-- The tables and pages of some areas. -/
def held (areas : List VmArea) : Set (Nat ⊕ Nat) :=
  {r | r.elim (fun i => ∃ area ∈ areas, area.Reaches i) fun p => ∃ area ∈ areas, p ∈ area.pages}

/-- No frame that is free holds a word that looks like a present entry. -/
def Clean (vm : Vm) : Prop :=
  ∀ g < 2 ^ 20, vm.pmm.bit g = false → ∀ k < 1024, present (vm.phys.word g k) = false

section

variable {vm vm' : Vm} {e w s n f a b flags : Nat}

variable (h : AreaMade vm vm' e w s n f a b flags) (hclean : vm.Clean)
include h hclean

/-- In clean memory every page of a new area gets a frame. -/
theorem AreaMade.page_of_clean (hlow : flags < pageSize) (hflags : present flags = true)
    (hpages : ∀ p, a ≤ p → p < b → s ≤ p / 1024 ∧ p / 1024 < s + n) {p : Nat} (hp : a ≤ p)
    (hp' : p < b) :
    present (wordAt vm.phys (tablePlace f s p)) = false ∧
      mapping vm'.phys e p = some (wordAt vm'.phys (tablePlace f s p)) := by
  obtain ⟨hs, hsn⟩ := hpages p hp hp'
  obtain ⟨hge, hlt⟩ := tablePlace_mem (f := f) ⟨hs, hsn⟩
  have hbound := h.bound
  have habsent : present (wordAt vm.phys (tablePlace f s p)) = false :=
    hclean _ (by omega) (h.free _ hge hlt) _ (Nat.mod_lt p (by decide))
  rw [h.mapping_page hlow hflags ⟨hs, hsn⟩, if_pos (h.taken p hp hp' habsent).1]
  exact ⟨habsent, rfl⟩

/-- Free frames stay clean. -/
theorem AreaMade.clean (he : vm.pmm.bit e = true) (hw : vm.pmm.bit w = true) : vm'.Clean := by
  intro g hg hfree k hk
  have hbefore : vm.pmm.bit g = false :=
    Bool.eq_false_iff.mpr fun hset => Bool.eq_false_iff.mp hfree (h.writes.bits g hset)
  have hword : vm'.phys.word g k = vm.phys.word g k := by
    refine h.writes.word ?_ hk
    rintro ((rfl | rfl) | ⟨hge, hlt⟩)
    · exact Bool.eq_false_iff.mp hbefore he
    · exact Bool.eq_false_iff.mp hbefore hw
    · exact Bool.eq_false_iff.mp hfree (h.used g hge hlt)
  rw [hword]
  exact hclean g hg hbefore k hk

/-- In clean memory a new area owns the frames that were taken for it. -/
theorem AreaMade.owned (hlow : flags < pageSize) (hflags : present flags = true)
    (hpages : ∀ p, a ≤ p → p < b → s ≤ p / 1024 ∧ p / 1024 < s + n) :
    Owned vm.inUse vm'.inUse (imageFrame vm'.phys e)
      {r | r.elim (fun i => s ≤ i ∧ i < s + n) fun p => a ≤ p ∧ p < b} := by
  have htable : ∀ i, s ≤ i → i < s + n → imageFrame vm'.phys e (.inl i) = some (f + (i - s)) := by
    intro i hle hlt
    rw [imageFrame, h.entries i hle hlt, if_pos (present_entry hlow hflags), frameNo_entry hlow]
  have hpage : ∀ p, a ≤ p → p < b → imageFrame vm'.phys e (.inr p) =
      some (frameNo (wordAt vm'.phys (tablePlace f s p))) := by
    intro p hle hlt
    rw [imageFrame, (h.page_of_clean hclean hlow hflags hpages hle hlt).2]
    rfl
  have htaken : ∀ p, a ≤ p → p < b → _ := fun p hle hlt =>
    (h.taken p hle hlt (h.page_of_clean hclean hlow hflags hpages hle hlt).1).2
  have hcross : ∀ i, s ≤ i → i < s + n → ∀ p, a ≤ p → p < b →
      imageFrame vm'.phys e (.inl i) ≠ imageFrame vm'.phys e (.inr p) := by
    intro i hle hlt p hle' hlt' heq
    rw [htable i hle hlt, hpage p hle' hlt'] at heq
    have hframe := some.inj heq
    exact (htaken p hle' hlt').2.2 (by omega)
  refine ⟨?_, ?_, fun g => ⟨fun hg => ?_, ?_⟩⟩
  · rintro (i | p) ⟨hle, hlt⟩
    · exact ⟨_, htable i hle hlt, Bool.eq_false_iff.mp (h.free _ (by omega) (by omega))⟩
    · exact ⟨_, hpage p hle hlt, Bool.eq_false_iff.mp (htaken p hle hlt).1⟩
  · rintro (i | p) ⟨hle, hlt⟩ (j | q) ⟨hle', hlt'⟩ heq
    · rw [htable i hle hlt, htable j hle' hlt', some.injEq] at heq
      exact congrArg Sum.inl (by omega)
    · exact absurd heq (hcross i hle hlt q hle' hlt')
    · exact absurd heq.symm (hcross j hle' hlt' p hle hlt)
    · rw [hpage p hle hlt, hpage q hle' hlt', some.injEq] at heq
      exact congrArg Sum.inr (h.injective p hle hlt q hle' hlt'
        (h.page_of_clean hclean hlow hflags hpages hle hlt).1
        (h.page_of_clean hclean hlow hflags hpages hle' hlt').1 heq)
  · obtain hold | ⟨hge, hlt⟩ | ⟨p, hle, hlt, -, hframe⟩ := h.bits g hg
    · exact .inl hold
    · refine .inr ⟨.inl (s + (g - f)), ⟨by omega, by omega⟩, ?_⟩
      rw [htable _ (by omega) (by omega)]
      exact congrArg some (by omega)
    · exact .inr ⟨.inr p, ⟨hle, hlt⟩, by rw [hpage p hle hlt, hframe]⟩
  · rintro (hold | ⟨i | p, ⟨hle, hlt⟩, hg⟩)
    · exact h.writes.bits g hold
    · rw [htable i hle hlt] at hg
      cases hg
      exact h.used _ (by omega) (by omega)
    · rw [hpage p hle hlt] at hg
      cases hg
      exact (htaken p hle hlt).2.1

end

/-! ## Creating -/

/-- An area of whole pages in the user half, less than a megabyte long. -/
structure Whole (area : VmArea) : Prop where
  start_aligned : area.vmStart % 4096 = 0
  end_aligned : area.vmEnd % 4096 = 0
  le : area.vmStart ≤ area.vmEnd
  short : area.vmEnd - area.vmStart < 2 ^ 20
  user : area.vmEnd ≤ userEnd

/-- The kernel directory `k`, for an image whose directory is in frame `e`: its tables
are in use and elsewhere, and those of the user half are marked global. -/
structure KernelDirectory (vm : Vm) (k e : Nat) : Prop where
  used : ∀ i < 1024, present (vm.phys.word k i) = true →
    vm.pmm.bit (frameNo (vm.phys.word k i)) = true
  ne : ∀ i < 1023, present (vm.phys.word k i) = true → frameNo (vm.phys.word k i) ≠ e
  user : ∀ i < 768, present (vm.phys.word k i) = true → global (vm.phys.word k i) = true

/-- The state of an image in creation. It owns the frames taken since `vm₀`, and
outside of its areas its directory is a copy of the kernel directory `k`. -/
structure Holds (vm₀ : Vm) (k d e w : Nat) (s : Vm × MmStruct) : Prop where
  ready : s.1.Ready d e w
  pgd : s.2.pgd = e * pageSize
  directory : s.1.Directory e w
  clean : s.1.Clean
  whole : ∀ area ∈ s.2.mmapList, Whole area
  apart : s.2.mmapList.Pairwise fun a b => ∀ i, ¬(a.Reaches i ∧ b.Reaches i)
  owned : Owned vm₀.inUse s.1.inUse (imageFrame s.1.phys e) (held s.2.mmapList)
  table : ∀ area ∈ s.2.mmapList, ∀ i, area.Reaches i →
    present (s.1.phys.word e i) = true ∧ global (s.1.phys.word e i) = false
  copied : ∀ i < 1023, (∀ area ∈ s.2.mmapList, ¬area.Reaches i) →
    s.1.phys.word e i = vm₀.phys.word k i
  kernel : ∀ i < 1024, s.1.phys.word k i = vm₀.phys.word k i

/-- The area that a call makes. -/
def AreaCall.area (c : AreaCall) : VmArea := ⟨c.virtStart, c.virtStart + c.size, c.pgflags⟩

/-- The area of the call consists of whole pages and shares no slot with an earlier
one. -/
structure AreaCall.Separate (c : AreaCall) (s : Vm × MmStruct) : Prop where
  whole : Whole c.area
  sizeAlloc_eq : c.sizeAlloc = c.size
  flags_lt : c.pgflags < pageSize
  flags_present : present c.pgflags = true
  flags_global : global c.pgflags = false
  apart : ∀ area ∈ s.2.mmapList, ∀ i, ¬(c.area.Reaches i ∧ area.Reaches i)

section

variable {vm₀ : Vm} {s t : Vm × MmStruct} {k d e w : Nat} {c : AreaCall}

theorem Whole.slot_lt {area : VmArea} (h : Whole area) {i : Nat} (hi : area.Reaches i) :
    i < 768 := by
  have huser := h.user
  obtain ⟨-, hlt⟩ := hi
  rw [userEnd] at huser
  omega

theorem held_cons (area : VmArea) (areas : List VmArea) : held (area :: areas) =
    held areas ∪ {r | r.elim area.Reaches fun p => p ∈ area.pages} := by
  ext r
  cases r <;> simp [held, or_comm]

theorem global_entry {f flags : Nat} : global (f * pageSize ||| flags) = global flags := by
  have hbit : (f * pageSize).testBit 8 = false := by
    rw [show pageSize = 2 ^ 12 from rfl, Nat.mul_comm, Nat.testBit_two_pow_mul]
    rfl
  rw [global, Nat.testBit_or, hbit, Bool.false_or, global]

/-- The tables of the areas made so far are in frames that were free at first. -/
theorem Holds.table_fresh (h : Holds vm₀ k d e w s) {i : Nat}
    (hi : ∃ area ∈ s.2.mmapList, area.Reaches i) :
    frameNo (s.1.phys.word e i) ∉ vm₀.inUse ∧ frameNo (s.1.phys.word e i) ∈ s.1.inUse := by
  obtain ⟨area, harea, hreach⟩ := hi
  have hframe : imageFrame s.1.phys e (.inl i) = some (frameNo (s.1.phys.word e i)) :=
    if_pos (h.table area harea i hreach).1
  have hheld : Sum.inl i ∈ held s.2.mmapList := ⟨area, harea, hreach⟩
  obtain ⟨g, hg, hfree⟩ := h.owned.fresh _ hheld
  cases hframe.symm.trans hg
  exact ⟨hfree, (h.owned.mem_after _).mpr (.inr ⟨_, hheld, hg⟩)⟩

/-- Making an area in slots of its own leaves the tables and pages of the others. -/
theorem Holds.imageFrame_eq {vm' : Vm} {s' n f a b flags : Nat} (h : Holds vm₀ k d e w s)
    (he : e ∈ vm₀.inUse) (hw : w ∈ vm₀.inUse) (hmade : AreaMade s.1 vm' e w s' n f a b flags)
    (hapart : ∀ area ∈ s.2.mmapList, ∀ i, area.Reaches i → ¬(s' ≤ i ∧ i < s' + n)) :
    ∀ r ∈ held s.2.mmapList, imageFrame vm'.phys e r = imageFrame s.1.phys e r := by
  have hdir : ∀ area ∈ s.2.mmapList, ∀ i, area.Reaches i →
      vm'.phys.word e i = s.1.phys.word e i := by
    intro area harea i hreach
    have hlt := (h.whole area harea).slot_lt hreach
    have hout := hapart area harea i hreach
    exact hmade.directory i (by omega) (by omega)
  rintro (i | p) ⟨area, harea, hmem⟩
  · rw [imageFrame, imageFrame, hdir area harea i hmem]
  · have hreach := VmArea.reaches_of_mem hmem
    obtain ⟨hfree, hused⟩ := h.table_fresh ⟨area, harea, hreach⟩
    refine congrArg (Option.map frameNo) (mapping_congr (hdir area harea _ hreach) fun _ => ?_)
    refine hmade.word_of_bit hused ?_ ?_ (Nat.mod_lt p (by decide))
    · intro heq
      rw [heq] at hfree
      exact hfree he
    · intro heq
      rw [heq] at hfree
      exact hfree hw

theorem Holds.createVmArea (h : Holds vm₀ k d e w s) (he : e ∈ vm₀.inUse) (hw : w ∈ vm₀.inUse)
    (hk : k ∈ vm₀.inUse) (hke : k ≠ e) (hkw : k ≠ w)
    (hc : c.Separate s) (hexec : c.exec s = some t) : Holds vm₀ k d e w t := by
  have hwhole := hc.whole
  have hlast := hwhole.user
  have halign := hwhole.start_aligned
  have halign' := hwhole.end_aligned
  rw [AreaCall.area] at hlast halign halign'
  dsimp only at hlast halign halign'
  have huser : c.virtStart + c.sizeAlloc ≤ userEnd := hc.sizeAlloc_eq ▸ hlast
  obtain ⟨f, hmade, hwindow, hpgd, hlist⟩ := AreaCall.exec_made h.ready h.pgd huser hc.flags_present
    hc.flags_lt hexec
  have hend : u32 (c.virtStart + c.size) = c.virtStart + c.size := by
    rw [userEnd] at hlast
    exact u32_of_lt (by omega)
  rw [hend] at hlist
  have hslots := areaSlots_le huser
  have hreach : ∀ i, (areaSlots c.virtStart c.sizeAlloc).1 ≤ i ∧
      i < (areaSlots c.virtStart c.sizeAlloc).1 + (areaSlots c.virtStart c.sizeAlloc).2 ↔
        c.area.Reaches i := by
    intro i
    rw [areaSlots, hc.sizeAlloc_eq, VmArea.Reaches, AreaCall.area]
    dsimp only
    omega
  have hpage : ∀ p, (areaPages c.virtStart c.sizeAlloc).1 ≤ p ∧
      p < (areaPages c.virtStart c.sizeAlloc).2 ↔ p ∈ c.area.pages := by
    intro p
    rw [areaPages, hc.sizeAlloc_eq, VmArea.mem_pages, AreaCall.area]
    dsimp only
    omega
  generalize areaSlots c.virtStart c.sizeAlloc = slots at *
  generalize areaPages c.virtStart c.sizeAlloc = pages at *
  have hapart : ∀ area ∈ s.2.mmapList, ∀ i, area.Reaches i →
      ¬(slots.1 ≤ i ∧ i < slots.1 + slots.2) :=
    fun area harea i hi hslot => hc.apart area harea i ⟨(hreach i).mp hslot, hi⟩
  have hinside : ∀ p, pages.1 ≤ p → p < pages.2 →
      slots.1 ≤ p / 1024 ∧ p / 1024 < slots.1 + slots.2 := fun p hle hlt =>
    (hreach _).mpr (VmArea.reaches_of_mem ((hpage p).mp ⟨hle, hlt⟩))
  have hset : {r : Nat ⊕ Nat | r.elim (fun i => slots.1 ≤ i ∧ i < slots.1 + slots.2)
      fun p => pages.1 ≤ p ∧ p < pages.2} =
        {r | r.elim c.area.Reaches fun p => p ∈ c.area.pages} := by
    ext (i | p)
    · exact hreach i
    · exact hpage p
  refine ⟨h.ready.areaMade hmade hwindow, hpgd.trans h.pgd, h.directory.areaMade hmade hslots,
    hmade.clean h.clean h.ready.image_used
      h.ready.window_used, ?_, ?_, ?_, ?_, fun i hi hnone => ?_, fun i hi => ?_⟩
  · rw [hlist]
    exact forall_mem_cons.mpr ⟨hwhole, h.whole⟩
  · rw [hlist]
    exact pairwise_cons.mpr ⟨hc.apart, h.apart⟩
  · have hnew := hmade.owned h.clean hc.flags_lt hc.flags_present hinside
    rw [hset] at hnew
    rw [hlist, held_cons]
    exact (h.owned.congr (h.imageFrame_eq he hw hmade hapart)).union hnew
  · rw [hlist]
    refine forall_mem_cons.mpr ⟨fun i hi => ?_, fun area harea i hi => ?_⟩
    · obtain ⟨hle, hlt⟩ := (hreach i).mpr hi
      rw [hmade.entries i hle hlt, present_entry hc.flags_lt hc.flags_present, global_entry]
      exact ⟨rfl, hc.flags_global⟩
    · have hlt := (h.whole area harea).slot_lt hi
      have hout := hapart area harea i hi
      rw [hmade.directory i (by omega) (by omega)]
      exact h.table area harea i hi
  · rw [hlist] at hnone
    obtain ⟨hnew, hold⟩ := forall_mem_cons.mp hnone
    have hout := mt (hreach i).mp hnew
    rw [hmade.directory i (by omega) (by omega)]
    exact h.copied i hi hold
  · have hkused := (h.owned.mem_after k).mpr (.inl hk)
    rw [hmade.word_of_bit hkused hke hkw hi]
    exact h.kernel i hi

/-- The image does not depend on the other fields of its structure. -/
theorem Holds.congr {mm : MmStruct} (h : Holds vm₀ k d e w s) (hpgd : mm.pgd = s.2.pgd)
    (hlist : mm.mmapList = s.2.mmapList) : Holds vm₀ k d e w (s.1, mm) := by
  refine ⟨h.ready, hpgd.trans h.pgd, h.directory, h.clean, ?_, ?_, ?_, ?_, ?_, h.kernel⟩ <;>
    dsimp only <;> rw [hlist]
  · exact h.whole
  · exact h.apart
  · exact h.owned
  · exact h.table
  · exact h.copied

/-- A blank directory before the stack area is made. -/
theorem InOrder.holds {images : List MmStruct} {addr : Nat} (h : InOrder k w ⟨vm₀, images⟩)
    (hfresh : Fresh k w ⟨vm₀, images⟩ d e addr) (hclean : vm₀.Clean) :
    Holds vm₀ k d e w (vm₀.blank k e, ⟨e * pageSize, [], 0, 0, 0⟩) where
  ready := (h.ready hfresh).2
  pgd := rfl
  directory := h.kernel.blank_self hfresh.used hfresh.ne_window hfresh.ne_zero hfresh.lt
  clean g hg hfree i hi := by
    have hge : g ≠ e := by
      rintro rfl
      exact Bool.eq_false_iff.mp hfree hfresh.used
    rw [word_blank_of_ne hge hi]
    exact hclean g hg hfree i hi
  whole area harea := absurd harea not_mem_nil
  apart := List.Pairwise.nil
  owned := by
    have hnone : held [] = ∅ := by
      ext r
      cases r <;> simp [held]
    rw [hnone]
    exact Owned.empty _ _
  table area harea := absurd harea not_mem_nil
  copied i hi _ := word_blank_self hi
  kernel i hi := word_blank_of_ne hfresh.ne_kernel.symm hi

/-- `mmu_create_blank_process_image` with a stack of whole pages below a megabyte. -/
theorem InOrder.holds_created {images : List MmStruct} {addr stackSize : Nat}
    (h : InOrder k w ⟨vm₀, images⟩) (hfresh : Fresh k w ⟨vm₀, images⟩ d e addr) (hclean : vm₀.Clean)
    (hpages : stackSize % 4096 = 0) (hshort : stackSize < 2 ^ 20)
    (hrun : vm₀.createBlankProcessImage (k * pageSize) addr stackSize = some s) :
    Holds vm₀ k d e w s := by
  have hle : stackSize ≤ userEnd := by
    rw [userEnd]
    omega
  have hstart : sub32 userEnd stackSize = userEnd - stackSize := sub32_of_le (by decide) hle
  rw [hfresh.toBlock.createBlankProcessImage_eq (h.ready hfresh).1, hstart] at hrun
  obtain ⟨s₁, hexec, rfl⟩ := map_eq_some_iff.mp hrun
  have hsep : AreaCall.Separate ⟨userEnd - stackSize, stackSize, stackSize, userAccess⟩
      (vm₀.blank k e, ⟨e * pageSize, [], 0, 0, 0⟩) := by
    refine ⟨⟨?_, ?_, ?_, ?_, ?_⟩, rfl, show userAccess < pageSize by decide,
      show present userAccess = true by decide, show global userAccess = false by decide,
      fun area harea => absurd harea not_mem_nil⟩ <;>
      simp only [AreaCall.area, userEnd] at hle ⊢ <;> omega
  exact ((h.holds hfresh hclean).createVmArea hfresh.used h.window_used h.kernel.used
    hfresh.ne_kernel.symm h.kernel.ne_window hsep hexec).congr rfl rfl

end

/-! ## Destroying -/

section

variable {vm : Vm} {e p : Nat}

/-- `vmm_deallocate_range` of a whole area frees its pages one after the other. -/
theorem Whole.deallocateRange_eq {area : VmArea} (h : Whole area) :
    vm.deallocateRange area.vmStart (sub32 area.vmEnd area.vmStart) =
      area.pages.foldlM (fun vm p => vm.freePage (p * pageSize)) vm := by
  have hstart := h.start_aligned
  have hle := h.le
  have hshort := h.short
  have huser := h.user
  rw [userEnd] at huser
  have hsize : sub32 area.vmEnd area.vmStart = area.vmEnd - area.vmStart :=
    sub32_of_le (by omega) hle
  have hup : alignUp area.vmStart = area.vmStart / 4096 * pageSize := by
    rw [alignUp_eq (by omega), pageSize]
    omega
  have hdown : alignDown (u32 (area.vmStart + (area.vmEnd - area.vmStart))) =
      area.vmEnd / 4096 * pageSize := by
    rw [Nat.add_sub_cancel' hle, u32_of_lt (by omega)]
    rfl
  have hnone : (area.vmEnd - area.vmStart) / 2 ^ 20 = 0 := Nat.div_eq_of_lt hshort
  rw [deallocateRange, hsize, hup, hdown, hnone, pageLoop_eq (by omega), VmArea.pages]
  simp

theorem deallocateAreas_eq {areas : List VmArea} (h : ∀ area ∈ areas, Whole area) :
    areas.foldlM (fun vm area => vm.deallocateRange area.vmStart (sub32 area.vmEnd area.vmStart))
      vm = (areas.flatMap VmArea.pages).foldlM (fun vm p => vm.freePage (p * pageSize)) vm := by
  induction areas generalizing vm with
  | nil => rfl
  | cons area areas ih =>
    obtain ⟨hwhole, hrest⟩ := forall_mem_cons.mp h
    rw [foldlM_cons, flatMap_cons, foldlM_append, hwhole.deallocateRange_eq]
    exact congrArg _ (funext fun vm => ih hrest)

/-- The frame of a table that `mmu_destroy_process_image` frees. -/
def userTable (phys : Bytes) (e i : Nat) : Option Nat :=
  if present (phys.word e i) && !global (phys.word e i)
    then some (frameNo (phys.word e i)) else none

theorem pmm_freeUserTables {is : List Nat} (his : ∀ i ∈ is, i < 1024) (hnodup : is.Nodup) :
    (is.foldl (freeUserTable (e * pageSize)) vm).pmm =
      freeFrames vm.pmm (is.filterMap (userTable vm.phys e)) := by
  induction is generalizing vm with
  | nil => rfl
  | cons i is ih =>
    obtain ⟨hi, his⟩ := forall_mem_cons.mp his
    obtain ⟨hnotMem, hnodup⟩ := nodup_cons.mp hnodup
    rw [foldl_cons, ih his hnodup, filterMap_cons]
    by_cases hfrees : (present (vm.phys.word e i) && !global (vm.phys.word e i)) = true
    · have hstep : freeUserTable (e * pageSize) vm i = { vm with
          pmm := vm.pmm.freeFrame (vm.phys.word e i)
          phys := vm.phys.setWord e i 0 } := if_pos hfrees
      have hlater : ∀ j ∈ is, userTable (vm.phys.setWord e i 0) e j = userTable vm.phys e j := by
        intro j hj
        have hne : j ≠ i := by
          rintro rfl
          exact hnotMem hj
        rw [userTable, Bytes.word_setWord_of_ne hi (his j hj) (.inr hne), userTable]
      rw [hstep, userTable, if_pos hfrees]
      dsimp only
      rw [filterMap_congr hlater, freeFrame_eq]
      rfl
    · have hstep : freeUserTable (e * pageSize) vm i = vm := if_neg hfrees
      rw [hstep, userTable, if_neg hfrees]

end

/-- Going from `vm` to `vm'` frees the frames `fs`, each of them once. They were in use,
no entry of the kernel directory names one of them, and afterwards the frames in
use are those of `vm₀`. -/
structure Neutral (vm₀ vm vm' : Vm) (k : Nat) (fs : List Nat) : Prop where
  frees : vm'.pmm = freeFrames vm.pmm fs
  once : fs.Nodup
  used : ∀ f ∈ fs, vm.pmm.bit f = true
  unreferenced : ∀ f ∈ fs, ∀ i < 1024, present (vm.phys.word k i) = true →
    frameNo (vm.phys.word k i) ≠ f
  restored : ∀ g, vm'.pmm.bit g = vm₀.pmm.bit g

variable {vm₀ : Vm} {s : Vm × MmStruct} {k d e w : Nat}

section

variable (h : Holds vm₀ k d e w s)
include h

/-- The tables of an image are frames of their own. -/
theorem Holds.tables (hkernel : KernelDirectory vm₀ k e) (he : e ∈ vm₀.inUse) :
    Tables s.1.phys e {i | ∃ area ∈ s.2.mmapList, area.Reaches i} where
  ne i hi hpresent := by
    by_cases hreach : ∃ area ∈ s.2.mmapList, area.Reaches i
    · intro heq
      have hfree := (h.table_fresh hreach).1
      rw [heq] at hfree
      exact hfree he
    · have hcopy := h.copied i hi fun area harea hi => hreach ⟨area, harea, hi⟩
      rw [hcopy] at hpresent ⊢
      exact hkernel.ne i hi hpresent
  own i hi _ j hj hji hpresent heq := by
    have hfree := (h.table_fresh hi).1
    rw [← heq] at hfree
    by_cases hreach : ∃ area ∈ s.2.mmapList, area.Reaches j
    · obtain ⟨area, harea, hi⟩ := hi
      have hframes : imageFrame s.1.phys e (.inl j) = imageFrame s.1.phys e (.inl i) := by
        rw [imageFrame, imageFrame, if_pos hpresent, if_pos (h.table area harea i hi).1, heq]
      exact hji (Sum.inl.inj (h.owned.injective _ hreach _ ⟨area, harea, hi⟩ hframes))
    · by_cases hself : j = 1023
      · subst hself
        rw [h.directory.self_frame] at hfree
        exact hfree he
      · have hcopy := h.copied j (by omega) fun area harea hi => hreach ⟨area, harea, hi⟩
        rw [hcopy] at hpresent hfree
        exact hfree (hkernel.used j (by omega) hpresent)

/-- The directory of the image is active when its pages are freed. -/
theorem Holds.switched : ∃ vm,
    (if s.1.curPdir ≠ s.2.pgd then s.1.switchDirectory (k * pageSize) s.2.pgd else s.1) = vm ∧
      vm.Recursive e ∧ vm.phys = s.1.phys ∧ vm.pmm = s.1.pmm := by
  rw [h.pgd]
  by_cases hcur : s.1.curPdir ≠ e * pageSize
  · rw [if_pos hcur, switchDirectory_eq h.directory]
    exact ⟨_, rfl, ⟨rfl, rfl, h.directory.self_present, h.directory.self_frame⟩, rfl, rfl⟩
  · rw [if_neg hcur]
    have hd : d = e := Nat.eq_of_mul_eq_mul_right (by decide)
      (h.ready.curPdir.symm.trans (not_not.mp hcur))
    exact ⟨_, rfl, hd ▸ h.ready.toRecursive, rfl, rfl⟩

/-- The order in which `mmu_destroy_process_image` gives back what the image holds. -/
def heldList (areas : List VmArea) : List (Nat ⊕ Nat) :=
  (areas.flatMap VmArea.pages).map .inr ++
    ((List.range 768).filter fun i => decide (∃ area ∈ areas, area.Reaches i)).map .inl

theorem Holds.nodup_pages : (s.2.mmapList.flatMap VmArea.pages).Nodup := by
  refine nodup_flatMap.mpr ⟨fun area _ => nodup_range', h.apart.imp fun hapart => ?_⟩
  intro p hp hp'
  exact hapart _ ⟨VmArea.reaches_of_mem hp, VmArea.reaches_of_mem hp'⟩

theorem Holds.nodup_heldList : (heldList s.2.mmapList).Nodup := by
  refine nodup_append.mpr ⟨h.nodup_pages.map Sum.inr_injective,
    (nodup_range.filter _).map Sum.inl_injective, ?_⟩
  simp

theorem Holds.held_eq : held s.2.mmapList = {r | r ∈ heldList s.2.mmapList} := by
  ext (i | p)
  · have hlt : (∃ area ∈ s.2.mmapList, area.Reaches i) → i < 768 := fun ⟨area, harea, hi⟩ =>
      (h.whole area harea).slot_lt hi
    simpa [held, heldList] using hlt
  · simp [held, heldList]

/-- The tables that are freed are those of the areas. -/
theorem Holds.userTable_eq (hkernel : KernelDirectory vm₀ k e) {i : Nat} (hi : i < 768) :
    userTable s.1.phys e i =
      if decide (∃ area ∈ s.2.mmapList, area.Reaches i) then imageFrame s.1.phys e
        (.inl i) else none := by
  by_cases hreach : ∃ area ∈ s.2.mmapList, area.Reaches i
  · obtain ⟨area, harea, hreaches⟩ := hreach
    obtain ⟨hpresent, hglobal⟩ := h.table area harea i hreaches
    rw [if_pos (decide_eq_true ⟨area, harea, hreaches⟩), userTable, imageFrame, hpresent, hglobal]
    rfl
  · have hcopy := h.copied i (by omega) fun area harea hi => hreach ⟨area, harea, hi⟩
    rw [if_neg (by simpa using hreach), userTable, hcopy]
    refine if_neg fun hfrees => ?_
    rw [Bool.and_eq_true, Bool.not_eq_true'] at hfrees
    rw [hkernel.user i hi hfrees.1] at hfrees
    cases hfrees.2

/-- Destroying an image returns and gives back exactly what the image holds. -/
theorem Holds.destroyProcessImage (hkernel : KernelDirectory vm₀ k e) (he : e ∈ vm₀.inUse) : ∃ vm',
    s.1.destroyProcessImage (k * pageSize) s.2 = some vm' ∧
      Neutral vm₀ s.1 vm' k ((heldList s.2.mmapList).filterMap (imageFrame s.1.phys e)) := by
  obtain ⟨vm, hvm, hrec, hphys, hpmm⟩ := h.switched
  have hslots : ∀ i ∈ {i | ∃ area ∈ s.2.mmapList, area.Reaches i}, i < 1023 := by
    rintro i ⟨area, harea, hi⟩
    have hlt := (h.whole area harea).slot_lt hi
    omega
  have hinside : ∀ p ∈ s.2.mmapList.flatMap VmArea.pages,
      p / 1024 ∈ {i | ∃ area ∈ s.2.mmapList, area.Reaches i} := by
    intro p hp
    obtain ⟨area, harea, hmem⟩ := mem_flatMap.mp hp
    exact ⟨area, harea, VmArea.reaches_of_mem hmem⟩
  obtain ⟨vm₁, hrun, -, hdir, -, hpmm₁⟩ :=
    hrec.freePages (hphys ▸ h.tables hkernel he) hslots hinside h.nodup_pages
  rw [hphys, hpmm] at hpmm₁
  rw [hphys] at hdir
  have hfold : s.2.mmapList.foldlM (fun vm segment =>
      vm.deallocateRange segment.vmStart (sub32 segment.vmEnd segment.vmStart))
      (if s.1.curPdir ≠ s.2.pgd then s.1.switchDirectory (k * pageSize) s.2.pgd else s.1) =
        some vm₁ := by
    rw [hvm, deallocateAreas_eq h.whole, hrun]
  refine ⟨_, bind_of_eq_some hfold _, ?_⟩
  have htables : (range 768).filterMap (userTable vm₁.phys e) =
      (((range 768).filter fun i => decide (∃ area ∈ s.2.mmapList, area.Reaches i)).map
        Sum.inl).filterMap (imageFrame s.1.phys e) := by
    rw [filterMap_map, filterMap_filter]
    refine filterMap_congr fun i hi => ?_
    have hlt : i < 768 := mem_range.mp hi
    rw [userTable, hdir i (by omega)]
    exact h.userTable_eq hkernel hlt
  have hpages : ((s.2.mmapList.flatMap VmArea.pages).map Sum.inr).filterMap
      (imageFrame s.1.phys e) =
      (s.2.mmapList.flatMap VmArea.pages).filterMap fun p => (mapping s.1.phys e p).map frameNo :=
    filterMap_map
  have hfrees : ((range 768).foldl (freeUserTable s.2.pgd) vm₁).pmm =
      freeFrames s.1.pmm ((heldList s.2.mmapList).filterMap (imageFrame s.1.phys e)) := by
    rw [h.pgd, pmm_freeUserTables (fun i hi => (mem_range.mp hi).trans (by decide))
      nodup_range,
      hpmm₁, ← freeFrames_append, htables, heldList, filterMap_append, hpages]
  obtain ⟨honce, hused, hrestored⟩ := (h.held_eq ▸ h.owned).release h.nodup_heldList
  refine ⟨hfrees, honce, fun f hf => (hused f hf).1, fun f hf i hi hpresent heq => ?_, fun g => ?_⟩
  · rw [h.kernel i hi] at hpresent heq
    exact (hused f hf).2 (heq ▸ hkernel.used i hi hpresent)
  · rw [Bool.eq_iff_iff, hfrees, bit_freeFrames]
    exact (hrestored g).symm

end

/-- Creating an image, making areas in it and destroying it leaves the frames in use as
they were. Each frame is freed once, and none that the kernel directory names. -/
theorem create_destroy_neutral {images : List MmStruct} {addr stackSize : Nat} {s₁ : Vm × MmStruct}
    (h : InOrder k w ⟨vm₀, images⟩) (hfresh : Fresh k w ⟨vm₀, images⟩ d e addr)
    (hkernel : KernelDirectory vm₀ k e) (hclean : vm₀.Clean) (hpages : stackSize % 4096 = 0)
    (hshort : stackSize < 2 ^ 20)
    (hcreate : vm₀.createBlankProcessImage (k * pageSize) addr stackSize = some s₁)
    (hrun : Runs AreaCall.exec AreaCall.Separate s₁ s) :
    ∃ vm' fs, s.1.destroyProcessImage (k * pageSize) s.2 = some vm' ∧ Neutral vm₀ s.1 vm' k fs := by
  have hholds : Holds vm₀ k d e w s := by
    refine hrun.invariant (Holds vm₀ k d e w) (fun c s t h' hc hexec => ?_)
      (h.holds_created hfresh hclean hpages hshort hcreate)
    exact h'.createVmArea hfresh.used h.window_used h.kernel.used hfresh.ne_kernel.symm
      h.kernel.ne_window hc hexec
  obtain ⟨vm', hdestroy, hneutral⟩ := hholds.destroyProcessImage hkernel hfresh.used
  exact ⟨vm', _, hdestroy, hneutral⟩

theorem pair_ne {g i f j : Nat} (h : (g, i) ≠ (f, j)) : g ≠ f ∨ i ≠ j := by
  rwa [Ne, Prod.mk.injEq, not_and_or] at h

theorem word_bareKernel {g i : Nat} (hi : i < 1024) (hself : (g, i) ≠ (1, 1023))
    (hwindow : (g, i) ≠ (1, 830)) (hheap : (g, i) ≠ (1, 832)) (htable : g ≠ 2) (hpages : g ≠ 3) :
    bareKernel.vm.phys.word g i = 0 := by
  refine (Bytes.word_setWord_of_ne (by decide) hi (.inl htable)).trans ?_
  refine (Bytes.word_setWord_of_ne (by decide) hi (.inl hpages)).trans ?_
  refine (Bytes.word_setWord_of_ne (by decide) hi (.inl hpages)).trans ?_
  refine (Bytes.word_setWord_of_ne (by decide) hi (pair_ne hheap)).trans ?_
  refine (Bytes.word_setWord_of_ne (by decide) hi (pair_ne hwindow)).trans ?_
  exact Bytes.word_setWord_of_ne (by decide) hi (pair_ne hself)

theorem clean_bareKernel : bareKernel.vm.Clean := by
  intro g _ hfree i hi
  have hused : ∀ g < 4, bareKernel.vm.pmm.bit g = true := by decide
  have hg : 4 ≤ g := Nat.le_of_not_lt fun hlt => Bool.eq_false_iff.mp hfree (hused g hlt)
  have hne : ∀ j, (g, i) ≠ (1, j) := fun j heq => by
    have hone := congrArg Prod.fst heq
    omega
  rw [word_bareKernel hi (hne _) (hne _) (hne _) (by omega) (by omega)]
  rfl

theorem kernelDirectory_bareKernel : KernelDirectory bareKernel.vm 1 4 := by
  have hentry : ∀ i < 1024, present (bareKernel.vm.phys.word 1 i) = true → i = 1023 ∨ i = 830 ∨
      i = 832 := by
    intro i hi hpresent
    by_contra hnone
    rw [word_bareKernel hi (by simp; omega) (by simp; omega) (by simp; omega) (by decide)
      (by decide)]
      at hpresent
    cases hpresent
  refine ⟨fun i hi hpresent => ?_, fun i hi hpresent => ?_, fun i hi hpresent => ?_⟩
  · obtain rfl | rfl | rfl := hentry i hi hpresent <;> decide
  · obtain rfl | rfl | rfl := hentry i (by omega) hpresent <;> decide
  · have hcases := hentry i (by omega) hpresent
    omega

/-- An image with a stack page and an area of one page. -/
theorem create_destroy_neutral_page : ∃ s₁ s vm' fs,
    bareKernel.vm.createBlankProcessImage 0x1000 0xD0000000 0x1000 = some s₁ ∧
      AreaCall.exec ⟨0x400000, 0x1000, 0x1000, 7⟩ s₁ = some s ∧
      s.1.destroyProcessImage 0x1000 s.2 = some vm' ∧ Neutral bareKernel.vm s.1 vm' 1 fs := by
  have hsome : ((bareKernel.vm.createBlankProcessImage 0x1000 0xD0000000 0x1000).bind fun s₁ =>
      s₁.1.createVmArea s₁.2 0x400000 0x1000 0x1000 7).isSome = true := by
    simp only [createBlankProcessImage, createVmArea, createVmAreaVia, allocateVmAreaVia,
      mapRange_eq_foldlM, unmapRange_eq_foldlM]
    decide +kernel
  obtain ⟨s, hboth⟩ := isSome_iff_exists.mp hsome
  obtain ⟨s₁, hcreate, harea⟩ := bind_eq_some_iff.mp hboth
  obtain ⟨hrecursive, hready⟩ := inOrder_bareKernel.ready fresh_bareKernel
  obtain ⟨-, -, -, -, hlist⟩ := fresh_bareKernel.toBlock.createBlankProcessImage_made
    hready hrecursive (by decide) hcreate
  have hsep : AreaCall.Separate ⟨0x400000, 0x1000, 0x1000, 7⟩ s₁ := by
    refine ⟨⟨by decide, by decide, by decide, by decide, by decide⟩,
      rfl, by decide, by decide, by decide, ?_⟩
    rw [hlist]
    rintro area harea i ⟨⟨-, hlt⟩, ⟨hle, -⟩⟩
    rw [mem_singleton] at harea
    subst harea
    rw [AreaCall.area] at hlt
    rw [userEnd] at hle
    dsimp only at hlt hle
    omega
  obtain ⟨vm', fs, hdestroy, hneutral⟩ := create_destroy_neutral inOrder_bareKernel fresh_bareKernel
    kernelDirectory_bareKernel clean_bareKernel (by decide) (by decide) hcreate
      (Runs.single hsep harea)
  exact ⟨s₁, s, vm', fs, hcreate, harea, hdestroy, hneutral⟩

/-- The state of `bareKernel` with the first four megabytes in slot zero of the kernel
directory, where the boot code leaves them. -/
def bootKernel : Images where
  vm := { bareKernel.vm with phys := bareKernel.vm.phys.setWord 1 0 0x6003 }
  images := []

/-- `vmm_deallocate_range` as folds over pages and over tables. -/
theorem deallocateRange_eq_foldlM {vm : Vm} {virtAddr size : Nat} :
    vm.deallocateRange virtAddr size = ((range' (u32 (virtAddr + (pageSize - 1)) / pageSize)
      (u32 (virtAddr + size) / pageSize - u32 (virtAddr + (pageSize - 1)) / pageSize)).foldlM
      (fun vm p => freePage vm (p * pageSize)) vm).bind fun vm =>
        (range' (alignUp virtAddr / 2 ^ 20 % 1024)
          (alignUp virtAddr / 2 ^ 20 % 1024 + size / 2 ^ 20 -
          alignUp virtAddr / 2 ^ 20 % 1024)).foldlM freeTable vm := by
  have hlt := u32_lt (virtAddr + size)
  have hb : u32 (virtAddr + size) / pageSize < 2 ^ 20 := by
    rw [pageSize]
    omega
  rw [← @pageLoop_eq _ freePage _ _ hb]
  rfl

set_option maxRecDepth 20000 in
/-- The directory of every image is a copy of the kernel directory. Destroying an image
frees the table of slot zero, which the kernel directory still names. -/
theorem destroy_frees_kernel_table : ∃ s vm',
    bootKernel.vm.createBlankProcessImage 0x1000 0xD0000000 0x1000 = some s ∧
      s.1.destroyProcessImage 0x1000 s.2 = some vm' ∧ bootKernel.vm.pmm.bit 6 = true ∧
      vm'.pmm.bit 6 = false ∧ vm'.phys.word 1 0 = 0x6003 := by
  have hcompute : ((bootKernel.vm.createBlankProcessImage 0x1000 0xD0000000 0x1000).bind fun s =>
      (s.1.destroyProcessImage 0x1000 s.2).map fun vm => (vm.pmm.bit 6, vm.phys.word 1 0)) =
        some (false, 0x6003) := by
    simp only [createBlankProcessImage, createVmArea, createVmAreaVia, allocateVmAreaVia,
      mapRange_eq_foldlM, unmapRange_eq_foldlM, destroyProcessImage, deallocateRange_eq_foldlM]
    decide +kernel
  obtain ⟨s, hcreate, hrest⟩ := bind_eq_some_iff.mp hcompute
  obtain ⟨vm', hdestroy, hvalues⟩ := map_eq_some_iff.mp hrest
  exact ⟨s, vm', hcreate, hdestroy, by decide, Prod.mk.inj hvalues⟩

end Vm

end Hos
