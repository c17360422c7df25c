import Hos.Lib.Run
import Hos.Memory.Mmu.Area

/-!
# The areas of a process image

An image in good order has its tables in frames that are in use, none of which is
the directory of the image or the table of the window. Making an area keeps that,
and it leaves alone every slot of the directory that the area does not reach. It
takes new tables for the slots that it does reach, whether they had one or not:
an earlier area in one of these slots loses its pages.
-/

namespace Hos.Vm

open Option List Nat

/-- An area can be made in the directory `e`, through the window of the active
directory `d`. -/
structure Ready (vm : Vm) (d e w : Nat) : Prop extends Window vm d w where
  directory_used : vm.pmm.bit d = true
  image_used : vm.pmm.bit e = true
  window_used : vm.pmm.bit w = true
  window_ne : e ≠ w
  maxFrames_le : vm.pmm.maxFrames ≤ 2 ^ 20

/-- The directory `e` of an image in good order. -/
structure Image (vm : Vm) (d e w : Nat) : Prop extends Ready vm d e w where
  tables : ∀ i < 768, present (vm.phys.word e i) = true →
    vm.pmm.bit (frameNo (vm.phys.word e i)) = true ∧ frameNo (vm.phys.word e i) ≠ e ∧
      frameNo (vm.phys.word e i) ≠ w

section

variable {vm vm' : Vm} {d e w s n f a b flags : Nat}

theorem frameNo_entry (hlow : flags < pageSize) : frameNo (f * pageSize ||| flags) = f := by
  rw [← mod_eq_of_lt hlow, frameNo_or_flags, frameNo, Nat.mul_div_cancel f (by decide)]

theorem present_entry (hlow : flags < pageSize) (hflags : present flags = true) :
    present (f * pageSize ||| flags) = true := by
  rw [← mod_eq_of_lt hlow, present_or_flags, hflags, Bool.or_true]

variable (h : AreaMade vm vm' e w s n f a b flags)
include h

/-- A page of the new tables has the entry in its table. -/
theorem AreaMade.mapping_page (hlow : flags < pageSize) (hflags : present flags = true) {p : Nat}
    (hp : s ≤ p / 1024 ∧ p / 1024 < s + n) :
    mapping vm'.phys e p = if present (wordAt vm'.phys (tablePlace f s p)) = true then
      some (wordAt vm'.phys (tablePlace f s p)) else none := by
  have hentry := h.entries _ hp.1 hp.2
  have hleaf : leaf vm'.phys e p = wordAt vm'.phys (tablePlace f s p) := by
    rw [leaf, hentry, frameNo_entry hlow]
    rfl
  rw [mapping, hleaf, hentry, present_entry hlow hflags, Bool.true_and]

/-- A frame in use is none of the new tables. -/
theorem AreaMade.ne_of_bit {g : Nat} (hg : vm.pmm.bit g = true) : ¬(f ≤ g ∧ g < f + n) := by
  rintro ⟨hge, hlt⟩
  rw [h.free g hge hlt] at hg
  cases hg

/-- The frames in use keep their words, apart from the directory and the window. -/
theorem AreaMade.word_of_bit {g k : Nat} (hg : vm.pmm.bit g = true) (hge : g ≠ e) (hgw : g ≠ w)
    (hk : k < 1024) :
    vm'.phys.word g k = vm.phys.word g k := by
  refine h.writes.word ?_ hk
  rintro ((rfl | rfl) | hnew)
  · exact hge rfl
  · exact hgw rfl
  · exact h.ne_of_bit hg hnew

theorem Ready.areaMade (hready : vm.Ready d e w) (hwindow : vm'.Window d w) :
    vm'.Ready d e w where
  toWindow := hwindow
  directory_used := h.writes.bits d hready.directory_used
  image_used := h.writes.bits e hready.image_used
  window_used := h.writes.bits w hready.window_used
  window_ne := hready.window_ne
  maxFrames_le := h.writes.maxFrames ▸ hready.maxFrames_le

theorem Image.areaMade (himage : vm.Image d e w) (hwindow : vm'.Window d w)
    (hlow : flags < pageSize) : vm'.Image d e w where
  toReady := himage.toReady.areaMade h hwindow
  tables i hi hpresent := by
    by_cases hslot : s ≤ i ∧ i < s + n
    · rw [h.entries i hslot.1 hslot.2, frameNo_entry hlow]
      have hrange : f ≤ f + (i - s) ∧ f + (i - s) < f + n := by omega
      refine ⟨h.used _ hrange.1 hrange.2, ?_, ?_⟩
      · rintro rfl
        exact h.ne_of_bit himage.image_used hrange
      · rintro rfl
        exact h.ne_of_bit himage.window_used hrange
    · rw [h.directory i (by omega) (by omega)] at hpresent ⊢
      obtain ⟨hused, hne, hne'⟩ := himage.tables i hi hpresent
      exact ⟨h.writes.bits _ hused, hne, hne'⟩

/-- A slot that the area does not reach keeps its pages. -/
theorem AreaMade.mapping_eq {p : Nat} (himage : vm.Image d e w) (hp : p / 1024 < 768) (hslot : p / 1024 < s ∨ s + n ≤ p / 1024) :
    mapping vm'.phys e p = mapping vm.phys e p := by
  refine mapping_congr (h.directory _ (by omega) hslot) fun hpresent => ?_
  obtain ⟨hused, hne, hne'⟩ := himage.tables _ hp hpresent
  exact h.word_of_bit hused hne hne' (mod_lt p (by decide))

end

/-! ## Runs of `mmu_create_vm_area` -/

section

variable {vm : Vm} {virtAddr physAddr size flags : Nat}

theorem mapRange_eq_foldlM : vm.mapRange virtAddr physAddr size flags =
    (List.range' (virtAddr / pageSize)
      (u32 (u32 (virtAddr + size) + (pageSize - 1)) / pageSize - virtAddr / pageSize)).foldlM
      (fun vm p => (vm.mapPage (p * pageSize)
        (u32 (alignDown physAddr + (p * pageSize - alignDown virtAddr))) flags).map (·.1)) vm := by
  refine pageLoop_eq ?_
  have hlt := u32_lt (u32 (virtAddr + size) + (pageSize - 1))
  rw [pageSize] at hlt ⊢
  omega

theorem unmapRange_eq_foldlM : vm.unmapRange virtAddr size =
    (List.range' (u32 (virtAddr + (pageSize - 1)) / pageSize)
      (u32 (virtAddr + size) / pageSize - u32 (virtAddr + (pageSize - 1)) / pageSize)).foldlM
      (fun vm p => vm.unmapPage (p * pageSize)) vm := by
  refine pageLoop_eq ?_
  have hlt := u32_lt (virtAddr + size)
  rw [pageSize]
  omega

end

/-- A call of `mmu_create_vm_area`. -/
structure AreaCall where
  virtStart : Nat
  size : Nat
  sizeAlloc : Nat
  pgflags : Nat

namespace AreaCall

def exec (c : AreaCall) (s : Vm × MmStruct) : Option (Vm × MmStruct) :=
  s.1.createVmArea s.2 c.virtStart c.size c.sizeAlloc c.pgflags

/-- The directory entries that the call writes. -/
def Reaches (c : AreaCall) (i : Nat) : Prop :=
  c.virtStart / 2 ^ 22 ≤ i ∧ i < (c.virtStart + c.sizeAlloc + (2 ^ 22 - 1)) / 2 ^ 22

/-- The area is in the user half, and no address of an earlier area is in a slot of
four megabytes that the area reaches. -/
structure Admitted (c : AreaCall) (s : Vm × MmStruct) : Prop where
  user : c.virtStart + c.sizeAlloc ≤ userEnd
  user_end : c.virtStart + c.size ≤ userEnd
  flags_lt : c.pgflags < pageSize
  flags_present : present c.pgflags = true
  apart : ∀ area ∈ s.2.mmapList, ∀ addr, area.vmStart ≤ addr → addr < area.vmEnd →
    ¬c.Reaches (addr / 2 ^ 22)

end AreaCall

/-- The image of an `mm_struct_t` with areas in the user half. -/
structure ImageOf (s : Vm × MmStruct) (d e w : Nat) : Prop where
  image : s.1.Image d e w
  pgd : s.2.pgd = e * pageSize
  user : ∀ area ∈ s.2.mmapList, area.vmEnd ≤ userEnd

variable {s t : Vm × MmStruct} {d e w : Nat} {c : AreaCall}

theorem AreaCall.exec_made (hready : s.1.Ready d e w) (hpgd : s.2.pgd = e * pageSize)
    (huser : c.virtStart + c.sizeAlloc ≤ userEnd) (hflags : present c.pgflags = true)
    (hlow : c.pgflags < pageSize) (hexec : c.exec s = some t) :
    ∃ f, AreaMade s.1 t.1 e w (areaSlots c.virtStart c.sizeAlloc).1
      (areaSlots c.virtStart c.sizeAlloc).2
        f (areaPages c.virtStart c.sizeAlloc).1 (areaPages c.virtStart c.sizeAlloc).2 c.pgflags ∧
      t.1.Window d w ∧ t.2.pgd = s.2.pgd ∧
      t.2.mmapList = ⟨c.virtStart, u32 (c.virtStart + c.size), c.pgflags⟩ :: s.2.mmapList := by
  rw [exec, createVmArea, createVmAreaVia, bind_eq_bind, bind_eq_some_iff] at hexec
  obtain ⟨vm', halloc, hret⟩ := hexec
  cases hret
  rw [hpgd] at halloc
  obtain ⟨f, -, -, hmade, hwindow, -⟩ := hready.toWindow.allocateVmArea hready.directory_used
    hready.image_used
    hready.window_used hready.window_ne hready.maxFrames_le hflags hlow huser halloc
  exact ⟨f, hmade, hwindow, rfl, rfl⟩

section

variable (himage : ImageOf s d e w) (hc : c.Admitted s) (hexec : c.exec s = some t)
include himage hc hexec

theorem AreaCall.exec_spec :
    ∃ f, AreaMade s.1 t.1 e w (areaSlots c.virtStart c.sizeAlloc).1
      (areaSlots c.virtStart c.sizeAlloc).2
        f (areaPages c.virtStart c.sizeAlloc).1 (areaPages c.virtStart c.sizeAlloc).2 c.pgflags ∧
      t.1.Window d w ∧ t.2.pgd = s.2.pgd ∧
      t.2.mmapList = ⟨c.virtStart, u32 (c.virtStart + c.size), c.pgflags⟩ :: s.2.mmapList :=
  exec_made himage.image.toReady himage.pgd hc.user hc.flags_present hc.flags_lt hexec

theorem AreaCall.imageOf :
    ImageOf t d e w := by
  obtain ⟨f, hmade, hwindow, hpgd, hlist⟩ := exec_spec himage hc hexec
  refine ⟨himage.image.areaMade hmade hwindow hc.flags_lt, hpgd.trans himage.pgd, ?_⟩
  rw [hlist]
  rintro area hmem
  obtain rfl | hold := mem_cons.mp hmem
  · exact (mod_le _ _).trans hc.user_end
  · exact himage.user area hold

end

/-- In a run of `mmu_create_vm_area` calls that each reach only slots without earlier
areas, every call leaves the translation of every address of every earlier area
as it was. -/
theorem create_vm_area_conservative {u : Vm × MmStruct} (himage : ImageOf s d e w)
    (hrun : Runs AreaCall.exec AreaCall.Admitted s t) (hc : c.Admitted t)
    (hexec : c.exec t = some u) {area : VmArea} (harea : area ∈ t.2.mmapList) {addr : Nat}
    (hlow : area.vmStart ≤ addr) (hhigh : addr < area.vmEnd) :
    walk u.1.phys t.2.pgd addr = walk t.1.phys t.2.pgd addr := by
  have himage' : ImageOf t d e w := hrun.invariant (ImageOf · d e w)
    (fun c s t himage hc hexec => AreaCall.imageOf himage hc hexec) himage
  obtain ⟨f, hmade, -⟩ := AreaCall.exec_spec himage' hc hexec
  have huser := himage'.user area harea
  rw [userEnd] at huser
  have hapart := hc.apart area harea addr hlow hhigh
  have hpage : addr / pageSize / 1024 = addr / 2 ^ 22 := by
    rw [pageSize]
    omega
  rw [himage'.pgd, walk_eq (by omega), walk_eq (by omega),
    hmade.mapping_eq himage'.image (by omega)]
  rw [hpage, areaSlots]
  rw [AreaCall.Reaches] at hapart
  omega

/-- A kernel directory in frame one of a memory of 64 frames, with the table of the
window in frame two, and a directory without areas in frame three. -/
def bareImage : Vm × MmStruct where
  fst := {
    phys := ((((Bytes.setWord (fun _ => 0) 1 1023 0x1003).setWord 1 830 0x2003).setWord 3 1023
      0x3003).setWord 3 830 0x2003)
    pmm := ⟨fun i => if i = 0 then 15#32 else 0, 64, 4, 0⟩
    cr3 := 0x1000
    curPdir := 0x1000 }
  snd := ⟨0x3000, [], 0, 0, 0⟩

theorem word_bareImage {i : Nat} (hi : i < 768) : bareImage.1.phys.word 3 i = 0 := by
  refine (Bytes.word_setWord_of_ne (by decide) (by omega) (Or.inr (by omega))).trans ?_
  refine (Bytes.word_setWord_of_ne (by decide) (by omega) (Or.inr (by omega))).trans ?_
  refine (Bytes.word_setWord_of_ne (by decide) (by omega) (Or.inl (by decide))).trans ?_
  exact Bytes.word_setWord_of_ne (by decide) (by omega) (Or.inl (by decide))

theorem imageOf_bareImage : ImageOf bareImage 1 3 2 := by
  have hself : bareImage.1.phys.word 1 1023 = 0x1003 := by decide
  have htable : bareImage.1.phys.word 1 830 = 0x2003 := by decide
  have hrecursive : bareImage.1.Recursive 1 := ⟨rfl, rfl, by rw [hself]; rfl, by rw [hself]; rfl⟩
  have hwindow : bareImage.1.Window 1 2 :=
    ⟨hrecursive, by rw [htable]; rfl, by rw [htable]; rfl, by rw [htable]; rfl, by decide⟩
  refine ⟨⟨⟨hwindow, by decide, by decide, by decide, by decide, by decide⟩,
    fun i hi hpresent => ?_⟩, rfl, fun area harea => absurd harea not_mem_nil⟩
  rw [word_bareImage hi] at hpresent
  cases hpresent

/-- A page at four megabytes and one at eight. -/
theorem create_vm_area_conservative_pages : ∃ t u,
    AreaCall.exec ⟨0x400000, 0x1000, 0x1000, 7⟩ bareImage = some t ∧
      AreaCall.exec ⟨0x800000, 0x1000, 0x1000, 7⟩ t = some u ∧
        t.2.mmapList = [⟨0x400000, 0x401000, 7⟩] ∧
      walk u.1.phys t.2.pgd 0x400000 = walk t.1.phys t.2.pgd 0x400000 := by
  have hsome : ((AreaCall.exec ⟨0x400000, 0x1000, 0x1000, 7⟩ bareImage).bind fun t =>
      t.1.createVmArea t.2 0x800000 0x1000 0x1000 7).isSome = true := by
    simp only [AreaCall.exec, createVmArea, createVmAreaVia, allocateVmAreaVia, mapRange_eq_foldlM,
      unmapRange_eq_foldlM]
    decide +kernel
  obtain ⟨u, hboth⟩ := isSome_iff_exists.mp hsome
  obtain ⟨t, ht, hu⟩ := bind_eq_some_iff.mp hboth
  have hfirst : AreaCall.Admitted ⟨0x400000, 0x1000, 0x1000, 7⟩ bareImage :=
    ⟨by decide, by decide, by decide, by decide, fun area harea => absurd harea not_mem_nil⟩
  obtain ⟨-, -, -, -, hlist⟩ := AreaCall.exec_spec imageOf_bareImage hfirst ht
  have hareas : t.2.mmapList = [⟨0x400000, 0x401000, 7⟩] := hlist
  have hsecond : AreaCall.Admitted ⟨0x800000, 0x1000, 0x1000, 7⟩ t := by
    refine ⟨by decide, by decide, by decide, by decide, fun area harea addr hlow hhigh hreach => ?_⟩
    rw [hareas, mem_singleton] at harea
    subst harea
    obtain ⟨hle, -⟩ := hreach
    dsimp only at hlow hhigh hle
    omega
  exact ⟨t, u, ht, hu, hareas, create_vm_area_conservative imageOf_bareImage
    (Runs.single hfirst ht) hsecond hu (hareas ▸ mem_singleton_self _) (by decide) (by decide)⟩

/-- Two pages next to each other, as areas of their own: the second area takes a new
table for the slot, and the page of the first one is gone. -/
theorem second_area_drops_first : ∃ t u,
    AreaCall.exec ⟨0x400000, 0x1000, 0x1000, 7⟩ bareImage = some t ∧
      AreaCall.exec ⟨0x401000, 0x1000, 0x1000, 7⟩ t = some u ∧
      walk t.1.phys t.2.pgd 0x400000 = some 0x5000 ∧ walk u.1.phys t.2.pgd 0x400000 = none := by
  have hrun : ((AreaCall.exec ⟨0x400000, 0x1000, 0x1000, 7⟩ bareImage).bind fun t =>
      (AreaCall.exec ⟨0x401000, 0x1000, 0x1000, 7⟩ t).map fun u =>
        (walk t.1.phys t.2.pgd 0x400000, walk u.1.phys t.2.pgd 0x400000)) =
          some (some 0x5000, none) := by
    simp only [AreaCall.exec, createVmArea, createVmAreaVia, allocateVmAreaVia, mapRange_eq_foldlM,
      unmapRange_eq_foldlM]
    decide +kernel
  obtain ⟨t, ht, hrest⟩ := bind_eq_some_iff.mp hrun
  obtain ⟨u, hu, hpair⟩ := map_eq_some_iff.mp hrest
  obtain ⟨hbefore, hafter⟩ := Prod.mk.inj hpair
  exact ⟨t, u, ht, hu, hbefore, hafter⟩

end Hos.Vm
