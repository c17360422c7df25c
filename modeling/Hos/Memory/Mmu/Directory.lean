import Hos.Memory.Mmu.Image

/-!
# The directories of the images

`mmu_create_blank_process_image` copies the kernel directory and points its last
entry at the new directory. `vmm_switch_directory` loads `CR3` from that entry,
so a directory is active after a switch when its last entry names it.
`mmu_clone_process_image` copies the kernel directory as well and leaves the last
entry as it is: a switch to a clone activates the kernel directory while
`cur_pdir` names the clone.
-/

namespace Hos.Vm

open Option List Nat

/-- A directory in use whose last entry names it and which has the table of the
window. -/
structure Directory (vm : Vm) (g w : Nat) : Prop where
  ne_zero : g ≠ 0
  used : vm.pmm.bit g = true
  ne_window : g ≠ w
  self_present : present (vm.phys.word g 1023) = true
  self_frame : frameNo (vm.phys.word g 1023) = g
  table_present : present (vm.phys.word g 830) = true
  table_frame : frameNo (vm.phys.word g 830) = w
  table_small : large (vm.phys.word g 830) = false

/-- The block of the heap at the virtual address `addr` is the page of frame `e`. No
directory or table of the active address space is in it. -/
structure Block (vm : Vm) (d e addr : Nat) : Prop where
  aligned : addr % pageSize = 0
  below : addr < 0xFFC00000
  mapped : vm.translate addr = some (e * pageSize)
  ne_directory : e ≠ d
  ne_table : frameNo (vm.phys.word d (addr / 2 ^ 22)) ≠ e

/-- A copy of the kernel directory `k` in frame `e` that names itself. -/
def blank (vm : Vm) (k e : Nat) : Vm :=
  { vm with phys := (vm.phys.copyFrame e k).setWord e 1023 (e * pageSize ||| kernelAccess) }

theorem bind_of_eq_some {α β : Type} {x : Option α} {a : α} (h : x = some a) (f : α → Option β) :
    x.bind f = f a := by
  rw [h, bind_some]

section

variable {vm vm' : Vm} {d e g k w addr stackSize : Nat}

theorem Directory.window (h : vm.Directory d w) (hcr3 : vm.cr3 = d * pageSize)
    (hcur : vm.curPdir = d * pageSize) : vm.Window d w :=
  ⟨⟨hcr3, hcur, h.self_present, h.self_frame⟩, h.table_present, h.table_frame, h.table_small,
    h.ne_window.symm⟩

theorem Directory.congr (h : vm.Directory g w) (hbits : vm'.pmm.bit g = true)
    (hself : vm'.phys.word g 1023 = vm.phys.word g 1023)
    (htable : vm'.phys.word g 830 = vm.phys.word g 830) : vm'.Directory g w :=
  ⟨h.ne_zero, hbits, h.ne_window, hself ▸ h.self_present, hself ▸ h.self_frame,
    htable ▸ h.table_present, htable ▸ h.table_frame, htable ▸ h.table_small⟩

theorem word_blank_of_ne {i : Nat} (hge : g ≠ e) (hi : i < 1024) :
    (vm.blank k e).phys.word g i = vm.phys.word g i :=
  (Bytes.word_setWord_of_ne (by decide) hi (.inl hge)).trans (Bytes.word_copyFrame_of_ne hi hge)

theorem word_blank_self {i : Nat} (hi : i < 1023) :
    (vm.blank k e).phys.word e i = vm.phys.word k i :=
  (Bytes.word_setWord_of_ne (by decide) (by omega) (.inr (by omega))).trans
    (Bytes.word_copyFrame_self (by omega))

theorem Directory.blank_of_ne (h : vm.Directory g w) (hge : g ≠ e) : (vm.blank k e).Directory g w :=
  h.congr h.used (word_blank_of_ne hge (by decide)) (word_blank_of_ne hge (by decide))

theorem Directory.blank_self (h : vm.Directory k w) (he : vm.pmm.bit e = true) (hew : e ≠ w)
    (hzero : e ≠ 0) (hlt : e < 2 ^ 20) : (vm.blank k e).Directory e w := by
  have htable : (vm.blank k e).phys.word e 830 = vm.phys.word k 830 := word_blank_self (by decide)
  have hraw : e * pageSize ||| kernelAccess < 2 ^ 32 := by
    refine or_lt_two_pow ?_ (by decide)
    rw [pageSize]
    omega
  have hself : (vm.blank k e).phys.word e 1023 = e * pageSize ||| kernelAccess := by
    rw [blank, Bytes.word_setWord_self, mod_eq_of_lt hraw]
  refine ⟨hzero, he, hew, ?_, ?_, ?_, ?_, ?_⟩
  · rw [hself, present_entry (by decide) (by decide)]
  · rw [hself, frameNo_entry (by decide)]
  · rw [htable, h.table_present]
  · rw [htable, h.table_frame]
  · rw [htable, h.table_small]

/-- A new area keeps the directories of all images. -/
theorem Directory.areaMade {s n f a b flags : Nat} (h : vm.Directory g w)
    (hmade : AreaMade vm vm' e w s n f a b flags) (hn : s + n ≤ 768) : vm'.Directory g w := by
  have hword : ∀ i, 768 ≤ i → i < 1024 → vm'.phys.word g i = vm.phys.word g i := by
    intro i hle hlt
    by_cases hge : g = e
    · subst hge
      exact hmade.directory i hlt (by omega)
    · exact hmade.word_of_bit h.used hge h.ne_window hlt
  exact h.congr (hmade.writes.bits g h.used) (hword 1023 (by decide) (by decide))
    (hword 830 (by decide) (by decide))

/-- `vmm_r_get_phy_addr` is the walk of the processor for a page that is mapped. -/
theorem Recursive.rGetPhyAddr_eq {physAddr : Nat} (h : vm.Recursive d) (haddr : addr < 2 ^ 32)
    (hmapped : vm.translate addr = some physAddr) : vm.rGetPhyAddr addr = some physAddr := by
  have hpte : pteIndex addr < 1024 := mod_lt _ (by decide)
  have hpde : pdeIndex addr = addr / pageSize / 1024 := by
    rw [pdeIndex, pageSize]
    omega
  rw [translate, h.cr3, walk_eq haddr] at hmapped
  obtain ⟨raw, hraw, rfl⟩ := map_eq_some_iff.mp hmapped
  obtain ⟨htable, -, hleaf⟩ := mapping_eq_some_iff.mp hraw
  rw [rGetPhyAddr, h.translate_table hpte (hpde.symm ▸ htable), hpde]
  subst hleaf
  rfl

/-- Copying the kernel directory to the block leaves the block where it is. -/
theorem Block.translate_copy (hb : vm.Block d e addr) (h : vm.Recursive d) (phys : Bytes)
    (hphys : ∀ g ≠ e, ∀ i < 1024, phys.word g i = vm.phys.word g i) :
    ({ vm with phys := phys } : Vm).translate addr = some (e * pageSize) := by
  have hbelow := hb.below
  have hpage : addr / pageSize / 1024 = addr / 2 ^ 22 := by
    rw [pageSize]
    omega
  have hmapped := hb.mapped
  rw [translate, h.cr3, walk_eq (by omega)] at hmapped
  rw [translate, h.cr3, walk_eq (by omega), ← hmapped]
  refine congrArg _ (mapping_congr ?_ fun _ => ?_)
  · exact hphys d hb.ne_directory.symm _ (by omega)
  · refine hphys _ ?_ _ (mod_lt _ (by decide))
    rw [hpage]
    exact hb.ne_table

/-- `mmu_create_blank_process_image` makes the stack area of a blank directory. -/
theorem Block.createBlankProcessImage_eq (hb : vm.Block d e addr) (h : vm.Recursive d) :
    vm.createBlankProcessImage (k * pageSize) addr stackSize =
      (AreaCall.exec ⟨sub32 userEnd stackSize, stackSize, stackSize, userAccess⟩
        (vm.blank k e, ⟨e * pageSize, [], 0, 0, 0⟩)).map
        fun s => (s.1, { s.2 with startStack := sub32 userEnd stackSize }) := by
  have hbelow := hb.below
  have hcopied := hb.translate_copy h (vm.phys.copyFrame e k) fun g hg i hi =>
    Bytes.word_copyFrame_of_ne hi hg
  have hself : (vm.phys.copyFrame e k).word d 1023 = vm.phys.word d 1023 :=
    Bytes.word_copyFrame_of_ne (by decide) hb.ne_directory.symm
  have hphy := Recursive.rGetPhyAddr_eq (h.congr vm.pmm hself) (by omega) hcopied
  refine ((bind_of_eq_some hb.mapped _).trans (bind_of_eq_some hphy _)).trans ?_
  exact map_eq_bind.symm

/-- What `mmu_create_blank_process_image` leaves: the blank directory with the tables
and pages of a stack below `USER_END`. -/
theorem Block.createBlankProcessImage_made {mm : MmStruct} (hb : vm.Block d e addr)
    (hready : (vm.blank k e).Ready d e w) (h : vm.Recursive d) (hstack : stackSize ≤ userEnd)
    (hrun : vm.createBlankProcessImage (k * pageSize) addr stackSize = some (vm', mm)) :
    ∃ f, AreaMade (vm.blank k e) vm' e w (areaSlots (userEnd - stackSize) stackSize).1
        (areaSlots (userEnd - stackSize) stackSize).2 f
          (areaPages (userEnd - stackSize) stackSize).1
        (areaPages (userEnd - stackSize) stackSize).2 userAccess ∧
      vm'.Window d w ∧ mm.pgd = e * pageSize ∧
      mm.mmapList = [⟨userEnd - stackSize, userEnd, userAccess⟩] := by
  have hstart : sub32 userEnd stackSize = userEnd - stackSize := sub32_of_le (by decide) hstack
  have hend : userEnd - stackSize + stackSize = userEnd := Nat.sub_add_cancel hstack
  rw [hb.createBlankProcessImage_eq h, hstart] at hrun
  obtain ⟨⟨vm₁, mm₁⟩, hexec, hret⟩ := map_eq_some_iff.mp hrun
  cases hret
  obtain ⟨f, hmade, hwindow, hpgd, hlist⟩ := AreaCall.exec_made hready rfl hend.le
    (show present userAccess = true by decide) (show userAccess < pageSize by decide) hexec
  refine ⟨f, hmade, hwindow, hpgd, hlist.trans ?_⟩
  rw [hend, u32_of_lt (by decide)]

end

/-! ## Runs of creating, cloning and switching -/

/-- The machine and the images made so far. -/
structure Images where
  vm : Vm
  images : List MmStruct

/-- The calls. A new directory is at the virtual address that the heap answers. -/
inductive ImageCall where
  | create (pdirCpy stackSize : Nat)
  | clone (pdirCpy : Nat) (mm : MmStruct)
  | switch (newPdir : Nat)

/-- A call, with the kernel directory in frame `k`. -/
def ImageCall.exec (k : Nat) : ImageCall → Images → Option Images
  | .create pdirCpy stackSize, s =>
    (s.vm.createBlankProcessImage (k * pageSize) pdirCpy stackSize).map fun r =>
      ⟨r.1, r.2 :: s.images⟩
  | .clone pdirCpy mm, s =>
    (s.vm.cloneProcessImage (k * pageSize) pdirCpy mm).map fun r => ⟨r.1, r.2 :: s.images⟩
  | .switch newPdir, s => some ⟨s.vm.switchDirectory (k * pageSize) newPdir, s.images⟩

/-- A block of the heap for a new directory: no directory, the kernel's or that of an
image, is in it. -/
structure Fresh (k w : Nat) (s : Images) (d e addr : Nat) : Prop extends Block s.vm d e addr where
  active : s.vm.curPdir = d * pageSize
  used : s.vm.pmm.bit e = true
  ne_zero : e ≠ 0
  lt : e < 2 ^ 20
  ne_window : e ≠ w
  ne_kernel : e ≠ k
  ne_image : ∀ mm ∈ s.images, mm.pgd ≠ e * pageSize

/-- A switch goes to the kernel directory or to that of an image, and nothing is
cloned. -/
def ImageCall.Admitted (k w : Nat) : ImageCall → Images → Prop
  | .create pdirCpy stackSize, s => stackSize ≤ userEnd ∧ ∃ d e, Fresh k w s d e pdirCpy
  | .clone _ _, _ => False
  | .switch newPdir, s => newPdir = 0 ∨ newPdir = k * pageSize ∨ ∃ mm ∈ s.images, mm.pgd = newPdir

/-- All directories are in order, and one of them is active. -/
structure InOrder (k w : Nat) (s : Images) : Prop where
  kernel : s.vm.Directory k w
  image : ∀ mm ∈ s.images, ∃ e, mm.pgd = e * pageSize ∧ s.vm.Directory e w
  active : ∃ d, s.vm.Directory d w ∧ s.vm.cr3 = d * pageSize ∧ s.vm.curPdir = d * pageSize ∧
    (d = k ∨ ∃ mm ∈ s.images, mm.pgd = d * pageSize)
  window_used : s.vm.pmm.bit w = true
  maxFrames_le : s.vm.pmm.maxFrames ≤ 2 ^ 20

/-- The last entry of the directory at `pgd` names the directory. -/
def SelfMapped (vm : Vm) (pgd : Nat) : Prop :=
  present (vm.phys.load32 (entryAddr pgd 1023)) = true ∧
    entryFrame (vm.phys.load32 (entryAddr pgd 1023)) = pgd

variable {k w : Nat} {s t : Images}

theorem Directory.selfMapped {vm : Vm} {e : Nat} (h : vm.Directory e w) :
    vm.SelfMapped (e * pageSize) :=
  ⟨h.self_present, congrArg (· * pageSize) h.self_frame⟩

theorem switchDirectory_eq {vm : Vm} {e : Nat} (h : vm.Directory e w) {kPdir : Nat} :
    vm.switchDirectory kPdir (e * pageSize) =
      { vm with curPdir := e * pageSize, cr3 := e * pageSize } := by
  have hne : e * pageSize ≠ 0 := Nat.mul_ne_zero h.ne_zero (by decide)
  have hcr3 := h.selfMapped.2
  rw [switchDirectory, if_neg hne, hcr3]

theorem InOrder.switch (h : InOrder k w s) {newPdir : Nat}
    (hcall : (ImageCall.switch newPdir).Admitted k w s) :
    InOrder k w ⟨s.vm.switchDirectory (k * pageSize) newPdir, s.images⟩ := by
  obtain ⟨e, hdir, hpdir, hmem⟩ : ∃ e, s.vm.Directory e w ∧
      s.vm.switchDirectory (k * pageSize) newPdir = s.vm.switchDirectory (k * pageSize)
        (e * pageSize) ∧ (e = k ∨ ∃ mm ∈ s.images, mm.pgd = e * pageSize) := by
    obtain rfl | rfl | ⟨mm, hmm, rfl⟩ := hcall
    · refine ⟨k, h.kernel, ?_, .inl rfl⟩
      rw [switchDirectory_eq h.kernel, switchDirectory, if_pos rfl, h.kernel.selfMapped.2]
    · exact ⟨k, h.kernel, rfl, .inl rfl⟩
    · obtain ⟨e, hpgd, hdir⟩ := h.image mm hmm
      exact ⟨e, hdir, by rw [hpgd], .inr ⟨mm, hmm, hpgd⟩⟩
  rw [hpdir, switchDirectory_eq hdir]
  have hkeep : ∀ g, s.vm.Directory g w →
      ({ s.vm with curPdir := e * pageSize, cr3 := e * pageSize } : Vm).Directory g w :=
    fun g hg => hg.congr hg.used rfl rfl
  refine ⟨hkeep k h.kernel, fun mm hmm => ?_, ⟨e, hkeep e hdir, rfl, rfl, hmem⟩, h.window_used,
    h.maxFrames_le⟩
  obtain ⟨g, hpgd, hg⟩ := h.image mm hmm
  exact ⟨g, hpgd, hkeep g hg⟩

/-- A directory that is in use is not in a new block. -/
theorem Fresh.ne_of_mem {d e addr g : Nat} (h : Fresh k w s d e addr)
    (hg : g = k ∨ ∃ mm ∈ s.images, mm.pgd = g * pageSize) : g ≠ e := by
  rintro rfl
  obtain rfl | ⟨mm, hmm, hpgd⟩ := hg
  · exact h.ne_kernel rfl
  · exact h.ne_image mm hmm hpgd

/-- The stack area can be made in a new directory. -/
theorem InOrder.ready {d e addr : Nat} (h : InOrder k w s) (hfresh : Fresh k w s d e addr) :
    s.vm.Recursive d ∧ (s.vm.blank k e).Ready d e w := by
  obtain ⟨d', hdir, hcr3, hcur, hmem⟩ := h.active
  obtain rfl : d' = d := eq_of_mul_eq_mul_right (by decide) (hcur.symm.trans hfresh.active)
  have hblank : (s.vm.blank k e).Directory d' w := hdir.blank_of_ne (hfresh.ne_of_mem hmem)
  exact ⟨(hdir.window hcr3 hcur).toRecursive, hblank.window hcr3 hcur, hdir.used, hfresh.used,
    h.window_used, hfresh.ne_window, h.maxFrames_le⟩

theorem InOrder.create (h : InOrder k w s) {pdirCpy stackSize : Nat}
    (hcall : (ImageCall.create pdirCpy stackSize).Admitted k w s)
    (hexec : (ImageCall.create pdirCpy stackSize).exec k s = some t) : InOrder k w t := by
  obtain ⟨hstack, d, e, hfresh⟩ := hcall
  obtain ⟨hrecursive, hready⟩ := h.ready hfresh
  obtain ⟨⟨vm, mm⟩, hrun, rfl⟩ := map_eq_some_iff.mp hexec
  obtain ⟨f, hmade, -, hpgd, -⟩ := hfresh.toBlock.createBlankProcessImage_made hready
    hrecursive hstack hrun
  have hslots := areaSlots_le (Nat.sub_add_cancel hstack).le
  have hkeep : ∀ g, s.vm.Directory g w → (g = k ∨ ∃ mm ∈ s.images, mm.pgd = g * pageSize) →
      vm.Directory g w := fun g hg hmem =>
    (hg.blank_of_ne (hfresh.ne_of_mem hmem)).areaMade hmade hslots
  have hself := h.kernel.blank_self hfresh.used hfresh.ne_window hfresh.ne_zero hfresh.lt
  refine ⟨hkeep k h.kernel (.inl rfl), ?_, ?_, hmade.writes.bits w h.window_used,
    hmade.writes.maxFrames.le.trans h.maxFrames_le⟩
  · intro mm' hmm'
    obtain rfl | hold := mem_cons.mp hmm'
    · exact ⟨e, hpgd, hself.areaMade hmade hslots⟩
    · obtain ⟨g, hg, hgdir⟩ := h.image mm' hold
      exact ⟨g, hg, hkeep g hgdir (.inr ⟨mm', hold, hg⟩)⟩
  · obtain ⟨d', hdir, hcr3, hcur, hmem⟩ := h.active
    refine ⟨d', hkeep d' hdir hmem, hmade.writes.cr3.trans hcr3, hmade.writes.curPdir.trans hcur,
      hmem.imp_right ?_⟩
    rintro ⟨mm', hmm', hd⟩
    exact ⟨mm', mem_cons_of_mem mm hmm', hd⟩

/-- In a run of image creations and switches the last entry of every directory names
the directory, a switch to an image loads `CR3` with its directory, and the
recursive window shows the directory that `cur_pdir` names. -/
theorem directories_self_mapped (h : InOrder k w s)
    (hrun : Runs (ImageCall.exec k) (ImageCall.Admitted k w) s t) :
    (∀ mm ∈ t.images, t.vm.SelfMapped mm.pgd ∧
      (t.vm.switchDirectory (k * pageSize) mm.pgd).cr3 = mm.pgd) ∧ t.vm.cr3 = t.vm.curPdir ∧
      ∀ i < 1024, t.vm.translate (entryAddr rGetDirectory i) = some (entryAddr t.vm.curPdir i) := by
  have horder : InOrder k w t := by
    refine hrun.invariant (InOrder k w) (fun c s t h hcall hexec => ?_) h
    cases c with
    | create pdirCpy stackSize => exact h.create hcall hexec
    | clone pdirCpy mm => exact hcall.elim
    | switch newPdir =>
      cases hexec
      exact h.switch hcall
  refine ⟨fun mm hmm => ?_, ?_⟩
  · obtain ⟨e, hpgd, hdir⟩ := horder.image mm hmm
    rw [hpgd, switchDirectory_eq hdir]
    exact ⟨hdir.selfMapped, rfl⟩
  · obtain ⟨d, hdir, hcr3, hcur, -⟩ := horder.active
    refine ⟨hcr3.trans hcur.symm, fun i hi => ?_⟩
    rw [(hdir.window hcr3 hcur).translate_directory hi, hcur]
    rfl

/-- A kernel directory in frame one, the table of the window in frame two, and a table
in frame three for the heap at `0xD0000000` with the frames four and five. Page one
of the window still shows a table of an earlier image, in frame six. -/
def bareKernel : Images where
  vm := {
    phys := (((((Bytes.setWord (fun _ => 0) 1 1023 0x1003).setWord 1 830 0x2003).setWord 1 832
      0x3003).setWord 3 0 0x4003).setWord 3 1 0x5003).setWord 2 1 0x6003
    pmm := ⟨fun i => if i = 0 then 127#32 else 0, 64, 7, 0⟩
    cr3 := 0x1000
    curPdir := 0x1000 }
  images := []

theorem inOrder_bareKernel_phys {phys : Bytes} (hself : phys.word 1 1023 = 0x1003)
    (htable : phys.word 1 830 = 0x2003) :
    InOrder 1 2 ⟨{ bareKernel.vm with phys := phys }, []⟩ := by
  have hused : bareKernel.vm.pmm.bit 1 = true ∧ bareKernel.vm.pmm.bit 2 = true := by decide
  have hmax : bareKernel.vm.pmm.maxFrames ≤ 2 ^ 20 := by decide
  have hkernel : ({ bareKernel.vm with phys := phys } : Vm).Directory 1 2 :=
    ⟨by decide, hused.1, by decide, by rw [hself]; rfl, by rw [hself]; rfl, by rw [htable]; rfl,
      by rw [htable]; rfl, by rw [htable]; rfl⟩
  exact ⟨hkernel, fun mm hmm => absurd hmm not_mem_nil, ⟨1, hkernel, rfl, rfl, .inl rfl⟩,
    hused.2, hmax⟩

theorem inOrder_bareKernel : InOrder 1 2 bareKernel := inOrder_bareKernel_phys (by decide)
    (by decide)

theorem fresh_bareKernel : Fresh 1 2 bareKernel 1 4 0xD0000000 where
  aligned := by decide
  below := by decide
  mapped := by decide +kernel
  ne_directory := by decide
  ne_table := by decide +kernel
  active := rfl
  used := by decide
  ne_zero := by decide
  lt := by decide
  ne_window := by decide
  ne_kernel := by decide
  ne_image mm hmm := absurd hmm not_mem_nil

/-- A new image after start-up, and a switch to it. -/
theorem directories_self_mapped_new : ∃ t mm,
    (ImageCall.create 0xD0000000 0x1000).exec 1 bareKernel = some t ∧
    t.images = [mm] ∧ (t.vm.switchDirectory 0x1000 mm.pgd).cr3 = mm.pgd := by
  have hsome : ((ImageCall.create 0xD0000000 0x1000).exec 1 bareKernel).isSome = true := by
    simp only [ImageCall.exec, createBlankProcessImage, createVmArea, createVmAreaVia,
      allocateVmAreaVia, mapRange_eq_foldlM, unmapRange_eq_foldlM]
    decide +kernel
  obtain ⟨t, ht⟩ := isSome_iff_exists.mp hsome
  obtain ⟨⟨vm, mm⟩, -, rfl⟩ := map_eq_some_iff.mp ht
  obtain ⟨himages, -⟩ := directories_self_mapped inOrder_bareKernel
    (Runs.single (i := .create 0xD0000000 0x1000) ⟨by decide, 1, 4, fresh_bareKernel⟩ ht)
  exact ⟨_, mm, ht, rfl, (himages mm mem_cons_self).2⟩

/-- An area whose pages are in one table takes one pass. -/
theorem cloneVmArea_of_table {vm vm' : Vm} {mm : MmStruct} {pdirSrc : Nat} {area : VmArea}
    (hlt : area.vmStart / 2 ^ 12 < area.vmEnd / 2 ^ 12)
    (hpresent : present (vm.phys.load32 (entryAddr pdirSrc
      (area.vmStart / 2 ^ 12 / 2 ^ 10 % 1024))) = true)
    (htable : vm.cloneAreaTable pdirSrc mm.pgd area.vmFlags (area.vmStart / 2 ^ 12)
      (area.vmEnd / 2 ^ 12) = some (area.vmEnd / 2 ^ 12, vm')) :
    vm.cloneVmArea mm pdirSrc area = some (vm', { mm with
      mmapList := area :: mm.mmapList
      mapCount := mm.mapCount + 1
      totalVm := u32 (mm.totalVm + sub32 area.vmEnd area.vmStart) }) := by
  have hloop : whileLoop (fun s : Nat × Vm => decide (s.1 < area.vmEnd / 2 ^ 12)) (fun s =>
      if present (s.2.phys.load32 (entryAddr pdirSrc (s.1 / 2 ^ 10 % 1024))) then
        s.2.cloneAreaTable pdirSrc mm.pgd area.vmFlags s.1 (area.vmEnd / 2 ^ 12)
      else some s) (area.vmStart / 2 ^ 12, vm) = some (area.vmEnd / 2 ^ 12, vm') := by
    refine Eq.trans (whileLoop_of_true ?_ ((if_pos hpresent).trans htable)) (whileLoop_of_false ?_)
    · exact decide_eq_true hlt
    simp
  exact bind_of_eq_some hloop _

/-- The clone of an image whose only area is in one table. -/
theorem cloneProcessImage_of_table {vm vm' : Vm} {mm : MmStruct} {kPdir addr pgd : Nat}
    {area : VmArea} (hlist : mm.mmapList = [area]) (hmapped : vm.translate addr = some pgd)
    (hlt : area.vmStart / 2 ^ 12 < area.vmEnd / 2 ^ 12)
    (hpresent : present ((vm.phys.blit pgd vm.phys kPdir pageSize).load32
      (entryAddr mm.pgd (area.vmStart / 2 ^ 12 / 2 ^ 10 % 1024))) = true)
    (htable : ({ vm with phys := vm.phys.blit pgd vm.phys kPdir pageSize } : Vm).cloneAreaTable
      mm.pgd pgd
      area.vmFlags (area.vmStart / 2 ^ 12) (area.vmEnd / 2 ^ 12) =
        some (area.vmEnd / 2 ^ 12, vm')) :
    ∃ mm', vm.cloneProcessImage kPdir addr mm = some (vm', mm') ∧ mm'.pgd = pgd := by
  have harea : ({ vm with phys := vm.phys.blit pgd vm.phys kPdir pageSize } : Vm).cloneVmArea
      { mm with pgd := pgd, mmapList := [], mapCount := 0, totalVm := 0 } mm.pgd area =
      some (vm', { mm with
        pgd := pgd, mmapList := [area], mapCount := 0 + 1
        totalVm := u32 (0 + sub32 area.vmEnd area.vmStart) }) :=
          cloneVmArea_of_table hlt hpresent htable
  refine ⟨{ mm with
    pgd := pgd, mmapList := [area], mapCount := 0 + 1
    totalVm := u32 (0 + sub32 area.vmEnd area.vmStart) }, (bind_of_eq_some hmapped _).trans ?_, rfl⟩
  rw [hlist, foldlM_cons]
  exact bind_of_eq_some harea _

/-- A new image and its clone. -/
theorem bareKernel_clone : ∃ vm mm vm' mm',
    bareKernel.vm.createBlankProcessImage 0x1000 0xD0000000 0x1000 = some (vm, mm) ∧
      vm.cloneProcessImage 0x1000 0xD0001000 mm = some (vm', mm') ∧ mm.pgd = 0x4000 ∧
        mm'.pgd = 0x5000 ∧
      mm.mmapList = [⟨userEnd - 0x1000, userEnd, userAccess⟩] ∧ vm'.phys.load32
        (entryAddr 0x5000 1023) = 0x1003 ∧
      (mapping vm.phys 4 0xBFFFF).isSome = true ∧ mapping vm'.phys 5 0xBFFFF = none := by
  have hcompute : ((bareKernel.vm.createBlankProcessImage 0x1000 0xD0000000 0x1000).bind fun r =>
      (({ r.1 with phys := r.1.phys.blit 0x5000 r.1.phys 0x1000 pageSize } : Vm).cloneAreaTable
        0x4000 0x5000 7 0xBFFFF 0xC0000).map fun u => (u.1, r.1.translate 0xD0001000,
          present ((r.1.phys.blit 0x5000 r.1.phys 0x1000 pageSize).load32 (entryAddr 0x4000 767)),
          u.2.phys.load32 (entryAddr 0x5000 1023), (mapping r.1.phys 4 0xBFFFF).isSome,
          (mapping u.2.phys 5 0xBFFFF))) = some (0xC0000, some 0x5000, true, 0x1003,
            true, none) := by
    simp only [createBlankProcessImage, createVmArea, createVmAreaVia, allocateVmAreaVia,
      mapRange_eq_foldlM, unmapRange_eq_foldlM]
    decide +kernel
  obtain ⟨⟨vm, mm⟩, hcreate, hclone⟩ := bind_eq_some_iff.mp hcompute
  obtain ⟨⟨last, vm'⟩, htable, hvalues⟩ := map_eq_some_iff.mp hclone
  obtain ⟨rfl, hrest⟩ := Prod.mk.inj hvalues
  obtain ⟨htranslate, hrest⟩ := Prod.mk.inj hrest
  obtain ⟨hpresent, hrest⟩ := Prod.mk.inj hrest
  obtain ⟨hself, hrest⟩ := Prod.mk.inj hrest
  obtain ⟨hrecursive, hready⟩ := inOrder_bareKernel.ready fresh_bareKernel
  obtain ⟨-, -, -, hpgd, hlist⟩ := fresh_bareKernel.toBlock.createBlankProcessImage_made
    hready hrecursive (by decide) hcreate
  have hpgd₀ : (0x4000 : Nat) = mm.pgd := hpgd.symm
  rw [hpgd₀] at hpresent htable
  obtain ⟨mm', hrun, hpgd'⟩ := cloneProcessImage_of_table hlist htranslate
    (by decide) hpresent htable
  exact ⟨vm, mm, vm', mm', hcreate, hrun, hpgd, hpgd', hlist, hself, Prod.mk.inj hrest⟩

/-- A clone of a new image: `vmm_switch_directory` loads `CR3` with the kernel
directory. -/
theorem clone_switches_to_kernel : ∃ t mm u mm',
    (ImageCall.create 0xD0000000 0x1000).exec 1 bareKernel = some t ∧ t.images = [mm] ∧
      (ImageCall.clone 0xD0001000 mm).exec 1 t = some u ∧ u.images = [mm', mm] ∧ mm'.pgd = 0x5000 ∧
      ¬u.vm.SelfMapped mm'.pgd ∧ (u.vm.switchDirectory 0x1000 mm'.pgd).cr3 = 0x1000 := by
  obtain ⟨vm, mm, vm', mm', hcreate, hrun, -, hpgd', -, hself, -⟩ := bareKernel_clone
  refine ⟨⟨vm, [mm]⟩, mm, ⟨vm', [mm', mm]⟩, mm', ?_, rfl, ?_, rfl, hpgd', ?_, ?_⟩
  · exact map_eq_some_iff.mpr ⟨_, hcreate, rfl⟩
  · exact map_eq_some_iff.mpr ⟨_, hrun, rfl⟩
  · rintro ⟨-, hframe⟩
    rw [hpgd', hself] at hframe
    cases hframe
  · rw [hpgd', switchDirectory, if_neg (by decide), hself]
    rfl

end Hos.Vm
