import Hos.Memory.Mmu.Destroy

/-!
# Cloning an image

`mmu_clone_vm_area` wants to read the tables of the source and to write those of the
clone through the window. It computes the frames to show with an or of the entry
and `FRAME_MASK`, which is the last frame of the address space whatever the entry
is, and it adds the number of the slot to the address of the window without
multiplying by the page size, so the pointers to both tables are in the first two
pages of the window. All that is written are the directory of the clone, the table
of the window, the last frame and the frames that the first two pages of the window
show. The tables of the clone are new frames that nobody writes to.
-/

namespace Hos

open Option List Nat Bool

/-- The pages that an area meets. -/
def VmArea.Covers (area : VmArea) (p : Nat) : Prop :=
  area.vmStart / 4096 ≤ p ∧ p * 4096 < area.vmEnd

namespace Vm

/-- The last frame of the address space. -/
def lastFrame : Nat := 0xFFFFF

/-- The frames that cloning through the window table `w` of the active directory `d`
may write to, besides the directory `e` of the clone: the last frame and those
shown in the first two pages of the window. -/
structure Stage (vm : Vm) (d e w : Nat) (F : Set Nat) : Prop where
  last_mem : lastFrame ∈ F
  directory_ne : d ≠ e
  directory_notMem : d ∉ F
  clone_notMem : e ∉ F
  clone_ne : e ≠ w
  window_notMem : w ∉ F
  shown : ∀ i < 2, present (vm.phys.word w i) = true → frameNo (vm.phys.word w i) ∈ F
  maxFrames_le : vm.pmm.maxFrames ≤ lastFrame

/-- The state of a clone in progress that started in `vm₀`. It keeps the tables of its
directory `e`, and the others that it has are frames that were free. -/
structure Cloning (vm₀ : Vm) (d e w : Nat) (F : Set Nat) (vm : Vm) : Prop where
  window : vm.Window d w
  writes : vm₀.Writes vm ({e, w} ∪ F)
  shown : ∀ i < 2, present (vm.phys.word w i) = true → frameNo (vm.phys.word w i) ∈ F
  kept : ∀ i < 768, present (vm₀.phys.word e i) = true → vm.phys.word e i = vm₀.phys.word e i
  tables : ∀ i < 768, present (vm₀.phys.word e i) = false → present (vm.phys.word e i) = true →
    vm₀.pmm.bit (frameNo (vm.phys.word e i)) = false ∧
      frameNo (vm.phys.word e i) < vm₀.pmm.maxFrames

section

variable {vm vm' : Vm} {d w i addr physAddr raw flags old : Nat} {ret : Option Nat}

/-- Whatever the entry, its or with `FRAME_MASK` is in the last frame. -/
theorem or_frameMask_div : (raw ||| frameMask) / 2 ^ 12 % 2 ^ 20 = lastFrame := by
  apply eq_of_testBit_eq
  intro j
  rw [testBit_mod_two_pow, testBit_div_two_pow, testBit_or,
    show frameMask = 2 ^ 12 * (2 ^ 20 - 1) from rfl, testBit_two_pow_mul,
    show lastFrame = 2 ^ 20 - 1 from rfl, testBit_two_pow_sub_one, testBit_two_pow_sub_one,
    Nat.add_sub_cancel]
  by_cases hj : j < 20 <;> simp [hj]

theorem frameNo_newEntry_mask : frameNo (newEntry old ((raw ||| frameMask) / 2 ^ 12) flags) =
    lastFrame := by
  have hentry : newEntry old ((raw ||| frameMask) / 2 ^ 12) flags =
      newEntry old lastFrame flags := by
    rw [newEntry, or_frameMask_div]
    rfl
  rw [hentry, frameNo_newEntry (by decide)]

/-- `vmm_map_page` and `vmm_unmap_page` round the address down. -/
theorem mapPage_align : vm.mapPage addr physAddr flags = vm.mapPage
    (addr / pageSize * pageSize) physAddr flags := by
  have hdiv : addr / pageSize * pageSize / pageSize = addr / pageSize :=
    Nat.mul_div_cancel _ (by decide)
  simp only [mapPage, hdiv]

theorem unmapPage_align : vm.unmapPage addr = vm.unmapPage (addr / pageSize * pageSize) := by
  have hdiv : addr / pageSize * pageSize / pageSize = addr / pageSize :=
    Nat.mul_div_cancel _ (by decide)
  simp only [unmapPage, mappedEntry, hdiv]

variable (h : vm.Window d w) (hi : i < 1024) (haddr : addr / pageSize = 830 * 1024 + i)
include h hi haddr

theorem Window.mapPage_of_page (hrun : vm.mapPage addr physAddr flags = some (vm', ret)) :
    vm' = { vm with
      pmm := vm.pmm.frameSeta physAddr
      phys := vm.phys.setWord w i (newEntry (vm.phys.word w i) (physAddr / 2 ^ 12) flags) } := by
  have hmap : (vm.mapPage (pageTableMapStart + i * pageSize) physAddr flags).map (·.1) =
      some { vm with
      pmm := vm.pmm.frameSeta physAddr
      phys := vm.phys.setWord w i (newEntry (vm.phys.word w i) (physAddr / 2 ^ 12) flags) } :=
        h.mapPage_eq hi
  rw [windowPage, ← haddr, ← mapPage_align, hrun] at hmap
  exact some.inj hmap

theorem Window.unmapPage_of_page (hrun : vm.unmapPage addr = some vm') :
    vm' = if present (vm.phys.word w i) = true then { vm with phys := vm.phys.setWord w i 0 }
      else vm := by
  have hunmap := h.unmapPage_eq hi
  rw [← haddr, ← unmapPage_align, hrun] at hunmap
  exact some.inj hunmap

/-- An address in a page of the window is in the frame that the page shows. -/
theorem Window.translate_of_page {b : Nat} (hrun : vm.translate addr = some b) :
    present (vm.phys.word w i) = true ∧ b = frameNo
      (vm.phys.word w i) * pageSize + addr % pageSize := by
  have hlt : addr < 2 ^ 32 := by
    rw [pageSize] at haddr
    omega
  rw [translate, h.cr3, walk_eq hlt, haddr, h.mapping_page hi] at hrun
  by_cases hpresent : present (vm.phys.word w i) = true
  · rw [if_pos hpresent] at hrun
    exact ⟨hpresent, (some.inj hrun).symm⟩
  · rw [if_neg hpresent] at hrun
    cases hrun

end

section

variable {vm₀ vm vm' : Vm} {d e w i addr : Nat} {F : Set Nat}

theorem Stage.cloning (hstage : Stage vm d e w F) (hwindow : vm.Window d w) :
    Cloning vm d e w F vm where
  window := hwindow
  writes := Writes.refl vm _
  shown := hstage.shown
  kept _ _ _ := rfl
  tables _ _ habsent hpresent := absurd (hpresent.symm.trans habsent) (by decide)

/-- The bytes of a word in the first two pages of the window. -/
theorem window_byte {off j : Nat} (hoff : off + j < 8192) :
    u32 (pageTableMapStart + off + j) / pageSize = 830 * 1024 + (off + j) / 4096 := by
  rw [u32_of_lt (by rw [pageTableMapStart]; omega), pageTableMapStart, pageSize]
  omega

theorem writes_allocateFrame {f : Nat} {pmm : Pmm} (halloc : vm.pmm.allocateFrame = some (f, pmm)) :
    vm.Writes { vm with pmm := pmm } F := by
  obtain ⟨-, -, -, hpmm⟩ := Pmm.allocateFrame_eq_some halloc
  refine ⟨rfl, rfl, fun _ _ => rfl, fun g hg => ?_, ?_⟩
  · rw [hpmm, Pmm.bit_markFrameUsed, hg, Bool.true_or]
  · rw [hpmm]
    rfl

variable (h : Cloning vm₀ d e w F vm) (hstage : Stage vm₀ d e w F)
include h hstage

/-- An entry of the window table is pointed at the last frame or cleared. -/
theorem Cloning.setWindow {pmm : Pmm} {v : Nat} (hi : i < 1024)
    (hv : frameNo (v % 2 ^ 32) ∈ F ∨ present (v % 2 ^ 32) = false)
    (hbits : ∀ g, vm.pmm.bit g = true → pmm.bit g = true)
    (hmax : pmm.maxFrames = vm.pmm.maxFrames) :
    Cloning vm₀ d e w F { vm with pmm := pmm, phys := vm.phys.setWord w i v } := by
  have hstep : vm.Writes { vm with pmm := pmm, phys := vm.phys.setWord w i v } ({e, w} ∪ F) :=
    writes_setWord vm pmm v hi (.inl (.inr rfl)) hbits hmax
  have hother : ∀ g ≠ w, ∀ j < 1024, (vm.phys.setWord w i v).word g j = vm.phys.word g j :=
    fun g hg j hj => Bytes.word_setWord_of_ne hi hj (.inl hg)
  refine ⟨h.window.congr rfl rfl (hother d h.window.ne.symm _ (by decide))
    (hother d h.window.ne.symm _ (by decide)), h.writes.trans hstep, fun j hj hpresent => ?_,
    fun j hj hpresent => ?_, fun j hj habsent hpresent => ?_⟩
  · by_cases hji : j = i
    · subst hji
      rw [Bytes.word_setWord_self] at hpresent ⊢
      refine hv.resolve_right fun habsent => ?_
      rw [habsent] at hpresent
      cases hpresent
    · rw [Bytes.word_setWord_of_ne hi (by omega) (.inr hji)] at hpresent ⊢
      exact h.shown j hj hpresent
  · exact (hother e hstage.clone_ne j (by omega)).trans (h.kept j hj hpresent)
  · rw [hother e hstage.clone_ne j (by omega)] at hpresent ⊢
    exact h.tables j hj habsent hpresent

/-- Other frames that are written are no tables of the clone. -/
theorem Cloning.of_writes (hw : vm.Writes vm' F) : Cloning vm₀ d e w F vm' := by
  refine ⟨h.window.writes hw hstage.directory_notMem, h.writes.trans (hw.mono fun _ hf => .inr hf),
    fun j hj hpresent => ?_, fun j hj hpresent => ?_, fun j hj habsent hpresent => ?_⟩
  · rw [hw.word hstage.window_notMem (by omega)] at hpresent ⊢
    exact h.shown j hj hpresent
  · exact (hw.word hstage.clone_notMem (by omega)).trans (h.kept j hj hpresent)
  · rw [hw.word hstage.clone_notMem (by omega)] at hpresent ⊢
    exact h.tables j hj habsent hpresent

theorem Cloning.pdeAllocate {flags : Nat} (hi : i < 768)
    (habsent : present (vm.phys.word e i) = false)
    (hrun : vm.pdeAllocate (entryAddr (e * pageSize) i) flags = some vm') :
    Cloning vm₀ d e w F vm' := by
  obtain ⟨⟨f, pmm⟩, halloc, rfl⟩ := map_eq_some_iff.mp ((pageAllocate_eq habsent).symm.trans hrun)
  obtain ⟨_, hlt, hclear, hpmm⟩ := Pmm.allocateFrame_eq_some halloc
  rw [h.writes.maxFrames] at hlt
  have hle := hstage.maxFrames_le
  have hbit : ∀ g, vm.pmm.bit g = true → pmm.bit g = true := fun g hg => by
    rw [hpmm, Pmm.bit_markFrameUsed, hg, Bool.true_or]
  have hmax : pmm.maxFrames = vm.pmm.maxFrames := by
    rw [hpmm]
    rfl
  have hstep := writes_setWord (W := {e, w} ∪ F) vm pmm (newEntry (vm.phys.word e i) f flags)
    (show i < 1024 by omega) (.inl (.inl rfl)) hbit hmax
  have hother : ∀ g ≠ e, ∀ j < 1024,
      (vm.phys.setWord e i (newEntry (vm.phys.word e i) f flags)).word g j =
      vm.phys.word g j := fun g hg j hj => Bytes.word_setWord_of_ne (by omega) hj (.inl hg)
  refine ⟨h.window.congr rfl rfl (hother d hstage.directory_ne _ (by decide))
    (hother d hstage.directory_ne _ (by decide)), h.writes.trans hstep, fun j hj hpresent => ?_,
    fun j hj hpresent => ?_, fun j hj hfirst hpresent => ?_⟩
  · rw [hother w hstage.clone_ne.symm j (by omega)] at hpresent ⊢
    exact h.shown j hj hpresent
  · have hkept := h.kept j hj hpresent
    have hji : j ≠ i := by
      rintro rfl
      rw [hkept, hpresent] at habsent
      cases habsent
    exact (Bytes.word_setWord_of_ne (by omega) (by omega) (.inr hji)).trans hkept
  · by_cases hji : j = i
    · subst hji
      rw [Bytes.word_setWord_self, mod_eq_of_lt newEntry_lt,
        frameNo_newEntry (by rw [lastFrame] at hle; omega)]
      refine ⟨eq_false_iff.mpr fun hset => ?_, hlt⟩
      rw [h.writes.bits f hset] at hclear
      cases hclear
    · rw [Bytes.word_setWord_of_ne (by omega) (by omega) (.inr hji)] at hpresent ⊢
      exact h.tables j hj hfirst hpresent

/-- `vmm_map_page` of a page of the window to an address that was masked wrongly. -/
theorem Cloning.mapPage {raw flags : Nat} {ret : Option Nat} (hi : i < 1024)
    (haddr : addr / pageSize = 830 * 1024 + i)
    (hrun : vm.mapPage addr (raw ||| frameMask) flags = some (vm', ret)) :
    Cloning vm₀ d e w F vm' ∧ frameNo (vm'.phys.word w i) = lastFrame := by
  obtain rfl := h.window.mapPage_of_page hi haddr hrun
  have hframe : frameNo (newEntry (vm.phys.word w i) ((raw ||| frameMask) / 2 ^ 12)
      flags % 2 ^ 32) = lastFrame := by
    rw [mod_eq_of_lt newEntry_lt, frameNo_newEntry_mask]
  refine ⟨h.setWindow hstage hi (.inl (hframe ▸ hstage.last_mem)) (fun g hg => ?_) rfl, ?_⟩
  · rw [Pmm.frameSeta, Pmm.bit_frameSet, hg, Bool.true_or]
  · rw [Bytes.word_setWord_self, hframe]

theorem Cloning.unmapPage (hi : i < 1024) (haddr : addr / pageSize = 830 * 1024 + i)
    (hrun : vm.unmapPage addr = some vm') : Cloning vm₀ d e w F vm' := by
  obtain rfl := h.window.unmapPage_of_page hi haddr hrun
  split
  · exact h.setWindow hstage hi (.inr rfl) (fun g hg => hg) rfl
  · exact h

omit hstage in
/-- A byte in one of the first two pages of the window. -/
theorem Cloning.storeByte {value : Nat} (hi : i < 2) (haddr : addr / pageSize = 830 * 1024 + i)
    (hrun : vm.storeByte addr value = some vm') : vm.Writes vm' F := by
  obtain ⟨b, htranslate, hstore⟩ := bind_eq_some_iff.mp hrun
  cases hstore
  obtain ⟨hpresent, hb⟩ := h.window.translate_of_page (by omega) haddr htranslate
  refine ⟨rfl, rfl, fun x hx => Function.update_of_ne ?_ _ _, fun g hg => hg, rfl⟩
  rintro rfl
  have hframe : x / 4096 = frameNo (vm.phys.word w i) := by
    rw [hb, pageSize]
    omega
  exact hx (hframe ▸ h.shown i hi hpresent)

theorem Cloning.storeVirt {off value : Nat} (hoff : off + 3 < 8192)
    (hrun : vm.storeVirt (pageTableMapStart + off) value = some vm') : vm.Writes vm' F := by
  have hfirst : (pageTableMapStart + off) / pageSize = 830 * 1024 + off / 4096 := by
    rw [pageTableMapStart, pageSize]
    omega
  simp only [Vm.storeVirt, bind_eq_bind, bind_eq_some_iff] at hrun
  obtain ⟨vm₁, h₁, vm₂, h₂, vm₃, h₃, h₄⟩ := hrun
  have hw₁ := h.storeByte (by omega) hfirst h₁
  have hc₁ := h.of_writes hstage hw₁
  have hw₂ := hc₁.storeByte (i := (off + 1) / 4096) (by omega) (window_byte (by omega)) h₂
  have hc₂ := hc₁.of_writes hstage hw₂
  have hw₃ := hc₂.storeByte (i := (off + 2) / 4096) (by omega) (window_byte (by omega)) h₃
  have hw₄ := (hc₂.of_writes hstage hw₃).storeByte (i := (off + 3) / 4096) (by omega)
    (window_byte (by omega)) h₄
  exact ((hw₁.trans hw₂).trans hw₃).trans hw₄

theorem Cloning.pageAllocateVirt {off flags : Nat} (hoff : off + 3 < 8192)
    (hrun : vm.pageAllocateVirt (pageTableMapStart + off) flags = some vm') : vm.Writes vm' F := by
  obtain ⟨raw, -, hrest⟩ := bind_eq_some_iff.mp hrun
  by_cases hpresent : present raw = true
  · rw [if_pos hpresent] at hrest
    exact h.storeVirt hstage hoff hrest
  · rw [if_neg hpresent] at hrest
    obtain ⟨⟨f, pmm⟩, halloc, hstore⟩ := bind_eq_some_iff.mp hrest
    have hw := writes_allocateFrame (F := F) halloc
    exact hw.trans ((h.of_writes hstage hw).storeVirt hstage hoff hstore)

/-- A copy to a page of the window that shows the last frame. -/
theorem Cloning.copyPage {src : Nat} (hi : i < 1024)
    (hframe : frameNo (vm.phys.word w i) = lastFrame)
    (hrun : vm.copyPage (pageTableMapStart + i * pageSize) src = some vm') : vm.Writes vm' F := by
  simp only [Vm.copyPage, bind_eq_bind, bind_eq_some_iff] at hrun
  obtain ⟨b, hto, source, -, hret⟩ := hrun
  cases hret
  have haddr : (pageTableMapStart + i * pageSize) / pageSize = 830 * 1024 + i := by
    rw [windowPage, Nat.mul_div_cancel _ (by decide)]
  obtain ⟨-, hb⟩ := h.window.translate_of_page hi haddr hto
  refine ⟨rfl, rfl, fun x hx => if_neg fun hin => hx ?_, fun g hg => hg, rfl⟩
  have hpage : x / 4096 = lastFrame := by
    rw [hb, hframe, windowPage, pageSize] at hin
    omega
  exact hpage ▸ hstage.last_mem

end

section

variable {vm₀ vm vm' : Vm} {d e w pd flags : Nat} {F : Set Nat}

/-- The pages of the window that the pointers to the tables are in. -/
theorem tablePointer_page (hpd : pd < 1024) :
    (pageTableMapStart + pd) / pageSize = 830 * 1024 + 0 := by
  rw [pageTableMapStart, pageSize]
  omega

theorem windowPage_div {i : Nat} : (pageTableMapStart + i * pageSize) / pageSize =
    830 * 1024 + i := by
  rw [windowPage, Nat.mul_div_cancel _ (by decide)]

variable (h : Cloning vm₀ d e w F vm) (hstage : Stage vm₀ d e w F)
include h hstage

theorem Cloning.cloneAreaPage {pt : Nat} (hpd : pd < 768) (hpt : pt < 1024)
    (hrun : vm.cloneAreaPage pd flags pt = some vm') : Cloning vm₀ d e w F vm' := by
  simp only [Vm.cloneAreaPage, bind_eq_bind, bind_eq_some_iff] at hrun
  obtain ⟨raw, -, vm₁, halloc, rawSrc, -, ⟨vm₂, _⟩, hsrc, rawDst, -, ⟨vm₃, _⟩, hdst, vm₄, hcopy,
      vm₅, hunmap, hunmap'⟩ := hrun
  have hc₁ : Cloning vm₀ d e w F vm₁ := by
    by_cases hpresent : present raw = true
    · rw [if_pos hpresent] at halloc
      rw [entryAddr, Nat.add_assoc, Nat.add_assoc] at halloc
      exact h.of_writes hstage (h.pageAllocateVirt hstage (by omega) halloc)
    · rw [if_neg hpresent] at halloc
      exact some.inj halloc ▸ h
  have hc₂ := (hc₁.mapPage hstage (by omega) windowPage_div hsrc).1
  obtain ⟨hc₃, hframe⟩ := hc₂.mapPage hstage (by omega) windowPage_div hdst
  have hc₄ := hc₃.of_writes hstage (hc₃.copyPage hstage (by omega) hframe hcopy)
  have hc₅ := hc₄.unmapPage hstage (by omega) windowPage_div hunmap
  exact hc₅.unmapPage hstage (by omega) windowPage_div hunmap'

theorem Cloning.cloneAreaPages {pts : List Nat} (hpd : pd < 768) (hpts : ∀ pt ∈ pts, pt < 1024)
    (hrun : pts.foldlM (fun vm pt => vm.cloneAreaPage pd flags pt) vm = some vm') :
    Cloning vm₀ d e w F vm' := by
  induction pts generalizing vm with
  | nil => exact some.inj hrun ▸ h
  | cons pt pts ih =>
    rw [foldlM_cons, bind_eq_bind, bind_eq_some_iff] at hrun
    obtain ⟨vm₁, hpage, hrest⟩ := hrun
    obtain ⟨hpt, hpts⟩ := forall_mem_cons.mp hpts
    exact ih (h.cloneAreaPage hstage hpd hpt hpage) hpts hrest

theorem Cloning.cloneAreaTable {pdirSrc pageStart pageEnd next : Nat}
    (hpage : pageStart < 768 * 1024)
    (hrun : vm.cloneAreaTable pdirSrc (e * pageSize) flags pageStart pageEnd = some (next, vm')) :
    Cloning vm₀ d e w F vm' := by
  have hpd : pageStart / 2 ^ 10 % 1024 < 768 := by omega
  generalize hslot : pageStart / 2 ^ 10 % 1024 = pd at *
  simp only [Vm.cloneAreaTable, hslot, bind_eq_bind, bind_eq_some_iff] at hrun
  obtain ⟨vm₁, htable, ⟨vm₂, _⟩, hsrc, ⟨vm₃, _⟩, hdst, vm₄, hpages, vm₅, hunmap, vm₆, hunmap',
      hret⟩ := hrun
  cases hret
  have hload : vm.phys.load32 (entryAddr (e * pageSize) pd) = vm.phys.word e pd := rfl
  rw [hload] at htable
  have hc₁ : Cloning vm₀ d e w F vm₁ := by
    by_cases hpresent : present (vm.phys.word e pd) = true
    · rw [if_pos hpresent] at htable
      exact some.inj htable ▸ h
    · rw [if_neg hpresent] at htable
      exact h.pdeAllocate hstage hpd (eq_false_iff.mpr hpresent) htable
  have hsecond : (pageTableMapStart + pd + 1) / pageSize = 830 * 1024 + 0 :=
    tablePointer_page (show pd + 1 < 1024 by omega)
  have hc₂ := (hc₁.mapPage hstage (by decide) (tablePointer_page (by omega)) hsrc).1
  have hc₃ := (hc₂.mapPage hstage (by decide) hsecond hdst).1
  have hpts : ∀ pt ∈ List.range' (pageStart % 1024)
      (min (1024 - pageStart % 1024) (pageEnd - pageStart)), pt < 1024 := by
    intro pt hpt
    rw [mem_range'_1] at hpt
    omega
  have hc₄ := hc₃.cloneAreaPages hstage hpd hpts hpages
  have hc₅ := hc₄.unmapPage hstage (by decide) (tablePointer_page (by omega)) hunmap
  exact hc₅.unmapPage hstage (by decide) hsecond hunmap'

theorem Cloning.cloneVmArea {mm mm' : MmStruct} {pdirSrc : Nat} {area : VmArea}
    (hpgd : mm.pgd = e * pageSize) (hend : area.vmEnd ≤ userEnd)
    (hrun : vm.cloneVmArea mm pdirSrc area = some (vm', mm')) :
    Cloning vm₀ d e w F vm' ∧ mm'.pgd = e * pageSize := by
  rw [userEnd] at hend
  obtain ⟨⟨last, vm₁⟩, hloop, hret⟩ := bind_eq_some_iff.mp hrun
  cases hret
  refine ⟨?_, hpgd⟩
  refine (whileLoop_invariant (fun s : Nat × Vm => Cloning vm₀ d e w F s.2) ?_ hloop h).1
  intro s t hs hcond hbody
  have hlt : s.1 < area.vmEnd / 2 ^ 12 := of_decide_eq_true hcond
  split at hbody
  · rw [hpgd] at hbody
    exact hs.cloneAreaTable hstage (by omega) hbody
  · exact some.inj hbody ▸ hs

theorem Cloning.cloneVmAreas {mm mm' : MmStruct} {pdirSrc : Nat} {areas : List VmArea}
    (hpgd : mm.pgd = e * pageSize) (hend : ∀ area ∈ areas, area.vmEnd ≤ userEnd)
    (hrun : areas.foldlM (fun s area => s.1.cloneVmArea s.2 pdirSrc area) (vm, mm) =
      some (vm', mm')) :
    Cloning vm₀ d e w F vm' := by
  induction areas generalizing vm mm with
  | nil =>
    cases hrun
    exact h
  | cons area areas ih =>
    rw [foldlM_cons, bind_eq_bind, bind_eq_some_iff] at hrun
    obtain ⟨⟨vm₁, mm₁⟩, harea, hrest⟩ := hrun
    obtain ⟨hfirst, hareas⟩ := forall_mem_cons.mp hend
    obtain ⟨hcloning, hpgd₁⟩ := h.cloneVmArea hstage hpgd hfirst harea
    exact ih hcloning hpgd₁ hareas hrest

end

/-! ## Isolation -/

/-- What a fork should leave, from `vm` to `vm'`, for the source directory `e` and the
directory `c` of the clone: every present page of a source area has a copy in a frame
of its own, and the source is as it was. -/
structure Isolated (vm vm' : Vm) (e c : Nat) (areas : List VmArea) : Prop where
  copied : ∀ area ∈ areas, ∀ p, area.Covers p → ∀ raw, mapping vm.phys e p = some raw →
    ∃ raw', mapping vm'.phys c p = some raw' ∧
      (∀ q < 768 * 1024, ∀ r, mapping vm'.phys e q = some r → frameNo r ≠ frameNo raw') ∧
      (∀ q < 768 * 1024, q ≠ p → ∀ r, mapping vm'.phys c q = some r → frameNo r ≠ frameNo raw') ∧
      ∀ x < 4096, vm'.phys (frameNo raw' * 4096 + x) = vm.phys (frameNo raw * 4096 + x)
  source : ∀ q < 768 * 1024, mapping vm'.phys e q = mapping vm.phys e q
  contents : ∀ area ∈ areas, ∀ p, area.Covers p → ∀ raw, mapping vm.phys e p = some raw →
    ∀ x < 4096, vm'.phys (frameNo raw * 4096 + x) = vm.phys (frameNo raw * 4096 + x)

/-- The state before a clone: the source directory `e` and the block of the heap for the
directory `c` of the clone. No table of the source is in a frame that cloning writes
to, and free frames are clean. -/
structure CloneReady (vm : Vm) (d e c w addr : Nat) (F : Set Nat) : Prop where
  window : vm.Window d w
  mapped : vm.translate addr = some (c * pageSize)
  stage : vm.Stage d c w F
  clean : ∀ g < vm.pmm.maxFrames, vm.pmm.bit g = false → ∀ j < 1024,
    present (vm.phys.word g j) = false
  clone_used : vm.pmm.bit c = true
  window_used : vm.pmm.bit w = true
  shown_used : ∀ g ∈ F, g ≠ lastFrame → vm.pmm.bit g = true
  source_notMem : e ∉ {c, w} ∪ F
  table_notMem : ∀ i < 768, present (vm.phys.word e i) = true →
    frameNo (vm.phys.word e i) ∉ ({c, w} ∪ F : Set Nat)

/-- In the slots of the areas the image has no table of the kernel directory `k`, or has
it like every other image. -/
def SharesKernel (vm : Vm) (k e : Nat) (areas : List VmArea) : Prop :=
  ∀ area ∈ areas, ∀ p, area.Covers p → present (vm.phys.word k (p / 1024)) = true →
    vm.phys.word e (p / 1024) = vm.phys.word k (p / 1024)

variable {vm vm' : Vm} {k d e c w addr : Nat} {F : Set Nat} {mm mm' : MmStruct}

theorem Cloning.word_of_copy {g j : Nat}
    (h : Cloning { vm with phys := vm.phys.copyFrame c k } d c w F vm')
    (hg : g ∉ ({c, w} ∪ F : Set Nat)) (hj : j < 1024) : vm'.phys.word g j = vm.phys.word g j :=
  (h.writes.word hg hj).trans
    (Bytes.word_copyFrame_of_ne hj fun heq => hg (heq ▸ .inl (.inl rfl)))

section

variable (h : CloneReady vm d e c w addr F)
include h

/-- The clone starts with a copy of the kernel directory. -/
theorem CloneReady.start :
    Stage { vm with phys := vm.phys.copyFrame c k } d c w F ∧
      Window { vm with phys := vm.phys.copyFrame c k } d w := by
  have hother : ∀ g ≠ c, ∀ j < 1024, (vm.phys.copyFrame c k).word g j = vm.phys.word g j :=
    fun g hg j hj => Bytes.word_copyFrame_of_ne hj hg
  have hshown : ∀ i < 2, present ((vm.phys.copyFrame c k).word w i) = true →
      frameNo ((vm.phys.copyFrame c k).word w i) ∈ F := by
    intro i hi
    rw [hother w h.stage.clone_ne.symm i (by omega)]
    exact h.stage.shown i hi
  exact ⟨{ h.stage with shown := hshown }, h.window.congr rfl rfl
    (hother d h.stage.directory_ne _ (by decide)) (hother d h.stage.directory_ne _ (by decide))⟩

theorem CloneReady.cloning (hend : ∀ area ∈ mm.mmapList, area.vmEnd ≤ userEnd)
    (hrun : vm.cloneProcessImage (k * pageSize) addr mm = some (vm', mm')) :
    Cloning { vm with phys := vm.phys.copyFrame c k } d c w F vm' := by
  obtain ⟨hstage, hwindow⟩ := h.start (k := k)
  obtain ⟨pgd, hpgd, hfold⟩ := bind_eq_some_iff.mp hrun
  cases h.mapped.symm.trans hpgd
  exact (hstage.cloning hwindow).cloneVmAreas hstage rfl hend hfold

variable (hcloning : Cloning { vm with phys := vm.phys.copyFrame c k } d c w F vm')
include hcloning

/-- The clone has no page in a slot for which the kernel has no table. -/
theorem CloneReady.unmapped {p : Nat} (hp : p < 768 * 1024)
    (hkernel : present (vm.phys.word k (p / 1024)) = false) : mapping vm'.phys c p = none := by
  refine mapping_eq_none_iff.mpr fun hpresent => ?_
  have hfirst : present ((vm.phys.copyFrame c k).word c (p / 1024)) = false := by
    rw [Bytes.word_copyFrame_self (by omega), hkernel]
  obtain ⟨hfree, hlt⟩ := hcloning.tables _ (by omega) hfirst hpresent
  rw [leaf]
  generalize frameNo (vm'.phys.word c (p / 1024)) = t at *
  have hfree : vm.pmm.bit t = false := hfree
  have hlt : t < vm.pmm.maxFrames := hlt
  have hle := h.stage.maxFrames_le
  have hne : t ∉ ({c, w} ∪ F : Set Nat) := by
    rintro ((rfl | rfl) | hmem)
    · exact eq_false_iff.mp hfree h.clone_used
    · exact eq_false_iff.mp hfree h.window_used
    · exact eq_false_iff.mp hfree (h.shown_used t hmem (by omega))
  have hmod : p % 1024 < 1024 := mod_lt p (by decide)
  rw [hcloning.word_of_copy hne hmod]
  exact h.clean t hlt hfree _ hmod

theorem CloneReady.source {q : Nat} (hq : q < 768 * 1024) :
    mapping vm'.phys e q = mapping vm.phys e q := by
  refine mapping_congr (hcloning.word_of_copy h.source_notMem (by omega)) fun hpresent => ?_
  exact hcloning.word_of_copy (h.table_notMem _ (by omega) hpresent) (mod_lt q (by decide))

/-- A table of the kernel that the source has too maps the page to the same frame in
both. -/
theorem CloneReady.mapping_kernel {p : Nat} (hp : p < 768 * 1024)
    (hkernel : present (vm.phys.word k (p / 1024)) = true)
    (hshared : vm.phys.word e (p / 1024) = vm.phys.word k (p / 1024)) :
    mapping vm'.phys c p = mapping vm'.phys e p := by
  have hfirst : (vm.phys.copyFrame c k).word c (p / 1024) = vm.phys.word k (p / 1024) :=
    Bytes.word_copyFrame_self (by omega)
  have hclone : vm'.phys.word c (p / 1024) = vm'.phys.word e (p / 1024) := by
    rw [hcloning.word_of_copy h.source_notMem (by omega), hshared, ← hfirst]
    exact hcloning.kept _ (by omega) (by rw [hfirst]; exact hkernel)
  rw [mapping, mapping, leaf, leaf, hclone]

end

/-- A clone that returns is isolated from its source exactly when no page of a source
area is present. -/
theorem clone_isolated_iff (h : CloneReady vm d e c w addr F)
    (hend : ∀ area ∈ mm.mmapList, area.vmEnd ≤ userEnd) (hshared : SharesKernel vm k e mm.mmapList)
    (hrun : vm.cloneProcessImage (k * pageSize) addr mm = some (vm', mm')) :
    Isolated vm vm' e c mm.mmapList ↔
      ∀ area ∈ mm.mmapList, ∀ p, area.Covers p → mapping vm.phys e p = none := by
  have hcloning := h.cloning hend hrun
  constructor
  · intro hisolated area harea p hp
    have hlt : p < 768 * 1024 := by
      have huser := hend area harea
      have hlast := hp.2
      rw [userEnd] at huser
      omega
    by_contra hmapped
    obtain ⟨raw, hraw⟩ := ne_none_iff_exists'.mp hmapped
    obtain ⟨raw', hraw', hown, -⟩ := hisolated.copied area harea p hp raw hraw
    cases hkernel : present (vm.phys.word k (p / 1024)) with
    | false =>
      rw [h.unmapped hcloning hlt hkernel] at hraw'
      cases hraw'
    | true =>
      -- the frame of the copy is the one that the source has
      rw [h.mapping_kernel hcloning hlt hkernel (hshared area harea p hp hkernel)] at hraw'
      exact hown p hlt raw' hraw' rfl
  · intro hnone
    have habsurd : ∀ area ∈ mm.mmapList, ∀ p, area.Covers p → ∀ raw,
        mapping vm.phys e p ≠ some raw := by
      intro area harea p hp raw hraw
      rw [hnone area harea p hp] at hraw
      cases hraw
    exact ⟨fun area harea p hp raw hraw => absurd hraw (habsurd area harea p hp raw),
      fun q hq => h.source hcloning hq,
      fun area harea p hp raw hraw => absurd hraw (habsurd area harea p hp raw)⟩

/-- The state of `bareKernel` with a table of the boot code in frame seven, which is in
slot zero of every directory, and the directory of an image in frame four. Its table
for slot two is in frame eight and is empty. -/
def reservedKernel : Vm :=
  { bareKernel.vm with
    phys := (((bareKernel.vm.phys.setWord 1 0 0x7003).setWord 4 0 0x7003).setWord 7 0 0x3).setWord
      4 2 0x8003
    pmm := ⟨fun i => if i = 0 then 511#32 else 0, 64, 9, 0⟩ }

/-- The image of frame four, with an area of three pages that are not present. -/
def reservedImage : MmStruct := ⟨0x4000, [⟨0x800000, 0x803000, 7⟩], 1, 0x3000, 0⟩

/-- The frames four and up hold three words. -/
theorem word_reservedKernel {g i : Nat} (hg : 4 ≤ g) (hi : i < 1024) (hboot : (g, i) ≠ (4, 0))
    (htable : (g, i) ≠ (7, 0)) (hown : (g, i) ≠ (4, 2)) : reservedKernel.phys.word g i = 0 := by
  have hone : ∀ j, (g, i) ≠ (1, j) := fun j heq => by
    have hfst := congrArg Prod.fst heq
    omega
  refine (Bytes.word_setWord_of_ne (by decide) hi (pair_ne hown)).trans ?_
  refine (Bytes.word_setWord_of_ne (by decide) hi (pair_ne htable)).trans ?_
  refine (Bytes.word_setWord_of_ne (by decide) hi (pair_ne hboot)).trans ?_
  refine (Bytes.word_setWord_of_ne (by decide) hi (pair_ne (hone 0))).trans ?_
  exact word_bareKernel hi (hone _) (hone _) (hone _) (by omega) (by omega)

/-- The image has the table of the boot code and one of its own. -/
theorem slot_reservedKernel {i : Nat} (hi : i < 1024)
    (hpresent : present (reservedKernel.phys.word 4 i) = true) :
    frameNo (reservedKernel.phys.word 4 i) = 7 ∨ frameNo (reservedKernel.phys.word 4 i) = 8 := by
  by_cases hzero : i = 0
  · subst hzero
    exact .inl (by decide)
  by_cases htwo : i = 2
  · subst htwo
    exact .inr (by decide)
  rw [word_reservedKernel (Nat.le_refl 4) hi (by simp [hzero]) (by simp) (by simp [htwo])]
    at hpresent
  cases hpresent

theorem used_reservedKernel : ∀ g < 9, reservedKernel.pmm.bit g = true := by decide

theorem cloneReady_reservedKernel :
    CloneReady reservedKernel 1 4 5 2 0xD0001000 {lastFrame, 6} := by
  have hself : reservedKernel.phys.word 1 1023 = 0x1003 := by decide
  have htable : reservedKernel.phys.word 1 830 = 0x2003 := by decide
  have hshown : reservedKernel.phys.word 2 0 = 0 ∧ reservedKernel.phys.word 2 1 = 0x6003 := by
    decide
  have hrecursive : reservedKernel.Recursive 1 := ⟨rfl, rfl, by rw [hself]; rfl, by rw [hself]; rfl⟩
  refine ⟨⟨hrecursive, by rw [htable]; rfl, by rw [htable]; rfl, by rw [htable]; rfl, by decide⟩,
    by decide +kernel, ?_, ?_, used_reservedKernel 5 (by decide), used_reservedKernel 2 (by decide),
    ?_, ?_, ?_⟩
  · refine ⟨.inl rfl, by decide, by simp [lastFrame], by simp [lastFrame], by decide,
      by simp [lastFrame], fun i hi hpresent => ?_, by decide⟩
    obtain rfl | rfl : i = 0 ∨ i = 1 := by omega
    · rw [hshown.1] at hpresent
      cases hpresent
    · rw [hshown.2]
      exact .inr rfl
  · intro g _ hfree i hi
    have hg : 9 ≤ g :=
      Nat.le_of_not_lt fun hlt => eq_false_iff.mp hfree (used_reservedKernel g hlt)
    rw [word_reservedKernel (by omega) hi (by simp; omega) (by simp; omega) (by simp; omega)]
    rfl
  · rintro g (rfl | rfl) hne
    · exact absurd rfl hne
    · exact used_reservedKernel 6 (by decide)
  · simp [lastFrame]
  · intro i hi hpresent
    obtain hframe | hframe := slot_reservedKernel (by omega) hpresent <;> rw [hframe] <;>
      simp [lastFrame]

/-- The pages of the area are absent, so there is nothing to copy. -/
theorem clone_isolated_iff_reserved : ∃ vm' mm',
    reservedKernel.cloneProcessImage 0x1000 0xD0001000 reservedImage = some (vm', mm') ∧
      Isolated reservedKernel vm' 4 5 reservedImage.mmapList := by
  have hcompute : ((({ reservedKernel with
      phys := reservedKernel.phys.blit 0x5000 reservedKernel.phys 0x1000 pageSize } :
        Vm).cloneAreaTable 0x4000 0x5000 7 0x800 0x803).map fun u => u.1) = some 0x803 := by
    decide +kernel
  obtain ⟨⟨last, vm'⟩, htable, rfl⟩ := map_eq_some_iff.mp hcompute
  have hlist : reservedImage.mmapList = [⟨0x800000, 0x803000, 7⟩] := rfl
  obtain ⟨mm', hrun, -⟩ := cloneProcessImage_of_table hlist cloneReady_reservedKernel.mapped
    (by decide) (by decide +kernel) htable
  have hslot : ∀ area ∈ reservedImage.mmapList, ∀ p, area.Covers p → p / 1024 = 2 := by
    rw [hlist, forall_mem_singleton]
    rintro p ⟨hlo, hhi⟩
    dsimp only at hlo hhi
    omega
  refine ⟨vm', mm', hrun, (clone_isolated_iff cloneReady_reservedKernel (k := 1)
    (forall_mem_singleton.mpr (by decide)) (fun area harea p hp hkernel => ?_) hrun).mpr
      fun area harea p hp => mapping_eq_none_iff.mpr fun _ => ?_⟩
  · rw [hslot area harea p hp] at hkernel
    exact absurd hkernel (by decide)
  · have htwo : frameNo (reservedKernel.phys.word 4 2) = 8 := by decide
    rw [leaf, hslot area harea p hp, htwo,
      word_reservedKernel (by decide) (mod_lt p (by decide)) (by simp) (by simp) (by simp)]
    rfl

/-- A new image has its stack page present. Its clone has not. -/
theorem clone_loses_stack : ∃ vm mm vm' mm' raw,
    bareKernel.vm.createBlankProcessImage 0x1000 0xD0000000 0x1000 = some (vm, mm) ∧
      vm.cloneProcessImage 0x1000 0xD0001000 mm = some (vm', mm') ∧ mm.pgd = 0x4000 ∧
        mm'.pgd = 0x5000 ∧
      mapping vm.phys 4 0xBFFFF = some raw ∧ mapping vm'.phys 5 0xBFFFF = none ∧
      ¬Isolated vm vm' 4 5 mm.mmapList := by
  obtain ⟨vm, mm, vm', mm', hcreate, hrun, hpgd, hpgd', hlist, -, hsource, hnone⟩ :=
    bareKernel_clone
  obtain ⟨raw, hraw⟩ := isSome_iff_exists.mp hsource
  refine ⟨vm, mm, vm', mm', raw, hcreate, hrun, hpgd, hpgd', hraw, hnone, fun hisolated => ?_⟩
  rw [hlist] at hisolated
  obtain ⟨raw', hraw', -⟩ := hisolated.copied _ mem_cons_self 0xBFFFF
    ⟨by decide, by decide⟩ raw hraw
  rw [hnone] at hraw'
  cases hraw'

end Vm

end Hos
