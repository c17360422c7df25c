import Hos.Memory.Pmm.Init
import Hos.Memory.Vmm.Basic

/-!
# The counter of used frames

`used_frames` is meant to be the number of set bits below `max_frames`. It is
raised and lowered next to a bit in `pmm_mark_frame_used` and `pmm_free_frame`,
but `vmm_page_map_addr` sets a bit without it, a frame is given back without
looking at its bit, and the counting loop of `pmm_init` leaves out the last word
when it is not a whole one. The counter is right along every run that stays away
from these three.
-/

namespace Hos

open Option

namespace Pmm

/-- The counter agrees with the bitmap. -/
structure Counted (p : Pmm) : Prop where
  maxFrames : p.maxFrames ≤ 2 ^ 20
  usedFrames : p.usedFrames = setCount p.bit p.maxFrames

section

variable {p p' : Pmm} {f n s : Nat}

section

variable (h : p.Counted)
include h

theorem Counted.lt : p.usedFrames < 2 ^ 32 := by
  have hle : setCount p.bit p.maxFrames ≤ p.maxFrames := setCount_le
  have hmax := h.maxFrames
  rw [h.usedFrames]
  omega

theorem Counted.markFrameUsed (hf : f < p.maxFrames) (hclear : p.bit f = false) :
    (p.markFrameUsed f).Counted := by
  refine ⟨h.maxFrames, ?_⟩
  have hcount : setCount (p.markFrameUsed f).bit p.maxFrames = setCount p.bit p.maxFrames + 1 :=
    setCount_set hf hclear fun g _ => bit_markFrameUsed
  have hle : setCount (p.markFrameUsed f).bit p.maxFrames ≤ p.maxFrames := setCount_le
  have hmax := h.maxFrames
  rw [usedFrames_markFrameUsed, maxFrames_markFrameUsed, hcount, h.usedFrames, u32_of_lt (by omega)]

theorem Counted.allocateFrame (hrun : p.allocateFrame = some (f, p')) : p'.Counted := by
  obtain ⟨_, hlt, hclear, rfl⟩ := allocateFrame_eq_some hrun
  exact h.markFrameUsed hlt hclear

theorem Counted.markFrames (hfit : s + n ≤ p.maxFrames)
    (hclear : ∀ g, s ≤ g → g < s + n → p.bit g = false) :
    ((List.range n).foldl (fun p i => p.markFrameUsed (s + i)) p).Counted := by
  induction n with
  | zero => exact h
  | succ n ih =>
    rw [List.range_succ, List.foldl_append, List.foldl_cons, List.foldl_nil]
    have hprefix := ih (by omega) fun g hlow hhigh => hclear g hlow (by omega)
    apply hprefix.markFrameUsed
    · rw [maxFrames_markFrames]
      omega
    · rw [bit_markFrames, hclear (s + n) (by omega) (by omega), Bool.false_or,
        decide_eq_false (by omega)]

theorem Counted.allocateFrames (hrun : p.allocateFrames n = some (s, p')) : p'.Counted := by
  by_cases hn : n = 0
  · rw [Pmm.allocateFrames, if_pos hn] at hrun
    cases hrun
    exact h
  · obtain ⟨_, hfit, hclear, rfl⟩ := allocateFrames_eq_some hn hrun
    exact h.markFrames hfit hclear

end

/-- A frame that has a bit, and whose bit is set. -/
def InUse (p : Pmm) (frame : Nat) : Prop := frame < p.maxFrames ∧ p.bit frame = true

theorem Counted.freeFrame {addr : Nat} (h : p.Counted) (hf : p.InUse (addr / 2 ^ frameShift)) :
    (p.freeFrame addr).Counted := by
  refine ⟨h.maxFrames, ?_⟩
  have hcount : setCount (p.freeFrame addr).bit p.maxFrames + 1 = setCount p.bit p.maxFrames :=
    setCount_clear hf.1 hf.2 fun g _ => bit_freeFrame
  have hlt := h.lt
  have hused : (p.freeFrame addr).usedFrames = sub32 p.usedFrames 1 := rfl
  have hmax : (p.freeFrame addr).maxFrames = p.maxFrames := rfl
  rw [hused, hmax, sub32_of_le hlt (by rw [h.usedFrames]; omega), h.usedFrames, ← hcount,
    Nat.add_sub_cancel]

/-- Marking a frame that is marked already, or that has no bit below the bound,
changes no count. -/
theorem Counted.frameSet (h : p.Counted) (hf : p.bit f = true ∨ p.maxFrames ≤ f) :
    (p.frameSet f).Counted := by
  refine ⟨h.maxFrames, ?_⟩
  rw [usedFrames_frameSet, maxFrames_frameSet, h.usedFrames]
  apply Eq.symm
  apply setCount_congr
  intro g hg
  rw [bit_frameSet]
  rcases hf with hset | hout
  · by_cases hgf : g = f
    · rw [hgf, hset, Bool.true_or]
    · rw [beq_false_of_ne hgf, Bool.or_false]
  · rw [beq_false_of_ne (by omega), Bool.or_false]

/-- What a sequence of allocations keeps. -/
theorem Allocates.counted (hrun : p.Allocates p') (h : p.Counted) : p'.Counted := by
  induction hrun with
  | refl => exact h
  | tail _ hstep ih =>
    obtain ⟨f, hf⟩ := hstep
    exact ih.allocateFrame hf

theorem Allocates.maxFrames (hrun : p.Allocates p') : p'.maxFrames = p.maxFrames := by
  induction hrun with
  | refl => rfl
  | tail _ hstep ih =>
    obtain ⟨f, hf⟩ := hstep
    obtain ⟨_, _, _, rfl⟩ := allocateFrame_eq_some hf
    exact ih

theorem Allocates.bit_of_bit (hrun : p.Allocates p') (hset : p.bit f = true) : p'.bit f = true := by
  induction hrun with
  | refl => exact hset
  | tail _ hstep ih =>
    obtain ⟨g, hg⟩ := hstep
    obtain ⟨_, _, _, rfl⟩ := allocateFrame_eq_some hg
    rw [bit_markFrameUsed, ih, Bool.true_or]

end

variable {boot : BootInfo} {entries : List MmapEntry} {memory : Nat → BitVec 32}

/-- The allocator before `pmm_init`, with whatever the memory of the bitmap holds. -/
def unset (memory : Nat → BitVec 32) : Pmm := ⟨memory, 0, 0, 0⟩

/-- The last frames, which do not fill a word of the bitmap, are all free. -/
def TailFree (boot : BootInfo) (entries : List MmapEntry) : Prop :=
  ∀ f, boot.maxFrames / 32 * 32 ≤ f → f < boot.maxFrames → Released entries f ∧ ¬Reserved boot f

theorem init_counters :
    ((unset memory).init boot entries).maxFrames = boot.maxFrames ∧
      ((unset memory).init boot entries).usedFrames =
        setCount ((unset memory).init boot entries).bit (boot.maxFrames / 32 * 32) := by
  have hcounters : ((((unset memory).markAllUsed boot).initRegions entries).deinitRegions
      boot).counters = (boot.maxFrames, 0) := by
    rw [counters_deinitRegions, counters_initRegions]
    rfl
  rw [init]
  generalize (((unset memory).markAllUsed boot).initRegions entries).deinitRegions boot = p
    at hcounters
  obtain ⟨hmax, hused⟩ := Prod.mk.inj hcounters
  have hle : setCount p.bit (boot.maxFrames / 32 * 32) ≤ boot.maxFrames / 32 * 32 := setCount_le
  have hframes := boot.maxFrames_le
  have hcount := countUsed_eq (p := p) (by rw [hused]; decide)
  rw [hused, hmax, Nat.zero_add, u32_of_lt (by omega)] at hcount
  constructor
  · rw [hcount]
  · have hbits : p.countUsed.bit = p.bit := funext fun f => bit_countUsed
    rw [hbits, hcount]

/-- After `pmm_init` the counter is right exactly when no frame of the last word
is in use. -/
theorem init_counted_iff : ((unset memory).init boot entries).Counted ↔ TailFree boot entries := by
  obtain ⟨hmax, hused⟩ := @init_counters boot entries memory
  obtain ⟨tail, htail⟩ := Nat.exists_eq_add_of_le (Nat.div_mul_le_self boot.maxFrames 32)
  have hsum : setCount ((unset memory).init boot entries).bit boot.maxFrames =
      ((unset memory).init boot entries).usedFrames +
        setCount (fun j => ((unset memory).init boot entries).bit (boot.maxFrames / 32 * 32 + j))
          tail := by
    rw [hused, ← setCount_add, ← htail]
  constructor
  · intro h f hlow hhigh
    rw [← bit_init (p := unset memory) hhigh]
    have hzero := h.usedFrames
    rw [hmax, hsum, left_eq_add, setCount_eq_zero_iff] at hzero
    have hf := hzero (f - boot.maxFrames / 32 * 32) (by omega)
    rwa [Nat.add_sub_of_le hlow] at hf
  · intro h
    refine ⟨hmax ▸ boot.maxFrames_le, ?_⟩
    rw [hmax, hsum, left_eq_add, setCount_eq_zero_iff]
    intro j hj
    exact (bit_init (by omega)).mpr (h _ (Nat.le_add_right _ _) (by omega))

end Pmm

namespace Vm

/-- The operations of a run after `pmm_init`. -/
inductive Op where
  | allocateFrame
  | allocateFrames (n : Nat)
  | freeFrame (frameAddr : Nat)
  | createPage (virtAddr flags : Nat)
  | mapPage (virtAddr physAddr flags : Nat)
  | freePage (virtAddr : Nat)

/-- The state after an operation that returns. -/
def Op.exec : Op → Vm → Option Vm
  | allocateFrame, vm => do return { vm with pmm := (← vm.pmm.allocateFrame).2 }
  | allocateFrames n, vm => do return { vm with pmm := (← vm.pmm.allocateFrames n).2 }
  | freeFrame frameAddr, vm => some { vm with pmm := vm.pmm.freeFrame frameAddr }
  | createPage virtAddr flags, vm => do return (← vm.createPage virtAddr flags).1
  | mapPage virtAddr physAddr flags, vm => do return (← vm.mapPage virtAddr physAddr flags).1
  | freePage virtAddr, vm => vm.freePage virtAddr

/-- When the counter keeps up with an operation: a frame is given back only when
it is in use, and a page is mapped only to a frame that is marked already or is
no frame of the memory. -/
def Op.Tracked : Op → Vm → Prop
  | freeFrame frameAddr, vm => vm.pmm.InUse (frameAddr / 2 ^ Pmm.frameShift)
  | mapPage _ physAddr _, vm =>
    vm.pmm.bit (physAddr / 2 ^ Pmm.frameShift) = true ∨
      vm.pmm.maxFrames ≤ physAddr / 2 ^ Pmm.frameShift
  | freePage virtAddr, vm => ∀ pte, vm.mappedEntry virtAddr = some (some pte) →
      vm.pmm.InUse (vm.phys.load32 pte / 2 ^ Pmm.frameShift)
  | _, _ => True

/-- The runs all of whose operations return and are tracked. -/
inductive TrackedRun : Vm → Vm → Prop where
  | refl (vm : Vm) : TrackedRun vm vm
  | step {vm₀ vm vm' : Vm} (op : Op) : TrackedRun vm₀ vm → op.Tracked vm → op.exec vm = some vm' →
      TrackedRun vm₀ vm'

section

variable {vm vm' : Vm} {op : Op}

theorem Op.counted (h : vm.pmm.Counted) (htracked : op.Tracked vm) (hrun : op.exec vm = some vm') :
    vm'.pmm.Counted := by
  cases op with
  | allocateFrame =>
    simp only [exec, bind_eq_bind, bind_eq_some_iff, pure_def, some.injEq] at hrun
    obtain ⟨⟨f, pmm⟩, hrun, rfl⟩ := hrun
    exact h.allocateFrame hrun
  | allocateFrames n =>
    simp only [exec, bind_eq_bind, bind_eq_some_iff, pure_def, some.injEq] at hrun
    obtain ⟨⟨s, pmm⟩, hrun, rfl⟩ := hrun
    exact h.allocateFrames hrun
  | freeFrame frameAddr =>
    cases hrun
    exact h.freeFrame htracked
  | createPage virtAddr flags =>
    simp only [exec, bind_eq_bind, bind_eq_some_iff, pure_def, some.injEq] at hrun
    obtain ⟨⟨vm₁, ret⟩, hrun, rfl⟩ := hrun
    exact (createPage_allocates hrun).counted h
  | mapPage virtAddr physAddr flags =>
    simp only [exec, bind_eq_bind, bind_eq_some_iff, pure_def, some.injEq] at hrun
    obtain ⟨⟨vm₁, ret⟩, hrun, rfl⟩ := hrun
    obtain ⟨pmm, halloc, hpmm⟩ := mapPage_allocates hrun
    -- The table may have been allocated first; it leaves marked frames marked.
    have hcounted := halloc.counted h
    rcases hpmm with hsame | hmarked
    · rwa [hsame]
    · rw [hmarked]
      apply hcounted.frameSet
      rw [halloc.maxFrames]
      exact htracked.imp_left halloc.bit_of_bit
  | freePage virtAddr =>
    rcases freePage_pmm hrun with hsame | ⟨pte, hentry, hfreed⟩
    · rwa [hsame]
    · rw [hfreed]
      exact h.freeFrame (htracked pte hentry)

theorem TrackedRun.counted (hrun : TrackedRun vm vm') (h : vm.pmm.Counted) : vm'.pmm.Counted := by
  induction hrun with
  | refl => exact h
  | step op _ htracked hstep ih => exact op.counted ih htracked hstep

end

open Pmm

/-- Frame accounting: the counter is the number of set bits in every tracked run
from a memory map whose last, incomplete word has only free frames. -/
theorem usedFrames_eq_setCount {boot : BootInfo} {entries : List MmapEntry}
    {memory : Nat → BitVec 32} {vm vm' : Vm} (hinit : vm.pmm = (unset memory).init boot entries)
    (htail : TailFree boot entries) (hrun : TrackedRun vm vm') :
    vm'.pmm.usedFrames = setCount vm'.pmm.bit vm'.pmm.maxFrames :=
  (hrun.counted (hinit ▸ init_counted_iff.mpr htail)).usedFrames

/-- Available memory that ends inside a page, in an incomplete word. -/
def raggedMap : List MmapEntry :=
  [{ addr := 0, len := 0x9FC00, type := 1 }, { addr := 0x100000, len := 0x7EF1800, type := 1 }]

/-- The boot information for that memory map. -/
def raggedBoot : BootInfo := { plainBoot with highestAddress := 0x7FF17FF }

/-- The last frame of the memory is in use and is not counted. -/
theorem usedFrames_ne_of_ragged :
    ((unset fun _ => 0).init raggedBoot raggedMap).usedFrames ≠
      setCount ((unset fun _ => 0).init raggedBoot raggedMap).bit
        ((unset fun _ => 0).init raggedBoot raggedMap).maxFrames := by
  intro hused
  have hmax : ((unset fun _ => 0).init raggedBoot raggedMap).maxFrames ≤ 2 ^ 20 := by
    rw [init_counters.1]
    exact raggedBoot.maxFrames_le
  have htail := init_counted_iff.mp ⟨hmax, hused⟩
  have hlast : ¬Released raggedMap 0x7FF1 := by decide
  exact hlast (htail 0x7FF1 (by decide) (by decide)).1

/-- Giving back the first frame of the kernel on a machine with 128 MiB. -/
theorem usedFrames_eq_setCount_plain :
    ∃ vm vm' : Vm, vm.pmm = (unset fun _ => 0).init plainBoot plainMap ∧
      (Op.freeFrame (0x100 * 2 ^ frameShift)).exec vm = some vm' ∧
      vm'.pmm.usedFrames = setCount vm'.pmm.bit vm'.pmm.maxFrames := by
  have htail : TailFree plainBoot plainMap := by
    intro f hlow hhigh
    have hmax : plainBoot.maxFrames = 0x7FE0 := by decide
    omega
  have hinUse : ((unset fun _ => 0).init plainBoot plainMap).InUse 0x100 := by
    constructor
    · rw [init_counters.1]
      decide
    · apply Bool.eq_true_of_not_eq_false
      rw [bit_init (by decide)]
      decide
  have htracked : ∀ (vm : Vm) (f : Nat), vm.pmm.InUse f →
      (Op.freeFrame (f * 2 ^ frameShift)).Tracked vm := by
    intro vm f hf
    rw [Op.Tracked, Nat.mul_div_cancel f (by decide)]
    exact hf
  have hvm : ∀ p : Pmm, ∃ vm : Vm, vm.pmm = p := fun p => ⟨⟨fun _ => 0, p, 0, 0⟩, rfl⟩
  obtain ⟨vm, hvm⟩ := hvm ((unset fun _ => 0).init plainBoot plainMap)
  rw [← hvm] at hinUse
  have hrun := TrackedRun.step _ (.refl vm) (htracked vm _ hinUse) rfl
  exact ⟨vm, _, hvm, rfl, usedFrames_eq_setCount hvm htail hrun⟩

end Vm

end Hos
