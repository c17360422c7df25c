import Hos.Lib.Word
import Hos.Lib.WordBitmap

/-!
# The physical frame allocator of `pmm.c`

A bitmap of 32-bit words has one bit for every frame, set when the frame is in
use, next to a counter of the frames in use. An allocation that finds no frame
ends in `arch_fatal` and does not return, which is `none` here.

The bitmap words are indexed without a bound: the functions of the source do not
check frame numbers, and words behind the bitmap are other memory.
-/

namespace Hos

open List

/-- The static variables of `pmm.c` that the functions below read. -/
structure Pmm where
  framesBitmap : Nat → BitVec 32
  maxFrames : Nat
  usedFrames : Nat
  lowestAvailable : Nat

namespace Pmm

/-- `FRAME_SHIFT`. -/
def frameShift : Nat := 12

/-- Whether the bit of a frame is set. -/
def bit (p : Pmm) (frame : Nat) : Bool := wordBit p.framesBitmap frame

/-- `pmm_frame_set`. -/
def frameSet (p : Pmm) (frame : Nat) : Pmm :=
  { p with framesBitmap := setWordBit p.framesBitmap frame }

/-- `pmm_frame_seta`. -/
def frameSeta (p : Pmm) (frameAddr : Nat) : Pmm := p.frameSet (frameAddr / 2 ^ frameShift)

/-- `pmm_frame_unset`. -/
def frameUnset (p : Pmm) (frame : Nat) : Pmm :=
  { p with
    framesBitmap := clearWordBit p.framesBitmap frame
    lowestAvailable := if frame < p.lowestAvailable then frame else p.lowestAvailable }

/-- `pmm_frame_unseta`. -/
def frameUnseta (p : Pmm) (frameAddr : Nat) : Pmm := p.frameUnset (frameAddr / 2 ^ frameShift)

/-- `pmm_frame_test`. -/
def frameTest (p : Pmm) (frame : Nat) : Bool :=
  p.framesBitmap (frame / 32) &&& (1#32 <<< (frame % 32)) != 0#32

/-- The inner loop of `pmm_first_free_frame`: the first clear bit of word `i`. -/
def firstFreeInWord (p : Pmm) (i : Nat) : Option Nat :=
  (List.range 32).findSome? fun j =>
    if p.framesBitmap i &&& (1#32 <<< j) = 0#32 then some (i * 2 ^ 5 + j) else none

/-- `pmm_first_free_frame`: zero when there is none. Only whole words are searched. -/
def firstFreeFrame (p : Pmm) : Nat :=
  ((List.range' (p.lowestAvailable / 32) (p.maxFrames / 32 - p.lowestAvailable / 32)).findSome?
    fun i => if p.framesBitmap i ≠ BitVec.allOnes 32 then p.firstFreeInWord i else none).getD 0

/-- The loop of `pmm_first_nfree_frames` for more than one frame: the `avail`
frames before `i` are free. -/
def nfreeFrames (p : Pmm) (n i avail : Nat) : Nat :=
  if i < p.maxFrames then
    if p.framesBitmap (i / 32) ≠ BitVec.allOnes 32 then
      if p.frameTest i then p.nfreeFrames n (i + 1) 0
      else if avail + 1 = n then i + 1 - n
      else p.nfreeFrames n (i + 1) (avail + 1)
    else p.nfreeFrames n (i + 32) 0
  else 0
termination_by p.maxFrames - i

/-- `pmm_first_nfree_frames`. -/
def firstNfreeFrames (p : Pmm) (n : Nat) : Nat :=
  if n = 0 then 0 else if n = 1 then p.firstFreeFrame else p.nfreeFrames n 0 0

/-- `pmm_mark_frame_used`. -/
def markFrameUsed (p : Pmm) (frame : Nat) : Pmm :=
  { p.frameSet frame with usedFrames := u32 (p.usedFrames + 1) }

/-- `pmm_allocate_frame`. -/
def allocateFrame (p : Pmm) : Option (Nat × Pmm) :=
  if p.maxFrames ≤ p.usedFrames then none
  else
    let frame := p.firstFreeFrame
    if frame = 0 then none else some (frame, p.markFrameUsed frame)

/-- `pmm_allocate_frames`. -/
def allocateFrames (p : Pmm) (n : Nat) : Option (Nat × Pmm) :=
  if n = 0 then some (0, p)
  else if p.maxFrames ≤ p.usedFrames then none
  else
    let startFrame := p.firstNfreeFrames n
    if startFrame = 0 then none
    else some (startFrame, (List.range n).foldl (fun p i => p.markFrameUsed (startFrame + i)) p)

/-- `pmm_free_frame`. -/
def freeFrame (p : Pmm) (frameAddr : Nat) : Pmm :=
  { p with usedFrames := sub32 p.usedFrames 1 }.frameUnseta frameAddr

section

variable {p : Pmm} {f g : Nat}

@[simp] theorem bit_frameSet : (p.frameSet f).bit g = (p.bit g || g == f) :=
    wordBit_setWordBit (by decide)

@[simp] theorem bit_frameUnset : (p.frameUnset f).bit g = (p.bit g && g != f) :=
  wordBit_clearWordBit (by decide)

@[simp] theorem bit_markFrameUsed : (p.markFrameUsed f).bit g = (p.bit g || g == f) := bit_frameSet

@[simp] theorem bit_freeFrame {a : Nat} :
    (p.freeFrame a).bit g = (p.bit g && g != a / 2 ^ frameShift) :=
  wordBit_clearWordBit (by decide)

/-- `lowest_available` is only ever lowered. -/
theorem lowestAvailable_frameUnset (h : p.lowestAvailable = 0) :
    (p.frameUnset f).lowestAvailable = 0 := by
  rw [frameUnset, h, if_neg (Nat.not_lt_zero f)]

theorem lowestAvailable_foldl {ι : Type} {step : Pmm → ι → Pmm} (l : List ι)
    (h : p.lowestAvailable = 0)
    (hstep : ∀ q i, q.lowestAvailable = 0 → (step q i).lowestAvailable = 0) :
    (l.foldl step p).lowestAvailable = 0 :=
  l.foldlRecOn (motive := fun q => q.lowestAvailable = 0) step h fun q hq i _ => hstep q i hq

@[simp] theorem maxFrames_frameSet : (p.frameSet f).maxFrames = p.maxFrames := rfl

@[simp] theorem maxFrames_markFrameUsed : (p.markFrameUsed f).maxFrames = p.maxFrames := rfl

@[simp] theorem usedFrames_frameSet : (p.frameSet f).usedFrames = p.usedFrames := rfl

@[simp] theorem usedFrames_markFrameUsed :
    (p.markFrameUsed f).usedFrames = u32 (p.usedFrames + 1) := rfl

theorem frameTest_eq_bit : p.frameTest f = p.bit f := and_mask_ne_zero (Nat.mod_lt f (by decide))

end

variable {p : Pmm} {f n : Nat}

theorem firstFreeInWord_eq_some {i : Nat} (h : p.firstFreeInWord i = some f) :
    f / 32 = i ∧ p.bit f = false := by
  obtain ⟨j, hj, hbit⟩ := exists_of_findSome?_eq_some h
  have hlt : j < 32 := mem_range.mp hj
  split at hbit
  · rename_i hzero
    cases hbit
    have hdiv : (i * 2 ^ 5 + j) / 32 = i := by omega
    have hmod : (i * 2 ^ 5 + j) % 32 = j := by omega
    refine ⟨hdiv, ?_⟩
    rw [bit, wordBit, hdiv, hmod]
    exact (and_mask_eq_zero_iff hlt).mp hzero
  · cases hbit

/-- What `pmm_first_free_frame` finds is a free frame of a whole word. -/
theorem firstFreeFrame_spec (h : p.firstFreeFrame ≠ 0) :
    p.firstFreeFrame < p.maxFrames ∧ p.bit p.firstFreeFrame = false := by
  rw [firstFreeFrame] at h ⊢
  generalize hfind : findSome? _ _ = found at h ⊢
  cases found with
  | none => exact absurd rfl h
  | some f =>
    obtain ⟨i, hi, hword⟩ := exists_of_findSome?_eq_some hfind
    rw [mem_range'_1] at hi
    split at hword
    · obtain ⟨hdiv, hbit⟩ := firstFreeInWord_eq_some hword
      refine ⟨?_, hbit⟩
      rw [Option.getD_some]
      omega
    · cases hword

/-- What the run search finds is a run of free frames, when the frames counted
so far are free. -/
theorem nfreeFrames_spec {i avail : Nat} (hle : avail ≤ i)
    (hfree : ∀ g, i - avail ≤ g → g < i → p.bit g = false) (h : p.nfreeFrames n i avail ≠ 0) :
    p.nfreeFrames n i avail + n ≤ p.maxFrames ∧
      ∀ g, p.nfreeFrames n i avail ≤ g → g < p.nfreeFrames n i avail + n → p.bit g = false := by
  fun_induction nfreeFrames p n i avail with
  | case1 i avail hlt hword htest ih =>
    exact ih (Nat.zero_le _) (fun g hlo hhi => by omega) h
  | case2 i avail hlt hword htest hdone =>
    have hbit : p.bit i = false := by rwa [frameTest_eq_bit, Bool.not_eq_true] at htest
    refine ⟨by omega, fun g hlo hhi => ?_⟩
    by_cases hgi : g = i
    · rwa [hgi]
    · exact hfree g (by omega) (by omega)
  | case3 i avail hlt hword htest hmore ih =>
    have hbit : p.bit i = false := by rwa [frameTest_eq_bit, Bool.not_eq_true] at htest
    refine ih (by omega) (fun g hlo hhi => ?_) h
    by_cases hgi : g = i
    · rwa [hgi]
    · exact hfree g (by omega) (by omega)
  | case4 i avail hlt hword ih =>
    exact ih (Nat.zero_le _) (fun g hlo hhi => by omega) h
  | case5 i avail hge => exact absurd rfl h

/-- What `pmm_first_nfree_frames` finds. -/
theorem firstNfreeFrames_spec (h : p.firstNfreeFrames n ≠ 0) :
    p.firstNfreeFrames n + n ≤ p.maxFrames ∧
      ∀ g, p.firstNfreeFrames n ≤ g → g < p.firstNfreeFrames n + n → p.bit g = false := by
  rw [firstNfreeFrames] at h ⊢
  split at h
  · exact absurd rfl h
  · rename_i hn
    split at h
    · rename_i hone
      obtain ⟨hlt, hbit⟩ := firstFreeFrame_spec h
      rw [if_neg hn, if_pos hone]
      refine ⟨by omega, fun g hlo hhi => ?_⟩
      rwa [show g = p.firstFreeFrame by omega]
    · rename_i hone
      rw [if_neg hn, if_neg hone]
      exact nfreeFrames_spec (Nat.le_refl 0) (fun g _ hhi => absurd hhi (Nat.not_lt_zero g)) h

end Pmm

end Hos
