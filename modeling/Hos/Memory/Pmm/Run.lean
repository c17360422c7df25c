import Mathlib.Order.Interval.Finset.Nat
import Hos.Memory.Pmm.Basic

/-!
# Histories of the frame allocator

The frames that have been handed out and not been given back are the live ones.
Along every history a live frame has its bit set, and an allocation only takes
frames whose bits are clear, so that no frame is handed out twice.
-/

namespace Hos.Pmm

open Finset

section

variable {p p' : Pmm} {f g n s : Nat}

theorem allocateFrame_eq_some (h : p.allocateFrame = some (f, p')) :
    f ≠ 0 ∧ f < p.maxFrames ∧ p.bit f = false ∧ p' = p.markFrameUsed f := by
  rw [allocateFrame] at h
  split at h
  · cases h
  · dsimp only at h
    split at h
    · cases h
    · rename_i hne
      cases h
      obtain ⟨hlt, hbit⟩ := firstFreeFrame_spec hne
      exact ⟨hne, hlt, hbit, rfl⟩

theorem bit_markFrames (p : Pmm) (s n g : Nat) :
    ((List.range n).foldl (fun p i => p.markFrameUsed (s + i)) p).bit g =
      (p.bit g || decide (s ≤ g ∧ g < s + n)) := by
  induction n with
  | zero =>
    simp
  | succ n ih =>
    rw [List.range_succ, List.foldl_append, List.foldl_cons, List.foldl_nil, bit_markFrameUsed, ih,
      Bool.or_assoc]
    congr 1
    rw [Bool.eq_iff_iff]
    simp only [Bool.or_eq_true, decide_eq_true_eq, beq_iff_eq]
    omega

theorem maxFrames_markFrames (p : Pmm) (s n : Nat) :
    ((List.range n).foldl (fun p i => p.markFrameUsed (s + i)) p).maxFrames = p.maxFrames := by
  induction n with
  | zero => rfl
  | succ n ih =>
    rw [List.range_succ, List.foldl_append, List.foldl_cons, List.foldl_nil,
      maxFrames_markFrameUsed, ih]

theorem allocateFrames_eq_some (hn : n ≠ 0) (h : p.allocateFrames n = some (s, p')) :
    s ≠ 0 ∧ s + n ≤ p.maxFrames ∧ (∀ g, s ≤ g → g < s + n → p.bit g = false) ∧
      p' = (List.range n).foldl (fun p i => p.markFrameUsed (s + i)) p := by
  rw [allocateFrames, if_neg hn] at h
  split at h
  · cases h
  · dsimp only at h
    split at h
    · cases h
    · rename_i hne
      cases h
      obtain ⟨hlt, hbit⟩ := firstNfreeFrames_spec hne
      exact ⟨hne, hlt, hbit, rfl⟩

end

/-- A history of the allocator: the state and the live frames. A frame is given
back by its address. -/
inductive Reachable (initial : Pmm) : Pmm → Finset Nat → Prop where
  | start : Reachable initial initial ∅
  | allocateFrame {p p' live f} : Reachable initial p live → p.allocateFrame = some (f, p') →
      Reachable initial p' (insert f live)
  | allocateFrames {p p' live s n} : Reachable initial p live → 1 ≤ n →
      p.allocateFrames n = some (s, p') → Reachable initial p' (live ∪ Finset.Ico s (s + n))
  | freeFrame {p live f} : Reachable initial p live → f ∈ live →
      Reachable initial (p.freeFrame (f * 2 ^ frameShift)) (live.erase f)

/-- What every state of a history satisfies. -/
structure LiveUsed (initial p : Pmm) (live : Finset Nat) : Prop where
  maxFrames : p.maxFrames = initial.maxFrames
  frameZero : p.bit 0 = true
  used : ∀ f ∈ live, p.bit f = true
  pos : 0 ∉ live

variable {initial p p' : Pmm} {live : Finset Nat} {f s n : Nat}

theorem LiveUsed.mark (h : LiveUsed initial p live) {marked : Finset Nat} (hpos : 0 ∉ marked)
    (hmax : p'.maxFrames = p.maxFrames) (hbits : ∀ g, p'.bit g = (p.bit g || decide (g ∈ marked))) :
    LiveUsed initial p' (live ∪ marked) where
  maxFrames := hmax.trans h.maxFrames
  frameZero := by rw [hbits, h.frameZero, Bool.true_or]
  used := by
    intro g hg
    rw [hbits, Bool.or_eq_true, decide_eq_true_eq]
    exact (mem_union.mp hg).imp_left (h.used g)
  pos := by
    rw [mem_union, not_or]
    exact ⟨h.pos, hpos⟩

theorem LiveUsed.free (h : LiveUsed initial p live) (hf : f ∈ live) :
    LiveUsed initial (p.freeFrame (f * 2 ^ frameShift)) (live.erase f) := by
  have hbits : ∀ g, (p.freeFrame (f * 2 ^ frameShift)).bit g = (p.bit g && g != f) := by
    simp
  refine ⟨h.maxFrames, ?_, ?_, fun hzero => h.pos (mem_of_mem_erase hzero)⟩
  · have hne : (0 : Nat) ≠ f := fun heq => h.pos (heq ▸ hf)
    rw [hbits, h.frameZero, Bool.true_and, bne_iff_ne]
    exact hne
  · intro g hg
    obtain ⟨hne, hmem⟩ := mem_erase.mp hg
    rw [hbits, h.used g hmem, Bool.true_and, bne_iff_ne]
    exact hne

/-- `lowest_available` is zero at the start and stays so along every history. -/
theorem Reachable.lowestAvailable (h : Reachable initial p live)
    (hlow : initial.lowestAvailable = 0) : p.lowestAvailable = 0 := by
  induction h with
  | start => exact hlow
  | allocateFrame _ hrun ih =>
    obtain ⟨-, -, -, rfl⟩ := allocateFrame_eq_some hrun
    exact ih
  | allocateFrames _ hn hrun ih =>
    obtain ⟨-, -, -, rfl⟩ := allocateFrames_eq_some (Nat.ne_of_gt hn) hrun
    exact lowestAvailable_foldl _ ih fun _ _ hq => hq
  | freeFrame _ _ ih => exact lowestAvailable_frameUnset ih

section

variable (h : Reachable initial p live) (hzero : initial.bit 0 = true)
include h hzero

/-- The invariant holds along every history from a bitmap with frame zero used. -/
theorem Reachable.liveUsed :
    LiveUsed initial p live := by
  induction h with
  | start => exact ⟨rfl, hzero, fun f hf => absurd hf (notMem_empty f), notMem_empty 0⟩
  | @allocateFrame p p' live f _ hrun ih =>
    obtain ⟨hne, _, _, rfl⟩ := allocateFrame_eq_some hrun
    rw [insert_eq, union_comm]
    refine ih.mark (by simpa using hne.symm) rfl fun g => ?_
    simp [beq_eq_decide]
  | @allocateFrames p p' live s n _ hn hrun ih =>
    obtain ⟨hne, _, _, rfl⟩ := allocateFrames_eq_some (Nat.ne_of_gt hn) hrun
    have hpos : 0 ∉ Finset.Ico s (s + n) := by
      rw [mem_Ico]
      omega
    refine ih.mark hpos (maxFrames_markFrames p s n) fun g => ?_
    simp only [bit_markFrames, mem_Ico]
  | freeFrame _ hf ih => exact ih.free hf

/-- No frame is handed out twice: what an allocation returns is a range of
nonzero frames of the memory, none of which is live. -/
theorem allocate_disjoint_live (hmax : initial.maxFrames ≤ 2 ^ 20) :
    (∀ f p', p.allocateFrame = some (f, p') → f ≠ 0 ∧ f < initial.maxFrames ∧
      f < 2 ^ 20 ∧ f ∉ live) ∧ ∀ n s p', 1 ≤ n → p.allocateFrames n = some (s, p') →
      s ≠ 0 ∧ s + n ≤ initial.maxFrames ∧ s + n ≤ 2 ^ 20 ∧
        Disjoint (Finset.Ico s (s + n)) live := by
  have hinv := h.liveUsed hzero
  constructor
  · intro f p' hrun
    obtain ⟨hne, hlt, hbit, _⟩ := allocateFrame_eq_some hrun
    rw [hinv.maxFrames] at hlt
    refine ⟨hne, hlt, by omega, fun hmem => ?_⟩
    rw [hinv.used f hmem] at hbit
    exact absurd hbit.symm Bool.false_ne_true
  · intro n s p' hn hrun
    obtain ⟨hne, hle, hbits, _⟩ := allocateFrames_eq_some (Nat.ne_of_gt hn) hrun
    rw [hinv.maxFrames] at hle
    refine ⟨hne, hle, by omega, ?_⟩
    rw [disjoint_left]
    intro g hg hmem
    rw [mem_Ico] at hg
    have hbit := hbits g hg.1 hg.2
    rw [hinv.used g hmem] at hbit
    exact absurd hbit.symm Bool.false_ne_true

end

/-- Sixty-four frames, of which frames one and two are free. -/
def twoFree : Pmm where
  framesBitmap := fun i => if i = 0 then 0xFFFFFFF9#32 else BitVec.allOnes 32
  maxFrames := 64
  usedFrames := 62
  lowestAvailable := 0

theorem allocate_disjoint_live_second :
    (twoFree.markFrameUsed 1).allocateFrame = some (2, (twoFree.markFrameUsed 1).markFrameUsed 2) ∧
      (2 ≠ 0 ∧ 2 < twoFree.maxFrames ∧ 2 < 2 ^ 20 ∧ 2 ∉ insert 1 (∅ : Finset Nat)) :=
  ⟨rfl, (allocate_disjoint_live (.allocateFrame (Reachable.start : Reachable twoFree twoFree ∅) rfl)
    (by decide) (by decide)).1 2 _ rfl⟩

end Hos.Pmm
