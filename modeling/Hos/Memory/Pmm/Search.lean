import Mathlib.Order.Bounds.Defs
import Hos.Memory.Pmm.Basic

/-!
# The search for free frames

`pmm_first_nfree_frames` for two frames or more looks at every frame below
`max_frames`. It skips a word whose bits are all set, which is right because it only
gets to such a word at its first bit. For one frame `pmm_first_free_frame` is called
instead, and that one leaves out the frames of an incomplete last word.

`lowest_available` is zero from the start and only ever lowered, so it is zero below.
-/

namespace Hos.Pmm

open Option List Nat

section

variable {α : Type} {f : Nat → Option α} {b : α}

/-- The first number of a range with a result. -/
theorem findSome?_range_eq_some {n : Nat} (h : (List.range n).findSome? f = some b) :
    ∃ i < n, f i = some b ∧ ∀ j < i, f j = none := by
  induction n with
  | zero => exact absurd h.symm (some_ne_none b)
  | succ n ih =>
    rw [range_succ, findSome?_append] at h
    cases hfirst : (List.range n).findSome? f with
    | some c =>
      rw [hfirst, some_or] at h
      obtain ⟨i, hi, hrest⟩ := ih (hfirst.trans h)
      exact ⟨i, lt_succ_of_lt hi, hrest⟩
    | none =>
      rw [hfirst, none_or, findSome?_singleton] at h
      refine ⟨n, lt_succ_self n, h, fun j hj => ?_⟩
      exact findSome?_eq_none_iff.mp hfirst j (mem_range.mpr hj)

end

/-- `n` free frames from `f` on, below `max_frames`. -/
def FreeRun (p : Pmm) (n f : Nat) : Prop :=
  f + n ≤ p.maxFrames ∧ ∀ g, f ≤ g → g < f + n → p.bit g = false

/-- `r` is the answer to a search for `n` frames. -/
structure Finds (p : Pmm) (n r : Nat) : Prop where
  lowest : r ≠ 0 → IsLeast {f | p.FreeRun n f} r
  none_iff : r = 0 ↔ ∀ f, ¬p.FreeRun n f

section

variable {p : Pmm} {n : Nat}

theorem bit_of_allOnes {g : Nat} (h : p.framesBitmap (g / 32) = BitVec.allOnes 32) :
    p.bit g = true := by
  rw [bit, wordBit, h, BitVec.getLsbD_allOnes]
  exact decide_eq_true (mod_lt g (by decide))

/-- An answer that is the start of a run, with no run before it. -/
theorem finds_of_isLeast {r : Nat} (hr : r ≠ 0) (hleast : IsLeast {f | p.FreeRun n f} r) :
    p.Finds n r :=
  ⟨fun _ => hleast, iff_of_false hr fun hnone => hnone r hleast.1⟩

theorem finds_zero (hnone : ∀ f, ¬p.FreeRun n f) : p.Finds n 0 :=
  ⟨fun h => absurd rfl h, iff_of_true rfl hnone⟩

/-- The state of the loop at frame `i`: the last `avail` frames are free, every run starts
among them or later, and a word without a clear bit is met at its first frame. -/
structure Scanned (p : Pmm) (n i avail : Nat) : Prop where
  le : avail ≤ i
  short : avail < n
  free : ∀ g, i - avail ≤ g → g < i → p.bit g = false
  later : ∀ f, p.FreeRun n f → i - avail ≤ f
  aligned : p.framesBitmap (i / 32) = BitVec.allOnes 32 → i % 32 = 0

namespace Scanned

variable {i avail : Nat}

/-- A set bit cuts off all runs that start at or before it. -/
theorem cut (h : p.Scanned n i avail) (hset : p.bit i = true) {f : Nat} (hrun : p.FreeRun n f) :
    i + 1 ≤ f := by
  by_contra hbefore
  have hstart := h.later f hrun
  have hshort := h.short
  have hclear := hrun.2 i (by omega) (by omega)
  cases hset.symm.trans hclear

theorem aligned_succ (hword : p.framesBitmap (i / 32) ≠ BitVec.allOnes 32)
    (hones : p.framesBitmap ((i + 1) / 32) = BitVec.allOnes 32) : (i + 1) % 32 = 0 := by
  by_contra hinside
  have hsame : (i + 1) / 32 = i / 32 := by omega
  exact hword (hsame ▸ hones)

section

variable (h : p.Scanned n i avail) (hword : p.framesBitmap (i / 32) ≠ BitVec.allOnes 32)
include h hword

theorem used (hset : p.bit i = true) : p.Scanned n (i + 1) 0 where
  le := zero_le _
  short := zero_lt_of_lt h.short
  free := fun g hlo hhi => by omega
  later := fun f hrun => h.cut hset hrun
  aligned := aligned_succ hword

theorem unused (hclear : p.bit i = false) (hmore : avail + 1 ≠ n) : p.Scanned n (i + 1)
    (avail + 1) where
  le := succ_le_succ h.le
  short := lt_of_le_of_ne h.short hmore
  free := by
    intro g hlo hhi
    by_cases hgi : g = i
    · rwa [hgi]
    · exact h.free g (by omega) (by omega)
  later := by
    intro f hrun
    have hstart := h.later f hrun
    omega
  aligned := aligned_succ hword

end

/-- A word without a clear bit is skipped as a whole. -/
theorem skip (h : p.Scanned n i avail) (hword : p.framesBitmap (i / 32) = BitVec.allOnes 32) :
    p.Scanned n (i + 32) 0 where
  le := zero_le _
  short := zero_lt_of_lt h.short
  free := fun g hlo hhi => by omega
  later := by
    intro f hrun
    have haligned := h.aligned hword
    have hafter := h.cut (bit_of_allOnes hword) hrun
    by_contra hinside
    have hsame : f / 32 = i / 32 := by omega
    have hset : p.bit f = true := bit_of_allOnes (hsame ▸ hword)
    have hclear := hrun.2 f (le_refl f) (by have := h.short; omega)
    cases hset.symm.trans hclear
  aligned := by
    have haligned := h.aligned hword
    omega

end Scanned

/-- The loop finds the lowest run. -/
theorem nfreeFrames_finds {i avail : Nat} (hzero : p.bit 0 = true) (h : p.Scanned n i avail) :
    p.Finds n (p.nfreeFrames n i avail) := by
  fun_induction nfreeFrames p n i avail with
  | case1 i avail hlt hword htest ih =>
    rw [frameTest_eq_bit] at htest
    exact ih (h.used hword htest)
  | case2 i avail hlt hword htest hdone =>
    rw [frameTest_eq_bit, Bool.not_eq_true] at htest
    have hle := h.le
    have hrun : p.FreeRun n (i + 1 - n) := by
      refine ⟨by omega, fun g hlo hhi => ?_⟩
      by_cases hgi : g = i
      · rwa [hgi]
      · exact h.free g (by omega) (by omega)
    apply finds_of_isLeast
    · intro hstart
      have hfirst := hrun.2 0 (le_of_eq hstart) (by have := h.short; omega)
      cases hzero.symm.trans hfirst
    · refine ⟨hrun, fun f hf => ?_⟩
      have hstart := h.later f hf
      omega
  | case3 i avail hlt hword htest hmore ih =>
    rw [frameTest_eq_bit, Bool.not_eq_true] at htest
    exact ih (h.unused hword htest hmore)
  | case4 i avail hlt hword ih => exact ih (h.skip (not_not.mp hword))
  | case5 i avail hge =>
    apply finds_zero
    intro f hrun
    have hstart := h.later f hrun
    have hend := hrun.1
    have hshort := h.short
    omega

theorem firstFreeInWord_eq_none {i g : Nat} (h : p.firstFreeInWord i = none) (hg : g / 32 = i) :
    p.bit g = true := by
  have hnone := findSome?_eq_none_iff.mp h (g % 32) (mem_range.mpr (mod_lt g (by decide)))
  by_contra hclear
  have hzero := (and_mask_eq_zero_iff (mod_lt g (by decide))).mpr
    (Bool.eq_false_of_not_eq_true hclear)
  rw [hg] at hzero
  rw [if_pos hzero] at hnone
  cases hnone

theorem firstFreeInWord_lowest {i f : Nat} (h : p.firstFreeInWord i = some f) :
    f / 32 = i ∧ p.bit f = false ∧ ∀ g < f, g / 32 = i → p.bit g = true := by
  obtain ⟨hword, hclear⟩ := firstFreeInWord_eq_some h
  refine ⟨hword, hclear, fun g hg hgi => ?_⟩
  obtain ⟨j, hj, hfound, hbefore⟩ := findSome?_range_eq_some h
  have hf : i * 2 ^ 5 + j = f := by
    split at hfound
    · exact some.inj hfound
    · cases hfound
  have hnone := hbefore (g % 32) (by omega)
  by_contra hset
  have hzero := (and_mask_eq_zero_iff (mod_lt g (by decide))).mpr
    (Bool.eq_false_of_not_eq_true hset)
  rw [hgi] at hzero
  rw [if_pos hzero] at hnone
  cases hnone

/-- `pmm_first_free_frame` finds the lowest free frame of the whole words. -/
theorem firstFreeFrame_lowest (hzero : p.bit 0 = true) (hlow : p.lowestAvailable = 0) :
    (p.firstFreeFrame = 0 ∧ ∀ g < p.maxFrames / 32 * 32, p.bit g = true) ∨
      p.firstFreeFrame ≠ 0 ∧ p.firstFreeFrame < p.maxFrames / 32 * 32 ∧
        p.bit p.firstFreeFrame = false ∧ ∀ g < p.firstFreeFrame, p.bit g = true := by
  have hword : ∀ i g, (if p.framesBitmap i ≠ BitVec.allOnes 32 then p.firstFreeInWord i else none) =
      none → g / 32 = i → p.bit g = true := by
    intro i g hnone hg
    split at hnone
    · exact firstFreeInWord_eq_none hnone hg
    · rename_i hones
      rw [not_not, ← hg] at hones
      exact bit_of_allOnes hones
  rw [firstFreeFrame, hlow, Nat.zero_div, Nat.sub_zero, ← range_eq_range']
  cases hfind : (List.range (p.maxFrames / 32)).findSome? fun i =>
      if p.framesBitmap i ≠ BitVec.allOnes 32 then p.firstFreeInWord i else none with
  | none =>
    refine Or.inl ⟨rfl, fun g hg => ?_⟩
    have hi : g / 32 < p.maxFrames / 32 := by omega
    exact hword (g / 32) g (findSome?_eq_none_iff.mp hfind _ (mem_range.mpr hi)) rfl
  | some f =>
    obtain ⟨i, hi, hfound, hbefore⟩ := findSome?_range_eq_some hfind
    have hfirst : p.firstFreeInWord i = some f := by
      split at hfound
      · exact hfound
      · cases hfound
    obtain ⟨hdiv, hclear, hlowest⟩ := firstFreeInWord_lowest hfirst
    refine Or.inr ⟨?_, by rw [getD_some]; omega, hclear, fun g hg => ?_⟩
    · rintro rfl
      cases hzero.symm.trans hclear
    · rw [getD_some] at hg
      by_cases hgi : g / 32 = i
      · exact hlowest g hg hgi
      · exact hword (g / 32) g (hbefore (g / 32) (by omega)) rfl

theorem freeRun_one {f : Nat} : p.FreeRun 1 f ↔ f < p.maxFrames ∧ p.bit f = false := by
  constructor
  · rintro ⟨hlt, hclear⟩
    exact ⟨by omega, hclear f (le_refl f) (lt_succ_self f)⟩
  · rintro ⟨hlt, hclear⟩
    refine ⟨hlt, fun g hlo hhi => ?_⟩
    rwa [show g = f by omega]

/-- The search is right, except that a single free frame is not found if all of them are
in an incomplete last word. -/
theorem firstNfreeFrames_finds_iff (hzero : p.bit 0 = true) (hlow : p.lowestAvailable = 0)
    (hn : 1 ≤ n) :
    p.Finds n (p.firstNfreeFrames n) ↔
      (n = 1 → (∃ f < p.maxFrames, p.bit f = false) → ∃ f < p.maxFrames / 32 * 32,
        p.bit f = false) := by
  rw [firstNfreeFrames, if_neg (ne_of_gt hn)]
  by_cases hone : n = 1
  · subst hone
    rw [if_pos rfl]
    obtain ⟨hnone, hall⟩ | ⟨hne, hlt, hclear, hbefore⟩ := firstFreeFrame_lowest hzero hlow
    · constructor
      · intro hfinds _ hfree
        obtain ⟨f, hlt, hclear⟩ := hfree
        exact absurd (freeRun_one.mpr ⟨hlt, hclear⟩) (hfinds.none_iff.mp hnone f)
      · intro hwhole
        rw [hnone]
        apply finds_zero
        intro f hrun
        obtain ⟨g, hg, hclear⟩ := hwhole rfl ⟨f, freeRun_one.mp hrun⟩
        exact absurd ((hall g hg).symm.trans hclear) (by decide)
    · refine iff_of_true (finds_of_isLeast hne ⟨freeRun_one.mpr ⟨by omega, hclear⟩, fun f hf => ?_⟩)
        fun _ _ => ⟨_, hlt, hclear⟩
      by_contra hless
      have hset := hbefore f (Nat.lt_of_not_le hless)
      exact absurd (hset.symm.trans (freeRun_one.mp hf).2) (by decide)
  · rw [if_neg hone]
    refine iff_of_true (nfreeFrames_finds hzero ?_) fun h => absurd h hone
    exact
      { le := le_refl 0
        short := hn
        free := fun g _ hhi => absurd hhi (not_lt_zero g)
        later := fun f _ => zero_le f
        aligned := fun _ => rfl }

end

/-- A machine with 128 MiB less 56 KiB, whose free frames are the last eighteen ones. -/
def lastFramesFree : Pmm := ⟨fun i => if i < 1023 then BitVec.allOnes 32 else 0#32,
    0x7FF2, 0x7FE0, 0⟩

/-- The first search for a single frame fails, and a search for two frames succeeds. -/
theorem single_frame_not_found :
    lastFramesFree.bit 0 = true ∧ lastFramesFree.FreeRun 1 0x7FE0 ∧
      lastFramesFree.FreeRun 2 0x7FE0 ∧
      lastFramesFree.firstNfreeFrames 1 = 0 ∧ ¬lastFramesFree.Finds 1
        (lastFramesFree.firstNfreeFrames 1) := by
  have hnone : lastFramesFree.firstNfreeFrames 1 = 0 := by decide +kernel
  have hone : lastFramesFree.FreeRun 1 0x7FE0 := freeRun_one.mpr ⟨by decide, by decide⟩
  refine ⟨by decide, hone, ⟨by decide, fun g hlo hhi => ?_⟩, hnone, fun hfinds => ?_⟩
  · obtain rfl | rfl : g = 0x7FE0 ∨ g = 0x7FE1 := by omega
    · rfl
    · rfl
  · exact hfinds.none_iff.mp hnone 0x7FE0 hone

/-- On the same machine a search for two frames. -/
theorem firstNfreeFrames_finds_pair : lastFramesFree.Finds 2 (lastFramesFree.firstNfreeFrames 2) :=
  (firstNfreeFrames_finds_iff (by decide) rfl (by decide)).mpr fun h => absurd h (by decide)

end Hos.Pmm
