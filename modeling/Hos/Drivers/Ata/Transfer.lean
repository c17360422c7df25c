import Hos.Drivers.Ata.Basic

/-!
# What a transfer does

For an offset inside the disk a transfer either returns after the steps that are
spelled out here or never returns. A request that starts at offset zero and ends
in the first sector is the one that never returns: the last sector is decremented
past zero and no sector number exceeds it. A request of no bytes and a request
whose end wraps around take other paths and are described separately.
-/

namespace Hos.Ata

open Nat

variable {σ : Type} {steps : Steps σ} {maxOffset off size : Nat} {s : σ}

/-- `n` whole sectors in a row. -/
def wholes (steps : Steps σ) : Nat → Nat → Nat → σ → σ
  | 0, _, _, s => s
  | n + 1, block, xOffset, s =>
    wholes steps n (block + 1) (xOffset + sectorSize) (steps.whole block xOffset s)

theorem wholeSectors_of_lt {b e x : Nat} (h : e < b) : wholeSectors steps b e x s = some s := by
  rw [wholeSectors, whileLoop_of_false (by simpa using h)]
  rfl

theorem wholeSectors_eq {n b e x : Nat} (hn : b + n = e + 1) (he : e + 1 < 2 ^ 32)
    (hx : x + n * sectorSize ≤ 2 ^ 32) : wholeSectors steps b e x s = some
      (wholes steps n b x s) := by
  induction n generalizing b x s with
  | zero => exact wholeSectors_of_lt (by omega)
  | succ n ih =>
    have hstep : wholeSectors steps b e x s =
        wholeSectors steps (u32 (b + 1)) e (u32 (x + sectorSize)) (steps.whole b x s) := by
      rw [wholeSectors, whileLoop, if_pos (decide_eq_true (show b ≤ e by omega))]
      rfl
    have hblock : u32 (b + 1) = b + 1 := u32_of_lt (by omega)
    rw [hstep, hblock]
    rw [succ_mul] at hx
    by_cases hlast : n = 0
    · subst hlast
      exact wholeSectors_of_lt (by omega)
    · have hpos : 0 < n * sectorSize := mul_pos (pos_of_ne_zero hlast) (by decide)
      rw [u32_of_lt (show x + sectorSize < 2 ^ 32 by omega), ih (by omega) (by omega)]
      rfl

/-- No sector number exceeds the largest one. -/
theorem wholeSectors_none {b x : Nat} (hb : b < 2 ^ 32) :
    wholeSectors steps b (2 ^ 32 - 1) x s = none := by
  have hloop : ∀ t, whileLoop (fun t : Nat × Nat × σ => decide (t.1 ≤ 2 ^ 32 - 1))
      (fun t => some (u32 (t.1 + 1), u32 (t.2.1 + sectorSize), steps.whole t.1 t.2.1 t.2.2))
      (b, x, s) ≠ some t := by
    intro t hrun
    obtain ⟨hlt, hexit⟩ := whileLoop_invariant (fun t => t.1 < 2 ^ 32)
      (fun u v _ _ hbody => by rw [← Option.some.inj hbody]; exact u32_lt _) hrun hb
    exact absurd (le_sub_one_of_lt hlt) (of_decide_eq_false hexit)
  rw [wholeSectors, Option.eq_none_iff_forall_ne_some.mpr hloop]
  rfl

/-- The first whole sector at or behind the offset. -/
def firstBlock (off : Nat) : Nat := (off + 511) / sectorSize

/-- The bytes in front of the first whole sector. -/
def firstSize (off : Nat) : Nat := firstBlock off * sectorSize - off

/-- The state after the partial first sector. -/
def afterHead (steps : Steps σ) (off : Nat) (s : σ) : σ :=
  if off % sectorSize ≠ 0 then
    steps.head (off / sectorSize) (off % sectorSize) (firstSize off) s
  else s

/-- The size of the request after the check against the end of the disk. -/
def clamped (maxOffset off size : Nat) : Nat :=
  if maxOffset < u32 (off + size) then maxOffset - off else size

theorem unsigned_natCast {n : Nat} (h : n < 2 ^ 32) : unsigned (n : Int) = n := by
  rw [unsigned]
  omega

/-- The arithmetic of `transfer` without conversions. -/
theorem transfer_eq (hoff : off < 2 ^ 31) (hmax : maxOffset < 2 ^ 32) :
    transfer steps maxOffset off size s = if maxOffset < off then some (0, s)
      else
        (transferRest steps (firstBlock off) (sub32 (u32 (off + size)) 1 / sectorSize)
          (firstSize off) (clamped maxOffset off size) (u32 (off + size) % sectorSize)
          (afterHead steps off s)).map fun s => (i32 (clamped maxOffset off size), s) := by
  have hdiv : unsigned ((off : Int).tdiv sectorSize) = off / sectorSize := by
    rw [← Int.ofNat_tdiv, unsigned_natCast]
    exact lt_of_le_of_lt (div_le_self _ _) (by omega)
  have hmod : unsigned ((off : Int).tmod sectorSize) = off % sectorSize := by
    rw [← Int.ofNat_tmod, unsigned_natCast]
    exact lt_of_lt_of_le (mod_lt _ (by decide)) (by decide)
  rw [transfer, unsigned_natCast (by omega), hdiv, hmod]
  by_cases hpast : maxOffset < off
  · rw [if_pos hpast, if_pos hpast]
  · have hclamp : (if maxOffset < u32 (off + size) then sub32 maxOffset off else size) =
        clamped maxOffset off size := by
      rw [clamped, sub32_of_le hmax (by omega)]
    simp only [hclamp]
    by_cases hzero : off % sectorSize = 0
    · have hfirst : firstBlock off = off / sectorSize ∧ firstSize off = 0 := by
        simp only [firstSize, firstBlock, sectorSize] at *
        omega
      rw [if_neg (not_not.mpr hzero), afterHead, if_neg (not_not.mpr hzero), hfirst.1, hfirst.2]
    · have hfirst : firstBlock off = off / sectorSize + 1 ∧
          firstSize off = sectorSize - off % sectorSize := by
        simp only [firstSize, firstBlock, sectorSize] at *
        omega
      have hprefix : sub32 sectorSize (off % sectorSize) = firstSize off := by
        rw [hfirst.2, sub32_of_le (by decide) (le_of_lt (mod_lt _ (by decide)))]
      have hblock : u32 (off / sectorSize + 1) = firstBlock off := by
        rw [hfirst.1, u32_of_lt]
        simp only [sectorSize]
        omega
      rw [if_pos hzero, afterHead, if_pos hzero, hprefix, hblock]

/-- The state after the partial sectors. -/
def afterTail (steps : Steps σ) (maxOffset off size : Nat) (s : σ) : σ :=
  if (off + size) % sectorSize ≠ 0 ∧ firstBlock off ≤ (off + size) / sectorSize then
    steps.tail ((off + size) / sectorSize) (clamped maxOffset off size)
      ((off + size) % sectorSize) (afterHead steps off s)
  else afterHead steps off s

/-- A request of some bytes that does not end inside the first sector returns
after the partial sectors and the whole sectors between them. -/
theorem transfer_within (hoff : off < 2 ^ 31) (hmax : maxOffset < 2 ^ 32) (hle : off ≤ maxOffset)
    (hpos : 0 < size) (hstop : off + size ≤ 2 ^ 32) (hfirst : off = 0 → sectorSize ≤ size) :
    transfer steps maxOffset off size s = some (i32 (clamped maxOffset off size),
        wholes steps ((off + size) / sectorSize - firstBlock off) (firstBlock off) (firstSize off)
          (afterTail steps maxOffset off size s)) := by
  have hend : sub32 (u32 (off + size)) 1 = off + size - 1 := by
    simp only [sub32, u32]
    omega
  have hpost : u32 (off + size) % sectorSize = (off + size) % sectorSize := by
    simp only [u32, sectorSize]
    omega
  rw [transfer_eq hoff hmax, if_neg (not_lt.mpr hle), hend, hpost, transferRest, afterTail]
  by_cases hzero : (off + size) % sectorSize = 0
  · rw [if_neg (by simp [hzero]), if_neg (by simp [hzero]), wholeSectors_eq]
    · rfl
    all_goals
      simp only [firstSize, firstBlock, sectorSize] at *
      omega
  · have hlast : (off + size - 1) / sectorSize = (off + size) / sectorSize := by
      simp only [sectorSize] at *
      omega
    rw [hlast]
    by_cases hblock : firstBlock off ≤ (off + size) / sectorSize
    · have hpred : sub32 ((off + size) / sectorSize) 1 = (off + size) / sectorSize - 1 := by
        apply sub32_of_le <;> simp only [firstBlock, sectorSize] at * <;> omega
      rw [if_pos ⟨hzero, hblock⟩, if_pos ⟨hzero, hblock⟩, hpred, wholeSectors_eq]
      · rfl
      all_goals
        simp only [firstSize, firstBlock, sectorSize] at *
        omega
    · have hnone : (off + size) / sectorSize - firstBlock off = 0 := by omega
      rw [if_neg (fun h => hblock h.2), if_neg (fun h => hblock h.2),
        wholeSectors_of_lt (not_le.mp hblock), hnone]
      rfl

/-- A request that starts at zero and ends inside the first sector. -/
theorem transfer_none (hmax : maxOffset < 2 ^ 32) (hpos : 0 < size) (hsmall : size < sectorSize) :
    transfer steps maxOffset (0 : Nat) size s = none := by
  have hstop : u32 (0 + size) = size := by
    rw [zero_add]
    exact u32_of_lt (lt_trans hsmall (by decide))
  have hend : sub32 size 1 / sectorSize = 0 := by
    simp only [sub32, sectorSize] at *
    omega
  have hpost : size % sectorSize ≠ 0 := by
    rw [mod_eq_of_lt hsmall]
    omega
  rw [transfer_eq (by decide) hmax, if_neg (not_lt_zero _), hstop, hend, transferRest,
    if_pos ⟨hpost, le_refl 0⟩]
  rw [show sub32 0 1 = 2 ^ 32 - 1 by decide,
    wholeSectors_none (show firstBlock 0 < 2 ^ 32 by decide)]
  rfl

section

variable (hoff : off < 2 ^ 31) (hmax : maxOffset < 2 ^ 32) (hle : off ≤ maxOffset)
include hoff hmax hle

/-- A request whose end wraps around stops after the partial first sector. -/
theorem transfer_wrap (hsize : size < 2 ^ 32) (hstop : 2 ^ 32 < off + size) :
    transfer steps maxOffset off size s = some (i32 size, afterHead steps off s) := by
  have hwrap : u32 (off + size) = off + size - 2 ^ 32 := by
    rw [u32]
    omega
  have hclamp : clamped maxOffset off size = size := by
    rw [clamped, if_neg (by omega)]
  have hend : sub32 (u32 (off + size)) 1 / sectorSize < firstBlock off := by
    rw [hwrap, sub32_of_le (by omega) (by omega)]
    simp only [firstBlock, sectorSize]
    omega
  rw [transfer_eq hoff hmax, if_neg (not_lt.mpr hle), hclamp, transferRest,
    if_neg (fun h => absurd h.2 (not_le.mpr hend)), wholeSectors_of_lt hend]
  rfl

theorem transfer_empty (hzero : off ≠ 0) : transfer steps maxOffset off 0 s = some
    (0, afterHead steps off s) := by
  have hstop : u32 (off + 0) = off := u32_of_lt (by omega)
  have hclamp : clamped maxOffset off 0 = 0 := by
    rw [clamped, hstop, if_neg (by omega)]
  have hend : sub32 off 1 / sectorSize < firstBlock off := by
    rw [sub32_of_le (by omega) (by omega)]
    simp only [firstBlock, sectorSize]
    omega
  rw [transfer_eq hoff hmax, if_neg (not_lt.mpr hle), hclamp, hstop, transferRest,
    if_neg (fun h => absurd h.2 (not_le.mpr hend)), wholeSectors_of_lt hend]
  rfl

end

/-- A request of no bytes at offset zero runs over all sector numbers. -/
theorem transfer_empty_zero (hmax : maxOffset < 2 ^ 32) :
    transfer steps maxOffset (0 : Nat) 0 s = some (0, wholes steps (2 ^ 23) 0 0 s) := by
  rw [transfer_eq (by decide) hmax, if_neg (not_lt_zero _), transferRest,
    if_neg (by simp [u32])]
  have hend : sub32 (u32 (0 + 0)) 1 / sectorSize = 2 ^ 23 - 1 := by decide
  have hclamp : clamped maxOffset 0 0 = 0 := by simp [clamped, u32]
  rw [hend, hclamp, wholeSectors_eq (show firstBlock 0 + 2 ^ 23 = 2 ^ 23 - 1 + 1 by decide)
    (by decide) (by decide)]
  rfl

end Hos.Ata
