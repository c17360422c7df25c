import Mathlib.Algebra.BigOperators.Group.Finset.Basic
import Mathlib.Data.Finset.Card
import Hos.Lib.Bytes

/-!
# Allocation bitmaps

A bitmap answers for every index whether it is taken. The counting lemmas below
do not depend on how the answers are stored: a free counter is the number of
clear indices below a bound, and taking one clear index lowers it by one. A
bitmap stored in bytes keeps index `i` in bit `i % 8` of byte `i / 8`.
-/

namespace Hos

open Nat Bool Finset

section

/-- The number of clear indices below `n`. -/
def clearCount (f : Nat → Bool) (n : Nat) : Nat :=
  ((Finset.range n).filter fun i => f i = false).card

variable {f g : Nat → Bool} {i n : Nat}

theorem clearCount_congr (h : ∀ j < n, g j = f j) : clearCount g n = clearCount f n := by
  refine congrArg Finset.card (filter_congr ?_)
  intro j hj
  rw [h j (mem_range.mp hj)]

theorem clearCount_take (hi : i < n) (hclear : f i = false)
    (hg : ∀ j < n, g j = (f j || j == i)) : clearCount g n + 1 = clearCount f n := by
  have hset : (Finset.range n).filter (fun j => g j = false) =
      ((Finset.range n).filter fun j => f j = false).erase i := by
    apply ext
    intro j
    simp only [mem_filter, mem_range, mem_erase]
    constructor
    · rintro ⟨hj, hgj⟩
      rw [hg j hj, or_eq_false_iff] at hgj
      exact ⟨by simpa using hgj.2, hj, hgj.1⟩
    · rintro ⟨hne, hj, hfj⟩
      exact ⟨hj, by simp [hg j hj, hfj, hne]⟩
  have hmem : i ∈ (Finset.range n).filter fun j => f j = false := by simp [hi, hclear]
  rw [clearCount, hset, card_erase_of_mem hmem, clearCount]
  exact Nat.sub_add_cancel (card_pos.mpr ⟨i, hmem⟩)

theorem clearCount_pos_iff : 0 < clearCount f n ↔ ∃ j < n, f j = false := by
  simp [clearCount, card_pos, Finset.Nonempty]

/-- The number of set indices below `n`. -/
def setCount (f : Nat → Bool) (n : Nat) : Nat := clearCount (fun i => !f i) n

theorem setCount_congr (h : ∀ j < n, g j = f j) : setCount g n = setCount f n :=
  clearCount_congr fun j hj => by rw [h j hj]

theorem setCount_zero : setCount f 0 = 0 := by simp [setCount, clearCount]

theorem setCount_succ : setCount f (n + 1) = setCount f n + (f n).toNat := by
  rw [setCount, setCount, clearCount, clearCount, range_add_one, filter_insert]
  cases f n <;> simp

theorem setCount_add (m : Nat) : setCount f (m + n) = setCount f m + setCount
    (fun j => f (m + j)) n := by
  induction n with
  | zero => rw [setCount_zero, Nat.add_zero, Nat.add_zero]
  | succ n ih => rw [← Nat.add_assoc, setCount_succ, ih, setCount_succ, Nat.add_assoc]

theorem setCount_le : setCount f n ≤ n := by
  exact (card_filter_le _ _).trans (card_range n).le

theorem setCount_eq_zero_iff : setCount f n = 0 ↔ ∀ j < n, f j = false := by
  simp [setCount, clearCount, filter_eq_empty_iff]

theorem setCount_set (hi : i < n) (hclear : f i = false)
    (hg : ∀ j < n, g j = (f j || j == i)) : setCount g n = setCount f n + 1 := by
  apply Eq.symm
  apply clearCount_take hi (by simp [hg i hi])
  intro j hj
  rw [hg j hj]
  by_cases hji : j = i
  · simp [hji, hclear]
  · simp [beq_false_of_ne hji]

theorem setCount_clear (hi : i < n) (hset : f i = true)
    (hg : ∀ j < n, g j = (f j && j != i)) : setCount g n + 1 = setCount f n := by
  apply clearCount_take hi (by simp [hset])
  intro j hj
  rw [hg j hj]
  by_cases hji : j = i
  · simp [hji]
  · simp [bne, beq_false_of_ne hji]

/-- A total drops by one with one of its summands. -/
theorem sum_range_pred {t t' : Nat → Nat} (hi : i < n) (hdrop : t' i + 1 = t i)
    (hkeep : ∀ j < n, j ≠ i → t' j = t j) : ∑ j ∈ Finset.range n, t' j + 1 = ∑ j ∈ Finset.range n,
      t j := by
  have hmem : i ∈ Finset.range n := mem_range.mpr hi
  have hrest : ∑ j ∈ (Finset.range n).erase i, t' j = ∑ j ∈ (Finset.range n).erase i, t j := by
    refine sum_congr rfl fun j hj => ?_
    exact hkeep j (mem_range.mp (mem_of_mem_erase hj)) (ne_of_mem_erase hj)
  rw [← add_sum_erase _ t' hmem, ← add_sum_erase _ t hmem, hrest, ← hdrop]
  omega

end

section

/-- The first index below `n` that satisfies `p`. -/
def firstBelow (n : Nat) (p : Nat → Bool) : Option Nat := (List.range n).find? p

variable {p : Nat → Bool} {i n : Nat}

theorem firstBelow_eq_some_iff : firstBelow n p = some i ↔ i < n ∧ p i = true ∧ ∀ j < i,
    p j = false := by
  rw [firstBelow, List.find?_range_eq_some]
  simp only [List.mem_range, not_eq_true']
  tauto

theorem firstBelow_eq_none_iff : firstBelow n p = none ↔ ∀ j < n, p j = false := by
  simp [firstBelow]

theorem firstBelow_congr {q : Nat → Bool} (h : ∀ j < n, p j = q j) :
    firstBelow n p = firstBelow n q := by
  cases hq : firstBelow n q with
  | none =>
    rw [firstBelow_eq_none_iff] at hq ⊢
    intro j hj
    rw [h j hj, hq j hj]
  | some i =>
    rw [firstBelow_eq_some_iff] at hq ⊢
    refine ⟨hq.1, by rw [h i hq.1, hq.2.1], ?_⟩
    intro j hj
    rw [h j (by omega), hq.2.2 j hj]

end

namespace Bytes

/-- Bit `i` of a bitmap stored in bytes. -/
def bit (m : Bytes) (i : Nat) : Bool := (m (i / 8)).getLsbD (i % 8)

/-- Set bit `i` to the given value and keep the others. -/
def setBit (m : Bytes) (i : Nat) (b : Bool) : Bytes := fun x =>
  if x = i / 8 then
    if b then m x ||| (1#8 <<< (i % 8)) else m x &&& ~~~(1#8 <<< (i % 8))
  else m x

variable {m m' : Bytes} {i j : Nat} {b : Bool}

theorem bit_setBit : bit (setBit m i b) j = if j = i then b else bit m j := by
  have hj : j % 8 < 8 := mod_lt _ (by decide)
  by_cases hbyte : j / 8 = i / 8
  · by_cases hji : j = i
    · subst hji
      cases b <;> simp [bit, setBit, hj]
    · cases b with
      | false =>
        simp only [bit, setBit, hbyte, hji, if_true, if_false, false_eq_true]
        simp [hj]
        omega
      | true =>
        simp only [bit, setBit, hbyte, hji, if_true, if_false]
        simp [hj]
        omega
  · have hji : j ≠ i := by
      omega
    simp [bit, setBit, hbyte, hji]

theorem bit_congr (h : m' (i / 8) = m (i / 8)) : bit m' i = bit m i := by
  rw [bit, h, bit]

theorem setBit_congr {x : Nat} (h : m' x = m x) : setBit m' i b x = setBit m i b x := by
  simp only [setBit, h]

/-- Bytes are equal when their bits are. -/
theorem eq_of_bits {x y : Nat} (h : ∀ j < 8, bit m' (8 * y + j) = bit m (8 * x + j)) :
    m' y = m x := by
  refine BitVec.eq_of_getLsbD_eq fun j hj => ?_
  have hbit := h j hj
  rwa [bit, bit, mul_add_div (by decide), mul_add_div (by decide), div_eq_of_lt hj,
    mul_add_mod, mul_add_mod, mod_eq_of_lt hj] at hbit

end Bytes

end Hos
