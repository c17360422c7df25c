import Hos.Lib.Bitmap

/-!
# Bitmaps stored in machine words

Index `i` is bit `i % w` of word `i / w`. Setting or clearing an index is a
read-modify-write of one word with a one-bit mask, and changes the answer for
that index only.
-/

namespace Hos

open Nat Function BitVec

variable {w : Nat} {m : Nat → BitVec w} {i j : Nat}

/-- The answer of the bitmap for index `i`. -/
def wordBit (m : Nat → BitVec w) (i : Nat) : Bool := (m (i / w)).getLsbD (i % w)

/-- `m[i / w] |= 1 << (i % w)`. -/
def setWordBit (m : Nat → BitVec w) (i : Nat) : Nat → BitVec w :=
  Function.update m (i / w) (m (i / w) ||| (1#w <<< (i % w)))

/-- `m[i / w] &= ~(1 << (i % w))`. -/
def clearWordBit (m : Nat → BitVec w) (i : Nat) : Nat → BitVec w :=
  Function.update m (i / w) (m (i / w) &&& ~~~(1#w <<< (i % w)))

theorem getLsbD_mask (hi : i < w) : (1#w <<< i).getLsbD j = decide (j = i) := by
  rw [getLsbD_shiftLeft, getLsbD_one]
  by_cases hj : j = i
  · subst hj
    simp [hi, zero_lt_of_lt hi]
  · have hcases : j < i ∨ ¬j - i = 0 := by omega
    rcases hcases with hlt | hne
    · simp [hlt, hj]
    · simp [hne, hj]

/-- Testing a word with a one-bit mask. -/
theorem and_mask_eq_zero_iff {v : BitVec w} (hi : i < w) : v &&& (1#w <<< i) = 0#w ↔
    v.getLsbD i = false := by
  constructor
  · intro h
    have hbit := congrArg (fun u => u.getLsbD i) h
    simpa [getLsbD_and, getLsbD_mask hi] using hbit
  · intro h
    apply eq_of_getLsbD_eq
    intro k _
    rw [getLsbD_and, getLsbD_mask hi]
    by_cases hk : k = i
    · rw [hk, h]
      simp
    · simp [hk]

theorem and_mask_ne_zero {v : BitVec w} (hi : i < w) :
    (v &&& (1#w <<< i) != 0#w) = v.getLsbD i := by
  cases hbit : v.getLsbD i with
  | false => simpa using (and_mask_eq_zero_iff hi).mpr hbit
  | true =>
    have hne : v &&& (1#w <<< i) ≠ 0#w := by
      intro hzero
      rw [(and_mask_eq_zero_iff hi).mp hzero] at hbit
      exact absurd hbit Bool.false_ne_true
    simpa using hne

theorem index_eq_iff (hword : j / w = i / w) : j % w = i % w ↔ j = i := by
  constructor
  · intro hmod
    rw [← div_add_mod j w, ← div_add_mod i w, hword, hmod]
  · rintro rfl
    rfl

theorem wordBit_setWordBit (hw : 0 < w) : wordBit (setWordBit m i) j = (wordBit m j || j == i) := by
  rw [wordBit, setWordBit]
  by_cases hword : j / w = i / w
  · rw [hword, update_self, getLsbD_or, getLsbD_mask (mod_lt i hw), wordBit, hword]
    simp only [index_eq_iff hword, beq_eq_decide]
  · have hne : j ≠ i := fun heq => hword (congrArg (· / w) heq)
    rw [update_of_ne hword, ← wordBit, beq_false_of_ne hne, Bool.or_false]

theorem wordBit_clearWordBit (hw : 0 < w) :
    wordBit (clearWordBit m i) j = (wordBit m j && j != i) := by
  rw [wordBit, clearWordBit]
  by_cases hword : j / w = i / w
  · rw [hword, update_self, getLsbD_and, getLsbD_not, getLsbD_mask (mod_lt i hw), wordBit, hword]
    have hlt := mod_lt j hw
    simp only [index_eq_iff hword, hlt, decide_true, Bool.true_and, bne, beq_eq_decide]
  · have hne : j ≠ i := fun heq => hword (congrArg (· / w) heq)
    rw [update_of_ne hword, ← wordBit, bne, beq_false_of_ne hne, Bool.not_false, Bool.and_true]

end Hos
