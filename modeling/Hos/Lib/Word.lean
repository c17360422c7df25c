import Mathlib.Data.Nat.Bitwise
import Mathlib.Tactic.Ring

/-!
# Fixed-width machine arithmetic on naturals

Values of the C types `uint32_t`, `unsigned long` and `uintptr_t` of the i386
target are naturals below `2 ^ 32`. Every operation that may leave that range
is written with its explicit reduction, so the wrap-around cases remain in the
model. Masks with a run of high ones round down to a power of two.
-/

namespace Hos

open Nat

/-- Reduction to `uint32_t`. -/
def u32 (n : Nat) : Nat := n % 2 ^ 32

/-- Reduction to `uint16_t`. -/
def u16 (n : Nat) : Nat := n % 2 ^ 16

/-- `uint32_t` subtraction, which borrows modulo `2 ^ 32`. -/
def sub32 (a b : Nat) : Nat := (a + (2 ^ 32 - b % 2 ^ 32)) % 2 ^ 32

/-- The `int` with the given two's complement representation. -/
def i32 (n : Nat) : Int := if u32 n < 2 ^ 31 then (u32 n : Int) else (u32 n : Int) - 2 ^ 32

theorem u32_lt (n : Nat) : u32 n < 2 ^ 32 := mod_lt _ (by decide)

theorem u32_of_lt {n : Nat} (h : n < 2 ^ 32) : u32 n = n := mod_eq_of_lt h

@[simp] theorem u32_u32 (n : Nat) : u32 (u32 n) = u32 n := mod_mod _ _

theorem sub32_lt (a b : Nat) : sub32 a b < 2 ^ 32 := mod_lt _ (by decide)

theorem sub32_of_le {a b : Nat} (ha : a < 2 ^ 32) (hba : b ≤ a) : sub32 a b = a - b := by
  unfold sub32
  omega

theorem i32_of_lt {n : Nat} (h : n < 2 ^ 31) : i32 n = n := by
  have hn : u32 n = n := u32_of_lt (by omega)
  rw [i32, hn, if_pos h]

theorem i32_neg {n : Nat} (hlow : 2 ^ 31 ≤ n) (hhigh : n < 2 ^ 32) : i32 n < 0 := by
  rw [i32, u32_of_lt hhigh, if_neg (by omega)]
  omega

/-- Different 32-bit values are different as `int`. -/
theorem i32_inj {a b : Nat} (ha : a < 2 ^ 32) (hb : b < 2 ^ 32) (h : i32 a = i32 b) : a = b := by
  simp only [i32, u32_of_lt ha, u32_of_lt hb] at h
  omega

/-- A mask of ones from bit `k` up to bit `w` clears the low `k` bits. -/
theorem and_highMask {x k w : Nat} (hx : x < 2 ^ w) (hk : k ≤ w) :
    x &&& (2 ^ w - 2 ^ k) = x / 2 ^ k * 2 ^ k := by
  have hmask : 2 ^ w - 2 ^ k = 2 ^ k * (2 ^ (w - k) - 1) := by
    rw [Nat.mul_sub, ← Nat.pow_add, add_sub_of_le hk, Nat.mul_one]
  apply eq_of_testBit_eq
  intro i
  rw [testBit_and, hmask, testBit_two_pow_mul, testBit_two_pow_sub_one,
    Nat.mul_comm (x / 2 ^ k), testBit_two_pow_mul, testBit_div_two_pow]
  by_cases hik : k ≤ i
  · have hsplit : k + (i - k) = i := add_sub_of_le hik
    by_cases hiw : i < w
    · have hlt : i - k < w - k := by omega
      simp [hik, hlt]
    · have hzero : x.testBit i = false :=
        testBit_lt_two_pow (Nat.lt_of_lt_of_le hx (Nat.pow_le_pow_right (by decide) (by omega)))
      simp [hik, hzero]
  · simp [hik]

end Hos
