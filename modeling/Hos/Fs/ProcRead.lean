import Hos.Lib.Word
import Mathlib.Data.List.Basic

/-!
# Reads of proc files

`__procr_read` and `procs_read` copy a part of a buffer that holds the content. A read is given
here by its value and the places that it copies. `__procr_read` clamps an unsigned difference,
so an offset behind the content gives what lies there.
-/

namespace Hos.ProcRead

open List

/-- `BUFSIZ`. -/
def bufsiz : Nat := 512

/-- The end of `__procr_read` for a content of `len` characters. -/
def procrRead (len : Nat) (offset : Int) (nbyte : Nat) : Int × List Int :=
  let bytesToRead := i32 (min ((len - offset) % 2 ^ 32).toNat nbyte)
  (bytesToRead, (range bytesToRead.toNat).map fun i : Nat => offset + i)

/-- The loop of `procs_read`. -/
def copyLoop (len nbyte it readPos : Nat) : List Int :=
  if it < nbyte ∧ readPos < len then readPos :: copyLoop len nbyte (it + 1) (readPos + 1) else []
termination_by len - readPos

/-- The end of `procs_read`. -/
def procsRead (len : Nat) (offset : Int) (nbyte : Nat) : Int × List Int :=
  let copied := copyLoop len nbyte 0 (offset % 2 ^ 32).toNat
  (copied.length, copied)

/-- The characters from `offset` on, as many as there are and are asked for. -/
def readSpec (len : Nat) (offset : Int) (nbyte : Nat) : Int × List Int :=
  let n := max 0 (min (len - offset) nbyte)
  (n, (range n.toNat).map fun i : Nat => offset + i)

/-- Both functions read what they ought to, and only characters of the content. -/
structure Agree (len : Nat) (offset : Int) (nbyte : Nat) : Prop where
  procr : procrRead len offset nbyte = readSpec len offset nbyte
  procs : procsRead len offset nbyte = readSpec len offset nbyte
  inside : ∀ place ∈ (readSpec len offset nbyte).2, 0 ≤ place ∧ place < len

variable {len nbyte : Nat} {offset : Int}

theorem copyLoop_eq (it readPos : Nat) :
    copyLoop len nbyte it readPos = (range (min (nbyte - it) (len - readPos))).map fun i : Nat =>
      (readPos + i : Int) := by
  fun_induction copyLoop len nbyte it readPos with
  | case1 it readPos hlt ih =>
    have hmin : min (nbyte - it) (len - readPos) = min (nbyte - (it + 1))
        (len - (readPos + 1)) + 1 := by omega
    rw [ih, hmin, range_succ_eq_map, map_cons, map_map]
    simp [add_right_comm, add_assoc]
  | case2 it readPos hge => simp [show min (nbyte - it) (len - readPos) = 0 by omega]

theorem reads_agree_iff (hlen : len < bufsiz) (hoffset : -2 ^ 31 ≤ offset ∧ offset < 2 ^ 31)
    (hnbyte : nbyte < 2 ^ 32) :
    Agree len offset nbyte ↔ nbyte = 0 ∨ 0 ≤ offset ∧ offset ≤ len := by
  rw [bufsiz] at hlen
  constructor
  · intro h
    by_contra hbad
    have hvalue := congrArg Prod.fst h.procr
    have hfirst := h.inside offset
    simp only [procrRead, readSpec, i32, u32, mem_map, mem_range] at hvalue hfirst
    rcases Int.lt_or_le offset 0 with hneg | hpos
    · exact absurd (hfirst ⟨0, by omega, by simp⟩).1 (by omega)
    · omega
  · rintro (rfl | ⟨hpos, hle⟩)
    · constructor <;> simp [procrRead, procsRead, readSpec, copyLoop_eq, i32, u32]
    · lift offset to Nat using hpos
      have hclamp : max 0 (min ((len : Int) - offset) nbyte) =
          (min (len - offset) nbyte : Nat) := by omega
      have hdiff : (((len : Int) - offset) % 2 ^ 32).toNat = len - offset := by omega
      have hplace : ((offset : Int) % 2 ^ 32).toNat = offset := by omega
      constructor
      · rw [procrRead, readSpec, hclamp, hdiff, i32_of_lt (by omega)]
      · rw [procsRead, readSpec, hclamp, hplace, copyLoop_eq, Nat.sub_zero, Nat.min_comm]
        simp only [length_map, length_range, Int.toNat_natCast]
      · intro place hplace
        rw [readSpec, hclamp] at hplace
        obtain ⟨i, hi, rfl⟩ := mem_map.mp hplace
        have := mem_range.mp hi
        omega

theorem reads_agree_hello : Agree 5 1 3 := (reads_agree_iff (by decide) (by decide) (by decide)).mpr
    (by decide)

/-- Behind a content of five characters one function returns four and the other nothing. -/
theorem read_behind_content : procrRead 5 10 4 = (4, [10, 11, 12, 13]) ∧
    procsRead 5 10 4 = (0, []) ∧ ¬Agree 5 10 4 :=
  ⟨by decide, by simp [procsRead, copyLoop], fun h => absurd h.procr (by decide)⟩

end Hos.ProcRead
