import Hos.Drivers.Ata.Transfer

/-!
# A transfer as copies

The steps of a read and of a write copy bytes between the disk and a buffer, the
one into the memory and the other onto the disk. What is true of both is proved
here for any such copy: which bytes a transfer that returns has copied, and what
follows when the bytes it was to copy are the only ones that change.
-/

namespace Hos.Ata

open Nat

section

variable {dev : Device} {maxOffset off size : Nat}

/-- The requests whose sectors are covered exactly: they lie on the disk, are not
confined to the inside of one sector unless they end with it, and do not end in
the first sector when they start at zero. -/
structure Exact (maxOffset off size : Nat) : Prop where
  stop : off + size ≤ maxOffset
  zero : off = 0 → sectorSize ≤ size
  inside : sectorSize ∣ off ∨ sectorSize ≤ off % sectorSize + size

/-- The number of bytes up to the end of the disk. -/
def available (maxOffset off size : Nat) : Nat := min size (maxOffset - off)

theorem available_lt (maxOffset off : Nat) (hsize : size < 2 ^ 32) :
    available maxOffset off size < 2 ^ 32 :=
  lt_of_le_of_lt (min_le_left _ _) hsize

theorem Exact.clamped_eq (h : Exact maxOffset off size) (hmax : maxOffset < 2 ^ 32) :
    clamped maxOffset off size = size := by
  rw [clamped, u32_of_lt (lt_of_le_of_lt h.stop hmax), if_neg (not_lt.mpr h.stop)]

theorem Exact.available_eq (h : Exact maxOffset off size) :
    available maxOffset off size = size := by
  have hstop := h.stop
  rw [available]
  omega

theorem available_of_past (h : maxOffset < off) : available maxOffset off size = 0 := by
  rw [available]
  omega

theorem Device.maxOffset_lt (dev : Device) : dev.maxOffset < 2 ^ 32 := by
  rw [maxOffset]
  split <;> exact u32_lt _

theorem Device.maxOffset_mod (dev : Device) : dev.maxOffset % sectorSize = 0 := by
  rw [maxOffset]
  split <;> simp only [sectorSize, u32] <;> omega

/-- A device whose sectors can be accessed. -/
def Device.IsDisk (dev : Device) : Prop := dev.type = .pata ∨ dev.type = .sata

theorem access_disk {σ : Type} (hdisk : dev.IsDisk) {steps : Steps σ} {offset : Int} {s : σ} :
    access dev steps offset size s = transfer steps dev.maxOffset offset size s := by
  rw [access]
  rcases hdisk with h | h <;> rw [h]

theorem firstBlock_mul (off : Nat) : firstBlock off * sectorSize = off + firstSize off := by
  simp only [firstSize, firstBlock, sectorSize]
  omega

theorem firstSize_lt (off : Nat) : firstSize off < sectorSize := by
  simp only [firstSize, firstBlock, sectorSize]
  omega

/-- The whole sectors end where the last sector starts. -/
theorem firstSize_add_wholes {stop : Nat} (h : firstBlock off ≤ stop / sectorSize) :
    firstSize off + (stop / sectorSize - firstBlock off) * sectorSize =
      stop / sectorSize * sectorSize - off := by
  have hfirst := firstBlock_mul off
  have hle := mul_le_mul_right sectorSize h
  rw [Nat.mul_sub_right_distrib]
  omega

/-- A request that is not confined to the inside of a sector reaches the first
whole sector. -/
theorem firstBlock_le (hinside : sectorSize ∣ off ∨ sectorSize ≤ off % sectorSize + size) :
    firstBlock off ≤ (off + size) / sectorSize := by
  simp only [firstBlock, sectorSize] at *
  omega

/-- The pieces of an exact request: the first sector, `len` bytes of whole sectors
and the last sector follow each other on the disk and in the buffer. -/
theorem exact_pieces {buffer : Nat} (hfit : buffer + size ≤ 2 ^ 32)
    (hinside : sectorSize ∣ off ∨ sectorSize ≤ off % sectorSize + size) :
    ∃ len, ((off + size) / sectorSize - firstBlock off) * sectorSize = len ∧
      (off + size) / sectorSize * sectorSize = off + firstSize off + len ∧
      firstSize off + len + (off + size) % sectorSize = size ∧ ((off + size) % sectorSize ≠ 0 →
        sub32 (u32 (buffer + size)) ((off + size) % sectorSize) =
          buffer + firstSize off + len) := by
  have hblock := firstBlock_le hinside
  have hwhole := firstSize_add_wholes hblock
  have hstop := div_add_mod (off + size) sectorSize
  rw [mul_comm] at hstop
  have hle : off + firstSize off ≤ (off + size) / sectorSize * sectorSize := by
    rw [← firstBlock_mul]
    exact mul_le_mul_right _ hblock
  refine ⟨_, rfl, by omega, by omega, fun hpost => ?_⟩
  rw [sub32, u32]
  omega

end

section

/-- Steps that copy: `copy d a n` moves the `n` bytes at `d` of the disk and at `a`
of the memory in one direction. -/
structure Copies (steps : Steps Bytes) (buffer : Nat) (copy : Nat → Nat → Nat → Bytes → Bytes) :
    Prop where
  zero : ∀ d a s, copy d a 0 s = s
  append : ∀ d a n k s, copy (d + n) (a + n) k (copy d a n s) = copy d a (n + k) s
  /-- The last piece may be copied before the one in the middle. -/
  pieces : ∀ d a n len k s,
    copy (d + n) (a + n) len (copy (d + n + len) (a + n + len) k (copy d a n s)) =
      copy d a (n + len + k) s
  head : ∀ block start n s, start + n ≤ sectorSize →
    steps.head block start n s = copy (block * sectorSize + start) buffer n s
  tail : ∀ block size n s, n ≤ sectorSize →
    steps.tail block size n s = copy (block * sectorSize) (sub32 (u32 (buffer + size)) n) n s
  whole : ∀ block x s,
    steps.whole block x s = copy (block * sectorSize) (u32 (buffer + x)) sectorSize s

variable {steps : Steps Bytes} {copy : Nat → Nat → Nat → Bytes → Bytes} {s : Bytes}
  {buffer maxOffset off size n b x : Nat}

theorem Copies.wholes_eq (h : Copies steps buffer copy)
    (hfit : buffer + x + n * sectorSize ≤ 2 ^ 32) :
    wholes steps n b x s = copy (b * sectorSize) (buffer + x) (n * sectorSize) s := by
  induction n generalizing b x s with
  | zero => rw [zero_mul, h.zero, wholes]
  | succ n ih =>
    have hpointer : u32 (buffer + x) = buffer + x := by
      apply u32_of_lt
      simp only [sectorSize] at hfit
      omega
    rw [succ_mul] at hfit
    rw [wholes, ih (by omega), h.whole, hpointer, ← add_assoc, succ_mul, h.append,
      succ_mul, add_comm sectorSize]

theorem Copies.afterHead_eq (h : Copies steps buffer copy) :
    afterHead steps off s = copy off buffer (firstSize off) s := by
  rw [afterHead]
  split
  · have hoff : off / sectorSize * sectorSize + off % sectorSize = off := by
      rw [mul_comm]
      exact div_add_mod off sectorSize
    rw [h.head, hoff]
    simp only [firstSize, firstBlock, sectorSize] at *
    omega
  · have hzero : firstSize off = 0 := by
      simp only [firstSize, firstBlock, sectorSize] at *
      omega
    rw [hzero, h.zero]

/-- What is copied with the partial sectors. -/
def copyParts (copy : Nat → Nat → Nat → Bytes → Bytes) (maxOffset off size buffer : Nat)
    (s : Bytes) : Bytes :=
  let head := copy off buffer (firstSize off) s
  if (off + size) % sectorSize ≠ 0 ∧ firstBlock off ≤ (off + size) / sectorSize then
    copy ((off + size) / sectorSize * sectorSize)
      (sub32 (u32 (buffer + clamped maxOffset off size)) ((off + size) % sectorSize))
      ((off + size) % sectorSize) head
  else head

/-- What a transfer of some bytes copies that returns and does not wrap around. -/
def copyResult (copy : Nat → Nat → Nat → Bytes → Bytes) (maxOffset off size buffer : Nat)
    (s : Bytes) : Bytes :=
  copy (firstBlock off * sectorSize) (buffer + firstSize off)
    (((off + size) / sectorSize - firstBlock off) * sectorSize)
    (copyParts copy maxOffset off size buffer s)

theorem Copies.transfer_eq_result (h : Copies steps buffer copy) (hoff : off < 2 ^ 31)
    (hmax : maxOffset < 2 ^ 32) (hle : off ≤ maxOffset) (hpos : 0 < size)
    (hstop : off + size ≤ 2 ^ 32) (hfirst : off = 0 → sectorSize ≤ size)
    (hfit : buffer + firstSize off + ((off + size) / sectorSize - firstBlock off) * sectorSize ≤
      2 ^ 32) :
    transfer steps maxOffset off size s =
      some (i32 (clamped maxOffset off size), copyResult copy maxOffset off size buffer s) := by
  have hpost : (off + size) % sectorSize ≤ sectorSize := le_of_lt (mod_lt _ (by decide))
  rw [transfer_within hoff hmax hle hpos hstop hfirst, h.wholes_eq hfit, afterTail, h.afterHead_eq,
    h.tail _ _ _ _ hpost]
  rfl

/-- The pieces of an exact request are its bytes. -/
theorem Copies.result_exact (h : Copies steps buffer copy)
    (hclamp : clamped maxOffset off size = size) (hfit : buffer + size ≤ 2 ^ 32)
    (hinside : sectorSize ∣ off ∨ sectorSize ≤ off % sectorSize + size) :
    copyResult copy maxOffset off size buffer s = copy off buffer size s := by
  obtain ⟨len, hlen, hlast, hsize, hpointer⟩ := exact_pieces hfit hinside
  rw [copyResult, copyParts, hclamp, firstBlock_mul, hlen]
  by_cases hpost : (off + size) % sectorSize = 0
  · rw [hpost, add_zero] at hsize
    rw [if_neg (by simp [hpost]), h.append, hsize]
  · rw [if_pos ⟨hpost, firstBlock_le hinside⟩, hpointer hpost, hlast, h.pieces, hsize]

theorem Exact.transfer_eq (h : Exact maxOffset off size) (hcopies : Copies steps buffer copy)
    (hmax : maxOffset < 2 ^ 32) (hoff : off < 2 ^ 31) (hfit : buffer + size ≤ 2 ^ 32) :
    transfer steps maxOffset off size s = some (i32 size, copy off buffer size s) := by
  have hle : off ≤ maxOffset := le_trans (le_add_right _ _) h.stop
  by_cases hpos : 0 < size
  · have hstop : off + size ≤ 2 ^ 32 := le_of_lt (lt_of_le_of_lt h.stop hmax)
    have hwhole := firstSize_add_wholes (firstBlock_le h.inside)
    have hdiv := div_mul_le_self (off + size) sectorSize
    have hclamped := h.clamped_eq hmax
    rw [hcopies.transfer_eq_result hoff hmax hle hpos hstop h.zero (by omega), hclamped,
      hcopies.result_exact hclamped hfit h.inside]
  · obtain rfl : size = 0 := Nat.eq_zero_of_not_pos hpos
    have hzero : off ≠ 0 := fun heq => absurd (h.zero heq) (by decide)
    have hfirst : firstSize off = 0 := by
      have hinside := h.inside
      simp only [firstSize, firstBlock, sectorSize] at *
      omega
    rw [transfer_empty hoff hmax hle hzero, hcopies.afterHead_eq, hfirst]
    rfl

end

/-- Steps that copy ones to or from address zero: the bytes that were copied are
those at `place`. -/
structure Marks (steps : Steps Bytes) (copy : Nat → Nat → Nat → Bytes → Bytes)
    (place : Nat → Nat → Nat) : Prop extends Copies steps 0 copy where
  mark : ∀ d a n s x, copy d a n s x = if place d a ≤ x ∧ x < place d a + n then 1 else s x

/-- The bytes up to the end of the disk, and only these, are copied, and their number
is returned when there are some. -/
def Fills (steps : Steps Bytes) (place : Nat → Nat → Nat) (maxOffset off size : Nat) : Prop :=
  ∃ ret s', transfer steps maxOffset off size (fun _ => 0) = some (ret, s') ∧
    (off < maxOffset → ret = i32 (available maxOffset off size)) ∧
    ∀ x, s' x =
      if place off 0 ≤ x ∧ x < place off 0 + available maxOffset off size then 1 else 0

variable {steps : Steps Bytes} {copy : Nat → Nat → Nat → Bytes → Bytes} {s : Bytes}
  {place : Nat → Nat → Nat} {maxOffset off size d a n x : Nat}

section

variable (h : Marks steps copy place)
include h

theorem Marks.mark_of_mem (hlow : place d a ≤ x)
    (hhigh : x < place d a + n) : copy d a n s x = 1 := by
  rw [h.mark, if_pos ⟨hlow, hhigh⟩]

/-- Whatever the order of the copies, a byte in the range of one of them is one. -/
theorem Marks.mark_one (hone : s x = 1) : copy d a n s x = 1 := by
  rw [h.mark, hone, ite_self]

theorem Marks.one_of_head (hlow : place off 0 ≤ x)
    (hhigh : x < place off 0 + firstSize off) : copyResult copy maxOffset off size 0 s x = 1 := by
  apply h.mark_one
  rw [copyParts]
  split
  · exact h.mark_one (h.mark_of_mem hlow hhigh)
  · exact h.mark_of_mem hlow hhigh

theorem Marks.one_of_tail (hpost : (off + size) % sectorSize ≠ 0)
    (hblock : firstBlock off ≤ (off + size) / sectorSize) :
    copyResult copy maxOffset off size 0 s (place ((off + size) / sectorSize * sectorSize)
      (sub32 (u32 (0 + clamped maxOffset off size)) ((off + size) % sectorSize))) = 1 := by
  apply h.mark_one
  rw [copyParts, if_pos ⟨hpost, hblock⟩]
  exact h.mark_of_mem (le_refl _) (by omega)

end

section

variable (hmarks : Marks steps copy place) (hmax : maxOffset < 2 ^ 32) (hoff : off < 2 ^ 31)
include hmarks hmax hoff

section

variable (hsize : size < 2 ^ 32) (hle : off ≤ maxOffset) (hpos : 0 < size)
include hsize hle hpos

/-- What a transfer of some bytes says about the copies. -/
theorem Fills.within (hstop : off + size ≤ 2 ^ 32) (h : Fills steps place maxOffset off size) :
    (off = 0 → sectorSize ≤ size) ∧
      (off < maxOffset → clamped maxOffset off size = available maxOffset off size) ∧
      ∀ x, copyResult copy maxOffset off size 0 (fun _ => 0) x =
        if place off 0 ≤ x ∧ x < place off 0 + available maxOffset off size then 1 else 0 := by
  obtain ⟨ret, s', hrun, hret, hs'⟩ := h
  have hzero : off = 0 → sectorSize ≤ size := by
    rintro rfl
    by_contra hsmall
    rw [transfer_none hmax hpos (not_le.mp hsmall)] at hrun
    cases hrun
  have hfit : 0 + firstSize off + ((off + size) / sectorSize - firstBlock off) * sectorSize ≤
      2 ^ 32 := by
    simp only [firstSize, firstBlock, sectorSize]
    omega
  rw [hmarks.transfer_eq_result hoff hmax hle hpos hstop hzero hfit] at hrun
  cases hrun
  refine ⟨hzero, fun hlt => i32_inj ?_ (available_lt _ _ hsize) (hret hlt), hs'⟩
  rw [clamped]
  split <;> omega

/-- A right request on the disk is not confined to the inside of a sector. -/
theorem Fills.inside (hstop : off + size ≤ maxOffset) (h : Fills steps place maxOffset off size) :
    Exact maxOffset off size := by
  obtain ⟨hzero, -, hresult⟩ := h.within hmarks hmax hoff hsize hle hpos (by omega)
  refine ⟨hstop, hzero, ?_⟩
  by_contra hinside
  have hfirst : size < firstSize off := by
    simp only [firstSize, firstBlock, sectorSize] at *
    omega
  have havailable : available maxOffset off size ≤ size := min_le_left _ _
  have hnext := hresult (place off 0 + size)
  rw [hmarks.one_of_head (le_add_right _ _) (by omega), if_neg (by omega)] at hnext
  cases hnext

end

/-- A request of no bytes is right only at a sector other than the first. -/
theorem Fills.exact_of_empty (hle : off ≤ maxOffset) (h : Fills steps place maxOffset off 0) :
    Exact maxOffset off 0 := by
  obtain ⟨ret, s', hrun, -, hs'⟩ := h
  have hnone : s' (place off 0) = 0 := by
    rw [hs', available, zero_min, if_neg (by omega)]
  have hzero : off ≠ 0 := by
    rintro rfl
    rw [transfer_empty_zero hmax, hmarks.wholes_eq (by decide)] at hrun
    cases hrun
    rw [Nat.zero_mul, hmarks.mark_of_mem (Nat.le_refl _) (Nat.lt_add_of_pos_right (by decide))]
      at hnone
    cases hnone
  refine ⟨hle, fun heq => absurd heq hzero, .inl ?_⟩
  by_contra hpart
  have hfirst : 0 < firstSize off := by
    simp only [firstSize, firstBlock, sectorSize] at *
    omega
  rw [transfer_empty hoff hmax hle hzero, hmarks.afterHead_eq] at hrun
  cases hrun
  rw [hmarks.mark_of_mem (le_refl _) (by omega)] at hnone
  cases hnone

end

end Hos.Ata
