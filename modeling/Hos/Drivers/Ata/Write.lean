import Hos.Drivers.Ata.Read

/-!
# Which writes are right

A write is right when it returns the number of bytes up to the end of the disk
and the bytes of the buffer are what changes on the disk. Since the last sector
is computed before the request is cut at the end of the disk, a request across
the end writes to sectors behind it, and no such request is right.
-/

namespace Hos.Ata

open Bytes

section

variable {disk support mem : Bytes} {b : Nat}

/-- Reading a sector, changing a part of it and writing it back changes the part. -/
theorem writeSector_readSector {a start count : Nat} (h : start + count ≤ sectorSize) :
    writeSector disk ((readSector disk support b 0).blit start mem a count) b 0 =
      disk.blit (b * sectorSize + start) mem a count := by
  funext y
  simp only [writeSector, readSector, blit]
  by_cases hsector : b * sectorSize ≤ y ∧ y < b * sectorSize + sectorSize
  · rw [if_pos hsector]
    by_cases hpart : b * sectorSize + start ≤ y ∧ y < b * sectorSize + start + count
    · rw [if_pos (by omega), if_pos hpart]
      exact congrArg mem (by omega)
    · rw [if_neg (by omega), if_neg hpart, if_pos (by omega)]
      exact congrArg disk (by omega)
  · rw [if_neg hsector, if_neg (by omega)]

theorem copies_write (mem support : Bytes) (buffer : Nat) :
    Copies (writeSteps mem support buffer) buffer fun d a n disk => disk.blit d mem a n where
  zero _ _ _ := blit_zero
  append _ _ _ _ _ := blit_blit
  pieces _ _ _ _ _ _ := blit_pieces
  head _ _ _ _ h := writeSector_readSector h
  tail _ _ _ _ h := by
    simp only [writeSteps]
    rw [writeSector_readSector (by omega), Nat.add_zero]
  whole _ _ _ := rfl

theorem marks_write :
    Marks (writeSteps (fun _ => 1) (fun _ => 0) 0) (fun d a n disk => disk.blit d (fun _ => 1) a n)
      fun d _ => d where
  toCopies := copies_write _ _ 0
  mark _ _ _ _ _ := rfl

end

variable {dev : Device} {off size : Nat}

/-- A right write: it returns, for every content of disk and memory and for every
buffer, the number of bytes up to the end of the disk, and the disk changes in
these bytes only, to those of the buffer. -/
def WritesRange (dev : Device) (off size : Nat) : Prop :=
  ∀ (disk support mem : Bytes) (buffer : Nat), buffer + size ≤ 2 ^ 32 →
    ∃ ret disk', write dev disk support mem buffer off size = some (ret, disk') ∧
      ret = i32 (available dev.maxOffset off size) ∧
      disk' = disk.blit off mem buffer (available dev.maxOffset off size)

/-- The requests that are written right. -/
def Writable (maxOffset off size : Nat) : Prop :=
  Exact maxOffset off size ∨ maxOffset < off

section

variable (hdisk : dev.IsDisk)
include hdisk

theorem Exact.writes (hoff : off < 2 ^ 31)
    (h : Exact dev.maxOffset off size) : WritesRange dev off size := by
  intro disk support mem buffer hfit
  rw [write, access_disk hdisk, h.available_eq,
    h.transfer_eq (copies_write mem support buffer) dev.maxOffset_lt hoff hfit]
  simp

theorem writes_past (hoff : off < 2 ^ 31) (h : dev.maxOffset < off) : WritesRange dev off size := by
  intro disk support mem buffer _
  rw [write, access_disk hdisk, transfer_eq hoff dev.maxOffset_lt, if_pos h, available_of_past h,
    blit_zero]
  exact ⟨_, _, rfl, rfl, rfl⟩

/-- A right write of ones to a disk full of zeros, from address zero, leaves ones
in the bytes it is to fill and nowhere else. -/
theorem WritesRange.ones (hsize : size < 2 ^ 32) (h : WritesRange dev off size) :
    ∃ ret disk', transfer (writeSteps (fun _ => 1) (fun _ => 0) 0) dev.maxOffset off size
        (fun _ => 0) = some (ret, disk') ∧
      ret = i32 (available dev.maxOffset off size) ∧
      ∀ x, disk' x = if off ≤ x ∧ x < off + available dev.maxOffset off size then 1 else 0 := by
  obtain ⟨ret, disk', hrun, hret, hdisk'⟩ := h (fun _ => 0) (fun _ => 0) (fun _ => 1) 0 (by omega)
  rw [write, access_disk hdisk] at hrun
  refine ⟨ret, disk', hrun, hret, fun x => ?_⟩
  rw [hdisk', blit]

theorem WritesRange.fills (hsize : size < 2 ^ 32) (h : WritesRange dev off size) :
    Fills (writeSteps (fun _ => 1) (fun _ => 0) 0) (fun d _ => d) dev.maxOffset off size := by
  obtain ⟨ret, disk', hrun, hret, hdisk'⟩ := h.ones hdisk hsize
  exact ⟨ret, disk', hrun, fun _ => hret, hdisk'⟩

/-- No request whose end wraps around is right. -/
theorem not_writes_wrap (hoff : off < 2 ^ 31) (hsize : size < 2 ^ 32)
    (hle : off ≤ dev.maxOffset) (hstop : 2 ^ 32 < off + size) : ¬WritesRange dev off size := by
  intro h
  obtain ⟨ret, disk', hrun, hret, hdisk'⟩ := h.ones hdisk hsize
  rw [transfer_wrap hoff dev.maxOffset_lt hle hsize hstop, marks_write.afterHead_eq] at hrun
  cases hrun
  have hcount := i32_inj hsize (available_lt _ _ hsize) hret
  have hfirst := firstSize_lt off
  have hlast := hdisk' (off + size - 1)
  rw [if_pos (by omega), blit_of_notMem (by simp only [sectorSize] at hfirst; omega)] at hlast
  cases hlast

end

theorem writeResult_one_of_whole (maxOffset off size x : Nat)
    (hlow : firstBlock off * sectorSize ≤ x) (hhigh : x < (off + size) / sectorSize * sectorSize) :
    copyResult (fun d a n disk => disk.blit d (fun _ => 1) a n) maxOffset off size 0
      (fun _ => 0) x = 1 := by
  have hlen := Nat.mul_sub_right_distrib ((off + size) / sectorSize) (firstBlock off) sectorSize
  rw [copyResult, blit_of_mem hlow (by omega)]

/-- A right request of some bytes is exact. -/
theorem exact_of_writes (hdisk : dev.IsDisk) (hoff : off < 2 ^ 31) (hsize : size < 2 ^ 32)
    (hle : off ≤ dev.maxOffset) (hpos : 0 < size) (hstop : off + size ≤ 2 ^ 32)
    (h : WritesRange dev off size) : Exact dev.maxOffset off size := by
  have hfills := h.fills hdisk hsize
  have hmax := dev.maxOffset_lt
  refine hfills.inside marks_write hmax hoff hsize hle hpos ?_
  by_contra hout
  obtain ⟨-, -, hdisk'⟩ := hfills.within marks_write hmax hoff hsize hle hpos hstop
  have hmod := dev.maxOffset_mod
  -- A byte behind the end of the disk is written.
  have hclean : ∀ x, dev.maxOffset ≤ x → copyResult (fun d a n disk => disk.blit d (fun _ => 1) a n)
      dev.maxOffset off size 0 (fun _ => 0) x = 0 := by
    intro x hx
    rw [hdisk', available, if_neg (by omega)]
  by_cases hpost : (off + size) % sectorSize = 0
  · have hone := writeResult_one_of_whole dev.maxOffset off size dev.maxOffset
      (by simp only [firstBlock, sectorSize] at *; omega)
      (by simp only [sectorSize] at *; omega)
    rw [hclean _ (Nat.le_refl _)] at hone
    cases hone
  · have hblock : firstBlock off ≤ (off + size) / sectorSize := by
      simp only [firstBlock, sectorSize] at *
      omega
    have hbehind : dev.maxOffset ≤ (off + size) / sectorSize * sectorSize := by
      simp only [sectorSize] at *
      omega
    have hone := hclean _ hbehind ▸ marks_write.one_of_tail hpost hblock
    cases hone

/-- Which writes of a hard disk are right. -/
theorem writes_iff_writable (hdisk : dev.IsDisk) (hoff : off < 2 ^ 31) (hsize : size < 2 ^ 32) :
    WritesRange dev off size ↔ Writable dev.maxOffset off size := by
  constructor
  · intro h
    by_cases hpast : dev.maxOffset < off
    · exact .inr hpast
    have hle := Nat.not_lt.mp hpast
    by_cases hpos : 0 < size
    · by_cases hstop : off + size ≤ 2 ^ 32
      · exact .inl (exact_of_writes hdisk hoff hsize hle hpos hstop h)
      · exact absurd h (not_writes_wrap hdisk hoff hsize hle (Nat.not_le.mp hstop))
    · obtain rfl : size = 0 := Nat.eq_zero_of_not_pos hpos
      exact .inl ((h.fills hdisk hsize).exact_of_empty marks_write dev.maxOffset_lt hoff hle)
  · rintro (hexact | hpast)
    · exact hexact.writes hdisk hoff
    · exact writes_past hdisk hoff hpast

/-- A write across two sectors is right. -/
theorem writes_smallDisk_across_sectors :
    Exact smallDisk.maxOffset 500 100 ∧ WritesRange smallDisk 500 100 := by
  have hexact : Exact smallDisk.maxOffset 500 100 := by
    constructor <;> decide
  exact ⟨hexact, (writes_iff_writable (.inl rfl) (by decide) (by decide)).mpr (.inl hexact)⟩

/-- A write of ten bytes into the second sector replaces the rest of the sector:
byte 622 is not one of the ten and is changed. -/
theorem write_inside_sector :
    ∃ ret disk', write smallDisk (fun _ => 0) (fun _ => 0) (fun _ => 1) 0xD0001000 612 10 =
        some (ret, disk') ∧ disk' 622 = 1 := by
  have hfit : 0xD0001000 + firstSize 612 +
      ((612 + 10) / sectorSize - firstBlock 612) * sectorSize ≤ 2 ^ 32 := by decide
  have hrun : transfer (writeSteps (fun _ => 1) (fun _ => 0) 0xD0001000) smallDisk.maxOffset
      (612 : Nat) 10 (fun _ => 0) = _ :=
    (copies_write _ _ _).transfer_eq_result (by decide) (by decide) (by decide) (by decide)
      (by decide) (by decide) hfit
  exact ⟨_, _, hrun, by decide⟩

end Hos.Ata
