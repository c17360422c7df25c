import Hos.Drivers.Ata.Copy

/-!
# Which reads are right

A read is right when it returns the number of bytes up to the end of the disk,
puts exactly those bytes into the buffer and touches no other memory, whatever
the disk and the memory hold. The requests for which this is the case can be
told from the size of the disk, the offset and the size alone.
-/

namespace Hos.Ata

open Bytes Nat

section

/-- The requests across the end of the disk that end in the sector behind it,
with a whole sector in front of the end if they start inside a sector. -/
structure Across (maxOffset off size : Nat) : Prop where
  start : off < maxOffset
  stop : maxOffset < off + size
  near : off + size < maxOffset + sectorSize
  room : sectorSize ∣ off ∨ off / sectorSize + 2 ≤ maxOffset / sectorSize

/-- The requests at the end of the disk whose end wraps around; the size that is
returned for them is negative. -/
def AtEnd (maxOffset off size : Nat) : Prop := off = maxOffset ∧ 2 ^ 32 < off + size

end

section

variable {disk support mem : Bytes} {buffer off size n b : Nat}

theorem blit_readSector {a start count : Nat} (h : start + count ≤ sectorSize) :
    mem.blit a (readSector disk support b 0) start count =
      mem.blit a disk (b * sectorSize + start) count := by
  funext y
  simp only [blit, readSector]
  by_cases hy : a ≤ y ∧ y < a + count
  · rw [if_pos hy, if_pos hy, if_pos (by omega)]
    exact congrArg disk (by omega)
  · rw [if_neg hy, if_neg hy]

theorem copies_read (disk support : Bytes) (buffer : Nat) :
    Copies (readSteps disk support buffer) buffer fun d a n mem => mem.blit a disk d n where
  zero _ _ _ := blit_zero
  append _ _ _ _ _ := blit_blit
  pieces _ _ _ _ _ _ := blit_pieces
  head _ _ _ _ h := blit_readSector h
  tail _ _ _ _ h := by
    simp only [readSteps]
    rw [blit_readSector (by omega), add_zero]
  whole _ _ _ := rfl

theorem marks_read :
    Marks (readSteps (fun _ => 1) (fun _ => 0) 0) (fun d a n mem => mem.blit a (fun _ => 1) d n)
      fun _ a => a where
  toCopies := copies_read _ _ 0
  mark _ _ _ _ _ := rfl

/-- A request across the end of the disk gets the bytes up to the end: what the
last sector put into the buffer is overwritten. -/
theorem copyResult_across {maxOffset : Nat} (hmax : maxOffset < 2 ^ 32)
    (hmod : maxOffset % sectorSize = 0) (across : Across maxOffset off size)
    (hfit : buffer + size ≤ 2 ^ 32) :
    copyResult (fun d a n mem => mem.blit a disk d n) maxOffset off size buffer mem =
      mem.blit buffer disk off (maxOffset - off) := by
  obtain ⟨hstart, hstop, hnear, hroom⟩ := across
  have hlast : (off + size) / sectorSize * sectorSize = maxOffset := by
    simp only [sectorSize] at *
    omega
  have hpost : (off + size) % sectorSize = off + size - maxOffset := by
    simp only [sectorSize] at *
    omega
  -- The whole sectors are at least one, so they cover the bytes of the last sector.
  have hblock : firstBlock off + 1 ≤ (off + size) / sectorSize := by
    simp only [firstBlock, sectorSize] at *
    omega
  have hclamp : clamped maxOffset off size = maxOffset - off := by
    have hwrap : u32 (off + size) = off + size := by
      apply u32_of_lt
      simp only [sectorSize] at *
      omega
    rw [clamped, hwrap, if_pos hstop]
  have hwhole := firstSize_add_wholes (le_of_succ_le hblock)
  rw [hlast] at hwhole
  have hlen : sectorSize ≤ ((off + size) / sectorSize - firstBlock off) * sectorSize :=
    Nat.le_mul_of_pos_left _ (by omega)
  have hpointer : sub32 (u32 (buffer + (maxOffset - off))) (off + size - maxOffset) =
      buffer + (maxOffset - off) - (off + size - maxOffset) := by
    rw [u32_of_lt (by omega), sub32_of_le (by omega) (by omega)]
  rw [copyResult, copyParts, if_pos ⟨by omega, le_of_succ_le hblock⟩, hclamp, hpost, hpointer,
    firstBlock_mul, blit_absorb (by omega) (by omega), blit_blit, hwhole]

end

variable {dev : Device} {off size : Nat}

/-- A right read: it returns, for every content of disk and memory and for every
buffer, the number of bytes up to the end of the disk (zero or an error at the
end and behind it), and these bytes are what changes. -/
def ReadsRange (dev : Device) (off size : Nat) : Prop :=
  ∀ (disk support mem : Bytes) (buffer : Nat), buffer + size ≤ 2 ^ 32 →
    ∃ ret mem', read dev disk support mem buffer off size = some (ret, mem') ∧
      (if dev.maxOffset ≤ off then ret ≤ 0
        else ret = i32 (available dev.maxOffset off size)) ∧
      mem' = mem.blit buffer disk off (available dev.maxOffset off size)

/-- The requests that are read right. -/
def Readable (maxOffset off size : Nat) : Prop :=
  Exact maxOffset off size ∨ maxOffset < off ∨ Across maxOffset off size ∨ AtEnd maxOffset off size

section

variable (hdisk : dev.IsDisk) (hoff : off < 2 ^ 31)
include hdisk hoff

theorem Exact.reads (h : Exact dev.maxOffset off size) : ReadsRange dev off size := by
  intro disk support mem buffer hfit
  rw [read, access_disk hdisk, h.available_eq,
    h.transfer_eq (copies_read disk support buffer) dev.maxOffset_lt hoff hfit]
  refine ⟨_, _, rfl, ?_, rfl⟩
  split
  · have hstop := h.stop
    obtain rfl : size = 0 := by omega
    decide
  · rfl

theorem reads_past (h : dev.maxOffset < off) : ReadsRange dev off size := by
  intro disk support mem buffer _
  rw [read, access_disk hdisk, transfer_eq hoff dev.maxOffset_lt, if_pos h, available_of_past h,
    blit_zero]
  exact ⟨_, _, rfl, by rw [if_pos (le_of_lt h)], rfl⟩

theorem Across.reads (h : Across dev.maxOffset off size) : ReadsRange dev off size := by
  intro disk support mem buffer hfit
  have hmod := dev.maxOffset_mod
  have hmax := dev.maxOffset_lt
  obtain ⟨hstart, hstop, hnear, -⟩ := id h
  have hwrap : off + size < 2 ^ 32 := by
    simp only [sectorSize] at *
    omega
  have hzero : off = 0 → sectorSize ≤ size := by
    simp only [sectorSize] at *
    omega
  have hclamp : clamped dev.maxOffset off size = dev.maxOffset - off := by
    rw [clamped, u32_of_lt hwrap, if_pos hstop]
  have havailable : available dev.maxOffset off size = dev.maxOffset - off := by
    rw [available]
    omega
  have hblock : firstBlock off ≤ (off + size) / sectorSize := by
    simp only [firstBlock, sectorSize] at *
    omega
  have hwhole := firstSize_add_wholes hblock
  have hdiv := div_mul_le_self (off + size) sectorSize
  rw [read, access_disk hdisk, (copies_read disk support buffer).transfer_eq_result
    hoff hmax (le_of_lt hstart) (by omega) (le_of_lt hwrap) hzero (by omega),
    copyResult_across hmax hmod h hfit, hclamp, havailable]
  refine ⟨_, _, rfl, ?_, rfl⟩
  rw [if_neg (not_le.mpr hstart)]

theorem AtEnd.reads (hsize : size < 2 ^ 32) (h : AtEnd dev.maxOffset off size) :
    ReadsRange dev off size := by
  intro disk support mem buffer _
  obtain ⟨rfl, hstop⟩ := h
  have hmod := dev.maxOffset_mod
  have hnone : available dev.maxOffset dev.maxOffset size = 0 := by
    rw [available, Nat.sub_self, Nat.min_zero]
  have hfirst : firstSize dev.maxOffset = 0 := by
    simp only [firstSize, firstBlock, sectorSize] at *
    omega
  rw [read, access_disk hdisk, transfer_wrap hoff dev.maxOffset_lt (le_refl _) hsize hstop,
    (copies_read disk support buffer).afterHead_eq, hfirst, hnone]
  refine ⟨_, _, rfl, ?_, rfl⟩
  rw [if_pos (le_refl _)]
  exact Int.le_of_lt (i32_neg (by omega) hsize)

end

/-- A right read of a disk full of ones into a memory full of zeros, at address
zero, leaves ones in the bytes it is to fill and nowhere else. -/
theorem ReadsRange.fills (hdisk : dev.IsDisk) (hsize : size < 2 ^ 32)
    (h : ReadsRange dev off size) :
    Fills (readSteps (fun _ => 1) (fun _ => 0) 0) (fun _ a => a) dev.maxOffset off size := by
  obtain ⟨ret, mem', hrun, hret, hmem⟩ := h (fun _ => 1) (fun _ => 0) (fun _ => 0) 0 (by omega)
  rw [read, access_disk hdisk] at hrun
  refine ⟨ret, mem', hrun, fun hlt => ?_, fun x => ?_⟩
  · rwa [if_neg (not_le.mpr hlt)] at hret
  · rw [hmem, blit]

/-- A request whose end wraps around is right only at the end of the disk. -/
theorem atEnd_of_reads_wrap (hdisk : dev.IsDisk) (hoff : off < 2 ^ 31) (hsize : size < 2 ^ 32)
    (hle : off ≤ dev.maxOffset) (hstop : 2 ^ 32 < off + size) (h : ReadsRange dev off size) :
    AtEnd dev.maxOffset off size := by
  obtain ⟨ret, mem', hrun, hret, -⟩ := h.fills hdisk hsize
  have hmax := dev.maxOffset_lt
  rw [transfer_wrap hoff hmax hle hsize hstop] at hrun
  cases hrun
  refine ⟨le_antisymm hle (not_lt.mp fun hlt => ?_), hstop⟩
  have hcount : size = available dev.maxOffset off size :=
    i32_inj hsize (available_lt _ _ hsize) (hret hlt)
  rw [available] at hcount
  omega

theorem readResult_one_of_whole (maxOffset off size x : Nat) (hlow : firstSize off ≤ x)
    (hhigh : x < firstSize off + ((off + size) / sectorSize - firstBlock off) * sectorSize) :
    copyResult (fun d a n mem => mem.blit a (fun _ => 1) d n) maxOffset off size 0 (fun _ => 0) x =
      1 := by
  rw [copyResult, blit_of_mem (by omega) (by omega)]

/-- No request of some bytes at the end of the disk is right. -/
theorem not_reads_at_end (hdisk : dev.IsDisk) (hoff : dev.maxOffset < 2 ^ 31)
    (hsize : size < 2 ^ 32) (hpos : 0 < size) (hstop : dev.maxOffset + size ≤ 2 ^ 32) :
    ¬ReadsRange dev dev.maxOffset size := by
  intro h
  have hmod := dev.maxOffset_mod
  obtain ⟨-, -, hmem⟩ :=
    (h.fills hdisk hsize).within marks_read dev.maxOffset_lt hoff hsize (le_refl _) hpos hstop
  have hnone : ∀ x, copyResult (fun d a n mem => mem.blit a (fun _ => 1) d n) dev.maxOffset
      dev.maxOffset size 0 (fun _ => 0) x = 0 := by
    intro x
    rw [hmem, available, Nat.sub_self, Nat.min_zero, if_neg (by omega)]
  by_cases hpost : (dev.maxOffset + size) % sectorSize = 0
  · have hone := readResult_one_of_whole dev.maxOffset dev.maxOffset size 0
      (by simp only [firstSize, firstBlock, sectorSize] at *; omega)
      (by simp only [firstSize, firstBlock, sectorSize] at *; omega)
    rw [hnone] at hone
    cases hone
  · have hblock : firstBlock dev.maxOffset ≤ (dev.maxOffset + size) / sectorSize := by
      simp only [firstBlock, sectorSize] at *
      omega
    have hone := hnone _ ▸ marks_read.one_of_tail hpost hblock
    cases hone

section

variable (hdisk : dev.IsDisk) (hoff : off < 2 ^ 31)
include hdisk hoff

/-- A right request across the end of the disk leaves room for the last sector. -/
theorem room_of_reads (hstart : off < dev.maxOffset) (hend : dev.maxOffset < off + size)
    (hnear : off + size < dev.maxOffset + sectorSize) (h : ReadsRange dev off size) :
    sectorSize ∣ off ∨ off / sectorSize + 2 ≤ dev.maxOffset / sectorSize := by
  have hmod := dev.maxOffset_mod
  have hmax := dev.maxOffset_lt
  by_contra hroom
  -- The bytes behind the end of the disk are ones and show up before the end of the buffer.
  obtain ⟨disk, hlow, hhigh⟩ : ∃ disk : Bytes, (∀ a < dev.maxOffset, disk a = 0) ∧
      ∀ a, dev.maxOffset ≤ a → disk a = 1 :=
    ⟨fun a => if a < dev.maxOffset then 0 else 1, fun a ha => if_pos ha,
      fun a ha => if_neg (not_lt.mpr ha)⟩
  have hblock : (off + size) / sectorSize = firstBlock off ∧
      firstBlock off * sectorSize = dev.maxOffset := by
    simp only [firstBlock, sectorSize] at *
    omega
  have hsmall : dev.maxOffset - off < sectorSize ∧ off ≠ 0 ∧ off + size < 2 ^ 32 ∧
      (off + size) % sectorSize = off + size - dev.maxOffset := by
    simp only [sectorSize] at *
    omega
  have hwrap : u32 (off + size) = off + size := u32_of_lt hsmall.2.2.1
  have hclamp : clamped dev.maxOffset off size = dev.maxOffset - off := by
    rw [clamped, hwrap, if_pos hend]
  have hpointer : sub32 (u32 (sectorSize + (dev.maxOffset - off)))
      ((off + size) % sectorSize) = sectorSize + (dev.maxOffset - off) -
        (off + size - dev.maxOffset)
      := by
    rw [hsmall.2.2.2, u32_of_lt (by simp only [sectorSize] at *; omega),
      sub32_of_le (by simp only [sectorSize] at *; omega) (by simp only [sectorSize] at *; omega)]
  obtain ⟨ret, mem', hrun, -, hmem⟩ := h disk (fun _ => 0) (fun _ => 0) sectorSize
    (by simp only [sectorSize] at *; omega)
  have hfirst := firstSize_lt off
  rw [read, access_disk hdisk, (copies_read _ _ _).transfer_eq_result hoff hmax
    (le_of_lt hstart) (by omega) (le_of_lt hsmall.2.2.1) (fun heq => absurd heq hsmall.2.1)
    (by rw [hblock.1]; simp only [sectorSize] at *; omega)] at hrun
  cases hrun
  have hbyte := congrFun hmem (sectorSize + (dev.maxOffset - off) - 1)
  rw [copyResult, hblock.1, Nat.sub_self, Nat.zero_mul, blit_zero, copyParts,
    if_pos ⟨by omega, hblock.1.ge⟩, hclamp, hpointer, hblock.1, hblock.2,
    blit_of_mem (by omega) (by omega), available,
    blit_of_mem (by omega) (by omega), hhigh _ (by omega), hlow _ (by omega)] at hbyte
  cases hbyte

/-- A right request of some bytes that does not wrap around. -/
theorem readable_of_reads_within (hsize : size < 2 ^ 32)
    (hle : off ≤ dev.maxOffset) (hpos : 0 < size) (hstop : off + size ≤ 2 ^ 32)
    (h : ReadsRange dev off size) : Readable dev.maxOffset off size := by
  have hfills := h.fills hdisk hsize
  have hmax := dev.maxOffset_lt
  by_cases hinside : off + size ≤ dev.maxOffset
  · exact .inl (hfills.inside marks_read hmax hoff hsize hle hpos hinside)
  obtain ⟨-, -, hmem⟩ := hfills.within marks_read hmax hoff hsize hle hpos hstop
  have hstart : off < dev.maxOffset := by
    apply lt_of_le_of_ne hle
    rintro rfl
    exact not_reads_at_end hdisk hoff hsize hpos hstop h
  have hend : dev.maxOffset < off + size := by omega
  have havailable : available dev.maxOffset off size = dev.maxOffset - off := by
    rw [available]
    omega
  have hmod := dev.maxOffset_mod
  have hnear : off + size < dev.maxOffset + sectorSize := by
    by_contra hfar
    have hone := readResult_one_of_whole dev.maxOffset off size (dev.maxOffset - off)
      (by simp only [firstSize, firstBlock, sectorSize] at *; omega)
      (by simp only [firstSize, firstBlock, sectorSize] at *; omega)
    rw [hmem, havailable, if_neg (by omega)] at hone
    cases hone
  have hroom := room_of_reads hdisk hoff hstart hend hnear h
  exact .inr (.inr (.inl ⟨hstart, hend, hnear, hroom⟩))

/-- Which reads of a hard disk are right. -/
theorem reads_iff_readable (hsize : size < 2 ^ 32) :
    ReadsRange dev off size ↔ Readable dev.maxOffset off size := by
  constructor
  · intro h
    by_cases hpast : dev.maxOffset < off
    · exact .inr (.inl hpast)
    have hle := not_lt.mp hpast
    by_cases hpos : 0 < size
    · by_cases hstop : off + size ≤ 2 ^ 32
      · exact readable_of_reads_within hdisk hoff hsize hle hpos hstop h
      · have hwrap := not_le.mp hstop
        exact .inr (.inr (.inr (atEnd_of_reads_wrap hdisk hoff hsize hle hwrap h)))
    · obtain rfl : size = 0 := Nat.eq_zero_of_not_pos hpos
      exact .inl ((h.fills hdisk hsize).exact_of_empty marks_read dev.maxOffset_lt hoff hle)
  · rintro (hexact | hpast | hacross | hend)
    · exact hexact.reads hdisk hoff
    · exact reads_past hdisk hoff hpast
    · exact hacross.reads hdisk hoff
    · exact hend.reads hdisk hoff hsize

end

/-- A disk of one MiB. -/
def smallDisk : Device where
  type := .pata
  sectors28 := 2048
  sectors48 := 0

/-- A read across two sectors is right. -/
theorem reads_smallDisk_across_sectors :
    Exact smallDisk.maxOffset 500 100 ∧ ReadsRange smallDisk 500 100 := by
  have hexact : Exact smallDisk.maxOffset 500 100 := by
    constructor <;> decide
  exact ⟨hexact, (reads_iff_readable (.inl rfl) (by decide) (by decide)).mpr (.inl hexact)⟩

/-- A read of the first hundred bytes of the disk never returns. -/
theorem read_first_bytes_none :
    read smallDisk (fun _ => 0) (fun _ => 0) (fun _ => 0) 0xD0001000 0 100 = none := by
  exact transfer_none (by decide) (by decide) (by decide)

end Hos.Ata
