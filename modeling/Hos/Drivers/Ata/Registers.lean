import Hos.Drivers.Ata.Basic

/-!
# The register writes of a sector command

`ata_device_read_sector` and `ata_device_write_sector` of `ata.c` program the
registers of the channel and then write a DMA command to the command register.
Between the writes they only poll status registers, so what they do to the
channel is a list of writes, which depends on the polled values through the bus
master status alone.

The channel keeps the last value written to each register. A drive takes the
command with the sector its registers name at that moment.
-/

namespace Hos

open Nat

/-- A mask of `w` ones at bit `k`, shifted down, is a digit in base `2 ^ w`. -/
theorem and_shiftLeft_shiftRight (x k w : Nat) :
    (x &&& ((2 ^ w - 1) <<< k)) >>> k = x / 2 ^ k % 2 ^ w := by
  rw [shiftRight_and_distrib, shiftLeft_shiftRight, and_two_pow_sub_one_eq_mod,
    shiftRight_eq_div_pow]

namespace Ata

/-- The registers of a channel that the sector commands write. -/
inductive Register where
  | bmrCommand
  | bmrPrdt
  | bmrStatus
  | control
  | hddevsel
  | feature
  | sectorCount
  | lbaLo
  | lbaMid
  | lbaHi
  | command
  deriving DecidableEq

/-- One write to a register. -/
structure Out where
  register : Register
  value : Nat
  deriving DecidableEq

/-- `outportb`, whose argument is an `unsigned char`. -/
def outportb (register : Register) (value : Nat) : Out := ⟨register, value % 2 ^ 8⟩

/-- `outportl`, whose argument is an `unsigned int`. -/
def outportl (register : Register) (value : Nat) : Out := ⟨register, u32 value⟩

/-- `ata_dma_command_read`. -/
def dmaCommandRead : Nat := 0xC8

/-- `ata_dma_command_write`. -/
def dmaCommandWrite : Nat := 0xCA

/-- The fields of `ata_device_t` that the sector commands read. The drives of
`ata.c` have `slave` 0 or 1. -/
structure Drive where
  type : DeviceType
  slave : Bool
  dmaPrdtPhys : Nat
  deriving DecidableEq

/-- The drive types that `ata_device_read_sector` serves. -/
def DeviceType.IsHardDisk (type : DeviceType) : Prop := type = .pata ∨ type = .sata

instance (type : DeviceType) : Decidable type.IsHardDisk :=
  inferInstanceAs (Decidable (_ ∨ _))

/-- The writes of `ata_device_read_sector`; `before` and `after` are the values
read from the bus master status register before and after the transfer. -/
def Drive.readSector (dev : Drive) (lba before after : Nat) : List Out :=
  if dev.type ≠ .pata ∧ dev.type ≠ .sata then []
  else
    [ outportb .bmrCommand 0x00,
      outportl .bmrPrdt dev.dmaPrdtPhys,
      outportb .bmrStatus (before ||| 0x04 ||| 0x02),
      outportb .bmrCommand 0x08,
      outportb .control 0x00,
      outportb .hddevsel (0xe0 ||| (dev.slave.toNat <<< 4)),
      outportb .feature 0x00,
      outportb .sectorCount 0,
      outportb .lbaLo ((lba &&& 0xff000000) >>> 24),
      outportb .lbaMid ((lba &&& 0xff00000000) >>> 32),
      outportb .lbaHi ((lba &&& 0xff0000000000) >>> 40),
      outportb .sectorCount 1,
      outportb .lbaLo ((lba &&& 0x000000ff) >>> 0),
      outportb .lbaMid ((lba &&& 0x0000ff00) >>> 8),
      outportb .lbaHi ((lba &&& 0x00ff0000) >>> 16),
      outportb .command dmaCommandRead,
      outportb .bmrCommand (0x08 ||| 0x01),
      outportb .bmrStatus (after ||| 0x04 ||| 0x02) ]

/-- The writes of `ata_device_write_sector`. -/
def Drive.writeSector (dev : Drive) (lba before after : Nat) : List Out :=
  [ outportb .bmrCommand 0,
    outportl .bmrPrdt dev.dmaPrdtPhys,
    outportb .bmrStatus (before ||| 0x04 ||| 0x02),
    outportb .hddevsel (0xe0 ||| dev.slave.toNat <<< 4 ||| (lba &&& 0x0f000000) >>> 24),
    outportb .feature 0x00,
    outportb .sectorCount 1,
    outportb .lbaLo ((lba &&& 0x000000ff) >>> 0),
    outportb .lbaMid ((lba &&& 0x0000ff00) >>> 8),
    outportb .lbaHi ((lba &&& 0x00ff0000) >>> 16),
    outportb .command dmaCommandWrite,
    outportb .bmrCommand 0x1,
    outportb .bmrStatus (after ||| 0x04 ||| 0x02) ]

/-! ## The channel -/

/-- The registers of a channel and the drive and sector of the last DMA command. -/
structure Channel where
  registers : Register → Nat
  selected : Option (Bool × Nat)

/-- The drive that the device register names. -/
def Channel.drive (c : Channel) : Bool := (c.registers .hddevsel).testBit 4

/-- The sector of an LBA28 command. -/
def Channel.sector (c : Channel) : Nat :=
  c.registers .lbaLo + c.registers .lbaMid * 2 ^ 8 + c.registers .lbaHi * 2 ^ 16 +
    c.registers .hddevsel % 2 ^ 4 * 2 ^ 24

/-- A write to a register. A DMA command takes the drive and the sector that the
registers name. -/
def Channel.out (c : Channel) (o : Out) : Channel :=
  { registers := Function.update c.registers o.register o.value
    selected :=
      if o.register = .command ∧ (o.value = dmaCommandRead ∨ o.value = dmaCommandWrite) then
        some (c.drive, c.sector)
      else c.selected }

/-- The drive and the sector that a list of writes selects on a channel whose
registers hold arbitrary earlier values. -/
def selection (registers : Register → Nat) (outs : List Out) : Option (Bool × Nat) :=
  (outs.foldl Channel.out ⟨registers, none⟩).selected

/-! ## What the two commands select -/

theorem lbaLo_value (lba : Nat) : (lba &&& 0x000000ff) % 2 ^ 8 = lba % 2 ^ 8 := by
  have h : lba &&& 0x000000ff = lba % 2 ^ 8 := and_two_pow_sub_one_eq_mod lba 8
  rw [h, mod_mod]

theorem lbaMid_value (lba : Nat) : (lba &&& 0x0000ff00) >>> 8 % 2 ^ 8 = lba / 2 ^ 8 % 2 ^ 8 := by
  have h : (lba &&& 0x0000ff00) >>> 8 = lba / 2 ^ 8 % 2 ^ 8 := and_shiftLeft_shiftRight lba 8 8
  rw [h, mod_mod]

theorem lbaHi_value (lba : Nat) : (lba &&& 0x00ff0000) >>> 16 % 2 ^ 8 = lba / 2 ^ 16 % 2 ^ 8 := by
  have h : (lba &&& 0x00ff0000) >>> 16 = lba / 2 ^ 16 % 2 ^ 8 := and_shiftLeft_shiftRight lba 16 8
  rw [h, mod_mod]

theorem lbaTop_value (lba : Nat) : (lba &&& 0x0f000000) >>> 24 = lba / 2 ^ 24 % 2 ^ 4 :=
  and_shiftLeft_shiftRight lba 24 4

/-- The device register written by the write command holds the drive in bit 4
and the top digit of the sector below it. -/
theorem hddevsel_value (slave : Bool) {top : Nat} (h : top < 2 ^ 4) :
    ((0xe0 ||| slave.toNat <<< 4 ||| top) % 2 ^ 8).testBit 4 = slave ∧
      (0xe0 ||| slave.toNat <<< 4 ||| top) % 2 ^ 8 % 2 ^ 4 = top := by
  revert top
  cases slave <;> decide

/-- The three address registers name the sector modulo `2 ^ 24`. -/
theorem lba_digits (lba : Nat) :
    lba % 2 ^ 8 + lba / 2 ^ 8 % 2 ^ 8 * 2 ^ 8 + lba / 2 ^ 16 % 2 ^ 8 * 2 ^ 16 = lba % 2 ^ 24 := by
  omega

theorem outportb_dmaCommandRead : outportb .command dmaCommandRead = ⟨.command, dmaCommandRead⟩ :=
    rfl

theorem outportb_dmaCommandWrite :
    outportb .command dmaCommandWrite = ⟨.command, dmaCommandWrite⟩ := rfl

section

variable (registers : Register → Nat) (dev : Drive) (lba before after : Nat)
include registers dev lba before after

/-- The read command writes the device register without the top digit of the
sector, so it selects the sector modulo `2 ^ 24`. -/
theorem selection_readSector (hdisk : dev.type.IsHardDisk) :
    selection registers (dev.readSector lba before after) = some (dev.slave, lba % 2 ^ 24) := by
  have hserved : ¬(dev.type ≠ .pata ∧ dev.type ≠ .sata) := by
    rintro ⟨hpata, hsata⟩
    exact hdisk.elim hpata hsata
  obtain ⟨hdrive, htop⟩ := hddevsel_value dev.slave (show 0 < 2 ^ 4 by decide)
  rw [or_zero] at hdrive htop
  rw [Drive.readSector, if_neg hserved, outportb_dmaCommandRead]
  -- each register holds the last value written to it when the command arrives
  simp [selection, Channel.out, outportb, outportl, Channel.drive, Channel.sector, -Nat.reducePow,
    hdrive, htop, lbaLo_value, lbaMid_value, lbaHi_value, lba_digits]

/-- For a device of another type the read command returns before its first write. -/
theorem selection_readSector_of_not (hdisk : ¬dev.type.IsHardDisk) :
    selection registers (dev.readSector lba before after) = none := by
  rw [Drive.readSector, if_pos (not_or.mp hdisk)]
  rfl

theorem selection_writeSector :
    selection registers (dev.writeSector lba before after) = some (dev.slave, lba % 2 ^ 28) := by
  have hdigit : lba / 2 ^ 24 % 2 ^ 4 < 2 ^ 4 := mod_lt _ (by decide)
  obtain ⟨hdrive, htop⟩ := hddevsel_value dev.slave hdigit
  have hsector : lba % 2 ^ 24 + lba / 2 ^ 24 % 2 ^ 4 * 2 ^ 24 = lba % 2 ^ 28 := by omega
  rw [Drive.writeSector, lbaTop_value, outportb_dmaCommandWrite]
  simp [selection, Channel.out, outportb, outportl, Channel.drive, Channel.sector, -Nat.reducePow,
    hdrive, htop, lbaLo_value, lbaMid_value, lbaHi_value, lba_digits, hsector]

end

/-- Reading and writing a sector address the same sector of the same drive exactly
for the first `2 ^ 24` sectors of a hard disk. -/
theorem sector_addressing_iff (registers registers' : Register → Nat) (dev : Drive) {lba : Nat}
    (hlba : lba < 2 ^ 28) (before after before' after' : Nat) :
    (selection registers (dev.readSector lba before after) = some (dev.slave, lba) ∧
        selection registers' (dev.writeSector lba before' after') = some (dev.slave, lba)) ↔
      dev.type.IsHardDisk ∧ lba < 2 ^ 24 := by
  rw [selection_writeSector, mod_eq_of_lt hlba]
  constructor
  · rintro ⟨hread, -⟩
    by_cases hdisk : dev.type.IsHardDisk
    · rw [selection_readSector _ _ _ _ _ hdisk] at hread
      have hmod : lba % 2 ^ 24 = lba := congrArg Prod.snd (Option.some.inj hread)
      refine ⟨hdisk, ?_⟩
      omega
    · rw [selection_readSector_of_not _ _ _ _ _ hdisk] at hread
      cases hread
  · rintro ⟨hdisk, hlow⟩
    rw [selection_readSector _ _ _ _ _ hdisk, mod_eq_of_lt hlow]
    simp

theorem sector_addressing_iff_last :
    2 ^ 24 - 1 < 2 ^ 28 ∧ ((selection (fun _ => 0)
      (Drive.readSector ⟨.pata, true, 0x1000⟩ (2 ^ 24 - 1) 0 4) = some (true, 2 ^ 24 - 1) ∧
          selection (fun _ => 0) (Drive.writeSector ⟨.pata, true, 0x1000⟩ (2 ^ 24 - 1) 0 4) =
            some (true, 2 ^ 24 - 1)) ↔
        DeviceType.IsHardDisk .pata ∧ 2 ^ 24 - 1 < 2 ^ 24) :=
  ⟨by decide, sector_addressing_iff _ _ ⟨.pata, true, 0x1000⟩ (by decide) 0 4 0 4⟩

/-- On the master of a disk with more than `2 ^ 24` sectors (8 GiB) a write of
sector `2 ^ 24` reaches that sector and a read of it reads sector 0. -/
theorem sector_read_wraps :
    selection (fun _ => 0) (Drive.writeSector ⟨.pata, false, 0x1000⟩ (2 ^ 24) 0 4) = some
      (false, 2 ^ 24) ∧
      selection (fun _ => 0) (Drive.readSector ⟨.pata, false, 0x1000⟩ (2 ^ 24) 0 4) = some
        (false, 0) := by
  constructor
  · rfl
  rfl

end Ata

end Hos
