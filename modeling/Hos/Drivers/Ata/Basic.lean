import Hos.Lib.Bytes
import Hos.Lib.Loop

/-!
# Reading and writing an ATA disk

`ata_read` and `ata_write` of `ata.c` cut a byte range into a partial first
sector, a partial last sector and the whole sectors between them. They compute
the same local variables and perform the same steps and differ only in what a
step does: a read copies from a sector to memory, a write updates a sector. The
steps are parameters here, and the two functions are instances.

Sectors are accessed as the hardware is meant to do it: the disk is a byte
store, and sector `b` is the bytes from `512 * b` on. `static` support buffers
are followed in memory by other data, which is why they are whole byte stores.
-/

namespace Hos.Ata

/-- `ATA_SECTOR_SIZE`. -/
def sectorSize : Nat := 512

/-- `EPERM`. -/
def eperm : Int := 1

/-- `ata_device_type_t`. -/
inductive DeviceType where
  | unknown
  | noDevice
  | pata
  | sata
  | patapi
  | satapi
  deriving DecidableEq

/-- The fields of `ata_device_t` that reading and writing depend on. -/
structure Device where
  type : DeviceType
  sectors28 : UInt32
  sectors48 : UInt32

/-- `ata_max_offset`; `uint64_t` is an `unsigned int` here, so both products have 32 bits. -/
def Device.maxOffset (dev : Device) : Nat :=
  if dev.sectors48 ≠ 0 then u32 (dev.sectors48.toNat * sectorSize)
  else u32 (dev.sectors28.toNat * sectorSize)

/-- The conversion of an `off_t` to an unsigned type. -/
def unsigned (offset : Int) : Nat := (offset % 2 ^ 32).toNat

/-- The three steps of a transfer on a state of type `σ`. -/
structure Steps (σ : Type) where
  /-- The partial first sector: its number, the offset in it and the byte count. -/
  head : Nat → Nat → Nat → σ → σ
  /-- The partial last sector: its number, the size of the request and the byte count. -/
  tail : Nat → Nat → Nat → σ → σ
  /-- A whole sector: its number and the position in the buffer. -/
  whole : Nat → Nat → σ → σ

section

variable {σ : Type}

/-- The loop over the whole sectors. -/
def wholeSectors (steps : Steps σ) (startBlock endBlock xOffset : Nat) (s : σ) : Option σ := do
  let last ← whileLoop (fun t : Nat × Nat × σ => decide (t.1 ≤ endBlock))
    (fun t => some (u32 (t.1 + 1), u32 (t.2.1 + sectorSize), steps.whole t.1 t.2.1 t.2.2))
    (startBlock, xOffset, s)
  return last.2.2

/-- The last sector and the whole sectors before it. -/
def transferRest (steps : Steps σ) (startBlock endBlock xOffset size postfixSize : Nat) (s : σ) :
    Option σ :=
  if postfixSize ≠ 0 ∧ startBlock ≤ endBlock then
    wholeSectors steps startBlock (sub32 endBlock 1) xOffset
      (steps.tail endBlock size postfixSize s)
  else wholeSectors steps startBlock endBlock xOffset s

/-- The common body of `ata_read` and `ata_write` for a hard disk. -/
def transfer (steps : Steps σ) (maxOffset : Nat) (offset : Int) (size : Nat) (s : σ) :
    Option (Int × σ) :=
  let startBlock := unsigned (offset.tdiv sectorSize)
  let startOffset := unsigned (offset.tmod sectorSize)
  let stop := u32 (unsigned offset + size)
  let endBlock := sub32 stop 1 / sectorSize
  let prefixSize := sub32 sectorSize startOffset
  let postfixSize := stop % sectorSize
  if maxOffset < unsigned offset then some (0, s)
  else
    let size := if maxOffset < stop then sub32 maxOffset (unsigned offset) else size
    let rest :=
      if startOffset ≠ 0 then
        transferRest steps (u32 (startBlock + 1)) endBlock prefixSize size postfixSize
          (steps.head startBlock startOffset prefixSize s)
      else transferRest steps startBlock endBlock 0 size postfixSize s
    rest.map fun s => (i32 size, s)

end

/-- `ata_device_read_sector` into the memory `m` at `a`. -/
def readSector (disk m : Bytes) (block a : Nat) : Bytes :=
  m.blit a disk (block * sectorSize) sectorSize

/-- `ata_device_write_sector` from the memory `m` at `a`. -/
def writeSector (disk m : Bytes) (block a : Nat) : Bytes :=
  disk.blit (block * sectorSize) m a sectorSize

/-- The steps of `ata_read`, which change the memory. -/
def readSteps (disk support : Bytes) (buffer : Nat) : Steps Bytes where
  head block startOffset prefixSize mem :=
    mem.blit buffer (readSector disk support block 0) startOffset prefixSize
  tail block size postfixSize mem :=
    mem.blit (sub32 (u32 (buffer + size)) postfixSize) (readSector disk support block 0) 0
      postfixSize
  whole block xOffset mem := readSector disk mem block (u32 (buffer + xOffset))

/-- The steps of `ata_write`, which change the disk. -/
def writeSteps (mem support : Bytes) (buffer : Nat) : Steps Bytes where
  head block startOffset prefixSize disk :=
    writeSector disk
      ((readSector disk support block 0).blit startOffset mem buffer prefixSize) block 0
  tail block size postfixSize disk :=
    writeSector disk
      ((readSector disk support block 0).blit 0 mem (sub32 (u32 (buffer + size)) postfixSize)
        postfixSize) block 0
  whole block xOffset disk := writeSector disk mem block (u32 (buffer + xOffset))

/-- What `ata_read` and `ata_write` do for each type of device. -/
def access {σ : Type} (dev : Device) (steps : Steps σ) (offset : Int) (size : Nat) (s : σ) :
    Option (Int × σ) :=
  match dev.type with
  | .pata | .sata => transfer steps dev.maxOffset offset size s
  | .patapi | .satapi => some (-eperm, s)
  | .unknown | .noDevice => some (i32 size, s)

/-- `ata_read`: the returned value and the memory. -/
def read (dev : Device) (disk support mem : Bytes) (buffer : Nat) (offset : Int) (size : Nat) :
    Option (Int × Bytes) :=
  access dev (readSteps disk support buffer) offset size mem

/-- `ata_write`: the returned value and the disk. -/
def write (dev : Device) (disk support mem : Bytes) (buffer : Nat) (offset : Int) (size : Nat) :
    Option (Int × Bytes) :=
  access dev (writeSteps mem support buffer) offset size disk

end Hos.Ata
