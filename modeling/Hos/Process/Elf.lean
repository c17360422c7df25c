import Hos.Memory.Mmu.Basic

/-!
# Loading an ELF file

`elf_load_file` reads a file into a block of the heap and copies its segments to the
addresses they ask for. Once the header has been checked, nothing that the file says
is: where its program headers are and how many, where in the file a segment is and how
much of it.

The loader records what it accesses: bytes of the buffer, by their offset, and bytes of
memory together with the area of the segment they are written for. The tables of the
new area are not part of this model. They are those of the user half of the directory,
and the buffer is in the kernel half.
-/

namespace Hos.Elf

open List

open Bytes

section

/-- Bytes read at an offset of the buffer, or bytes written at an address for an area. -/
inductive Access
  | read (offset n : Nat)
  | write (area : VmArea) (addr n : Nat)

/-- The access stays in the buffer of `size` bytes, or in its area. -/
def Access.Inside (size : Nat) : Access → Prop
  | .read offset n => ∀ k < n, u32 (offset + k) < size
  | .write area addr n => ∀ k < n, area.vmStart ≤ u32 (addr + k) ∧ u32 (addr + k) < area.vmEnd

instance (size : Nat) (a : Access) : Decidable (a.Inside size) :=
  match a with
  | .read offset n => inferInstanceAs (Decidable (∀ k < n, u32 (offset + k) < size))
  | .write area addr n =>
    inferInstanceAs (Decidable (∀ k < n, area.vmStart ≤ u32 (addr + k) ∧
      u32 (addr + k) < area.vmEnd))

/-- The state of the loader: memory, the areas made, the blocks of the heap and what has
been accessed, the newest first. -/
structure Loader where
  mem : Bytes
  areas : List VmArea
  blocks : List Nat
  log : List Access

def Loader.reads (l : Loader) (places : List (Nat × Nat)) : Loader :=
  { l with log := places.map (fun place => .read place.1 place.2) ++ l.log }

/-- `kfree(buffer)`. -/
def Loader.free (l : Loader) (buffer : Nat) : Loader := { l with blocks := l.blocks.erase buffer }

/-- `memcpy` between 32-bit addresses. -/
def memcpy (m : Bytes) (dst src n : Nat) : Bytes := fun x =>
  if x < 2 ^ 32 ∧ sub32 x dst < n then m (u32 (src + sub32 x dst)) else m x

/-- `memset` to zero. -/
def memzero (m : Bytes) (dst n : Nat) : Bytes := fun x =>
  if x < 2 ^ 32 ∧ sub32 x dst < n then 0 else m x

/-- Memory from the buffer on. -/
def view (m : Bytes) (buffer : Nat) : Bytes := fun k => m (u32 (buffer + k))

/-- The fields of `elf_header_t` that are used. -/
def Header.type (h : Bytes) : Nat := h.load16 16

def Header.machine (h : Bytes) : Nat := h.load16 18

def Header.entry (h : Bytes) : Nat := h.load32 24

def Header.phoff (h : Bytes) : Nat := h.load32 28

def Header.phnum (h : Bytes) : Nat := h.load16 44

/-- `ET_EXEC`. -/
def etExec : Nat := 2

/-- `PT_LOAD`. -/
def ptLoad : Nat := 1

def elfCheckMagicNumber (h : Bytes) : Bool :=
    h 0 == 0x7F && h 1 == 0x45 && h 2 == 0x4C && h 3 == 0x46

def elfCheckFileHeader (h : Bytes) : Bool :=
  elfCheckMagicNumber h && h 4 == 1 && h 5 == 1 && Header.machine h == 3 && h 6 == 1 &&
    Header.type h == etExec

/-- The offset of a program header. An entry is as long as `elf_program_header_t`, whatever
`phentsize` says. -/
def elfGetProgramHeader (h : Bytes) (i : Nat) : Nat := u32 (Header.phoff h + 32 * i)

/-- The fields of the `elf_program_header_t` at `p`; its type is the first. -/
def offset (h : Bytes) (p : Nat) : Nat := h.load32 (p + 4)

def vaddr (h : Bytes) (p : Nat) : Nat := h.load32 (p + 8)

def filesz (h : Bytes) (p : Nat) : Nat := h.load32 (p + 16)

def memsz (h : Bytes) (p : Nat) : Nat := h.load32 (p + 20)

/-- The copy from the buffer. -/
def copySegment (buffer p : Nat) (area : VmArea) (l : Loader) : Loader :=
  let h := view l.mem buffer
  { l.reads [(p + 4, 4), (offset h p, filesz h p)] with
    mem := memcpy l.mem area.vmStart (u32 (buffer + offset h p)) (filesz h p)
    log := .write area area.vmStart (filesz h p) ::
      (l.reads [(p + 4, 4), (offset h p, filesz h p)]).log }

/-- The bytes that the file does not have. Their number is read from the buffer again. -/
def clearRest (buffer p : Nat) (area : VmArea) (l : Loader) : Loader :=
  let h := view l.mem buffer
  if filesz h p < memsz h p then
    { l with
      mem := memzero l.mem (u32 (area.vmStart + filesz h p)) (memsz h p - filesz h p)
      log := .write area (u32 (area.vmStart + filesz h p)) (memsz h p - filesz h p) :: l.log }
  else l

/-- The area that `mmu_create_vm_area` makes for a segment. -/
def segmentArea (h : Bytes) (p : Nat) : VmArea :=
    ⟨vaddr h p, u32 (vaddr h p + memsz h p), Vm.userAccess⟩

/-- A segment of type `PT_LOAD`. -/
def loadSegment (buffer p : Nat) (l : Loader) : Loader :=
  let area := segmentArea (view l.mem buffer) p
  clearRest buffer p area (copySegment buffer p area { l with areas := area :: l.areas })

/-- One pass of the loop in `elf_load_exec`. -/
def loadProgram (buffer i : Nat) (l : Loader) : Loader :=
  let h := view l.mem buffer
  let p := elfGetProgramHeader h i
  let l := l.reads [(28, 4), (p, 4), (p + 20, 4), (p + 16, 4), (p + 8, 4)]
  if h.load32 p = ptLoad then loadSegment buffer p l else l

/-- `elf_load_exec`. The bound is read from the buffer every time, and is below `2 ^ 16`. -/
def elfLoadExec (buffer : Nat) : Nat → Nat → Loader → Loader
  | 0, _, l => l
  | fuel + 1, i, l =>
    if i < Header.phnum (view l.mem buffer) then
      elfLoadExec buffer fuel (i + 1) (loadProgram buffer i (l.reads [(44, 2)]))
    else l.reads [(44, 2)]

/-- A file: what `vfs_fstat` says of its size, the bytes that `vfs_read` counts when it is
asked for some, and its content. -/
structure ExecFile where
  stSize : Option Nat
  read : Nat → Int
  bytes : Bytes

/-- The file is read to the cleared buffer. -/
def Loader.fetch (l : Loader) (file : ExecFile) (buffer size : Nat) : Loader :=
  { l with
    mem := (l.mem.fill buffer size 0).blit buffer file.bytes 0 (file.read size).toNat
    blocks := buffer :: l.blocks }

/-- The fields that are printed, and then those that are checked. -/
def Loader.readHeader (l : Loader) : Loader :=
  (l.reads [(16, 2), (20, 4), (24, 4), (28, 4), (44, 2)]).reads [(0, 7), (18, 2), (16, 2)]

/-- `elf_load_file` with the block that `kmalloc` gives. It answers the entry when it succeeds. -/
def elfLoadFile (file : Option ExecFile) (buffer : Nat) (l : Loader) : Option Nat × Loader :=
  match file with
  | none => (none, l)
  | some file =>
    match file.stSize with
    | none => (none, l)
    | some size =>
      if buffer = 0 then (none, l)
      else
        let l := l.fetch file buffer size
        if file.read size ≠ size then (none, l.free buffer)
        else
          let h := view l.mem buffer
          let l := l.readHeader
          if elfCheckFileHeader h = true ∧ Header.type h = etExec then
            let l := (elfLoadExec buffer (2 ^ 16) 0 l).reads [(24, 4)]
            (some (Header.entry (view l.mem buffer)), l.free buffer)
          else (none, l.free buffer)

end

section

/-- The bytes of a program header that are read are in the file, and so are those of its
segment, which is not longer in the file than in memory. -/
def ProgramFits (h : Bytes) (size p : Nat) : Prop :=
  p + 24 ≤ size ∧ (h.load32 p = ptLoad →
    (filesz h p = 0 ∨ offset h p + filesz h p ≤ size) ∧ filesz h p ≤ memsz h p)

/-- A segment to load is in user space. -/
def UserSegment (h : Bytes) (p : Nat) : Prop := h.load32 p = ptLoad →
    vaddr h p + memsz h p ≤ Vm.userEnd

variable {m : Bytes} {buffer size p : Nat} {l : Loader} {h : Bytes}

/-- Everything recorded is inside. -/
def Loader.Inside (size : Nat) (l : Loader) : Prop := ∀ a ∈ l.log, a.Inside size

theorem inside_read {o n : Nat} (ho : o < 2 ^ 32) (hsize : size < 2 ^ 32) :
    (Access.read o n).Inside size ↔ n = 0 ∨ o + n ≤ size := by
  constructor
  · intro hin
    rcases Nat.eq_zero_or_pos n with hn | hn
    · exact Or.inl hn
    · have hfirst := hin 0 hn
      rw [Nat.add_zero, u32_of_lt ho] at hfirst
      by_contra hlong
      have hlast := hin (size - o) (by omega)
      rw [Nat.add_sub_of_le (by omega), u32_of_lt hsize] at hlast
      omega
  · intro hcases k hk
    rw [u32_of_lt (by omega)]
    omega

theorem inside_reads (size : Nat) (l : Loader) (places : List (Nat × Nat)) :
    (l.reads places).Inside size ↔
    (∀ place ∈ places, (Access.read place.1 place.2).Inside size) ∧ l.Inside size := by
  simp only [Loader.Inside, Loader.reads, mem_append, mem_map, or_imp, forall_and,
    forall_exists_index, and_imp, forall_apply_eq_imp_iff₂]

theorem memcpy_of_le {dst src n x : Nat} (hx : dst + n ≤ x) (hlt : x < 2 ^ 32) :
    memcpy m dst src n x = m x := by
  rw [memcpy, if_neg]
  rw [sub32_of_le hlt (by omega)]
  omega

theorem memzero_of_le {dst n x : Nat} (hx : dst + n ≤ x) (hlt : x < 2 ^ 32) :
    memzero m dst n x = m x := by
  rw [memzero, if_neg]
  rw [sub32_of_le hlt (by omega)]
  omega

/-- The buffer still has what was read from the file. -/
def Kept (h : Bytes) (buffer size : Nat) (m : Bytes) : Prop := ∀ k < size, view m buffer k = h k

theorem Kept.load32 {a : Nat} (hkept : Kept h buffer size m) (ha : a + 4 ≤ size) :
    (view m buffer).load32 a = h.load32 a :=
  load32_congr fun x _ hx => hkept x (by omega)

/-- The kernel half has kept its bytes. -/
def KernelKept (m m' : Bytes) : Prop := ∀ x, Vm.userEnd ≤ x → x < 2 ^ 32 → m' x = m x

theorem KernelKept.trans {m' m'' : Bytes} (h : KernelKept m m') (h' : KernelKept m' m'') :
    KernelKept m m'' :=
  fun x hx hlt => (h' x hx hlt).trans (h x hx hlt)

theorem Kept.of_kernel {m' : Bytes} (hkept : Kept h buffer size m) (hkernel : Vm.userEnd ≤ buffer)
    (hfit : buffer + size ≤ 2 ^ 32) (hsame : KernelKept m m') : Kept h buffer size m' := by
  intro k hk
  refine Eq.trans ?_ (hkept k hk)
  rw [view, view, u32_of_lt (by omega)]
  exact hsame _ (by omega) (by omega)

section

variable (hkept : Kept h buffer size l.mem) (hkernel : Vm.userEnd ≤ buffer)
    (hfit : buffer + size ≤ 2 ^ 32)
  (hp : p + 24 ≤ size) (huser : vaddr h p + memsz h p ≤ Vm.userEnd)

include hkept hkernel hfit hp huser

/-- The copy is inside its bounds when the segment fits, and the kernel half is then kept. -/
theorem copySegment_inside : ((copySegment buffer p (segmentArea h p) l).Inside size ↔
    l.Inside size ∧ (filesz h p = 0 ∨ offset h p + filesz h p ≤ size) ∧ filesz h p ≤ memsz h p) ∧
    (filesz h p ≤ memsz h p →
      KernelKept l.mem (copySegment buffer p (segmentArea h p) l).mem) := by
  have hend : Vm.userEnd = 0xC0000000 := rfl
  have hoffset : offset (view l.mem buffer) p = offset h p := hkept.load32 (by omega)
  have hfilesz : filesz (view l.mem buffer) p = filesz h p := hkept.load32 (by omega)
  have hfield : (Access.read (p + 4) 4).Inside size :=
    (inside_read (by omega) (by omega)).mpr (Or.inr (by omega))
  have hread : (Access.read (offset h p) (filesz h p)).Inside size ↔
      filesz h p = 0 ∨ offset h p + filesz h p ≤ size := inside_read load32_lt (by omega)
  have hstop : u32 (vaddr h p + memsz h p) = vaddr h p + memsz h p := u32_of_lt (by omega)
  have hwrite : (Access.write (segmentArea h p) (vaddr h p) (filesz h p)).Inside size ↔
      filesz h p ≤ memsz h p := by
    simp only [Access.Inside, segmentArea, hstop]
    constructor
    · intro hin
      by_contra hlong
      have hlast := (hin (memsz h p) (by omega)).2
      rw [hstop] at hlast
      omega
    · intro hle k hk
      rw [u32_of_lt (by omega)]
      omega
  constructor
  · have hlog := inside_reads size l [(p + 4, 4), (offset h p, filesz h p)]
    simp only [Loader.Inside, copySegment, hoffset, hfilesz, forall_mem_cons, segmentArea]
      at hlog hwrite ⊢
    rw [hlog, hwrite, hread]
    tauto
  · intro hle x hx hlt
    exact memcpy_of_le (by simp only [segmentArea]; omega) hlt

/-- The bytes that are cleared are inside the area. -/
theorem clearRest_inside (hle : filesz h p ≤ memsz h p) :
    ((clearRest buffer p (segmentArea h p) l).Inside size ↔ l.Inside size) ∧
      KernelKept l.mem (clearRest buffer p (segmentArea h p) l).mem := by
  have hfilesz : filesz (view l.mem buffer) p = filesz h p := hkept.load32 (by omega)
  have hmemsz : memsz (view l.mem buffer) p = memsz h p := hkept.load32 (by omega)
  have hstop : u32 (vaddr h p + memsz h p) = vaddr h p + memsz h p := u32_of_lt (by omega)
  have hstart : u32 (vaddr h p + filesz h p) = vaddr h p + filesz h p := u32_of_lt (by omega)
  simp only [clearRest, hfilesz, hmemsz, segmentArea, hstop, hstart]
  split
  · refine ⟨forall_mem_cons.trans (and_iff_right fun k hk => ?_),
      fun x hx hlt => memzero_of_le (by omega) hlt⟩
    rw [u32_of_lt (by omega)]
    exact ⟨by show vaddr h p ≤ _; omega, by show _ < vaddr h p + memsz h p; omega⟩
  · exact ⟨Iff.rfl, fun _ _ _ => rfl⟩

end

section

variable {area : VmArea} {i fuel : Nat}

/-! What is recorded stays. -/

theorem Loader.Inside.of_reads {places : List (Nat × Nat)} (hin : (l.reads places).Inside size) :
    l.Inside size :=
  ((inside_reads _ _ _).mp hin).2

theorem Loader.Inside.of_free (hin : (l.free buffer).Inside size) : l.Inside size := hin

theorem Loader.Inside.of_clearRest (hin : (clearRest buffer p area l).Inside size) :
    l.Inside size := by
  rw [clearRest] at hin
  split at hin
  · exact fun a ha => hin a (mem_cons_of_mem _ ha)
  · exact hin

theorem Loader.Inside.of_loadProgram (hin : (loadProgram buffer i l).Inside size) :
    (l.reads [(28, 4), (elfGetProgramHeader (view l.mem buffer) i, 4),
      (elfGetProgramHeader (view l.mem buffer) i + 20, 4),
        (elfGetProgramHeader (view l.mem buffer) i + 16, 4),
      (elfGetProgramHeader (view l.mem buffer) i + 8, 4)]).Inside size := by
  rw [loadProgram] at hin
  split at hin
  · have hcopy := hin.of_clearRest
    exact fun a ha => hcopy a (mem_cons_of_mem _ (mem_append_right _ ha))
  · exact hin

theorem Loader.Inside.of_elfLoadExec (hin : (elfLoadExec buffer fuel i l).Inside size) :
    l.Inside size := by
  induction fuel generalizing i l with
  | zero => exact hin
  | succ fuel ih =>
    rw [elfLoadExec] at hin
    split at hin
    · exact (ih hin).of_loadProgram.of_reads.of_reads
    · exact hin.of_reads

end

/-- A segment is loaded inside its bounds exactly when it fits, and the kernel half is then
kept. -/
theorem loadSegment_inside (hkept : Kept h buffer size l.mem) (hkernel : Vm.userEnd ≤ buffer)
    (hfit : buffer + size ≤ 2 ^ 32) (hp : p + 24 ≤ size)
    (huser : vaddr h p + memsz h p ≤ Vm.userEnd) :
    ((loadSegment buffer p l).Inside size ↔ l.Inside size ∧
        (filesz h p = 0 ∨ offset h p + filesz h p ≤ size) ∧ filesz h p ≤ memsz h p) ∧
      (filesz h p ≤ memsz h p → KernelKept l.mem (loadSegment buffer p l).mem) := by
  have harea : segmentArea (view l.mem buffer) p = segmentArea h p := by
    rw [segmentArea, segmentArea, vaddr, memsz, hkept.load32 (by omega), hkept.load32 (by omega)]
    rfl
  rw [loadSegment, harea]
  obtain ⟨hcopy, hcopied⟩ := copySegment_inside
    (l := { l with areas := segmentArea h p :: l.areas }) hkept hkernel hfit hp huser
  have hclear (hle : filesz h p ≤ memsz h p) :=
    clearRest_inside (hkept.of_kernel hkernel hfit (hcopied hle)) hkernel hfit hp huser hle
  refine ⟨⟨fun hin => hcopy.mp (Loader.Inside.of_clearRest hin), fun hfits => ?_⟩, fun hle => ?_⟩
  · exact (hclear hfits.2.2).1.mpr (hcopy.mpr hfits)
  · exact (hcopied hle).trans (hclear hle).2

theorem inside_reads_of_le {places : List (Nat × Nat)} (hsize : size < 2 ^ 32)
    (hplaces : ∀ place ∈ places, place.1 + place.2 ≤ size) (hl : l.Inside size) :
    (l.reads places).Inside size :=
  (inside_reads _ _ _).mpr ⟨fun place hplace k hk => by
    have hle := hplaces place hplace
    rw [u32_of_lt (by omega)]
    omega, hl⟩

/-- The fields of a program header that are read. -/
theorem inside_fields (l : Loader) (hp : p < 2 ^ 32) (hsize : 46 ≤ size) (hlt : size < 2 ^ 31) :
    (l.reads [(28, 4), (p, 4), (p + 20, 4), (p + 16, 4), (p + 8, 4)]).Inside size ↔
      p + 24 ≤ size ∧ l.Inside size := by
  refine ⟨fun hin => ⟨?_, hin.of_reads⟩, fun ⟨hle, hl⟩ => inside_reads_of_le (by omega) ?_ hl⟩
  · obtain ⟨hreads, -⟩ := (inside_reads _ _ _).mp hin
    have hfirst := (inside_read hp (by omega)).mp (hreads (p, 4) (by simp))
    have hlast := (inside_read (by omega) (by omega)).mp (hreads (p + 20, 4) (by simp))
    omega
  · simp only [forall_mem_cons, not_mem_nil, false_imp_iff, implies_true, and_true]
    omega

variable (hkernel : Vm.userEnd ≤ buffer) (hfit : buffer + size ≤ 2 ^ 32) (hsize : 46 ≤ size)

include hkernel hfit hsize

theorem loadProgram_inside {i : Nat} (hkept : Kept h buffer size l.mem)
    (huser : UserSegment h (elfGetProgramHeader h i)) :
    ((loadProgram buffer i l).Inside size ↔ l.Inside size ∧
      ProgramFits h size (elfGetProgramHeader h i)) ∧
      (ProgramFits h size (elfGetProgramHeader h i) →
        KernelKept l.mem (loadProgram buffer i l).mem) := by
  have hend : Vm.userEnd = 0xC0000000 := rfl
  have hp : elfGetProgramHeader (view l.mem buffer) i = elfGetProgramHeader h i := by
    rw [elfGetProgramHeader, Header.phoff, hkept.load32 (by omega)]
    rfl
  have hfields := inside_fields l (u32_lt (Header.phoff h + 32 * i)) hsize (by omega)
  rw [← elfGetProgramHeader] at hfields
  by_cases hle : elfGetProgramHeader h i + 24 ≤ size
  · rw [loadProgram, hp, hkept.load32 (by omega)]
    split
    next hload =>
      obtain ⟨hiff, hkeeps⟩ := loadSegment_inside (l := l.reads _) hkept hkernel hfit hle
        (huser hload)
      refine ⟨hiff.trans ?_, fun hfits => hkeeps (hfits.2 hload).2⟩
      rw [hfields, ProgramFits]
      exact ⟨fun hin => ⟨hin.1.2, hle, fun _ => hin.2⟩, fun hin => ⟨⟨hle, hin.1⟩, hin.2.2 hload⟩⟩
    next hother =>
      refine ⟨hfields.trans ⟨fun hin => ⟨hin.2, hle, fun hload => absurd hload hother⟩,
        fun hin => ⟨hle, hin.1⟩⟩, fun _ _ _ _ => rfl⟩
  · refine ⟨⟨fun hin => ?_, fun hin => absurd hin.2.1 hle⟩, fun hfits => absurd hfits.1 hle⟩
    have hreads := hin.of_loadProgram
    rw [hp] at hreads
    exact absurd (hfields.mp hreads).1 hle

theorem elfLoadExec_inside {fuel i : Nat} (hkept : Kept h buffer size l.mem)
    (huser : ∀ j < Header.phnum h, UserSegment h (elfGetProgramHeader h j))
    (hfuel : Header.phnum h < fuel + i) :
    ((elfLoadExec buffer fuel i l).Inside size ↔ l.Inside size ∧
      ∀ j, i ≤ j → j < Header.phnum h → ProgramFits h size (elfGetProgramHeader h j)) ∧
      ((∀ j, i ≤ j → j < Header.phnum h → ProgramFits h size (elfGetProgramHeader h j)) →
        KernelKept l.mem (elfLoadExec buffer fuel i l).mem) := by
  have hlt : size < 2 ^ 32 := by
    have hend : Vm.userEnd = 0xC0000000 := rfl
    omega
  have hphnum : ∀ {m : Bytes}, Kept h buffer size m →
      Header.phnum (view m buffer) = Header.phnum h :=
    fun hm => load16_congr fun x _ hx => hm x (by omega)
  have hread : ∀ l : Loader, (l.reads [(44, 2)]).Inside size ↔ l.Inside size := fun l =>
    ⟨Loader.Inside.of_reads, inside_reads_of_le hlt (by simpa using hsize)⟩
  induction fuel generalizing i l with
  | zero =>
    exact ⟨⟨fun hin => ⟨hin, fun j hle hj => by omega⟩, And.left⟩, fun _ _ _ _ => rfl⟩
  | succ fuel ih =>
    rw [elfLoadExec, hphnum hkept]
    split
    next hi =>
      obtain ⟨hstep, hkeeps⟩ := loadProgram_inside (l := l.reads [(44, 2)]) (i := i) hkernel
        hfit hsize hkept (huser i hi)
      rw [hread] at hstep
      replace ih (hfirst : ProgramFits h size (elfGetProgramHeader h i)) :=
        ih (hkept.of_kernel hkernel hfit (hkeeps hfirst)) (i := i + 1) (by omega)
      refine ⟨⟨fun hin => ?_, fun ⟨hl, hfits⟩ => ?_⟩, fun hfits => ?_⟩
      · obtain ⟨hl, hfirst⟩ := hstep.mp hin.of_elfLoadExec
        refine ⟨hl, fun j hle hj => ?_⟩
        rcases Nat.eq_or_lt_of_le hle with rfl | hlater
        · exact hfirst
        · exact ((ih hfirst).1.mp hin).2 j hlater hj
      · have hfirst := hfits i (Nat.le_refl i) hi
        exact (ih hfirst).1.mpr ⟨hstep.mpr ⟨hl, hfirst⟩, fun j hle hj => hfits j (by omega) hj⟩
      · have hfirst := hfits i (Nat.le_refl i) hi
        exact (hkeeps hfirst).trans ((ih hfirst).2 fun j hle hj => hfits j (by omega) hj)
    next hi =>
      exact ⟨(hread l).trans ⟨fun hl => ⟨hl, fun j hle hj => by omega⟩, And.left⟩,
        fun _ _ _ _ => rfl⟩

end

/-- The file that the loader has read to the buffer, with whatever memory has behind it. -/
def fetched (file : ExecFile) (buffer size : Nat) (l : Loader) : Bytes :=
    view (l.fetch file buffer size).mem buffer

/-- Either the file is refused, or all accesses are inside their bounds. -/
def LoadsInBounds (file : ExecFile) (buffer size : Nat) (l : Loader) : Prop :=
  (elfLoadFile (some file) buffer { l with log := [] }).1 = none ∨
    (elfLoadFile (some file) buffer { l with log := [] }).2.Inside size

/-- A file is loaded when it can be read in whole and its header is that of an executable. -/
def Loadable (file : ExecFile) (buffer size : Nat) (l : Loader) : Prop :=
  buffer ≠ 0 ∧ file.read size = size ∧ elfCheckFileHeader (fetched file buffer size l) = true

variable {file : ExecFile} {buffer size : Nat} {l : Loader}

section

variable (hsize : file.stSize = some size)
include hsize

theorem elfLoadFile_eq (hload : Loadable file buffer size l) :
    ∃ entry, elfLoadFile (some file) buffer l = (some entry,
      ((elfLoadExec buffer (2 ^ 16) 0 (l.fetch file buffer size).readHeader).reads [(24, 4)]).free
        buffer) := by
  obtain ⟨hbuffer, hread, hcheck⟩ := hload
  have htype : Header.type (fetched file buffer size l) = etExec := by
    rw [elfCheckFileHeader, Bool.and_eq_true] at hcheck
    exact beq_iff_eq.mp hcheck.2
  rw [elfLoadFile]
  simp only [hsize]
  rw [if_neg hbuffer, if_neg (not_not.mpr hread)]
  exact ⟨_, if_pos ⟨hcheck, htype⟩⟩

theorem elfLoadFile_none (hload : ¬Loadable file buffer size l) :
    (elfLoadFile (some file) buffer l).1 = none := by
  rw [elfLoadFile]
  simp only [hsize]
  by_cases hbuffer : buffer = 0
  · rw [if_pos hbuffer]
  by_cases hread : file.read size = size
  · rw [if_neg hbuffer, if_neg (not_not.mpr hread), if_neg fun hcheck =>
      hload ⟨hbuffer, hread, hcheck.1⟩]
  · rw [if_neg hbuffer, if_pos hread]

theorem loadsInBounds_of_user (hkernel : Vm.userEnd ≤ buffer) (hfit : buffer + size ≤ 2 ^ 32)
    (huser : Loadable file buffer size l → ∀ i < Header.phnum (fetched file buffer size l),
      UserSegment (fetched file buffer size l)
        (elfGetProgramHeader (fetched file buffer size l) i)) :
    LoadsInBounds file buffer size l ↔ (Loadable file buffer size l →
      46 ≤ size ∧ ∀ i < Header.phnum (fetched file buffer size l),
        ProgramFits (fetched file buffer size l) size
          (elfGetProgramHeader (fetched file buffer size l) i)) := by
  have hend : Vm.userEnd = 0xC0000000 := rfl
  by_cases hload : Loadable file buffer size l
  · obtain ⟨entry, heq⟩ := elfLoadFile_eq (l := { l with log := [] }) hsize hload
    rw [LoadsInBounds, heq, or_iff_right (Option.some_ne_none entry), forall_prop_of_true hload]
    have hexec (h46 : 46 ≤ size) : (elfLoadExec buffer (2 ^ 16) 0
        (({ l with log := [] } : Loader).fetch file buffer size).readHeader).Inside size ↔ _ :=
      And.left (elfLoadExec_inside hkernel hfit h46 (fun _ _ => rfl) (huser hload)
        (by exact load16_lt))
    constructor
    · intro hin
      have hrun := hin.of_free.of_reads
      have hlast := ((inside_reads _ _ _).mp hrun.of_elfLoadExec.of_reads).1 (44, 2) (by simp)
      have h46 : 46 ≤ size := by
        have := (inside_read (by decide) (by omega)).mp hlast
        omega
      exact ⟨h46, fun i => ((hexec h46).mp hrun).2 i (Nat.zero_le i)⟩
    · rintro ⟨h46, hfits⟩
      refine inside_reads_of_le (by omega) (by simp; omega)
        ((hexec h46).mpr ⟨?_, fun i _ => hfits i⟩)
      refine inside_reads_of_le (by omega) (by simp; omega)
        (inside_reads_of_le (by omega) (by simp; omega) ?_)
      exact fun a ha => absurd ha not_mem_nil
  · exact iff_of_true (Or.inl (elfLoadFile_none (l := { l with log := [] }) hsize hload))
      fun hloadable => absurd hloadable hload

/-- The loader finds all that it reads in the file: the fields of the header, the program
headers and the segments, none longer in the file than in memory. All segments end in the
user half. -/
structure FitsFile (file : ExecFile) (buffer size : Nat) (l : Loader) : Prop where
  header : 46 ≤ size
  user : ∀ i < Header.phnum (fetched file buffer size l),
    UserSegment (fetched file buffer size l) (elfGetProgramHeader (fetched file buffer size l) i)
  programs : ∀ i < Header.phnum (fetched file buffer size l),
    ProgramFits (fetched file buffer size l) size
      (elfGetProgramHeader (fetched file buffer size l) i)

end

/-- A header with one program header right behind it. -/
def sampleHeader : List Byte :=
  [0x7F, 0x45, 0x4C, 0x46, 1, 1, 1] ++ List.replicate 9 0 ++ [2, 0, 3, 0, 1, 0, 0, 0, 0, 0x80, 4, 8,
    52, 0, 0, 0] ++ List.replicate 12 0 ++ [1, 0] ++ List.replicate 6 0

/-- A segment with four bytes in the file, at offset 84, and eight in memory. -/
def sampleProgram : List Byte :=
  [1, 0, 0, 0, 84, 0, 0, 0, 0, 0x80, 4, 8, 0, 0, 0, 0, 4, 0, 0, 0, 8, 0, 0, 0] ++ List.replicate 8 0

/-- A file with the given content. -/
def fileOf (bytes : List Byte) : ExecFile :=
    ⟨some bytes.length, fun n => n, fun k => bytes.getD k 0⟩

end Hos.Elf
