import Hos.Process.Elf
import Hos.Process.Execve

/-!
# A failed `execve`

`__load_executable` gives up the memory of a task before it knows that the file can be
loaded, and does not close a file that is no executable.

`mmu_create_blank_process_image` never answers `NULL`, so the reset does not fail. The
blocks of an image come and go with it; the others are listed.
-/

namespace Hos.Elf

open Option List

open Bytes

section

/-- An image: the stack, the areas, and memory as its directory shows it. -/
structure ProcessImage where
  startStack : Nat
  areas : List VmArea
  mem : Bytes

/-- Two images have the same areas with the same bytes. -/
def ProcessImage.Same (i j : ProcessImage) : Prop :=
  i.startStack = j.startStack ∧ i.areas = j.areas ∧
    ∀ area ∈ j.areas, ∀ x, area.vmStart ≤ x → x < area.vmEnd → i.mem x = j.mem x

structure ExecTask where
  mm : Option ProcessImage
  ebp : Nat
  useresp : Nat
  eflags : Nat
  eip : Nat
  name : Bytes

/-- Two tasks have the same image, registers and name. -/
def ExecTask.Same (t u : ExecTask) : Prop :=
  Option.Rel ProcessImage.Same t.mm u.mm ∧ { t with mm := none } = { u with mm := none }

/-- A task, the open count of its executable and the blocks of the heap. -/
structure ExecWorld where
  task : ExecTask
  count : Nat
  blocks : List Nat

/-- `DEFAULT_STACK_SIZE`. -/
def defaultStackSize : Nat := 0x100000

/-- `elf_check_file_type` for `ET_EXEC`. What the file lacks of a header is left on the stack. -/
def elfCheckFileType (file : ExecFile) (stack : Bytes) : Bool :=
  let h := stack.blit 0 file.bytes 0 (file.read 52).toNat
  file.read 52 != -1 && elfCheckFileHeader h && Header.type h == etExec

/-- The image that `__reset_process` makes of memory `m`, its stack cleared. -/
def blankImage (m : Bytes) : ProcessImage :=
  let start := sub32 Vm.userEnd defaultStackSize
  ⟨start, [⟨start, u32 (start + defaultStackSize), Vm.userAccess⟩], m.fill start defaultStackSize 0⟩

def resetProcess (t : ExecTask) (m : Bytes) : ExecTask :=
  let top := u32 ((blankImage m).startStack + defaultStackSize)
  { t with mm := some (blankImage m), ebp := top, useresp := top, eflags := t.eflags ||| 0x200 }

/-- `__load_executable` with the file that `vfs_open` finds. -/
def loadExecutable (file : Option ExecFile) (stack m : Bytes) (buffer : Nat) (w : ExecWorld) :
    Bool × ExecWorld :=
  match file with
  | none => (false, w)
  | some file =>
    if elfCheckFileType file stack = false then (false, { w with count := w.count + 1 })
    else
      let task := resetProcess w.task m
      let image := blankImage m
      let (entry, l) := elfLoadFile (some file) buffer ⟨image.mem, image.areas, w.blocks, []⟩
      (entry.isSome,
        ⟨{ task with mm := some ⟨image.startStack, l.areas, l.mem⟩, eip := entry.getD task.eip },
        w.count + 1 - 1, l.blocks⟩)

/-- `sys_execve` around it: the block of the arguments is freed when the load fails. -/
def execveLoad (args : Nat) (load : ExecWorld → Bool × ExecWorld) (w : ExecWorld) :
    Bool × ExecWorld :=
  let (done, w') := load { w with blocks := args :: w.blocks }
  (done, if done then w' else { w' with blocks := w'.blocks.erase args })

end

/-- A load that fails leaves the task, the count and the heap as they were. -/
def Harmless (load : ExecWorld → Bool × ExecWorld) (w : ExecWorld) : Prop :=
  (load w).1 = false →
    w.task.Same (load w).2.task ∧ (load w).2.count = w.count ∧ (load w).2.blocks = w.blocks

/-- The file can be loaded to a blank image. -/
def CanLoad (file : ExecFile) (m : Bytes) (buffer : Nat) : Prop :=
  ∃ size, file.stSize = some size ∧ Loadable file buffer size ⟨(blankImage m).mem,
    (blankImage m).areas, [], []⟩

variable {file : ExecFile} {stack m : Bytes} {buffer : Nat} {w : ExecWorld} {l : Loader}

/-- A file that is not loaded has been read above the user space, and its buffer freed. -/
theorem elfLoadFile_failed {l' : Loader} (hkernel : buffer ≠ 0 → Vm.userEnd ≤ buffer)
    (hfail : elfLoadFile (some file) buffer l = (none, l')) :
    l'.areas = l.areas ∧ l'.blocks = l.blocks ∧ ∀ x < Vm.userEnd, l'.mem x = l.mem x := by
  rw [elfLoadFile] at hfail
  cases hsize : file.stSize with
  | none =>
    simp only [hsize] at hfail
    cases hfail
    simp
  | some size =>
    simp only [hsize] at hfail
    split at hfail
    · cases hfail
      simp
    next hbuffer =>
    have hbelow : ∀ x < Vm.userEnd, (l.fetch file buffer size).mem x = l.mem x := by
      intro x hx
      simp only [Loader.fetch, blit, fill]
      rw [if_neg (by omega), if_neg (by omega)]
    split at hfail
    · cases hfail
      exact ⟨rfl, erase_cons_head _ _, hbelow⟩
    split at hfail
    · exact absurd (Prod.mk.inj hfail).1 (some_ne_none _)
    · cases hfail
      exact ⟨rfl, erase_cons_head _ _, hbelow⟩

theorem elfLoadFile_isSome_iff : (elfLoadFile (some file) buffer l).1.isSome = true ↔
    ∃ size, file.stSize = some size ∧ Loadable file buffer size l := by
  constructor
  · intro hsome
    cases hsize : file.stSize with
    | none => simp [elfLoadFile, hsize] at hsome
    | some size =>
      refine ⟨size, rfl, ?_⟩
      by_contra hload
      rw [elfLoadFile_none hsize hload] at hsome
      exact Bool.false_ne_true hsome
  · rintro ⟨size, hsize, hload⟩
    obtain ⟨entry, heq⟩ := elfLoadFile_eq hsize hload
    rw [heq]
    rfl

/-- Outside the buffer the kernel half is not written when the file fits. -/
theorem elfLoadFile_kernel {size : Nat} (hkernel : Vm.userEnd ≤ buffer)
    (hfit : buffer + size ≤ 2 ^ 32) (hsize : file.stSize = some size)
    (hread : file.read size ≤ size)
    (hfits : Loadable file buffer size l → FitsFile file buffer size l) {x : Nat}
    (hx : Vm.userEnd ≤ x) (hlt : x < 2 ^ 32) (hout : x < buffer ∨ buffer + size ≤ x) :
    (elfLoadFile (some file) buffer l).2.mem x = l.mem x := by
  have hfetch : (l.fetch file buffer size).mem x = l.mem x := by
    simp only [Loader.fetch, blit, fill]
    rw [if_neg (by omega), if_neg (by omega)]
  by_cases hload : Loadable file buffer size l
  · obtain ⟨entry, heq⟩ := elfLoadFile_eq hsize hload
    obtain ⟨hheader, huser, hprograms⟩ := hfits hload
    rw [heq]
    exact ((elfLoadExec_inside (l := (l.fetch file buffer size).readHeader) hkernel hfit hheader
      (fun _ _ => rfl) huser (by exact load16_lt)).2 (fun j _ => hprograms j) x hx hlt).trans hfetch
  · have hbuffer : buffer ≠ 0 := Nat.ne_of_gt (Nat.lt_of_lt_of_le (by decide) hkernel)
    rw [elfLoadFile]
    simp only [hsize, hbuffer, if_false]
    split
    · exact hfetch
    next hwhole =>
    split
    next hheader => exact absurd ⟨hbuffer, not_not.mp hwhole, hheader.1⟩ hload
    next => exact hfetch

/-- What `sys_execve` sees of a load. Memory stays as it is when there is no new image. -/
def loading (file : Option ExecFile) (stack m : Bytes) (buffer : Nat) (w : ExecWorld) :
    Exec.Loading where
  succeeds := (loadExecutable file stack m buffer w).1
  mem := fun m => (loadExecutable file stack m buffer { w with task.mm := none }).2.task.mm.elim m
    ProcessImage.mem
  useresp := (loadExecutable file stack m buffer w).2.task.useresp

/-- A file of the right type that fits can be executed: loading it keeps the block of the
arguments, which is apart from the buffer, and leaves the stack of a reset. -/
theorem callable_loading {s : Exec.ExecState} {argsMem argv envp size : Nat}
    {args envs : List (List Byte)} {name : List Byte} (hcheck : elfCheckFileType file stack = true)
    (hkernel : Vm.userEnd ≤ buffer) (hfit : buffer + size ≤ 2 ^ 32)
    (hsize : file.stSize = some size) (hread : file.read size ≤ size)
    (hfits : ∀ m, Loadable file buffer size ⟨(blankImage m).mem, (blankImage m).areas, w.blocks, []⟩ →
      FitsFile file buffer size ⟨(blankImage m).mem, (blankImage m).areas, w.blocks, []⟩)
    (hargs : Vm.userEnd ≤ argsMem)
    (hblock : argsMem + (Exec.argsBytes args + Exec.argsBytes envs) < 2 ^ 32)
    (hapart : argsMem + (Exec.argsBytes args + Exec.argsBytes envs) ≤ buffer ∨
      buffer + size ≤ argsMem)
    (hargv : argv ≠ 0) (henvp : envp ≠ 0) (hfirst : args[0]? = some name)
    (hvector : Exec.VectorAt s.mem argv args fun x => x < Vm.userEnd)
    (hvector' : Exec.VectorAt s.mem envp envs fun x => x < Vm.userEnd) :
    Exec.Callable (loading (some file) stack m buffer w) argsMem s argv envp args envs name := by
  have hend : Vm.userEnd = 0xC0000000 := rfl
  have hstart : sub32 Vm.userEnd defaultStackSize = 0xBFF00000 := by decide
  have hstack : defaultStackSize = 0x100000 := rfl
  have huseresp : (loading (some file) stack m buffer w).useresp = 0xC0000000 := by
    simp only [loading, loadExecutable, hcheck, Bool.true_eq_false, if_false, resetProcess,
      blankImage, hstart]
    decide
  refine ⟨hargv, henvp, hvector.mono fun x hx => ?_, hvector'.mono fun x hx => ?_, hfirst, hblock,
    ?_, fun m' x hlo hhi => ?_, ?_, ?_, ?_⟩
  · omega
  · omega
  · omega
  · simp only [loading, loadExecutable, hcheck, Bool.true_eq_false, if_false, Option.elim_some]
    rw [elfLoadFile_kernel hkernel hfit hsize hread (hfits m') (by omega) (by omega) (by omega)]
    exact if_neg (by omega)
  · omega
  · omega
  · omega

/-- When a failed load is harmless. -/
def Safe (file : Option ExecFile) (stack m : Bytes) (buffer : Nat) (t : ExecTask) : Prop :=
  ∀ f, file = some f →
    elfCheckFileType f stack = true ∧ (CanLoad f m buffer ∨ t.Same (resetProcess t m))

theorem ExecTask.Same.refl (t : ExecTask) : t.Same t := by
  refine ⟨?_, rfl⟩
  cases t.mm with
  | none => exact Option.Rel.none
  | some image => exact Option.Rel.some ⟨rfl, rfl, fun _ _ _ _ _ => rfl⟩

/-- The bytes outside the stack do not matter. -/
theorem same_blank_iff (t : ExecTask) {mem : Bytes}
    (hmem : ∀ x < Vm.userEnd, mem x = (blankImage m).mem x) :
    t.Same { resetProcess t m with
        mm := some ⟨(blankImage m).startStack, (blankImage m).areas, mem⟩ } ↔
      t.Same (resetProcess t m) := by
  have hbytes : ∀ area ∈ (blankImage m).areas, ∀ x, x < area.vmEnd →
      mem x = (blankImage m).mem x := by
    intro area harea x hx
    rw [mem_singleton.mp harea] at hx
    exact hmem x hx
  refine and_congr_left' ?_
  cases t.mm with
  | none => exact iff_of_false nofun nofun
  | some image =>
    simp only [resetProcess, rel_some_some, ProcessImage.Same]
    refine and_congr_right' (and_congr_right' ?_)
    refine forall₂_congr fun area harea => forall₃_congr fun x _ hx => ?_
    rw [hbytes area harea x hx]

/-- A load that succeeds is safe. One that fails keeps the heap, and leaves the rest as it
was when it is safe. -/
theorem loadExecutable_cases {file : Option ExecFile} {done : Bool} {w' : ExecWorld}
    (hkernel : buffer ≠ 0 → Vm.userEnd ≤ buffer)
    (hrun : loadExecutable file stack m buffer w = (done, w')) :
    (done = true → Safe file stack m buffer w.task) ∧ (done = false → w'.blocks = w.blocks ∧
      (w.task.Same w'.task ∧ w'.count = w.count ↔ Safe file stack m buffer w.task)) := by
  cases file with
  | none =>
    cases hrun
    exact ⟨nofun, fun _ => ⟨rfl, iff_of_true ⟨ExecTask.Same.refl _, rfl⟩ nofun⟩⟩
  | some file =>
    rw [loadExecutable] at hrun
    simp only [Safe, some.injEq, forall_eq']
    split at hrun
    next hcheck =>
      cases hrun
      refine ⟨nofun, fun _ => ⟨rfl, iff_of_false (fun h => absurd h.2 (Nat.succ_ne_self _))
        fun h => ?_⟩⟩
      rw [hcheck] at h
      exact Bool.false_ne_true h.1
    next hcheck =>
      rw [Bool.not_eq_false] at hcheck
      have hiff : (elfLoadFile (some file) buffer ⟨(blankImage m).mem, (blankImage m).areas,
          w.blocks, []⟩).1.isSome = true ↔ CanLoad file m buffer := elfLoadFile_isSome_iff
      rcases heq : elfLoadFile (some file) buffer ⟨(blankImage m).mem, (blankImage m).areas,
        w.blocks, []⟩ with
        ⟨_ | entry, l⟩
      · simp only [heq] at hrun hiff
        cases hrun
        obtain ⟨hareas, hblocks, hmem⟩ := elfLoadFile_failed hkernel heq
        have hload : ¬CanLoad file m buffer := fun h => Bool.false_ne_true (hiff.mpr h)
        refine ⟨nofun, fun _ => ⟨hblocks, ?_⟩⟩
        simp only [hcheck, hload, true_and, false_or, Nat.add_sub_cancel, and_true]
        rw [hareas]
        exact same_blank_iff w.task hmem
      · simp only [heq] at hrun hiff
        cases hrun
        exact ⟨fun _ => ⟨hcheck, Or.inl (hiff.mp rfl)⟩, nofun⟩

/-- A failed load is harmless exactly when there is no such file, or it is an executable
that can be loaded, or the task has the image and the registers of a reset already. -/
theorem failed_exec_harmless_iff (file : Option ExecFile) (stack m : Bytes) (args : Nat)
    (w : ExecWorld) (hkernel : buffer ≠ 0 → Vm.userEnd ≤ buffer) :
    (Harmless (loadExecutable file stack m buffer) w ↔ Safe file stack m buffer w.task) ∧
      (Harmless (execveLoad args (loadExecutable file stack m buffer)) w ↔
        Safe file stack m buffer w.task) := by
  constructor
  · rcases hrun : loadExecutable file stack m buffer w with ⟨done, w'⟩
    obtain ⟨hdone, hfail⟩ := loadExecutable_cases hkernel hrun
    rw [Harmless, hrun]
    cases done with
    | true => exact iff_of_true nofun (hdone rfl)
    | false =>
      obtain ⟨hblocks, hiff⟩ := hfail rfl
      rw [← hiff, forall_prop_of_true rfl, ← and_assoc, and_iff_left hblocks]
  · rcases hrun : loadExecutable file stack m buffer { w with blocks := args :: w.blocks }
      with ⟨done, w'⟩
    obtain ⟨hdone, hfail⟩ := loadExecutable_cases hkernel hrun
    rw [Harmless, execveLoad, hrun]
    cases done with
    | true => exact iff_of_true nofun (hdone rfl)
    | false =>
      obtain ⟨hblocks, hiff⟩ := hfail rfl
      rw [← hiff, forall_prop_of_true rfl, ← and_assoc, and_iff_left]
      · rfl
      · show w'.blocks.erase args = w.blocks
        rw [hblocks]
        simp

/-- A task with a stack, half used, whose executable is open. -/
def runningWorld : ExecWorld where
  task := {
    mm := some ⟨0xBFF00000, [⟨0xBFF00000, 0xC0000000, Vm.userAccess⟩], fun x => x % 256⟩
    ebp := 0xBFFFFF00
    useresp := 0xBFF80000
    eflags := 0x202
    eip := 0x08048010
    name := fun k => if k = 0 then 0x73 else 0 }
  count := 1
  blocks := [0xD0001000]

theorem failed_exec_harmless_missing :
    (loadExecutable none (fun _ => 0) (fun _ => 0) 0xD0002000 runningWorld).1 = false ∧
      Harmless (loadExecutable none (fun _ => 0) (fun _ => 0) 0xD0002000) runningWorld :=
  ⟨rfl, (failed_exec_harmless_iff none _ _ 0 _ (by decide)).1.mpr nofun⟩

/-- A text is refused, and stays open. -/
theorem refused_text_stays_open :
    ¬Harmless (loadExecutable (some (fileOf [0x68, 0x69])) (fun _ => 0) (fun _ => 0) 0xD0002000)
      runningWorld := by
  intro h
  exact absurd (h (by decide +kernel)).2.1 (by decide +kernel)

end Hos.Elf
