import Hos.Process.Args

/-!
# The arguments of `execve`

`sys_execve` copies the name of the program, and both vectors to a block of the heap;
the pointer has to be at the start of the block afterwards. When the program is
loaded, the copies are pushed once more, on the stack of the program, and the name goes
to the task. None of the copies has a bound: not the one to the name buffer, not the
addresses of the strings in `__push_args_on_stack`, not the one to the name of the task.
-/

namespace Hos.Exec

open Option List Function Nat

open Bytes Kheap

section

/-- The bytes of `name_buffer`. -/
def nameMax : Nat := 255

/-- The bytes of the name of a task, which the pointer `mm` follows. -/
def taskNameMaxLength : Nat := 100

/-- `strcpy` to an array of `size` bytes. A store past the array is not defined. -/
def strcpy (size : Nat) (dst : Bytes) (m : Bytes) (src : Nat) : Option Bytes := do
  let (dst, k) ← whileLoop (fun s : Bytes × Nat => m (u32 (src + s.2)) != 0)
    (fun s => if s.2 < size then some (Function.update s.1 s.2 (m (u32 (src + s.2))), s.2 + 1)
      else none) (dst, 0)
  if k < size then some (Function.update dst k 0) else none

/-- Both vectors are copied to the block at `argsMem`, and the pointer has to arrive at its start.
-/
def saveArgs (m : Bytes) (argsMem argvBytes envpBytes argv envp : Nat) :
    Option (Bytes × Nat × Nat) := do
  let (m, savedArgv) ← pushArgsOnStack m (u32 (argsMem + (argvBytes + envpBytes))) argv
  let (m, savedEnvp) ← pushArgsOnStack m savedArgv envp
  if savedEnvp = argsMem then some (m, savedArgv, savedEnvp) else none

/-- Both copies are pushed on the stack of the program. -/
def passArgs (m : Bytes) (useresp savedArgv savedEnvp : Nat) : Option (Bytes × Nat × Nat) := do
  let (m, finalArgv) ← pushArgsOnStack m useresp savedArgv
  let (m, finalEnvp) ← pushArgsOnStack m finalArgv savedEnvp
  some (m, finalArgv, finalEnvp)

/-- The memory that the kernel sees, and what the task has of its program. -/
structure ExecState where
  mem : Bytes
  name : Bytes
  useresp : Nat

/-- What `__load_executable` does: whether it succeeds, the memory and the stack it leaves. -/
structure Loading where
  succeeds : Bool
  mem : Bytes → Bytes
  useresp : Nat

/-- `sys_execve`, with the block that `kmalloc` gives, which is 0 when it fails. -/
def sysExecve (loading : Loading) (argsMem : Nat) (s : ExecState) (filename argv envp : Nat) :
    Option (Int × ExecState) :=
  if filename = 0 then some (-1, s)
  else if argv = 0 then some (-1, s)
  else if arg s.mem argv 0 = 0 then some (-1, s)
  else if envp = 0 then some (-1, s)
  else do
    let nameBuffer ← strcpy nameMax (fun _ => 0) s.mem (arg s.mem argv 0)
    let argc ← countArgs s.mem argv
    let argvBytes ← countArgsBytes s.mem argv
    let envpBytes ← countArgsBytes s.mem envp
    if i32 argvBytes < 0 ∨ i32 envpBytes < 0 then some (-1, s)
    else if argsMem = 0 then some (-1, s)
    else do
      let (mem, savedArgv, savedEnvp) ← saveArgs s.mem argsMem argvBytes envpBytes argv envp
      let s := { s with mem := loading.mem mem }
      if loading.succeeds = false then some (-1, s)
      else do
        let (mem, finalArgv, finalEnvp) ← passArgs s.mem loading.useresp savedArgv savedEnvp
        let (mem, useresp) := pushWord (pushWord (pushWord (mem, finalEnvp) finalEnvp) finalArgv)
          argc
        let name ← strcpy taskNameMaxLength s.name nameBuffer 0
        some (0, { mem := mem, name := name, useresp := useresp })

end

section

/-- The arguments at 0x1000 are a name of `n` letters and a letter, and the environment at
0x1800 is a letter. -/
def vectors (n : Nat) : Bytes := fun x =>
  if (0x2000 ≤ x ∧ x < 0x2000 + n) ∨ x = 0x3000 ∨ x = 0x4000 then 65
  else if x = 0x1001 then 0x20 else if x = 0x1005 then 0x30 else if x = 0x1801 then 0x40 else 0

theorem entry_of_letters {m : Bytes} {p k : Nat} (hlo : 0x1000 ≤ p) (hhi : p + k < 0x5000)
    (hletters : ∀ i < k, m (p + i) = 65) (hstop : m (p + k) = 0) :
    p ≠ 0 ∧ Terminated m p (List.replicate k 65) ∧
      ∀ x, p ≤ x → x ≤ p + (List.replicate k (65 : Byte)).length → 0x1000 ≤ x ∧ x < 0x5000 := by
  rw [length_replicate]
  refine ⟨by omega, ⟨fun i hi => ?_, ?_, fun c hc => ?_⟩, fun x hx hx' => by omega⟩
  · rw [length_replicate] at hi
    rw [getElem_replicate, hletters i hi]
  · rw [length_replicate, hstop]
  · rw [eq_of_mem_replicate hc]
    decide

theorem vectors_argv {n : Nat} (hn : n < 0x1000) :
    VectorAt (vectors n) 0x1000 [List.replicate n 65, [65]]
      fun x => 0x1000 ≤ x ∧ x < 0x5000 where
  entry := by
    intro i str hs
    match i, hs with
    | 0, rfl =>
      rw [show (vectors n).load32 (0x1000 + 4 * 0) = 0x2000 by simp [vectors, load32]]
      refine entry_of_letters (by decide) (by omega)
        (fun i hi => if_pos (by omega)) ?_
      rw [vectors, if_neg (by omega), if_neg (by omega), if_neg (by omega), if_neg (by omega)]
    | 1, rfl =>
      rw [show (vectors n).load32 (0x1000 + 4 * 1) = 0x3000 by simp [vectors, load32]]
      exact entry_of_letters (k := 1) (by decide) (by decide) (fun i hi => if_pos (by omega))
        (by rw [vectors, if_neg (by omega)]; rfl)
  stop := by simp [vectors, load32]
  table := fun x hlo hhi => ⟨hlo, by simp only [length_cons, length_nil] at hhi; omega⟩

theorem vectors_envp {n : Nat} (hn : n < 0x1000) :
    VectorAt (vectors n) 0x1800 [[65]] fun x => 0x1000 ≤ x ∧ x < 0x5000 where
  entry := by
    intro i str hs
    match i, hs with
    | 0, rfl =>
      rw [show (vectors n).load32 (0x1800 + 4 * 0) = 0x4000 by simp [vectors, load32]]
      exact entry_of_letters (k := 1) (by decide) (by decide) (fun i hi => if_pos (by omega))
        (by rw [vectors, if_neg (by omega)]; rfl)
  stop := by simp [vectors, load32]
  table := fun x hlo hhi => ⟨by omega, by rw [length_singleton] at hhi; omega⟩

end

section

variable {m : Bytes} {argv envp argsMem : Nat} {args envs : List (List Byte)} {P Q : Nat → Prop}

theorem passArgs_eq {useresp savedArgv savedEnvp : Nat} (hargv : VectorAt m savedArgv args P)
    (henvp : VectorAt m savedEnvp envs Q)
    (hP : ∀ x, P x ∨ Q x → x < 2 ^ 32 ∧ (x < useresp - (argsBytes args + argsBytes envs) ∨
      useresp ≤ x))
    (hargc : args.length ≤ argsLocationSize) (henvc : envs.length ≤ argsLocationSize)
    (hroom : argsBytes args + argsBytes envs ≤ useresp) (hstack : useresp < 2 ^ 32)
    (hlong : argsBytes args + argsBytes envs < 2 ^ 31) :
    ∃ m₁ m₂, Pushed m useresp savedArgv args m₁ ∧
      Pushed m₁ (useresp - argsBytes args) savedEnvp envs m₂ ∧
      passArgs m useresp savedArgv savedEnvp =
        some (m₂, useresp - argsBytes args, useresp - (argsBytes args + argsBytes envs)) ∧
      VectorAt m₂ (useresp - argsBytes args) args
        (fun x => useresp - argsBytes args ≤ x ∧ x < useresp) ∧
      VectorAt m₂ (useresp - (argsBytes args + argsBytes envs)) envs
        (fun x => useresp - (argsBytes args + argsBytes envs) ≤ x ∧
          x < useresp - argsBytes args) := by
  obtain ⟨m₁, hpushed₁⟩ := hargv.pushed useresp
    (fun x hx => by have := hP x (.inl hx); omega) hargc (by omega) hstack (by omega)
  have henvp₁ := henvp.congr fun x hx => hpushed₁.frame x (by have := (hP x (.inr hx)).2; omega)
  obtain ⟨m₂, hpushed₂⟩ := henvp₁.pushed (useresp - argsBytes args)
    (fun x hx => by have := hP x (.inr hx); omega) henvc (by omega) (by omega) (by omega)
  have hrun₂ := hpushed₂.run
  have hvector₂ := hpushed₂.vector
  rw [Nat.sub_sub] at hrun₂ hvector₂
  refine ⟨m₁, m₂, hpushed₁, hpushed₂, ?_, ?_, hvector₂⟩
  · rw [passArgs, hpushed₁.run]
    exact congrArg (Option.bind · _) hrun₂
  · exact hpushed₁.vector.congr fun x hx => hpushed₂.frame x (by omega)

/-- The vectors are saved as they are passed to a program whose stack is the block. -/
theorem saveArgs_of_passArgs {argvBytes envpBytes : Nat} :
    saveArgs m argsMem argvBytes envpBytes argv envp =
      (passArgs m (u32 (argsMem + (argvBytes + envpBytes))) argv envp).bind
        fun r => if r.2.2 = argsMem then some r else none := by
  simp only [saveArgs, passArgs, bind_eq_bind, Option.bind_assoc, bind_some]

/-- Saving both vectors takes exactly the block. -/
theorem saveArgs_eq (hargv : VectorAt m argv args P) (henvp : VectorAt m envp envs Q)
    (hP : ∀ x, P x ∨ Q x → x < 2 ^ 32 ∧ (x < argsMem ∨
      argsMem + (argsBytes args + argsBytes envs) ≤ x))
    (hargc : args.length ≤ argsLocationSize) (henvc : envs.length ≤ argsLocationSize)
    (hblock : argsMem + (argsBytes args + argsBytes envs) < 2 ^ 32)
    (hlong : argsBytes args + argsBytes envs < 2 ^ 31) :
    ∃ m₁ m₂, Pushed m (argsMem + (argsBytes args + argsBytes envs)) argv args m₁ ∧
      Pushed m₁ (argsMem + argsBytes envs) envp envs m₂ ∧
      saveArgs m argsMem (argsBytes args) (argsBytes envs) argv envp =
        some (m₂, argsMem + argsBytes envs, argsMem) ∧
      VectorAt m₂ (argsMem + argsBytes envs) args
        (fun x => argsMem + argsBytes envs ≤ x ∧ x < argsMem + (argsBytes args + argsBytes envs)) ∧
      VectorAt m₂ argsMem envs (fun x => argsMem ≤ x ∧ x < argsMem + argsBytes envs) := by
  have hmid : argsMem + (argsBytes args + argsBytes envs) - argsBytes args =
      argsMem + argsBytes envs := by omega
  obtain ⟨m₁, m₂, hpushed₁, hpushed₂, hpass, hvector₁, hvector₂⟩ := passArgs_eq hargv henvp
    (fun x hx => by have := hP x hx; omega) hargc henvc (le_add_left _ argsMem) hblock hlong
  rw [hmid] at hpushed₂ hpass hvector₁ hvector₂
  rw [Nat.add_sub_cancel] at hpass hvector₂
  refine ⟨m₁, m₂, hpushed₁, hpushed₂, ?_, hvector₁, hvector₂⟩
  rw [saveArgs_of_passArgs, u32_of_lt hblock, hpass]
  exact if_pos rfl

end

section

variable {m : Bytes} {src size : Nat} {str : List Byte}

section

variable (h : Terminated m src str) (hlt : src + str.length < 2 ^ 32)
include h hlt

/-- A byte of the source, before the terminator or the terminator. -/
theorem strcpy_byte {k : Nat} (hk : k ≤ str.length) : m (u32 (src + k)) = str[k]?.getD 0 := by
  rw [u32_of_lt (by omega)]
  rcases lt_or_eq_of_le hk with hless | rfl
  · rw [h.bytes k hless, getElem?_eq_getElem hless, getD_some]
  · rw [h.stop, getElem?_eq_none (le_refl _), getD_none]

theorem strcpy_more {k : Nat} (hk : k < str.length) : (m (u32 (src + k)) != 0) = true := by
  rw [strcpy_byte h hlt (le_of_lt hk), getElem?_eq_getElem hk, getD_some, bne_iff_ne]
  exact h.nonzero _ (getElem_mem hk)

/-- A string that fits in the array with its terminator. -/
theorem strcpy_of_lt (hfits : str.length < size) (dst : Bytes) :
    ∃ dst', strcpy size dst m src = some dst' ∧ Terminated dst' 0 str := by
  have hloop : ∀ n k (dst : Bytes), k + n = str.length → (∀ j < k, dst j = str[j]?.getD 0) →
      ∃ dst', whileLoop (fun s : Bytes × Nat => m (u32 (src + s.2)) != 0)
        (fun s => if s.2 < size then some (update s.1 s.2 (m (u32 (src + s.2))),
          s.2 + 1) else none)
        (dst, k) = some (dst', str.length) ∧ ∀ j < str.length, dst' j = str[j]?.getD 0 := by
    intro n
    induction n with
    | zero =>
      rintro k dst rfl hcopied
      refine ⟨dst, whileLoop_of_false ?_, hcopied⟩
      rw [strcpy_byte h hlt (le_refl _), getElem?_eq_none (le_refl _)]
      rfl
    | succ n ih =>
      intro k dst hk hcopied
      obtain ⟨dst', hrest, hdone⟩ := ih (k + 1) (update dst k (m (u32 (src + k))))
        (by omega) (by
        intro j hj
        by_cases hlast : j = k
        · rw [hlast, update_self, strcpy_byte h hlt (by omega)]
        · rw [update_of_ne hlast]
          exact hcopied j (by omega))
      refine ⟨dst', Eq.trans ?_ hrest, hdone⟩
      exact whileLoop_of_true (strcpy_more h hlt (by omega)) (if_pos (by omega))
  obtain ⟨dst', hrun, hcopied⟩ := hloop str.length 0 dst (zero_add _) fun j hj =>
    absurd hj (not_lt_zero j)
  refine ⟨update dst' str.length 0, ?_, ⟨fun i hi => ?_, ?_, h.nonzero⟩⟩
  · rw [strcpy, hrun]
    exact if_pos hfits
  · rw [Nat.zero_add, update_of_ne (Nat.ne_of_lt hi), hcopied i hi,
      getElem?_eq_getElem hi, getD_some]
  simp

/-- A string that does not fit: the copy leaves the array. -/
theorem strcpy_of_le (hlong : size ≤ str.length) (dst : Bytes) : strcpy size dst m src = none := by
  rw [strcpy]
  cases hloop : whileLoop (fun s : Bytes × Nat => m (u32 (src + s.2)) != 0)
    (fun s => if s.2 < size then some (update s.1 s.2 (m (u32 (src + s.2))), s.2 + 1)
      else none) (dst, 0) with
  | none => rfl
  | some r =>
    obtain ⟨hle, hexit⟩ := whileLoop_invariant (fun s : Bytes × Nat => s.2 ≤ size) (by
      rintro s t hs - hbody
      by_cases hin : s.2 < size
      · rw [if_pos hin] at hbody
        cases hbody
        exact hin
      · rw [if_neg hin] at hbody
        cases hbody) hloop (zero_le _)
    have hend : r.2 = size := by
      by_contra hne
      have hmore := strcpy_more h hlt (show r.2 < str.length by omega)
      rw [hexit] at hmore
      cases hmore
    exact if_neg (by omega)

end

theorem pushArgsOnStack_of_lt {args argc stack : Nat} (hcount : countArgs m args = some argc)
    (hmany : argsLocationSize < argc) : pushArgsOnStack m stack args = none := by
  obtain ⟨i, rfl⟩ := exists_eq_add_one_of_ne_zero (show argc ≠ 0 by omega)
  have hnone : pushStrings args (i + 1) (m, stack) (fun _ => 0) = none := by
    rw [pushStrings]
    cases strlen m (arg m args i) with
    | none => rfl
    | some len => exact if_neg (by omega)
  rw [pushArgsOnStack, hcount]
  exact congrArg (Option.bind · _) hnone

end

/-- A call with vectors outside the block for the copies. Loading the program keeps the
block and leaves a stack with room for the vectors. -/
structure Callable (loading : Loading) (argsMem : Nat) (s : ExecState) (argv envp : Nat)
    (args envs : List (List Byte)) (name : List Byte) : Prop where
  argv_ne : argv ≠ 0
  envp_ne : envp ≠ 0
  argv : VectorAt s.mem argv args
    fun x => x < 2 ^ 32 ∧ (x < argsMem ∨ argsMem + (argsBytes args + argsBytes envs) ≤ x)
  envp : VectorAt s.mem envp envs
    fun x => x < 2 ^ 32 ∧ (x < argsMem ∨ argsMem + (argsBytes args + argsBytes envs) ≤ x)
  first : args[0]? = some name
  block : argsMem + (argsBytes args + argsBytes envs) < 2 ^ 32
  long : argsBytes args + argsBytes envs < 2 ^ 31
  keeps : ∀ (m : Bytes) x, argsMem ≤ x → x < argsMem + (argsBytes args + argsBytes envs) →
    loading.mem m x = m x
  room : argsBytes args + argsBytes envs ≤ loading.useresp
  stack : loading.useresp < 2 ^ 32
  apart : argsMem + (argsBytes args + argsBytes envs) ≤
    loading.useresp - (argsBytes args + argsBytes envs) ∨ loading.useresp ≤ argsMem

/-- No copy of `sys_execve` leaves its array. -/
def ExecInBounds (loading : Loading) (argsMem : Nat) (s : ExecState)
    (filename argv envp : Nat) : Prop :=
  ∃ r, sysExecve loading argsMem s filename argv envp = some r

variable {loading : Loading} {argsMem argv envp filename : Nat} {s : ExecState}
    {args envs : List (List Byte)} {name : List Byte}

section

variable (h : Callable loading argsMem s argv envp args envs name)
include h

theorem Callable.programName :
    arg s.mem argv 0 ≠ 0 ∧ Terminated s.mem (arg s.mem argv 0) name ∧
      arg s.mem argv 0 + name.length < 2 ^ 32 := by
  obtain ⟨hne, hname, hin⟩ := h.argv.entry 0 name h.first
  rw [h.argv.arg_eq (fun _ hx => hx.1) (zero_le _)]
  exact ⟨hne, hname, (hin _ (le_add_right _ _) (le_refl _)).1⟩

theorem Callable.countArgsBytes :
    Exec.countArgsBytes s.mem argv = some (argsBytes args) ∧ Exec.countArgsBytes s.mem envp = some
      (argsBytes envs) ∧ ¬(i32 (argsBytes args) < 0 ∨ i32 (argsBytes envs) < 0) := by
  have hlong := h.long
  refine ⟨h.argv.countArgsBytes (fun _ hx => hx.1) (by omega),
    h.envp.countArgsBytes (fun _ hx => hx.1) (by omega), ?_⟩
  rw [i32_of_lt (by omega), i32_of_lt (by omega)]
  omega

/-- Too many entries in one of the vectors: an address is stored past `args_location`. -/
theorem Callable.saveArgs_of_lt (hmany : argsLocationSize < args.length ∨
    argsLocationSize < envs.length) :
    saveArgs s.mem argsMem (argsBytes args) (argsBytes envs) argv envp = none := by
  have hlong := h.long
  have hblock := h.block
  have hlt : ∀ x : Nat, x < 2 ^ 32 ∧ (x < argsMem ∨ argsMem + (argsBytes args + argsBytes envs) ≤
      x) → x < 2 ^ 32 :=
    fun _ hx => hx.1
  rw [saveArgs, u32_of_lt hblock]
  by_cases hargc : argsLocationSize < args.length
  · rw [pushArgsOnStack_of_lt (h.argv.countArgs hlt) hargc]
    rfl
  · obtain ⟨m₁, hpushed⟩ := h.argv.pushed (argsMem + (argsBytes args + argsBytes envs))
      (fun x hx => by omega) (Nat.le_of_not_lt hargc) (by omega) hblock (by omega)
    have henvp := h.envp.congr fun x hx => hpushed.frame x (by omega)
    rw [hpushed.run]
    exact congrArg (Option.bind · _) (pushArgsOnStack_of_lt (henvp.countArgs hlt)
      (hmany.resolve_left hargc))

end

/-- The copies of `sys_execve` stay inside their arrays exactly when the name of the
program has less than 255 bytes and, once there is a block for the arguments, both
vectors have at most 256 entries, and a program that is loaded has a name of less
than 100 bytes. -/
theorem exec_in_bounds_iff (h : Callable loading argsMem s argv envp args envs name)
    (hfilename : filename ≠ 0) :
    ExecInBounds loading argsMem s filename argv envp ↔ name.length < nameMax ∧
        (argsMem ≠ 0 → args.length ≤ argsLocationSize ∧ envs.length ≤ argsLocationSize ∧
          (loading.succeeds = true → name.length < taskNameMaxLength)) := by
  obtain ⟨hpointer, hname, hend⟩ := h.programName
  obtain ⟨hargvBytes, henvpBytes, hcounted⟩ := h.countArgsBytes
  have hargc := h.argv.countArgs fun _ hx => hx.1
  have hnone : ∀ {r : Int × ExecState}, (none : Option (Int × ExecState)) ≠ some r :=
    fun heq => by cases heq
  rw [ExecInBounds, sysExecve, if_neg hfilename, if_neg h.argv_ne, if_neg hpointer,
    if_neg h.envp_ne]
  by_cases hfits : name.length < nameMax
  swap
  · rw [strcpy_of_le hname hend (Nat.le_of_not_lt hfits) _]
    exact iff_of_false (fun ⟨_, hr⟩ => hnone hr) fun hbounds => hfits hbounds.1
  obtain ⟨nameBuffer, hcopy, hbuffer⟩ := strcpy_of_lt hname hend hfits fun _ => 0
  simp only [hcopy, hargc, hargvBytes, henvpBytes, bind_eq_bind, bind_some, if_neg hcounted]
  by_cases hmem : argsMem = 0
  · rw [if_pos hmem]
    exact iff_of_true ⟨_, rfl⟩ ⟨hfits, fun hne => absurd hmem hne⟩
  rw [if_neg hmem]
  by_cases hmany : argsLocationSize < args.length ∨ argsLocationSize < envs.length
  · rw [h.saveArgs_of_lt hmany]
    exact iff_of_false (fun ⟨_, hr⟩ => hnone hr) fun hbounds => by have := hbounds.2 hmem; omega
  obtain ⟨hargs, henvs⟩ := not_or.mp hmany
  rw [not_lt] at hargs henvs
  obtain ⟨_, m₂, _, _, hsave, hsaved, hsaved'⟩ := saveArgs_eq h.argv h.envp
    (fun x hx => hx.elim id id) hargs henvs h.block h.long
  rw [hsave, bind_some]
  by_cases hloads : loading.succeeds = true
  swap
  · rw [if_pos (Bool.eq_false_iff.mpr hloads)]
    exact iff_of_true ⟨_, rfl⟩ ⟨hfits, fun _ => ⟨hargs, henvs, fun heq => absurd heq hloads⟩⟩
  have hblock := h.block
  have hargv := hsaved.congr fun x hx => h.keeps m₂ x (by omega) hx.2
  have henvp := hsaved'.congr fun x hx => h.keeps m₂ x hx.1 (by omega)
  obtain ⟨_, m₄, _, _, hpass, _, _⟩ := passArgs_eq hargv henvp
    (fun x hx => by have := h.apart; omega) hargs henvs h.room h.stack h.long
  rw [if_neg (by rw [hloads]; decide), hpass, bind_some]
  have hlen : 0 + name.length < 2 ^ 32 := by
    omega
  by_cases hshort : name.length < taskNameMaxLength
  · obtain ⟨taskName, hfinal, _⟩ := strcpy_of_lt hbuffer hlen hshort s.name
    rw [hfinal]
    exact iff_of_true ⟨_, rfl⟩ ⟨hfits, fun _ => ⟨hargs, henvs, fun _ => hshort⟩⟩
  · rw [strcpy_of_le hbuffer hlen (Nat.le_of_not_lt hshort)]
    exact iff_of_false (fun ⟨_, hr⟩ => hnone hr) fun hbounds => hshort ((hbounds.2 hmem).2.2 hloads)

/-- A call whose program name has `n` bytes. -/
theorem callable_vectors {n : Nat} (hn : n < 0x1000) :
    Callable ⟨true, id, 0xC0000000⟩ 0x10000 ⟨vectors n, fun _ => 0, 0⟩ 0x1000 0x1800
      [List.replicate n 65, [65]] [[65]] (List.replicate n 65) := by
  have hbytes : argsBytes [List.replicate n 65, [65]] + argsBytes [[65]] = n + 25 := by
    simp only [argsBytes, charsBytes, map_cons, map_nil, sum_cons, sum_nil, length_cons, length_nil,
      length_replicate]
    omega
  refine ⟨by decide, by decide, (vectors_argv hn).mono fun x hx => ?_,
    (vectors_envp hn).mono fun x hx => ?_, rfl, ?_, ?_, fun _ _ _ _ => rfl, ?_, by decide, .inl ?_⟩
  · omega
  · omega
  · omega
  · omega
  · dsimp only
    omega
  · dsimp only
    omega

theorem exec_in_bounds_two :
    ExecInBounds ⟨true, id, 0xC0000000⟩ 0x10000 ⟨vectors 2, fun _ => 0, 0⟩ 0x900 0x1000 0x1800 :=
  (exec_in_bounds_iff (callable_vectors (by decide)) (by decide)).mpr
    ⟨by decide, fun _ => ⟨by decide, by decide, fun _ => by decide⟩⟩

/-- A program name of 255 bytes: the terminator is stored behind the name buffer. -/
theorem long_name_leaves_buffer :
    ¬ExecInBounds ⟨true, id, 0xC0000000⟩ 0x10000 ⟨vectors 255, fun _ => 0, 0⟩ 0x900 0x1000
      0x1800 := by
  have h := callable_vectors (show 255 < 0x1000 by decide)
  obtain ⟨hpointer, hname, hend⟩ := h.programName
  rintro ⟨r, hrun⟩
  rw [sysExecve, if_neg (by decide), if_neg h.argv_ne, if_neg hpointer, if_neg h.envp_ne,
    strcpy_of_le hname hend (by rw [length_replicate]; decide)] at hrun
  cases hrun

end Hos.Exec
