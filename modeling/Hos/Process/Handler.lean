import Hos.Process.Scheduler
import Hos.Lib.Bytes

/-!
# Entering and leaving signal handlers

`__handle_signal` stores the interrupted registers in `thread.signal_regs` and
the mask in `saved_sigmask`, and makes the task return to user mode in its
handler. `sys_sigreturn` loads both again. There is one place for each, so the
entry of a second handler overwrites what the first one needs.

A nesting is a task together with the contexts in which its active handlers were
entered. The active handlers can all return exactly when those contexts agree
with the saved one; everything but an entry preserves that, and an entry does
when no handler is active, or when it interrupts the very same context again.
-/

namespace Hos

open List Function

/-- `pt_regs`. -/
structure PtRegs where
  gs : BitVec 32
  fs : BitVec 32
  es : BitVec 32
  ds : BitVec 32
  edi : BitVec 32
  esi : BitVec 32
  ebp : BitVec 32
  esp : BitVec 32
  ebx : BitVec 32
  edx : BitVec 32
  ecx : BitVec 32
  eax : BitVec 32
  intNo : BitVec 32
  errCode : BitVec 32
  eip : BitVec 32
  cs : BitVec 32
  eflags : BitVec 32
  useresp : BitVec 32
  ss : BitVec 32
deriving DecidableEq, Repr

/-- `SA_SIGINFO`. -/
def saSiginfo : BitVec 32 := 0x00000004#32

/-- The values of `signal_sender_code_t`. -/
def SenderCode.value : SenderCode → BitVec 32
  | siNoinfo => 0#32
  | siUser => 1#32
  | siKernel => 2#32

/-- The words of a `siginfo_t` in memory. -/
def SigInfo.words (info : SigInfo) : List (BitVec 32) :=
  [BitVec.ofNat 32 info.siSigno, info.siCode.value, BitVec.ofInt 32 info.sivalInt,
    BitVec.ofInt 32 info.siErrno, BitVec.ofInt 32 info.siPid, BitVec.ofInt 32 info.siUid,
    BitVec.ofNat 32 info.siAddr, BitVec.ofInt 32 info.siStatus, BitVec.ofInt 32 info.siBand]

/-- The running task between user mode and the kernel: the registers `frame` on
the kernel stack, those stored in the thread and the memory of the process. -/
structure UserTask where
  task : Task
  frame : PtRegs
  regs : PtRegs
  signalRegs : PtRegs
  sigreturnAddr : BitVec 32
  memory : Bytes

/-- Registers and blocked signals. -/
abbrev Context := PtRegs × SigSet

namespace UserTask

/-- What the task runs with. -/
def context (u : UserTask) : Context := (u.frame, u.task.blocked)

/-- What `sys_sigreturn` will make it run with. -/
def saved (u : UserTask) : Context := (u.signalRegs, u.task.savedSigmask)

/-- `scheduler_store_context`. -/
def storeContext (u : UserTask) : UserTask := { u with regs := u.frame }

/-- `PUSH_VALUE_ON_STACK` of the user stack. -/
def pushValue (u : UserTask) (value : BitVec 32) : UserTask :=
  let useresp := u.frame.useresp - 4#32
  { u with
    frame.useresp := useresp
    memory := u.memory.store32 useresp.toNat value.toNat }

/-- A copy of the `siginfo_t` on the user stack, and its address. -/
def pushInfo (u : UserTask) (info : SigInfo) : UserTask :=
  let siginfoAddr := u.frame.useresp - 36#32
  let copied := info.words.zipIdx.foldl
    (fun memory word => memory.store32 (siginfoAddr.toNat + 4 * word.2) word.1.toNat) u.memory
  pushValue { u with frame.useresp := siginfoAddr, memory := copied } siginfoAddr

/-- `__handle_signal` for an action `ka`, and whether the signal is handled. -/
def handleSignal (u : UserTask) (signr : Nat) (info : SigInfo) (ka : SigAction) :
    UserTask × Bool :=
  if u.task.pid = 1 then (u, false)
  else
    let entered := { u with
      task.savedSigmask := u.task.blocked
      task.blocked := u.task.blocked.sigaddset signr
      signalRegs := u.frame
      frame := { u.regs with eip := BitVec.ofNat 32 ka.saHandler } }
    let told := if ka.saFlags &&& saSiginfo ≠ 0#32 then entered.pushInfo info else entered
    ((told.pushValue (BitVec.ofNat 32 signr)).pushValue told.sigreturnAddr, true)

/-- `sys_sigreturn`. -/
def sysSigreturn (u : UserTask) : UserTask :=
  { u with frame := u.signalRegs, task.blocked := u.task.savedSigmask }

variable {u : UserTask} {k : Kernel} {p signr : Nat} {info : SigInfo} {ka : SigAction}

@[simp]
theorem pushValue_task (value : BitVec 32) : (u.pushValue value).task = u.task := rfl

@[simp]
theorem pushInfo_task : (u.pushInfo info).task = u.task := rfl

@[simp]
theorem pushValue_saved (value : BitVec 32) : (u.pushValue value).saved = u.saved := rfl

@[simp]
theorem pushInfo_saved : (u.pushInfo info).saved = u.saved := rfl

/-- The entry of a handler saves the interrupted context. -/
theorem handleSignal_saved (hpid : u.task.pid ≠ 1) : (u.handleSignal signr info ka).1.saved =
    u.context := by
  simp only [handleSignal, if_neg hpid, pushValue_saved]
  split
  · rfl
  · rfl

theorem sysSigreturn_context : u.sysSigreturn.context = u.saved := rfl

theorem sysSigreturn_saved : u.sysSigreturn.saved = u.saved := rfl

/-- However often it is called, `sys_sigreturn` loads the same context. -/
theorem iterate_sysSigreturn_context (n : Nat) : (sysSigreturn^[n + 1] u).context = u.saved := by
  have hsaved : (sysSigreturn^[n] u).saved = u.saved := by
    induction n with
    | zero => rfl
    | succ n ih =>
      rw [iterate_succ_apply', sysSigreturn_saved]
      exact ih
  rw [iterate_succ_apply', sysSigreturn_context, hsaved]

/-- The masks are those of the kernel's tasks. -/
theorem handleSignal_task (hpid : u.task.pid ≠ 1) (ht : k.tasks p = some u.task) :
    (k.handleSignal p signr).tasks p = some (u.handleSignal signr info ka).1.task := by
  have htask : (u.handleSignal signr info ka).1.task = { u.task with
      savedSigmask := u.task.blocked, blocked := u.task.blocked.sigaddset signr } := by
    simp only [handleSignal, if_neg hpid, pushValue_task]
    split
    · rfl
    · rfl
  simp [htask, Kernel.handleSignal, Kernel.modify, ht]

theorem sysSigreturn_task (hcurr : k.curr = some p) (ht : k.tasks p = some u.task) :
    ∃ k', k.sysSigreturn = some k' ∧ k'.tasks p = some u.sysSigreturn.task := by
  simp [Kernel.sysSigreturn, hcurr, Kernel.modify, ht, UserTask.sysSigreturn]

end UserTask

/-- A task and the contexts in which its active handlers were entered, the
innermost first. -/
structure Nesting where
  user : UserTask
  entered : List Context

/-- What happens to the running task. In user mode and in other parts of the
kernel its registers, its memory and all fields but the saved ones may change. -/
inductive HandlerOp where
  | run (frame : PtRegs) (memory : Bytes)
  | change (f : Task → Task) (sigreturnAddr : BitVec 32)
  | deliver (signr : Nat) (info : SigInfo)
  | sigreturn

namespace HandlerOp

/-- The nesting afterwards. A signal is delivered to a handler only when the
action is one. -/
def exec : HandlerOp → Nesting → Option Nesting
  | run frame memory, s =>
    some { s with user := { s.user with frame := frame, memory := memory }.storeContext }
  | change f sigreturnAddr, s =>
    some { s with user := { s.user with
      task := { f s.user.task with
        pid := s.user.task.pid, savedSigmask := s.user.task.savedSigmask }
      sigreturnAddr := sigreturnAddr } }
  | deliver signr info, s =>
    let ka := s.user.task.action (signr - 1)
    if signr = 0 ∨ signr ≥ nsig ∨ ka.saHandler = sigDfl ∨ ka.saHandler = sigIgn then none
    else
      match s.user.handleSignal signr info ka with
      | (user, true) => some ⟨user, s.user.context :: s.entered⟩
      | (user, false) => some ⟨user, s.entered⟩
  | sigreturn, s => some ⟨s.user.sysSigreturn, s.entered.tail⟩

/-- A handler is entered only in the context that every active handler has
interrupted, so in particular when there is none. -/
def Undisturbed : HandlerOp → Nesting → Prop
  | deliver _ _, s => s.user.task.pid = 1 ∨ ∀ ctx ∈ s.entered, ctx = s.user.context
  | _, _ => True

end HandlerOp

namespace Nesting

variable {s s' s₀ : Nesting} {op : HandlerOp}

/-- Each of the coming returns restores the context in which the matching handler
was entered. -/
def Recovers (s : Nesting) : Prop :=
  ∀ n ctx, s.entered[n]? = some ctx → (UserTask.sysSigreturn^[n + 1] s.user).context = ctx

theorem recovers_iff : s.Recovers ↔ ∀ ctx ∈ s.entered, ctx = s.user.saved := by
  simp only [Recovers, UserTask.iterate_sysSigreturn_context]
  constructor
  · intro h ctx hctx
    obtain ⟨n, hn⟩ := mem_iff_getElem?.mp hctx
    exact (h n ctx hn).symm
  · intro h n ctx hn
    exact (h ctx (mem_of_getElem? hn)).symm

/-- An operation keeps all returns right exactly when it is undisturbed. -/
theorem recovers_exec_iff (h : s.Recovers) (hexec : op.exec s = some s') :
    s'.Recovers ↔ op.Undisturbed s := by
  rw [recovers_iff] at h ⊢
  cases op with
  | run frame memory =>
    cases hexec
    exact iff_of_true h trivial
  | change f addr =>
    cases hexec
    exact iff_of_true h trivial
  | sigreturn =>
    cases hexec
    exact iff_of_true (fun ctx hctx => h ctx (mem_of_mem_tail hctx)) trivial
  | deliver signr info =>
    simp only [HandlerOp.exec] at hexec
    split at hexec
    · cases hexec
    by_cases hpid : s.user.task.pid = 1
    · simp only [UserTask.handleSignal, if_pos hpid] at hexec
      cases hexec
      exact iff_of_true h (Or.inl hpid)
    · -- the saved context is now the one that this handler interrupts
      have hsaved : (s.user.handleSignal signr info (s.user.task.action (signr - 1))).1.saved =
          s.user.context := UserTask.handleSignal_saved hpid
      have hhandled : (s.user.handleSignal signr info (s.user.task.action (signr - 1))).2 =
          true := by
        simp [UserTask.handleSignal, if_neg hpid]
      generalize s.user.handleSignal signr info (s.user.task.action (signr - 1)) = r
        at hexec hsaved hhandled
      obtain ⟨user, handled⟩ := r
      obtain rfl : handled = true := hhandled
      cases hexec
      simp only [hsaved, forall_mem_cons, true_and, HandlerOp.Undisturbed, or_iff_right hpid]

/-- In every run that starts with no active handler and enters handlers
undisturbed, each return restores the registers and the mask that were in force
when its handler was entered, and an operation keeps it so exactly when it is
undisturbed. -/
theorem sigreturn_restores (hstart : s₀.entered = [])
    (hrun : Runs HandlerOp.exec HandlerOp.Undisturbed s₀ s) :
    s.Recovers ∧ ∀ (op : HandlerOp) (s' : Nesting), op.exec s = some s' →
      (s'.Recovers ↔ op.Undisturbed s) := by
  have hnone : s₀.Recovers := by
    rw [recovers_iff, hstart]
    simp
  have hinv := hrun.invariant Recovers (fun _ _ _ h hok hexec =>
    (recovers_exec_iff h hexec).mpr hok) hnone
  exact ⟨hinv, fun _ _ hexec => recovers_exec_iff hinv hexec⟩

/-- Registers of user mode at an instruction. -/
def userRegs (eip : BitVec 32) : PtRegs where
  gs := 0x23#32
  fs := 0x23#32
  es := 0x23#32
  ds := 0x23#32
  edi := 0#32
  esi := 0#32
  ebp := 0xBFFFFFE0#32
  esp := 0xC1000000#32
  ebx := 0#32
  edx := 0#32
  ecx := 0#32
  eax := 7#32
  intNo := 32#32
  errCode := 0#32
  eip := eip
  cs := 0x1B#32
  eflags := 0x202#32
  useresp := 0xBFFFFF00#32
  ss := 0x23#32

/-- A child that catches every signal and has been interrupted in its program. -/
def catching : Nesting where
  user :=
    { task := { newTask 2 none 0 with action := fun _ => ⟨0x8000, 0#32⟩ }
      frame := userRegs 0x400000#32
      regs := userRegs 0x400000#32
      signalRegs := userRegs 0#32
      sigreturnAddr := 0x7000#32
      memory := fun _ => 0#8 }
  entered := []

/-- A handler is entered and unblocks all signals. -/
theorem sigreturn_restores_single :
    ∃ s, catching.entered = [] ∧ Runs HandlerOp.exec HandlerOp.Undisturbed catching s ∧
      s.entered.length = 1 ∧ s.Recovers := by
  have hdeliver : (HandlerOp.deliver 10 (mkInfo 10 .siUser 3 0)).Undisturbed catching :=
    Or.inr fun _ hctx => absurd hctx not_mem_nil
  obtain ⟨s, hs, hlength⟩ : ∃ s, (HandlerOp.deliver 10 (mkInfo 10 .siUser 3 0)).exec catching =
      some s ∧ s.entered.length = 1 := ⟨_, rfl, rfl⟩
  let unblock : HandlerOp := .change (fun t => { t with blocked := ⟨fun _ => 0#32⟩ }) 0x7000#32
  obtain ⟨s', hs', hlength'⟩ : ∃ s', unblock.exec s = some s' ∧ s'.entered.length = 1 :=
    ⟨_, rfl, hlength⟩
  have hrun : Runs HandlerOp.exec HandlerOp.Undisturbed catching s' :=
    (Runs.single hdeliver hs).trans (Runs.single (i := unblock) trivial hs')
  exact ⟨s', rfl, hrun, hlength', (sigreturn_restores rfl hrun).1⟩

/-- A second signal arrives while the handler of the first one runs, and both
handlers return: the task goes on in its handler and not where it was
interrupted. -/
theorem nested_handler_loses_context :
    ∃ s, [HandlerOp.deliver 10 (mkInfo 10 .siUser 3 0), .run (userRegs 0x8004#32) fun _ => 0#8,
        .deliver 12 (mkInfo 12 .siUser 3 0), .sigreturn, .sigreturn].foldlM
          (fun s op => op.exec s) catching = some s ∧
      s.entered = [] ∧ catching.user.frame.eip = 0x400000#32 ∧ s.user.frame.eip = 0x8004#32 ∧
      catching.user.task.blocked.sigismember 10 = false ∧
        s.user.task.blocked.sigismember 10 = true :=
  ⟨_, rfl, rfl, rfl, rfl, rfl, rfl⟩

end Nesting

end Hos
