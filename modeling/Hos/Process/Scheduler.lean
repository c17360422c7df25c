import Hos.Process.Signal
import Hos.Lib.Run

/-!
# The run queue and the life of a process

`scheduler.c`, `sched_algo.c` and the parts of `task.c` and `signal.c` that
create, run, stop, end and free tasks. The kernel is built without a scheduling
macro, so the next task is chosen round robin. `scheduler_run` delivers the
pending signals of the running task first, and delivering a stop signal runs the
scheduler again: the two functions are mutually recursive.

`kernel_panic` and the use of a null pointer do not return. Registers, page
directories, open files and time accounting are left out.
-/

namespace Hos

/-- `sched_param_t`. -/
structure SchedParam where
  schedPriority : Int
  period : Nat
  deadline : Nat
  arrivaltime : Nat
  isPeriodic : Bool

/-- The parameters that `sys_sched_setparam` stores. -/
def SchedParam.entity (param : SchedParam) (se : SchedEntity) (ticks : Nat) : SchedEntity :=
  { se with
    prio := param.schedPriority
    period := param.period
    arrivaltime := param.arrivaltime
    isPeriodic := param.isPeriodic
    deadline := u32 (ticks + param.deadline)
    nextPeriod := ticks
    isUnderAnalysis := true
    executed := false }

/-- `DEFAULT_PRIO`. -/
def defaultPrio : Int := 120

/-- `WNOHANG`. -/
def wnohang : Nat := 1

/-- The fields that `__alloc_task` gives a new task. -/
def newTask (pid : Int) (parent : Option Nat) (ticks : Nat) : Task where
  pid := pid
  sid := 0
  pgid := 0
  uid := 0
  gid := 0
  state := .running
  parent := parent
  children := []
  se :=
    { prio := defaultPrio
      execStart := ticks
      period := 0
      deadline := 0
      arrivaltime := ticks
      nextPeriod := 0
      executed := false
      isPeriodic := false
      isUnderAnalysis := false }
  exitCode := 0
  image := false
  action := fun _ => ⟨sigDfl, 0⟩
  blocked := SigSet.sigemptyset ⟨fun _ => 0⟩
  realBlocked := SigSet.sigemptyset ⟨fun _ => 0⟩
  savedSigmask := SigSet.sigemptyset ⟨fun _ => 0⟩
  pending := ⟨[], SigSet.sigemptyset ⟨fun _ => 0⟩⟩

namespace Kernel

/-- `scheduler_enqueue_task`. -/
def enqueueTask (k : Kernel) (p : Nat) : Kernel :=
  { k with
    curr := k.curr.or (some p)
    queue := k.queue ++ [p]
    numActive := u32 (k.numActive + 1) }

/-- `scheduler_dequeue_task`. -/
def dequeueTask (k : Kernel) (p : Nat) : Option Kernel := do
  let t ← k.tasks p
  return { k with
    queue := k.queue.erase p
    numActive := sub32 k.numActive 1
    numPeriodic := if t.se.isPeriodic then sub32 k.numPeriodic 1 else k.numPeriodic }

/-- `__alloc_task` with the block that `kmalloc` returns, which is no task of the
kernel. Clearing the memory at `NULL` does not return. -/
def allocTask (k : Kernel) (addr : Nat) (parent : Option Nat) (ticks : Nat) : Option Kernel :=
  if addr = 0 ∨ (k.tasks addr).isSome then none
  else
    let k₁ := { k with
      tasks := Function.update k.tasks addr (some (newTask (i32 k.tid) parent ticks))
      tid := u32 (k.tid + 1) }
    match parent with
    | none => some k₁
    | some q => some (k₁.modify q fun t => { t with children := t.children ++ [addr] })

/-- The kernel after `scheduler_init`, with the first task of `create_task_test`. -/
def boot (addr ticks : Nat) (kmallocs : Nat → Option SigInfo) : Option Kernel := do
  let k ← allocTask ⟨fun _ => none, [], none, 0, 0, 1, [], kmallocs⟩ addr none ticks
  return (k.modify addr ({ · with image := true })).enqueueTask addr

/-- `sys_fork`. -/
def sysFork (k : Kernel) (addr ticks : Nat) : Option (Kernel × Int) := do
  let c ← k.curr
  let k₁ ← k.allocTask addr (some c) ticks
  let current ← k₁.tasks c
  let proc ← k₁.tasks addr
  let k₂ := k₁.modify addr fun t =>
    { t with
      image := true, sid := current.sid, pgid := current.pgid, uid := current.uid
      gid := current.gid }
  return (k₂.enqueueTask addr, proc.pid)

/-- The children of an exiting task become children of `init`. -/
def moveChildren (k : Kernel) (c : Nat) (initProc : Option Nat) : Option Kernel := do
  let t ← k.tasks c
  if t.children = [] then return k
  else
    let i ← initProc
    let k₁ := t.children.foldl (fun k entry => k.modify entry ({ · with parent := some i })) k
    let u ← k₁.tasks i
    let (main, secondary) := listHeadAppend u.children t.children
    return (k₁.modify i ({ · with children := main })).modify c ({ · with children := secondary })

/-- The `SIGCHLD` of `sys_exit` to the parent of the running task. -/
def signalParent (k : Kernel) (c : Nat) : Option Kernel := do
  let t ← k.tasks c
  match t.parent with
  | none => return k
  | some q =>
    let u ← k.tasks q
    let (k₁, _) ← k.sysKill u.pid sigchld
    return k₁

/-- `sys_exit`. -/
def sysExit (k : Kernel) (exitCode : BitVec 32) : Option Kernel := do
  let c ← k.curr
  let initProc := k.getRunningProcess 1
  if initProc = some c then none
  else
    let k₁ := k.modify c fun t =>
      { t with exitCode := (exitCode <<< 8) &&& 0xFF00#32, state := .zombie }
    let k₂ ← k₁.signalParent c
    let k₃ ← k₂.moveChildren c initProc
    return k₃.modify c ({ · with image := false })

/-- The loop of `sys_waitpid`: the first zombie among the children that is asked
for. -/
def findZombie (k : Kernel) (pid : Int) : List Nat → Option (Option Nat)
  | [] => some none
  | e :: rest => do
      let t ← k.tasks e
      if t.state ≠ .zombie then k.findZombie pid rest
      else if pid > 1 ∧ t.pid ≠ pid then k.findZombie pid rest
      else return some e

/-- Free a child of the running task. -/
def reap (k : Kernel) (c e : Nat) : Option Kernel := do
  let k₁ ← (k.modify c fun t => { t with children := t.children.erase e }).dequeueTask e
  return { k₁ with tasks := Function.update k₁.tasks e none }

/-- `sys_waitpid`. -/
def sysWaitpid (k : Kernel) (pid : Int) (options : Nat) : Option (Kernel × Int) := do
  let c ← k.curr
  let t ← k.tasks c
  if pid < -1 ∨ pid = 0 then return (k, Errno.esrch.ret)
  else if pid = t.pid then return (k, Errno.echild.ret)
  else if options ≠ 0 ∧ options ≠ wnohang then return (k, Errno.einval.ret)
  else if t.children = [] then return (k, Errno.echild.ret)
  else
    match ← k.findZombie pid t.children with
    | none => return (k, 0)
    | some e =>
      let entry ← k.tasks e
      let k₁ ← k.reap c e
      return (k₁, entry.pid)

/-- `sys_sched_setparam`. -/
def sysSchedSetparam (k : Kernel) (pid : Int) (param : SchedParam) (ticks : Nat) :
    Option (Kernel × Int) :=
  match k.getRunningProcess pid with
  | none => some (k, -1)
  | some p => do
      let t ← k.tasks p
      let numPeriodic :=
        if !t.se.isPeriodic && param.isPeriodic then u32 (k.numPeriodic + 1)
        else if t.se.isPeriodic && !param.isPeriodic then sub32 k.numPeriodic 1
        else k.numPeriodic
      let k₁ := { k with numPeriodic := numPeriodic }
      return (k₁.modify p fun t => { t with se := param.entity t.se ticks }, 1)

/-- `__scheduler_rr`, which skips no periodic task. -/
def schedulerRr (k : Kernel) (c : Nat) : Option Nat :=
  if c ∉ k.queue ∨ k.queue.length ≤ 1 then some c
  else (ringFrom k.queue c).find? fun p => (k.tasks p).any fun t => t.state = .running

/-- `scheduler_pick_next_task`. -/
def pickNextTask (k : Kernel) (c ticks : Nat) : Option (Kernel × Nat) := do
  let next ← k.schedulerRr c
  return (k.modify next fun t => { t with se.execStart := ticks }, next)

/-- `scheduler_run` when there is no signal to handle in user mode. -/
def reschedule (k : Kernel) (ticks : Nat) : Option Kernel := do
  let c ← k.curr
  let t ← k.tasks c
  if t.state = .zombie then
    let next := behind k.queue c
    let k₁ ← k.dequeueTask c
    return { k₁ with curr := some next }
  else
    let (k₁, next) ← k.pickNextTask c ticks
    return { k₁ with curr := some next }

/-- `is_orphaned_pgrp`. -/
def isOrphanedPgrp (k : Kernel) (pgid : Int) : Bool :=
  let sid := (k.queue.findSome? fun p => do
    let t ← k.tasks p
    if t.pgid = pgid then some t.sid else none).getD 0
  (k.getRunningProcess sid).isNone

/-- `sleep_on` for the queue of stopped tasks, and the state of a stopped task. -/
def enterStopped (k : Kernel) (p signr : Nat) : Option Kernel := do
  let c ← k.curr
  match (k.modify c ({ · with state := .uninterruptible })).kmalloc with
  | (none, _) => none
  | (some _, k₁) =>
    return { k₁ with stoppedQueue := k₁.stoppedQueue ++ [c] }.modify p fun t =>
      { t with state := .stopped, exitCode := BitVec.ofNat 32 signr }

/-- The `SIGCHLD` to the parent of a task that stops. -/
def notifyStop (k : Kernel) (p : Nat) : Option Kernel := do
  let t ← k.tasks p
  let parent ← t.parent
  let u ← k.tasks parent
  if (u.action (sigchld - 1)).saFlags &&& saNocldstop = 0#32 then
    let (k₁, _) ← k.notifyParent p sigchld
    return k₁
  else return k

/-- The loop of `do_signal` that frees all zombies when `SIGCHLD` is ignored. -/
def reapAll (k : Kernel) : Option Kernel := do
  let (k₁, pid) ← k.sysWaitpid (-1) wnohang
  if pid > 0 then (by apply reapAll : Kernel → Option Kernel) k₁ else return k₁
partial_fixpoint

end Kernel

/-- What `do_signal` does for a signal with the default handler. -/
inductive DefaultAction where
  | ignore
  | stopUnlessOrphaned
  | stop
  | abort
  | terminate
deriving DecidableEq, Repr

/-- The `switch` of `do_signal`. -/
def defaultAction (signr : Nat) : DefaultAction :=
  if signr = sigcont ∨ signr = sigchld ∨ signr = 21 ∨ signr = 20 then .ignore
  else if signr = sigtstp ∨ signr = sigttin ∨ signr = sigttou then .stopUnlessOrphaned
  else if signr = sigstop then .stop
  else if signr = 3 ∨ signr = 4 ∨ signr = 5 ∨ signr = 6 then .abort
  else .terminate

namespace Kernel

/-- The functions below, as `by apply` names them without a source position. -/
abbrev Deliver := Kernel → Nat → Nat → Option (Kernel × Bool)
abbrev Stop := Kernel → Nat → Nat → Nat → Option Kernel
abbrev Schedule := Kernel → Bool → Nat → Option Kernel

mutual

/-- The loop of `do_signal` for the signals of task `p`, and whether the task is
to return to user mode. -/
def deliver (k : Kernel) (p ticks : Nat) : Option (Kernel × Bool) := do
  let t ← k.tasks p
  if t.pending.list = [] then return (k, false)
  else
    let (k₁, signr, _) ← k.dequeueSignal p
    if signr ≥ nsig ∨ signr = 0 then return (k₁, false)
    else if t.pid = 1 then (by apply deliver : Deliver) k₁ p ticks
    else if (t.action (signr - 1)).saHandler = sigIgn then
      if signr = sigchld then
        let k₂ ← k₁.reapAll
        (by apply deliver : Deliver) k₂ p ticks
      else (by apply deliver : Deliver) k₁ p ticks
    else if (t.action (signr - 1)).saHandler = sigDfl then
      match defaultAction signr with
      | .ignore => (by apply deliver : Deliver) k₁ p ticks
      | .stopUnlessOrphaned =>
        if k₁.isOrphanedPgrp t.pgid then (by apply deliver : Deliver) k₁ p ticks
        else
          let k₂ ← (by apply stop : Stop) k₁ p signr ticks
          (by apply deliver : Deliver) k₂ p ticks
      | .stop =>
        let k₂ ← (by apply stop : Stop) k₁ p signr ticks
        (by apply deliver : Deliver) k₂ p ticks
      | .abort =>
        let k₂ ← k₁.sysExit 3
        (by apply deliver : Deliver) k₂ p ticks
      | .terminate =>
        let k₂ ← k₁.sysExit (BitVec.ofNat 32 signr)
        return (k₂, true)
    else
      -- `__handle_signal` asks for the running process itself, which is another
      -- one when a stop signal was delivered before.
      let c ← k₁.curr
      let u ← k₁.tasks c
      if u.pid = 1 then (by apply deliver : Deliver) k₁ p ticks
      else return (k₁.handleSignal c signr, true)
partial_fixpoint

/-- `__do_signal_stop`. -/
def stop (k : Kernel) (p signr ticks : Nat) : Option Kernel := do
  let k₁ ← k.notifyStop p
  let k₂ ← k₁.enterStopped p signr
  (by apply schedulerRun : Schedule) k₂ true ticks
partial_fixpoint

/-- `scheduler_run`, entered from user mode or from the kernel. -/
def schedulerRun (k : Kernel) (user : Bool) (ticks : Nat) : Option Kernel :=
  match k.curr with
  | none => some k
  | some c =>
    if user then do
      let (k₁, handled) ← (by apply deliver : Deliver) k c ticks
      if handled then return k₁ else k₁.reschedule ticks
    else k.reschedule ticks
partial_fixpoint

end

end Kernel

end Hos
