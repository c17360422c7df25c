import Hos.Process.Task

/-!
# Sending and collecting signals

`signal.c`: a signal is sent to a task by adding an entry to the queue of its
pending signals and setting the bit of its number in `pending.signal`; stop and
continue signals first remove each other from the queue. Collecting a signal
takes the first entry of the lowest number that is pending and not blocked, and
clears the bit when no second entry of that number is queued.

Left out are the locks, the debugging output and the frame that a handler gets
on the user stack. Negative signal numbers never pass the checks of the callers,
so numbers of queued signals are naturals.
-/

namespace Hos

open Option

/-- `NSIG`. -/
def nsig : Nat := 32

/-- `SIGCHLD`. -/
def sigchld : Nat := 18

/-- `SIGSTOP`. -/
def sigstop : Nat := 23

/-- `SIGTSTP`. -/
def sigtstp : Nat := 24

/-- `SIGCONT`. -/
def sigcont : Nat := 25

/-- `SIGTTIN`. -/
def sigttin : Nat := 26

/-- `SIGTTOU`. -/
def sigttou : Nat := 27

/-- `SIG_DFL`. -/
def sigDfl : Nat := 0

/-- `SIG_IGN`. -/
def sigIgn : Nat := 1

/-- `SA_NOCLDSTOP`. -/
def saNocldstop : BitVec 32 := 0x00000001#32

/-- The `siginfo_t` that the kernel fills in for a task with this `pid` and `uid`. -/
def mkInfo (sig : Nat) (code : SenderCode) (pid uid : Int) : SigInfo where
  siSigno := sig
  siCode := code
  sivalInt := 0
  siErrno := 0
  siPid := pid
  siUid := uid
  siAddr := 0
  siStatus := 0
  siBand := 0

namespace Task

/-- `__sig_is_ignored`. -/
def sigIsIgnored (t : Task) (sig : Nat) : Bool :=
  if t.blocked.sigismember sig || t.realBlocked.sigismember sig then false
  else (t.action (sig - 1)).saHandler == sigIgn && sig != sigchld

/-- Add an entry to the pending signals and set the bit of the number. -/
def addPending (t : Task) (sig : Nat) (entry : SigInfo) : Task :=
  { t with pending := ⟨t.pending.list ++ [entry], t.pending.signal.sigaddset sig⟩ }

/-- `__rm_from_queue`. -/
def rmFromQueue (t : Task) (mask : SigSet) : Task :=
  { t with
    pending.list := t.pending.list.filter fun entry => !mask.sigismember entry.siSigno }

end Task

/-- The mask of the numbers of a list, as `handle_stop_signal` builds it. -/
def sigMask (sigs : List Nat) : SigSet :=
  sigs.foldl SigSet.sigaddset (SigSet.sigemptyset ⟨fun _ => 0#32⟩)

/-- The signals that stop a task. -/
def stopSignals : List Nat := [sigstop, sigtstp, sigttin, sigttou]

namespace Kernel

/-- `__send_signal`. Without `info` the entry keeps what its memory holds. -/
def sendSignal (k : Kernel) (sig : Nat) (info : Option SigInfo) (p : Nat) :
    Option (Kernel × Int) := do
  let t ← k.tasks p
  if t.sigIsIgnored sig then return (k, 0)
  else if t.state = .zombie ∨ t.state = .dead then return (k, Errno.einval.ret)
  else
    match k.kmalloc with
    | (none, k') => return (k', Errno.eagain.ret)
    | (some stale, k') => return (k'.modify p (·.addPending sig (info.getD stale)), 0)

/-- `__notify_parent`. -/
def notifyParent (k : Kernel) (p signr : Nat) : Option (Kernel × Int) := do
  let t ← k.tasks p
  let parent ← t.parent
  k.sendSignal signr (some (mkInfo signr .siKernel t.pid t.uid)) parent

/-- The first entry of the queue of stopped tasks whose task has the given `pid`. -/
def findStopped (k : Kernel) (pid : Int) : List Nat → Option (Option Nat)
  | [] => some none
  | q :: rest => do
      let t ← k.tasks q
      if t.pid = pid then return some q else k.findStopped pid rest

/-- The loop of `handle_stop_signal` over the stopped tasks, with
`default_wake_function` for the entry of the task itself. -/
def wakeStopped (k : Kernel) (p : Nat) : Option Kernel := do
  let t ← k.tasks p
  match ← k.findStopped t.pid k.stoppedQueue with
  | none => return k
  | some q =>
    let w ← k.tasks q
    if w.state = .uninterruptible ∨ w.state = .stopped then
      return { k.modify q ({ · with state := .running }) with
        stoppedQueue := k.stoppedQueue.erase q }
    else return k

/-- `handle_stop_signal`. -/
def handleStopSignal (k : Kernel) (sig p : Nat) : Option Kernel :=
  if sig ∈ stopSignals then some (k.modify p (·.rmFromQueue (sigMask [sigcont])))
  else if sig = sigcont then (k.modify p (·.rmFromQueue (sigMask stopSignals))).wakeStopped p
  else some k

/-- `__send_sig_info`. -/
def sendSigInfo (k : Kernel) (sig : Int) (info : SigInfo) (p : Nat) : Option (Kernel × Int) :=
  if sig < 0 ∨ sig > nsig then some (k, Errno.einval.ret)
  else if sig = 0 then some (k, 0)
  else do
    let k₁ ← k.handleStopSignal sig.toNat p
    let (k₂, _) ← k₁.sendSignal sig.toNat (some info) p
    return (k₂, 0)

/-- `sys_kill`. -/
def sysKill (k : Kernel) (pid sig : Int) : Option (Kernel × Int) :=
  match k.getRunningProcess pid with
  | none => some (k, Errno.esrch.ret)
  | some p =>
    if sig < 0 ∨ sig ≥ nsig then some (k, Errno.einval.ret)
    else do
      let t ← k.tasks p
      k.sendSigInfo sig (mkInfo sig.toNat .siUser t.pid t.uid) p

end Kernel

/-- `find_first_non_zero`. -/
def findFirstNonZero (value : BitVec 32) : Nat :=
  ((List.range 32).find? fun i => value &&& (1#32 <<< i) != 0#32).getD 0

namespace SigPending

/-- `__next_signal`: the lowest pending number that is not in the mask, or zero. -/
def nextSignal (pending : SigPending) (mask : SigSet) : Nat :=
  if pending.signal.sig 0 &&& ~~~(mask.sig 0) ≠ 0#32 then
    1 + findFirstNonZero (pending.signal.sig 0 &&& ~~~(mask.sig 0))
  else if pending.signal.sig 1 &&& ~~~(mask.sig 1) ≠ 0#32 then
    33 + findFirstNonZero (pending.signal.sig 1 &&& ~~~(mask.sig 1))
  else 0

/-- The scan of `__collect_signal`: the first entry of a number and whether there
is a second one. -/
def scan (sig : Nat) : List SigInfo → Option SigInfo → Option SigInfo × Bool
  | [], entry => (entry, false)
  | q :: rest, entry =>
    if q.siSigno = sig then
      match entry with
      | some found => (some found, true)
      | none => scan sig rest (some q)
    else scan sig rest entry

/-- `__collect_signal`, with the `info` that it fills in for the running process
when the signal is not in the queue. -/
def collectSignal (pending : SigPending) (sig : Nat) (unqueued : Option SigInfo) :
    Option (SigPending × SigInfo) :=
  let (entry, stillPending) := scan sig pending.list none
  let signal := if stillPending then pending.signal else pending.signal.sigdelset sig
  match entry with
  | some found => some (⟨pending.list.eraseP fun q => q.siSigno = sig, signal⟩, found)
  | none => unqueued.map fun info => (⟨pending.list, signal⟩, info)

end SigPending

namespace Kernel

/-- `__dequeue_signal` on the pending signals of a task that are not blocked. The
`info` of the signal is returned when it was collected. -/
def dequeueSignal (k : Kernel) (p : Nat) : Option (Kernel × Nat × Option SigInfo) := do
  let t ← k.tasks p
  let sig := t.pending.nextSignal t.blocked
  if 0 < sig ∧ sig < nsig then
    let current := k.curr.bind k.tasks
    let (pending, info) ← t.pending.collectSignal sig
      (current.map fun c => mkInfo sig .siUser c.pid c.uid)
    return (k.modify p ({ · with pending := pending }), sig, some info)
  else return (k, sig, none)

/-- `__handle_signal` on a task that is not `init`: the mask is saved and the
signal is blocked while its handler runs. -/
def handleSignal (k : Kernel) (p signr : Nat) : Kernel :=
  k.modify p fun t =>
    { t with savedSigmask := t.blocked, blocked := t.blocked.sigaddset signr }

/-- `sys_sigreturn`. -/
def sysSigreturn (k : Kernel) : Option Kernel := do
  let p ← k.curr
  return k.modify p fun t => { t with blocked := t.savedSigmask }

/-- The values of `sigmask_how_t`. -/
inductive SigmaskHow where
  | sigBlock
  | sigUnblock
  | sigSetmask
deriving DecidableEq, Repr

/-- How `sys_sigprocmask` changes the blocked signals. -/
def SigmaskHow.apply (how : SigmaskHow) (blocked set : SigSet) : SigSet :=
  match how with
  | sigBlock => ⟨fun i => blocked.sig i ||| set.sig i⟩
  | sigUnblock => ⟨fun i => blocked.sig i &&& ~~~(set.sig i)⟩
  | sigSetmask => set

/-- `sys_sigprocmask` with a new set. -/
def sysSigprocmask (k : Kernel) (how : SigmaskHow) (set : SigSet) : Option (Kernel × Int) := do
  let p ← k.curr
  let t ← k.tasks p
  if t.pid = 1 then return (k, Errno.einval.ret)
  else return (k.modify p fun t => { t with blocked := how.apply t.blocked set }, 0)

/-- `sys_sigaction` with a new action. Number zero passes the check and writes
in front of the table, which is undefined. -/
def sysSigaction (k : Kernel) (signum : Int) (act : SigAction) : Option (Kernel × Int) :=
  if signum < 0 ∨ signum ≥ nsig then some (k, Errno.einval.ret)
  else do
    let p ← k.curr
    let t ← k.tasks p
    if t.pid = 1 then return (k, Errno.einval.ret)
    else if signum = 0 then none
    else
      return (k.modify p fun t =>
        { t with action := Function.update t.action (signum.toNat - 1) act }, 0)

/-- The flags of an action that `sys_signal` sets: `SA_RESETHAND | SA_NODEFER`. -/
def sysSignalFlags : BitVec 32 := 0xC0000000#32

/-- `SIG_ERR`. -/
def sigErr : Nat := 0xFFFFFFFF

/-- `sys_signal`: the handler before. Number zero passes the check here too. -/
def sysSignal (k : Kernel) (signum : Int) (handler : Nat) : Option (Kernel × Nat) :=
  if signum < 0 ∨ signum ≥ nsig then some (k, sigErr)
  else do
    let p ← k.curr
    let t ← k.tasks p
    if t.pid = 1 then return (k, sigErr)
    else if signum = 0 then none
    else
      return (k.modify p fun t =>
        { t with
          action := Function.update t.action (signum.toNat - 1) ⟨handler, sysSignalFlags⟩ },
        (t.action (signum.toNat - 1)).saHandler)

variable {k k' : Kernel} {sig p : Nat} {info : Option SigInfo} {ret : Int}

/-- What `__send_signal` can do: nothing but use up an allocation, or queue the
signal. -/
theorem sendSignal_cases (h : k.sendSignal sig info p = some (k', ret)) :
    ∃ kmallocs, k' = { k with kmallocs := kmallocs } ∨ ∃ stale,
      k' = { k with kmallocs := kmallocs }.modify p (·.addPending sig (info.getD stale)) := by
  obtain ⟨t, _, h⟩ := bind_eq_some_iff.mp h
  split at h
  · cases h
    exact ⟨k.kmallocs, .inl rfl⟩
  split at h
  · cases h
    exact ⟨k.kmallocs, .inl rfl⟩
  split at h
  · rename_i k₁ hnull
    cases h
    exact ⟨_, .inl (congrArg Prod.snd hnull).symm⟩
  · rename_i stale k₁ hblock
    cases h
    obtain rfl := congrArg Prod.snd hblock
    exact ⟨_, .inr ⟨stale, rfl⟩⟩

theorem wakeStopped_cases (h : k.wakeStopped p = some k') :
    k' = k ∨ ∃ q w queue, k.tasks q = some w ∧ (w.state = .uninterruptible ∨ w.state = .stopped) ∧
      k' = { k.modify q ({ · with state := .running }) with stoppedQueue := queue } := by
  simp only [wakeStopped, bind_eq_bind, bind_eq_some_iff] at h
  obtain ⟨t, _, found, _, h⟩ := h
  cases found with
  | none => exact .inl (some.inj h).symm
  | some q =>
    obtain ⟨w, hw, h⟩ := bind_eq_some_iff.mp h
    split at h
    · rename_i hstate
      exact .inr ⟨q, w, _, hw, hstate, (some.inj h).symm⟩
    · exact .inl (some.inj h).symm

theorem dequeueSignal_cases {r : Nat × Option SigInfo} (h : k.dequeueSignal p = some (k', r)) :
    k' = k ∨ ∃ t sig unqueued pending info, k.tasks p = some t ∧ 0 < sig ∧ sig < nsig ∧
      t.pending.collectSignal sig unqueued = some (pending, info) ∧
      k' = k.modify p ({ · with pending := pending }) := by
  simp only [dequeueSignal, bind_eq_bind, bind_eq_some_iff] at h
  obtain ⟨t, ht, h⟩ := h
  split at h
  · rename_i hsig
    obtain ⟨⟨pending, info⟩, hcollect, h⟩ := bind_eq_some_iff.mp h
    cases h
    exact .inr ⟨t, _, _, pending, info, ht, hsig.1, hsig.2, hcollect, rfl⟩
  · cases h
    exact .inl rfl

theorem sysSigprocmask_cases {how : SigmaskHow} {set : SigSet}
    (h : k.sysSigprocmask how set = some (k', ret)) :
    k' = k ∧ (k.curr.bind k.tasks).any (·.pid = 1) ∨ ∃ p, k.curr = some p ∧
      k' = k.modify p fun t => { t with blocked := how.apply t.blocked set } := by
  simp only [sysSigprocmask, bind_eq_bind, bind_eq_some_iff] at h
  obtain ⟨p, hp, t, ht, h⟩ := h
  split at h
  · rename_i hinit
    cases h
    exact .inl ⟨rfl, by simp [hp, ht, hinit]⟩
  · cases h
    exact .inr ⟨p, hp, rfl⟩

theorem sysSigaction_cases {signum : Int} {act : SigAction}
    (h : k.sysSigaction signum act = some (k', ret)) :
    k' = k ∧ (signum < 0 ∨ signum ≥ nsig ∨ (k.curr.bind k.tasks).any (·.pid = 1)) ∨
      ∃ p, k.curr = some p ∧ 0 < signum ∧ signum < nsig ∧ k' = k.modify p fun t =>
          { t with action := Function.update t.action (signum.toNat - 1) act } := by
  rw [sysSigaction] at h
  split at h
  · rename_i hrange
    cases h
    exact .inl ⟨rfl, hrange.imp_right .inl⟩
  simp only [bind_eq_bind, bind_eq_some_iff] at h
  obtain ⟨p, hp, t, ht, h⟩ := h
  split at h
  · rename_i hinit
    cases h
    exact .inl ⟨rfl, .inr (.inr (by simp [hp, ht, hinit]))⟩
  split at h
  · cases h
  · cases h
    exact .inr ⟨p, hp, by omega, by omega, rfl⟩

/-- `sys_signal` changes the state as `sys_sigaction` does. -/
theorem sysSignal_eq (signum : Int) (handler : Nat) :
    (k.sysSignal signum handler).map (·.1) = (k.sysSigaction signum ⟨handler, sysSignalFlags⟩).map
      (·.1) := by
  rw [sysSignal, sysSigaction]
  split
  · rfl
  cases k.curr with
  | none => rfl
  | some p =>
    simp only [bind_eq_bind, bind_some]
    cases k.tasks p with
    | none => rfl
    | some t =>
      simp only [bind_some]
      split
      · rfl
      split <;> rfl

end Kernel

end Hos
