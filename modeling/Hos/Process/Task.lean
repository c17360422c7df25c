import Hos.Containers.ListHead
import Hos.Lib.Word
import Hos.Lib.WordBitmap

/-!
# Tasks of the kernel

A `task_struct` with the fields that scheduling, the process tree and signal
delivery use, and the kernel state around it: the run queue with its counters,
the queue of stopped tasks and the next process identifier. Tasks are named by
the address of their `task_struct`; an address without a task has been freed or
never used, and following it is undefined, which is `none` here.

Intrusive lists are lists of those addresses. `list_head_remove` on an entry
that is in no list changes nothing, as erasing an absent address does.
-/

namespace Hos

/-- The values of `task_struct.state`. -/
inductive TaskState where
  | running
  | interruptible
  | uninterruptible
  | stopped
  | traced
  | zombie
  | dead
deriving DecidableEq, Repr

/-- `sigset_t`, the words of `sig`. Only the first two exist; signal numbers
stay below `NSIG`. -/
structure SigSet where
  sig : Nat → BitVec 32

namespace SigSet

/-- `sigemptyset`, which clears the first word only. -/
def sigemptyset (set : SigSet) : SigSet := ⟨Function.update set.sig 0 0#32⟩

/-- `sigaddset`. -/
def sigaddset (set : SigSet) (signum : Nat) : SigSet :=
  if signum = 0 then set else ⟨setWordBit set.sig (signum - 1)⟩

/-- `sigdelset`. -/
def sigdelset (set : SigSet) (signum : Nat) : SigSet := ⟨clearWordBit set.sig (signum - 1)⟩

/-- `sigismember`. -/
def sigismember (set : SigSet) (signum : Nat) : Bool :=
  set.sig ((signum - 1) / 32) &&& (1#32 <<< ((signum - 1) % 32)) != 0#32

variable {set : SigSet} {signum n : Nat}

theorem sigismember_eq : set.sigismember signum = wordBit set.sig (signum - 1) :=
  and_mask_ne_zero (Nat.mod_lt _ (by decide))

theorem sigismember_sigaddset (hsignum : signum ≠ 0) (hn : n ≠ 0) :
    (set.sigaddset signum).sigismember n = (set.sigismember n || n == signum) := by
  have hpred : (n - 1 == signum - 1) = (n == signum) := by
    apply Bool.eq_iff_iff.mpr
    simp only [beq_iff_eq]
    omega
  rw [sigismember_eq, sigismember_eq, sigaddset, if_neg hsignum, wordBit_setWordBit (by decide),
    hpred]

theorem sigismember_sigdelset (hsignum : signum ≠ 0) (hn : n ≠ 0) :
    (set.sigdelset signum).sigismember n = (set.sigismember n && n != signum) := by
  have hpred : (n - 1 != signum - 1) = (n != signum) := by
    apply Bool.eq_iff_iff.mpr
    simp only [bne_iff_ne]
    omega
  rw [sigismember_eq, sigismember_eq, sigdelset, wordBit_clearWordBit (by decide), hpred]

theorem sigismember_sigemptyset (hword : n ≤ 32) : set.sigemptyset.sigismember n = false := by
  have hfirst : (n - 1) / 32 = 0 := Nat.div_eq_of_lt (by omega)
  simp [sigismember_eq, wordBit, hfirst, sigemptyset]

end SigSet

/-- The sender codes that the kernel stores. -/
inductive SenderCode where
  | siNoinfo
  | siUser
  | siKernel
deriving DecidableEq, Repr

/-- `siginfo_t`. -/
structure SigInfo where
  siSigno : Nat
  siCode : SenderCode
  sivalInt : Int
  siErrno : Int
  siPid : Int
  siUid : Int
  siAddr : Nat
  siStatus : Int
  siBand : Int
deriving DecidableEq, Repr

/-- The handler and the flags of a `sigaction_t`. -/
structure SigAction where
  saHandler : Nat
  saFlags : BitVec 32

/-- `sigpending_t`: the queue of pending signals and the set of their numbers. -/
structure SigPending where
  list : List SigInfo
  signal : SigSet

/-- The scheduling parameters of a task. -/
structure SchedEntity where
  prio : Int
  execStart : Nat
  period : Nat
  deadline : Nat
  arrivaltime : Nat
  nextPeriod : Nat
  executed : Bool
  isPeriodic : Bool
  isUnderAnalysis : Bool

/-- `task_struct`. The field `image` says whether the memory of the process is
still mapped: without it the task executes no instruction in user mode. -/
structure Task where
  pid : Int
  sid : Int
  pgid : Int
  uid : Int
  gid : Int
  state : TaskState
  parent : Option Nat
  children : List Nat
  se : SchedEntity
  exitCode : BitVec 32
  image : Bool
  action : Nat → SigAction
  blocked : SigSet
  realBlocked : SigSet
  savedSigmask : SigSet
  pending : SigPending

/-- The tasks, the run queue and the queue of stopped tasks. The outcomes of the
coming `kmalloc` calls for queue entries are part of the state: `NULL`, or a
block with what its bytes hold. -/
structure Kernel where
  tasks : Nat → Option Task
  queue : List Nat
  curr : Option Nat
  numActive : Nat
  numPeriodic : Nat
  tid : Nat
  stoppedQueue : List Nat
  kmallocs : Nat → Option SigInfo

/-- Error codes of `errno.h`. -/
inductive Errno where
  | esrch
  | echild
  | eagain
  | einval
deriving DecidableEq, Repr

/-- The value that a failing system call returns. -/
def Errno.ret : Errno → Int
  | esrch => -3
  | echild => -10
  | eagain => -11
  | einval => -22

/-- `list_head_append`: both lists afterwards. Nothing happens when one of them
is empty. -/
def listHeadAppend (main secondary : List Nat) : List Nat × List Nat :=
  if main ≠ [] ∧ secondary ≠ [] then (main ++ secondary, []) else (main, secondary)

/-- The entries of a list in the order in which a walk around it from `c` meets
them, without `c` itself. -/
def ringFrom (queue : List Nat) (c : Nat) : List Nat :=
  queue.drop (queue.idxOf c + 1) ++ queue.take (queue.idxOf c)

/-- The entry behind `c`. An entry that is in no list is behind itself. -/
def behind (queue : List Nat) (c : Nat) : Nat :=
  if c ∈ queue then (ringFrom queue c).head?.getD c else c

theorem ringFrom_perm (queue : List Nat) (c : Nat) : (ringFrom queue c).Perm (queue.erase c) := by
  rw [ringFrom, List.erase_eq_eraseIdx_of_idxOf rfl, List.eraseIdx_eq_take_drop_succ]
  exact List.perm_append_comm

namespace Kernel

/-- Change the task at an address. -/
def modify (k : Kernel) (p : Nat) (f : Task → Task) : Kernel :=
  { k with tasks := Function.update k.tasks p ((k.tasks p).map f) }

/-- The outcome of the next allocation of a queue entry. -/
def kmalloc (k : Kernel) : Option SigInfo × Kernel :=
  (k.kmallocs 0, { k with kmallocs := fun n => k.kmallocs (n + 1) })

/-- `scheduler_get_running_process`. -/
def getRunningProcess (k : Kernel) (pid : Int) : Option Nat :=
  k.queue.find? fun p => (k.tasks p).any fun t => t.pid = pid

variable {k : Kernel} {p q : Nat} {f : Task → Task}

@[simp] theorem modify_queue : (k.modify p f).queue = k.queue := rfl

@[simp] theorem modify_curr : (k.modify p f).curr = k.curr := rfl

@[simp] theorem modify_numActive : (k.modify p f).numActive = k.numActive := rfl

@[simp] theorem modify_numPeriodic : (k.modify p f).numPeriodic = k.numPeriodic := rfl

theorem modify_tasks_self : (k.modify p f).tasks p = (k.tasks p).map f := Function.update_self ..

theorem modify_tasks_of_ne (hne : q ≠ p) : (k.modify p f).tasks q = k.tasks q :=
    Function.update_of_ne hne ..

/-- A change that keeps an observation of a task keeps it for all tasks. -/
theorem map_modify {α : Type} {view : Task → α}
    (h : ∀ t, k.tasks p = some t → view (f t) = view t) :
    ((k.modify p f).tasks q).map view = (k.tasks q).map view := by
  by_cases hq : q = p
  · rw [hq, modify_tasks_self]
    cases ht : k.tasks p with
    | none => rfl
    | some t => exact congrArg some (h t ht)
  · rw [modify_tasks_of_ne hq]

end Kernel

end Hos
