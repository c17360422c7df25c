import Hos.Process.Scheduler

/-!
# Runs of the kernel

The operations that change tasks, one by one: the system calls, the steps of
signal delivery and the switch to another task. A system call is made by the
running task from user mode, so `fork` needs the memory of the process to be
there; `exit` and `waitpid` are also called by `do_signal`.

`scheduler_run` with its loops and its recursion through stop signals is a run
of these operations, so what holds in every run holds around it too.
-/

namespace Hos.Kernel

open Option Function

/-- One operation of the kernel. -/
inductive Op where
  | fork (addr : UInt32) (ticks : Nat)
  | exit (code : BitVec 32)
  | waitpid (pid : Int) (options : Nat)
  | schedSetparam (pid : Int) (param : SchedParam) (ticks : Nat)
  | reschedule (ticks : Nat)
  | kill (pid sig : Int)
  | dequeueSignal (p : Nat)
  | handleSignal (p signr : Nat)
  | notifyStop (p : Nat)
  | enterStopped (p signr : Nat)
  | sigreturn
  | sigprocmask (how : SigmaskHow) (set : SigSet)
  | sigaction (signum : Int) (act : SigAction)

/-- The running task has its memory. -/
def inUserMode (k : Kernel) : Bool := (k.curr.bind k.tasks).any (·.image)

/-- The state after an operation that returns. -/
def Op.exec : Op → Kernel → Option Kernel
  | fork addr ticks, k => if k.inUserMode then (k.sysFork addr.toNat ticks).map (·.1) else none
  | exit code, k => k.sysExit code
  | waitpid pid options, k => (k.sysWaitpid pid options).map (·.1)
  | schedSetparam pid param ticks, k => (k.sysSchedSetparam pid param ticks).map (·.1)
  | reschedule ticks, k => k.reschedule ticks
  | kill pid sig, k => (k.sysKill pid sig).map (·.1)
  | dequeueSignal p, k => (k.dequeueSignal p).map (·.1)
  | handleSignal p signr, k => some (k.handleSignal p signr)
  | notifyStop p, k => k.notifyStop p
  | enterStopped p signr, k => k.enterStopped p signr
  | sigreturn, k => k.sysSigreturn
  | sigprocmask how set, k => (k.sysSigprocmask how set).map (·.1)
  | sigaction signum act, k => (k.sysSigaction signum act).map (·.1)

/-- The child that `sys_waitpid` frees. -/
def waitpidChild (k : Kernel) (pid : Int) (options : Nat) : Option Nat := do
  let c ← k.curr
  let t ← k.tasks c
  if pid < -1 ∨ pid = 0 ∨ pid = t.pid ∨ options ≠ 0 ∧ options ≠ wnohang then none
  else (k.findZombie pid t.children).join

/-- What `sys_waitpid` can do: nothing, or free a child of the running task. -/
theorem sysWaitpid_cases {k k' : Kernel} {pid ret : Int} {options : Nat}
    (h : k.sysWaitpid pid options = some (k', ret)) :
    ∃ c t, k.curr = some c ∧ k.tasks c = some t ∧
      (k' = k ∧ ret ≤ 0 ∧ k.waitpidChild pid options = none ∨
        ∃ e, k.waitpidChild pid options = some e ∧
        k.findZombie pid t.children = some (some e) ∧ k.reap c e = some k') := by
  simp only [sysWaitpid, bind_eq_bind, bind_eq_some_iff] at h
  obtain ⟨c, hcurr, t, ht, h⟩ := h
  refine ⟨c, t, hcurr, ht, ?_⟩
  have hchild : k.waitpidChild pid options =
      if pid < -1 ∨ pid = 0 ∨ pid = t.pid ∨ options ≠ 0 ∧ options ≠ wnohang then none
      else (k.findZombie pid t.children).join := by
    simp [waitpidChild, hcurr, ht]
  rw [hchild]
  have hsame : ∀ {ret' : Int}, ret' ≤ 0 → some (k, ret') = some (k', ret) → k' = k ∧ ret ≤ 0 := by
    intro ret' hle heq
    cases heq
    exact ⟨rfl, hle⟩
  have herrno : ∀ e : Errno, e.ret ≤ 0 := fun e => by cases e <;> decide
  split at h
  · exact .inl ⟨(hsame (herrno _) h).1, (hsame (herrno _) h).2, if_pos (by grind)⟩
  split at h
  · exact .inl ⟨(hsame (herrno _) h).1, (hsame (herrno _) h).2, if_pos (by grind)⟩
  split at h
  · exact .inl ⟨(hsame (herrno _) h).1, (hsame (herrno _) h).2, if_pos (by grind)⟩
  rw [if_neg (by grind)]
  split at h
  · rename_i hnil
    rw [hnil]
    exact .inl ⟨(hsame (herrno _) h).1, (hsame (herrno _) h).2, rfl⟩
  obtain ⟨found, hfound, h⟩ := bind_eq_some_iff.mp h
  rw [hfound]
  cases found with
  | none => exact .inl ⟨(hsame le_rfl h).1, (hsame le_rfl h).2, rfl⟩
  | some e =>
    simp only [bind_eq_some_iff] at h
    obtain ⟨entry, _, k₁, hreap, h⟩ := h
    cases h
    exact .inr ⟨e, rfl, rfl, hreap⟩

section

variable {k k' : Kernel} {p : Nat}

theorem boot_eq {addr ticks : Nat} {kmallocs : Nat → Option SigInfo}
    (h : boot addr ticks kmallocs = some k) :
    addr ≠ 0 ∧ k = ⟨Function.update (fun _ => none) addr
      (some { newTask 1 none ticks with image := true }), [addr], some addr, 1, 0, 2, [],
        kmallocs⟩ := by
  simp only [boot, allocTask, bind_eq_bind, bind_eq_some_iff] at h
  obtain ⟨k₁, halloc, h⟩ := h
  obtain ⟨hfree, halloc⟩ := ite_none_left_eq_some.mp halloc
  cases halloc
  cases h
  refine ⟨(not_or.mp hfree).1, ?_⟩
  simp only [modify, enqueueTask, update_self, update_idem, map_some]
  rfl

theorem sysKill_cases {pid sig ret : Int} (h : k.sysKill pid sig = some (k', ret)) :
    (k' = k ∧ (sig ≤ 0 ∨ (nsig : Int) ≤ sig ∨ k.getRunningProcess pid = none)) ∨
    ∃ p t k₁ ret', k.getRunningProcess pid = some p ∧ k.tasks p = some t ∧ 0 < sig ∧ sig < nsig ∧
      k.handleStopSignal sig.toNat p = some k₁ ∧
      k₁.sendSignal sig.toNat (some (mkInfo sig.toNat .siUser t.pid t.uid)) p = some
        (k', ret') := by
  rw [sysKill] at h
  split at h
  · rename_i hnone
    cases h
    exact .inl ⟨rfl, .inr (.inr hnone)⟩
  rename_i p hfind
  split at h
  · cases h
    exact .inl ⟨rfl, by omega⟩
  obtain ⟨t, ht, h⟩ := bind_eq_some_iff.mp h
  rw [sendSigInfo] at h
  split at h
  · omega
  split at h
  · cases h
    exact .inl ⟨rfl, by omega⟩
  simp only [bind_eq_bind, bind_eq_some_iff] at h
  obtain ⟨k₁, hstop, ⟨k₂, ret'⟩, hsend, h⟩ := h
  cases h
  exact .inr ⟨p, t, k₁, ret', hfind, ht, by omega, by omega, hstop, hsend⟩

theorem notifyStop_cases (h : k.notifyStop p = some k') :
    ∃ t parent u, k.tasks p = some t ∧ t.parent = some parent ∧ k.tasks parent = some u ∧
      (k' = k ∧ (u.action (sigchld - 1)).saFlags &&& saNocldstop ≠ 0#32 ∨
        (u.action (sigchld - 1)).saFlags &&& saNocldstop = 0#32 ∧ ∃ ret,
          k.sendSignal sigchld (some (mkInfo sigchld .siKernel t.pid t.uid)) parent = some
            (k', ret)) := by
  simp only [notifyStop, bind_eq_bind, bind_eq_some_iff] at h
  obtain ⟨t, ht, parent, hparent, u, hu, h⟩ := h
  refine ⟨t, parent, u, ht, hparent, hu, ?_⟩
  split at h
  · rename_i hflag
    obtain ⟨⟨k₁, ret⟩, hnotify, h⟩ := bind_eq_some_iff.mp h
    cases h
    simp only [notifyParent, ht, hparent, bind_eq_bind, bind_some] at hnotify
    exact .inr ⟨hflag, ret, hnotify⟩
  · rename_i hflag
    exact .inl ⟨(some.inj h).symm, hflag⟩

variable {c ticks : Nat} {t : Task}

theorem reschedule_of_zombie (ticks : Nat) (hcurr : k.curr = some c) (ht : k.tasks c = some t)
    (hzombie : t.state = .zombie) :
    k.reschedule ticks = some { k with
      queue := k.queue.erase c, numActive := sub32 k.numActive 1
      numPeriodic := if t.se.isPeriodic then sub32 k.numPeriodic 1 else k.numPeriodic
      curr := some (behind k.queue c) } := by
  simp only [reschedule, dequeueTask, hcurr, ht, hzombie, bind_eq_bind, bind_some, if_true]
  rfl

theorem reschedule_of_not_zombie (hcurr : k.curr = some c) (ht : k.tasks c = some t)
    (hzombie : t.state ≠ .zombie) :
    k.reschedule ticks = (k.schedulerRr c).map fun next =>
      { k.modify next (fun t => { t with se.execStart := ticks }) with curr := some next } := by
  simp only [reschedule, pickNextTask, hcurr, ht, hzombie, bind_eq_bind, bind_some, if_false]
  cases k.schedulerRr c <;> rfl

theorem reschedule_cases (h : k.reschedule ticks = some k') :
    ∃ c t, k.curr = some c ∧ k.tasks c = some t ∧ (t.state = .zombie ∧ k' = { k with
          queue := k.queue.erase c, numActive := sub32 k.numActive 1
          numPeriodic := if t.se.isPeriodic then sub32 k.numPeriodic 1 else k.numPeriodic
          curr := some (behind k.queue c) } ∨
        ∃ next, k.schedulerRr c = some next ∧ k' =
          { k.modify next (fun t => { t with se.execStart := ticks }) with
            curr := some next }) := by
  obtain ⟨c, hcurr, h'⟩ := bind_eq_some_iff.mp h
  obtain ⟨t, ht, -⟩ := bind_eq_some_iff.mp h'
  refine ⟨c, t, hcurr, ht, ?_⟩
  by_cases hzombie : t.state = .zombie
  · rw [reschedule_of_zombie ticks hcurr ht hzombie] at h
    exact .inl ⟨hzombie, (some.inj h).symm⟩
  · rw [reschedule_of_not_zombie hcurr ht hzombie] at h
    obtain ⟨next, hnext, rfl⟩ := map_eq_some_iff.mp h
    exact .inr ⟨next, hnext, rfl⟩

end

/-- The task that an operation frees. -/
def Op.freed : Op → Kernel → Option Nat
  | waitpid pid options, k => k.waitpidChild pid options
  | _, _ => none

/-- Every run of the kernel. -/
def AnyRun : Kernel → Kernel → Prop := Runs Op.exec fun _ _ => True

variable {k k' : Kernel} {ticks : Nat}

theorem AnyRun.op (op : Op) (h : op.exec k = some k') : AnyRun k k' := Runs.single trivial h

theorem AnyRun.ops (ops : List Op) (h : ops.foldlM (fun k op => op.exec k) k = some k') :
    AnyRun k k' :=
  Runs.of_foldlM (fun _ _ => trivial) h

theorem AnyRun.step {k₁ : Kernel} (op : Op) (h : op.exec k = some k₁) (hrun : AnyRun k₁ k') :
    AnyRun k k' := (AnyRun.op op h).trans hrun

theorem anyRun_reapAll : ∀ k k' : Kernel, k.reapAll = some k' → AnyRun k k' := by
  apply reapAll.partial_correctness
  intro loop ih k k' hrun
  simp only [bind_eq_bind, bind_eq_some_iff] at hrun
  obtain ⟨⟨k₁, pid⟩, hwait, hrun⟩ := hrun
  have hop : (Op.waitpid (-1) wnohang).exec k = some k₁ := by simp [Op.exec, hwait]
  split at hrun
  · exact .step _ hop (ih k₁ k' hrun)
  · cases hrun
    exact .op _ hop

/-- Delivering signals, stopping a task and running the scheduler are runs. -/
theorem anyRun_mutual :
    (∀ (k : Kernel) (p : Nat) (r : Kernel × Bool), k.deliver p ticks = some r → AnyRun k r.1) ∧
      (∀ (k : Kernel) (p signr : Nat) (r : Kernel), k.stop p signr ticks = some r → AnyRun k r) ∧
      ∀ (k : Kernel) (user : Bool) (r : Kernel), k.schedulerRun user ticks = some r →
        AnyRun k r := by
  apply deliver.mutual_partial_correctness
  · intro deliver stop ihDeliver ihStop k p r hrun
    simp only [bind_eq_bind, bind_eq_some_iff] at hrun
    obtain ⟨t, _, hrun⟩ := hrun
    by_cases hnil : t.pending.list = []
    · rw [if_pos hnil] at hrun
      cases hrun
      exact .refl k
    rw [if_neg hnil] at hrun
    obtain ⟨⟨k₁, signr, info⟩, hdequeue, hrun⟩ := bind_eq_some_iff.mp hrun
    have hop : (Op.dequeueSignal p).exec k = some k₁ := by simp [Op.exec, hdequeue]
    apply AnyRun.step _ hop
    dsimp only at hrun
    -- The branches of the loop body, in the order of the source.
    by_cases hrange : signr ≥ nsig ∨ signr = 0
    · rw [if_pos hrange] at hrun
      cases hrun
      exact .refl k₁
    rw [if_neg hrange] at hrun
    by_cases hinit : t.pid = 1
    · rw [if_pos hinit] at hrun
      exact ihDeliver _ _ _ hrun
    rw [if_neg hinit] at hrun
    split at hrun
    · split at hrun
      · obtain ⟨k₂, hreap, hrun⟩ := bind_eq_some_iff.mp hrun
        exact (anyRun_reapAll k₁ k₂ hreap).trans (ihDeliver _ _ _ hrun)
      · exact ihDeliver _ _ _ hrun
    split at hrun
    · split at hrun
      · exact ihDeliver _ _ _ hrun
      · split at hrun
        · exact ihDeliver _ _ _ hrun
        · obtain ⟨k₂, hstop, hrun⟩ := bind_eq_some_iff.mp hrun
          exact (ihStop _ _ _ _ hstop).trans (ihDeliver _ _ _ hrun)
      · obtain ⟨k₂, hstop, hrun⟩ := bind_eq_some_iff.mp hrun
        exact (ihStop _ _ _ _ hstop).trans (ihDeliver _ _ _ hrun)
      · obtain ⟨k₂, hexit, hrun⟩ := bind_eq_some_iff.mp hrun
        exact .step (.exit 3) hexit (ihDeliver _ _ _ hrun)
      · obtain ⟨k₂, hexit, hrun⟩ := bind_eq_some_iff.mp hrun
        cases hrun
        exact .op (.exit (BitVec.ofNat 32 signr)) hexit
    · simp only [bind_eq_some_iff] at hrun
      obtain ⟨c, _, u, _, hrun⟩ := hrun
      split at hrun
      · exact ihDeliver _ _ _ hrun
      · cases hrun
        exact .op (.handleSignal c signr) rfl
  · intro run ihRun k p signr k' hrun
    simp only [bind_eq_bind, bind_eq_some_iff] at hrun
    obtain ⟨k₁, hnotify, k₂, henter, hrun⟩ := hrun
    apply AnyRun.step (.notifyStop p) hnotify
    exact .step (.enterStopped p signr) henter (ihRun _ _ _ hrun)
  · intro deliver ihDeliver k user k' hrun
    split at hrun
    · cases hrun
      exact .refl k
    · split at hrun
      · obtain ⟨⟨k₁, handled⟩, hdeliver, hrun⟩ := bind_eq_some_iff.mp hrun
        have hsignals := ihDeliver _ _ _ hdeliver
        cases handled with
        | true =>
          cases hrun
          exact hsignals
        | false => exact hsignals.trans (AnyRun.op (.reschedule ticks) hrun)
      · exact .op (.reschedule ticks) hrun

/-- `scheduler_run` is a run of the operations. -/
theorem anyRun_schedulerRun {user : Bool} (h : k.schedulerRun user ticks = some k') :
    AnyRun k k' := anyRun_mutual.2.2 k user k' h

end Hos.Kernel
