import Hos.Process.Run

/-!
# Signals that may not be blocked

`SIGKILL` and `SIGSTOP` are meant to reach a task whatever it does: the comment
on `sys_sigaction` excludes them. Neither `sys_signal` nor `sys_sigaction` nor
`sys_sigprocmask` looks at the number, so a task can ignore them, catch them or
block them.

A run in which no call asks for that leaves both signals alone. In particular a
handler that is entered blocks its own signal only, which has a handler, and the
mask that `sys_sigreturn` restores was in force before.
-/

namespace Hos

open Option Function

/-- `SIGKILL`. -/
def sigkill : Nat := 9

/-- The signals that a task may not block, ignore or catch. -/
def unblockable : List Nat := [sigkill, sigstop]

/-- The signal is neither blocked nor ignored nor caught. The mask that
`sys_sigreturn` would restore does not block it either. -/
structure Task.Unguarded (t : Task) (sig : Nat) : Prop where
  blocked : t.blocked.sigismember sig = false
  saved : t.savedSigmask.sigismember sig = false
  handler : (t.action (sig - 1)).saHandler = sigDfl

/-- Both signals reach the task. -/
def Task.Killable (t : Task) : Prop := ∀ sig ∈ unblockable, t.Unguarded sig

/-- `do_signal` enters a handler for this signal. -/
def Task.hasHandler (t : Task) (signr : Nat) : Bool :=
  signr != 0 && (t.action (signr - 1)).saHandler != sigDfl &&
    (t.action (signr - 1)).saHandler != sigIgn

/-- The action is for another signal, or it is the default one. -/
def keepsDefault (signum : Int) (handler : Nat) : Prop :=
  signum.toNat ∈ unblockable → handler = sigDfl

section

variable {blocked set : SigSet} {sig : Nat} {how : Kernel.SigmaskHow}

theorem sigismember_apply : (how.apply blocked set).sigismember sig = match how with
    | .sigBlock => blocked.sigismember sig || set.sigismember sig
    | .sigUnblock => blocked.sigismember sig && !set.sigismember sig
    | .sigSetmask => set.sigismember sig := by
  have hlt : (sig - 1) % 32 < 32 := Nat.mod_lt _ (by decide)
  cases how <;> simp [Kernel.SigmaskHow.apply, SigSet.sigismember_eq, wordBit, hlt]

/-- Which changes of the mask leave an unblocked signal unblocked. -/
theorem sigismember_apply_eq_false (h : blocked.sigismember sig = false) :
    (how.apply blocked set).sigismember sig = false ↔ how = .sigUnblock ∨
      set.sigismember sig = false := by
  rw [sigismember_apply]
  cases how <;> simp [h]

end

theorem unblockable_bounds : ∀ sig ∈ unblockable, 0 < sig ∧ sig < nsig := by decide

namespace Task

variable {t : Task} {sig : Nat}

/-- A signal of the two has no handler, so no handler entry blocks it. -/
theorem Killable.enterHandler (h : t.Killable) {signr : Nat} (hhandler : t.hasHandler signr) :
    Killable { t with savedSigmask := t.blocked, blocked := t.blocked.sigaddset signr } := by
  simp only [hasHandler, Bool.and_eq_true, bne_iff_ne] at hhandler
  obtain ⟨⟨hzero, hdefault⟩, _⟩ := hhandler
  intro sig hsig
  have hpos := (unblockable_bounds sig hsig).1
  have hne : sig ≠ signr := by
    rintro rfl
    exact hdefault (h sig hsig).handler
  refine ⟨?_, (h sig hsig).blocked, (h sig hsig).handler⟩
  rw [SigSet.sigismember_sigaddset hzero (Nat.ne_of_gt hpos), (h sig hsig).blocked]
  simpa using hne

/-- A new action leaves the two signals alone exactly when it keeps the default. -/
theorem Killable.setAction_iff (h : t.Killable) {signum : Int} {act : SigAction}
    (hpos : 0 < signum) :
    Killable { t with action := Function.update t.action (signum.toNat - 1) act } ↔
      keepsDefault signum act.saHandler := by
  constructor
  · intro hnew hsig
    have hhandler := (hnew _ hsig).handler
    simpa only [update_self] using hhandler
  · intro hkeeps sig hsig
    refine ⟨(h sig hsig).blocked, (h sig hsig).saved, ?_⟩
    simp only [update_apply]
    split
    · have hsignum : sig = signum.toNat := by
        have := (unblockable_bounds sig hsig).1
        omega
      exact hkeeps (hsignum ▸ hsig)
    · exact (h sig hsig).handler

theorem Killable.setMask_iff (h : t.Killable) {how : Kernel.SigmaskHow} {set : SigSet} :
    Killable { t with blocked := how.apply t.blocked set } ↔
      how = .sigUnblock ∨ ∀ sig ∈ unblockable, set.sigismember sig = false := by
  constructor
  · intro hnew
    by_cases hhow : how = .sigUnblock
    · exact Or.inl hhow
    · refine Or.inr fun sig hsig => ?_
      exact ((sigismember_apply_eq_false (h sig hsig).blocked).mp
        (hnew sig hsig).blocked).resolve_left hhow
  · intro hok sig hsig
    refine ⟨?_, (h sig hsig).saved, (h sig hsig).handler⟩
    exact (sigismember_apply_eq_false (h sig hsig).blocked).mpr (hok.imp_right fun hset =>
      hset sig hsig)

end Task

namespace Kernel

/-- What a task can do to its masks and actions. A handler is entered for a
signal that has one. -/
inductive SigOp where
  | signal (signum : Int) (handler : Nat)
  | sigaction (signum : Int) (act : SigAction)
  | sigprocmask (how : SigmaskHow) (set : SigSet)
  | enterHandler (signr : Nat)
  | sigreturn

/-- The state after an operation of the running task that returns. -/
def SigOp.exec : SigOp → Kernel → Option Kernel
  | signal signum handler, k => (k.sysSignal signum handler).map (·.1)
  | sigaction signum act, k => (k.sysSigaction signum act).map (·.1)
  | sigprocmask how set, k => (k.sysSigprocmask how set).map (·.1)
  | enterHandler signr, k => do
      let p ← k.curr
      let t ← k.tasks p
      if t.hasHandler signr then some (k.handleSignal p signr) else none
  | sigreturn, k => k.sysSigreturn

/-- The operation asks for no guard against the two signals. -/
def SigOp.Permitted : SigOp → Prop
  | signal signum handler => keepsDefault signum handler
  | sigaction signum act => keepsDefault signum act.saHandler
  | sigprocmask how set => how = .sigUnblock ∨ ∀ sig ∈ unblockable, set.sigismember sig = false
  | enterHandler _ => True
  | sigreturn => True

/-- The running task is there, is not `init`, and both signals reach it. -/
def RunsKillable (k : Kernel) : Prop :=
  ∃ p t, k.curr = some p ∧ k.tasks p = some t ∧ t.pid ≠ 1 ∧ t.Killable

variable {k k' k₀ : Kernel} {p : Nat} {t : Task} {f : Task → Task}

theorem runsKillable_modify_iff (hcurr : k.curr = some p) (ht : k.tasks p = some t)
    (hpid : t.pid ≠ 1) (hf : (f t).pid = t.pid) : (k.modify p f).RunsKillable ↔ (f t).Killable := by
  have hnew : (k.modify p f).tasks p = some (f t) := by rw [modify_tasks_self, ht, map_some]
  constructor
  · rintro ⟨q, u, hq, hu, _, hkillable⟩
    cases hcurr.symm.trans hq
    cases hnew.symm.trans hu
    exact hkillable
  · intro hkillable
    exact ⟨p, f t, hcurr, hnew, hf ▸ hpid, hkillable⟩

theorem SigOp.runsKillable_sigaction_iff (h : k.RunsKillable) {signum ret : Int} {act : SigAction}
    (haction : k.sysSigaction signum act = some (k', ret)) :
    k'.RunsKillable ↔ keepsDefault signum act.saHandler := by
  obtain ⟨p, t, hcurr, ht, hpid, hkillable⟩ := h
  obtain ⟨rfl, hrange⟩ | ⟨q, hq, hpos, _, rfl⟩ := sysSigaction_cases haction
  · refine iff_of_true ⟨p, t, hcurr, ht, hpid, hkillable⟩ fun hsig => ?_
    -- the call was refused, so the number is none of the two
    obtain ⟨hpos, hlt⟩ := unblockable_bounds _ hsig
    rcases hrange with hneg | hlarge | hinit
    · omega
    · omega
    · simp [hcurr, ht, hpid] at hinit
  · cases hcurr.symm.trans hq
    exact (runsKillable_modify_iff hcurr ht hpid rfl).trans (hkillable.setAction_iff hpos)

/-- An operation leaves both signals alone exactly when it asks for no guard. -/
theorem SigOp.runsKillable_iff {op : SigOp} (h : k.RunsKillable) (hexec : op.exec k = some k') :
    k'.RunsKillable ↔ op.Permitted := by
  cases op with
  | signal signum handler =>
    rw [exec, sysSignal_eq] at hexec
    obtain ⟨⟨k₁, ret⟩, haction, rfl⟩ := map_eq_some_iff.mp hexec
    exact runsKillable_sigaction_iff h haction
  | sigaction signum act =>
    obtain ⟨⟨k₁, ret⟩, haction, rfl⟩ := map_eq_some_iff.mp hexec
    exact runsKillable_sigaction_iff h haction
  | sigprocmask how set =>
    obtain ⟨⟨k₁, ret⟩, hmask, rfl⟩ := map_eq_some_iff.mp hexec
    obtain ⟨p, t, hcurr, ht, hpid, hkillable⟩ := h
    obtain ⟨_, hinit⟩ | ⟨q, hq, hk₁⟩ := sysSigprocmask_cases hmask
    · simp [hcurr, ht, hpid] at hinit
    · cases hcurr.symm.trans hq
      rw [hk₁]
      exact (runsKillable_modify_iff hcurr ht hpid rfl).trans hkillable.setMask_iff
  | enterHandler signr =>
    obtain ⟨p, t, hcurr, ht, hpid, hkillable⟩ := h
    simp only [exec, hcurr, ht, bind_eq_bind, bind_some] at hexec
    split at hexec
    · rename_i hhandler
      cases hexec
      exact iff_of_true ((runsKillable_modify_iff hcurr ht hpid rfl).mpr
        (hkillable.enterHandler hhandler)) trivial
    · cases hexec
  | sigreturn =>
    obtain ⟨p, t, hcurr, ht, hpid, hkillable⟩ := h
    simp only [exec, sysSigreturn, hcurr, bind_eq_bind, bind_some] at hexec
    cases hexec
    refine iff_of_true ((runsKillable_modify_iff hcurr ht hpid rfl).mpr fun sig hsig => ?_) trivial
    exact ⟨(hkillable sig hsig).saved, (hkillable sig hsig).saved, (hkillable sig hsig).handler⟩

/-- Both signals reach a new task. -/
theorem killable_newTask (pid : Int) (parent : Option Nat) (ticks : Nat) :
    (newTask pid parent ticks).Killable := by
  intro sig hsig
  have hle : sig ≤ 32 := Nat.le_of_lt (unblockable_bounds sig hsig).2
  exact ⟨SigSet.sigismember_sigemptyset hle, SigSet.sigismember_sigemptyset hle, rfl⟩

/-- In a run of permitted operations of a task that is not `init` both signals
stay unblocked with their default action, and an operation keeps them so exactly
when it is permitted. -/
theorem unblockable_signals (h : k₀.RunsKillable)
    (hrun : Runs SigOp.exec (fun op _ => op.Permitted) k₀ k) :
    (∃ p t, k.curr = some p ∧ k.tasks p = some t ∧ ∀ sig ∈ unblockable,
      t.blocked.sigismember sig = false ∧ (t.action (sig - 1)).saHandler ≠ sigIgn ∧
        t.hasHandler sig = false) ∧
      ∀ (op : SigOp) (k' : Kernel), op.exec k = some k' → (k'.RunsKillable ↔ op.Permitted) := by
  have hinv := hrun.invariant RunsKillable
    (fun op _ _ hk hok hexec => (op.runsKillable_iff hk hexec).mpr hok) h
  refine ⟨?_, fun op k' hexec => op.runsKillable_iff hinv hexec⟩
  obtain ⟨p, t, hcurr, ht, _, hkillable⟩ := hinv
  refine ⟨p, t, hcurr, ht, fun sig hsig => ?_⟩
  have hhandler := (hkillable sig hsig).handler
  refine ⟨(hkillable sig hsig).blocked, ?_, ?_⟩
  · rw [hhandler]
    decide
  · simp [Task.hasHandler, hhandler]

/-- A child of the first task runs. -/
def childOps : List Op := [.fork 0x2000 0, .reschedule 0]

theorem runsKillable_child : ∃ k₀ k, boot 0x1000 0 (fun _ => none) = some k₀ ∧
    childOps.foldlM (fun k op => op.exec k) k₀ = some k ∧ k.RunsKillable := by
  refine ⟨_, _, rfl, rfl, 0x2000, _, rfl, rfl, by decide, fun sig hsig => ?_⟩
  have hnew := killable_newTask 2 none 0 sig hsig
  exact ⟨hnew.blocked, hnew.saved, hnew.handler⟩

/-- A task that catches `SIGINT` and nothing else. -/
theorem unblockable_signals_sigint :
    ∃ k₀ k, k₀.RunsKillable ∧ Runs SigOp.exec (fun op _ => op.Permitted) k₀ k ∧
      ∃ p t, k.curr = some p ∧ k.tasks p = some t ∧ ∀ sig ∈ unblockable,
        t.blocked.sigismember sig = false ∧ (t.action (sig - 1)).saHandler ≠ sigIgn ∧
          t.hasHandler sig = false := by
  obtain ⟨_, k, _, _, hkillable⟩ := runsKillable_child
  have hpermitted : (SigOp.signal 2 0x8000).Permitted := fun hsig => absurd hsig (by decide)
  obtain ⟨k', hexec⟩ : ∃ k', (SigOp.signal 2 0x8000).exec k = some k' := by
    obtain ⟨p, t, hcurr, ht, hpid, _⟩ := hkillable
    simp [SigOp.exec, sysSignal, hcurr, ht, hpid, nsig]
  have hrun : Runs SigOp.exec (fun op _ => op.Permitted) k k' := Runs.single hpermitted hexec
  exact ⟨k, k', hkillable, hrun, (unblockable_signals hkillable hrun).1⟩

/-- A task ignores `SIGKILL`, which is then dropped when it is sent. -/
theorem sigkill_ignored :
    ∃ k₀ k k' p t, boot 0x1000 0 (fun _ => none) = some k₀ ∧
      childOps.foldlM (fun k op => op.exec k) k₀ = some k ∧ k.RunsKillable ∧
      (SigOp.signal sigkill sigIgn).exec k = some k' ∧ k'.curr = some p ∧
      k'.tasks p = some t ∧ (t.action (sigkill - 1)).saHandler = sigIgn ∧
        t.sigIsIgnored sigkill = true := by
  obtain ⟨k₀, k, hboot, hexec, hkillable⟩ := runsKillable_child
  cases hboot
  cases hexec
  exact ⟨_, _, _, 0x2000, _, rfl, rfl, hkillable, rfl, rfl, rfl, rfl, rfl⟩

end Kernel

end Hos
