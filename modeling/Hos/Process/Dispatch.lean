import Hos.Process.Run

/-!
# The task that `scheduler_run` switches to

Two paths select the next task. The round robin search takes the first runnable
task behind the running one; it never looks at the running task itself, so it
ends without a task when that is the only one that can run. A task that has
become a zombie is removed, and whatever is behind it in the queue is run next,
also when it sleeps or is stopped.

Both conditions are exact: the selected task is in the run queue and runnable
precisely when the next entry behind a zombie is, or when some other task is.
-/

namespace Hos.Kernel

open List

/-- The task is in the run queue and in state `TASK_RUNNING`. -/
def Runnable (k : Kernel) (p : Nat) : Prop :=
  p ∈ k.queue ∧ ((k.tasks p).any fun t => t.state = .running) = true

/-- A task that is switched to can run. -/
def SwitchesToRunnable (k : Kernel) (ticks : Nat) : Prop :=
  ∀ k' next, k.reschedule ticks = some k' → k'.curr = some next → k.curr ≠ some next →
    k'.Runnable next

/-- A task is selected: no null pointer is followed. -/
def SelectsTask (k : Kernel) (ticks : Nat) : Prop := ∃ k', k.reschedule ticks = some k'

/-- The entry behind the running task `c` is itself or can run. -/
def BehindRunnable (k : Kernel) (c : Nat) : Prop :=
  behind k.queue c ≠ c → k.Runnable (behind k.queue c)

/-- The running task `c` is alone, or another task can run. -/
def OtherRunnable (k : Kernel) (c : Nat) : Prop :=
  c ∉ k.queue ∨ k.queue.length ≤ 1 ∨ ∃ p ∈ ringFrom k.queue c, k.Runnable p

section

variable {k k' : Kernel} {c p ticks : Nat} {t : Task}

theorem mem_of_mem_ringFrom {queue : List Nat} (h : p ∈ ringFrom queue c) : p ∈ queue :=
  mem_of_mem_erase ((ringFrom_perm queue c).mem_iff.mp h)

/-- Removing a zombie does not remove the task behind it. -/
theorem behind_mem_erase {queue : List Nat} (hne : behind queue c ≠ c) :
    behind queue c ∈ queue.erase c := by
  unfold behind at hne ⊢
  split
  · rename_i hmem
    cases hring : ringFrom queue c with
    | nil => simp [hring] at hne
    | cons p rest =>
      have hhead : p ∈ ringFrom queue c := hring ▸ mem_cons_self
      exact (ringFrom_perm queue c).mem_iff.mp hhead
  · rename_i hmem
    exact absurd (if_neg hmem) hne

/-- The accounting of the next task keeps it runnable. -/
theorem Runnable.dispatched (h : k.Runnable p) {q : Nat} {curr : Option Nat} :
    Runnable { k.modify q (fun t => { t with se.execStart := ticks }) with curr := curr } p := by
  refine ⟨h.1, ?_⟩
  have hstate : ((k.modify q fun t => { t with se.execStart := ticks }).tasks p).map Task.state =
      (k.tasks p).map Task.state := map_modify fun _ _ => rfl
  have hany := h.2
  simp only [Option.any_eq_true, decide_eq_true_eq] at hany ⊢
  obtain ⟨t, ht, hrunning⟩ := hany
  rw [ht, Option.map_some] at hstate
  obtain ⟨u, hu, hsame⟩ := Option.map_eq_some_iff.mp hstate
  exact ⟨u, hu, hsame.trans hrunning⟩

/-- The round robin search keeps the running task or finds one that can run. -/
theorem runnable_of_schedulerRr (h : k.schedulerRr c = some p) : p = c ∨ k.Runnable p := by
  unfold schedulerRr at h
  split at h
  · exact Or.inl (Option.some.inj h).symm
  · have hstate := find?_some h
    exact Or.inr ⟨mem_of_mem_ringFrom (mem_of_find?_eq_some h), hstate⟩

theorem schedulerRr_isSome_iff : (∃ p, k.schedulerRr c = some p) ↔ k.OtherRunnable c := by
  unfold schedulerRr OtherRunnable
  split
  · rename_i hstays
    simp [← or_assoc, hstays]
  · rename_i hsearch
    rw [← or_assoc, or_iff_right hsearch, ← Option.isSome_iff_exists, find?_isSome]
    refine exists_congr fun p => and_congr_right fun hring => ?_
    exact (and_iff_right (mem_of_mem_ringFrom hring)).symm

/-- Only the path of the zombies switches to a task that cannot run. -/
theorem switchesToRunnable_iff (hcurr : k.curr = some c) (ht : k.tasks c = some t) :
    k.SwitchesToRunnable ticks ↔ (t.state = .zombie → k.BehindRunnable c) := by
  constructor
  · intro hswitch hzombie hne
    have hrun := reschedule_of_zombie ticks hcurr ht hzombie
    have hother : k.curr ≠ some (behind k.queue c) := fun heq =>
      hne (Option.some.inj (heq.symm.trans hcurr))
    obtain ⟨hmem, hstate⟩ := hswitch _ _ hrun rfl hother
    exact ⟨mem_of_mem_erase hmem, hstate⟩
  · intro hbehind k' next hrun hnext hother
    have hne : next ≠ c := fun heq => hother (hcurr.trans (congrArg some heq.symm))
    by_cases hzombie : t.state = .zombie
    · have hrun' := reschedule_of_zombie ticks hcurr ht hzombie
      cases hrun'.symm.trans hrun
      cases hnext
      exact ⟨behind_mem_erase hne, (hbehind hzombie hne).2⟩
    · rw [reschedule_of_not_zombie hcurr ht hzombie] at hrun
      obtain ⟨found, hfound, rfl⟩ := Option.map_eq_some_iff.mp hrun
      cases hnext
      exact ((runnable_of_schedulerRr hfound).resolve_left hne).dispatched

/-- Only the round robin search can end without a task. -/
theorem selectsTask_iff (hcurr : k.curr = some c) (ht : k.tasks c = some t) :
    k.SelectsTask ticks ↔ (t.state ≠ .zombie → k.OtherRunnable c) := by
  by_cases hzombie : t.state = .zombie
  · have hrun := reschedule_of_zombie ticks hcurr ht hzombie
    exact iff_of_true ⟨_, hrun⟩ fun hne => absurd hzombie hne
  · rw [SelectsTask, reschedule_of_not_zombie hcurr ht hzombie, imp_iff_right hzombie,
      ← schedulerRr_isSome_iff]
    simp

/-- Without pending signals there is nothing to deliver. -/
theorem deliver_of_nil (ht : k.tasks c = some t) (hnil : t.pending.list = []) :
    k.deliver c ticks = some (k, false) := by
  rw [deliver]
  simp [ht, hnil]

/-- The signals that `scheduler_run` delivers first. -/
def signalsFirst (k : Kernel) (c : Nat) (user : Bool) (ticks : Nat) : Option (Kernel × Bool) :=
  if user then k.deliver c ticks else some (k, false)

/-- Whatever the mode it is entered from, `scheduler_run` switches only to a task
that is in the run queue and in state `TASK_RUNNING` exactly when the entry behind
a running zombie is one, in the state that the delivery of signals leaves; and it
selects a task exactly when a running task that is no zombie is alone in the
queue or another one can run. -/
theorem scheduler_dispatches_runnable {user : Bool} {k₁ : Kernel} {c₁ : Nat}
    (hcurr : k.curr = some c) (hsignals : k.signalsFirst c user ticks = some (k₁, false))
    (hcurr₁ : k₁.curr = some c₁) (ht : k₁.tasks c₁ = some t) :
    k.schedulerRun user ticks = k₁.reschedule ticks ∧
      (k₁.SwitchesToRunnable ticks ↔ (t.state = .zombie → k₁.BehindRunnable c₁)) ∧
      (k₁.SelectsTask ticks ↔ (t.state ≠ .zombie → k₁.OtherRunnable c₁)) := by
  refine ⟨?_, switchesToRunnable_iff hcurr₁ ht, selectsTask_iff hcurr₁ ht⟩
  rw [schedulerRun, hcurr]
  cases user with
  | true =>
    rw [signalsFirst, if_pos rfl] at hsignals
    simp [hsignals]
  | false =>
    cases hsignals
    rfl

end

/-- With a child that can run, the first task is switched to the child. -/
theorem scheduler_dispatches_runnable_child :
    ∃ k₀ k, boot 0x1000 0 (fun _ => none) = some k₀ ∧ AnyRun k₀ k ∧ k.curr = some 0x1000 ∧
      k.schedulerRun true 0 = k.reschedule 0 ∧ k.SwitchesToRunnable 0 ∧ k.SelectsTask 0 := by
  have hruns : ∀ {k : Kernel} {t : Task}, k.curr = some 0x1000 → k.tasks 0x1000 = some t →
      t.pending.list = [] → t.state = .running → 0x2000 ∈ ringFrom k.queue 0x1000 →
        k.Runnable 0x2000 →
      k.schedulerRun true 0 = k.reschedule 0 ∧ k.SwitchesToRunnable 0 ∧ k.SelectsTask 0 := by
    intro k t hcurr ht hnil hstate hring hrunnable
    have hsignals : k.signalsFirst 0x1000 true 0 = some (k, false) := deliver_of_nil ht hnil
    obtain ⟨hsched, hswitch, hselect⟩ := scheduler_dispatches_runnable hcurr hsignals hcurr ht
    refine ⟨hsched, hswitch.mpr fun hzombie => ?_, hselect.mpr fun _ =>
      Or.inr (Or.inr ⟨_, hring, hrunnable⟩)⟩
    rw [hstate] at hzombie
    cases hzombie
  exact ⟨_, _, rfl, .op (.fork 0x2000 0) rfl, rfl,
    hruns rfl rfl rfl rfl (by decide) ⟨by decide, rfl⟩⟩

/-- Two children: the second sends itself `SIGSTOP`, which is delivered, and then
the first exits. -/
def stopThenExit : List Op :=
  [.fork 0x2000 0, .fork 0x3000 0, .reschedule 0, .reschedule 0, .kill 3 sigstop,
    .dequeueSignal 0x3000, .notifyStop 0x3000, .enterStopped 0x3000 sigstop, .reschedule 0,
    .reschedule 0, .exit 0]

/-- The exit of the first child dispatches the stopped one, although `init` is in
the run queue and can run. -/
theorem dispatches_stopped_task :
    ∃ k₀ k k' t, boot 0x1000 0 (fun _ => some (mkInfo 0 .siUser 0 0)) = some k₀ ∧ AnyRun k₀ k ∧
      k.Runnable 0x1000 ∧ k.curr = some 0x2000 ∧ k.schedulerRun true 0 = some k' ∧
      k'.curr = some 0x3000 ∧ k'.tasks 0x3000 = some t ∧ t.state = .stopped := by
  have hsched : ∀ {k k' : Kernel} {u : Task}, k.curr = some 0x2000 → k.tasks 0x2000 = some u →
      u.pending.list = [] → k.reschedule 0 = some k' → k.schedulerRun true 0 = some k' := by
    intro k k' u hcurr hu hnil hnext
    rw [schedulerRun, hcurr]
    simp [deliver_of_nil hu hnil, hnext]
  exact ⟨_, _, _, _, rfl, AnyRun.ops stopThenExit rfl, ⟨by decide, rfl⟩, rfl,
    hsched rfl rfl rfl rfl, rfl, rfl, rfl⟩

end Hos.Kernel
