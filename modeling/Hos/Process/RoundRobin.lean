import Hos.Process.Dispatch

/-!
# Taking turns

`__scheduler_rr` walks around the run queue from the running task and stops at the first
task in state `TASK_RUNNING`. The walk ends when it is back at the running task, which is
not looked at, so one runnable task is enough only when it is another one or alone in
the queue. With two of them or more, every runnable task gets its turn before the first
one is run again, in the order of the queue.
-/

namespace Hos.Kernel

open List

/-- The task is in state `TASK_RUNNING`. -/
def isRunning (k : Kernel) (p : Nat) : Bool := (k.tasks p).any fun t => t.state = .running

section

variable {k : Kernel} {c ticks : Nat}

/-- With a runnable task in the queue, a task is picked without a failed assertion, and
can run, exactly when the running task is alone in the queue or another entry can run. -/
theorem pickNextTask_runnable_iff (hmem : c ∈ k.queue) (hsome : ∃ p, k.Runnable p) :
    (∃ k' next, k.pickNextTask c ticks = some (k', next) ∧ k'.Runnable next) ↔
      k.queue.length ≤ 1 ∨ ∃ p ∈ k.queue.erase c, k.Runnable p := by
  have hother : k.OtherRunnable c ↔ k.queue.length ≤ 1 ∨ ∃ p ∈ k.queue.erase c, k.Runnable p := by
    simp only [OtherRunnable, hmem, not_true_eq_false, false_or, (ringFrom_perm k.queue c).mem_iff]
  rw [← hother, ← schedulerRr_isSome_iff]
  constructor
  · rintro ⟨k', next, hpick, -⟩
    obtain ⟨p, hp, -⟩ := Option.bind_eq_some_iff.mp hpick
    exact ⟨p, hp⟩
  · rintro ⟨p, hp⟩
    refine ⟨_, p, by rw [pickNextTask, hp]; rfl, @Runnable.dispatched k p ticks ?_ p k.curr⟩
    obtain rfl | hrunnable := runnable_of_schedulerRr hp
    · unfold schedulerRr at hp
      split at hp
      · -- the runnable task of the queue is its only entry
        rename_i hstays
        obtain ⟨q, hq⟩ := hsome
        have hshort : k.queue.length ≤ 1 := hstays.resolve_left (not_not_intro hmem)
        obtain ⟨a, ha⟩ := length_eq_one_iff.mp (le_antisymm hshort (length_pos_of_mem hmem))
        have hqa := hq.1
        rw [ha, mem_singleton] at hmem hqa
        rwa [hmem, ← hqa]
      · have hstate := find?_some hp
        exact ⟨hmem, hstate⟩
    · exact hrunnable

end

/-- With a second task that can run, the first one is followed by it. -/
theorem pickNextTask_runnable_child :
    ∃ k₀ k, boot 0x1000 0 (fun _ => none) = some k₀ ∧ (Op.fork 0x2000 0).exec k₀ = some k ∧
      ∃ k' next, k.pickNextTask 0x1000 0 = some (k', next) ∧ k'.Runnable next := by
  have hother : ∀ {k : Kernel}, 0x1000 ∈ k.queue → 0x2000 ∈ k.queue.erase 0x1000 →
      k.Runnable 0x2000 → ∃ k' next, k.pickNextTask 0x1000 0 = some (k', next) ∧ k'.Runnable next :=
    fun hmem hother h => (pickNextTask_runnable_iff hmem ⟨_, h⟩).mpr (Or.inr ⟨_, hother, h⟩)
  exact ⟨_, _, rfl, rfl, hother (by decide) (by decide) ⟨by decide, rfl⟩⟩

/-- The child stops, and `init` is the only task that can run. -/
def onlyInitRuns : List Op :=
  [.fork 0x2000 0, .reschedule 0, .kill 2 sigstop, .dequeueSignal 0x2000, .notifyStop 0x2000,
    .enterStopped 0x2000 sigstop, .reschedule 0]

/-- The next call of the scheduler selects no task, although the running one can run. -/
theorem only_runnable_not_picked :
    ∃ k₀ k, boot 0x1000 0 (fun _ => some (mkInfo 0 .siUser 0 0)) = some k₀ ∧ AnyRun k₀ k ∧
      k.curr = some 0x1000 ∧ k.Runnable 0x1000 ∧ k.pickNextTask 0x1000 0 = none := by
  exact ⟨_, _, rfl, AnyRun.ops onlyInitRuns rfl, rfl, ⟨by decide, rfl⟩, rfl⟩

/-- The same run queue and the same state of every task. -/
structure SameStates (k k' : Kernel) : Prop where
  queue : k'.queue = k.queue
  states : ∀ p, (k'.tasks p).map Task.state = (k.tasks p).map Task.state

/-- The tasks that consecutive decisions of `scheduler_run` select. Before each of them
the running task does some work and its signals are delivered. -/
def selected : List ((Kernel → Kernel) × Nat) → Kernel → Option (List Nat)
  | [], _ => some []
  | (work, ticks) :: rest, k => do
      let k₁ ← (work k).reschedule ticks
      let next ← k₁.curr
      return next :: (← selected rest k₁)

section

variable {k k' : Kernel} {c x ticks : Nat} {queue before after : List Nat}

theorem ringFrom_append (hnot : x ∉ before) :
    ringFrom (before ++ x :: after) x = after ++ before := by
  have hidx : (before ++ x :: after).idxOf x = before.length := by
    rw [idxOf_append_of_notMem hnot, idxOf_cons_self, Nat.add_zero]
  rw [ringFrom, hidx, take_left, drop_append]
  simp

/-- The walk from another entry of the ring starts at a later place. -/
theorem ringFrom_of_split (hnodup : queue.Nodup) (hmem : c ∈ queue)
    (hsplit : c :: ringFrom queue c = before ++ x :: after) :
    ringFrom queue x = after ++ before := by
  obtain ⟨l, r, rfl⟩ := append_of_mem hmem
  have hc : c ∉ l := fun h => disjoint_of_nodup_append hnodup h mem_cons_self
  rw [ringFrom_append hc, ← cons_append, append_eq_append_iff] at hsplit
  have hx : ∀ l' r' : List Nat, l ++ c :: r = l' ++ x :: r' →
      ringFrom (l ++ c :: r) x = r' ++ l' := by
    intro l' r' heq
    rw [heq] at hnodup ⊢
    exact ringFrom_append fun h => disjoint_of_nodup_append hnodup h mem_cons_self
  obtain ⟨mid, rfl, rfl⟩ | ⟨mid, hbefore, hafter⟩ := hsplit
  · rw [hx mid (after ++ c :: r) (by simp), append_assoc, cons_append]
  · obtain ⟨rfl, rfl⟩ | ⟨mid, rfl, rfl⟩ := cons_eq_append_iff.mp hafter
    · rw [hx [] (after ++ c :: r) rfl, hbefore]
      simp
    · rw [hx (l ++ before) mid (by simp [hbefore]), append_assoc]

theorem SameStates.trans {k₁ : Kernel} (h : SameStates k k₁) (h' : SameStates k₁ k') :
    SameStates k k' :=
  ⟨h'.queue.trans h.queue, fun p => (h'.states p).trans (h.states p)⟩

theorem SameStates.isRunning (h : SameStates k k') : k'.isRunning = k.isRunning := by
  have hview : ∀ k : Kernel, k.isRunning =
      fun p => ((k.tasks p).map Task.state).any fun state => state = .running := by
    intro k
    funext p
    rw [Option.any_map]
    rfl
  simp only [hview, h.states]

/-- A decision changes no state. -/
theorem reschedule_of_isRunning {next : Nat} (hcurr : k.curr = some x) (hx : k.isRunning x = true)
    (hnext : k.schedulerRr x = some next) :
    ∃ k₁, k.reschedule ticks = some k₁ ∧ k₁.curr = some next ∧ SameStates k k₁ := by
  obtain ⟨t, ht, hstate⟩ := (Option.any_eq_true _ _).mp hx
  have hzombie : t.state ≠ .zombie := by
    rw [of_decide_eq_true hstate]
    decide
  rw [reschedule_of_not_zombie hcurr ht hzombie, hnext]
  exact ⟨_, rfl, rfl, rfl, fun p => map_modify (f := fun t => { t with se.execStart := ticks })
    fun _ _ => rfl⟩

variable {rounds : List ((Kernel → Kernel) × Nat)}

/-- The turns that are left when the ring is walked from `c` up to `x`. -/
theorem selected_of_split (hnodup : k.queue.Nodup) (hmem : c ∈ k.queue) (hc : k.isRunning c = true)
    (hwork : ∀ round ∈ rounds, ∀ k, SameStates k (round.1 k) ∧ (round.1 k).curr = k.curr)
    (hsplit : c :: ringFrom k.queue c = before ++ x :: after) (hx : k.isRunning x = true)
    (htwo : before ≠ [] ∨ after.filter k.isRunning ≠ [])
    (hlength : rounds.length = (after.filter k.isRunning).length + 1)
    (hcurr : k'.curr = some x) (hsame : SameStates k k') :
    selected rounds k' = some (after.filter k.isRunning ++ [c]) := by
  induction rounds generalizing before x after k' with
  | nil => cases hlength
  | cons round rounds ih =>
    obtain ⟨hround, hrest⟩ := forall_mem_cons.mp hwork
    have hsame' := hsame.trans (hround k').1
    have hturn : ∀ next, (after ++ before).find? k.isRunning = some next →
        ∃ k₁, (round.1 k').reschedule round.2 = some k₁ ∧ k₁.curr = some next ∧
          SameStates k k₁ := by
      intro next hfound
      have hperm : (before ++ x :: after).Perm k.queue :=
        hsplit ▸ ((ringFrom_perm k.queue c).cons c).trans (perm_cons_erase hmem).symm
      have hlong : 0 < before.length ∨ 0 < after.length :=
        htwo.imp length_pos_iff.mpr fun hne =>
          length_pos_iff.mpr fun hnil => hne (congrArg (List.filter _) hnil)
      have hsearch : ¬(x ∉ k.queue ∨ k.queue.length ≤ 1) := by
        simp only [← hperm.mem_iff, ← hperm.length_eq, mem_append, mem_cons, true_or, or_true,
          not_true_eq_false, false_or, length_append, length_cons]
        omega
      have hnext : (round.1 k').schedulerRr x = some next := by
        rw [schedulerRr, hsame'.queue, if_neg hsearch, ringFrom_of_split hnodup hmem hsplit,
          ← hfound, ← hsame'.isRunning]
        rfl
      obtain ⟨k₁, hrun, hcurr₁, hsame₁⟩ :=
        reschedule_of_isRunning ((hround k').2.trans hcurr) (hsame'.isRunning ▸ hx) hnext
      exact ⟨k₁, hrun, hcurr₁, hsame'.trans hsame₁⟩
    cases hfilter : after.filter k.isRunning with
    | nil =>
      -- the walk passes the end of the ring and starts over at `c`
      obtain ⟨y, before, rfl⟩ := exists_cons_of_ne_nil (htwo.resolve_right (not_not_intro hfilter))
      obtain rfl := (cons.inj hsplit).1
      obtain rfl := length_eq_zero_iff.mp (Nat.succ.inj (hlength.trans (by rw [hfilter]; rfl)))
      have hnone : after.find? k.isRunning = none := by simpa [filter_eq_nil_iff] using hfilter
      obtain ⟨k₁, hrun, hcurr₁, -⟩ := hturn c (by simp [hnone, hc])
      simp [selected, hrun, hcurr₁]
    | cons y ys =>
      obtain ⟨skipped, rest, rfl, hskipped, hy, rfl⟩ := filter_eq_cons_iff.mp hfilter
      have hnone : skipped.find? k.isRunning = none := by simpa using hskipped
      obtain ⟨k₁, hrun, hcurr₁, hsame₁⟩ := hturn y (by simp [hnone, hy])
      rw [hfilter] at hlength
      have hsplit' : c :: ringFrom k.queue c = (before ++ x :: skipped) ++ y :: rest := by
        simp [hsplit]
      have hlater := ih hrest hsplit' hy (by simp) (Nat.succ.inj hlength) hcurr₁ hsame₁
      simp [selected, hrun, hcurr₁, hlater]

/-- With two runnable tasks or more, as many decisions as there are runnable tasks select
each of them once, in the order of the queue from the running task on, and the running
task last. -/
theorem selected_each_once (hnodup : k.queue.Nodup) (hcurr : k.curr = some c) (hmem : c ∈ k.queue)
    (hc : k.isRunning c = true) (htwo : 2 ≤ (k.queue.filter k.isRunning).length)
    (hwork : ∀ round ∈ rounds, ∀ k, SameStates k (round.1 k) ∧ (round.1 k).curr = k.curr)
    (hlength : rounds.length = (k.queue.filter k.isRunning).length) :
    selected rounds k = some ((ringFrom k.queue c).filter k.isRunning ++ [c]) ∧
      ((ringFrom k.queue c).filter k.isRunning ++ [c]).Perm (k.queue.filter k.isRunning) := by
  have hperm : ((ringFrom k.queue c).filter k.isRunning ++ [c]).Perm
      (k.queue.filter k.isRunning) := by
    have hring := ((ringFrom_perm k.queue c).cons c).trans (perm_cons_erase hmem).symm
    have hfilter := hring.filter k.isRunning
    rw [filter_cons_of_pos hc] at hfilter
    exact (perm_append_singleton c _).trans hfilter
  rw [← hperm.length_eq, length_append, length_singleton] at htwo hlength
  have hsplit : c :: ringFrom k.queue c = [] ++ c :: ringFrom k.queue c := rfl
  refine ⟨selected_of_split hnodup hmem hc hwork hsplit hc (Or.inr ?_) hlength hcurr
    ⟨rfl, fun _ => rfl⟩, hperm⟩
  exact length_pos_iff.mp (Nat.succ_le_succ_iff.mp htwo)

end

/-- Two tasks that can run take turns. -/
theorem selected_each_once_pair :
    ∃ k₀ k, boot 0x1000 0 (fun _ => none) = some k₀ ∧ (Op.fork 0x2000 0).exec k₀ = some k ∧
      selected [(id, 1), (id, 2)] k = some [0x2000, 0x1000] := by
  have hwork : ∀ round ∈ [(id, 1), (id, 2)], ∀ k : Kernel,
      SameStates k (round.1 k) ∧ (round.1 k).curr = k.curr := by
    intro round hround k
    simp only [mem_cons, not_mem_nil, or_false] at hround
    obtain rfl | rfl := hround <;> exact ⟨⟨rfl, fun _ => rfl⟩, rfl⟩
  have honce : ∀ {k : Kernel}, k.queue = [0x1000, 0x2000] → k.curr = some 0x1000 →
      k.queue.filter k.isRunning = [0x1000, 0x2000] → k.isRunning 0x1000 = true →
      (ringFrom k.queue 0x1000).filter k.isRunning = [0x2000] →
      selected [(id, 1), (id, 2)] k = some [0x2000, 0x1000] := by
    intro k hqueue hcurr hfilter hc hring
    have honce := selected_each_once (by rw [hqueue]; decide) hcurr (by rw [hqueue]; decide) hc
      (by rw [hfilter]; decide) hwork (by rw [hfilter]; rfl)
    rw [hring] at honce
    exact honce.1
  exact ⟨_, _, rfl, rfl, honce rfl rfl rfl rfl rfl⟩

end Hos.Kernel
