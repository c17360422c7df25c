import Hos.Process.Run
import Hos.Process.Table

/-!
# What the kernel does to the process table

The view of a kernel as a process table forgets signals, scheduling parameters
and the queue of stopped tasks. Sending and collecting signals leave the view
unchanged; every other operation is one step of the table.
-/

namespace Hos

open List Option
open Option (bind_eq_bind bind_eq_some_iff bind_some map_eq_some_iff map_some)

/-- A task as a node of the process table. -/
def Task.node (t : Task) : Node where
  pid := t.pid
  parent := t.parent
  children := t.children
  periodic := t.se.isPeriodic
  image := t.image
  zombie := t.state == .zombie

namespace Kernel

/-- The process table of a kernel. -/
def table (k : Kernel) : Table where
  node := fun p => (k.tasks p).map Task.node
  queue := k.queue
  curr := k.curr
  numActive := k.numActive
  numPeriodic := k.numPeriodic

section

variable {k : Kernel} {p q : Nat} {f : Task → Task}

theorem table_node : k.table.node p = (k.tasks p).map Task.node := rfl

theorem node_of_tasks {t : Task} (h : k.tasks p = some t) : k.table.node p = some t.node := by
  rw [table_node, h, map_some]

theorem getRunningProcess_eq {pid : Int} :
    k.getRunningProcess pid = k.table.runningProcess pid := by
  simp only [getRunningProcess, Table.runningProcess, table, Option.any_map]
  rfl

theorem table_modify {g : Node → Node} (h : ∀ t, k.tasks p = some t → (f t).node = g t.node) :
    (k.modify p f).table = k.table.modify p g := by
  refine Table.ext (funext fun q => ?_) rfl rfl rfl rfl
  by_cases hq : q = p
  · subst hq
    rw [table_node, modify_tasks_self, Table.modify_node_self, table_node]
    cases ht : k.tasks q with
    | none => rfl
    | some t => exact congrArg some (h t ht)
  · rw [table_node, modify_tasks_of_ne hq, Table.modify_node_of_ne hq, table_node]

/-- A change of a task that its node does not show. -/
theorem table_modify_same (h : ∀ t, k.tasks p = some t → (f t).node = t.node) :
    (k.modify p f).table = k.table := by
  have hnode : (k.modify p f).table.node = k.table.node := funext fun q => map_modify h
  exact congrArg (fun node => { k.table with node := node }) hnode

end

section

variable {k k' : Kernel} {p sig : Nat} {ret : Int}

theorem table_sendSignal {info : Option SigInfo} (h : k.sendSignal sig info p = some (k', ret)) :
    k'.table = k.table := by
  obtain ⟨kmallocs, rfl | ⟨stale, rfl⟩⟩ := sendSignal_cases h
  · rfl
  · exact table_modify_same fun _ _ => rfl

theorem table_wakeStopped (h : k.wakeStopped p = some k') : k'.table = k.table := by
  obtain rfl | ⟨q, w, queue, hw, hstate, rfl⟩ := wakeStopped_cases h
  · rfl
  · apply table_modify_same
    intro t ht
    cases hw.symm.trans ht
    -- A woken task was stopped or asleep, so it is no zombie before and after.
    rcases hstate with hstate | hstate <;> simp [Task.node, hstate]

theorem table_handleStopSignal (h : k.handleStopSignal sig p = some k') : k'.table = k.table := by
  have hremove : ∀ mask, (k.modify p (·.rmFromQueue mask)).table = k.table :=
    fun mask => table_modify_same fun _ _ => rfl
  rw [handleStopSignal] at h
  split at h
  · cases h
    exact hremove _
  split at h
  · exact (table_wakeStopped h).trans (hremove _)
  · cases h
    rfl

theorem table_sysKill {pid sig : Int} (h : k.sysKill pid sig = some (k', ret)) :
    k'.table = k.table := by
  obtain ⟨rfl, -⟩ | ⟨p, t, k₁, ret', -, -, -, -, hstop, hsend⟩ := sysKill_cases h
  · rfl
  · exact (table_sendSignal hsend).trans (table_handleStopSignal hstop)

theorem table_notifyStop (h : k.notifyStop p = some k') : k'.table = k.table := by
  obtain ⟨t, parent, u, -, -, -, ⟨rfl, -⟩ | ⟨-, ret, hsend⟩⟩ := notifyStop_cases h
  · rfl
  · exact table_sendSignal hsend

theorem table_signalParent (h : k.signalParent p = some k') : k'.table = k.table := by
  simp only [signalParent, bind_eq_bind, bind_eq_some_iff] at h
  obtain ⟨t, _, h⟩ := h
  split at h
  · cases h
    rfl
  · simp only [bind_eq_some_iff] at h
    obtain ⟨u, _, ⟨k₁, _⟩, hkill, h⟩ := h
    cases h
    exact table_sysKill hkill

theorem table_dequeueSignal {r : Nat × Option SigInfo} (h : k.dequeueSignal p = some (k', r)) :
    k'.table = k.table := by
  obtain rfl | ⟨t, sig, unqueued, pending, info, _, _, _, _, rfl⟩ := dequeueSignal_cases h
  · rfl
  · exact table_modify_same fun _ _ => rfl

theorem table_sysSigprocmask {how : SigmaskHow} {set : SigSet}
    (h : k.sysSigprocmask how set = some (k', ret)) : k'.table = k.table := by
  obtain ⟨rfl, _⟩ | ⟨p, _, rfl⟩ := sysSigprocmask_cases h
  · rfl
  · exact table_modify_same fun _ _ => rfl

theorem table_sysSigaction {signum : Int} {act : SigAction}
    (h : k.sysSigaction signum act = some (k', ret)) : k'.table = k.table := by
  obtain ⟨rfl, _⟩ | ⟨p, _, _, _, rfl⟩ := sysSigaction_cases h
  · rfl
  · exact table_modify_same fun _ _ => rfl

end

variable {k k' : Kernel} {c p : Nat} {ret : Int}

theorem table_sysFork {addr ticks : Nat} {n : Node} (h : k.sysFork addr ticks = some (k', ret))
    (hcurr : k.curr = some c) (hnode : k.table.node c = some n) :
    addr ≠ 0 ∧ k.table.node addr = none ∧ k'.table = k.table.fork c addr (i32 k.tid) := by
  simp only [sysFork, hcurr, allocTask, bind_eq_bind, bind_some] at h
  split at h
  · cases h
  rename_i hfree
  obtain ⟨hnull, hsome⟩ := not_or.mp hfree
  have hnone : k.tasks addr = none := by simpa using hsome
  simp only [bind_some, bind_eq_some_iff] at h
  obtain ⟨current, _, proc, _, h⟩ := h
  cases h
  have hfresh : k.table.node addr = none := by rw [table_node, hnone, map_none]
  have hca : c ≠ addr := by
    rintro rfl
    rw [hfresh] at hnode
    cases hnode
  refine ⟨hnull, hfresh, Table.ext (funext fun q => ?_) rfl ?_ rfl rfl⟩
  · by_cases hqa : q = addr
    · subst hqa
      simp [table, enqueueTask, modify, Table.fork, hca, hca.symm, newTask, Task.node]
    · by_cases hqc : q = c
      · subst hqc
        simp [table, enqueueTask, modify, Table.fork, hca, Option.map_map,
          Function.comp_def, Task.node]
      · simp [table, enqueueTask, modify, Table.fork, Table.modify_node_of_ne hqc, hqa, hqc]
  · simp [table, enqueueTask, modify, Table.fork, hcurr]

theorem table_reparent (i : Nat) (kids : List Nat) :
    (kids.foldl (fun k e => k.modify e ({ · with parent := some i })) k).table =
      k.table.map fun q m => { m with parent := if q ∈ kids then some i else m.parent } := by
  induction kids generalizing k with
  | nil => simp [Table.map]
  | cons e kids ih =>
    have hfirst : (k.modify e ({ · with parent := some i })).table =
        k.table.modify e ({ · with parent := some i }) := table_modify fun _ _ => rfl
    rw [foldl_cons, ih, hfirst, Table.modify, Table.map_map]
    apply Table.map_congr
    intro q m _
    by_cases hq : q = e <;> simp [hq]

theorem table_moveChildren {initProc : Option Nat} {n : Node}
    (h : k.moveChildren c initProc = some k') (hnode : k.table.node c = some n) :
    ∃ i, (n.children ≠ [] → initProc = some i) ∧ k'.table = k.table.map fun q m =>
        { m with
          parent := if q ∈ n.children then some i else m.parent
          children :=
            if q = c then
              (listHeadAppend (((k.table.node i).map Node.children).getD []) n.children).2
            else if q = i then (listHeadAppend m.children n.children).1
            else m.children } := by
  simp only [moveChildren, bind_eq_bind, bind_eq_some_iff] at h
  obtain ⟨t, ht, h⟩ := h
  have hkids : t.children = n.children :=
    congrArg Node.children (some.inj ((node_of_tasks ht).symm.trans hnode))
  rw [hkids] at h
  split at h
  · rename_i hnil
    cases h
    refine ⟨c, fun hne => absurd hnil hne, (Table.map_eq_self ?_).symm⟩
    intro q m hm
    by_cases hq : q = c
    · subst hq
      obtain rfl := some.inj (hm.symm.trans hnode)
      have hself : { m with children := [] } = m := by rw [← hnil]
      simpa [hnil, listHeadAppend] using hself
    · simp [hnil, hq]
  · simp only [bind_eq_some_iff] at h
    obtain ⟨i, rfl, u, hu, h⟩ := h
    cases h
    refine ⟨i, fun _ => rfl, ?_⟩
    -- New parents do not change the children of `init`.
    have hchildren : (k.table.node i).map Node.children = some u.children := by
      have hmoved := node_of_tasks hu
      rw [table_reparent, Table.map_node] at hmoved
      have := congrArg (Option.map Node.children) hmoved
      rwa [Option.map_map] at this
    rw [table_modify (g := ({ · with children := _ })) fun _ _ => rfl,
      table_modify (g := ({ · with children := _ })) fun _ _ => rfl, table_reparent,
      Table.modify, Table.modify, Table.map_map, Table.map_map]
    apply Table.map_congr
    intro q m hm
    by_cases hqc : q = c
    · by_cases hci : c = i <;> simp [hqc, hci, hchildren]
    · by_cases hqi : q = i
      · subst hqi
        have hmu : m.children = u.children := by simpa [hm] using hchildren
        simp [hqc, hmu]
      · simp [hqc, hqi]

theorem table_sysExit {exitCode : BitVec 32} (h : k.sysExit exitCode = some k') :
    ∃ c n i, k.table.curr = some c ∧ k.table.node c = some n ∧ k.table.runningProcess 1 ≠ some c ∧
      (n.children ≠ [] → k.table.runningProcess 1 = some i) ∧
        k'.table = k.table.exit c i n.children := by
  simp only [sysExit, bind_eq_bind, bind_eq_some_iff] at h
  obtain ⟨c, hcurr, h⟩ := h
  rw [getRunningProcess_eq] at h
  split at h
  · cases h
  rename_i hinit
  simp only [bind_eq_some_iff] at h
  obtain ⟨k₁, hsignal, k₂, hmove, h⟩ := h
  cases h
  have hzombie : k₁.table = k.table.modify c ({ · with zombie := true }) :=
    (table_signalParent hsignal).trans (table_modify fun _ _ => rfl)
  -- The running task is read again after its state has changed, so it is there.
  obtain ⟨t, ht, _⟩ := bind_eq_some_iff.mp hsignal
  rw [modify_tasks_self] at ht
  obtain ⟨t, ht, _⟩ := map_eq_some_iff.mp ht
  have hnode₁ : k₁.table.node c = some { t.node with zombie := true } := by
    rw [hzombie, Table.modify_node_self, node_of_tasks ht, map_some]
  obtain ⟨i, hi, hmoved⟩ := table_moveChildren hmove hnode₁
  refine ⟨c, t.node, i, hcurr, node_of_tasks ht, hinit, hi, ?_⟩
  have hchildren : (k₁.table.node i).map Node.children = (k.table.node i).map Node.children := by
    rw [hzombie, Table.modify, Table.map_node, Option.map_map]
    congr 1
    funext m
    by_cases hic : i = c <;> simp [hic]
  rw [table_modify (g := ({ · with image := false })) fun _ _ => rfl, hmoved, hchildren, hzombie,
    Table.modify, Table.modify, Table.map_map, Table.map_map, Table.exit]
  apply Table.map_congr
  intro q m _
  by_cases hqc : q = c <;> simp [hqc]

theorem findZombie_spec {pid : Int} {l : List Nat} {e : Nat}
    (h : k.findZombie pid l = some (some e)) :
    e ∈ l ∧ ∃ m, k.table.node e = some m ∧ m.zombie = true := by
  induction l with
  | nil => exact absurd (some.inj h).symm (some_ne_none e)
  | cons x l ih =>
    obtain ⟨t, ht, h⟩ := bind_eq_some_iff.mp h
    split at h
    · exact (ih h).imp_left (mem_cons_of_mem x)
    rename_i hstate
    split at h
    · exact (ih h).imp_left (mem_cons_of_mem x)
    · cases some.inj h
      refine ⟨mem_cons_self, t.node, node_of_tasks ht, ?_⟩
      simpa [Task.node] using hstate

theorem table_reap {e : Nat} {m : Node} (h : k.reap c e = some k')
    (hentry : k.table.node e = some m) : k'.table = k.table.reap c e m.periodic := by
  have hchildren : (k.modify c fun t => { t with children := t.children.erase e }).table =
      k.table.modify c fun n => { n with children := n.children.erase e } :=
    table_modify fun _ _ => rfl
  simp only [reap, dequeueTask, bind_eq_bind, bind_eq_some_iff] at h
  obtain ⟨k₁, ⟨t, ht, hdequeue⟩, h⟩ := h
  cases hdequeue
  cases h
  have hperiodic : t.se.isPeriodic = m.periodic := by
    have ht := node_of_tasks ht
    rw [hchildren] at ht
    by_cases hec : e = c
    · subst hec
      rw [Table.modify_node_self, hentry] at ht
      exact (congrArg Node.periodic (some.inj ht)).symm
    · rw [Table.modify_node_of_ne hec, hentry] at ht
      exact (congrArg Node.periodic (some.inj ht)).symm
  refine Table.ext (funext fun q => ?_) rfl rfl rfl ?_
  · have hq := congrArg (fun T => T.node q) hchildren
    by_cases hqe : q = e
    · subst hqe
      simp [table, Table.reap]
    · simpa [table, Table.reap, Table.dequeue, hqe] using hq
  · simp [table, Table.reap, Table.dequeue, Table.modify, Table.map, hperiodic]

theorem step_sysWaitpid {pid : Int} {options : Nat}
    (h : k.sysWaitpid pid options = some (k', ret)) :
    Table.Step (k.waitpidChild pid options) k.table k'.table := by
  obtain ⟨c, t, hcurr, ht, ⟨rfl, _, hnone⟩ | ⟨e, hchild, hfound, hreap⟩⟩ := sysWaitpid_cases h
  · rw [hnone]
    exact .quiet _
  · obtain ⟨hmem, m, hm, hzombie⟩ := findZombie_spec hfound
    rw [hchild, table_reap hreap hm]
    exact .reap hcurr (node_of_tasks ht) hmem hm hzombie

theorem table_sysSchedSetparam {pid : Int} {param : SchedParam} {ticks : Nat}
    (h : k.sysSchedSetparam pid param ticks = some (k', ret)) :
    k'.table = k.table ∨ ∃ p n, p ∈ k.table.queue ∧ k.table.node p = some n ∧
      k'.table = { k.table.modify p ({ · with periodic := param.isPeriodic }) with
        numPeriodic := Table.recount k.table.numPeriodic n.periodic param.isPeriodic } := by
  rw [sysSchedSetparam] at h
  split at h
  · cases h
    exact .inl rfl
  rename_i p hfind
  obtain ⟨t, ht, h⟩ := bind_eq_some_iff.mp h
  cases h
  refine .inr ⟨p, t.node, mem_of_find?_eq_some hfind, node_of_tasks ht, ?_⟩
  rw [table_modify (g := ({ · with periodic := param.isPeriodic })) fun _ _ => rfl]
  rfl

theorem schedulerRr_mem {next : Nat} (h : k.schedulerRr c = some next) : next = c ∨
    next ∈ k.queue := by
  rw [schedulerRr] at h
  split at h
  · exact .inl (some.inj h).symm
  · have hring := (ringFrom_perm k.queue c).mem_iff.mp (mem_of_find?_eq_some h)
    exact .inr (mem_of_mem_erase hring)

theorem table_reschedule {ticks : Nat} (h : k.reschedule ticks = some k') :
    ∃ c n, k.table.curr = some c ∧ k.table.node c = some n ∧ (n.zombie = true ∧
          k'.table = { k.table.dequeue c n.periodic with curr := some (behind k.table.queue c) } ∨
        ∃ next, (next = c ∨ next ∈ k.table.queue) ∧
          k'.table = { k.table with curr := some next }) := by
  obtain ⟨c, t, hcurr, ht, ⟨hstate, rfl⟩ | ⟨next, hnext, rfl⟩⟩ := reschedule_cases h
  · exact ⟨c, t.node, hcurr, node_of_tasks ht, .inl ⟨by simp [Task.node, hstate], rfl⟩⟩
  · have hsame : (k.modify next fun t => { t with se.execStart := ticks }).table = k.table :=
      table_modify_same fun _ _ => rfl
    refine ⟨c, t.node, hcurr, node_of_tasks ht, .inr ⟨next, schedulerRr_mem hnext, ?_⟩⟩
    rw [← hsame]
    rfl

theorem table_enterStopped {signr : Nat} (h : k.enterStopped p signr = some k') :
    ∃ c, k'.table = (k.table.modify c ({ · with zombie := false })).modify p
      ({ · with zombie := false }) := by
  obtain ⟨c, _, h⟩ := bind_eq_some_iff.mp h
  split at h
  · cases h
  rename_i k₁ hkmalloc
  obtain rfl := congrArg Prod.snd hkmalloc
  cases h
  have hasleep : (k.modify c ({ · with state := .uninterruptible })).table =
      k.table.modify c ({ · with zombie := false }) := table_modify fun _ _ => rfl
  refine ⟨c, ?_⟩
  rw [table_modify (g := ({ · with zombie := false })) fun _ _ => rfl, ← hasleep]
  rfl

/-- The operations on signals that stop no task. -/
def Op.quiet : Op → Bool
  | kill .. | dequeueSignal _ | handleSignal .. | notifyStop _ | sigreturn | sigprocmask ..
  | sigaction .. => true
  | _ => false

theorem Op.table_of_quiet {op : Op} (h : op.exec k = some k') (hquiet : op.quiet = true) :
    k'.table = k.table := by
  cases op with
  | kill pid sig =>
    obtain ⟨⟨k₁, ret⟩, hkill, rfl⟩ := map_eq_some_iff.mp h
    exact table_sysKill hkill
  | dequeueSignal p =>
    obtain ⟨⟨k₁, r⟩, hdequeue, rfl⟩ := map_eq_some_iff.mp h
    exact table_dequeueSignal hdequeue
  | handleSignal p signr =>
    cases h
    exact table_modify_same fun _ _ => rfl
  | notifyStop p => exact table_notifyStop h
  | sigreturn =>
    obtain ⟨p, _, h⟩ := bind_eq_some_iff.mp h
    cases h
    exact table_modify_same fun _ _ => rfl
  | sigprocmask how set =>
    obtain ⟨⟨k₁, ret⟩, hmask, rfl⟩ := map_eq_some_iff.mp h
    exact table_sysSigprocmask hmask
  | sigaction signum act =>
    obtain ⟨⟨k₁, ret⟩, haction, rfl⟩ := map_eq_some_iff.mp h
    exact table_sysSigaction haction
  | _ => exact absurd hquiet Bool.false_ne_true

/-- Every operation of the kernel is one step of its process table. -/
theorem Op.step {op : Op} (h : op.exec k = some k') : Table.Step (op.freed k) k.table k'.table := by
  have hsame : k'.table = k.table → Table.Step none k.table k'.table := by
    intro htable
    rw [htable]
    exact .quiet _
  cases op with
  | fork addr ticks =>
    simp only [exec] at h
    split at h
    · rename_i huser
      obtain ⟨⟨k₁, pid⟩, hfork, rfl⟩ := map_eq_some_iff.mp h
      obtain ⟨t, ht, himage⟩ := (any_eq_true _ _).mp huser
      obtain ⟨c, hcurr, ht⟩ := bind_eq_some_iff.mp ht
      obtain ⟨hnull, hfresh, htable⟩ := table_sysFork hfork hcurr (node_of_tasks ht)
      rw [htable]
      exact .fork _ hcurr (node_of_tasks ht) himage hfresh hnull addr.toNat_lt
    · cases h
  | exit code =>
    obtain ⟨c, n, i, hcurr, hnode, hinit, hmove, htable⟩ := table_sysExit h
    rw [htable]
    exact .exit hcurr hnode hinit hmove
  | waitpid pid options =>
    obtain ⟨⟨k₁, ret⟩, hwait, rfl⟩ := map_eq_some_iff.mp h
    exact step_sysWaitpid hwait
  | schedSetparam pid param ticks =>
    obtain ⟨⟨k₁, ret⟩, hset, rfl⟩ := map_eq_some_iff.mp h
    obtain htable | ⟨p, n, hmem, hnode, htable⟩ := table_sysSchedSetparam hset
    · exact hsame htable
    · rw [htable]
      exact .setPeriodic _ hmem hnode
  | reschedule ticks =>
    obtain ⟨c, n, hcurr, hnode, ⟨hzombie, htable⟩ | ⟨next, hnext, htable⟩⟩ := table_reschedule h
    · rw [htable]
      exact .leave hcurr hnode hzombie
    · rw [htable]
      apply Table.Step.switch
      rcases hnext with rfl | hmem
      · exact .inl hcurr
      · exact .inr hmem
  | enterStopped p signr =>
    obtain ⟨c, htable⟩ := table_enterStopped h
    rw [htable]
    exact .stopped c p
  | _ => exact hsame (table_of_quiet h rfl)

end Kernel

end Hos
