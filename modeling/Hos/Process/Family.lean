import Hos.Process.Tree
import Hos.Process.View

/-!
# Parents and children over every run

From the first task on, in every run of the kernel each task that has not been
freed is in the list of children of its parent and in no other, and its parent
has not been freed.

An exiting task hands its children to `init` with `list_head_append`, which does
nothing when `init` has no children. That does not lose them: the exiting task
descends from a child of `init`, so the list is not empty. The run queue agrees with
the tree after any sequence of system calls and scheduler runs.
-/

namespace Hos.Kernel

open Option List

/-- Every task but `init` is linked exactly once, under the task that its parent
pointer names, which is still there. -/
def ProcessTree (k : Kernel) (init : Nat) : Prop :=
  ∀ p t, k.tasks p = some t → p ≠ init → ∃ q u, t.parent = some q ∧ k.tasks q = some u ∧
    ∀ r v, k.tasks r = some v → v.children.count p = if r = q then 1 else 0

variable {k k₀ : Kernel} {addr : UInt32} {ticks : Nat} {kmallocs : Nat → Option SigInfo}

theorem linked_boot (h : boot addr.toNat ticks kmallocs = some k) : k.table.Linked addr.toNat := by
  obtain ⟨hnull, rfl⟩ := boot_eq h
  have hbound := addr.toNat_lt
  generalize addr.toNat = a at *
  constructor
  · refine Tree.singleton fun p => ?_
    by_cases hp : p = a
    · subst hp
      simp [table, newTask, Task.node]
    · simp [table, hp]
  · rfl
  · exact nodup_singleton a
  · intro p hp
    obtain rfl := mem_singleton.mp hp
    omega
  · intro p hp
    obtain rfl := mem_singleton.mp hp
    simp [table]
  · exact ⟨a, mem_singleton_self a, rfl⟩

theorem linked_run (h : AnyRun k₀ k) {i : Nat} (hlinked : k₀.table.Linked i) : k.table.Linked i :=
  h.invariant (fun k => k.table.Linked i) (fun _ _ _ hk _ hstep => hk.step (Op.step hstep)) hlinked

theorem processTree_of_linked {i : Nat} (h : k.table.Linked i) : k.ProcessTree i := by
  intro p t ht hpi
  obtain ⟨q, m, hparent, hq, hmem⟩ := h.tree.parent p t.node (node_of_tasks ht) hpi
  obtain ⟨u, hu, rfl⟩ := map_eq_some_iff.mp hq
  refine ⟨q, u, hparent, hu, ?_⟩
  intro r v hv
  split
  · rename_i hrq
    subst hrq
    cases hv.symm.trans hu
    exact count_eq_one_of_mem (h.tree.distinct r _ (node_of_tasks hv)) hmem
  · rename_i hrq
    apply count_eq_zero_of_not_mem
    intro hmem'
    obtain ⟨_, n, hn, hparent'⟩ := h.tree.child r _ (node_of_tasks hv) p hmem'
    obtain rfl := some.inj ((node_of_tasks ht).symm.trans hn)
    exact hrq (some.inj (hparent'.symm.trans hparent))

/-- The process tree is intact in every run of the kernel. -/
theorem processTree_run (hboot : boot addr.toNat ticks kmallocs = some k₀) (hrun : AnyRun k₀ k) :
    k.ProcessTree addr.toNat :=
  processTree_of_linked (linked_run hrun (linked_boot hboot))

/-- A task whose parent exits while `init` has that parent as its only child. -/
def orphanOps : List Op :=
  [.fork 0x2000 0, .reschedule 0, .fork 0x3000 0, .exit 0, .reschedule 0]

/-- The grandchild becomes a child of `init`. -/
theorem processTree_orphan :
    ∃ k₀ k, boot (0x1000 : UInt32).toNat 0 (fun _ => none) = some k₀ ∧ AnyRun k₀ k ∧
      (k.tasks 0x3000).map Task.parent = some (some 0x1000) ∧
      (k.tasks 0x1000).map Task.children = some [0x2000, 0x3000] ∧ k.ProcessTree 0x1000 := by
  have hboot : boot (0x1000 : UInt32).toNat 0 (fun _ => none) = some _ := rfl
  exact ⟨_, _, hboot, AnyRun.ops orphanOps rfl, rfl, rfl,
    processTree_run hboot (AnyRun.ops orphanOps rfl)⟩

/-- The tasks are a tree below `init`, zombies are leaves without memory, and the run
queue has `init` in front and the running task in it. -/
structure Coherent (k : Kernel) (init : Nat) : Prop where
  tree : k.ProcessTree init
  descends : ∀ p t, k.tasks p = some t →
    Relation.ReflTransGen (fun p q => ∃ t, k.tasks p = some t ∧ t.parent = some q) p init
  zombie : ∀ p t, k.tasks p = some t → t.state = .zombie → t.image = false ∧ t.children = []
  nodup : k.queue.Nodup
  head : k.queue.head? = some init
  queued : ∀ p ∈ k.queue, k.tasks p ≠ none
  running : ∃ c ∈ k.queue, k.curr = some c

theorem coherent_of_linked {i : Nat} (h : k.table.Linked i) : k.Coherent i where
  tree := processTree_of_linked h
  descends := by
    obtain ⟨rank, -, hrank⟩ := h.tree.rooted
    intro p
    induction hr : rank p using Nat.strongRecOn generalizing p with
    | ind r ih =>
      intro t ht
      by_cases hpi : p = i
      · rw [hpi]
      · obtain ⟨q, m, hparent, hq, -⟩ := h.tree.parent p t.node (node_of_tasks ht) hpi
        obtain ⟨u, hu, -⟩ := map_eq_some_iff.mp hq
        have hlt := hrank p t.node q (node_of_tasks ht) hpi hparent
        exact .head ⟨t, ht, hparent⟩ (ih _ (hr ▸ hlt) q rfl u hu)
  zombie := by
    intro p t ht hzombie
    have himage := h.tree.ended p t.node (node_of_tasks ht) (by simp [Task.node, hzombie])
    exact ⟨himage, h.tree.childless p t.node (node_of_tasks ht) himage⟩
  nodup := h.nodup
  head := h.head
  queued := fun p hp hnone => h.queued p hp (by rw [table_node, hnone, map_none])
  running := h.running

/-- An entry into the kernel: a system call, or the scheduler, which delivers the signals
of the running task on the way. -/
inductive Entry where
  | call (op : Op)
  | schedulerRun (user : Bool) (ticks : Nat)

/-- The kernel when it is left. -/
def Entry.exec : Entry → Kernel → Option Kernel
  | call op, k => op.exec k
  | schedulerRun user ticks, k => k.schedulerRun user ticks

/-- The kernel is coherent after any sequence of entries. -/
theorem coherent_run (hboot : boot addr.toNat ticks kmallocs = some k₀)
    (hrun : Runs Entry.exec (fun _ _ => True) k₀ k) : k.Coherent addr.toNat := by
  refine coherent_of_linked (hrun.invariant (fun k => k.table.Linked addr.toNat) ?_
    (linked_boot hboot))
  intro entry k k' hlinked _ hexec
  cases entry with
  | call op => exact hlinked.step (Op.step hexec)
  | schedulerRun user ticks => exact linked_run (anyRun_schedulerRun hexec) hlinked

theorem coherent_orphan :
    ∃ k₀ k, boot (0x1000 : UInt32).toNat 0 (fun _ => none) = some k₀ ∧
      (orphanOps.map Entry.call).foldlM (fun k e => e.exec k) k₀ = some k ∧ k.Coherent 0x1000 := by
  have hboot : boot (0x1000 : UInt32).toNat 0 (fun _ => none) = some _ := rfl
  have hrun : ∀ {k k'}, (orphanOps.map Entry.call).foldlM (fun k e => e.exec k) k = some k' →
      Runs Entry.exec (fun _ _ => True) k k' := Runs.of_foldlM fun _ _ => trivial
  exact ⟨_, _, hboot, rfl, coherent_run hboot (hrun rfl)⟩

end Hos.Kernel
