import Hos.Process.Family

/-!
# The counters of the run queue

`runqueue.num_active` and `runqueue.num_periodic` against the tasks that are
linked in `runqueue.queue`. A zombie leaves the queue in `scheduler_run`, and
`sys_waitpid` takes it off the queue once more when it frees it: removing it is
harmless, but the counters are decremented twice.
-/

namespace Hos

open List Option

/-- A counter that loses a member for which the predicate holds. -/
theorem countP_erase_add_toNat {f : Nat → Bool} {l : List Nat} {p : Nat} (hmem : p ∈ l) :
    (l.erase p).countP f + (f p).toNat = l.countP f := by
  have hperm := (perm_cons_erase hmem).countP_eq f
  rw [hperm, countP_cons]
  cases f p <;> rfl

namespace Table

/-- The task is periodic. -/
def isPeriodic (T : Table) (p : Nat) : Bool := (T.node p).any (·.periodic)

/-- The counters are the numbers of queued and of queued periodic tasks. -/
structure Accounted (T : Table) : Prop where
  numActive : T.numActive = T.queue.length
  numPeriodic : T.numPeriodic = T.queue.countP T.isPeriodic

variable {T T' : Table} {i p : Nat} {f : Node → Node}

/-- The queue holds different non-null addresses. -/
theorem Linked.length_lt (h : T.Linked i) : T.queue.length < 2 ^ 32 := by
  have hsub : T.queue ⊆ List.range' 1 (2 ^ 32 - 1) := by
    intro p hp
    obtain ⟨hnull, hlt⟩ := h.bounded p hp
    rw [mem_range'_1]
    omega
  have hle := (h.nodup.subperm hsub).length_le
  rw [length_range'] at hle
  omega

theorem isPeriodic_of_node {n : Node} (h : T.node p = some n) : T.isPeriodic p = n.periodic := by
  rw [isPeriodic, h, any_some]

theorem isPeriodic_map {g : Nat → Node → Node} (h : ∀ p n, (g p n).periodic = n.periodic) :
    (T.map g).isPeriodic = T.isPeriodic := by
  funext p
  simp only [isPeriodic, map_node, Option.any_map, h]

namespace Accounted

section

variable (h : T.Accounted)
include h

/-- The counters depend on nothing else. -/
theorem of_same (hqueue : T'.queue = T.queue)
    (hactive : T'.numActive = T.numActive) (hperiodic : T'.numPeriodic = T.numPeriodic)
    (hsame : ∀ p ∈ T.queue, T'.isPeriodic p = T.isPeriodic p) : T'.Accounted where
  numActive := by rw [hactive, hqueue, h.numActive]
  numPeriodic := by
    rw [hperiodic, hqueue, h.numPeriodic]
    exact countP_congr fun p hp => by rw [hsame p hp]

theorem map {g : Nat → Node → Node}
    (hsame : ∀ p n, (g p n).periodic = n.periodic) : (T.map g).Accounted :=
  h.of_same rfl rfl rfl fun p _ => congrFun (isPeriodic_map hsame) p

theorem fork (hlinked : T.Linked i) {c a : Nat} {pid : Int}
    (hfresh : T.node a = none) (hnext : (T.fork c a pid).Linked i) :
    (T.fork c a pid).Accounted := by
  have hnot : a ∉ T.queue := fun hmem => hlinked.queued a hmem hfresh
  have hlt := hnext.length_lt
  have hqueue : (T.fork c a pid).queue = T.queue ++ [a] := rfl
  constructor
  · rw [hqueue, length_append, length_singleton] at hlt ⊢
    rw [← u32_of_lt hlt, ← h.numActive]
    rfl
  · have hgrown : (T.modify c fun n => { n with children := n.children ++ [a] }).Accounted :=
      h.map fun p n => by split <;> rfl
    have hnew : (T.fork c a pid).isPeriodic a = false := by simp [isPeriodic, Table.fork]
    have hold : ∀ p ∈ T.queue, (T.fork c a pid).isPeriodic p =
        (T.modify c fun n => { n with children := n.children ++ [a] }).isPeriodic p := by
      intro p hp
      have hpa : p ≠ a := fun heq => hnot (heq ▸ hp)
      simp [isPeriodic, Table.fork, hpa]
    rw [hqueue, countP_append, countP_singleton, hnew, countP_congr fun p hp => by rw [hold p hp]]
    exact hgrown.numPeriodic

theorem dequeue (hlt : T.queue.length < 2 ^ 32) (hp : p ∈ T.queue) :
    (T.dequeue p (T.isPeriodic p)).Accounted := by
  have hpos := length_pos_of_mem hp
  have hcount := countP_erase_add_toNat (f := T.isPeriodic) hp
  have hle : T.queue.countP T.isPeriodic ≤ T.queue.length := countP_le_length
  constructor
  · have hactive : (T.dequeue p (T.isPeriodic p)).numActive = sub32 T.numActive 1 := rfl
    rw [hactive, h.numActive, sub32_of_le hlt hpos]
    exact (length_erase_of_mem hp).symm
  · have hperiodic : (T.dequeue p (T.isPeriodic p)).numPeriodic =
        if T.isPeriodic p then sub32 T.numPeriodic 1 else T.numPeriodic := rfl
    have hqueue : (T.dequeue p (T.isPeriodic p)).queue.countP
        (T.dequeue p (T.isPeriodic p)).isPeriodic = (T.queue.erase p).countP T.isPeriodic := rfl
    rw [hperiodic, hqueue, h.numPeriodic]
    cases hbit : T.isPeriodic p with
    | false => simpa [hbit] using hcount.symm
    | true =>
      rw [hbit, Bool.toNat_true] at hcount
      rw [if_pos rfl, sub32_of_le (by omega) (by omega)]
      omega

theorem reap (hlinked : T.Linked i) {c e : Nat} {m : Node}
    (hentry : T.node e = some m) (he : e ∈ T.queue) : (T.reap c e m.periodic).Accounted := by
  let g : Nat → Node → Node := fun q n =>
    if q = c then { n with children := n.children.erase e } else n
  have hsame : ∀ p n, (g p n).periodic = n.periodic := fun p n => by
    simp only [g]
    split <;> rfl
  have hgone := (h.map hsame).dequeue hlinked.length_lt he
  rw [isPeriodic_map hsame, isPeriodic_of_node hentry] at hgone
  refine hgone.of_same rfl rfl rfl fun p hp => ?_
  have hpe : p ≠ e := fun heq => hlinked.nodup.not_mem_erase (heq ▸ hp)
  have hnode : (T.reap c e m.periodic).node p = ((T.map g).dequeue e m.periodic).node p :=
    Function.update_of_ne hpe ..
  rw [isPeriodic, isPeriodic, hnode]

/-- Taking a task that is not queued off the queue makes the counter wrong. -/
theorem not_reap (hlinked : T.Linked i) {c e : Nat} {periodic : Bool}
    (he : e ∉ T.queue) : ¬(T.reap c e periodic).Accounted := by
  intro hnext
  have hactive : (T.reap c e periodic).numActive = sub32 T.numActive 1 := rfl
  have hqueue : (T.reap c e periodic).queue = T.queue.erase e := rfl
  have hpos := length_pos_of_mem hlinked.mem_init
  have hlen := hnext.numActive
  rw [hactive, hqueue, erase_of_not_mem he, h.numActive, sub32_of_le hlinked.length_lt hpos] at hlen
  omega

end

/-- The counter follows one task that becomes periodic or ceases to be so. -/
theorem recount_eq {rest : Nat} {before after : Bool} (hbefore : rest + before.toNat < 2 ^ 32)
    (hafter : rest + after.toNat < 2 ^ 32) :
    recount (rest + before.toNat) before after = rest + after.toNat := by
  cases before <;> cases after
  · simp [recount]
  · simpa [recount] using u32_of_lt hafter
  · simpa [recount] using sub32_of_le hbefore (Nat.le_add_left 1 rest)
  rfl

theorem setPeriodic (h : T.Accounted) (hlinked : T.Linked i) {n : Node} (periodic : Bool)
    (hp : p ∈ T.queue) (hnode : T.node p = some n) :
    Accounted { T.modify p ({ · with periodic := periodic }) with
      numPeriodic := recount T.numPeriodic n.periodic periodic } := by
  have hlt := hlinked.length_lt
  constructor
  · exact h.numActive
  · have hother : (T.queue.erase p).countP T.isPeriodic =
        (T.queue.erase p).countP (T.modify p ({ · with periodic := periodic })).isPeriodic := by
      refine countP_congr fun q hq => ?_
      have hqp : q ≠ p := fun heq => hlinked.nodup.not_mem_erase (heq ▸ hq)
      rw [isPeriodic, isPeriodic, modify_node_of_ne hqp]
    have hself : (T.modify p ({ · with periodic := periodic })).isPeriodic p = periodic := by
      rw [isPeriodic, modify_node_self, hnode, map_some, any_some]
    have hbefore := countP_erase_add_toNat (f := T.isPeriodic) hp
    have hafter := countP_erase_add_toNat
      (f := (T.modify p ({ · with periodic := periodic })).isPeriodic) hp
    rw [hother, isPeriodic_of_node hnode] at hbefore
    rw [hself] at hafter
    change recount T.numPeriodic n.periodic periodic =
      T.queue.countP (T.modify p ({ · with periodic := periodic })).isPeriodic
    rw [h.numPeriodic, ← hbefore, ← hafter]
    apply recount_eq
    · rw [hbefore]
      exact Nat.lt_of_le_of_lt countP_le_length hlt
    · rw [hafter]
      exact Nat.lt_of_le_of_lt countP_le_length hlt

/-- A step keeps the counters right exactly when the task that it frees, if any,
is still in the run queue. -/
theorem step_iff (h : T.Accounted) (hlinked : T.Linked i) {freed : Option Nat}
    (hstep : Step freed T T') : T'.Accounted ↔ ∀ e, freed = some e → e ∈ T.queue := by
  have hnext := hlinked.step hstep
  -- A step that frees no task has to keep the counters right.
  have hkeep : ∀ {T' : Table}, T'.Accounted → (T'.Accounted ↔ ∀ e, none = some e → e ∈ T.queue) :=
    fun haccounted => iff_of_true haccounted fun e he => absurd he.symm (some_ne_none e)
  cases hstep with
  | reap hcurr hnode hchild hentry hzombie =>
    constructor
    · intro haccounted e he
      cases he
      exact Classical.by_contradiction fun hnot => h.not_reap hlinked hnot haccounted
    · intro hqueued
      exact h.reap hlinked hentry (hqueued _ rfl)
  | quiet => exact hkeep h
  | fork pid hcurr hnode himage hfresh hnull haddr =>
    exact hkeep (h.fork hlinked hfresh hnext)
  | exit hcurr hnode hinit hmove => exact hkeep (h.map fun _ _ => rfl)
  | setPeriodic periodic hmem hnode =>
    exact hkeep (h.setPeriodic hlinked periodic hmem hnode)
  | leave hcurr hnode hzombie =>
    obtain ⟨c', hmem, hcurr'⟩ := hlinked.running
    cases hcurr.symm.trans hcurr'
    have hgone := h.dequeue hlinked.length_lt hmem
    rw [isPeriodic_of_node hnode] at hgone
    exact hkeep (hgone.of_same rfl rfl rfl fun _ _ => rfl)
  | switch hnext => exact hkeep (h.of_same rfl rfl rfl fun _ _ => rfl)
  | stopped c p =>
    have hrevive : ∀ {T : Table} (q : Nat), T.Accounted →
        (T.modify q ({ · with zombie := false })).Accounted :=
      fun q hT => hT.map fun _ _ => by split <;> rfl
    exact hkeep (hrevive p (hrevive c h))

end Accounted

end Table

namespace Kernel

/-- The counters are the numbers of tasks and of periodic tasks in the run queue. -/
def Accounted (k : Kernel) : Prop :=
  k.numActive = k.queue.length ∧
    k.numPeriodic = k.queue.countP fun p => (k.tasks p).any (·.se.isPeriodic)

/-- The operation frees no task that has left the run queue. -/
def Op.FreesQueued (op : Op) (k : Kernel) : Prop := ∀ e, op.freed k = some e → e ∈ k.queue

variable {k k₀ : Kernel} {addr : UInt32} {ticks : Nat} {kmallocs : Nat → Option SigInfo}

theorem accounted_iff : k.Accounted ↔ k.table.Accounted := by
  have hperiodic : k.table.isPeriodic = fun p => (k.tasks p).any (·.se.isPeriodic) := by
    funext p
    simp only [Table.isPeriodic, table, Option.any_map]
    rfl
  rw [Accounted, ← hperiodic]
  exact ⟨fun h => ⟨h.1, h.2⟩, fun h => ⟨h.numActive, h.numPeriodic⟩⟩

theorem accounted_boot (h : boot addr.toNat ticks kmallocs = some k) : k.Accounted := by
  obtain ⟨-, rfl⟩ := boot_eq h
  simp [Accounted, newTask]

/-- In a run in which no task is freed after it has left the run queue the
counters are right, and from there on an operation keeps them right exactly when
it frees no such task. -/
theorem runqueue_accounted (hboot : boot addr.toNat ticks kmallocs = some k₀)
    (hrun : Runs Op.exec Op.FreesQueued k₀ k) :
    k.Accounted ∧ ∀ (op : Op) (k' : Kernel), op.exec k = some k' →
      (k'.Accounted ↔ op.FreesQueued k) := by
  have hinv := hrun.invariant (fun k => k.table.Linked addr.toNat ∧ k.table.Accounted)
    (fun op k k' hk hok hstep =>
      ⟨hk.1.step (Op.step hstep), (hk.2.step_iff hk.1 (Op.step hstep)).mpr hok⟩)
    ⟨linked_boot hboot, accounted_iff.mp (accounted_boot hboot)⟩
  refine ⟨accounted_iff.mpr hinv.2, fun op k' hexec => ?_⟩
  rw [accounted_iff]
  exact hinv.2.step_iff hinv.1 (Op.step hexec)

/-- A second task that becomes periodic. -/
theorem runqueue_accounted_periodic :
    ∃ k₀ k, boot (0x1000 : UInt32).toNat 0 (fun _ => none) = some k₀ ∧
      Runs Op.exec Op.FreesQueued k₀ k ∧ k.queue = [0x1000, 0x2000] ∧ k.numPeriodic = 1 ∧
        k.Accounted := by
  have hnone : ∀ {k : Kernel} (e : Nat), (none : Option Nat) = some e → e ∈ k.queue :=
    fun e he => absurd he.symm (some_ne_none e)
  have hrun : ∀ {k₀ k₁ k : Kernel}, (Op.fork 0x2000 0).exec k₀ = some k₁ →
      (Op.schedSetparam 2 ⟨120, 10, 10, 0, true⟩ 5).exec k₁ = some k →
        Runs Op.exec Op.FreesQueued k₀ k :=
    fun hfork hset => (Runs.single (i := .fork 0x2000 0) hnone hfork).trans
      (Runs.single (i := .schedSetparam 2 ⟨120, 10, 10, 0, true⟩ 5) hnone hset)
  have hboot : boot (0x1000 : UInt32).toNat 0 (fun _ => none) = some _ := rfl
  exact ⟨_, _, hboot, hrun rfl rfl, rfl, rfl, (runqueue_accounted hboot (hrun rfl rfl)).1⟩

/-- A child exits, leaves the run queue and is waited for. -/
def waitOps : List Op :=
  [.fork 0x2000 0, .reschedule 0, .exit 0, .reschedule 0, .waitpid (-1) 0]

/-- Only `init` is left, and no task is counted. -/
theorem waitpid_counts_twice :
    ∃ k₀ k, boot (0x1000 : UInt32).toNat 0 (fun _ => none) = some k₀ ∧ AnyRun k₀ k ∧
      k.queue = [0x1000] ∧ k.numActive = 0 ∧ ¬k.Accounted := by
  refine ⟨_, _, rfl, AnyRun.ops waitOps rfl, rfl, rfl, fun haccounted => ?_⟩
  cases haccounted.1

end Kernel

end Hos
