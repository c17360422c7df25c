import Hos.Process.View

/-!
# Tasks that have their memory

Such a task is in the run queue and is no zombie, so it is found by its process
identifier as long as no two tasks have the same one. Every operation keeps all of
these tasks but the one that exits.
-/

namespace Hos

open Option List Function

namespace Table

/-- A task with its memory is in the run queue and is no zombie. No two tasks have the
same process identifier. -/
structure Running (T : Table) : Prop where
  queued : ∀ p n, T.node p = some n → n.image = true → p ∈ T.queue ∧ n.zombie = false
  pids : ∀ p q n m, T.node p = some n → T.node q = some m → n.pid = m.pid → p = q

/-- All tasks with their memory are still there, but for one. -/
structure Keeps (lost : Option Nat) (T T' : Table) : Prop where
  running : T'.Running
  node : ∀ p n, T.node p = some n → n.image = true → some p ≠ lost →
    ∃ n', T'.node p = some n' ∧ n'.image = true ∧ n'.pid = n.pid

variable {T T' : Table} {lost : Option Nat} {c a e p : Nat} {n : Node} {pid : Int}

/-- The task with an identifier is found. -/
theorem Running.lookup (hT : T.Running) (hp : T.node p = some n) (himage : n.image = true) :
    T.runningProcess n.pid = some p := by
  have hmem := (hT.queued p n hp himage).1
  have hfound : (T.runningProcess n.pid).isSome := by
    rw [runningProcess, find?_isSome]
    exact ⟨p, hmem, by simp [hp]⟩
  obtain ⟨q, hq⟩ := isSome_iff_exists.mp hfound
  have hany := find?_some hq
  obtain ⟨m, hm, hpid⟩ := (any_eq_true _ _).mp hany
  rw [hq, hT.pids q p m n hm hp (of_decide_eq_true hpid)]

theorem Running.keeps_self (hT : T.Running) : Keeps lost T T :=
  ⟨hT, fun _ n hn himage _ => ⟨n, hn, himage, rfl⟩⟩

theorem Running.keeps_map (hT : T.Running) {f : Nat → Node → Node}
    (hpid : ∀ p n, (f p n).pid = n.pid)
    (himage : ∀ p n, (f p n).image = (n.image && some p != lost))
    (hzombie : ∀ p n, n.zombie = false → some p ≠ lost → (f p n).zombie = false) :
    Keeps lost T (T.map f) := by
  refine ⟨⟨?_, ?_⟩, ?_⟩
  · intro p n hn hkept
    obtain ⟨m, hm, rfl⟩ := map_eq_some_iff.mp hn
    rw [himage, Bool.and_eq_true, bne_iff_ne] at hkept
    obtain ⟨hqueue, halive⟩ := hT.queued p m hm hkept.1
    exact ⟨hqueue, hzombie p m halive hkept.2⟩
  · intro p q n m hn hm heq
    obtain ⟨n, hp, rfl⟩ := map_eq_some_iff.mp hn
    obtain ⟨m, hq, rfl⟩ := map_eq_some_iff.mp hm
    rw [hpid, hpid] at heq
    exact hT.pids p q n m hp hq heq
  · intro p n hn hkept hne
    refine ⟨f p n, by rw [map_node, hn, map_some], ?_, hpid p n⟩
    rw [himage, hkept, Bool.true_and, bne_iff_ne]
    exact hne

/-- A change of one task that this view does not show. -/
theorem Running.keeps_modify (hT : T.Running) {f : Node → Node} (hpid : ∀ n, (f n).pid = n.pid)
    (himage : ∀ n, (f n).image = n.image) (hzombie : ∀ n, n.zombie = false → (f n).zombie = false) :
    Keeps none T (T.modify p f) := by
  apply hT.keeps_map
  · intro q n
    split
    · exact hpid n
    · rfl
  · intro q n
    split
    · simp [himage]
    · simp
  · intro q n halive _
    split
    · exact hzombie n halive
    · exact halive

theorem Keeps.trans {T₁ : Table} (h : Keeps none T T₁) (h' : Keeps lost T₁ T') :
    Keeps lost T T' := by
  refine ⟨h'.running, fun p n hn himage hne => ?_⟩
  obtain ⟨m, hm, himage, hpid⟩ := h.node p n hn himage (some_ne_none p)
  obtain ⟨m', hm', himage, hpid'⟩ := h'.node p m hm himage hne
  exact ⟨m', hm', himage, hpid'.trans hpid⟩

/-- A new task with an identifier that no task has. -/
theorem Running.keeps_fork (hT : T.Running) (hfresh : T.node a = none)
    (hpid : ∀ p n, T.node p = some n → n.pid ≠ pid) : Keeps none T (T.fork c a pid) := by
  have hmod : Keeps none T (T.modify c fun n => { n with children := n.children ++ [a] }) :=
    hT.keeps_modify (fun _ => rfl) (fun _ => rfl) fun _ halive => halive
  have hold : ∀ q n, (T.fork c a pid).node q = some n → q ≠ a →
      (T.modify c fun n => { n with children := n.children ++ [a] }).node q = some n := by
    intro q n hq hne
    simpa only [fork, update_of_ne hne] using hq
  have hpid' : ∀ q n, (T.modify c fun n => { n with children := n.children ++ [a] }).node q =
    some n → n.pid ≠ pid := by
    intro q n hq
    obtain ⟨m, hm, rfl⟩ := map_eq_some_iff.mp hq
    dsimp only
    split <;> exact hpid q m hm
  have hnew : (T.fork c a pid).node a = some ⟨pid, some c, [], false, true, false⟩ := update_self ..
  refine ⟨⟨?_, ?_⟩, ?_⟩
  · intro q n hq himage
    by_cases hqa : q = a
    · subst hqa
      rw [hnew] at hq
      cases hq
      exact ⟨mem_append_right _ (mem_singleton_self q), rfl⟩
    · obtain ⟨hmem, halive⟩ := hmod.running.queued q n (hold q n hq hqa) himage
      exact ⟨mem_append_left _ hmem, halive⟩
  · intro q r n m hq hr heq
    by_cases hqa : q = a
    · by_cases hra : r = a
      · rw [hqa, hra]
      · subst hqa
        rw [hnew] at hq
        cases hq
        exact absurd heq.symm (hpid' r m (hold r m hr hra))
    · by_cases hra : r = a
      · subst hra
        rw [hnew] at hr
        cases hr
        exact absurd heq (hpid' q n (hold q n hq hqa))
      · exact hmod.running.pids q r n m (hold q n hq hqa) (hold r m hr hra) heq
  · intro q n hq himage hne
    obtain ⟨m, hm, himage, heq⟩ := hmod.node q n hq himage hne
    refine ⟨m, ?_, himage, heq⟩
    have hqa : q ≠ a := by
      rintro rfl
      cases hfresh.symm.trans hq
    simpa only [fork, update_of_ne hqa] using hm

theorem Running.keeps_dequeue (hT : T.Running) (periodic : Bool) (hentry : T.node e = some n)
    (hzombie : n.zombie = true) : Keeps none T (T.dequeue e periodic) := by
  refine ⟨⟨fun p m hm himage => ?_, hT.pids⟩, fun p m hm himage _ => ⟨m, hm, himage, rfl⟩⟩
  obtain ⟨hmem, halive⟩ := hT.queued p m hm himage
  have hne : p ≠ e := by
    rintro rfl
    cases Eq.trans hentry.symm hm
    cases hzombie.symm.trans halive
  exact ⟨(mem_erase_of_ne hne).mpr hmem, halive⟩

theorem Running.keeps_reap (hT : T.Running) {periodic : Bool} (hentry : T.node e = some n)
    (hzombie : n.zombie = true) : Keeps none T (T.reap c e periodic) := by
  have hmod : Keeps none T (T.modify c fun n => { n with children := n.children.erase e }) :=
    hT.keeps_modify (fun _ => rfl) (fun _ => rfl) fun _ halive => halive
  obtain ⟨m, hm, hm'⟩ : ∃ m, (T.modify c fun n => { n with children := n.children.erase e }).node
    e = some m ∧ m.zombie = true := by
    refine ⟨_, by rw [modify, map_node, hentry, map_some], ?_⟩
    split <;> exact hzombie
  have hout := hmod.trans (hmod.running.keeps_dequeue periodic hm hm')
  have hold : ∀ p n, (T.reap c e periodic).node p = some n →
      ((T.modify c fun n => { n with children := n.children.erase e }).dequeue e periodic).node p =
        some n := by
    intro p n hn
    by_cases hpe : p = e
    · subst hpe
      simp [reap] at hn
    · simpa only [reap, update_of_ne hpe] using hn
  refine ⟨⟨fun p n hn => hout.running.queued p n (hold p n hn),
    fun p q n m hn hm => hout.running.pids p q n m (hold p n hn) (hold q m hm)⟩, ?_⟩
  · intro p m hp himage hne
    obtain ⟨m', hm', hkept⟩ := hout.node p m hp himage hne
    refine ⟨m', ?_, hkept⟩
    have hpe : p ≠ e := by
      rintro rfl
      obtain rfl := some.inj (hp.symm.trans hentry)
      exact absurd ((hT.queued p m hp himage).2.symm.trans hzombie) (by decide)
    simpa only [reap, update_of_ne hpe] using hm'

end Table

namespace Kernel

/-- The task that an operation ends. -/
def Op.ended : Op → Kernel → Option Nat
  | exit _, k => k.curr
  | _, _ => none

/-- Operations keep the tasks that have their memory, but for one that exits. -/
theorem Op.keeps {k k' : Kernel} {op : Op} (h : op.exec k = some k') (hT : k.table.Running)
    (hfork : ∀ addr ticks, op = .fork addr ticks → ∀ p n, k.table.node p = some n →
      n.pid ≠ i32 k.tid) :
    Table.Keeps (op.ended k) k.table k'.table := by
  have hsame : k'.table = k.table → Table.Keeps none k.table k'.table := by
    intro htable
    rw [htable]
    exact hT.keeps_self
  cases op with
  | fork addr ticks =>
    obtain ⟨huser, h⟩ := ite_none_right_eq_some.mp h
    obtain ⟨⟨k₁, pid⟩, hforked, rfl⟩ := map_eq_some_iff.mp h
    obtain ⟨t, ht, -⟩ := (any_eq_true _ _).mp huser
    obtain ⟨c, hcurr, ht⟩ := bind_eq_some_iff.mp ht
    obtain ⟨-, hfresh, htable⟩ := table_sysFork hforked hcurr (node_of_tasks ht)
    rw [htable]
    exact hT.keeps_fork hfresh (hfork addr ticks rfl)
  | exit code =>
    obtain ⟨c, n, i, hcurr, -, -, -, htable⟩ := table_sysExit h
    have hended : (Op.exit code).ended k = some c := hcurr
    rw [htable, hended]
    apply hT.keeps_map
    · simp
    · exact fun p n => rfl
    · intro p n halive hne
      simpa [halive] using fun heq => hne (congrArg some heq)
  | waitpid pid options =>
    obtain ⟨⟨k₁, ret⟩, hwait, rfl⟩ := map_eq_some_iff.mp h
    obtain ⟨c, t, hcurr, ht, ⟨rfl, -, -⟩ | ⟨e, -, hfound, hreap⟩⟩ := sysWaitpid_cases hwait
    · exact hT.keeps_self
    · obtain ⟨-, m, hm, hzombie⟩ := findZombie_spec hfound
      rw [table_reap hreap hm]
      exact hT.keeps_reap hm hzombie
  | schedSetparam pid param ticks =>
    obtain ⟨⟨k₁, ret⟩, hset, rfl⟩ := map_eq_some_iff.mp h
    obtain htable | ⟨p, n, -, -, htable⟩ := table_sysSchedSetparam hset
    · exact hsame htable
    · have hmod := hT.keeps_modify (p := p) (f := ({ · with periodic := param.isPeriodic }))
        (fun _ => rfl) (fun _ => rfl) fun _ halive => halive
      rw [htable]
      exact ⟨⟨hmod.running.queued, hmod.running.pids⟩, hmod.node⟩
  | reschedule ticks =>
    obtain ⟨c, n, -, hnode, ⟨hzombie, htable⟩ | ⟨next, -, htable⟩⟩ := table_reschedule h
    · have hout := hT.keeps_dequeue n.periodic hnode hzombie
      rw [htable]
      exact ⟨⟨hout.running.queued, hout.running.pids⟩, hout.node⟩
    · rw [htable]
      exact ⟨⟨hT.queued, hT.pids⟩, hT.keeps_self.node⟩
  | enterStopped p signr =>
    obtain ⟨c, htable⟩ := table_enterStopped h
    have hasleep := hT.keeps_modify (p := c) (f := ({ · with zombie := false }))
      (fun _ => rfl) (fun _ => rfl) fun _ _ => rfl
    rw [htable]
    exact hasleep.trans (hasleep.running.keeps_modify (fun _ => rfl) (fun _ => rfl) fun _ _ => rfl)
  | _ => exact hsame (table_of_quiet h rfl)

theorem running_boot {k : Kernel} {addr ticks : Nat} {kmallocs : Nat → Option SigInfo}
    (h : boot addr ticks kmallocs = some k) : k.table.Running := by
  obtain ⟨-, rfl⟩ := boot_eq h
  have honly : ∀ p n, Option.map Task.node (Function.update (fun _ => none) addr
      (some { newTask 1 none ticks with image := true }) p) = some n → p = addr ∧
        n.zombie = false := by
    intro p n hn
    by_cases hp : p = addr
    · subst hp
      rw [update_self] at hn
      cases hn
      exact ⟨rfl, rfl⟩
    · rw [update_of_ne hp] at hn
      cases hn
  refine ⟨fun p n hn _ => ?_, fun p q n m hp hq _ => ?_⟩
  · obtain ⟨rfl, halive⟩ := honly p n hn
    exact ⟨mem_singleton_self p, halive⟩
  · exact (honly p n hp).1.trans (honly q m hq).1.symm

end Kernel

end Hos
