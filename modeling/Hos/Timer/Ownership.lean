import Hos.Lib.Run
import Hos.Process.Running
import Hos.Timer.Itimer
import Hos.Timer.Wheel

/-!
# Who owns the armed timers

In a run where every alarm goes off while its own task is the running one, where
`sys_setitimer` restarts a timer that is there and stops none, and where no task
exits with a timer, the armed timers are the real timers of tasks, one for one. Each
of the three conditions answers to a place where the source loses track of a timer.
-/

namespace Hos.World

open Option

open TvecBase

section

variable {w w' : World} {addr : Nat} {timer : TimerList} {pid : Int}

theorem arm_spec (h : w.arm addr timer = some w') :
    w'.2 = w.2 ∧ (∀ a, w'.1.timer a = if a = addr then some timer else w.1.timer a) ∧
      ∀ a, w'.1.Armed a ↔ w.1.Armed a ∨ a = addr := by
  obtain ⟨base, hadd, rfl⟩ := map_eq_some_iff.mp h
  obtain ⟨htimer, -, harmed⟩ := addTimer_spec hadd
  exact ⟨rfl, fun a => congrFun htimer a, harmed⟩

theorem kmalloc_spec (h : w.kmalloc = some (addr, w')) :
    w'.1 = w.1 ∧ w'.2.kernel = w.2.kernel ∧ w'.2.itimers = w.2.itimers ∧ w.1.timer addr = none := by
  rw [kmalloc] at h
  split at h
  · cases h
  · rename_i hfree
    cases h
    exact ⟨rfl, rfl, rfl, by simpa using (not_or.mp hfree).2⟩

theorem kill_spec (h : w.kill pid = some w') :
    w'.1 = w.1 ∧ w'.2.kernel.table = w.2.kernel.table ∧ w'.2.itimers = w.2.itimers := by
  obtain ⟨⟨k, ret⟩, hkill, rfl⟩ := map_eq_some_iff.mp h
  exact ⟨rfl, Kernel.table_sysKill hkill, rfl⟩

end

/-- The real timer of a task. -/
def realTimer (w : World) (p : Nat) : Option Nat := (w.2.itimers p).realTimer

section

variable {w w₁ w' : World} {p q addr : Nat} {timer : TimerList}

theorem realTimer_modify {f : Itimers → Itimers} (hf : ∀ x, (f x).realTimer = x.realTimer) :
    (w.modify p f).realTimer q = w.realTimer q := by
  by_cases hq : q = p
  · subst hq
    simp [realTimer, modify, hf]
  · simp [realTimer, modify, hq]

theorem setRealTimer_self {r : Option Nat} : (w.setRealTimer p r).realTimer p = r := by
  simp [realTimer, setRealTimer, modify]

theorem setRealTimer_of_ne {r : Option Nat} (hne : q ≠ p) :
    (w.setRealTimer p r).realTimer q = w.realTimer q := by
  simp [realTimer, setRealTimer, modify, hne]

theorem allocated (hkmalloc : w.kmalloc = some (addr, w₁))
    (harm : (w₁.setRealTimer p (some addr)).arm addr timer = some w') :
    w.1.timer addr = none ∧ w'.2.kernel = w.2.kernel ∧ w'.realTimer p = some addr ∧
      (∀ q, q ≠ p → w'.realTimer q = w.realTimer q) ∧
      (∀ a, w'.1.timer a = if a = addr then some timer else w.1.timer a) ∧
      ∀ a, w'.1.Armed a ↔ w.1.Armed a ∨ a = addr := by
  obtain ⟨hbase, hkernel, hitimers, hfree⟩ := kmalloc_spec hkmalloc
  obtain ⟨hsnd, htimer, harmed⟩ := arm_spec harm
  have hreal : ∀ q, w'.realTimer q = (w₁.setRealTimer p (some addr)).realTimer q := fun q => by
    rw [realTimer, hsnd, realTimer]
  refine ⟨hfree, ?_, (hreal p).trans setRealTimer_self, ?_, ?_, ?_⟩
  · rw [hsnd]
    exact hkernel
  · intro q hne
    rw [hreal, setRealTimer_of_ne hne, realTimer, hitimers, realTimer]
  · intro a
    rw [htimer]
    exact congrArg (fun base : TvecBase => if a = addr then some timer else base.timer a) hbase
  · intro a
    rw [harmed]
    exact iff_of_eq (congrArg (fun base : TvecBase => base.Armed a ∨ a = addr) hbase)

end

/-- What the source should keep. A task without a real timer aside, its timer is armed
with the identifier of the task. An armed timer is the real timer of a task, and its
function finds that task. -/
structure Owned (w : World) : Prop where
  pointer : ∀ p t addr, w.2.kernel.tasks p = some t → w.realTimer p = some addr →
    w.1.Armed addr ∧ ∃ timer, w.1.timer addr = some timer ∧ timer.data = t.pid
  owner : ∀ addr, w.1.Armed addr → ∃ p t, w.2.kernel.tasks p = some t ∧ w.realTimer p = some addr
  found : ∀ addr, w.1.Armed addr → ∃ timer p, w.1.timer addr = some timer ∧
    w.2.kernel.getRunningProcess timer.data = some p ∧ w.realTimer p = some addr

/-- The invariant: the tasks with timers have their memory. -/
structure Sound (w : World) : Prop where
  running : w.2.kernel.table.Running
  pointer : ∀ p addr, w.realTimer p = some addr → w.1.Armed addr ∧ ∃ timer n,
    w.1.timer addr = some timer ∧ w.2.kernel.table.node p = some n ∧ n.image = true ∧
      timer.data = n.pid
  owner : ∀ addr, w.1.Armed addr → ∃ p, w.realTimer p = some addr

namespace Sound

variable {w w' : World} {p q addr : Nat} {n : Node}

variable (h : w.Sound)
include h

/-- The task of an armed timer, and how it is found. -/
theorem holder (harmed : w.1.Armed addr) :
    ∃ p timer n, w.realTimer p = some addr ∧ w.1.timer addr = some timer ∧
      w.2.kernel.table.node p = some n ∧ n.image = true ∧ timer.data = n.pid ∧
      w.2.kernel.getRunningProcess timer.data = some p := by
  obtain ⟨p, hp⟩ := h.owner addr harmed
  obtain ⟨-, timer, n, htimer, hnode, himage, hdata⟩ := h.pointer p addr hp
  refine ⟨p, timer, n, hp, htimer, hnode, himage, hdata, ?_⟩
  rw [Kernel.getRunningProcess_eq, hdata]
  exact h.running.lookup hnode himage

theorem owned : w.Owned := by
  have htask : ∀ p n, w.2.kernel.table.node p = some n → ∃ t, w.2.kernel.tasks p = some t ∧
      t.node = n :=
    fun p n hn => map_eq_some_iff.mp hn
  refine ⟨?_, ?_, ?_⟩
  · intro p t addr ht hp
    obtain ⟨harmed, timer, n, htimer, hnode, -, hdata⟩ := h.pointer p addr hp
    obtain rfl := some.inj ((Kernel.node_of_tasks ht).symm.trans hnode)
    exact ⟨harmed, timer, htimer, hdata⟩
  · intro addr harmed
    obtain ⟨p, -, n, hp, -, hnode, -⟩ := h.holder harmed
    obtain ⟨t, ht, -⟩ := htask p n hnode
    exact ⟨p, t, ht, hp⟩
  · intro addr harmed
    obtain ⟨p, timer, n, hp, htimer, -, -, -, hfound⟩ := h.holder harmed
    exact ⟨timer, p, htimer, hfound, hp⟩

/-- A timer is the real timer of one task only. -/
theorem unique (hp : w.realTimer p = some addr) (hq : w.realTimer q = some addr) : p = q := by
  obtain ⟨-, timer, n, htimer, hnode, -, hdata⟩ := h.pointer p addr hp
  obtain ⟨-, timer', m, htimer', hnode', -, hdata'⟩ := h.pointer q addr hq
  cases htimer.symm.trans htimer'
  exact h.running.pids p q n m hnode hnode' (hdata.symm.trans hdata')

/-- A block that holds no timer is not armed. -/
theorem not_armed (hfree : w.1.timer addr = none) : ¬w.1.Armed addr := by
  intro harmed
  obtain ⟨-, timer, -, -, htimer, -⟩ := h.holder harmed
  cases hfree.symm.trans htimer

/-- A change of the real timer of one task. The timers of the others stay armed and
nothing else is. -/
theorem change (hnode : w.2.kernel.table.node p = some n) (himage : n.image = true)
    (htable : w'.2.kernel.table = w.2.kernel.table)
    (hother : ∀ q, q ≠ p → w'.realTimer q = w.realTimer q)
    (hkept : ∀ q a, q ≠ p → w.realTimer q = some a → w'.1.Armed a ∧ w'.1.timer a = w.1.timer a)
    (hown : ∀ a, w'.realTimer p = some a →
      w'.1.Armed a ∧ ∃ timer, w'.1.timer a = some timer ∧ timer.data = n.pid)
    (harmed : ∀ a, w'.1.Armed a → (∃ q, q ≠ p ∧ w.realTimer q = some a) ∨ w'.realTimer p = some a) :
    w'.Sound := by
  refine ⟨htable ▸ h.running, ?_, ?_⟩
  · intro q a hq
    by_cases hqp : q = p
    · subst hqp
      obtain ⟨harmed, timer, htimer, hdata⟩ := hown a hq
      exact ⟨harmed, timer, n, htimer, htable ▸ hnode, himage, hdata⟩
    · rw [hother q hqp] at hq
      obtain ⟨harmed, htimer⟩ := hkept q a hqp hq
      rw [htimer, htable]
      exact ⟨harmed, (h.pointer q a hq).2⟩
  · intro a ha
    obtain ⟨q, hqp, hq⟩ | hp := harmed a ha
    · exact ⟨q, (hother q hqp).trans hq⟩
    · exact ⟨p, hp⟩

/-- Nothing that concerns the real timers changes. -/
theorem congr (htable : w'.2.kernel.table = w.2.kernel.table)
    (hreal : ∀ q, w'.realTimer q = w.realTimer q) (htimer : w'.1.timer = w.1.timer)
    (harmed : ∀ a, w'.1.Armed a ↔ w.1.Armed a) : w'.Sound := by
  refine ⟨htable ▸ h.running, ?_, ?_⟩
  · intro p a hp
    rw [hreal] at hp
    rw [harmed, htimer, htable]
    exact h.pointer p a hp
  · intro a ha
    obtain ⟨p, hp⟩ := h.owner a ((harmed a).mp ha)
    exact ⟨p, (hreal p).trans hp⟩

/-- The timer of a task is taken out of the wheel and freed. -/
theorem stop (hp : w.realTimer p = some addr) (hbase : w'.1 = (w.1.unlink addr).kfree addr)
    (htable : w'.2.kernel.table = w.2.kernel.table)
    (hother : ∀ q, q ≠ p → w'.realTimer q = w.realTimer q) (hself : w'.realTimer p = none) :
    w'.Sound := by
  obtain ⟨-, -, n, -, hnode, himage, -⟩ := h.pointer p addr hp
  have harmed : ∀ a, w'.1.Armed a ↔ w.1.Armed a ∧ a ≠ addr := by
    intro a
    rw [hbase]
    exact armed_unlink
  apply h.change hnode himage htable hother
  · intro q a hqp hq
    have hne : a ≠ addr := by
      rintro rfl
      exact hqp (h.unique hq hp)
    refine ⟨(harmed a).mpr ⟨(h.pointer q a hq).1, hne⟩, ?_⟩
    rw [hbase]
    exact if_neg hne
  · intro a ha
    cases hself.symm.trans ha
  · intro a ha
    obtain ⟨ha, hne⟩ := (harmed a).mp ha
    obtain ⟨q, hq⟩ := h.owner a ha
    refine .inl ⟨q, ?_, hq⟩
    rintro rfl
    exact hne (some.inj (hq.symm.trans hp))

theorem rearm (hp : w.realTimer p = some addr) (hnode : w.2.kernel.table.node p = some n)
    {timer : TimerList} (hdata : timer.data = n.pid)
    (harm : arm (w.1.unlink addr, w.2) addr timer = some w') : w'.Sound := by
  obtain ⟨-, -, m, -, hm, himage, -⟩ := h.pointer p addr hp
  cases hm.symm.trans hnode
  obtain ⟨hsnd, htimer, harmed⟩ := arm_spec harm
  have hreal : ∀ q, w'.realTimer q = w.realTimer q := fun q => by rw [realTimer, hsnd, realTimer]
  apply h.change hnode himage (by rw [hsnd]) fun q _ => hreal q
  · intro q a hqp hq
    have hne : a ≠ addr := by
      rintro rfl
      exact hqp (h.unique hq hp)
    exact ⟨(harmed a).mpr (.inl (armed_unlink.mpr ⟨(h.pointer q a hq).1, hne⟩)),
      (htimer a).trans (if_neg hne)⟩
  · intro a ha
    obtain rfl := some.inj (((hreal p).symm.trans ha).symm.trans hp)
    exact ⟨(harmed a).mpr (.inr rfl), timer, (htimer a).trans (if_pos rfl), hdata⟩
  · intro a ha
    rw [hreal]
    obtain hold | rfl := (harmed a).mp ha
    · obtain ⟨hold, hne⟩ := armed_unlink.mp hold
      obtain ⟨q, hq⟩ := h.owner a hold
      refine .inl ⟨q, ?_, hq⟩
      rintro rfl
      exact hne (some.inj (hq.symm.trans hp))
    · exact .inr hp

/-- A task gets a timer from a new block, and the one that it had is out of the wheel. -/
theorem start (timer : TimerList) (hnode : w.2.kernel.table.node p = some n)
    (himage : n.image = true) (hfree : w.1.timer addr = none) (hdata : timer.data = n.pid)
    (htable : w'.2.kernel.table = w.2.kernel.table)
    (hother : ∀ q, q ≠ p → w'.realTimer q = w.realTimer q) (hself : w'.realTimer p = some addr)
    (htimer : ∀ a, w.realTimer p ≠ some a → w'.1.timer a = if a = addr
      then some timer else w.1.timer a)
    (harmed : ∀ a, w'.1.Armed a ↔ (w.1.Armed a ∨ a = addr) ∧ w.realTimer p ≠ some a) :
    w'.Sound := by
  have hnew : ∀ q, w.realTimer q ≠ some addr := by
    intro q hq
    exact h.not_armed hfree (h.pointer q addr hq).1
  apply h.change hnode himage htable hother
  · intro q a hqp hq
    have hne : w.realTimer p ≠ some a := fun hp => hqp (h.unique hq hp)
    refine ⟨(harmed a).mpr ⟨.inl (h.pointer q a hq).1, hne⟩, (htimer a hne).trans (if_neg ?_)⟩
    rintro rfl
    exact hnew q hq
  · intro a ha
    cases hself.symm.trans ha
    exact ⟨(harmed addr).mpr ⟨.inr rfl, hnew p⟩, timer, (htimer addr (hnew p)).trans (if_pos rfl),
      hdata⟩
  · intro a ha
    obtain ⟨hold | rfl, hne⟩ := (harmed a).mp ha
    · obtain ⟨q, hq⟩ := h.owner a hold
      refine .inl ⟨q, ?_, hq⟩
      rintro rfl
      exact hne hq
    · exact .inr hself

end Sound

/-- The running task in user mode has its memory. -/
theorem node_of_inUserMode {k : Kernel} (h : k.inUserMode = true) :
    ∃ c t, k.curr = some c ∧ k.tasks c = some t ∧ k.table.node c = some t.node ∧
      t.node.image = true := by
  obtain ⟨t, ht, himage⟩ := (any_eq_true _ _).mp h
  obtain ⟨c, hcurr, ht⟩ := bind_eq_some_iff.mp ht
  exact ⟨c, t, hcurr, ht, Kernel.node_of_tasks ht, himage⟩

/-- What a step must not do: `sys_exit` with a timer, a process identifier twice, a new
timer or a stop in `sys_setitimer`, an alarm of another task than the running one. -/
def Admitted : Event → World → Prop
  | .call op, w =>
    (∀ p, op.ended w.2.kernel = some p → w.realTimer p = none) ∧
      ∀ addr ticks, op = .fork addr ticks → ∀ p t, w.2.kernel.tasks p = some t →
        t.pid ≠ i32 w.2.kernel.tid
  | .setitimer which newValue _, w =>
    which = itimerReal → ∀ c, w.2.kernel.curr = some c →
      (timevalTicks newValue.intervalSec newValue.intervalUsec ≠ 0 ↔ w.realTimer c ≠ none)
  | .expire _ _ addr, w =>
    ∀ timer, w.1.timer addr = some timer → timer.function = .alarmTimeout →
      ∃ c t, w.2.kernel.curr = some c ∧ w.2.kernel.tasks c = some t ∧ timer.data = t.pid
  | _, _ => True

section

variable {w w' : World}

theorem Sound.call (h : w.Sound) {op : Kernel.Op} (hok : Admitted (.call op) w)
    (hexec : (Event.call op).exec w = some w') : w'.Sound := by
  obtain ⟨k, hop, rfl⟩ := map_eq_some_iff.mp hexec
  have hkeeps := op.keeps hop h.running fun addr ticks hfork p n hn => by
    obtain ⟨t, ht, rfl⟩ := map_eq_some_iff.mp hn
    exact hok.2 addr ticks hfork p t ht
  -- A new task has no timer, and the tasks with timers are no new ones.
  have hcreated : ∀ p addr, (created op w.2.itimers p).realTimer = some addr ↔
      w.realTimer p = some addr := by
    intro p addr
    cases op with
    | fork new ticks =>
      by_cases hnew : p = new.toNat
      · subst hnew
        obtain ⟨huser, hforked⟩ := ite_none_right_eq_some.mp hop
        obtain ⟨c, t, hcurr, ht, hc, -⟩ := node_of_inUserMode huser
        obtain ⟨⟨k₁, pid⟩, hforked, -⟩ := map_eq_some_iff.mp hforked
        obtain ⟨-, hfresh, -⟩ := Kernel.table_sysFork hforked hcurr hc
        constructor
        · intro hp
          simp [created, Itimers.zero] at hp
        · intro hp
          obtain ⟨-, -, n, -, hnode, -, -⟩ := h.pointer _ addr hp
          cases hfresh.symm.trans hnode
      · simp [created, hnew, realTimer]
    | _ => exact Iff.rfl
  refine ⟨hkeeps.running, ?_, ?_⟩
  · intro p addr hp
    have hp := (hcreated p addr).mp hp
    obtain ⟨harmed, timer, n, htimer, hnode, himage, hdata⟩ := h.pointer p addr hp
    have hlost : some p ≠ op.ended w.2.kernel := by
      intro heq
      exact absurd ((hok.1 p heq.symm).symm.trans hp) (some_ne_none addr).symm
    obtain ⟨n', hn', himage', hpid⟩ := hkeeps.node p n hnode himage hlost
    exact ⟨harmed, timer, n', htimer, hn', himage', hdata.trans hpid.symm⟩
  · intro addr harmed
    obtain ⟨p, hp⟩ := h.owner addr harmed
    exact ⟨p, (hcreated p addr).mpr hp⟩

theorem Sound.alarm (h : w.Sound) {seconds : Int} (hexec : (Event.alarm seconds).exec w = some w') :
    w'.Sound := by
  obtain ⟨huser, hexec⟩ := ite_none_right_eq_some.mp hexec
  obtain ⟨c, t, hcurr, ht, hnode, himage⟩ := node_of_inUserMode huser
  obtain ⟨⟨w₁, ret⟩, halarm, rfl⟩ := map_eq_some_iff.mp hexec
  simp only [sysAlarm, hcurr, ht, bind_eq_bind, bind_some] at halarm
  split at halarm
  · rename_i addr hreal
    obtain ⟨timer, htimer, halarm⟩ := bind_eq_some_iff.mp halarm
    obtain ⟨base, hdel, halarm⟩ := bind_eq_some_iff.mp halarm
    obtain ⟨-, -, rfl⟩ := map_eq_some_iff.mp hdel
    split at halarm
    · cases halarm
      exact h.stop hreal rfl rfl (fun q hne => setRealTimer_of_ne hne) setRealTimer_self
    · obtain ⟨w₂, harm, halarm⟩ := bind_eq_some_iff.mp halarm
      cases halarm
      exact h.rearm hreal hnode rfl harm
  · rename_i hreal
    split at halarm
    · cases halarm
      exact h
    · obtain ⟨⟨addr, w₂⟩, hkmalloc, halarm⟩ := bind_eq_some_iff.mp halarm
      obtain ⟨w₃, harm, halarm⟩ := bind_eq_some_iff.mp halarm
      cases halarm
      obtain ⟨hfree, hkernel, hself, hother, htimer, harmed⟩ := allocated hkmalloc harm
      have hnone : ∀ a, w.realTimer c ≠ some a := fun a => by rw [realTimer, hreal]; exact nofun
      refine h.start _ hnode himage hfree rfl (by rw [hkernel]) hother hself
        (fun a _ => htimer a) fun a => ?_
      rw [harmed, and_iff_left (hnone a)]

theorem realTimer_updateTaskItimerval {c q : Nat} {which : Int} {val : Itimerval} :
    (w.updateTaskItimerval c which val).realTimer q = w.realTimer q := by
  rw [updateTaskItimerval]
  split
  · exact realTimer_modify fun _ => rfl
  split
  · exact realTimer_modify fun _ => rfl
  split
  · exact realTimer_modify fun _ => rfl
  · rfl

theorem Sound.updateTaskItimerval (h : w.Sound) {c : Nat} {which : Int} {val : Itimerval} :
    (w.updateTaskItimerval c which val).Sound := by
  have hrest : (w.updateTaskItimerval c which val).1 = w.1 ∧
      (w.updateTaskItimerval c which val).2.kernel = w.2.kernel := by
    rw [World.updateTaskItimerval]
    split
    · exact ⟨rfl, rfl⟩
    split
    · exact ⟨rfl, rfl⟩
    split <;> exact ⟨rfl, rfl⟩
  exact h.congr (by rw [hrest.2]) (fun _ => realTimer_updateTaskItimerval) (by rw [hrest.1])
    fun a => by rw [hrest.1]

/-- `sys_getitimer` changes no real timer. -/
theorem sysGetitimer_spec {which : Int} {val : Option Itimerval}
    (h : w.sysGetitimer which = some (w', val)) :
    w'.1 = w.1 ∧ w'.2.kernel = w.2.kernel ∧ ∀ q, w'.realTimer q = w.realTimer q := by
  obtain ⟨c, -, h⟩ := bind_eq_some_iff.mp h
  dsimp only at h
  split at h
  · obtain ⟨addr, -, h⟩ := bind_eq_some_iff.mp h
    obtain ⟨timer, -, h⟩ := bind_eq_some_iff.mp h
    cases h
    exact ⟨rfl, rfl, fun q => realTimer_modify fun _ => rfl⟩
  split at h
  · cases h
    simp
  split at h
  · cases h
    simp
  · cases h
    simp

theorem Sound.setitimer (h : w.Sound) {which : Int} {newValue : Itimerval} {oldValue : Bool}
    (hok : Admitted (.setitimer which newValue oldValue) w)
    (hexec : (Event.setitimer which newValue oldValue).exec w = some w') : w'.Sound := by
  obtain ⟨huser, hexec⟩ := ite_none_right_eq_some.mp hexec
  obtain ⟨c, t, hcurr, ht, hnode, himage⟩ := node_of_inUserMode huser
  obtain ⟨⟨w₁, ret⟩, hset, rfl⟩ := map_eq_some_iff.mp hexec
  rw [sysSetitimer] at hset
  split at hset
  · cases hset
    exact h
  obtain ⟨w₂, hold, hset⟩ := bind_eq_some_iff.mp hset
  -- The old value is stored first.
  obtain ⟨hbase, hkernel, hreal⟩ : w₂.1 = w.1 ∧ w₂.2.kernel = w.2.kernel ∧
      ∀ q, w₂.realTimer q = w.realTimer q := by
    split at hold
    · obtain ⟨⟨w₃, val⟩, hget, rfl⟩ := map_eq_some_iff.mp hold
      exact sysGetitimer_spec hget
    · cases hold
      simp
  have hsound : w₂.Sound := h.congr (by rw [hkernel]) hreal (by rw [hbase]) fun a => by rw [hbase]
  rw [hkernel, hcurr] at hset
  dsimp only [bind_eq_bind, bind_some] at hset
  split at hset
  · rename_i hzero
    cases hset
    apply Sound.updateTaskItimerval
    split
    · rename_i hdisarm
      have hnone : w.realTimer c = none := not_not.mp fun hsome =>
        (hok hdisarm.1 c hcurr).mpr hsome hzero
      exact absurd ((hreal c).trans hnone) hdisarm.2
    · exact hsound
  · rename_i hinterval
    obtain ⟨w₃, hrestart, hset⟩ := bind_eq_some_iff.mp hset
    cases hset
    apply Sound.updateTaskItimerval
    split at hrestart
    · rename_i hwhich
      obtain ⟨addr, haddr⟩ := ne_none_iff_exists'.mp ((hok hwhich c hcurr).mp hinterval)
      have haddr₂ : (w₂.2.itimers c).realTimer = some addr := (hreal c).trans haddr
      simp only [restart, hkernel, ht, haddr₂, bind_eq_bind, bind_some] at hrestart
      obtain ⟨base, hdel, harm⟩ := bind_eq_some_iff.mp hrestart
      obtain ⟨-, -, rfl⟩ := map_eq_some_iff.mp hdel
      exact hsound.rearm haddr₂ (n := t.node) (by rw [hkernel]; exact hnode) rfl harm
    · cases hrestart
      exact hsound

theorem Sound.expire (h : w.Sound) {tv index addr : Nat} (hok : Admitted (.expire tv index addr) w)
    (hexec : (Event.expire tv index addr).exec w = some w') : w'.Sound := by
  obtain ⟨hmem, hexec⟩ := ite_none_right_eq_some.mp hexec
  obtain ⟨p, timer, n, hp, htimer, hnode, himage, hdata, hfound⟩ := h.holder ⟨tv, index, hmem⟩
  rw [fire, htimer, bind_eq_bind, bind_some] at hexec
  obtain ⟨w₁, hcallback, hexec⟩ := bind_eq_some_iff.mp hexec
  cases hexec
  rw [callback] at hcallback
  split at hcallback
  · rename_i hfunction
    obtain ⟨w₂, hkill, hcallback⟩ := bind_eq_some_iff.mp hcallback
    obtain ⟨cur, hcur, hcallback⟩ := bind_eq_some_iff.mp hcallback
    cases hcallback
    obtain ⟨hbase, htable, hitimers⟩ := kill_spec hkill
    obtain ⟨c, t, hcurr, ht, hpid⟩ := hok timer htimer hfunction
    -- The running task is the one that asked for the alarm.
    obtain rfl : c = p := h.running.pids c p t.node n (Kernel.node_of_tasks ht) hnode
      (hpid.symm.trans hdata)
    obtain rfl : c = cur := some.inj (hcurr.symm.trans
      ((congrArg Table.curr htable).symm.trans hcur))
    refine h.stop hp ?_ htable ?_ setRealTimer_self
    · exact congrArg (fun base : TvecBase => (base.unlink addr).kfree addr) hbase
    · intro q hne
      exact (setRealTimer_of_ne hne).trans (congrArg Itimers.realTimer (congrFun hitimers q))
  · rw [itRealFn, hfound] at hcallback
    obtain ⟨w₂, hkill, hcallback⟩ := bind_eq_some_iff.mp hcallback
    obtain ⟨hbase, htable, hitimers⟩ := kill_spec hkill
    have hreal : ∀ q, w₂.realTimer q = w.realTimer q := fun q =>
      congrArg Itimers.realTimer (congrFun hitimers q)
    dsimp only [bind_eq_bind, bind_some] at hcallback
    split at hcallback
    · obtain ⟨⟨new, w₃⟩, hkmalloc, hcallback⟩ := bind_eq_some_iff.mp hcallback
      obtain ⟨t, ht, harm⟩ := bind_eq_some_iff.mp hcallback
      obtain ⟨hfree, hkernel, hself, hother, htimer', harmed⟩ := allocated hkmalloc harm
      have hdata' : t.pid = n.pid := by
        rw [(kmalloc_spec hkmalloc).2.1] at ht
        exact congrArg Node.pid (some.inj ((Kernel.node_of_tasks ht).symm.trans (htable ▸ hnode)))
      rw [hbase] at hfree htimer' harmed
      refine h.start ⟨u32 (w₃.2.ticks + (w₂.2.itimers p).itRealIncr), .itRealFn, t.pid⟩ hnode himage
        hfree hdata' ((congrArg Kernel.table hkernel).trans htable)
          (fun q hne => (hother q hne).trans (hreal q)) hself ?_ ?_
      · intro a hne
        have hne : a ≠ addr := fun heq => hne (heq ▸ hp)
        exact (if_neg hne).trans (htimer' a)
      · intro a
        rw [hp]
        refine armed_unlink.trans ?_
        rw [harmed, ne_eq, ne_eq, some.injEq, eq_comm (a := addr)]
    · cases hcallback
      refine h.stop hp ?_ htable ?_ setRealTimer_self
      · exact congrArg (fun base : TvecBase => (base.unlink addr).kfree addr) hbase
      · intro q hne
        exact (setRealTimer_of_ne hne).trans (hreal q)

theorem Sound.step (h : w.Sound) {event : Event} (hok : Admitted event w)
    (hexec : event.exec w = some w') :
    w'.Sound := by
  cases event with
  | call op => exact h.call hok hexec
  | alarm seconds => exact h.alarm hexec
  | setitimer which newValue oldValue => exact h.setitimer hok hexec
  | cascate tv index =>
    obtain ⟨base, hcascate, rfl⟩ := map_eq_some_iff.mp hexec
    obtain ⟨htimer, -, harmed⟩ := cascate_spec hcascate
    exact h.congr rfl (fun _ => rfl) htimer harmed
  | expire tv index addr => exact h.expire hok hexec
  | advance =>
    cases hexec
    exact h.congr rfl (fun _ => rfl) rfl fun _ => Iff.rfl
  | clock ticks =>
    cases hexec
    exact h.congr rfl (fun _ => rfl) rfl fun _ => Iff.rfl

end

/-- The state after the start: one task and an empty wheel. -/
def start (k : Kernel) (ticks : Nat) (blocks : Nat → Nat) : World :=
  (TvecBase.install, ⟨k, fun _ => .zero, ticks, blocks⟩)

section

variable {k : Kernel} {addr ticks now : Nat} {kmallocs : Nat → Option SigInfo}
    {blocks : Nat → Nat} {w : World}

theorem sound_start (hboot : Kernel.boot addr ticks kmallocs = some k) :
    (start k now blocks).Sound := by
  have hnone : ∀ a, ¬(start k now blocks).1.Armed a := by
    rintro a ⟨tv, index, hmem⟩
    exact absurd hmem List.not_mem_nil
  refine ⟨?_, fun p a hp => absurd hp.symm (some_ne_none a), fun a ha => absurd ha (hnone a)⟩
  exact Kernel.running_boot hboot

end

/-- Every run of the wheel and the tasks. -/
def AnyRun : World → World → Prop := Runs Event.exec fun _ _ => True

section

variable {k : Kernel} {addr ticks now : Nat} {kmallocs : Nat → Option SigInfo}
    {blocks : Nat → Nat} {w : World}

/-- In every run whose steps are all admitted the real timers are owned. -/
theorem real_timers_owned (hboot : Kernel.boot addr ticks kmallocs = some k)
    (hrun : Runs Event.exec Admitted (start k now blocks) w) : w.Owned :=
  (hrun.invariant Sound (fun _ _ _ h hok hexec => h.step hok hexec) (sound_start hboot)).owned

end

/-- The first task asks for an alarm in a second. -/
theorem real_timers_owned_alarm :
    ∃ k w, Kernel.boot 0x1000 0 (fun _ => none) = some k ∧
      Runs Event.exec Admitted (start k 0 fun _ => 0x2000) w ∧ w.1.Armed 0x2000 ∧ w.Owned := by
  have hrun : ∀ {k w}, (Event.alarm 1).exec (start k 0 fun _ => 0x2000) = some w →
      Runs Event.exec Admitted (start k 0 fun _ => 0x2000) w :=
        Runs.single (i := Event.alarm 1) trivial
  exact ⟨_, _, rfl, hrun rfl, ⟨2, 4, by decide⟩,
    real_timers_owned (rfl : Kernel.boot 0x1000 0 (fun _ => none) = some _) (hrun rfl)⟩

/-- The first task calls `setitimer` for a signal every second. The new timer is armed and
belongs to nobody. -/
theorem setitimer_timer_unowned :
    ∃ k w, Kernel.boot 0x1000 0 (fun _ => none) = some k ∧ AnyRun (start k 0 fun _ => 0x2000) w ∧
      (Event.setitimer itimerReal ⟨1, 0, 1, 0⟩ false).exec (start k 0 fun _ => 0x2000) = some w ∧
      w.1.Armed 0x2000 ∧ (∀ p, w.realTimer p = none) ∧ ¬w.Owned := by
  have harmed : ∀ {w : World}, 0x2000 ∈ w.1.vec 2 4 → w.1.Armed 0x2000 := fun h => ⟨2, 4, h⟩
  refine ⟨_, _, rfl, Runs.single (i := .setitimer itimerReal ⟨1, 0, 1, 0⟩ false) trivial rfl, rfl,
    harmed (by decide), fun p => realTimer_updateTaskItimerval.trans rfl, fun howned => ?_⟩
  obtain ⟨p, t, -, hp⟩ := howned.owner 0x2000 (harmed (by decide))
  cases (realTimer_updateTaskItimerval.trans rfl).symm.trans hp

end Hos.World
