import Hos.Process.Run

/-!
# What a caller of `sys_waitpid` gets

The search of `sys_waitpid` compares process identifiers only when it is asked for one
above 1, and what it stores in `*status` is the state of the child, `EXIT_ZOMBIE`, and
not its exit code.
-/

namespace Hos

open Option List

/-- The numbers of the states in `wait.h`. -/
def TaskState.code : TaskState → BitVec 32
  | running => 0
  | interruptible => 1
  | uninterruptible => 2
  | stopped => 4
  | traced => 8
  | zombie => 16
  | dead => 32

namespace Kernel

/-- What `sys_waitpid` stores in `*status`. -/
def waitpidStatus (k : Kernel) (pid : Int) (options : Nat) : Option (BitVec 32) := do
  let e ← k.waitpidChild pid options
  let entry ← k.tasks e
  return entry.state.code

/-- The first zombie among the children, with the process identifier when it is above
the bound. -/
def firstZombie (k : Kernel) (bound pid : Int) (children : List Nat) : Option Nat :=
  children.find? fun e => (k.tasks e).any fun t => t.state = .zombie ∧ (bound < pid → t.pid = pid)

/-- The child to be reaped is reaped with its process identifier and exit code;
without one nothing changes. -/
def WaitsFor (k : Kernel) (c : Nat) (pid : Int) (children : List Nat) (k' : Kernel) (ret : Int)
    (status : Option (BitVec 32)) : Prop :=
  match k.firstZombie 0 pid children with
  | none => k' = k ∧ ret ≤ 0 ∧ status = none
  | some e =>
    k.reap c e = some k' ∧ ∃ t, k.tasks e = some t ∧ ret = t.pid ∧ status = some t.exitCode

section

variable {k : Kernel} {c e : Nat} {t entry : Task} {pid : Int} {options : Nat} {children : List Nat}

theorem findZombie_eq (hchildren : ∀ e ∈ children, (k.tasks e).isSome) :
    k.findZombie pid children = some (k.firstZombie 1 pid children) := by
  induction children with
  | nil => rfl
  | cons e children ih =>
    obtain ⟨he, hrest⟩ := forall_mem_cons.mp hchildren
    obtain ⟨entry, hentry⟩ := isSome_iff_exists.mp he
    have htail := ih hrest
    rw [firstZombie] at htail
    simp only [findZombie, firstZombie, hentry, htail, bind_eq_bind, bind_some, find?_cons]
    grind

theorem firstZombie_spec {bound : Int} (h : k.firstZombie bound pid children = some e) :
    e ∈ children ∧ ∃ entry, k.tasks e = some entry ∧ entry.state = .zombie := by
  have hany := find?_some h
  obtain ⟨entry, hentry, hzombie⟩ := (any_eq_true _ _).mp hany
  exact ⟨mem_of_find?_eq_some h, entry, hentry, (of_decide_eq_true hzombie).1⟩

theorem firstZombie_none (h : k.firstZombie 1 pid children = none) :
    k.firstZombie 0 pid children = none := by
  rw [firstZombie, find?_eq_none] at h ⊢
  intro e he hwanted
  obtain ⟨entry, hentry, hzombie⟩ := (any_eq_true _ _).mp hwanted
  refine h e he ((any_eq_true _ _).mpr ⟨entry, hentry, ?_⟩)
  grind

/-- Where the search that is made stops, the one that is asked for does, but for the
process identifier 1. -/
theorem firstZombie_eq_iff (hfound : k.firstZombie 1 pid children = some e)
    (hentry : k.tasks e = some entry) :
    k.firstZombie 0 pid children = some e ↔ (pid = 1 → entry.pid = 1) := by
  obtain ⟨hany, before, after, rfl, hbefore⟩ := find?_eq_some_iff_append.mp hfound
  have hnone : k.firstZombie 0 pid before = none :=
    firstZombie_none (find?_eq_none.mpr fun a ha => by simpa using hbefore a ha)
  rw [firstZombie] at hnone
  rw [firstZombie, find?_append, hnone, none_or, find?_cons]
  simp only [hentry, any_some, decide_eq_true_eq] at hany ⊢
  grind

theorem modify_tasks_eq_none {f : Task → Task} {q : Nat} : (k.modify c f).tasks q = none ↔
    k.tasks q = none := by
  by_cases hq : q = c
  · rw [hq, modify_tasks_self, map_eq_none_iff]
  · rw [modify_tasks_of_ne hq]

/-- A child that exists is freed, and is the only task that is gone. -/
theorem reap_of_tasks (hentry : k.tasks e = some entry) :
    ∃ k', k.reap c e = some k' ∧ ∀ q, k'.tasks q = none ↔ q = e ∨ k.tasks q = none := by
  cases hmod : (k.modify c fun t => { t with children := t.children.erase e }).tasks e with
  | none => exact absurd (hentry.symm.trans (modify_tasks_eq_none.mp hmod)) (some_ne_none entry)
  | some u =>
    refine ⟨_, by simp only [reap, dequeueTask, hmod, bind_eq_bind, bind_some]; rfl, fun q => ?_⟩
    by_cases hq : q = e
    · simp [hq]
    · simp only [Function.update_of_ne hq, hq, false_or]
      exact modify_tasks_eq_none

/-- `sys_waitpid` does what its caller asks for exactly when the zombie that its search
stops at, if any, has an exit code equal to `EXIT_ZOMBIE`, and process identifier 1 when
that one is asked for. -/
theorem sysWaitpid_waits_iff (hcurr : k.curr = some c) (ht : k.tasks c = some t)
    (hpid : pid = -1 ∨ 0 < pid) (hself : pid ≠ t.pid) (hoptions : options = 0 ∨ options = wnohang)
    (hchildren : ∀ e ∈ t.children, (k.tasks e).isSome) :
    ∃ k' ret, k.sysWaitpid pid options = some (k', ret) ∧
      (k.WaitsFor c pid t.children k' ret (k.waitpidStatus pid options) ↔
        ∀ e entry, k.firstZombie 1 pid t.children = some e → k.tasks e = some entry →
          entry.exitCode = 16 ∧ (pid = 1 → entry.pid = 1)) := by
  have hfind : k.findZombie pid t.children = _ := findZombie_eq hchildren
  have hrange : ¬(pid < -1 ∨ pid = 0) := by omega
  have hoption : ¬(options ≠ 0 ∧ options ≠ wnohang) := by omega
  have hchild : k.waitpidChild pid options = k.firstZombie 1 pid t.children := by
    simp only [waitpidChild, hcurr, ht, hfind, bind_eq_bind, bind_some, join_some]
    exact if_neg (by grind)
  simp only [sysWaitpid, hcurr, ht, hrange, hself, hoption, hfind, bind_eq_bind,
    bind_some, if_false]
  cases hfound : k.firstZombie 1 pid t.children with
  | none =>
    have hnothing : ∀ ret ≤ (0 : Int), k.WaitsFor c pid t.children k ret
        (k.waitpidStatus pid options) := by
      intro ret hle
      rw [WaitsFor, firstZombie_none hfound, waitpidStatus, hchild, hfound]
      exact ⟨rfl, hle, rfl⟩
    split
    · exact ⟨k, _, rfl, iff_of_true (hnothing _ (by decide)) fun _ _ h => by cases h⟩
    · exact ⟨k, 0, rfl, iff_of_true (hnothing _ le_rfl) fun _ _ h => by cases h⟩
  | some e =>
    obtain ⟨hmem, entry, hentry, hzombie⟩ := firstZombie_spec hfound
    obtain ⟨k', hreap, hgone⟩ := reap_of_tasks (c := c) hentry
    have hstatus : k.waitpidStatus pid options = some 16 := by
      simp [waitpidStatus, hchild, hfound, hentry, hzombie, TaskState.code]
    rw [if_neg (ne_nil_of_mem hmem)]
    refine ⟨k', entry.pid, by simp [hentry, hreap], ?_⟩
    have hiff := firstZombie_eq_iff hfound hentry
    rw [WaitsFor, hstatus]
    constructor
    · intro hwaits _ _ he hu
      cases he
      cases hentry.symm.trans hu
      cases hwanted : k.firstZombie 0 pid t.children with
      | none =>
        rw [hwanted] at hwaits
        have hlost := (hgone e).mpr (Or.inl rfl)
        rw [hwaits.1, hentry] at hlost
        cases hlost
      | some e₁ =>
        rw [hwanted] at hwaits
        obtain ⟨hreap₁, u, hu, -, hcode⟩ := hwaits
        obtain ⟨k₁, hk₁, hgone₁⟩ := reap_of_tasks (c := c) hu
        cases hreap₁.symm.trans hk₁
        obtain rfl | hlost := (hgone₁ e).mp ((hgone e).mpr (Or.inl rfl))
        · cases hentry.symm.trans hu
          exact ⟨(some.inj hcode).symm, hiff.mp hwanted⟩
        · cases hentry.symm.trans hlost
    · intro hcond
      obtain ⟨hcode, hone⟩ := hcond e entry rfl hentry
      rw [hiff.mpr hone]
      exact ⟨hreap, entry, hentry, rfl, by rw [hcode]⟩

end

/-- No child has exited. -/
theorem sysWaitpid_waits_none :
    ∃ k₀ k t, boot 0x1000 0 (fun _ => none) = some k₀ ∧ (Op.fork 0x2000 0).exec k₀ = some k ∧
      k.tasks 0x1000 = some t ∧ ∃ k' ret, k.sysWaitpid 2 wnohang = some (k', ret) ∧
      k.WaitsFor 0x1000 2 t.children k' ret (k.waitpidStatus 2 wnohang) := by
  have hwaits : ∀ {k : Kernel} {t : Task}, k.curr = some 0x1000 →
      k.tasks 0x1000 = some t → t.pid = 1 →
      t.children = [0x2000] → (k.tasks 0x2000).isSome → k.firstZombie 1 2 t.children = none →
      ∃ k' ret, k.sysWaitpid 2 wnohang = some (k', ret) ∧
        k.WaitsFor 0x1000 2 t.children k' ret (k.waitpidStatus 2 wnohang) := by
    intro k t hcurr ht hpid hchildren hchild hnone
    obtain ⟨k', ret, hwait, hiff⟩ := sysWaitpid_waits_iff hcurr ht
      (Or.inr (by decide : (0 : Int) < 2))
      (by rw [hpid]; decide) (Or.inr rfl) (by simpa [hchildren] using hchild)
    exact ⟨k', ret, hwait, hiff.mpr fun e _ he => by rw [hnone] at he; cases he⟩
  exact ⟨_, _, _, rfl, rfl, rfl, hwaits rfl rfl rfl rfl rfl rfl⟩

/-- The child exits with code 5 and its parent waits for it: the status is `EXIT_ZOMBIE`. -/
theorem waitpid_status_is_state :
    ∃ k₀ k k' t entry, boot 0x1000 0 (fun _ => some (mkInfo 0 .siUser 0 0)) = some k₀ ∧
      AnyRun k₀ k ∧ k.curr = some 0x1000 ∧ k.tasks 0x1000 = some t ∧ k.tasks 0x2000 = some entry ∧
      entry.exitCode = 0x500 ∧ k.sysWaitpid 2 0 = some (k', 2) ∧ k.waitpidStatus 2 0 = some 16 ∧
      ¬k.WaitsFor 0x1000 2 t.children k' 2 (k.waitpidStatus 2 0) := by
  refine ⟨_, _, _, _, _, rfl, AnyRun.ops [.fork 0x2000 0, .reschedule 0, .exit 5,
    .reschedule 0] rfl, rfl, rfl, rfl, rfl, rfl, rfl, ?_⟩
  rintro ⟨-, u, hu, -, hcode⟩
  cases hu
  cases hcode

end Kernel

end Hos
