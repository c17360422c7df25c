import Mathlib.Algebra.BigOperators.Intervals
import Mathlib.Algebra.Order.BigOperators.Group.Finset
import Mathlib.Data.Prod.Lex
import Hos.Process.Pending

/-!
# The loop of `do_signal` ends

Every iteration of the loop collects a signal, but it may also send one: a task
that stops or exits sends `SIGCHLD` to its parent, and a stopped task is
followed by another one whose signals are delivered in the same way. What is
sent is always `SIGCHLD`, which sends nothing when it is delivered. So with a
low cost for `SIGCHLD` and a higher one for the others, the cost of all pending
signals of all tasks decreases with every iteration, nested or not.

`deliverStep` is one iteration up to the calls that it makes, and `deliver_eq`
says so. The calls of the functions are a well-founded relation, for every
kernel with finitely many tasks.
-/

namespace Hos

open Option Nat

section

variable {S : Finset Nat} {f g : Nat → Nat} {p c : Nat}

/-- One summand grows by at most `c`, the others do not grow. -/
theorem sum_le_add_of_one (hp : f p ≤ g p + c) (hother : ∀ q ≠ p, f q ≤ g q) :
    ∑ q ∈ S, f q ≤ ∑ q ∈ S, g q + c := by
  have hpoint : ∀ q ∈ S, f q ≤ g q + if q = p then c else 0 := by
    intro q _
    by_cases hq : q = p
    · simpa [hq] using hp
    · simpa [hq] using hother q hq
  calc ∑ q ∈ S, f q ≤ ∑ q ∈ S, (g q + if q = p then c else 0) := Finset.sum_le_sum hpoint
    _ = ∑ q ∈ S, g q + ∑ q ∈ S, (if q = p then c else 0) := Finset.sum_add_distrib
    _ ≤ ∑ q ∈ S, g q + c := by
        rw [Finset.sum_ite_eq']
        split <;> simp

/-- One summand shrinks by at least `c`, the others do not grow. -/
theorem sum_add_le_of_one (hmem : p ∈ S) (hp : f p + c ≤ g p) (hother : ∀ q ≠ p, f q ≤ g q) :
    ∑ q ∈ S, f q + c ≤ ∑ q ∈ S, g q := by
  rw [← Finset.add_sum_erase S f hmem, ← Finset.add_sum_erase S g hmem]
  have hrest : ∑ q ∈ S.erase p, f q ≤ ∑ q ∈ S.erase p, g q :=
    Finset.sum_le_sum fun q hq => hother q (Finset.ne_of_mem_erase hq)
  omega

end

/-- What a signal can still cause, in the queue or in the set. -/
def cost (n : Nat) : Nat := if n = sigchld then 1 else 4

/-- The cost of the bits of a set. -/
def SigSet.cost (set : SigSet) : Nat :=
  ∑ n ∈ Finset.Ico 1 nsig, if set.sigismember n then Hos.cost n else 0

namespace SigPending

/-- The cost of all entries and of all bits. -/
def cost (pending : SigPending) : Nat :=
  (pending.list.map fun entry => Hos.cost entry.siSigno).sum + pending.signal.cost

variable {set : SigSet} {pending : SigPending} {sig : Nat} {entry : Option SigInfo}

theorem cost_sigaddset (hpos : sig ≠ 0) : (set.sigaddset sig).cost ≤ set.cost + Hos.cost sig := by
  have hbit : ∀ n ∈ Finset.Ico 1 nsig, (set.sigaddset sig).sigismember n =
      (set.sigismember n || n == sig) := fun n hn =>
    SigSet.sigismember_sigaddset hpos (ne_of_gt (Finset.mem_Ico.mp hn).1)
  have hsame : (set.sigaddset sig).cost = ∑ n ∈ Finset.Ico 1 nsig,
      if set.sigismember n || n == sig then Hos.cost n else 0 :=
    Finset.sum_congr rfl fun n hn => by rw [hbit n hn]
  rw [hsame]
  refine sum_le_add_of_one (p := sig) ?_ ?_
  · simp
  · intro q hq
    simp [hq]

theorem cost_sigdelset (hpos : 0 < sig) (hlt : sig < nsig) (hset : set.sigismember sig = true) :
    (set.sigdelset sig).cost + Hos.cost sig ≤ set.cost := by
  have hbit : ∀ n ∈ Finset.Ico 1 nsig, (set.sigdelset sig).sigismember n =
      (set.sigismember n && n != sig) := fun n hn =>
    SigSet.sigismember_sigdelset (ne_of_gt hpos) (ne_of_gt (Finset.mem_Ico.mp hn).1)
  have hsame : (set.sigdelset sig).cost = ∑ n ∈ Finset.Ico 1 nsig,
      if set.sigismember n && n != sig then Hos.cost n else 0 :=
    Finset.sum_congr rfl fun n hn => by rw [hbit n hn]
  rw [hsame]
  refine sum_add_le_of_one (p := sig) (Finset.mem_Ico.mpr ⟨hpos, hlt⟩) ?_ ?_
  · simp [hset]
  · intro q hq
    simp [hq]

/-- A new `SIGCHLD` costs one for its entry and one for its bit. -/
theorem cost_post_sigchld (hentry : ∀ info, entry = some info → info.siSigno = sigchld) :
    (pending.post sigchld entry).cost ≤ pending.cost + 2 := by
  cases entry with
  | none => exact le_add_right _ _
  | some info =>
    have hone : Hos.cost sigchld = 1 := rfl
    have hbits : (pending.signal.sigaddset sigchld).cost ≤ pending.signal.cost + Hos.cost sigchld :=
      cost_sigaddset (by decide)
    simp only [SigPending.cost, SigPending.post, List.map_append, List.sum_append, List.map_cons,
      List.map_nil, List.sum_cons, List.sum_nil, hentry info rfl]
    omega

/-- Collecting a signal whose bit is set pays for it. -/
theorem cost_collected (hpos : 0 < sig) (hlt : sig < nsig)
    (hbit : pending.signal.sigismember sig = true) :
    (pending.collected sig).cost + Hos.cost sig ≤ pending.cost := by
  have hdel := cost_sigdelset hpos hlt hbit
  by_cases hqueued : ∃ entry ∈ pending.list, entry.siSigno = sig
  · -- the entry is removed, whatever happens to the bit
    have hlist : ((pending.list.eraseP fun entry => entry.siSigno = sig).map fun entry =>
        Hos.cost entry.siSigno).sum + Hos.cost sig =
          (pending.list.map fun entry => Hos.cost entry.siSigno).sum := by
      obtain ⟨entry, hmem, hentry⟩ := hqueued
      obtain ⟨a, before, after, _, ha, hsplit, herase⟩ :=
        List.exists_of_eraseP (p := fun entry : SigInfo => entry.siSigno = sig) hmem
          (decide_eq_true hentry)
      rw [herase, hsplit]
      have hcost : Hos.cost a.siSigno = Hos.cost sig := by rw [of_decide_eq_true ha]
      simp only [List.map_append, List.sum_append, List.map_cons, List.sum_cons, hcost]
      omega
    simp only [SigPending.cost, collected]
    split <;> omega
  · -- only the bit was left
    have hnone : ∀ entry ∈ pending.list, ¬decide (entry.siSigno = sig) = true := by
      intro entry hmem hentry
      exact hqueued ⟨entry, hmem, of_decide_eq_true hentry⟩
    have hsame := List.eraseP_of_forall_not hnone
    have hany : (pending.list.any fun entry => entry.siSigno = sig) = false :=
      List.any_eq_false.mpr hnone
    simp only [SigPending.cost, collected, hsame, hany, Bool.false_eq_true, if_false]
    omega

end SigPending

/-- What one iteration of the loop of `do_signal` comes to. -/
inductive LoopStep where
  | finish (k : Kernel) (handled : Bool)
  | again (k : Kernel)
  | reapThenAgain (k : Kernel)
  | stopThenAgain (k : Kernel) (signr : Nat)

namespace Kernel

/-- One iteration of the loop of `do_signal` for task `p`, up to the functions
that it calls. -/
def deliverStep (k : Kernel) (p : Nat) : Option LoopStep := do
  let t ← k.tasks p
  if t.pending.list = [] then return .finish k false
  else
    let (k₁, signr, _) ← k.dequeueSignal p
    if signr ≥ nsig ∨ signr = 0 then return .finish k₁ false
    else if t.pid = 1 then return .again k₁
    else if (t.action (signr - 1)).saHandler = sigIgn then
      if signr = sigchld then return .reapThenAgain k₁ else return .again k₁
    else if (t.action (signr - 1)).saHandler = sigDfl then
      match defaultAction signr with
      | .ignore => return .again k₁
      | .stopUnlessOrphaned =>
        if k₁.isOrphanedPgrp t.pgid then return .again k₁ else return .stopThenAgain k₁ signr
      | .stop => return .stopThenAgain k₁ signr
      | .abort => return .again (← k₁.sysExit 3)
      | .terminate => return .finish (← k₁.sysExit (BitVec.ofNat 32 signr)) true
    else
      let c ← k₁.curr
      let u ← k₁.tasks c
      if u.pid = 1 then return .again k₁ else return .finish (k₁.handleSignal c signr) true

/-- The loop of `do_signal` in terms of its iterations. -/
theorem deliver_eq (k : Kernel) (p ticks : Nat) :
    k.deliver p ticks = (k.deliverStep p).bind fun
      | .finish k₁ handled => some (k₁, handled)
      | .again k₁ => k₁.deliver p ticks
      | .reapThenAgain k₁ => k₁.reapAll.bind fun k₂ => k₂.deliver p ticks
      | .stopThenAgain k₁ signr => (k₁.stop p signr ticks).bind fun k₂ => k₂.deliver p ticks := by
  rw [deliver]
  unfold deliverStep
  cases k.tasks p with
  | none => rfl
  | some t =>
    simp only [bind_eq_bind, bind_some]
    by_cases hnil : t.pending.list = []
    · rw [if_pos hnil, if_pos hnil]
      rfl
    rw [if_neg hnil, if_neg hnil]
    cases k.dequeueSignal p with
    | none => rfl
    | some r =>
      obtain ⟨k₁, signr, info⟩ := r
      simp only [bind_some]
      -- the branches of the loop body, in the order of the source
      by_cases hrange : signr ≥ nsig ∨ signr = 0
      · rw [if_pos hrange, if_pos hrange]
        rfl
      rw [if_neg hrange, if_neg hrange]
      by_cases hinit : t.pid = 1
      · rw [if_pos hinit, if_pos hinit]
        rfl
      rw [if_neg hinit, if_neg hinit]
      split
      · split <;> rfl
      split
      · cases defaultAction signr with
        | ignore => rfl
        | stopUnlessOrphaned =>
          simp only
          split <;> rfl
        | stop => rfl
        | abort => cases k₁.sysExit 3 <;> rfl
        | terminate => cases k₁.sysExit (BitVec.ofNat 32 signr) <;> rfl
      · cases k₁.curr with
        | none => rfl
        | some c =>
          simp only [bind_some]
          cases k₁.tasks c with
          | none => rfl
          | some u =>
            simp only [bind_some]
            split <;> rfl

section

variable {k k' : Kernel} {S : Finset Nat} {p q : Nat} {op : Op}

/-- The cost of the pending signals of a task. -/
def costAt (k : Kernel) (q : Nat) : Nat := ((k.pendings q).map SigPending.cost).getD 0

/-- The cost of all pending signals. -/
def totalCost (S : Finset Nat) (k : Kernel) : Nat := ∑ q ∈ S, k.costAt q

/-- All tasks are in `S`. -/
def Supported (S : Finset Nat) (k : Kernel) : Prop := ∀ q t, k.tasks q = some t → q ∈ S

/-- The operation neither allocates a task nor sends a signal of a user. -/
def Op.Internal : Op → Prop
  | fork _ _ => False
  | kill _ _ => False
  | _ => True

theorem Op.not_creates_of_internal (h : op.Internal) : op.creates q = false := by
  cases op with
  | fork | kill => exact absurd h id
  | exit | waitpid | schedSetparam | reschedule | dequeueSignal | handleSignal | notifyStop
  | enterStopped | sigreturn | sigprocmask | sigaction => rfl

theorem Supported.exec (h : k.Supported S) (op : Op) (hop : op.Internal)
    (hexec : op.exec k = some k') :
    k'.Supported S := by
  intro q t ht
  have hpendings := Op.pendings_exec (q := q) hexec
  rw [pendings_of_tasks ht, Op.not_creates_of_internal hop] at hpendings
  split at hpendings
  · cases hpendings
  · obtain ⟨pending, hp, _⟩ := map_eq_some_iff.mp hpendings.symm
    obtain ⟨u, hu, _⟩ := map_eq_some_iff.mp hp
    exact h q u hu

/-- Only one task gets mail. -/
theorem Op.exists_mail_quiet (op : Op) (k : Kernel) : ∃ p, ∀ q ≠ p, op.mail q k = .quiet := by
  have hkill : ∀ (k : Kernel) (pid sig : Int), ∃ p, ∀ q ≠ p, k.killMail q pid sig = .quiet := by
    intro k pid sig
    refine ⟨(k.getRunningProcess pid).getD 0, fun q hq => killMail_of_not fun hcond => hq ?_⟩
    rw [hcond.1, getD_some]
  cases op with
  | kill pid sig => exact hkill k pid sig
  | exit code =>
    simp only [mail]
    cases k.curr with
    | none => exact ⟨0, fun _ _ => rfl⟩
    | some c =>
      simp only
      cases (((k.zombify c code).tasks c).bind Task.parent).bind (k.zombify c code).tasks with
      | none => exact ⟨0, fun _ _ => rfl⟩
      | some u => exact hkill (k.zombify c code) u.pid sigchld
  | notifyStop r =>
    refine ⟨((k.tasks r).bind Task.parent).getD 0, fun q hq => ?_⟩
    simp only [mail]
    split
    · rename_i t u ht hu
      refine if_neg fun hcond => hq ?_
      rw [ht, bind_some, hcond.1, getD_some]
    · rfl
  | dequeueSignal r =>
    refine ⟨r, fun q hq => ?_⟩
    simp only [mail]
    split
    · rfl
    · exact if_neg fun hcond => hq hcond.1.symm
  | fork | waitpid | schedSetparam | reschedule | handleSignal | enterStopped | sigreturn
  | sigprocmask | sigaction => exact ⟨0, fun _ _ => rfl⟩

theorem costAt_of_quiet (op : Op) (hop : op.Internal) (hexec : op.exec k = some k')
    (hmail : op.mail q k = .quiet) : k'.costAt q ≤ k.costAt q := by
  rw [costAt, Op.pendings_exec hexec, Op.not_creates_of_internal hop, hmail]
  split
  · exact zero_le _
  · rw [if_neg Bool.false_ne_true, Mail.map_quiet, costAt]

/-- An operation that sends nothing costs nothing. -/
theorem Supported.quiet (h : k.Supported S) (op : Op) (hop : op.Internal)
    (hexec : op.exec k = some k')
    (hmail : ∀ q, op.mail q k = .quiet) : k'.Supported S ∧ k'.totalCost S ≤ k.totalCost S :=
  ⟨h.exec op hop hexec, Finset.sum_le_sum fun q _ => costAt_of_quiet op hop hexec (hmail q)⟩

/-- What the kernel itself sends is one `SIGCHLD`. -/
theorem Supported.sends (h : k.Supported S) (op : Op) (hop : op.Internal)
    (hexec : op.exec k = some k')
    (hsends : ∀ p, op ≠ .dequeueSignal p) : k'.Supported S ∧
      k'.totalCost S ≤ k.totalCost S + 2 := by
  obtain ⟨p, hquiet⟩ := op.exists_mail_quiet k
  refine ⟨h.exec op hop hexec,
    sum_le_add_of_one (p := p) ?_ fun q hq => costAt_of_quiet op hop hexec (hquiet q hq)⟩
  cases hmail : op.mail p k with
  | quiet => exact le_add_right_of_le (costAt_of_quiet op hop hexec hmail)
  | collect sig => exact absurd (Op.mail_collect hmail).1 (hsends p)
  | send sig entry =>
    obtain ⟨_, _, hentry, rfl | ⟨pid, s, rfl, _⟩⟩ := Op.mail_send hmail
    · rw [costAt, Op.pendings_exec hexec, Op.not_creates_of_internal hop, hmail]
      split
      · exact zero_le _
      · rw [if_neg Bool.false_ne_true, map_map, costAt]
        cases k.pendings p with
        | none => exact zero_le _
        | some pending =>
          simp only [map_some, getD_some, Function.comp_apply, Mail.apply,
            SigPending.undisturbed_sigchld.cancel]
          exact SigPending.cost_post_sigchld hentry
    · exact absurd hop id

/-- Without a signal in range nothing changes. -/
theorem dequeueSignal_next {t : Task} {r : Nat × Option SigInfo} (ht : k.tasks p = some t)
    (h : k.dequeueSignal p = some (k', r)) :
    r.1 = t.pending.nextSignal t.blocked ∧ (¬(0 < r.1 ∧ r.1 < nsig) → k' = k) := by
  simp only [dequeueSignal, ht, bind_eq_bind, bind_some] at h
  split at h
  · rename_i hrange
    obtain ⟨collected, _, h⟩ := bind_eq_some_iff.mp h
    cases h
    exact ⟨rfl, fun hnot => absurd hrange hnot⟩
  · cases h
    exact ⟨rfl, fun _ => rfl⟩

/-- Collecting a signal pays for it. -/
theorem totalCost_dequeueSignal (h : k.Supported S) {t : Task} {r : Nat × Option SigInfo}
    (ht : k.tasks p = some t) (hdequeue : k.dequeueSignal p = some (k', r)) :
    r.1 = t.pending.nextSignal t.blocked ∧
      (0 < r.1 → r.1 < nsig → k'.totalCost S + cost r.1 ≤ k.totalCost S) ∧
      (¬(0 < r.1 ∧ r.1 < nsig) → k' = k) := by
  have hexec : (Op.dequeueSignal p).exec k = some k' := by simp [Op.exec, hdequeue]
  have hnext := dequeueSignal_next ht hdequeue
  refine ⟨hnext.1, fun hpos hlt => ?_, hnext.2⟩
  rw [hnext.1] at hpos hlt ⊢
  have hmail : (Op.dequeueSignal p).mail p k = .collect (t.pending.nextSignal t.blocked) := by
    simp [Op.mail, ht, hpos, hlt]
  have hother : ∀ q ≠ p, k'.costAt q ≤ k.costAt q := by
    intro q hq
    refine costAt_of_quiet (.dequeueSignal p) trivial hexec ?_
    simp only [Op.mail, ht]
    exact if_neg fun hcond => hq hcond.1.symm
  refine sum_add_le_of_one (h p t ht) ?_ hother
  have hpendings := Op.pendings_exec (q := p) hexec
  rw [hmail, pendings_of_tasks ht] at hpendings
  have hcollected : k'.pendings p = some (t.pending.collected
      (t.pending.nextSignal t.blocked)) := by
    simpa [Op.freed, Op.creates, Mail.apply] using hpendings
  rw [costAt, hcollected, costAt, pendings_of_tasks ht]
  exact SigPending.cost_collected hpos hlt (SigPending.deliverable_nextSignal hpos hlt).1

end

/-- What one iteration can come to. The signals that stop or end a task by default
are not `SIGCHLD`. -/
theorem deliverStep_cases {k : Kernel} {p : Nat} {r : LoopStep} (h : k.deliverStep p = some r) :
    ∃ t, k.tasks p = some t ∧ (t.pending.list = [] ∧ r = .finish k false ∨
      ∃ k₁ signr info, k.dequeueSignal p = some (k₁, signr, info) ∧
        (¬(0 < signr ∧ signr < nsig) ∧ r = .finish k₁ false ∨
          0 < signr ∧ signr < nsig ∧ (r = .again k₁ ∨ r = .reapThenAgain k₁ ∨
            t.pid ≠ 1 ∧ signr ≠ sigchld ∧
              (defaultAction signr ≠ .terminate ∧ r = .stopThenAgain k₁ signr ∨
                ∃ k₂ code, k₁.sysExit code = some k₂ ∧
                  (defaultAction signr = .abort ∧ r = .again k₂ ∨
                    defaultAction signr = .terminate ∧ r = .finish k₂ true)) ∨
            ∃ c, r = .finish (k₁.handleSignal c signr) true))) := by
  simp only [deliverStep, bind_eq_bind, bind_eq_some_iff] at h
  obtain ⟨t, ht, h⟩ := h
  refine ⟨t, ht, ?_⟩
  by_cases hnil : t.pending.list = []
  · rw [if_pos hnil] at h
    exact .inl ⟨hnil, (some.inj h).symm⟩
  rw [if_neg hnil] at h
  obtain ⟨⟨k₁, signr, info⟩, hdequeue, h⟩ := bind_eq_some_iff.mp h
  refine .inr ⟨k₁, signr, info, hdequeue, ?_⟩
  by_cases hrange : signr ≥ nsig ∨ signr = 0
  · rw [if_pos hrange] at h
    exact .inl ⟨by omega, (some.inj h).symm⟩
  rw [if_neg hrange] at h
  refine .inr ⟨by omega, by omega, ?_⟩
  by_cases hinit : t.pid = 1
  · rw [if_pos hinit] at h
    exact .inl (some.inj h).symm
  rw [if_neg hinit] at h
  split at h
  · split at h
    · exact .inr (.inl (some.inj h).symm)
    · exact .inl (some.inj h).symm
  split at h
  · have hchld : defaultAction sigchld = .ignore := rfl
    have hne : ∀ {act}, defaultAction signr = act → act ≠ .ignore → signr ≠ sigchld := by
      rintro act hact hnot rfl
      exact hnot (hact.symm.trans hchld)
    split at h
    · exact .inl (some.inj h).symm
    · rename_i hact
      split at h
      · exact .inl (some.inj h).symm
      · exact .inr (.inr (.inl ⟨hinit, hne hact (by decide),
          .inl ⟨by rw [hact]; decide, (some.inj h).symm⟩⟩))
    · rename_i hact
      exact .inr (.inr (.inl ⟨hinit, hne hact (by decide),
        .inl ⟨by rw [hact]; decide, (some.inj h).symm⟩⟩))
    · rename_i hact
      obtain ⟨k₂, hexit, h⟩ := bind_eq_some_iff.mp h
      exact .inr (.inr (.inl ⟨hinit, hne hact (by decide),
        .inr ⟨k₂, 3, hexit, .inl ⟨hact, (some.inj h).symm⟩⟩⟩))
    · rename_i hact
      obtain ⟨k₂, hexit, h⟩ := bind_eq_some_iff.mp h
      exact .inr (.inr (.inl ⟨hinit, hne hact (by decide),
        .inr ⟨k₂, _, hexit, .inr ⟨hact, (some.inj h).symm⟩⟩⟩))
  · simp only [bind_eq_some_iff] at h
    obtain ⟨c, _, u, _, h⟩ := h
    split at h
    · exact .inl (some.inj h).symm
    · exact .inr (.inr (.inr ⟨c, (some.inj h).symm⟩))

/-- The loop for task `p` has nothing more to collect. -/
def Idle (p : Nat) (k : Kernel) : Prop :=
  ∃ t, k.tasks p = some t ∧ (t.pending.list = [] ∨
    ¬(0 < t.pending.nextSignal t.blocked ∧ t.pending.nextSignal t.blocked < nsig))

end Kernel

/-- An iteration lowers the cost of the pending signals, and leaves enough for the
`SIGCHLD` of a task that stops. -/
def LoopStep.Descends (S : Finset Nat) (p : Nat) (k : Kernel) : LoopStep → Prop
  | finish k' handled => k'.Supported S ∧ k'.totalCost S ≤ k.totalCost S ∧
      (handled = false → k'.Idle p)
  | again k' => k'.Supported S ∧ k'.totalCost S < k.totalCost S
  | reapThenAgain k' => k'.Supported S ∧ k'.totalCost S < k.totalCost S
  | stopThenAgain k' _ => k'.Supported S ∧ k'.totalCost S + 4 ≤ k.totalCost S

namespace Kernel

section

variable {k k' : Kernel} {S : Finset Nat} {p ticks : Nat}

theorem cost_pos (n : Nat) : 0 < cost n := by
  unfold cost
  split <;> decide

theorem cost_of_ne {n : Nat} (h : n ≠ sigchld) : cost n = 4 := if_neg h

theorem deliverStep_descends {r : LoopStep} (h : k.Supported S) (hstep : k.deliverStep p = some r) :
    r.Descends S p k := by
  obtain ⟨t, ht, ⟨hnil, rfl⟩ | ⟨k₁, signr, info, hdequeue, hcases⟩⟩ := deliverStep_cases hstep
  · exact ⟨h, le_refl _, fun _ => ⟨t, ht, .inl hnil⟩⟩
  obtain ⟨hnext, hpaid, hsame⟩ := totalCost_dequeueSignal h ht hdequeue
  have hexec : (Op.dequeueSignal p).exec k = some k₁ := by simp [Op.exec, hdequeue]
  have hk₁ : k₁.Supported S := h.exec (.dequeueSignal p) trivial hexec
  obtain ⟨hrange, rfl⟩ | ⟨hpos, hlt, hcases⟩ := hcases
  · obtain rfl := hsame hrange
    exact ⟨h, le_refl _, fun _ => ⟨t, ht, .inr (hnext ▸ hrange)⟩⟩
  have hcost := hpaid hpos hlt
  have hone := cost_pos signr
  simp only at hcost
  obtain rfl | rfl | ⟨-, hne, ⟨-, rfl⟩ | ⟨k₂, code, hexit, hexited⟩⟩ | ⟨c, rfl⟩ := hcases
  · exact ⟨hk₁, by omega⟩
  · exact ⟨hk₁, by omega⟩
  · rw [cost_of_ne hne] at hcost
    exact ⟨hk₁, hcost⟩
  · -- the `SIGCHLD` of an exit costs less than the signal that caused it
    obtain ⟨hk₂, hchld⟩ := hk₁.sends (.exit code) trivial hexit (fun _ h => by cases h)
    rw [cost_of_ne hne] at hcost
    obtain ⟨-, rfl⟩ | ⟨-, rfl⟩ := hexited
    · exact ⟨hk₂, by omega⟩
    · exact ⟨hk₂, by omega, fun hfalse => absurd hfalse (by decide)⟩
  · obtain ⟨hk₂, hquiet⟩ := hk₁.quiet (.handleSignal c signr) trivial rfl fun _ => rfl
    exact ⟨hk₂, by omega, fun hfalse => absurd hfalse (by decide)⟩

theorem reapAll_totalCost : ∀ k k' : Kernel, k.reapAll = some k' → k.Supported S →
    k'.Supported S ∧ k'.totalCost S ≤ k.totalCost S := by
  apply reapAll.partial_correctness
  intro loop ih k k' hrun hk
  simp only [bind_eq_bind, bind_eq_some_iff] at hrun
  obtain ⟨⟨k₁, pid⟩, hwait, hrun⟩ := hrun
  have hexec : (Op.waitpid (-1) wnohang).exec k = some k₁ := by simp [Op.exec, hwait]
  obtain ⟨hk₁, hcost⟩ := hk.quiet (.waitpid (-1) wnohang) trivial hexec fun _ => rfl
  split at hrun
  · obtain ⟨hk', hle⟩ := ih k₁ k' hrun hk₁
    exact ⟨hk', hle.trans hcost⟩
  · cases hrun
    exact ⟨hk₁, hcost⟩

/-- Stopping a task costs at most one `SIGCHLD` until the scheduler runs. -/
theorem enterStopped_totalCost {k₁ k₂ : Kernel} {signr : Nat} (h : k.Supported S)
    (hnotify : k.notifyStop p = some k₁) (henter : k₁.enterStopped p signr = some k₂) :
    k₂.Supported S ∧ k₂.totalCost S ≤ k.totalCost S + 2 := by
  obtain ⟨hk₁, hle₁⟩ := h.sends (.notifyStop p) trivial hnotify (fun _ h => by cases h)
  obtain ⟨hk₂, hle₂⟩ := hk₁.quiet (.enterStopped p signr) trivial henter fun _ => rfl
  exact ⟨hk₂, hle₂.trans hle₁⟩

/-- What the three functions return when the cost of the pending signals is
below a bound, by induction on the bound. -/
theorem totalCost_mutual (n : Nat) :
    (∀ (k : Kernel) (p : Nat) (r : Kernel × Bool), k.Supported S → 2 * k.totalCost S ≤ n →
      k.deliver p ticks = some r →
        r.1.Supported S ∧ r.1.totalCost S ≤ k.totalCost S ∧ (r.2 = false → r.1.Idle p)) ∧
    (∀ (k k' : Kernel) (p signr : Nat), k.Supported S → 2 * k.totalCost S + 6 ≤ n →
      k.stop p signr ticks = some k' → k'.Supported S ∧ k'.totalCost S ≤ k.totalCost S + 2) ∧
    ∀ k k' : Kernel, k.Supported S → 2 * k.totalCost S + 1 ≤ n →
      k.schedulerRun true ticks = some k' → k'.Supported S ∧ k'.totalCost S ≤ k.totalCost S := by
  induction n using Nat.strong_induction_on with
  | _ n ih =>
    refine ⟨?_, ?_, ?_⟩
    · intro k p r hk hn hdeliver
      rw [deliver_eq, bind_eq_some_iff] at hdeliver
      obtain ⟨step, hstep, hdeliver⟩ := hdeliver
      have hdescends := deliverStep_descends hk hstep
      have hagain : ∀ k₁ : Kernel, k₁.Supported S → k₁.totalCost S < k.totalCost S →
          k₁.deliver p ticks = some r →
          r.1.Supported S ∧ r.1.totalCost S ≤ k.totalCost S ∧ (r.2 = false → r.1.Idle p) := by
        intro k₁ hk₁ hlt hrest
        obtain ⟨hr, hle, hidle⟩ := (ih (2 * k₁.totalCost S) (by omega)).1 k₁ p r hk₁ le_rfl hrest
        exact ⟨hr, by omega, hidle⟩
      cases step with
      | finish k₁ handled =>
        cases hdeliver
        exact hdescends
      | again k₁ => exact hagain k₁ hdescends.1 hdescends.2 hdeliver
      | reapThenAgain k₁ =>
        obtain ⟨hk₁, hlt⟩ := hdescends
        obtain ⟨k₂, hreap, hdeliver⟩ := bind_eq_some_iff.mp hdeliver
        obtain ⟨hk₂, hle₂⟩ := reapAll_totalCost k₁ k₂ hreap hk₁
        exact hagain k₂ hk₂ (by omega) hdeliver
      | stopThenAgain k₁ signr =>
        obtain ⟨hk₁, hlt⟩ := hdescends
        obtain ⟨k₂, hstop, hdeliver⟩ := bind_eq_some_iff.mp hdeliver
        obtain ⟨hk₂, hle₂⟩ := (ih (2 * k₁.totalCost S + 6) (by omega)).2.1 k₁ k₂ p signr hk₁
          le_rfl hstop
        exact hagain k₂ hk₂ (by omega) hdeliver
    · intro k k' p signr hk hn hstop
      rw [stop] at hstop
      simp only [bind_eq_bind, bind_eq_some_iff] at hstop
      obtain ⟨k₁, hnotify, k₂, henter, hrun⟩ := hstop
      obtain ⟨hk₂, hle₂⟩ := enterStopped_totalCost hk hnotify henter
      obtain ⟨hk', hle⟩ := (ih (2 * k₂.totalCost S + 1) (by omega)).2.2 k₂ k' hk₂ le_rfl hrun
      exact ⟨hk', by omega⟩
    · intro k k' hk hn hrun
      rw [schedulerRun] at hrun
      cases hcurr : k.curr with
      | none =>
        simp only [hcurr] at hrun
        cases hrun
        exact ⟨hk, le_rfl⟩
      | some c =>
        simp only [hcurr, if_true, bind_eq_bind, bind_eq_some_iff] at hrun
        obtain ⟨⟨k₁, handled⟩, hdeliver, hrun⟩ := hrun
        obtain ⟨hk₁, hle₁, _⟩ := (ih (2 * k.totalCost S) (by omega)).1 k c _ hk le_rfl hdeliver
        split at hrun
        · cases hrun
          exact ⟨hk₁, hle₁⟩
        · obtain ⟨hk', hle⟩ := hk₁.quiet (.reschedule ticks) trivial hrun fun _ => rfl
          exact ⟨hk', hle.trans hle₁⟩

end

/-- A call of one of the functions that deliver signals. -/
inductive Call where
  | deliver (k : Kernel) (p : Nat)
  | stop (k : Kernel) (p signr : Nat)
  | schedulerRun (k : Kernel)
  | reapAll (k : Kernel)

/-- The first call is made during the second one. The iterations of a loop count
as calls of it. -/
inductive Calls (ticks : Nat) : Call → Call → Prop
  | again {k k₁ : Kernel} {p : Nat} (hstep : k.deliverStep p = some (.again k₁)) :
      Calls ticks (.deliver k₁ p) (.deliver k p)
  | reap {k k₁ : Kernel} {p : Nat} (hstep : k.deliverStep p = some (.reapThenAgain k₁)) :
      Calls ticks (.reapAll k₁) (.deliver k p)
  | reaped {k k₁ k₂ : Kernel} {p : Nat} (hstep : k.deliverStep p = some (.reapThenAgain k₁))
      (hreap : k₁.reapAll = some k₂) : Calls ticks (.deliver k₂ p) (.deliver k p)
  | stop {k k₁ : Kernel} {p signr : Nat}
      (hstep : k.deliverStep p = some (.stopThenAgain k₁ signr)) :
      Calls ticks (.stop k₁ p signr) (.deliver k p)
  | stopped {k k₁ k₂ : Kernel} {p signr : Nat}
      (hstep : k.deliverStep p = some (.stopThenAgain k₁ signr))
      (hstop : k₁.stop p signr ticks = some k₂) : Calls ticks (.deliver k₂ p) (.deliver k p)
  | schedule {k k₁ k₂ : Kernel} {p signr : Nat} (hnotify : k.notifyStop p = some k₁)
      (henter : k₁.enterStopped p signr = some k₂) :
      Calls ticks (.schedulerRun k₂) (.stop k p signr)
  | signals {k : Kernel} {c : Nat} (hcurr : k.curr = some c) :
      Calls ticks (.deliver k c) (.schedulerRun k)
  | waitpid {k k₁ : Kernel} {pid : Int} (hwait : k.sysWaitpid (-1) wnohang = some (k₁, pid))
      (hpid : pid > 0) : Calls ticks (.reapAll k₁) (.reapAll k)

/-- The state in which a call starts. -/
def Call.kernel : Call → Kernel
  | deliver k _ => k
  | stop k _ _ => k
  | schedulerRun k => k
  | reapAll k => k

/-- The tasks in `S` that exist. -/
def numTasks (S : Finset Nat) (k : Kernel) : Nat := ∑ q ∈ S, if (k.tasks q).isSome then 1 else 0

/-- What decreases with every call: the cost of the signals, then the tasks. -/
def Call.rank (S : Finset Nat) : Call → Nat ×ₗ Nat
  | deliver k _ => toLex (2 * k.totalCost S, 0)
  | stop k _ _ => toLex (2 * k.totalCost S + 6, 0)
  | schedulerRun k => toLex (2 * k.totalCost S + 1, 0)
  | reapAll k => toLex (2 * k.totalCost S, k.numTasks S)

variable {S : Finset Nat} {ticks : Nat} {c c' : Call}

theorem isSome_tasks (k : Kernel) (q : Nat) : (k.tasks q).isSome = (k.pendings q).isSome :=
    isSome_map.symm

/-- A task that is freed was there. -/
theorem exists_of_reap {k k' : Kernel} {r e : Nat} (h : k.reap r e = some k') :
    ∃ t, k.tasks e = some t := by
  simp only [reap, dequeueTask, bind_eq_bind, bind_eq_some_iff] at h
  obtain ⟨_, ⟨t, ht, _⟩, _⟩ := h
  have hkeep : (k.modify r fun t => { t with children := t.children.erase e }).pendings e =
      k.pendings e := pendings_modify_same fun _ => rfl
  rw [pendings_of_tasks ht] at hkeep
  obtain ⟨u, hu, _⟩ := map_eq_some_iff.mp hkeep.symm
  exact ⟨u, hu⟩

theorem reap_numTasks {k k' : Kernel} {r e : Nat} (h : k.Supported S)
    (hreap : k.reap r e = some k') : k'.numTasks S < k.numTasks S := by
  obtain ⟨t, ht⟩ := exists_of_reap hreap
  refine sum_add_le_of_one (p := e) (c := 1) (h e t ht) ?_ ?_
  · simp [isSome_tasks, pendings_reap hreap, pendings_of_tasks ht]
  · intro q hq
    simp only [isSome_tasks, pendings_reap hreap, if_neg (Ne.symm hq)]
    exact le_rfl

theorem rank_lt {a a' b b' : Nat} (h : a < a') : toLex (a, b) < toLex (a', b') :=
  Prod.Lex.toLex_lt_toLex.mpr (.inl h)

theorem Calls.descends (h : Calls ticks c' c) (hk : c.kernel.Supported S) :
    c'.kernel.Supported S ∧ c'.rank S < c.rank S := by
  cases h with
  | again hstep | reap hstep | stop hstep =>
    simp only [Call.kernel] at hk ⊢
    obtain ⟨hk₁, hlt⟩ := deliverStep_descends hk hstep
    exact ⟨hk₁, rank_lt (by omega)⟩
  | reaped hstep hreap =>
    simp only [Call.kernel] at hk ⊢
    obtain ⟨hk₁, hlt⟩ := deliverStep_descends hk hstep
    obtain ⟨hk₂, hle⟩ := reapAll_totalCost _ _ hreap hk₁
    exact ⟨hk₂, rank_lt (by omega)⟩
  | stopped hstep hstop =>
    simp only [Call.kernel] at hk ⊢
    obtain ⟨hk₁, hlt⟩ := deliverStep_descends hk hstep
    obtain ⟨hk₂, hle⟩ := (totalCost_mutual _).2.1 _ _ _ _ hk₁ le_rfl hstop
    exact ⟨hk₂, rank_lt (by omega)⟩
  | schedule hnotify henter =>
    simp only [Call.kernel] at hk ⊢
    obtain ⟨hk₂, hle⟩ := enterStopped_totalCost hk hnotify henter
    exact ⟨hk₂, rank_lt (by omega)⟩
  | signals hcurr => exact ⟨hk, rank_lt (lt_succ_self _)⟩
  | waitpid hwait hpid =>
    rename_i k k₁ pid
    simp only [Call.kernel] at hk ⊢
    have hexec : (Op.waitpid (-1) wnohang).exec k = some k₁ := by simp [Op.exec, hwait]
    obtain ⟨hk₁, hcost⟩ := hk.quiet (.waitpid (-1) wnohang) trivial hexec fun _ => rfl
    obtain ⟨r, t, _, _, ⟨_, hle, _⟩ | ⟨e, _, _, hreap⟩⟩ := sysWaitpid_cases hwait
    · exact absurd hpid (by omega)
    · refine ⟨hk₁, ?_⟩
      have hfewer := reap_numTasks hk hreap
      apply Prod.Lex.toLex_lt_toLex.mpr
      rcases lt_or_eq_of_le hcost with hlt | heq
      · exact .inl (by omega)
      · exact .inr ⟨by omega, hfewer⟩

/-- No call goes on for ever. -/
theorem acc_calls (hk : c.kernel.Supported S) : Acc (Calls ticks) c := by
  induction hrank : c.rank S using WellFoundedLT.induction generalizing c with
  | _ rank ih =>
    refine Acc.intro c fun c' hcall => ?_
    obtain ⟨hk', hlt⟩ := hcall.descends hk
    exact ih _ (hrank ▸ hlt) hk' rfl

end Kernel

end Hos
