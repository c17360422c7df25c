import Hos.Lib.Ledger
import Hos.Process.Termination

/-!
# Signals from sending to delivery

The queue of one task with a ledger of its signals. A signal that is sent and
accepted gets a tag; the entries that a stop or continue signal removes are
dropped, and `__dequeue_signal` takes one. The ledger accounts for every signal,
keeps the order within a number, and the number taken is always the lowest that
is queued and not blocked, as long as the number that `__next_signal` finds has
an entry.

It has none when the bit was left behind by a cancelled signal. That signal is
then delivered although it was cancelled: a stray of the ledger.
-/

namespace Hos

open Option Finset

namespace SigPending

/-- Every entry has the number of a signal whose bit is set. -/
def Covered (pending : SigPending) : Prop :=
  ∀ entry ∈ pending.list, 0 < entry.siSigno ∧ entry.siSigno < nsig ∧
    pending.signal.sigismember entry.siSigno = true

variable {pending : SigPending} {mask : SigSet} {n sig : Nat} {entry : Option SigInfo}

variable (h : pending.Covered)
include h

theorem Covered.post (hpos : 0 < sig) (hlt : sig < nsig)
    (hentry : ∀ info, entry = some info → info.siSigno = sig) :
    (pending.post sig entry).Covered := by
  cases entry with
  | none => exact h
  | some info =>
    intro other hother
    have hbit : ∀ n, 0 < n → (pending.post sig (some info)).signal.sigismember n =
        (pending.signal.sigismember n || n == sig) := fun n hn =>
      SigSet.sigismember_sigaddset (Nat.ne_of_gt hpos) (Nat.ne_of_gt hn)
    rcases List.mem_append.mp hother with hother | hother
    · obtain ⟨hpos', hlt', hset⟩ := h other hother
      exact ⟨hpos', hlt', by rw [hbit _ hpos', hset, Bool.true_or]⟩
    · obtain rfl := List.mem_singleton.mp hother
      have hno := hentry other rfl
      refine ⟨hno ▸ hpos, hno ▸ hlt, ?_⟩
      rw [hbit _ (hno ▸ hpos), hno, beq_self_eq_true, Bool.or_true]

theorem Covered.cancel : (pending.cancel sig).Covered :=
  fun entry hentry => h entry (List.mem_of_mem_filter hentry)

theorem Covered.collected (hpos : 0 < sig) : (pending.collected sig).Covered := by
  intro entry hentry
  obtain ⟨hpos', hlt, hset⟩ := h entry (List.mem_of_mem_eraseP hentry)
  refine ⟨hpos', hlt, ?_⟩
  rw [sigismember_collected hpos hpos', hset, Bool.true_and, Bool.or_eq_true, bne_iff_ne]
  by_cases hsig : entry.siSigno = sig
  · exact .inr (List.any_eq_true.mpr ⟨entry, hentry, by simpa using hsig⟩)
  · exact .inl hsig

/-- The next signal is at most the number of every queued entry that is not
blocked. -/
theorem Covered.nextSignal_le {info : SigInfo} (hmem : info ∈ pending.list)
    (hunblocked : mask.sigismember info.siSigno = false) :
    0 < pending.nextSignal mask ∧ pending.nextSignal mask ≤ info.siSigno := by
  obtain ⟨hpos, hlt, hset⟩ := h info hmem
  by_contra hnot
  have hbelow : info.siSigno < pending.nextSignal mask ∨ pending.nextSignal mask = 0 := by omega
  exact not_deliverable_of_lt hpos hlt hbelow ⟨hset, hunblocked⟩

end SigPending

/-- What happens to the signals of a task, entered in its ledger. -/
def Mail.record : Mail → Ledger SigInfo → Ledger SigInfo
  | quiet, L => L
  | send sig none, L => L.drop fun entry => cancels sig entry.siSigno
  | send sig (some info), L => (L.drop fun entry => cancels sig entry.siSigno).accept info
  | collect sig, L => L.take fun entry => entry.siSigno = sig

namespace Kernel

/-- An operation of the kernel, with the ledger of the signals of task `p`. -/
def Op.tracked (p : Nat) (op : Op) (s : Kernel × Ledger SigInfo) :
    Option (Kernel × Ledger SigInfo) :=
  (op.exec s.1).map fun k => (k, (op.mail p s.1).record s.2)

/-- When the operation takes a signal of task `p`, the queue has an entry of the
next signal. -/
def Op.Queued (p : Nat) (op : Op) (k : Kernel) : Prop :=
  ∀ t, op = .dequeueSignal p → k.tasks p = some t →
    0 < t.pending.nextSignal t.blocked → t.pending.nextSignal t.blocked < nsig →
    ∃ entry ∈ t.pending.list, entry.siSigno = t.pending.nextSignal t.blocked

/-- The operation does not free task `p`, and takes only signals that are queued. -/
def Op.Delivers (p : Nat) (op : Op) (s : Kernel × Ledger SigInfo) : Prop :=
  op.freed s.1 ≠ some p ∧ op.Queued p s.1

/-- The ledger accounts for the queue of task `p`. -/
structure Custody (p : Nat) (k : Kernel) (L : Ledger SigInfo) (pending : SigPending) : Prop where
  pendings : k.pendings p = some pending
  items : pending.list = L.items
  sound : L.Sound SigInfo.siSigno
  covered : pending.Covered

section

variable {k k' : Kernel} {p sig : Nat} {L : Ledger SigInfo} {pending : SigPending} {op : Op}

/-- A task that exists is not allocated again. -/
theorem Op.not_creates (h : op.exec k = some k') (hp : k.pendings p = some pending) :
    op.creates p = false := by
  cases op with
  | fork addr ticks =>
    simp only [exec] at h
    split at h
    · obtain ⟨⟨k₁, pid⟩, hfork, rfl⟩ := map_eq_some_iff.mp h
      simp only [sysFork, allocTask, bind_eq_bind, bind_eq_some_iff] at hfork
      obtain ⟨c, _, k₂, halloc, _⟩ := hfork
      split at halloc
      · cases halloc
      rename_i hfree
      obtain ⟨t, ht, _⟩ := map_eq_some_iff.mp hp
      refine beq_false_of_ne fun heq => hfree (.inr ?_)
      rw [heq, ht, isSome_some]
    · cases h
  | exit | waitpid | schedSetparam | reschedule | kill | dequeueSignal | handleSignal
  | notifyStop | enterStopped | sigreturn | sigprocmask | sigaction => rfl

section

variable (h : Custody p k L pending)
include h

/-- The ledger follows the queue whatever happens to it. -/
theorem Custody.mail {mail : Mail} (hp : k'.pendings p = some (mail.apply pending))
    (hsend : ∀ sig entry, mail = .send sig entry →
      0 < sig ∧ sig < nsig ∧ ∀ info, entry = some info → info.siSigno = sig)
    (hcollect : ∀ sig, mail = .collect sig → 0 < sig) :
    Custody p k' (mail.record L) (mail.apply pending) := by
  cases mail with
  | quiet => exact ⟨hp, h.items, h.sound, h.covered⟩
  | send sig entry =>
    obtain ⟨hpos, hlt, hentry⟩ := hsend sig entry rfl
    have hkept : (pending.cancel sig).list =
        (L.drop fun entry => cancels sig entry.siSigno).items := by
      rw [h.sound.items_drop, ← h.items]
      rfl
    have hcovered : ((pending.cancel sig).post sig entry).Covered :=
      h.covered.cancel.post hpos hlt hentry
    cases entry with
    | none => exact ⟨hp, hkept, h.sound.drop, hcovered⟩
    | some info =>
      refine ⟨hp, ?_, h.sound.drop.accept, hcovered⟩
      rw [Mail.record, h.sound.drop.items_accept, ← hkept]
      rfl
  | collect sig =>
    refine ⟨hp, ?_, h.sound.take (k := sig) ?_, h.covered.collected (hcollect sig rfl)⟩
    · rw [Mail.record, Ledger.items_take, ← h.items]
      rfl
    simp

theorem Custody.exec (hfreed : op.freed k ≠ some p) (hexec : op.exec k = some k') :
    Custody p k' ((op.mail p k).record L) ((op.mail p k).apply pending) := by
  apply h.mail
  · rw [Op.pendings_exec hexec, if_neg hfreed, Op.not_creates hexec h.pendings, h.pendings]
    rfl
  · intro sig entry hmail
    obtain ⟨hpos, hlt, hentry, _⟩ := Op.mail_send hmail
    exact ⟨hpos, hlt, hentry⟩
  · exact fun sig hmail => (Op.mail_collect hmail).2.1

/-- A signal is a stray exactly when its bit was left behind. -/
theorem Custody.strays_iff (hstrays : L.strays = 0) :
    ((op.mail p k).record L).strays = 0 ↔ op.Queued p k := by
  cases hmail : op.mail p k with
  | quiet =>
    refine iff_of_true hstrays fun t hop ht hpos hlt => ?_
    simp [hop, Op.mail, ht, hpos, hlt] at hmail
  | send sig entry =>
    have hsame : ((Mail.send sig entry).record L).strays = L.strays := by
      cases entry <;> rfl
    refine iff_of_true (hsame.trans hstrays) fun t hop ht hpos hlt => ?_
    simp [hop, Op.mail, ht, hpos, hlt] at hmail
  | collect sig =>
    obtain ⟨rfl, hpos, hlt, t, ht, rfl⟩ := Op.mail_collect hmail
    obtain rfl := some.inj ((pendings_of_tasks ht).symm.trans h.pendings)
    have hany : (L.items.any fun entry => entry.siSigno = t.pending.nextSignal t.blocked) = true ↔
        Op.Queued p (.dequeueSignal p) k := by
      rw [← h.items, List.any_eq_true]
      constructor
      · rintro ⟨entry, hmem, hentry⟩ u _ hu _ _
        cases ht.symm.trans hu
        exact ⟨entry, hmem, of_decide_eq_true hentry⟩
      · intro hqueued
        obtain ⟨entry, hmem, hentry⟩ := hqueued t rfl ht hpos hlt
        exact ⟨entry, hmem, decide_eq_true hentry⟩
    rw [← hany, Mail.record, Ledger.strays_take, hstrays]
    simp

/-- The tag is the first of the lowest number that is queued and not blocked. -/
def IsNext (L : Ledger SigInfo) (blocked : SigSet) (i : Nat) : Prop :=
  i ∈ L.queue ∧ ∃ info, L.accepted[i]? = some info ∧ blocked.sigismember info.siSigno = false ∧
    ∀ j ∈ L.queue, ∀ other, L.accepted[j]? = some other →
      blocked.sigismember other.siSigno = false →
      info.siSigno < other.siSigno ∨ info.siSigno = other.siSigno ∧ i ≤ j

/-- The signal that is taken is the next one. -/
theorem Custody.taken {t : Task} (ht : k.tasks p = some t)
    (hmail : (Op.dequeueSignal p).mail p k = .collect sig)
    (hqueued : (Op.dequeueSignal p).Queued p k) :
    ∃ i, IsNext L t.blocked i ∧ (Mail.record (.collect sig) L).taken = L.taken ++ [i] := by
  obtain rfl := some.inj ((pendings_of_tasks ht).symm.trans h.pendings)
  obtain ⟨_, hpos, hlt, u, hu, rfl⟩ := Op.mail_collect hmail
  cases ht.symm.trans hu
  obtain ⟨_, hunblocked⟩ := SigPending.deliverable_nextSignal hpos hlt
  generalize hsig : t.pending.nextSignal t.blocked = sig at *
  obtain ⟨entry, hmem, hentry⟩ := hqueued t rfl ht (hsig ▸ hpos) (hsig ▸ hlt)
  rw [hsig] at hentry
  have hwanted : ∀ {j info}, L.accepted[j]? = some info →
      (L.holds (fun entry => entry.siSigno = sig) j = true ↔ info.siSigno = sig) := by
    intro j info hj
    simp [Ledger.holds, hj]
  cases hfind : L.queue.find? (L.holds fun entry => entry.siSigno = sig) with
  | none =>
    have hnot := Ledger.find?_eq_none_iff.mp hfind entry (h.items ▸ hmem)
    exact absurd hentry (of_decide_eq_false hnot)
  | some i =>
    have hi := List.mem_of_find?_eq_some hfind
    obtain ⟨info, hinfo⟩ := h.sound.exists_item hi
    have hholds := List.find?_some hfind
    obtain rfl := (hwanted hinfo).mp hholds
    refine ⟨i, ⟨hi, info, hinfo, hunblocked, ?_⟩, ?_⟩
    · intro j hj other hother hother'
      have hitem : other ∈ t.pending.list := by
        rw [h.items]
        exact List.mem_filterMap.mpr ⟨j, hj, hother⟩
      have hle := (h.covered.nextSignal_le hitem hother').2
      rw [hsig] at hle
      rcases Nat.lt_or_eq_of_le hle with hlt | heq
      · exact .inl hlt
      · refine .inr ⟨heq, ?_⟩
        -- no tag of the number stands before the first one found
        obtain ⟨_, before, after, hqueue, hnone⟩ := List.find?_eq_some_iff_append.mp hfind
        have hsorted := h.sound.sorted
        rw [hqueue] at hj hsorted
        rcases List.mem_append.mp hj with hj | hj
        · have hnot := hnone j hj
          rw [(hwanted hother).mpr heq.symm] at hnot
          cases hnot
        · obtain rfl | hj := List.mem_cons.mp hj
          · exact le_rfl
          · have htail := (List.pairwise_append.mp hsorted).2.1
            exact Nat.le_of_lt ((List.pairwise_cons.mp htail).1 j hj)
    · simp only [Mail.record, Ledger.take, hfind]

/-- With nothing left to collect every queued signal is blocked. -/
theorem Custody.blocked_of_idle (hidle : k.Idle p) {t : Task} (ht : k.tasks p = some t)
    {entry : SigInfo} (hmem : entry ∈ t.pending.list) :
    t.blocked.sigismember entry.siSigno = true := by
  obtain rfl := some.inj ((pendings_of_tasks ht).symm.trans h.pendings)
  obtain ⟨u, hu, hcases⟩ := hidle
  cases ht.symm.trans hu
  by_contra hnot
  have hbelow := h.covered.nextSignal_le hmem (Bool.eq_false_of_not_eq_true hnot)
  obtain ⟨_, hlt, _⟩ := h.covered entry hmem
  rcases hcases with hnil | hrange
  · rw [hnil] at hmem
    exact absurd hmem List.not_mem_nil
  omega

end

/-- Finitely many tasks stay finitely many. -/
theorem exists_supported_exec (h : ∃ S, k.Supported S) (hexec : op.exec k = some k') :
    ∃ S, k'.Supported S := by
  obtain ⟨S, hS⟩ := h
  have hold : ∀ {q t}, k'.tasks q = some t → op.creates q = true ∨ q ∈ S := by
    intro q t ht
    have hpendings := Op.pendings_exec (q := q) hexec
    rw [pendings_of_tasks ht] at hpendings
    split at hpendings
    · cases hpendings
    split at hpendings
    · rename_i hcreates
      exact .inl hcreates
    · obtain ⟨pending, hp, _⟩ := map_eq_some_iff.mp hpendings.symm
      obtain ⟨u, hu, _⟩ := map_eq_some_iff.mp hp
      exact .inr (hS q u hu)
  cases op with
  | fork addr ticks =>
    refine ⟨insert addr.toNat S, fun q t ht => ?_⟩
    rcases hold ht with hcreates | hmem
    · exact mem_insert.mpr (.inl (beq_iff_eq.mp hcreates).symm)
    · exact mem_insert_of_mem hmem
  | exit | waitpid | schedSetparam | reschedule | kill | dequeueSignal | handleSignal
  | notifyStop | enterStopped | sigreturn | sigprocmask | sigaction =>
    exact ⟨S, fun q t ht => (hold ht).resolve_left Bool.false_ne_true⟩

/-- For a task with no pending signals at first, in every run that takes only
signals that are queued: each signal that was accepted is queued, taken or
cancelled, exactly once, nothing else is taken, signals of one number are taken
in the order they were sent, and the one that is taken is the lowest that is
queued and not blocked. An operation keeps this exactly when it meets the
condition. The loop of `do_signal` ends, and when no handler is to run it leaves
only blocked signals. -/
theorem signals_delivered {k₀ : Kernel} (hstart : k₀.pendings p = some noPending)
    (hfinite : ∃ S, k₀.Supported S)
    (hrun : Runs (Op.tracked p) (Op.Delivers p) (k₀, .empty) (k, L)) :
    (∃ t, k.tasks p = some t ∧ t.pending.list = L.items ∧
      (L.queue ++ L.taken ++ L.dropped).Perm (List.range L.accepted.length) ∧ L.strays = 0 ∧
      L.taken.Pairwise (fun i j => L.SameKey SigInfo.siSigno i j → i < j) ∧
      (∀ sig, (Op.dequeueSignal p).mail p k = .collect sig → (Op.dequeueSignal p).Queued p k →
        ∃ i, IsNext L t.blocked i ∧ (Mail.record (.collect sig) L).taken = L.taken ++ [i]) ∧
      (k.Idle p → ∀ entry ∈ t.pending.list, t.blocked.sigismember entry.siSigno = true)) ∧
    (∀ (op : Op) (k' : Kernel), op.exec k = some k' →
      (((op.mail p k).record L).strays = 0 ↔ op.Queued p k)) ∧
    ∀ ticks, Acc (Calls ticks) (.deliver k p) ∧ ∀ k', k.deliver p ticks = some (k', false) →
      k'.Idle p := by
  have hinv : (∃ pending, Custody p k L pending) ∧ L.strays = 0 ∧ ∃ S, k.Supported S := by
    refine hrun.invariant (fun s => (∃ pending, Custody p s.1 s.2 pending) ∧ s.2.strays = 0 ∧
      ∃ S, s.1.Supported S) ?_ ⟨⟨noPending, hstart, rfl, Ledger.sound_empty, ?_⟩, rfl, hfinite⟩
    · rintro op ⟨k, L⟩ s ⟨⟨pending, h⟩, hstrays, hsupported⟩ ⟨hfreed, hqueued⟩ hexec
      obtain ⟨k', hstep, rfl⟩ := map_eq_some_iff.mp hexec
      exact ⟨⟨_, h.exec hfreed hstep⟩, (h.strays_iff hstrays).mpr hqueued,
        exists_supported_exec hsupported hstep⟩
    · exact fun _ hmem => absurd hmem List.not_mem_nil
  obtain ⟨⟨pending, h⟩, hstrays, S, hS⟩ := hinv
  refine ⟨?_, fun op _ _ => h.strays_iff hstrays, fun ticks => ⟨acc_calls (S := S) hS, ?_⟩⟩
  · obtain ⟨t, ht, rfl⟩ := map_eq_some_iff.mp h.pendings
    exact ⟨t, ht, h.items, h.sound.partition, hstrays, h.sound.ordered,
      fun sig hmail hqueued => h.taken ht hmail hqueued,
      fun hidle entry hmem => h.blocked_of_idle hidle ht hmem⟩
  · intro k' hdeliver
    exact ((totalCost_mutual (2 * k.totalCost S)).1 k p _ hS le_rfl hdeliver).2.2 rfl

theorem exists_supported_boot {addr ticks : Nat} {kmallocs : Nat → Option SigInfo}
    (h : boot addr ticks kmallocs = some k) : ∃ S, k.Supported S := by
  refine ⟨{addr}, fun q t ht => ?_⟩
  have hq := (pendings_boot h).symm.trans (pendings_of_tasks ht)
  split at hq
  · rename_i heq
    exact mem_singleton.mpr heq
  · cases hq

end

/-- A child is sent signals 12 and 10, and both are collected. -/
theorem signals_delivered_two :
    ∃ k₀ k L, k₀.pendings 0x2000 = some noPending ∧ (∃ S, k₀.Supported S) ∧
      Runs (Op.tracked 0x2000) (Op.Delivers 0x2000) (k₀, .empty) (k, L) ∧
      L.accepted.map SigInfo.siSigno = [12, 10] ∧ L.taken = [1, 0] ∧ L.strays = 0 := by
  have hsends : ∀ sig s, (Op.kill 2 sig).Delivers 0x2000 s := fun sig s =>
    ⟨(some_ne_none _).symm, fun _ hop => by cases hop⟩
  have htakes : ∀ {s : Kernel × Ledger SigInfo} {t}, s.1.tasks 0x2000 = some t →
      (∃ entry ∈ t.pending.list, entry.siSigno = t.pending.nextSignal t.blocked) →
      (Op.dequeueSignal 0x2000).Delivers 0x2000 s := by
    intro s t ht hqueued
    refine ⟨(some_ne_none _).symm, fun u _ hu _ _ => ?_⟩
    cases ht.symm.trans hu
    exact hqueued
  have hdelivered : ∀ {k₀ : Kernel} {s₁ s₂ s₃ s₄ : Kernel × Ledger SigInfo} {t₂ t₃ : Task},
      (∃ S, k₀.Supported S) →
      k₀.pendings 0x2000 = some noPending → (Op.kill 2 12).tracked 0x2000 (k₀, .empty) = some s₁ →
      (Op.kill 2 10).tracked 0x2000 s₁ = some s₂ →
        (Op.dequeueSignal 0x2000).tracked 0x2000 s₂ = some s₃ →
      (Op.dequeueSignal 0x2000).tracked 0x2000 s₃ = some s₄ → s₂.1.tasks 0x2000 = some t₂ →
      (∃ entry ∈ t₂.pending.list, entry.siSigno = t₂.pending.nextSignal t₂.blocked) →
      s₃.1.tasks 0x2000 = some t₃ →
      (∃ entry ∈ t₃.pending.list, entry.siSigno = t₃.pending.nextSignal t₃.blocked) →
      Runs (Op.tracked 0x2000) (Op.Delivers 0x2000) (k₀, .empty) s₄ ∧ s₄.2.strays = 0 := by
    intro k₀ s₁ s₂ s₃ s₄ t₂ t₃ hfinite hnone h₁ h₂ h₃ h₄ ht₂ hq₂ ht₃ hq₃
    have hrun := (((Runs.single (hsends 12 _) h₁).trans (Runs.single (hsends 10 _) h₂)).trans
      (Runs.single (htakes ht₂ hq₂) h₃)).trans (Runs.single (htakes ht₃ hq₃) h₄)
    obtain ⟨⟨_, _, _, _, hstrays, _⟩, _⟩ := signals_delivered hnone hfinite hrun
    exact ⟨hrun, hstrays⟩
  have hboot : boot 0x1000 0 (fun _ => some (mkInfo 0 .siUser 0 0)) = some _ := rfl
  have hfinite := exists_supported_exec (exists_supported_boot hboot)
    (rfl : (Op.fork 0x2000 0).exec _ = some _)
  obtain ⟨hrun, hstrays⟩ := hdelivered hfinite rfl rfl rfl rfl rfl rfl
    ⟨_, List.mem_cons_of_mem _ List.mem_cons_self, rfl⟩ rfl ⟨_, List.mem_cons_self, rfl⟩
  exact ⟨_, _, _, rfl, hfinite, hrun, rfl, rfl, hstrays⟩

/-- A task is sent `SIGSTOP` and then `SIGCONT`, which cancels it. The next signal
to be collected is `SIGSTOP`. -/
theorem cancelled_signal_delivered :
    ∃ k₀ k₁ s k' info, boot 0x1000 0 (fun _ => some (mkInfo 0 .siUser 0 0)) = some k₀ ∧
      (Op.fork 0x2000 0).exec k₀ = some k₁ ∧
      [Op.kill 2 sigstop, .kill 2 sigcont].foldlM (fun s op => op.tracked 0x2000 s)
        (k₁, .empty) = some s ∧
      s.2.accepted.map SigInfo.siSigno = [sigstop, sigcont] ∧ s.2.dropped = [0] ∧
      s.1.dequeueSignal 0x2000 = some (k', sigstop, info) := by
  exact ⟨_, _, _, _, _, rfl, rfl, rfl, rfl, rfl, rfl⟩

end Kernel

end Hos
