import Hos.Process.Mail

/-!
# Pending signals: the set and the queue

The bit of a signal in `pending.signal` against the entries of the queue
`pending.list`. Sending and collecting signals keep the two in step. Stop and
continue signals do not: `__rm_from_queue` takes entries off the queue and
leaves their bits set, so a stop signal that a later `SIGCONT` should have
cancelled is still delivered.

The two agree in every run in which no stop signal is sent while `SIGCONT` is
queued for the task, and no `SIGCONT` while a stop signal is.
-/

namespace Hos

open Option List Nat

/-- The first bit that is set. -/
theorem findFirstNonZero_spec {value : BitVec 32} (h : value ≠ 0#32) :
    findFirstNonZero value < 32 ∧ value.getLsbD (findFirstNonZero value) = true ∧
      ∀ i < findFirstNonZero value, value.getLsbD i = false := by
  have hbit : ∀ i < 32, (value &&& (1#32 <<< i) != 0#32) = value.getLsbD i :=
    fun i hi => and_mask_ne_zero hi
  cases hfind : (range 32).find? fun i => value &&& (1#32 <<< i) != 0#32 with
  | none =>
    refine absurd (BitVec.eq_of_getLsbD_eq fun i hi => ?_) h
    have hnot := find?_eq_none.mp hfind i (mem_range.mpr hi)
    rw [hbit i hi, Bool.not_eq_true] at hnot
    simpa using hnot
  | some i =>
    have hfirst : findFirstNonZero value = i := by simp [findFirstNonZero, hfind]
    have hi := mem_range.mp (mem_of_find?_eq_some hfind)
    have hset := find?_some hfind
    rw [hbit i hi] at hset
    rw [hfirst]
    refine ⟨hi, hset, fun j hj => ?_⟩
    have hnot := (find?_range_eq_some.mp hfind).2.2 j hj
    rw [hbit j (lt_trans hj hi)] at hnot
    simpa using hnot

namespace SigPending

/-- The bit of every signal is set exactly when the queue has an entry of it. -/
def Consistent (pending : SigPending) : Prop :=
  ∀ sig, 0 < sig → sig < nsig →
    (pending.signal.sigismember sig = true ↔ ∃ entry ∈ pending.list, entry.siSigno = sig)

/-- Sending the signal removes no entry of the queue. -/
def Undisturbed (pending : SigPending) (sig : Nat) : Prop :=
  (sig ∈ stopSignals → ∀ entry ∈ pending.list, entry.siSigno ≠ sigcont) ∧
    (sig = sigcont → ∀ entry ∈ pending.list, entry.siSigno ∉ stopSignals)

/-- The bit of a signal is set and no entry of it is queued. -/
def Stale (pending : SigPending) (sig : Nat) : Prop :=
  pending.signal.sigismember sig = true ∧ ∀ entry ∈ pending.list, entry.siSigno ≠ sig

/-- The signal has its bit set and is not in the mask. -/
def Deliverable (pending : SigPending) (mask : SigSet) (n : Nat) : Prop :=
  pending.signal.sigismember n = true ∧ mask.sigismember n = false

section

variable {pending : SigPending} {mask : SigSet} {n : Nat}

theorem deliverable_iff (hpos : 0 < n) (hlt : n < nsig) : pending.Deliverable mask n ↔
    (pending.signal.sig 0 &&& ~~~(mask.sig 0)).getLsbD (n - 1) = true := by
  have hlt' : n < 32 := hlt
  have hword : (n - 1) / 32 = 0 := by omega
  have hbit : (n - 1) % 32 = n - 1 := by omega
  have hdec : n - 1 < 32 := by omega
  simp [Deliverable, SigSet.sigismember_eq, wordBit, hword, hbit, hdec]

/-- No number below the next signal can be delivered. -/
theorem not_deliverable_of_lt (hpos : 0 < n) (hlt : n < nsig)
    (hbelow : n < pending.nextSignal mask ∨ pending.nextSignal mask = 0) :
    ¬pending.Deliverable mask n := by
  rw [deliverable_iff hpos hlt, Bool.not_eq_true]
  unfold nextSignal at hbelow
  split at hbelow
  · rename_i hfirst
    exact (findFirstNonZero_spec hfirst).2.2 (n - 1) (by omega)
  · rename_i hzero
    rw [Classical.not_not.mp hzero]
    simp

theorem deliverable_nextSignal (hpos : 0 < pending.nextSignal mask)
    (hlt : pending.nextSignal mask < nsig) : pending.Deliverable mask
      (pending.nextSignal mask) := by
  rw [deliverable_iff hpos hlt]
  unfold nextSignal at hpos hlt ⊢
  split
  · rename_i hfirst
    rw [Nat.add_sub_cancel_left]
    exact (findFirstNonZero_spec hfirst).2.1
  · rename_i hzero
    -- the second word has no number below `NSIG`
    have hlarge : nsig = 32 := rfl
    rw [if_neg hzero] at hpos hlt
    split at hlt
    · omega
    · rename_i hsecond
      rw [if_neg hsecond] at hpos
      omega

end

variable {pending : SigPending} {sig : Nat} {entry : Option SigInfo}

theorem consistent_noPending : Kernel.noPending.Consistent := by
  intro sig hpos hlt
  have hempty : (SigSet.sigemptyset ⟨fun _ => 0#32⟩).sigismember sig = false :=
    SigSet.sigismember_sigemptyset (le_of_lt hlt)
  simp [Kernel.noPending, hempty]

theorem Consistent.post (h : pending.Consistent) (hpos : 0 < sig)
    (hentry : ∀ info, entry = some info → info.siSigno = sig) :
    (pending.post sig entry).Consistent := by
  cases entry with
  | none => exact h
  | some info =>
    intro n hn hlt
    simp only [SigPending.post]
    rw [SigSet.sigismember_sigaddset (ne_of_gt hpos) (ne_of_gt hn), Bool.or_eq_true,
      h n hn hlt, beq_iff_eq]
    constructor
    · rintro (⟨entry, hmem, hentry⟩ | rfl)
      · exact ⟨entry, mem_append_left _ hmem, hentry⟩
      · exact ⟨info, mem_append_right _ (mem_singleton_self info), hentry info rfl⟩
    · rintro ⟨other, hmem, hother⟩
      rcases mem_append.mp hmem with hmem | hmem
      · exact .inl ⟨other, hmem, hother⟩
      · obtain rfl := mem_singleton.mp hmem
        exact .inr (hother.symm.trans (hentry other rfl))

/-- The bit of a number after the first entry of `sig` is collected. -/
theorem sigismember_collected {n : Nat} (hpos : 0 < sig) (hn : 0 < n) :
    (pending.collected sig).signal.sigismember n = (pending.signal.sigismember n && (n != sig ||
        (pending.collected sig).list.any fun entry => entry.siSigno = sig)) := by
  simp only [collected]
  split
  · rename_i hstill
    simp [hstill]
  · rename_i hlast
    rw [SigSet.sigismember_sigdelset (ne_of_gt hpos) (ne_of_gt hn),
      Bool.eq_false_of_not_eq_true hlast, Bool.or_false]

/-- Entries of other numbers are not collected. -/
theorem mem_collected_of_ne {info : SigInfo} (hne : info.siSigno ≠ sig) :
    info ∈ (pending.collected sig).list ↔ info ∈ pending.list :=
  mem_eraseP_of_neg (p := fun entry : SigInfo => decide (entry.siSigno = sig))
    (by simpa using hne)

theorem Consistent.collected (h : pending.Consistent) (hpos : 0 < sig) :
    (pending.collected sig).Consistent := by
  intro n hn hlt
  rw [sigismember_collected hpos hn, Bool.and_eq_true, h n hn hlt, Bool.or_eq_true, bne_iff_ne]
  by_cases hsig : n = sig
  · subst hsig
    simp only [ne_eq, not_true_eq_false, false_or, List.any_eq_true, decide_eq_true_eq]
    constructor
    · simp
    · rintro ⟨entry, hmem, hentry⟩
      exact ⟨⟨entry, List.mem_of_mem_eraseP hmem, hentry⟩, entry, hmem, hentry⟩
  · simp only [hsig, ne_eq, not_false_eq_true, true_or, and_true]
    constructor
    · rintro ⟨entry, hmem, hentry⟩
      exact ⟨entry, (mem_collected_of_ne (hentry ▸ hsig)).mpr hmem, hentry⟩
    · rintro ⟨entry, hmem, hentry⟩
      exact ⟨entry, (mem_collected_of_ne (hentry ▸ hsig)).mp hmem, hentry⟩

theorem undisturbed_iff :
    pending.Undisturbed sig ↔ ∀ entry ∈ pending.list, cancels sig entry.siSigno = false := by
  simp only [Undisturbed, cancels, Bool.or_eq_false_iff, Bool.and_eq_false_imp, decide_eq_true_eq,
    beq_eq_false_iff_ne, beq_iff_eq, decide_eq_false_iff_not]
  constructor
  · intro h entry hmem
    exact ⟨fun hstop => h.1 hstop entry hmem, fun hcont => h.2 hcont entry hmem⟩
  · intro h
    exact ⟨fun hstop entry hmem => (h entry hmem).1 hstop, fun hcont entry hmem =>
      (h entry hmem).2 hcont⟩

theorem Undisturbed.cancel (h : pending.Undisturbed sig) : pending.cancel sig = pending := by
  have hall : (pending.list.filter fun entry => !cancels sig entry.siSigno) = pending.list := by
    apply filter_eq_self.mpr
    intro entry hmem
    rw [undisturbed_iff.mp h entry hmem]
    rfl
  rw [SigPending.cancel, hall]

theorem undisturbed_sigchld : pending.Undisturbed sigchld :=
  ⟨fun hsig => absurd hsig (by decide), fun hsig => absurd hsig (by decide)⟩

/-- A signal does not cancel itself, and what it cancels is a signal. -/
theorem bounds_of_cancels {n : Nat} (h : cancels sig n = true) : n ≠ sig ∧ 0 < n ∧ n < nsig := by
  have hcont : 0 < sigcont ∧ sigcont < nsig := by decide
  simp only [cancels, Bool.or_eq_true, Bool.and_eq_true, decide_eq_true_eq, beq_iff_eq] at h
  obtain ⟨hstop, rfl⟩ | ⟨rfl, hstop⟩ := h
  · exact ⟨fun heq => (Kernel.stopSignals_bounds sig hstop).2.2 heq.symm, hcont⟩
  · obtain ⟨hone, hlt, hne⟩ := Kernel.stopSignals_bounds n hstop
    omega

/-- A signal that cancels an entry leaves the bit of that entry behind. -/
theorem stale_of_cancels (h : pending.Consistent) {info : SigInfo} (hpos : 0 < sig)
    (hentry : ∀ info, entry = some info → info.siSigno = sig) (hmem : info ∈ pending.list)
    (hcancels : cancels sig info.siSigno = true) :
    ((pending.cancel sig).post sig entry).Stale info.siSigno := by
  obtain ⟨hne, hpos', hlt⟩ := bounds_of_cancels hcancels
  have hbit := (h info.siSigno hpos' hlt).mpr ⟨info, hmem, rfl⟩
  have hgone : ∀ other ∈ (pending.cancel sig).list, other.siSigno ≠ info.siSigno := by
    intro other hother heq
    obtain ⟨_, hkept⟩ := mem_filter.mp hother
    simp [heq, hcancels] at hkept
  cases entry with
  | none => exact ⟨hbit, hgone⟩
  | some new =>
    refine ⟨?_, ?_⟩
    · simp only [SigPending.post, SigPending.cancel]
      rw [SigSet.sigismember_sigaddset (ne_of_gt hpos) (ne_of_gt hpos'), hbit, Bool.true_or]
    · intro other hother
      rcases mem_append.mp hother with hother | hother
      · exact hgone other hother
      · obtain rfl := mem_singleton.mp hother
        exact fun heq => hne (heq.symm.trans (hentry other rfl))

theorem Stale.not_consistent (h : pending.Stale sig) (hpos : 0 < sig) (hlt : sig < nsig) :
    ¬pending.Consistent := by
  intro hconsistent
  obtain ⟨entry, hmem, hentry⟩ := (hconsistent sig hpos hlt).mp h.1
  exact h.2 entry hmem hentry

end SigPending

namespace Kernel

/-- The pending signals of every task are consistent. -/
def PendingConsistent (k : Kernel) : Prop :=
  ∀ p t, k.tasks p = some t → t.pending.Consistent

/-- The operation sends no stop signal to a task that has `SIGCONT` queued, and no
`SIGCONT` to a task that has a stop signal queued. -/
def Op.Undisturbed : Op → Kernel → Prop
  | kill pid sig, k => ∀ p t, k.getRunningProcess pid = some p → k.tasks p = some t →
      t.pending.Undisturbed sig.toNat
  | _, _ => True

variable {k k' k₀ : Kernel} {p q sig : Nat} {op : Op} {entry : Option SigInfo}

theorem pendingConsistent_iff :
    k.PendingConsistent ↔ ∀ p pending, k.pendings p = some pending → pending.Consistent := by
  constructor
  · intro h p pending hp
    obtain ⟨t, ht, rfl⟩ := map_eq_some_iff.mp hp
    exact h p t ht
  · exact fun h p t ht => h p t.pending (pendings_of_tasks ht)

/-- A signal that is sent has a proper number, also in its entry, and is `SIGCHLD`
unless `sys_kill` has sent it. -/
theorem Op.mail_send (h : op.mail q k = .send sig entry) :
    0 < sig ∧ sig < nsig ∧ (∀ info, entry = some info → info.siSigno = sig) ∧
      (sig = sigchld ∨ ∃ pid s, op = .kill pid s ∧ k.getRunningProcess pid = some q ∧
        s.toNat = sig) := by
  have haccepted : ∀ {k : Kernel} {code pid uid info}, k.accepted q sig
      (mkInfo sig code pid uid) = some info → info.siSigno = sig := by
    intro k code pid uid info hinfo
    unfold accepted at hinfo
    split at hinfo
    · rw [← some.inj hinfo]
      rfl
    · cases hinfo
  have hkill : ∀ {k : Kernel} {pid s : Int}, k.killMail q pid s = .send sig entry →
      0 < sig ∧ sig < nsig ∧ (∀ info, entry = some info → info.siSigno = sig) ∧
        k.getRunningProcess pid = some q ∧ s.toNat = sig := by
    intro k pid s hmail
    unfold killMail at hmail
    split at hmail
    · cases hmail
    split at hmail
    · rename_i hcond
      obtain ⟨rfl, rfl⟩ := Mail.send.inj hmail
      obtain ⟨hfind, hpos, hlt⟩ := hcond
      exact ⟨by omega, by omega, fun info hinfo => haccepted hinfo, hfind, rfl⟩
    · cases hmail
  have hchld : 0 < sigchld ∧ sigchld < nsig := by decide
  cases op with
  | kill pid s =>
    obtain ⟨hpos, hlt, hentry, hfind, hs⟩ := hkill h
    exact ⟨hpos, hlt, hentry, .inr ⟨pid, s, rfl, hfind, hs⟩⟩
  | exit code =>
    simp only [mail] at h
    split at h
    · cases h
    split at h
    · cases h
    obtain ⟨hpos, hlt, hentry, _, hs⟩ := hkill h
    exact ⟨hpos, hlt, hentry, .inl hs.symm⟩
  | notifyStop r =>
    simp only [mail] at h
    split at h
    · split at h
      · obtain ⟨rfl, rfl⟩ := Mail.send.inj h
        exact ⟨hchld.1, hchld.2, fun info hinfo => haccepted hinfo, .inl rfl⟩
      · cases h
    · cases h
  | dequeueSignal r =>
    simp only [mail] at h
    split at h
    · cases h
    split at h
    · cases h
    · cases h
  | fork | waitpid | schedSetparam | reschedule | handleSignal | enterStopped | sigreturn
  | sigprocmask | sigaction => cases h

/-- A signal that is collected is the next one of the task. -/
theorem Op.mail_collect (h : op.mail q k = .collect sig) :
    op = .dequeueSignal q ∧ 0 < sig ∧ sig < nsig ∧
      ∃ t, k.tasks q = some t ∧ t.pending.nextSignal t.blocked = sig := by
  have hkill : ∀ {k : Kernel} {pid s : Int}, k.killMail q pid s ≠ .collect sig := by
    intro k pid s hmail
    unfold killMail at hmail
    split at hmail
    · cases hmail
    split at hmail
    · cases hmail
    · cases hmail
  cases op with
  | dequeueSignal r =>
    simp only [mail] at h
    split at h
    · cases h
    rename_i t ht
    split at h
    · rename_i hcond
      obtain rfl := Mail.collect.inj h
      obtain ⟨rfl, hpos, hlt⟩ := hcond
      exact ⟨rfl, hpos, hlt, t, ht, rfl⟩
    · cases h
  | kill pid s => exact absurd h hkill
  | exit code =>
    simp only [mail] at h
    split at h
    · cases h
    split at h
    · cases h
    · exact absurd h hkill
  | notifyStop r =>
    simp only [mail] at h
    split at h
    · split at h
      · cases h
      · cases h
    · cases h
  | fork | waitpid | schedSetparam | reschedule | handleSignal | enterStopped | sigreturn
  | sigprocmask | sigaction => cases h

theorem PendingConsistent.exec (h : k.PendingConsistent) (hok : op.Undisturbed k)
    (hexec : op.exec k = some k') : k'.PendingConsistent := by
  rw [pendingConsistent_iff] at h ⊢
  intro q pending' hq
  rw [Op.pendings_exec hexec] at hq
  split at hq
  · cases hq
  split at hq
  · cases hq
    exact SigPending.consistent_noPending
  obtain ⟨pending, hp, rfl⟩ := map_eq_some_iff.mp hq
  have hpending := h q pending hp
  cases hmail : op.mail q k with
  | quiet => exact hpending
  | collect sig => exact hpending.collected (Op.mail_collect hmail).2.1
  | send sig entry =>
    obtain ⟨hpos, _, hentry, hchld | ⟨pid, s, rfl, hfind, hs⟩⟩ := Op.mail_send hmail
    · subst hchld
      rw [Mail.apply, SigPending.undisturbed_sigchld.cancel]
      exact hpending.post hpos hentry
    · obtain ⟨t, ht, rfl⟩ := map_eq_some_iff.mp hp
      have hundisturbed := hok q t hfind ht
      rw [hs] at hundisturbed
      rw [Mail.apply, hundisturbed.cancel]
      exact hpending.post hpos hentry

/-- The pending signals of the task that `sys_kill` sends a signal to. -/
theorem pendings_kill {pid s : Int} {t : Task} (hexec : (Op.kill pid s).exec k = some k')
    (hfind : k.getRunningProcess pid = some p) (ht : k.tasks p = some t) (hpos : 0 < s)
    (hlt : s < nsig) :
    ∃ entry, (∀ info, entry = some info → info.siSigno = s.toNat) ∧
      k'.pendings p = some ((t.pending.cancel s.toNat).post s.toNat entry) := by
  have hmail := killMail_of_eq hfind ht hpos hlt
  have hsent := Op.mail_send (show (Op.kill pid s).mail p k = _ from hmail)
  refine ⟨_, hsent.2.2.1, ?_⟩
  have hkill := Op.pendings_exec (q := p) hexec
  rw [hkill, pendings_of_tasks ht]
  exact congrArg (fun mail : Mail => some (mail.apply t.pending)) hmail

/-- A stop or continue signal that removes a queued one makes the set wrong. -/
theorem not_pendingConsistent_kill (h : k.PendingConsistent) {pid s : Int}
    (hdisturbed : ¬(Op.kill pid s).Undisturbed k) (hexec : (Op.kill pid s).exec k = some k') :
    ¬k'.PendingConsistent := by
  simp only [Op.Undisturbed, SigPending.undisturbed_iff, not_forall, Bool.not_eq_false,
    exists_prop] at hdisturbed
  obtain ⟨p, t, hfind, ht, info, hmem, hcancels⟩ := hdisturbed
  have hbounds : ∀ n ∈ sigcont :: stopSignals, 0 < n ∧ n < nsig := by decide
  have hsig : s.toNat ∈ sigcont :: stopSignals := by
    simp only [cancels, Bool.or_eq_true, Bool.and_eq_true, decide_eq_true_eq, beq_iff_eq]
      at hcancels
    obtain ⟨hstop, _⟩ | ⟨hcont, _⟩ := hcancels
    · exact mem_cons_of_mem _ hstop
    · exact hcont ▸ mem_cons_self
  obtain ⟨hpos, hlt⟩ := hbounds _ hsig
  obtain ⟨entry, hentry, hpendings⟩ := pendings_kill hexec hfind ht (by omega) (by omega)
  have hstale := SigPending.stale_of_cancels (h p t ht) hpos hentry hmem hcancels
  obtain ⟨_, hpos', hlt'⟩ := SigPending.bounds_of_cancels hcancels
  exact fun hk => hstale.not_consistent hpos' hlt' (pendingConsistent_iff.mp hk p _ hpendings)

/-- An operation keeps the sets of pending signals right exactly when it removes
no entry of a queue. -/
theorem Op.pendingConsistent_iff (h : k.PendingConsistent) (hexec : op.exec k = some k') :
    k'.PendingConsistent ↔ op.Undisturbed k := by
  constructor
  · intro hk
    by_contra hnot
    cases op with
    | kill pid s => exact not_pendingConsistent_kill h hnot hexec hk
    | fork | exit | waitpid | schedSetparam | reschedule | dequeueSignal | handleSignal
    | notifyStop | enterStopped | sigreturn | sigprocmask | sigaction => exact hnot trivial
  · exact fun hok => h.exec hok hexec

theorem pendingConsistent_boot {addr ticks : Nat} {kmallocs : Nat → Option SigInfo}
    (h : boot addr ticks kmallocs = some k) : k.PendingConsistent := by
  rw [pendingConsistent_iff]
  intro p pending hp
  rw [pendings_boot h] at hp
  split at hp
  · rw [← some.inj hp]
    exact SigPending.consistent_noPending
  · cases hp

/-- After `SIGCONT` no stop signal is queued, and none is pending when the set is
right. -/
theorem stop_not_pending {pid : Int} (hk' : k'.PendingConsistent)
    (hexec : (Op.kill pid sigcont).exec k = some k') (hfind : k.getRunningProcess pid = some p)
    {t : Task} (ht : k'.tasks p = some t) : ∀ s ∈ stopSignals,
      t.pending.signal.sigismember s = false := by
  intro s hs
  obtain ⟨hone, hlt, hne⟩ := stopSignals_bounds s hs
  by_contra hbit
  obtain ⟨info, hmem, hinfo⟩ := (hk' p t ht s (lt_trans zero_lt_one hone) hlt).mp
    (Bool.eq_true_of_not_eq_false hbit)
  obtain ⟨u, hu⟩ : ∃ u, k.tasks p = some u := by
    have hany := find?_some hfind
    obtain ⟨u, hu, _⟩ := (any_eq_true _ _).mp hany
    exact ⟨u, hu⟩
  obtain ⟨entry, hentry, hpendings⟩ := pendings_kill hexec hfind hu (by decide) (by decide)
  rw [pendings_of_tasks ht, some.injEq] at hpendings
  have hcont : (sigcont : Int).toNat = sigcont := rfl
  have hqueued : ∀ other ∈ (u.pending.cancel sigcont).list, other.siSigno ∉ stopSignals := by
    intro other hother
    obtain ⟨_, hkept⟩ := mem_filter.mp hother
    simpa [cancels_sigcont] using hkept
  rw [hpendings] at hmem
  cases entry with
  | none => exact hqueued info hmem (hinfo ▸ hs)
  | some new =>
    rcases mem_append.mp hmem with hmem | hmem
    · exact hqueued info hmem (hinfo ▸ hs)
    · obtain rfl := mem_singleton.mp hmem
      exact hne (hinfo.symm.trans (hentry info rfl))

/-- In a run without disturbed signals the set of pending signals is right for
every task, an operation keeps it right exactly when it disturbs no signal, and
no stop signal is pending after `SIGCONT`. -/
theorem pending_consistent {addr ticks : Nat} {kmallocs : Nat → Option SigInfo}
    (hboot : boot addr ticks kmallocs = some k₀) (hrun : Runs Op.exec Op.Undisturbed k₀ k) :
    k.PendingConsistent ∧ (∀ (op : Op) (k' : Kernel), op.exec k = some k' →
        (k'.PendingConsistent ↔ op.Undisturbed k)) ∧
      ∀ (pid : Int) (k' : Kernel) (p : Nat) (t : Task), (Op.kill pid sigcont).Undisturbed k →
        (Op.kill pid sigcont).exec k = some k' → k.getRunningProcess pid = some p →
        k'.tasks p = some t → ∀ s ∈ stopSignals, t.pending.signal.sigismember s = false := by
  have hinv := hrun.invariant PendingConsistent
    (fun op k k' hk hok hexec => (op.pendingConsistent_iff hk hexec).mpr hok)
    (pendingConsistent_boot hboot)
  exact ⟨hinv, fun op k' hexec => op.pendingConsistent_iff hinv hexec,
    fun pid k' p t hok hexec hfind ht =>
      stop_not_pending ((Op.pendingConsistent_iff hinv hexec).mpr hok) hexec hfind ht⟩

/-- A stop signal for a task without pending signals. -/
theorem pending_consistent_sigstop :
    ∃ k₀ k, boot 0x1000 0 (fun _ => some (mkInfo 0 .siUser 0 0)) = some k₀ ∧
      Runs Op.exec Op.Undisturbed k₀ k ∧
      (k.tasks 0x2000).map (fun t => t.pending.list.map SigInfo.siSigno) = some [sigstop] ∧
      k.PendingConsistent := by
  have hrun : ∀ {k₀ k₁ k : Kernel} {t : Task}, (Op.fork 0x2000 0).exec k₀ = some k₁ →
      (Op.kill 2 sigstop).exec k₁ = some k → k₁.getRunningProcess 2 = some 0x2000 →
      k₁.tasks 0x2000 = some t → t.pending.list = [] → Runs Op.exec Op.Undisturbed k₀ k := by
    intro k₀ k₁ k t hfork hkill hfind ht hnil
    refine (Runs.single (i := .fork 0x2000 0) trivial hfork).trans
      (Runs.single (i := .kill 2 sigstop) (fun p u hp hu => ?_) hkill)
    cases hp.symm.trans hfind
    cases ht.symm.trans hu
    simp [SigPending.Undisturbed, hnil]
  have hboot : boot 0x1000 0 (fun _ => some (mkInfo 0 .siUser 0 0)) = some _ := rfl
  exact ⟨_, _, hboot, hrun rfl rfl rfl rfl rfl, rfl,
    (pending_consistent hboot (hrun rfl rfl rfl rfl rfl)).1⟩

/-- A task is stopped and continued before it runs. -/
def stopContinueOps : List Op := [.fork 0x2000 0, .kill 2 sigstop, .kill 2 sigcont]

/-- `SIGSTOP` is no longer queued, but it is still the next signal to deliver. -/
theorem sigstop_pending_after_sigcont :
    ∃ k₀ k t, boot 0x1000 0 (fun _ => some (mkInfo 0 .siUser 0 0)) = some k₀ ∧ AnyRun k₀ k ∧
      k.tasks 0x2000 = some t ∧ t.pending.list.map SigInfo.siSigno = [sigcont] ∧
      t.pending.signal.sigismember sigstop = true ∧
      t.pending.nextSignal t.blocked = sigstop ∧ ¬k.PendingConsistent := by
  refine ⟨_, _, _, rfl, AnyRun.ops stopContinueOps rfl, rfl, rfl, rfl, rfl, fun hconsistent => ?_⟩
  obtain ⟨entry, hmem, hentry⟩ := (hconsistent 0x2000 _ rfl sigstop (by decide) (by decide)).mp rfl
  obtain rfl := mem_singleton.mp hmem
  cases hentry

end Kernel

end Hos
