import Hos.Process.Run

/-!
# What each operation does to the pending signals of a task

For one task an operation of the kernel is quiet, sends it a signal or collects
one. A signal that is sent first removes the entries that it cancels (stop
signals cancel `SIGCONT` and the other way round) and is then queued, unless the
task ignores it, is a zombie, or no memory is left for the entry. Collecting a
signal removes its first entry.

`Op.pendings_exec` says this for all operations at once; the results about
pending signals use it and look at no operation themselves.
-/

namespace Hos

open Option

/-- Sending `sig` takes the entries of `n` off the queue. -/
def cancels (sig n : Nat) : Bool :=
  decide (sig ∈ stopSignals) && n == sigcont || sig == sigcont && decide (n ∈ stopSignals)

namespace SigPending

/-- Without the entries that `sig` cancels. Their bits stay. -/
def cancel (pending : SigPending) (sig : Nat) : SigPending :=
  { pending with list := pending.list.filter fun entry => !cancels sig entry.siSigno }

/-- With a new entry, if there is one. -/
def post (pending : SigPending) (sig : Nat) : Option SigInfo → SigPending
  | none => pending
  | some entry => ⟨pending.list ++ [entry], pending.signal.sigaddset sig⟩

/-- Without the first entry of `sig`, and without its bit when that was the last. -/
def collected (pending : SigPending) (sig : Nat) : SigPending :=
  let kept := pending.list.eraseP fun entry => entry.siSigno = sig
  ⟨kept, if kept.any fun entry => entry.siSigno = sig then pending.signal
    else pending.signal.sigdelset sig⟩

variable {pending pending' : SigPending} {sig : Nat} {info : SigInfo}

theorem scan_some (l : List SigInfo) (found : SigInfo) :
    scan sig l (some found) = (some found, l.any fun q => q.siSigno = sig) := by
  induction l with
  | nil => rfl
  | cons q l ih =>
    by_cases hq : q.siSigno = sig
    · simp [scan, hq]
    · simp [scan, hq, ih]

/-- The scan finds the first entry and tells whether another one stays when it
is removed. -/
theorem scan_none (l : List SigInfo) :
    scan sig l none = (l.find? fun q => q.siSigno = sig,
      (l.eraseP fun q => q.siSigno = sig).any fun q => q.siSigno = sig) := by
  induction l with
  | nil => rfl
  | cons q l ih =>
    by_cases hq : q.siSigno = sig
    · simp [scan, hq, scan_some]
    · simp [scan, hq, ih]

theorem eq_collected {unqueued : Option SigInfo}
    (h : pending.collectSignal sig unqueued = some (pending', info)) :
    pending' = pending.collected sig := by
  simp only [collectSignal, scan_none] at h
  cases hfind : pending.list.find? fun q => q.siSigno = sig with
  | some found =>
    simp only [hfind, some.injEq, Prod.mk.injEq] at h
    exact h.1.symm
  | none =>
    -- without an entry of the number there is nothing to remove
    have hsame : (pending.list.eraseP fun q => q.siSigno = sig) = pending.list :=
      List.eraseP_of_forall_not (List.find?_eq_none.mp hfind)
    simp only [hfind, map_eq_some_iff, Prod.mk.injEq] at h
    obtain ⟨_, _, hpending, _⟩ := h
    rw [← hpending, collected, hsame]

end SigPending

section

variable {sigs : List Nat} {n : Nat}

theorem sigismember_foldl_sigaddset {set : SigSet} (hsigs : ∀ s ∈ sigs, s ≠ 0) (hn : n ≠ 0) :
    (sigs.foldl SigSet.sigaddset set).sigismember n = (set.sigismember n || decide (n ∈ sigs)) := by
  induction sigs generalizing set with
  | nil => simp
  | cons s sigs ih =>
    rw [List.foldl_cons, ih fun s' hs' => hsigs s' (List.mem_cons_of_mem s hs'),
      SigSet.sigismember_sigaddset (hsigs s List.mem_cons_self) hn, Bool.or_assoc]
    simp only [List.mem_cons, Bool.decide_or, beq_eq_decide]

/-- The members of a mask. Zero is tested as the first signal. -/
theorem sigismember_sigMask (hsigs : ∀ s ∈ sigs, 1 < s) :
    (sigMask sigs).sigismember n = decide (n ∈ sigs) := by
  have hempty : ∀ m, (SigSet.sigemptyset ⟨fun _ => 0#32⟩).sigismember m = false := by
    intro m
    simp [SigSet.sigismember, SigSet.sigemptyset]
  have hne : ∀ s ∈ sigs, s ≠ 0 := fun s hs =>
    Nat.ne_of_gt (Nat.lt_trans Nat.zero_lt_one (hsigs s hs))
  by_cases hn : n = 0
  · have hfirst : (sigMask sigs).sigismember n = (sigMask sigs).sigismember 1 := by
      rw [hn]
      rfl
    rw [hfirst, sigMask, sigismember_foldl_sigaddset hne Nat.one_ne_zero, hempty, Bool.false_or]
    have h₀ : n ∉ sigs := fun hmem => hne n hmem hn
    have h₁ : 1 ∉ sigs := fun hmem => absurd (hsigs 1 hmem) (Nat.lt_irrefl 1)
    simp [h₀, h₁]
  · rw [sigMask, sigismember_foldl_sigaddset hne hn, hempty, Bool.false_or]

end

/-- What happens to the pending signals of one task. -/
inductive Mail where
  | quiet
  | send (sig : Nat) (entry : Option SigInfo)
  | collect (sig : Nat)

/-- The pending signals afterwards. -/
def Mail.apply : Mail → SigPending → SigPending
  | quiet, pending => pending
  | send sig entry, pending => (pending.cancel sig).post sig entry
  | collect sig, pending => pending.collected sig

@[simp]
theorem Mail.map_quiet (pending : Option SigPending) : pending.map Mail.quiet.apply = pending :=
    map_id'

/-- A signal to the task is not queued. -/
def Task.refuses (t : Task) (sig : Nat) : Bool :=
  t.sigIsIgnored sig || t.state == .zombie || t.state == .dead

namespace Kernel

/-- The pending signals of a task. -/
def pendings (k : Kernel) (p : Nat) : Option SigPending := (k.tasks p).map Task.pending

/-- The entry that `__send_signal` queues. -/
def accepted (k : Kernel) (p sig : Nat) (info : SigInfo) : Option SigInfo :=
  if ((k.tasks p).any fun t => !t.refuses sig) && k.kmalloc.1.isSome then some info else none

/-- What `sys_kill` does to the pending signals of task `p`. -/
def killMail (k : Kernel) (p : Nat) (pid sig : Int) : Mail :=
  match k.tasks p with
  | none => .quiet
  | some t =>
    if k.getRunningProcess pid = some p ∧ 0 < sig ∧ sig < nsig then
      .send sig.toNat (k.accepted p sig.toNat (mkInfo sig.toNat .siUser t.pid t.uid))
    else .quiet

/-- The running task as a zombie, before its parent is told. -/
def zombify (k : Kernel) (c : Nat) (exitCode : BitVec 32) : Kernel :=
  k.modify c fun t => { t with exitCode := (exitCode <<< 8) &&& 0xFF00#32, state := .zombie }

/-- What an operation does to the pending signals of task `p`. -/
def Op.mail (p : Nat) : Op → Kernel → Mail
  | kill pid sig, k => k.killMail p pid sig
  | exit code, k =>
    match k.curr with
    | none => .quiet
    | some c =>
      match (((k.zombify c code).tasks c).bind Task.parent).bind (k.zombify c code).tasks with
      | none => .quiet
      | some u => (k.zombify c code).killMail p u.pid sigchld
  | notifyStop q, k =>
    match k.tasks q, k.tasks p with
    | some t, some u =>
      if t.parent = some p ∧ (u.action (sigchld - 1)).saFlags &&& saNocldstop = 0#32 then
        .send sigchld (k.accepted p sigchld (mkInfo sigchld .siKernel t.pid t.uid))
      else .quiet
    | _, _ => .quiet
  | dequeueSignal q, k =>
    match k.tasks q with
    | none => .quiet
    | some t =>
      let sig := t.pending.nextSignal t.blocked
      if q = p ∧ 0 < sig ∧ sig < nsig then .collect sig else .quiet
  | _, _ => .quiet

section

variable {k k' : Kernel} {p q sig : Nat} {f : Task → Task} {info : SigInfo} {ret : Int}

theorem pendings_of_tasks {t : Task} (h : k.tasks p = some t) : k.pendings p = some t.pending := by
  rw [pendings, h, map_some]

theorem pendings_modify_same (h : ∀ t, (f t).pending = t.pending) :
    (k.modify p f).pendings q = k.pendings q := map_modify fun t _ => h t

theorem pendings_modify {g : SigPending → SigPending} (h : ∀ t, (f t).pending = g t.pending) :
    (k.modify p f).pendings q = (k.pendings q).map fun pending => if q = p
      then g pending else pending := by
  by_cases hq : q = p
  · simp only [hq, if_true, pendings, modify_tasks_self, map_map]
    exact congrArg (fun view => (k.tasks p).map view) (funext h)
  · simp only [hq, if_false, pendings, modify_tasks_of_ne hq, map_id']

theorem pendings_sendSignal (h : k.sendSignal sig (some info) p = some (k', ret)) :
    k'.pendings q = (k.pendings q).map fun pending =>
      if q = p then pending.post sig (k.accepted p sig info) else pending := by
  obtain ⟨t, ht, h⟩ := bind_eq_some_iff.mp h
  have hrefused : t.refuses sig = true → k' = k → k'.pendings q = (k.pendings q).map fun pending =>
      if q = p then pending.post sig (k.accepted p sig info) else pending := by
    rintro hrefuses rfl
    simp [accepted, ht, hrefuses, SigPending.post]
  split at h
  · rename_i hignored
    exact hrefused (by simp [Task.refuses, hignored]) (Prod.mk.inj (some.inj h)).1.symm
  rename_i hignored
  split at h
  · rename_i hstate
    exact hrefused (by simpa [Task.refuses, hignored] using hstate)
      (Prod.mk.inj (some.inj h)).1.symm
  rename_i hstate
  have hnot : t.refuses sig = false := by simpa [Task.refuses, hignored] using hstate
  split at h
  · rename_i k₁ hnull
    obtain ⟨rfl, _⟩ := Prod.mk.inj (some.inj h)
    obtain rfl : k.kmalloc.2 = k₁ := congrArg Prod.snd hnull
    have hnone : k.kmalloc.1 = none := congrArg Prod.fst hnull
    simp only [accepted, hnone, isSome_none, Bool.and_false, Bool.false_eq_true, if_false,
      SigPending.post, ite_self, map_id']
    rfl
  · rename_i stale k₁ hblock
    cases h
    obtain rfl : k.kmalloc.2 = k₁ := congrArg Prod.snd hblock
    have hsome : k.kmalloc.1 = some stale := congrArg Prod.fst hblock
    have haccepted : k.accepted p sig info = some info := by simp [accepted, ht, hnot, hsome]
    rw [haccepted]
    exact pendings_modify (g := fun pending => pending.post sig (some info)) fun _ => rfl

theorem accepted_of_view (hkmallocs : k'.kmallocs = k.kmallocs)
    (hrefuses : (k'.tasks p).map (·.refuses sig) = (k.tasks p).map (·.refuses sig)) :
    k'.accepted p sig info = k.accepted p sig info := by
  have hany : ((k'.tasks p).any fun t => !t.refuses sig) = (k.tasks p).any fun t =>
      !t.refuses sig := by
    have := congrArg (Option.any (!·)) hrefuses
    simpa only [any_map] using this
  unfold accepted kmalloc
  rw [hany, hkmallocs]

/-- Waking a task changes no pending signal and no acceptance. -/
theorem wakeStopped_mail (h : k.wakeStopped p = some k') :
    k'.pendings q = k.pendings q ∧ k'.accepted p sig info = k.accepted p sig info := by
  obtain rfl | ⟨r, w, queue, hw, hstate, rfl⟩ := wakeStopped_cases h
  · simp
  · refine ⟨pendings_modify_same fun _ => rfl, accepted_of_view rfl (map_modify ?_)⟩
    intro t ht
    cases hw.symm.trans ht
    -- a woken task was stopped or asleep, so it is no zombie before and after
    have hlive : (w.state == .zombie) = false ∧ (w.state == .dead) = false := by
      rcases hstate with hstate | hstate <;> rw [hstate] <;> decide
    simp only [Task.refuses, hlive.1, hlive.2]
    rfl

/-- Removing entries by the mask of the signals that `sig` cancels. -/
theorem rmFromQueue_mail {sigs : List Nat} (hsigs : ∀ s ∈ sigs, 1 < s)
    (hcancels : ∀ n, cancels sig n = decide (n ∈ sigs)) :
    (k.modify p (·.rmFromQueue (sigMask sigs))).pendings q =
        (k.pendings q).map (fun pending => if q = p then pending.cancel sig else pending) ∧
      (k.modify p (·.rmFromQueue (sigMask sigs))).accepted p sig info = k.accepted p sig info := by
  refine ⟨pendings_modify fun t => ?_, accepted_of_view rfl (map_modify fun _ _ => rfl)⟩
  simp only [Task.rmFromQueue, SigPending.cancel, hcancels, sigismember_sigMask hsigs]

theorem stopSignals_bounds : ∀ s ∈ stopSignals, 1 < s ∧ s < nsig ∧ s ≠ sigcont := by decide

theorem cancels_of_mem (h : sig ∈ stopSignals) (n : Nat) :
    cancels sig n = decide (n ∈ [sigcont]) := by
  have hne := (stopSignals_bounds sig h).2.2
  simp [cancels, h, hne, beq_eq_decide]

theorem cancels_sigcont (n : Nat) : cancels sigcont n = decide (n ∈ stopSignals) := rfl

theorem cancels_eq_false (hstop : sig ∉ stopSignals) (hcont : sig ≠ sigcont) (n : Nat) :
    cancels sig n = false := by
  simp [cancels, hstop, hcont]

theorem handleStopSignal_mail (q : Nat) (info : SigInfo) (h : k.handleStopSignal sig p = some k') :
    k'.pendings q = (k.pendings q).map (fun pending =>
        if q = p then pending.cancel sig else pending) ∧
      k'.accepted p sig info = k.accepted p sig info := by
  rw [handleStopSignal] at h
  split at h
  · rename_i hstop
    cases h
    exact rmFromQueue_mail (by decide) (cancels_of_mem hstop)
  split at h
  · rename_i hcont
    subst hcont
    obtain ⟨hpendings, haccepted⟩ := wakeStopped_mail h
    obtain ⟨hcancel, hkept⟩ := rmFromQueue_mail (fun s hs => (stopSignals_bounds s hs).1)
      cancels_sigcont
    exact ⟨hpendings.trans hcancel, haccepted.trans hkept⟩
  · rename_i hstop hcont
    cases h
    have hsame : ∀ pending : SigPending, pending.cancel sig = pending := by
      intro pending
      simp [SigPending.cancel, cancels_eq_false hstop hcont]
    simp [hsame]

theorem killMail_of_eq {pid sig : Int} {t : Task} (hp : k.getRunningProcess pid = some p)
    (ht : k.tasks p = some t) (hpos : 0 < sig) (hlt : sig < nsig) :
    k.killMail p pid sig =
      .send sig.toNat (k.accepted p sig.toNat (mkInfo sig.toNat .siUser t.pid t.uid)) := by
  simp [killMail, ht, hp, hpos, hlt]

theorem killMail_of_not {pid sig : Int}
    (h : ¬(k.getRunningProcess pid = some p ∧ 0 < sig ∧ sig < nsig)) :
    k.killMail p pid sig = .quiet := by
  unfold killMail
  split
  · rfl
  · rw [if_neg h]

theorem pendings_sysKill {pid sig : Int} (h : k.sysKill pid sig = some (k', ret)) :
    k'.pendings q = (k.pendings q).map (k.killMail q pid sig).apply := by
  obtain ⟨rfl, hnone⟩ | ⟨p, t, k₁, ret', hfind, ht, hpos, hlt, hstop, hsend⟩ := sysKill_cases h
  · rw [killMail_of_not]
    · simp
    · rintro ⟨hsome, hpos, hlt⟩
      rcases hnone with hle | hge | hnone
      · omega
      · omega
      · cases hsome.symm.trans hnone
  · have hsent := pendings_sendSignal (q := q) hsend
    obtain ⟨hcancel, haccepted⟩ := handleStopSignal_mail q
      (mkInfo sig.toNat .siUser t.pid t.uid) hstop
    rw [hsent, hcancel, haccepted, map_map]
    by_cases hq : q = p
    · subst hq
      rw [killMail_of_eq hfind ht hpos hlt]
      simp only [if_true]
      rfl
    · rw [killMail_of_not fun hfound => hq (some.inj (hfound.1.symm.trans hfind))]
      simp only [hq, if_false]
      rfl

theorem pendings_signalParent (h : k.signalParent p = some k') :
    k'.pendings q = (k.pendings q).map (match ((k.tasks p).bind Task.parent).bind k.tasks with
        | none => Mail.quiet
        | some u => k.killMail q u.pid sigchld).apply := by
  simp only [signalParent, bind_eq_bind, bind_eq_some_iff] at h
  obtain ⟨t, ht, h⟩ := h
  split at h
  · rename_i hparent
    cases h
    simp [ht, hparent]
  · rename_i parent hparent
    simp only [bind_eq_some_iff] at h
    obtain ⟨u, hu, ⟨k₁, _⟩, hkill, h⟩ := h
    cases h
    simpa only [ht, hparent, hu, bind_some] using pendings_sysKill hkill

/-- What is seen of a task without its place in the tree stays when children move. -/
theorem map_moveChildren {α : Type} (view : Task → α) {initProc : Option Nat}
    (hparent : ∀ t parent, view { t with parent := parent } = view t)
    (hchildren : ∀ t children, view { t with children := children } = view t)
    (h : k.moveChildren p initProc = some k') : (k'.tasks q).map view = (k.tasks q).map view := by
  have hreparent : ∀ (i : Nat) (kids : List Nat) (k : Kernel),
      ((kids.foldl (fun k e => k.modify e ({ · with parent := some i })) k).tasks q).map view =
        (k.tasks q).map view := by
    intro i kids
    induction kids with
    | nil => exact fun _ => rfl
    | cons e kids ih => exact fun k => (ih _).trans (map_modify fun t _ => hparent t _)
  simp only [moveChildren, bind_eq_bind, bind_eq_some_iff] at h
  obtain ⟨t, _, h⟩ := h
  split at h
  · cases h
    rfl
  · simp only [bind_eq_some_iff] at h
    obtain ⟨i, _, u, _, h⟩ := h
    cases h
    exact (map_modify fun t _ => hchildren t _).trans
      ((map_modify fun t _ => hchildren t _).trans (hreparent i _ k))

theorem pendings_sysExit {code : BitVec 32} (h : k.sysExit code = some k') :
    k'.pendings q = (k.pendings q).map ((Op.exit code).mail q k).apply := by
  simp only [sysExit, bind_eq_bind, bind_eq_some_iff] at h
  obtain ⟨c, hcurr, h⟩ := h
  split at h
  · cases h
  simp only [bind_eq_some_iff] at h
  obtain ⟨k₁, hsignal, k₂, hmove, h⟩ := h
  cases h
  have hzombie : (k.zombify c code).pendings q = k.pendings q := pendings_modify_same fun _ => rfl
  have htold := pendings_signalParent (q := q) (k := k.zombify c code) hsignal
  rw [hzombie] at htold
  simp only [Op.mail, hcurr]
  have hmoved : k₂.pendings q = k₁.pendings q :=
    map_moveChildren _ (fun _ _ => rfl) (fun _ _ => rfl) hmove
  rw [pendings_modify_same, hmoved]
  · exact htold
  simp

theorem pendings_notifyStop (h : k.notifyStop p = some k') :
    k'.pendings q = (k.pendings q).map ((Op.notifyStop p).mail q k).apply := by
  obtain ⟨t, parent, u, ht, hparent, hu, h⟩ := notifyStop_cases h
  by_cases hq : q = parent
  · subst hq
    simp only [Op.mail, ht, hu, hparent, true_and]
    obtain ⟨rfl, hflag⟩ | ⟨hflag, ret, hsend⟩ := h
    · rw [if_neg hflag, Mail.map_quiet]
    · have hsent := pendings_sendSignal (q := q) hsend
      have hkeep : ∀ pending : SigPending, pending.cancel sigchld = pending := by
        intro pending
        have hnone : ∀ n, cancels sigchld n = false := cancels_eq_false (by decide) (by decide)
        simp [SigPending.cancel, hnone]
      have hmail : (Mail.send sigchld (k.accepted q sigchld
          (mkInfo sigchld .siKernel t.pid t.uid))).apply = fun pending => pending.post sigchld
            (k.accepted q sigchld (mkInfo sigchld .siKernel t.pid t.uid)) :=
        funext fun pending => by rw [Mail.apply, hkeep]
      simpa only [if_pos hflag, hmail, if_true] using hsent
  · have hmail : (Op.notifyStop p).mail q k = .quiet := by
      have hne : some parent ≠ some q := fun heq => hq (some.inj heq).symm
      cases hk : k.tasks q <;> simp [Op.mail, ht, hparent, hk, hne]
    rw [hmail, Mail.map_quiet]
    obtain ⟨rfl, -⟩ | ⟨-, ret, hsend⟩ := h
    · rfl
    · simpa only [if_neg hq, map_id'] using pendings_sendSignal (q := q) hsend

theorem pendings_dequeueSignal {r : Nat × Option SigInfo} (h : k.dequeueSignal p = some (k', r)) :
    k'.pendings q = (k.pendings q).map ((Op.dequeueSignal p).mail q k).apply := by
  simp only [dequeueSignal, bind_eq_bind, bind_eq_some_iff] at h
  obtain ⟨t, ht, h⟩ := h
  split at h
  · rename_i hsig
    obtain ⟨⟨pending, info⟩, hcollect, h⟩ := bind_eq_some_iff.mp h
    cases h
    obtain rfl := SigPending.eq_collected hcollect
    by_cases hq : q = p
    · subst hq
      simp [Op.mail, ht, hsig, pendings, modify_tasks_self, Mail.apply]
    · have hmail : (Op.dequeueSignal p).mail q k = .quiet := by
        simp only [Op.mail, ht]
        exact if_neg fun hcond => hq hcond.1.symm
      rw [hmail, Mail.map_quiet, pendings, pendings, modify_tasks_of_ne hq]
  · rename_i hsig
    cases h
    have hmail : (Op.dequeueSignal p).mail q k = .quiet := by
      simp only [Op.mail, ht]
      exact if_neg fun hcond => hsig hcond.2
    rw [hmail, Mail.map_quiet]

end

/-- No signal is pending. -/
def noPending : SigPending := ⟨[], SigSet.sigemptyset ⟨fun _ => 0⟩⟩

/-- The operation allocates the task at `q`. -/
def Op.creates (q : Nat) : Op → Bool
  | fork addr _ => addr.toNat == q
  | _ => false

variable {k k' : Kernel} {p q : Nat} {ret : Int}

theorem pendings_allocTask {addr ticks : Nat} {parent : Option Nat}
    (h : k.allocTask addr parent ticks = some k') :
    k'.pendings q = if addr = q then some noPending else k.pendings q := by
  have hnew : ∀ tid, pendings { k with
      tasks := Function.update k.tasks addr (some (newTask (i32 k.tid) parent ticks))
      tid := tid } q = if addr = q then some noPending else k.pendings q := by
    intro tid
    by_cases hq : addr = q
    · subst hq
      simp [pendings, newTask, noPending]
    · simp only [pendings, if_neg hq, Function.update_of_ne (Ne.symm hq)]
  rw [allocTask] at h
  split at h
  · cases h
  cases parent with
  | none =>
    cases h
    exact hnew _
  | some r =>
    cases h
    rw [pendings_modify_same]
    · exact hnew _
    simp

theorem pendings_sysFork {addr ticks : Nat} (h : k.sysFork addr ticks = some (k', ret)) :
    k'.pendings q = if addr = q then some noPending else k.pendings q := by
  simp only [sysFork, bind_eq_bind, bind_eq_some_iff] at h
  obtain ⟨c, _, k₁, halloc, current, _, proc, _, h⟩ := h
  cases h
  rw [← pendings_allocTask halloc]
  exact pendings_modify_same fun _ => rfl

theorem pendings_reap {c e : Nat} (h : k.reap c e = some k') :
    k'.pendings q = if e = q then none else k.pendings q := by
  simp only [reap, dequeueTask, bind_eq_bind, bind_eq_some_iff] at h
  obtain ⟨k₁, ⟨t, _, hdequeue⟩, h⟩ := h
  cases hdequeue
  cases h
  by_cases hq : e = q
  · subst hq
    simp [pendings]
  · have hkeep : (k.modify c fun t => { t with children := t.children.erase e }).pendings q =
        k.pendings q := pendings_modify_same fun _ => rfl
    rw [if_neg hq, ← hkeep]
    simp only [pendings, Function.update_of_ne (Ne.symm hq)]

theorem pendings_sysWaitpid {pid : Int} {options : Nat}
    (h : k.sysWaitpid pid options = some (k', ret)) :
    k'.pendings q = if k.waitpidChild pid options = some q then none else k.pendings q := by
  obtain ⟨c, t, _, _, ⟨rfl, _, hnone⟩ | ⟨e, hchild, _, hreap⟩⟩ := sysWaitpid_cases h
  · rw [hnone, if_neg fun hq => some_ne_none q hq.symm]
  · rw [hchild, pendings_reap hreap]
    simp

theorem pendings_sysSchedSetparam {pid : Int} {param : SchedParam} {ticks : Nat}
    (h : k.sysSchedSetparam pid param ticks = some (k', ret)) : k'.pendings q = k.pendings q := by
  rw [sysSchedSetparam] at h
  split at h
  · cases h
    rfl
  · obtain ⟨t, _, h⟩ := bind_eq_some_iff.mp h
    cases h
    rw [pendings_modify_same]
    · rfl
    simp

theorem pendings_reschedule {ticks : Nat} (h : k.reschedule ticks = some k') :
    k'.pendings q = k.pendings q := by
  obtain ⟨c, t, -, -, ⟨-, rfl⟩ | ⟨next, -, rfl⟩⟩ := reschedule_cases h
  · rfl
  · exact pendings_modify_same (p := next) fun _ => rfl

theorem pendings_boot {addr ticks : Nat} {kmallocs : Nat → Option SigInfo}
    (h : boot addr ticks kmallocs = some k) : k.pendings q = if q = addr
      then some noPending else none := by
  obtain ⟨-, rfl⟩ := boot_eq h
  by_cases hq : q = addr
  · subst hq
    simp [pendings, newTask, noPending]
  · simp [pendings, hq]

theorem pendings_enterStopped {signr : Nat} (h : k.enterStopped p signr = some k') :
    k'.pendings q = k.pendings q := by
  obtain ⟨c, _, h⟩ := bind_eq_some_iff.mp h
  split at h
  · cases h
  rename_i k₁ hkmalloc
  obtain rfl := congrArg Prod.snd hkmalloc
  cases h
  have hasleep : (k.modify c ({ · with state := .uninterruptible })).pendings q = k.pendings q :=
    pendings_modify_same fun _ => rfl
  rw [pendings_modify_same, ← hasleep]
  · rfl
  simp

/-- The pending signals of every task after an operation. -/
theorem Op.pendings_exec {op : Op} (h : op.exec k = some k') :
    k'.pendings q = if op.freed k = some q then none
      else if op.creates q then some noPending
      else (k.pendings q).map (op.mail q k).apply := by
  have hnone : ∀ {α : Type} {a b : α}, (if (none : Option Nat) = some q then a else b) = b :=
    if_neg fun heq => some_ne_none q heq.symm
  have hquiet : k'.pendings q = k.pendings q → op.freed k = none → op.creates q = false →
      op.mail q k = .quiet → k'.pendings q = if op.freed k = some q then none
        else if op.creates q then some noPending
        else (k.pendings q).map (op.mail q k).apply := by
    intro hsame hfreed hcreates hmail
    rw [hfreed, hcreates, hmail, hnone, Mail.map_quiet, hsame]
    rfl
  cases op with
  | fork addr ticks =>
    simp only [exec] at h
    split at h
    · obtain ⟨⟨k₁, pid⟩, hfork, rfl⟩ := map_eq_some_iff.mp h
      simpa [freed, creates, mail] using pendings_sysFork hfork
    · cases h
  | waitpid pid options =>
    obtain ⟨⟨k₁, ret⟩, hwait, rfl⟩ := map_eq_some_iff.mp h
    simpa [freed, creates, mail] using pendings_sysWaitpid hwait
  | kill pid sig =>
    obtain ⟨⟨k₁, ret⟩, hkill, rfl⟩ := map_eq_some_iff.mp h
    simpa [freed, creates, mail] using pendings_sysKill hkill
  | exit code => simpa [freed, creates] using pendings_sysExit h
  | notifyStop p => simpa [freed, creates] using pendings_notifyStop h
  | dequeueSignal p =>
    obtain ⟨⟨k₁, r⟩, hdequeue, rfl⟩ := map_eq_some_iff.mp h
    simpa [freed, creates] using pendings_dequeueSignal hdequeue
  | schedSetparam pid param ticks =>
    obtain ⟨⟨k₁, ret⟩, hset, rfl⟩ := map_eq_some_iff.mp h
    exact hquiet (pendings_sysSchedSetparam hset) rfl rfl rfl
  | reschedule ticks => exact hquiet (pendings_reschedule h) rfl rfl rfl
  | handleSignal p signr =>
    cases h
    exact hquiet (pendings_modify_same fun _ => rfl) rfl rfl rfl
  | enterStopped p signr => exact hquiet (pendings_enterStopped h) rfl rfl rfl
  | sigreturn =>
    obtain ⟨p, _, h⟩ := bind_eq_some_iff.mp h
    cases h
    exact hquiet (pendings_modify_same fun _ => rfl) rfl rfl rfl
  | sigprocmask how set =>
    obtain ⟨⟨k₁, ret⟩, hmask, rfl⟩ := map_eq_some_iff.mp h
    obtain ⟨rfl, _⟩ | ⟨p, _, rfl⟩ := sysSigprocmask_cases hmask
    · exact hquiet rfl rfl rfl rfl
    · exact hquiet (pendings_modify_same fun _ => rfl) rfl rfl rfl
  | sigaction signum act =>
    obtain ⟨⟨k₁, ret⟩, haction, rfl⟩ := map_eq_some_iff.mp h
    obtain ⟨rfl, _⟩ | ⟨p, _, _, _, rfl⟩ := sysSigaction_cases haction
    · exact hquiet rfl rfl rfl rfl
    · exact hquiet (pendings_modify_same fun _ => rfl) rfl rfl rfl

end Kernel

end Hos
