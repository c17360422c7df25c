import Hos.Process.Table

/-!
# The process tree

The nodes of a process table form a tree: every task but the root is in the list
of children of its parent and in no other, and following parents leads to the
root. The last part is what `sys_exit` relies on, since `list_head_append` does
nothing for an empty list: as long as any other task exists, `init` has a child.

A zombie has no children and does not fork, so freeing it leaves no orphan. The
steps of the table keep the tree, with `init` as its root at the front of the
run queue.
-/

namespace Hos

open Option List

/-- The nodes form a tree with root `i`. Following parents decreases a rank that
is zero at the root. -/
structure Tree (node : Nat → Option Node) (i : Nat) : Prop where
  root : ∃ n, node i = some n ∧ n.pid = 1 ∧ n.zombie = false
  parent : ∀ p n, node p = some n → p ≠ i →
    ∃ q m, n.parent = some q ∧ node q = some m ∧ p ∈ m.children
  child : ∀ q m, node q = some m → ∀ p ∈ m.children,
    p ≠ i ∧ ∃ n, node p = some n ∧ n.parent = some q
  distinct : ∀ q m, node q = some m → m.children.Nodup
  ended : ∀ p n, node p = some n → n.zombie = true → n.image = false
  childless : ∀ p n, node p = some n → n.image = false → n.children = []
  rooted : ∃ rank : Nat → Nat, rank i = 0 ∧
    ∀ p n q, node p = some n → p ≠ i → n.parent = some q → rank q < rank p

namespace Tree

variable {node node' : Nat → Option Node} {i : Nat}

theorem singleton (h : ∀ p, node p = if p = i then some ⟨1, none, [], false, true, false⟩
    else none) :
    Tree node i := by
  constructor
  · exact ⟨_, by rw [h, if_pos rfl], rfl, rfl⟩
  · grind
  · grind
  · grind
  · grind
  · grind
  · exact ⟨fun _ => 0, rfl, by grind⟩

/-- A task is no child of itself. -/
theorem child_ne (h : Tree node i) {c e : Nat} {n : Node} (hnode : node c = some n)
    (hchild : e ∈ n.children) : e ≠ c := by
  obtain ⟨rank, _, hrank⟩ := h.rooted
  obtain ⟨hroot, m, hentry, hparent⟩ := h.child c n hnode e hchild
  have hlt := hrank e m c hentry hroot hparent
  intro heq
  exact absurd (heq ▸ hlt) (Nat.lt_irrefl _)

/-- While any other task exists, the root has a child. -/
theorem root_children_ne_nil (h : Tree node i) {p : Nat} {n m : Node} (hnode : node p = some n)
    (hne : p ≠ i) (hroot : node i = some m) : m.children ≠ [] := by
  obtain ⟨rank, _, hrank⟩ := h.rooted
  generalize hr : rank p = r
  -- Following parents decreases the rank until the parent is the root.
  induction r using Nat.strongRecOn generalizing p n with
  | ind r ih =>
    obtain ⟨q, u, hparent, hq, hmem⟩ := h.parent p n hnode hne
    by_cases hqi : q = i
    · subst hqi
      cases hq.symm.trans hroot
      exact ne_nil_of_mem hmem
    · exact ih (rank q) (hr ▸ hrank p n q hnode hne hparent) hq hqi rfl

/-- The tree does not depend on whether tasks are periodic, and it may forget
that a task is a zombie. -/
theorem modify (h : Tree node i) {p : Nat} {f : Node → Node}
    (hpid : ∀ n, (f n).pid = n.pid) (hparent : ∀ n, (f n).parent = n.parent)
    (hchildren : ∀ n, (f n).children = n.children) (himage : ∀ n, (f n).image = n.image)
    (hzombie : ∀ n, (f n).zombie = true → n.zombie = true) :
    Tree (fun q => (node q).map fun n => if q = p then f n else n) i := by
  -- Every node of the new tree is the image of an old one, and the other way round.
  have hnode : ∀ q m, ((node q).map fun n => if q = p then f n else n) = some m ↔
      ∃ n, node q = some n ∧ m = if q = p then f n else n := by
    intro q m
    simp [eq_comm]
  obtain ⟨rank, hrank₀, hrank⟩ := h.rooted
  constructor
  · obtain ⟨n, hn, hone, hlive⟩ := h.root
    refine ⟨_, (hnode i _).mpr ⟨n, hn, rfl⟩, ?_⟩
    split <;> grind
  · intro q m hm hq
    obtain ⟨n, hn, rfl⟩ := (hnode q m).mp hm
    obtain ⟨r, u, hr, hu, hmem⟩ := h.parent q n hn hq
    refine ⟨r, _, ?_, (hnode r _).mpr ⟨u, hu, rfl⟩, ?_⟩ <;> split <;> grind
  · intro q m hm r hr
    obtain ⟨n, hn, rfl⟩ := (hnode q m).mp hm
    obtain ⟨hne, u, hu, hup⟩ := h.child q n hn r (by split at hr <;> grind)
    refine ⟨hne, _, (hnode r _).mpr ⟨u, hu, rfl⟩, ?_⟩
    split <;> grind
  · intro q m hm
    obtain ⟨n, hn, rfl⟩ := (hnode q m).mp hm
    have := h.distinct q n hn
    split <;> grind
  · intro q m hm
    obtain ⟨n, hn, rfl⟩ := (hnode q m).mp hm
    have := h.ended q n hn
    split <;> grind
  · intro q m hm
    obtain ⟨n, hn, rfl⟩ := (hnode q m).mp hm
    have := h.childless q n hn
    split <;> grind
  · refine ⟨rank, hrank₀, ?_⟩
    intro q m r hm hq hr
    obtain ⟨n, hn, rfl⟩ := (hnode q m).mp hm
    exact hrank q n r hn hq (by split at hr <;> grind)

section

variable {c a : Nat} {n : Node} {pid : Int}

/-- A new task without children under a task that has its memory. -/
theorem fork (h : Tree node i) (hc : node c = some n) (himage : n.image = true)
    (hfresh : node a = none) (hnew : node' a = some ⟨pid, some c, [], false, true, false⟩)
    (hgrown : node' c = some { n with children := n.children ++ [a] })
    (hother : ∀ p, p ≠ a → p ≠ c → node' p = node p) : Tree node' i := by
  have hnone : ∀ q m, node q = some m → a ∉ m.children := by
    intro q m hq hmem
    obtain ⟨_, u, hu, _⟩ := h.child q m hq a hmem
    grind
  obtain ⟨rank, hrank₀, hrank⟩ := h.rooted
  obtain ⟨root, hroot, hone, hlive⟩ := h.root
  constructor
  · by_cases hic : i = c <;> grind
  · intro p m hp hpi
    by_cases hpa : p = a
    · exact ⟨c, _, by grind, hgrown, by grind⟩
    · obtain ⟨u, hu, hup⟩ : ∃ u, node p = some u ∧ m.parent = u.parent := by
        by_cases hpc : p = c <;> grind
      obtain ⟨q, v, hq, hv, hmem⟩ := h.parent p u hu hpi
      by_cases hqc : q = c
      · exact ⟨c, _, by grind, hgrown, by grind⟩
      · exact ⟨q, v, by grind, by grind, hmem⟩
  · intro q m hq p hp
    by_cases hpa : p = a
    · grind
    · obtain ⟨u, hu, hup⟩ : ∃ u, node q = some u ∧ p ∈ u.children := by
        by_cases hqc : q = c <;> grind
      obtain ⟨hpi, v, hv, hparent⟩ := h.child q u hu p hup
      by_cases hpc : p = c
      · exact ⟨hpi, _, by rw [hpc]; exact hgrown, by grind⟩
      · exact ⟨hpi, v, by grind, hparent⟩
  · intro q m hq
    by_cases hqa : q = a
    · grind
    · by_cases hqc : q = c
      · have hnodup := h.distinct c n hc
        grind [nodup_append]
      · exact h.distinct q m (by grind)
  · intro p m hp
    by_cases hpa : p = a
    · grind
    · by_cases hpc : p = c
      · have := h.ended c n hc
        grind
      · exact h.ended p m (by grind)
  · intro p m hp
    by_cases hpa : p = a
    · grind
    · by_cases hpc : p = c
      · grind
      · exact h.childless p m (by grind)
  · refine ⟨fun p => if p = a then rank c + 1 else rank p, by grind, ?_⟩
    intro p m q hp hpi hparent
    by_cases hpa : p = a
    · grind
    · obtain ⟨u, hu, hup⟩ : ∃ u, node p = some u ∧ m.parent = u.parent := by
        by_cases hpc : p = c <;> grind
      obtain ⟨q', v, hq', hv, _⟩ := h.parent p u hu hpi
      grind

end

section

variable {c : Nat} {n : Node}

/-- A task that exits keeps no children and leaves them to the root. -/
theorem exit (h : Tree node i) (hc : node c = some n) (hci : c ≠ i)
    (hnode : ∀ p, node' p = (node p).map fun m =>
      { m with
        parent := if p ∈ n.children then some i else m.parent
        children := if p = c then [] else if p = i then m.children ++ n.children else m.children
        image := m.image && p != c
        zombie := m.zombie || p == c }) : Tree node' i := by
  obtain ⟨rank, hrank₀, hrank⟩ := h.rooted
  obtain ⟨root, hroot, hone, hlive⟩ := h.root
  have hfull : root.children ≠ [] := h.root_children_ne_nil hc hci hroot
  have hkid := h.child c n hc
  constructor
  · grind
  · intro p m hp hpi
    rw [hnode p] at hp
    obtain ⟨u, hu, rfl⟩ := map_eq_some_iff.mp hp
    by_cases hmem : p ∈ n.children
    · have := hnode i
      exact ⟨i, _, by simp [hmem], by rw [this, hroot]; rfl, by grind⟩
    · obtain ⟨q, v, hq, hv, hpv⟩ := h.parent p u hu hpi
      have := hnode q
      exact ⟨q, _, by simp [hmem, hq], by rw [this, hv]; rfl, by grind⟩
  · intro q m hq p hp
    rw [hnode q] at hq
    obtain ⟨u, hu, rfl⟩ := map_eq_some_iff.mp hq
    have hnew := hnode p
    by_cases hmem : p ∈ n.children
    · obtain ⟨hpi, v, hv, hparent⟩ := hkid p hmem
      have hold := h.child q u hu p
      refine ⟨hpi, _, by rw [hnew, hv]; rfl, ?_⟩
      grind
    · obtain ⟨hpi, v, hv, hparent⟩ := h.child q u hu p (by grind)
      exact ⟨hpi, _, by rw [hnew, hv]; rfl, by simp [hmem, hparent]⟩
  · intro q m hq
    rw [hnode q] at hq
    obtain ⟨u, hu, rfl⟩ := map_eq_some_iff.mp hq
    have hnodup := h.distinct q u hu
    by_cases hqi : q = i
    · have hdisjoint : List.Disjoint u.children n.children := by
        intro p hpu hpn
        have := h.child q u hu p hpu
        grind
      have := h.distinct c n hc
      simp only [hqi, Ne.symm hci, ↓reduceIte]
      exact nodup_append'.mpr ⟨hnodup, this, hdisjoint⟩
    · grind
  · intro p m hp
    rw [hnode p] at hp
    obtain ⟨u, hu, rfl⟩ := map_eq_some_iff.mp hp
    have := h.ended p u hu
    grind
  · intro p m hp
    rw [hnode p] at hp
    obtain ⟨u, hu, rfl⟩ := map_eq_some_iff.mp hp
    have := h.childless p u hu
    grind
  · refine ⟨rank, hrank₀, ?_⟩
    intro p m q hp hpi hparent
    rw [hnode p] at hp
    obtain ⟨u, hu, rfl⟩ := map_eq_some_iff.mp hp
    by_cases hmem : p ∈ n.children
    · obtain ⟨_, v, hv, hparent'⟩ := hkid p hmem
      grind
    · exact hrank p u q hu hpi (by grind)

end

variable {c e : Nat} {n m : Node}

/-- A zombie has no children, so freeing it leaves a tree. -/
theorem reap (h : Tree node i) (hc : node c = some n) (hchild : e ∈ n.children)
    (he : node e = some m) (hzombie : m.zombie = true) (hfreed : node' e = none)
    (hshrunk : node' c = some { n with children := n.children.erase e })
    (hother : ∀ p, p ≠ e → p ≠ c → node' p = node p) : Tree node' i := by
  have hbarren : m.children = [] := h.childless e m he (h.ended e m he hzombie)
  obtain ⟨rank, hrank₀, hrank⟩ := h.rooted
  obtain ⟨root, hroot, hone, hlive⟩ := h.root
  have hold : ∀ p u, node' p = some u → ∃ v, node p = some v ∧ u.parent = v.parent ∧
      u.image = v.image ∧ u.zombie = v.zombie ∧ u.children = v.children.erase e := by
    intro p u hp
    by_cases hpc : p = c
    · exact ⟨n, by grind, by grind⟩
    · have hnone : ∀ v, node p = some v → e ∉ v.children := by
        intro v hv hmem
        obtain ⟨_, w, hw, hparent⟩ := h.child p v hv e hmem
        have := h.child c n hc e hchild
        grind
      exact ⟨u, by grind, by grind [erase_of_not_mem]⟩
  have hkept : ∀ p v, p ≠ e → node p = some v → ∃ u, node' p = some u ∧ u.parent = v.parent ∧
      u.children = v.children.erase e := by
    intro p v hpe hp
    obtain ⟨u, hu⟩ : ∃ u, node' p = some u := by
      by_cases hpc : p = c <;> grind
    exact ⟨u, hu, by grind⟩
  constructor
  · by_cases hic : i = c <;> grind
  · intro p u hp hpi
    obtain ⟨v, hv, hparent, _⟩ := hold p u hp
    obtain ⟨q, w, hq, hw, hmem⟩ := h.parent p v hv hpi
    have hqe : q ≠ e := by grind
    have hpe : p ≠ e := by grind
    obtain ⟨x, hx, _, hxc⟩ := hkept q w hqe hw
    refine ⟨q, x, by grind, hx, ?_⟩
    rw [hxc]
    exact (mem_erase_of_ne hpe).mpr hmem
  · intro q u hq p hp
    obtain ⟨v, hv, _, _, _, hchildren⟩ := hold q u hq
    rw [hchildren] at hp
    have hpe : p ≠ e := fun heq => (h.distinct q v hv).not_mem_erase (heq ▸ hp)
    obtain ⟨hpi, w, hw, hparent⟩ := h.child q v hv p (mem_of_mem_erase hp)
    obtain ⟨x, hx, hxp, _⟩ := hkept p w hpe hw
    exact ⟨hpi, x, hx, hxp.trans hparent⟩
  · intro q u hq
    obtain ⟨v, hv, _, _, _, hchildren⟩ := hold q u hq
    rw [hchildren]
    exact (h.distinct q v hv).erase e
  · intro p u hp
    obtain ⟨v, hv, _, himage, hz, _⟩ := hold p u hp
    rw [himage, hz]
    exact h.ended p v hv
  · intro p u hp
    obtain ⟨v, hv, _, himage, _, hchildren⟩ := hold p u hp
    rw [himage, hchildren]
    intro hno
    rw [h.childless p v hv hno, erase_nil]
  · refine ⟨rank, hrank₀, ?_⟩
    intro p u q hp hpi hparent
    obtain ⟨v, hv, hsame, _⟩ := hold p u hp
    exact hrank p v q hv hpi (hsame ▸ hparent)

end Tree

namespace Table

/-- The tasks form a tree whose root is the first task of the run queue, and a
queued task is running. -/
structure Linked (T : Table) (i : Nat) : Prop where
  tree : Tree T.node i
  head : T.queue.head? = some i
  nodup : T.queue.Nodup
  bounded : ∀ p ∈ T.queue, p ≠ 0 ∧ p < 2 ^ 32
  queued : ∀ p ∈ T.queue, T.node p ≠ none
  running : ∃ c ∈ T.queue, T.curr = some c

variable {T T' : Table} {i c p : Nat} {f : Node → Node}

namespace Linked

variable (h : T.Linked i)
include h

theorem mem_init : i ∈ T.queue := mem_of_head? h.head

theorem runningProcess_one : T.runningProcess 1 = some i := by
  obtain ⟨n, hnode, hpid, _⟩ := h.tree.root
  obtain ⟨rest, hqueue⟩ : ∃ rest, T.queue = i :: rest := head?_eq_some_iff.mp h.head
  simp [runningProcess, hqueue, hnode, hpid]

theorem head_erase (hp : p ≠ i) : (T.queue.erase p).head? = some i := by
  obtain ⟨rest, hqueue⟩ : ∃ rest, T.queue = i :: rest := head?_eq_some_iff.mp h.head
  rw [hqueue, erase_cons_tail (by simpa using hp.symm), head?_cons]

/-- Behind a task other than `init` is another task. -/
theorem behind_mem (hmem : c ∈ T.queue) (hc : c ≠ i) : behind T.queue c ∈ T.queue.erase c := by
  have hperm := ringFrom_perm T.queue c
  have hinit : i ∈ ringFrom T.queue c := hperm.mem_iff.mpr
    ((mem_erase_of_ne hc.symm).mpr h.mem_init)
  rw [behind, if_pos hmem]
  cases hring : ringFrom T.queue c with
  | nil => exact absurd (hring ▸ hinit) not_mem_nil
  | cons next rest => exact hperm.mem_iff.mp (by rw [hring]; exact mem_cons_self)

theorem of_modify (htree : Tree (T.modify p f).node i) :
    (T.modify p f).Linked i where
  tree := htree
  head := h.head
  nodup := h.nodup
  bounded := h.bounded
  queued := fun q hq => map_node_ne_none.mpr (h.queued q hq)
  running := h.running

theorem fork {a : Nat} {n : Node} {pid : Int} (hcurr : T.curr = some c) (hnode : T.node c = some n)
    (himage : n.image = true) (hfresh : T.node a = none) (hnull : a ≠ 0) (haddr : a < 2 ^ 32) :
    (T.fork c a pid).Linked i := by
  have hca : c ≠ a := by grind
  have hnot : a ∉ T.queue := fun hmem => h.queued a hmem hfresh
  have hgrown : (T.fork c a pid).node c = some { n with children := n.children ++ [a] } := by
    simp [Table.fork, hca, hnode]
  have hother : ∀ p, p ≠ a → p ≠ c → (T.fork c a pid).node p = T.node p := by
    intro p hpa hpc
    simp [Table.fork, modify_node_of_ne hpc, hpa]
  have hnew : (T.fork c a pid).node a = some ⟨pid, some c, [], false, true, false⟩ := by
    simp [Table.fork]
  constructor
  · exact h.tree.fork hnode himage hfresh hnew hgrown hother
  · have hne : T.queue ≠ [] := ne_nil_of_mem h.mem_init
    rw [Table.fork, head?_append_of_ne_nil _ hne, h.head]
  · exact nodup_append'.mpr ⟨h.nodup, nodup_singleton a, by simpa using hnot⟩
  · intro p hp
    rcases mem_append.mp hp with hp | hp
    · exact h.bounded p hp
    · obtain rfl := mem_singleton.mp hp
      omega
  · intro p hp
    by_cases hpa : p = a
    · simp [hpa, hnew]
    · by_cases hpc : p = c
      · simp [hpc, hgrown]
      · rw [hother p hpa hpc]
        exact h.queued p (by grind [Table.fork])
  · exact ⟨c, mem_append_left _ (by grind [h.running]), hcurr⟩

theorem exit {j : Nat} {n : Node} (hnode : T.node c = some n) (hinit : T.runningProcess 1 ≠ some c)
    (hmove : n.children ≠ [] → T.runningProcess 1 = some j) : (T.exit c j n.children).Linked i := by
  have hci : c ≠ i := fun heq => hinit (heq ▸ h.runningProcess_one)
  obtain ⟨root, hroot, _⟩ := h.tree.root
  have hfull : root.children ≠ [] := h.tree.root_children_ne_nil hnode hci hroot
  constructor
  · apply h.tree.exit hnode hci
    intro p
    by_cases hkids : n.children = []
    · simp only [Table.exit, map_node, hkids, listHeadAppend]
      simp
    · have hji : j = i := by
        have := h.runningProcess_one
        rw [hmove hkids] at this
        exact some.inj this
      subst hji
      simp only [Table.exit, map_node, hroot, listHeadAppend]
      by_cases hpj : p = j
      · simp [hpj, hroot, hfull, hkids]
      · simp [hpj, hfull, hkids]
  · exact h.head
  · exact h.nodup
  · exact h.bounded
  · exact fun p hp => map_node_ne_none.mpr (h.queued p hp)
  · exact h.running

theorem reap {e : Nat} {n m : Node} (hcurr : T.curr = some c) (hnode : T.node c = some n)
    (hchild : e ∈ n.children) (hentry : T.node e = some m) (hzombie : m.zombie = true)
    {periodic : Bool} : (T.reap c e periodic).Linked i := by
  have hec : e ≠ c := h.tree.child_ne hnode hchild
  have hei : e ≠ i := (h.tree.child c n hnode e hchild).1
  have hother : ∀ p, p ≠ e → p ≠ c → (T.reap c e periodic).node p = T.node p := by
    intro p hpe hpc
    simp [Table.reap, dequeue, modify_node_of_ne hpc, hpe]
  have hshrunk : (T.reap c e periodic).node c = some { n with children := n.children.erase e } := by
    simp [Table.reap, dequeue, hec.symm, hnode]
  constructor
  · apply h.tree.reap hnode hchild hentry hzombie _ hshrunk hother
    simp [Table.reap]
  · exact h.head_erase hei
  · exact h.nodup.erase e
  · intro p hp
    exact h.bounded p (mem_of_mem_erase hp)
  · intro p hp
    have hpe : p ≠ e := fun heq => h.nodup.not_mem_erase (heq ▸ hp)
    by_cases hpc : p = c
    · simp [hpc, hshrunk]
    · rw [hother p hpe hpc]
      exact h.queued p (mem_of_mem_erase hp)
  · obtain ⟨c', hmem, hcurr'⟩ := h.running
    cases hcurr.symm.trans hcurr'
    exact ⟨c, (mem_erase_of_ne hec.symm).mpr hmem, hcurr⟩

theorem leave {n : Node} (hcurr : T.curr = some c) (hnode : T.node c = some n)
    (hzombie : n.zombie = true) {periodic : Bool} :
    Linked { T.dequeue c periodic with curr := some (behind T.queue c) } i := by
  have hci : c ≠ i := by
    obtain ⟨root, hroot, _, hlive⟩ := h.tree.root
    grind
  obtain ⟨c', hmem, hcurr'⟩ := h.running
  cases hcurr.symm.trans hcurr'
  constructor
  · exact h.tree
  · exact h.head_erase hci
  · exact h.nodup.erase c
  · intro p hp
    exact h.bounded p (mem_of_mem_erase hp)
  · intro p hp
    exact h.queued p (mem_of_mem_erase hp)
  · exact ⟨_, h.behind_mem hmem hci, rfl⟩

theorem step {freed : Option Nat} (hstep : Step freed T T') : T'.Linked i := by
  cases hstep with
  | quiet => exact h
  | fork pid hcurr hnode himage hfresh hnull haddr =>
    exact h.fork hcurr hnode himage hfresh hnull haddr
  | exit hcurr hnode hinit hmove => exact h.exit hnode hinit hmove
  | reap hcurr hnode hchild hentry hzombie => exact h.reap hcurr hnode hchild hentry hzombie
  | @setPeriodic _ p n periodic hmem hnode =>
    have hmodify : (T.modify p ({ · with periodic := periodic })).Linked i :=
      h.of_modify (h.tree.modify (fun _ => rfl) (fun _ => rfl) (fun _ => rfl) (fun _ => rfl)
        (fun _ hz => hz))
    exact ⟨hmodify.tree, hmodify.head, hmodify.nodup, hmodify.bounded, hmodify.queued,
      hmodify.running⟩
  | leave hcurr hnode hzombie => exact h.leave hcurr hnode hzombie
  | @switch _ next hnext =>
    refine ⟨h.tree, h.head, h.nodup, h.bounded, h.queued, next, ?_, rfl⟩
    obtain ⟨c, hmem, hcurr⟩ := h.running
    rcases hnext with hsame | hmem'
    · cases hcurr.symm.trans hsame
      exact hmem
    · exact hmem'
  | stopped c p =>
    have hrevive : ∀ {T : Table} (q : Nat), T.Linked i →
        (T.modify q ({ · with zombie := false })).Linked i := by
      intro T q hT
      exact hT.of_modify (hT.tree.modify (fun _ => rfl) (fun _ => rfl) (fun _ => rfl)
        (fun _ => rfl) (fun _ hz => absurd hz Bool.false_ne_true))
    exact hrevive p (hrevive c h)

end Linked

end Table

end Hos
