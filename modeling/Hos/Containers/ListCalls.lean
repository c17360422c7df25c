import Hos.Containers.List
import Hos.Lib.Refinement

/-!
# Sequences of calls on linked lists

The purpose of the lists of `list.c` is to be finite sequences, one for each list
that was created and not merged into another one yet. Calls are made as `list.h`
says: on lists that exist, removing nodes that are in the list, merging two
different lists, and freeing a node only after it was popped. `kmalloc` answers
NULL or memory that is not in use.

Then a call does to the sequences what it should exactly when `kmalloc` does not
fail and the call is none of those that forget one end of the list. In particular
any sequence of such calls returns what it should.
-/

namespace Hos

open Option List Function

namespace ListHeap

section

variable {h h' : ListHeap} {seqs : Sequences} {l a x : Ptr} {xs ys : List (Ptr × Ptr)}

theorem Holds.node_ne_none (hholds : h.Holds l xs) (hx : x ∈ xs.map (·.1)) : h.node x ≠ none :=
  fun hnone => hholds.notMem_of_fresh hnone hx

section

variable (hrep : h.Represents seqs)
include hrep

theorem Represents.update (hbecomes : h.Becomes h' l xs ys)
    (hown : ∀ l' zs, l' ≠ l → seqs l' = some zs → (xs.map (·.1)).Disjoint (zs.map (·.1))) :
    h'.Represents (update seqs l (some ys)) := by
  have hother : ∀ l' zs, l' ≠ l → seqs l' = some zs → (ys.map (·.1)).Disjoint (zs.map (·.1)) := by
    intro l' zs hl' hzs p hp hp'
    obtain hmem | hnone := hbecomes.fresh p hp
    · exact hown l' zs hl' hzs hmem hp'
    · exact (hrep.holds l' zs hzs).node_ne_none hp' hnone
  constructor
  · intro l' zs hzs
    by_cases hl' : l' = l
    · subst hl'
      rw [update_self] at hzs
      cases hzs
      exact hbecomes.holds
    · rw [update_of_ne hl'] at hzs
      refine (hrep.holds l' zs hzs).congr (fun p hp => ?_) (hbecomes.within.lists l' hl')
      exact hbecomes.within.nodes p (fun hmem => hown l' zs hl' hzs hmem hp)
        fun hmem => hother l' zs hl' hzs hmem hp
  · intro l₁ l₂ zs₁ zs₂ hne h₁ h₂
    by_cases hl₁ : l₁ = l
    · subst hl₁
      rw [update_self] at h₁
      cases h₁
      rw [update_of_ne hne.symm] at h₂
      exact hother l₂ zs₂ hne.symm h₂
    · rw [update_of_ne hl₁] at h₁
      by_cases hl₂ : l₂ = l
      · subst hl₂
        rw [update_self] at h₂
        cases h₂
        exact fun p hp hp' => hother l₁ zs₁ hl₁ h₁ hp' hp
      · rw [update_of_ne hl₂] at h₂
        exact hrep.disjoint l₁ l₂ zs₁ zs₂ hne h₁ h₂

/-- The nodes of a list are in no other one. -/
theorem Represents.owns (hl : seqs l = some xs) :
    ∀ l' zs, l' ≠ l → seqs l' = some zs → (xs.map (·.1)).Disjoint (zs.map (·.1)) :=
  fun l' zs hne hzs => hrep.disjoint l l' xs zs hne.symm hl hzs

/-- A list that is merged into another one is no list any more. -/
theorem Represents.freeList :
    (h.freeList l).Represents (Function.update seqs l none) := by
  have hkept : ∀ {l' zs}, Function.update seqs l none l' = some zs → l' ≠ l ∧
      seqs l' = some zs := by
    intro l' zs hzs
    by_cases hl' : l' = l
    · subst hl'
      rw [update_self] at hzs
      cases hzs
    · rw [update_of_ne hl'] at hzs
      exact ⟨hl', hzs⟩
  constructor
  · intro l' zs hzs
    obtain ⟨hl', hzs⟩ := hkept hzs
    refine (hrep.holds l' zs hzs).congr (fun p _ => rfl) ?_
    rw [freeList_list, if_neg hl']
  · intro l₁ l₂ zs₁ zs₂ hne h₁ h₂
    exact hrep.disjoint l₁ l₂ zs₁ zs₂ hne (hkept h₁).2 (hkept h₂).2

theorem Represents.freeNode (hx : ∀ l xs, seqs l = some xs → x ∉ xs.map (·.1)) :
    (h.freeNode x).Represents seqs := by
  refine ⟨fun l xs hxs => (hrep.holds l xs hxs).congr (fun p hp => ?_) rfl, hrep.disjoint⟩
  have hne : p ≠ x := by
    rintro rfl
    exact hx l xs hxs hp
  rw [freeNode_node, if_neg hne]

end

/-- The list that `list_create` makes. -/
theorem becomes_setList_empty (ha : a ≠ null) : h.Becomes (h.setList a ⟨null, null, 0⟩) a []
    [] := by
  refine ⟨⟨ha, Links.Ring.nil_iff.mpr ?_, by simp, by simp⟩, Within.refl.setList, by simp⟩
  simp [links]

theorem Holds.list_nil (hholds : h.Holds l []) : h.list l = some ⟨null, null, 0⟩ := by
  obtain ⟨hnext, hprev⟩ := Links.Ring.nil_iff.mp hholds.ring
  rw [hholds.list_eq, hnext, hprev]
  rfl

end

section

variable {h : ListHeap} {t s : Ptr} {xs ys : List (Ptr × Ptr)}

theorem freeList_setList {u : ListT} (hne : t ≠ s) :
    (h.setList t u).freeList s = (h.freeList s).setList t u := by
  simp [freeList, setList, update_comm hne]

theorem setNode_eq_self {p : Ptr} {n : ListNode} (hnode : h.node p = some n) :
    h.setNode p n = h := by
  simp [setNode, ← hnode]

theorem setList_eq_self {u : ListT} (hlist : h.list t = some u) : h.setList t u = h := by
  simp [setList, ← hlist]

/-- The list that takes the ends of another one takes its nodes. -/
theorem links_setList_ends (n : Nat) :
    ((h.freeList s).setList t ⟨(h.links s).next null, (h.links s).prev null, n⟩).links t =
      h.links s := by
  rw [links_setList]
  simp only [Links.setNext, Links.setPrev, links, freeList_node, Links.mk.injEq, funext_iff,
    update_apply]
  grind

theorem listMerge_of_empty (ht : h.Holds t []) (hs : h.Holds s ys) (hne : t ≠ s) :
    ∃ h', h.listMerge t s = some h' ∧ (h.freeList s).Becomes h' t ys ys := by
  have hlist := ht.list_nil
  have hsource := hs.list_eq
  have hlt := u32_of_lt hs.length_lt
  refine ⟨(h.freeList s).setList t ⟨(h.links s).next null, (h.links s).prev null, ys.length⟩,
    ?_, ⟨⟨ht.addr, ?_, hs.live, ?_⟩, Within.refl.setList, fun _ hy => .inl hy⟩⟩
  · by_cases hend : (h.links s).prev null = null
    · simp [listMerge, listDealloc, readList, writeList, ht.addr, hs.addr, hlist, hsource,
        hne.symm, hend, freeList_setList hne, hlt]
    · simp [listMerge, listDealloc, readList, writeList, ht.addr, hs.addr, hlist, hsource,
        hne.symm, hend, freeList_setList hne, hlt]
  · rw [links_setList_ends]
    exact hs.ring
  · simp

theorem listMerge_empty {x w : Ptr} (ht : h.Holds t (xs ++ [(x, w)])) (hs : h.Holds s [])
    (hne : t ≠ s) : h.listMerge t s = some (h.freeList s) := by
  have hlist := ht.list_eq
  have hmem : (x, w) ∈ xs ++ [(x, w)] := by simp
  have hnode := ht.node_eq hmem
  obtain ⟨hlast, hnext⟩ := ht.tail_eq
  rw [hnext] at hnode
  rw [hlast, ← u32_of_lt ht.length_lt, length_append, length_singleton] at hlist
  simp [listMerge, listDealloc, readNode, readList, writeNode, writeList, ht.addr, hs.addr,
    hs.list_nil, hne.symm, ht.ne_null hmem, hlist, hnode, setNode_eq_self hnode,
    setList_eq_self hlist]

/-- Merging a filled list leaves its first node without a previous one. -/
theorem listMerge_breaks {x v y w : Ptr} {h' : ListHeap} (ht : h.Holds t (xs ++ [(x, v)]))
    (hs : h.Holds s ((y, w) :: ys)) (hne : t ≠ s) (hxy : y ≠ x)
    (hmerge : h.listMerge t s = some h') :
    ¬h'.Holds t (xs ++ [(x, v)] ++ (y, w) :: ys) := by
  intro hholds
  have hmem : (x, v) ∈ xs ++ [(x, v)] := by simp
  have hmem' : (y, w) ∈ (y, w) :: ys := mem_cons_self
  have hx := ht.ne_null hmem
  obtain ⟨hfirst, hprev⟩ := hs.head_eq
  have hend : (h.links s).prev null ≠ null := by
    intro heq
    have hback := hs.ring.next_prev
    rw [heq, hfirst] at hback
    exact hs.ne_null hmem' hback
  have hnode : h'.node y = h.node y := by
    simp [listMerge, listDealloc, readNode, readList, writeNode, writeList, ht.addr, hs.addr,
      hne.symm, hx, ht.list_eq, hs.list_eq, ht.tail_eq.1, hend, ht.node_eq hmem] at hmerge
    simp [← hmerge, hxy]
  have hback : (h'.links t).prev y = x := by
    have hpath := hholds.ring.path
    rw [append_assoc, map_append] at hpath
    exact (Links.Path.append_iff.mp hpath).2.1.2
  have hmem'' : (y, w) ∈ xs ++ [(x, v)] ++ (y, w) :: ys := by simp
  have hkept := (hholds.node_eq hmem'').symm.trans (hnode.trans (hs.node_eq hmem'))
  rw [hback, hprev] at hkept
  exact hx (congrArg ListNode.prev (some.inj hkept))

end

section

variable {h h' : ListHeap} {l a v x r : Ptr} {xs : List (Ptr × Ptr)}

theorem Holds.list_single (hholds : h.Holds l [(x, v)]) :
    x ≠ null ∧ h.list l = some ⟨x, x, 1⟩ ∧ h.node x = some ⟨v, null, null⟩ := by
  have hmem : (x, v) ∈ [(x, v)] := mem_singleton_self _
  obtain ⟨⟨hfirst, hprev⟩, hnext, hlast⟩ := hholds.ring.path
  have hnode := hholds.node_eq hmem
  have hlist := hholds.list_eq
  rw [hprev, hnext] at hnode
  rw [hfirst, hlast] at hlist
  exact ⟨hholds.ne_null hmem, hlist, hnode⟩

theorem listInsertFront_empty (hholds : h.Holds l []) (ha : a ≠ null) :
    h.listInsertFront l v a = none := by
  simp [listInsertFront, nodeAlloc, readNode, readList, writeNode, hholds.addr, ha, hholds.list_nil]

/-- Taking the only node leaves the other end of the list. -/
theorem single_breaks (hholds : h.Holds l [(x, v)]) (htake : h.listRemoveFront l = some (h', r) ∨
    h.listRemoveBack l = some (h', r) ∨ h.listPopBack l = some (h', r)) : ¬h'.Holds l [] := by
  intro hempty
  obtain ⟨hx, hlist, hnode⟩ := hholds.list_single
  have hnil := hempty.list_nil
  obtain htake | htake | htake := htake
  all_goals
    simp [listRemoveFront, listRemoveBack, listPopBack, nodeDealloc, readNode, readList, writeList,
      hholds.addr, hx, hlist, hnode] at htake
    simp [← htake.1, hx] at hnil

/-- The new first node is still preceded by the one that is popped. -/
theorem listPopFront_breaks (hholds : h.Holds l ((x, v) :: xs))
    (hpop : h.listPopFront l = some (h', r)) : ¬h'.Holds l xs := by
  intro hrest
  have hmem : (x, v) ∈ (x, v) :: xs := mem_cons_self
  have hx := hholds.ne_null hmem
  simp [listPopFront, readNode, readList, writeList, hholds.addr, hholds.list_eq, hholds.head_eq.1,
    hx, hholds.node_eq hmem] at hpop
  have hprevs : (h'.links l).prev = (h.links l).prev := by
    funext p
    rw [← hpop.1, links_setList, Links.setPrev_prev, Links.setNext_prev]
    split
    · rename_i hnull
      rw [hnull]
    · rfl
  have hback := hrest.ring.path.prev_head
  rw [hprevs] at hback
  exact hx (hholds.ring.path.2.prev_head.symm.trans hback)

end

/-- `kmalloc` answers NULL or an address that is not in use. -/
def Fresh (h : ListHeap) (a : Ptr) : Prop := a = null ∨ h.node a = none ∧ h.list a = none

end ListHeap

/-- A call of one of the functions of `list.c`. The last argument of the calls that
allocate is what `kmalloc` answers. -/
inductive ListCall where
  | create (list : Ptr)
  | insertFront (list value node : Ptr)
  | insertBack (list value node : Ptr)
  | removeNode (list node : Ptr)
  | removeFront (list : Ptr)
  | removeBack (list : Ptr)
  | popFront (list : Ptr)
  | popBack (list : Ptr)
  | merge (target source : Ptr)
  /-- The caller frees a node that was popped. -/
  | release (node : Ptr)

namespace ListCall

open ListHeap

/-- The call on the heap, with what it returns; `void` is NULL here. -/
def exec : ListCall → ListHeap → Option (ListHeap × Ptr)
  | create list, h => h.listCreate list
  | insertFront list value node, h => h.listInsertFront list value node
  | insertBack list value node, h => h.listInsertBack list value node
  | removeNode list node, h => h.listRemoveNode list node
  | removeFront list, h => h.listRemoveFront list
  | removeBack list, h => h.listRemoveBack list
  | popFront list, h => h.listPopFront list
  | popBack list, h => h.listPopBack list
  | merge target source, h => (h.listMerge target source).map fun h' => (h', null)
  | release node, h => (h.nodeDealloc node).map fun h' => (h', null)

/-- The sequence of one list changes. -/
def edit (seqs : Sequences) (l : Ptr) (f : List (Ptr × Ptr) → List (Ptr × Ptr)) : Sequences :=
  Function.update seqs l ((seqs l).map f)

/-- What the call should do to the sequences, and what it should return. -/
def spec : ListCall → Sequences → Sequences × Ptr
  | create list, seqs => (Function.update seqs list (some []), list)
  | insertFront list value node, seqs => (edit seqs list ((node, value) :: ·), node)
  | insertBack list value node, seqs => (edit seqs list (· ++ [(node, value)]), node)
  | removeNode list node, seqs => (edit seqs list (·.eraseP (·.1 = node)),
      (((seqs list).bind (·.find? (·.1 = node))).map (·.2)).getD null)
  | removeFront list, seqs => (edit seqs list List.tail,
      (((seqs list).bind List.head?).map (·.2)).getD null)
  | removeBack list, seqs => (edit seqs list List.dropLast,
      (((seqs list).bind List.getLast?).map (·.2)).getD null)
  | popFront list, seqs => (edit seqs list List.tail,
      (((seqs list).bind List.head?).map (·.1)).getD null)
  | popBack list, seqs => (edit seqs list List.dropLast,
      (((seqs list).bind List.getLast?).map (·.1)).getD null)
  | merge target source, seqs =>
    (Function.update (edit seqs target (· ++ (seqs source).getD [])) source none, null)
  | release _, seqs => (seqs, null)

/-- The call is one that `list.h` allows. -/
def Fits : ListCall → ListHeap → Sequences → Prop
  | create list, h, _ => h.Fresh list
  | insertFront list _ node, h, seqs => seqs list ≠ none ∧ h.Fresh node
  | insertBack list _ node, h, seqs => seqs list ≠ none ∧ h.Fresh node
  | removeNode list node, _, seqs => ∃ xs, seqs list = some xs ∧ node ∈ xs.map (·.1)
  | removeFront list, _, seqs => seqs list ≠ none
  | removeBack list, _, seqs => seqs list ≠ none
  | popFront list, _, seqs => seqs list ≠ none
  | popBack list, _, seqs => seqs list ≠ none
  | merge target source, _, seqs => target ≠ source ∧ seqs target ≠ none ∧ seqs source ≠ none
  | release node, h, seqs => h.readNode node ≠ none ∧
      ∀ l xs, seqs l = some xs → node ∉ xs.map (·.1)

/-- `kmalloc` has an answer, and the call does not forget one end of the list. -/
def Safe : ListCall → Sequences → Prop
  | create list, _ => list ≠ null
  | insertFront list _ node, seqs => node ≠ null ∧ seqs list ≠ some []
  | insertBack _ _ node, _ => node ≠ null
  | removeNode list _, seqs => ∀ x, seqs list ≠ some [x]
  | removeFront list, seqs => ∀ x, seqs list ≠ some [x]
  | removeBack list, seqs => ∀ x, seqs list ≠ some [x]
  | popFront list, seqs => seqs list = some []
  | popBack list, seqs => ∀ x, seqs list ≠ some [x]
  | merge target source, seqs => seqs target = some [] ∨ seqs source = some []
  | release _, _ => True

section

variable {h h' : ListHeap} {seqs : Sequences} {call : ListCall} {l a r v x : Ptr}
  {xs ys : List (Ptr × Ptr)}

/-- A call that does to one list what it should. -/
theorem refines_of_becomes (hrep : h.Represents seqs) (hl : seqs l = some xs)
    (hexec : call.exec h = some (h', r)) (hbecomes : h.Becomes h' l xs ys)
    (hspec : call.spec seqs = (update seqs l (some ys), r)) :
    Refines exec spec Represents call h seqs := by
  rw [Refines, hspec]
  exact ⟨h', hexec, hrep.update hbecomes (hrep.owns hl)⟩

/-- A call that does not do to one list what it should. -/
theorem not_refines_of_breaks {seqs' : Sequences}
    (hspec : call.spec seqs = (update seqs' l (some ys), r))
    (hbreaks : ∀ h', call.exec h = some (h', r) → ¬h'.Holds l ys) :
    ¬Refines exec spec Represents call h seqs := by
  rw [Refines, hspec]
  rintro ⟨h', hexec, hrep⟩
  exact hbreaks h' hexec (hrep.holds l ys (update_self ..))

theorem edit_eq (hl : seqs l = some xs) (f : List (Ptr × Ptr) → List (Ptr × Ptr)) :
    edit seqs l f = update seqs l (some (f xs)) := by
  rw [edit, hl]
  rfl

/-- Nothing is done to an empty list. -/
theorem becomes_self (hholds : h.Holds l xs) : h.Becomes h l xs xs :=
  ⟨hholds, Within.refl, fun _ hy => .inl hy⟩

theorem not_refines_of_none (hexec : call.exec h = none) :
    ¬Refines exec spec Represents call h seqs := by
  rintro ⟨h', hsome, _⟩
  rw [hexec] at hsome
  cases hsome

section

variable (hrep : h.Represents seqs)
include hrep

theorem create_refines_iff :
    Refines exec spec Represents (create a) h seqs ↔ a ≠ null := by
  by_cases ha : a = null
  · exact iff_of_false (not_refines_of_none (if_pos ha)) (not_not.mpr ha)
  · refine iff_of_true ⟨_, if_neg ha, hrep.update (becomes_setList_empty ha) ?_⟩ ha
    simp

theorem insertBack_refines_iff (hl : seqs l = some xs) (hfresh : h.Fresh a) :
    Refines exec spec Represents (insertBack l v a) h seqs ↔ a ≠ null := by
  by_cases ha : a = null
  · have hexec : (insertBack l v a).exec h = none := by simp [exec, listInsertBack, nodeAlloc, ha]
    exact iff_of_false (not_refines_of_none hexec) (not_not.mpr ha)
  · obtain ⟨h', hexec, hbecomes⟩ := listInsertBack_becomes (v := v) ha (hfresh.resolve_left ha).1
      (hrep.holds l xs hl)
    refine iff_of_true (refines_of_becomes hrep hl hexec hbecomes ?_) ha
    rw [spec, edit_eq hl]

theorem insertFront_refines_iff (hl : seqs l = some xs) (hfresh : h.Fresh a) :
    Refines exec spec Represents (insertFront l v a) h seqs ↔ a ≠ null ∧ seqs l ≠ some [] := by
  rw [hl]
  by_cases ha : a = null
  · have hexec : (insertFront l v a).exec h = none := by simp [exec, listInsertFront, nodeAlloc, ha]
    exact iff_of_false (not_refines_of_none hexec) fun hsafe => hsafe.1 ha
  cases xs with
  | nil =>
    have hexec := listInsertFront_empty (v := v) (hrep.holds l [] hl) ha
    exact iff_of_false (not_refines_of_none hexec) fun hsafe => hsafe.2 rfl
  | cons y ys =>
    obtain ⟨h', hexec, hbecomes⟩ := listInsertFront_becomes (v := v) ha (hfresh.resolve_left ha).1
      (hrep.holds l _ hl)
    refine iff_of_true (refines_of_becomes hrep hl hexec hbecomes ?_) ⟨ha, by simp⟩
    rw [spec, edit_eq hl]

theorem removeFront_refines_iff (hl : seqs l = some xs) :
    Refines exec spec Represents (removeFront l) h seqs ↔ ∀ x, xs ≠ [x] := by
  have hholds := hrep.holds l xs hl
  have hspec : (removeFront l).spec seqs = (update seqs l (some xs.tail),
      (xs.head?.map (·.2)).getD null) := by
    rw [spec, edit_eq hl, hl]
    rfl
  cases xs with
  | nil =>
    have hexec : (removeFront l).exec h = some (h, null) := by
      simp [exec, listRemoveFront, readList, hholds.addr, hholds.list_nil]
    exact iff_of_true (refines_of_becomes hrep hl hexec (becomes_self hholds) hspec) (by simp)
  | cons x zs =>
    cases zs with
    | nil =>
      refine iff_of_false (not_refines_of_breaks hspec fun h' hexec => ?_) fun hsafe =>
        hsafe x rfl
      exact single_breaks hholds (.inl hexec)
    | cons y zs =>
      obtain ⟨h', hexec, hbecomes⟩ := listRemoveFront_becomes hholds
      exact iff_of_true (refines_of_becomes hrep hl hexec hbecomes hspec) (by simp)

end

/-- A list has no node, one node, or two last ones. -/
theorem exists_last_two (xs : List (Ptr × Ptr)) :
    xs = [] ∨ (∃ x, xs = [x]) ∨ ∃ ys y x, xs = ys ++ [y] ++ [x] := by
  obtain rfl | ⟨ys, x, rfl⟩ := eq_nil_or_concat' xs
  · exact .inl rfl
  · obtain rfl | ⟨zs, y, rfl⟩ := eq_nil_or_concat' ys
    · simp
    · exact .inr (.inr ⟨zs, y, x, rfl⟩)

theorem not_last_two_single {y z x : Ptr × Ptr} : ys ++ [y] ++ [x] ≠ [z] := by
  intro heq
  have hlength := congrArg length heq
  simp at hlength

section

variable (hrep : h.Represents seqs) (hl : seqs l = some xs)
include hrep hl

/-- A call that takes the last node, which it can do when there is another one. -/
theorem back_refines_iff {g : Ptr × Ptr → Ptr} (hspec : call.spec seqs = (edit seqs l dropLast,
      (((seqs l).bind getLast?).map g).getD null))
    (hempty : h.Holds l [] → call.exec h = some (h, null))
    (hsingle : ∀ x h' r, h.Holds l [x] → call.exec h = some (h', r) → ¬h'.Holds l [])
    (hlast : ∀ ys y x, h.Holds l (ys ++ [y] ++ [x]) →
      ∃ h', call.exec h = some (h', g x) ∧ h.Becomes h' l (ys ++ [y] ++ [x]) (ys ++ [y])) :
    Refines exec spec Represents call h seqs ↔ ∀ x, xs ≠ [x] := by
  have hholds := hrep.holds l xs hl
  rw [edit_eq hl, hl, bind_some] at hspec
  obtain rfl | ⟨x, rfl⟩ | ⟨ys, y, x, rfl⟩ := exists_last_two xs
  · exact iff_of_true (refines_of_becomes hrep hl (hempty hholds) (becomes_self hholds) hspec)
      (by simp)
  · exact iff_of_false (not_refines_of_breaks hspec fun h' => hsingle x h' _ hholds) fun hsafe =>
      hsafe x rfl
  · obtain ⟨h', hexec, hbecomes⟩ := hlast ys y x hholds
    rw [dropLast_concat, getLast?_concat] at hspec
    exact iff_of_true (refines_of_becomes hrep hl hexec hbecomes hspec) fun z => not_last_two_single

theorem popBack_refines_iff : Refines exec spec Represents (popBack l) h seqs ↔ ∀ x, xs ≠ [x] := by
  refine back_refines_iff hrep hl rfl (fun hholds => ?_)
    (fun _ _ _ hholds hexec => single_breaks hholds (.inr (.inr hexec))) fun ys y x hholds => ?_
  · simp [exec, listPopBack, readList, hholds.addr, hholds.list_nil]
  · obtain ⟨h', hexec, _, hbecomes⟩ := listPopBack_becomes hholds
    exact ⟨h', hexec, hbecomes⟩

theorem removeBack_refines_iff : Refines exec spec Represents (removeBack l) h seqs ↔ ∀ x,
    xs ≠ [x] := by
  refine back_refines_iff hrep hl rfl (fun hholds => ?_)
    (fun _ _ _ hholds hexec => single_breaks hholds (.inr (.inl hexec))) fun ys y x hholds => ?_
  · simp [exec, listRemoveBack, readList, hholds.addr, hholds.list_nil]
  · obtain ⟨h', _, hexec, hbecomes⟩ := listPopBack_becomes hholds
    have hgone : x.1 ∉ (ys ++ [y]).map (·.1) := by
      have hnodup := (nodup_cons.mp hholds.ring.nodup).2
      rw [map_append] at hnodup
      exact fun hmem => (nodup_append.mp hnodup).2.2 _ hmem _ (by simp) rfl
    exact ⟨_, hexec, hbecomes.freeNode (by simp) hgone⟩

theorem popFront_refines_iff : Refines exec spec Represents (popFront l) h seqs ↔ xs = [] := by
  have hholds := hrep.holds l xs hl
  have hspec : (popFront l).spec seqs = (update seqs l (some xs.tail),
      (xs.head?.map (·.1)).getD null) := by
    rw [spec, edit_eq hl, hl]
    rfl
  cases xs with
  | nil =>
    have hexec : (popFront l).exec h = some (h, null) := by
      simp [exec, listPopFront, readList, hholds.addr, hholds.list_nil]
    exact iff_of_true (refines_of_becomes hrep hl hexec (becomes_self hholds) hspec) rfl
  | cons x zs =>
    refine iff_of_false (not_refines_of_breaks hspec fun h' hexec => ?_) (cons_ne_nil x zs)
    exact listPopFront_breaks hholds hexec

end

theorem refines_congr {call' : ListCall} (hexec : call.exec h = call'.exec h)
    (hspec : call.spec seqs = call'.spec seqs) :
    Refines exec spec Represents call h seqs ↔ Refines exec spec Represents call' h seqs := by
  rw [Refines, Refines, hexec, hspec]

/-- Looking for a node finds the one that is to be removed. -/
theorem find_split (zs : List (Ptr × Ptr)) (hys : x ∉ ys.map (·.1)) :
    (ys ++ (x, v) :: zs).eraseP (·.1 = x) = ys ++ zs ∧
      (ys ++ (x, v) :: zs).find? (·.1 = x) = some (x, v) := by
  have hne : ∀ y ∈ ys, ¬decide (y.1 = x) = true := by
    intro y hy heq
    exact hys (of_decide_eq_true heq ▸ mem_map_of_mem hy)
  constructor
  · rw [eraseP_append_right _ hne, eraseP_cons_of_pos (by simp)]
  · rw [find?_append, find?_eq_none.mpr hne, find?_cons_of_pos (by simp)]
    rfl

theorem removeNode_refines_iff (hrep : h.Represents seqs) (hl : seqs l = some xs)
    (hx : x ∈ xs.map (·.1)) :
    Refines exec spec Represents (removeNode l x) h seqs ↔ ∀ y, xs ≠ [y] := by
  have hholds := hrep.holds l xs hl
  obtain ⟨⟨x, v⟩, hmem, rfl⟩ := mem_map.mp hx
  obtain ⟨ys, zs, rfl⟩ := append_of_mem hmem
  have hnodup := (nodup_cons.mp hholds.ring.nodup).2
  rw [map_append, map_cons] at hnodup
  have hys : x ∉ ys.map (·.1) := fun hmem' =>
    (nodup_append.mp hnodup).2.2 x hmem' x mem_cons_self rfl
  obtain ⟨herase, hfind⟩ := find_split (v := v) zs hys
  have hspec : (removeNode l x).spec seqs = (update seqs l (some (ys ++ zs)), v) := by
    simp [spec, edit_eq hl, hl, herase, hfind]
  obtain rfl | ⟨ps, p, rfl⟩ := eq_nil_or_concat' ys
  · -- the first node
    have hexec : (removeNode l x).exec h = (removeFront l).exec h := by
      simp [exec, listRemoveNode, readList, hholds.addr, hholds.list_eq, hholds.head_eq.1]
    rw [refines_congr hexec (hspec.trans ?_), removeFront_refines_iff hrep hl]
    simp [spec, edit_eq hl, hl]
  · cases zs with
    | nil =>
      -- the last of several nodes
      have hexec : (removeNode l x).exec h = (removeBack l).exec h := by
        obtain ⟨_, _, _, hback, _⟩ := hholds.last_two
        have hp : p.1 ≠ null := hholds.ne_null (v := p.2) (by simp)
        have hfirst : (h.links l).next null ≠ x := by
          intro heq
          have hprev := hholds.ring.prev_next
          rw [heq, hback] at hprev
          exact hp hprev
        simp [exec, listRemoveNode, readList, hholds.addr, hholds.list_eq, hfirst, hholds.tail_eq.1]
      rw [refines_congr hexec (hspec.trans ?_), removeBack_refines_iff hrep hl]
      simp [spec, edit_eq hl, hl]
    | cons z zs =>
      obtain ⟨h', hexec, hbecomes⟩ := listRemoveNode_becomes hholds
      refine iff_of_true (refines_of_becomes hrep hl hexec hbecomes hspec) ?_
      intro y heq
      have hlength := congrArg length heq
      simp only [length_append, length_cons, length_nil] at hlength
      omega

theorem merge_refines_iff {t s : Ptr} (hrep : h.Represents seqs) (ht : seqs t = some xs)
    (hs : seqs s = some ys) (hne : t ≠ s) :
    Refines exec spec Represents (merge t s) h seqs ↔ xs = [] ∨ ys = [] := by
  have htarget := hrep.holds t xs ht
  have hsource := hrep.holds s ys hs
  have hspec : (merge t s).spec seqs =
      (Function.update (Function.update seqs s none) t (some (xs ++ ys)), null) := by
    rw [spec, edit_eq ht, hs, update_comm hne]
    rfl
  by_cases hxs : xs = []
  · subst hxs
    obtain ⟨h', hexec, hbecomes⟩ := listMerge_of_empty htarget hsource hne
    refine iff_of_true ?_ (.inl rfl)
    rw [Refines, hspec]
    refine ⟨h', by simp [exec, hexec], hrep.freeList.update hbecomes ?_⟩
    intro l' zs _ hzs
    have hl' : l' ≠ s := by
      rintro rfl
      simp at hzs
    rw [update_of_ne hl'] at hzs
    exact hrep.disjoint s l' ys zs hl'.symm hs hzs
  obtain ⟨xs, x, rfl⟩ := (eq_nil_or_concat' xs).resolve_left hxs
  cases ys with
  | nil =>
    refine iff_of_true ?_ (.inr rfl)
    have hsame : Function.update (Function.update seqs s none) t (some (xs ++ [x] ++ [])) =
        Function.update seqs s none := by
      rw [append_nil, ← ht, ← update_of_ne hne none seqs]
      simp
    rw [Refines, hspec, hsame]
    exact ⟨h.freeList s, by simp [exec, listMerge_empty htarget hsource hne], hrep.freeList⟩
  | cons y ys =>
    refine iff_of_false (not_refines_of_breaks hspec fun h' hexec => ?_) (by simp)
    obtain ⟨h'', hmerge, heq⟩ := map_eq_some_iff.mp hexec
    obtain rfl := congrArg Prod.fst heq
    refine listMerge_breaks htarget hsource hne (fun hxy => ?_) hmerge
    have hmem : x.1 ∈ (xs ++ [x]).map (·.1) := by simp
    have hmem' : x.1 ∈ (y :: ys).map (·.1) := by simp [hxy]
    exact hrep.disjoint t s _ _ hne ht hs hmem hmem'

theorem release_refines (hrep : h.Represents seqs) (hlive : h.readNode x ≠ none)
    (hx : ∀ l xs, seqs l = some xs → x ∉ xs.map (·.1)) : Refines exec spec Represents
      (release x) h seqs := by
  obtain ⟨n, hn⟩ := ne_none_iff_exists'.mp hlive
  exact ⟨h.freeNode x, by simp [exec, spec, nodeDealloc, hn], hrep.freeNode hx⟩

theorem refines_iff (hrep : h.Represents seqs) (hfits : call.Fits h seqs) :
    Refines exec spec Represents call h seqs ↔ call.Safe seqs := by
  cases call with
  | create a => exact create_refines_iff hrep
  | insertFront l v a =>
    obtain ⟨xs, hl⟩ := ne_none_iff_exists'.mp hfits.1
    exact insertFront_refines_iff hrep hl hfits.2
  | insertBack l v a =>
    obtain ⟨xs, hl⟩ := ne_none_iff_exists'.mp hfits.1
    exact insertBack_refines_iff hrep hl hfits.2
  | removeNode l x =>
    obtain ⟨xs, hl, hx⟩ := hfits
    simp only [removeNode_refines_iff hrep hl hx, Safe, hl, Ne, some.injEq]
  | removeFront l =>
    obtain ⟨xs, hl⟩ := ne_none_iff_exists'.mp hfits
    simp only [removeFront_refines_iff hrep hl, Safe, hl, Ne, some.injEq]
  | removeBack l =>
    obtain ⟨xs, hl⟩ := ne_none_iff_exists'.mp hfits
    simp only [removeBack_refines_iff hrep hl, Safe, hl, Ne, some.injEq]
  | popFront l =>
    obtain ⟨xs, hl⟩ := ne_none_iff_exists'.mp hfits
    simp only [popFront_refines_iff hrep hl, Safe, hl, some.injEq]
  | popBack l =>
    obtain ⟨xs, hl⟩ := ne_none_iff_exists'.mp hfits
    simp only [popBack_refines_iff hrep hl, Safe, hl, Ne, some.injEq]
  | merge t s =>
    obtain ⟨hne, ht, hs⟩ := hfits
    obtain ⟨xs, ht⟩ := ne_none_iff_exists'.mp ht
    obtain ⟨ys, hs⟩ := ne_none_iff_exists'.mp hs
    simp only [merge_refines_iff hrep ht hs hne, Safe, ht, hs, some.injEq]
  | release x => exact iff_of_true (release_refines hrep hfits.1 hfits.2) trivial

theorem represents_empty : ListHeap.empty.Represents fun _ => none := by
  constructor
  · simp
  simp

/-- Every sequence of calls that are allowed and safe returns what it should and
leaves every list the sequence it should be, from the empty heap and from every
other one that is in order. A call that is allowed does so exactly when it is
safe. -/
theorem list_refines (h : ListHeap) (seqs : Sequences) (hrep : h.Represents seqs) :
    (∀ calls : List ListCall, Admitted exec spec (fun call h seqs => call.Fits h seqs ∧
      call.Safe seqs) calls h seqs →
      ∃ h', execAll exec calls h = some (h', (specAll spec calls seqs).2) ∧
        h'.Represents (specAll spec calls seqs).1) ∧
      ∀ call : ListCall, call.Fits h seqs → (Refines exec spec Represents call h seqs ↔
        call.Safe seqs) := by
  refine ⟨fun calls hadmitted => ?_, fun call hfits => refines_iff hrep hfits⟩
  refine refines_all (fun call h seqs hrep hok => ?_) hrep hadmitted
  exact (refines_iff hrep hok.1).mpr hok.2

end

/-- A list that is filled, and emptied down to one node. -/
def fillList : List ListCall :=
  [create (ptr 0x100), insertBack (ptr 0x100) (ptr 0x501) (ptr 0x200),
    insertBack (ptr 0x100) (ptr 0x502) (ptr 0x210), removeFront (ptr 0x100)]

/-- The calls are safe, and the second value is left. -/
theorem list_refines_fill :
    ∃ h, execAll exec fillList ListHeap.empty = some
      (h, [ptr 0x100, ptr 0x200, ptr 0x210, ptr 0x501]) ∧
      h.Holds (ptr 0x100) [(ptr 0x210, ptr 0x502)] := by
  have hadmitted : Admitted exec spec (fun call h seqs => call.Fits h seqs ∧ call.Safe seqs)
      fillList ListHeap.empty (fun _ => none) := by
    have h₁ : ptr 0x100 ≠ null := by decide
    have h₂ : ptr 0x200 ≠ null := by decide
    have h₃ : ptr 0x210 ≠ null := by decide
    refine ⟨⟨.inr ⟨rfl, rfl⟩, h₁⟩, fun _ _ hexec => ?_⟩
    cases hexec
    refine ⟨⟨⟨some_ne_none _, .inr ⟨rfl, rfl⟩⟩, h₂⟩, fun _ _ hexec => ?_⟩
    cases hexec
    refine ⟨⟨⟨some_ne_none _, .inr ⟨rfl, rfl⟩⟩, h₃⟩, fun _ _ hexec => ?_⟩
    cases hexec
    refine ⟨⟨some_ne_none _, fun x heq => ?_⟩, fun _ _ _ => trivial⟩
    cases some.inj heq
  obtain ⟨h, hexec, hrep⟩ := (list_refines _ _ represents_empty).1 fillList hadmitted
  exact ⟨h, hexec, hrep.holds _ _ rfl⟩

/-- A list that is filled, emptied and filled again. -/
def refillList : List ListCall :=
  [create (ptr 0x100), insertBack (ptr 0x100) (ptr 0x501) (ptr 0x200), removeFront (ptr 0x100),
    insertBack (ptr 0x100) (ptr 0x502) (ptr 0x210)]

/-- Emptying the list leaves its tail at the freed node, and the next insertion
writes to it. -/
theorem refilled_list_follows_freed_node :
    Admitted exec spec Fits refillList ListHeap.empty (fun _ => none) ∧
      (∃ h, execAll exec (refillList.take 3) ListHeap.empty =
        some (h, [ptr 0x100, ptr 0x200, ptr 0x501]) ∧
        h.list (ptr 0x100) = some ⟨null, ptr 0x200, 0⟩ ∧ h.node (ptr 0x200) = none) ∧
      execAll exec refillList ListHeap.empty = none := by
  refine ⟨⟨.inr ⟨rfl, rfl⟩, fun _ _ hexec => ?_⟩, ⟨_, rfl, rfl, rfl⟩, rfl⟩
  cases hexec
  refine ⟨⟨some_ne_none _, .inr ⟨rfl, rfl⟩⟩, fun _ _ hexec => ?_⟩
  cases hexec
  refine ⟨some_ne_none _, fun _ _ hexec => ?_⟩
  cases hexec
  exact ⟨⟨some_ne_none _, .inr ⟨rfl, rfl⟩⟩, fun _ _ _ => trivial⟩

end ListCall

end Hos
