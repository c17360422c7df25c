import Hos.Containers.ListHead

/-!
# Linked lists with two ends

The operations of `list.c` on a heap of nodes and of lists. A list is a ring
through NULL: its `head` and `tail` fields are what NULL is followed and preceded
by. So an empty list has NULL at both ends, and the laws of rings apply.

The operations handle the two ends separately, and most of them forget one.
Taking the last remaining node leaves the other end of the list where it was,
`list_pop_front` leaves the node that it returns behind the new first one,
`list_merge` leaves the first node of a filled source list without a previous
one, and `list_insert_front` writes through the head before it asks whether there
is one. Everywhere else the list is the sequence it should be.
-/

namespace Hos

open List Function

/-- An address. -/
def Ptr : Type := BitVec 32

instance : DecidableEq Ptr := inferInstanceAs (DecidableEq (BitVec 32))

def ptr (n : Nat) : Ptr := BitVec.ofNat 32 n

def null : Ptr := ptr 0

/-- `listnode_t`. -/
structure ListNode where
  value : Ptr
  prev : Ptr
  next : Ptr

/-- `list_t`. -/
structure ListT where
  head : Ptr
  tail : Ptr
  size : Nat

/-- The nodes and the lists that are allocated. -/
structure ListHeap where
  node : Ptr → Option ListNode
  list : Ptr → Option ListT

namespace ListHeap

/-- Nothing is allocated. -/
def empty : ListHeap := ⟨fun _ => none, fun _ => none⟩

/-- A read through a pointer to a node, which must not be NULL or freed. -/
def readNode (h : ListHeap) (p : Ptr) : Option ListNode := if p = null then none else h.node p

def readList (h : ListHeap) (l : Ptr) : Option ListT := if l = null then none else h.list l

def setNode (h : ListHeap) (p : Ptr) (n : ListNode) : ListHeap :=
  { h with node := Function.update h.node p (some n) }

def setList (h : ListHeap) (l : Ptr) (t : ListT) : ListHeap :=
  { h with list := Function.update h.list l (some t) }

/-- A write through a pointer to a node. -/
def writeNode (h : ListHeap) (p : Ptr) (f : ListNode → ListNode) : Option ListHeap :=
  (h.readNode p).map fun n => h.setNode p (f n)

def writeList (h : ListHeap) (l : Ptr) (f : ListT → ListT) : Option ListHeap :=
  (h.readList l).map fun t => h.setList l (f t)

/-- `__node_alloc`; the argument is what `kmalloc` answers. -/
def nodeAlloc (h : ListHeap) (node : Ptr) : Option ListHeap :=
  if node = null then none else some (h.setNode node ⟨null, null, null⟩)

def freeNode (h : ListHeap) (p : Ptr) : ListHeap :=
  { h with node := Function.update h.node p none }

def freeList (h : ListHeap) (l : Ptr) : ListHeap :=
  { h with list := Function.update h.list l none }

/-- `__node_dealloc`. -/
def nodeDealloc (h : ListHeap) (node : Ptr) : Option ListHeap :=
  (h.readNode node).map fun _ => h.freeNode node

/-- `__list_dealloc`. -/
def listDealloc (h : ListHeap) (list : Ptr) : Option ListHeap :=
  (h.readList list).map fun _ => h.freeList list

/-- `list_create`. -/
def listCreate (h : ListHeap) (list : Ptr) : Option (ListHeap × Ptr) :=
  if list = null then none else some (h.setList list ⟨null, null, 0⟩, list)

/-- `list_insert_front`. -/
def listInsertFront (h : ListHeap) (list value node : Ptr) : Option (ListHeap × Ptr) := do
  let h ← h.nodeAlloc node
  let t ← h.readList list
  let h ← h.writeNode t.head fun n => { n with prev := node }
  let h ← h.writeNode node fun n => { n with next := t.head, value := value }
  let h ← if t.head = null then h.writeList list fun t => { t with tail := node } else some h
  let h ← h.writeList list fun t => { t with head := node, size := u32 (t.size + 1) }
  some (h, node)

/-- `list_insert_back`. -/
def listInsertBack (h : ListHeap) (list value node : Ptr) : Option (ListHeap × Ptr) := do
  let h ← h.nodeAlloc node
  let t ← h.readList list
  let h ← h.writeNode node fun n => { n with prev := t.tail }
  let h ← if t.tail ≠ null then h.writeNode t.tail fun n => { n with next := node } else some h
  let h ← h.writeNode node fun n => { n with value := value }
  let h ← if t.head = null then h.writeList list fun t => { t with head := node } else some h
  let h ← h.writeList list fun t => { t with tail := node, size := u32 (t.size + 1) }
  some (h, node)

/-- `list_remove_front`. -/
def listRemoveFront (h : ListHeap) (list : Ptr) : Option (ListHeap × Ptr) := do
  let t ← h.readList list
  if t.head = null then some (h, null)
  else
    let n ← h.readNode t.head
    let h ← h.writeList list fun t => { t with head := n.next }
    let h ← if n.next ≠ null then h.writeNode n.next fun n => { n with prev := null } else some h
    let h ← h.nodeDealloc t.head
    let h ← h.writeList list fun t => { t with size := sub32 t.size 1 }
    some (h, n.value)

/-- `list_remove_back`. -/
def listRemoveBack (h : ListHeap) (list : Ptr) : Option (ListHeap × Ptr) := do
  let t ← h.readList list
  if t.head = null then some (h, null)
  else
    let n ← h.readNode t.tail
    let h ← h.writeList list fun t => { t with tail := n.prev }
    let h ← if n.prev ≠ null then h.writeNode n.prev fun n => { n with next := null } else some h
    let h ← h.nodeDealloc t.tail
    let h ← h.writeList list fun t => { t with size := sub32 t.size 1 }
    some (h, n.value)

/-- `list_remove_node`. -/
def listRemoveNode (h : ListHeap) (list node : Ptr) : Option (ListHeap × Ptr) := do
  let t ← h.readList list
  if t.head = node then h.listRemoveFront list
  else if t.tail = node then h.listRemoveBack list
  else
    let n ← h.readNode node
    let h ← h.writeNode n.next fun m => { m with prev := n.prev }
    let n' ← h.readNode node
    let h ← h.writeNode n'.prev fun m => { m with next := n'.next }
    let h ← h.writeList list fun t => { t with size := sub32 t.size 1 }
    let h ← h.nodeDealloc node
    some (h, n.value)

/-- `list_pop_back`. -/
def listPopBack (h : ListHeap) (list : Ptr) : Option (ListHeap × Ptr) := do
  let t ← h.readList list
  if t.head = null then some (h, null)
  else
    let n ← h.readNode t.tail
    let h ← h.writeList list fun t => { t with tail := n.prev }
    let h ← if n.prev ≠ null then h.writeNode n.prev fun n => { n with next := null } else some h
    let h ← h.writeList list fun t => { t with size := sub32 t.size 1 }
    some (h, t.tail)

/-- `list_pop_front`. -/
def listPopFront (h : ListHeap) (list : Ptr) : Option (ListHeap × Ptr) := do
  let t ← h.readList list
  if t.head = null then some (h, null)
  else
    let n ← h.readNode t.head
    let h ← h.writeList list fun t => { t with head := n.next, size := sub32 t.size 1 }
    some (h, t.head)

/-- `list_merge`. -/
def listMerge (h : ListHeap) (target source : Ptr) : Option ListHeap := do
  let t ← h.readList target
  let s ← h.readList source
  let h ← if t.tail ≠ null then h.writeNode t.tail fun n => { n with next := s.head }
    else h.writeList target fun t => { t with head := s.head }
  let h ← if s.tail ≠ null then h.writeList target fun t => { t with tail := s.tail } else some h
  let h ← h.writeList target fun t => { t with size := u32 (t.size + s.size) }
  h.listDealloc source

/-- The links of the nodes as list `l` sees them: NULL is between its two ends. -/
def links (h : ListHeap) (l : Ptr) : Links Ptr where
  next p := if p = null then ((h.list l).map (·.head)).getD null
    else ((h.node p).map (·.next)).getD null
  prev p := if p = null then ((h.list l).map (·.tail)).getD null
    else ((h.node p).map (·.prev)).getD null

/-- The value of a node. -/
def valueAt (h : ListHeap) (p : Ptr) : Option Ptr := (h.node p).map (·.value)

/-- List `l` has the given nodes with their values, in this order. -/
structure Holds (h : ListHeap) (l : Ptr) (xs : List (Ptr × Ptr)) : Prop where
  addr : l ≠ null
  ring : (h.links l).Ring null (xs.map (·.1))
  live : ∀ x ∈ xs, h.valueAt x.1 = some x.2
  size : (h.list l).map (·.size) = some xs.length

/-- The lists that there are, with their nodes. -/
abbrev Sequences := Ptr → Option (List (Ptr × Ptr))

/-- Every list is the sequence it should be, and no node is in two lists. -/
structure Represents (h : ListHeap) (seqs : Sequences) : Prop where
  holds : ∀ l xs, seqs l = some xs → h.Holds l xs
  disjoint : ∀ l l' xs ys, l ≠ l' → seqs l = some xs → seqs l' = some ys →
    (xs.map (·.1)).Disjoint (ys.map (·.1))

section

variable {h h' : ListHeap} {l l' p q x v : Ptr} {n m : ListNode} {t s : ListT}
  {xs ys : List (Ptr × Ptr)}

@[simp] theorem setNode_list : (h.setNode p n).list = h.list := rfl

@[simp] theorem setList_node : (h.setList l t).node = h.node := rfl

@[simp] theorem freeNode_list : (h.freeNode p).list = h.list := rfl

@[simp] theorem freeList_node : (h.freeList l).node = h.node := rfl

@[simp]
theorem setNode_node : (h.setNode p n).node q = if q = p then some n else h.node q :=
    update_apply ..

@[simp]
theorem setList_list : (h.setList l t).list l' = if l' = l then some t else h.list l' :=
    update_apply ..

@[simp]
theorem freeNode_node : (h.freeNode p).node q = if q = p then none else h.node q := update_apply ..

@[simp]
theorem freeList_list : (h.freeList l).list l' = if l' = l then none else h.list l' :=
    update_apply ..

@[simp]
theorem setNode_setNode : (h.setNode p n).setNode p m = h.setNode p m := by
  simp [setNode]

@[simp]
theorem setList_setList : (h.setList l t).setList l s = h.setList l s := by
  simp [setList]

@[simp]
theorem setNode_setList : (h.setList l t).setNode p n = (h.setNode p n).setList l t := rfl

@[simp]
theorem freeNode_setList : (h.setList l t).freeNode p = (h.freeNode p).setList l t := rfl

theorem setNode_comm (hpq : p ≠ q) : (h.setNode p n).setNode q m = (h.setNode q m).setNode p n := by
  simp [setNode, update_comm hpq]

@[simp] theorem valueAt_setList : (h.setList l t).valueAt p = h.valueAt p := rfl

@[simp]
theorem valueAt_setNode : (h.setNode p n).valueAt q = if q = p
    then some n.value else h.valueAt q := by
  simp only [valueAt, setNode_node]
  split
  · rfl
  · rfl

@[simp]
theorem valueAt_freeNode (hqp : q ≠ p) : (h.freeNode p).valueAt q = h.valueAt q := by
  simp [valueAt, hqp]

/-- Writing the links of a node keeps its value. -/
theorem valueAt_setNode_of_eq (hvalue : h.valueAt p = some n.value) :
    (h.setNode p n).valueAt q = h.valueAt q := by
  rw [valueAt_setNode]
  split
  · rename_i heq
    rw [heq, hvalue]
  · rfl

theorem links_setNode (hp : p ≠ null) :
    (h.setNode p n).links l = ((h.links l).setNext p n.next).setPrev p n.prev := by
  simp only [links, Links.setNext, Links.setPrev, Links.mk.injEq, funext_iff, update_apply,
    setNode_node, setNode_list]
  grind

theorem links_freeNode (hp : p ≠ null) :
    (h.freeNode p).links l = ((h.links l).setNext p null).setPrev p null := by
  simp only [links, Links.setNext, Links.setPrev, Links.mk.injEq, funext_iff, update_apply,
    freeNode_node, freeNode_list]
  grind

theorem links_setList : (h.setList l t).links l = ((h.links l).setNext null t.head).setPrev null
    t.tail := by
  simp only [links, Links.setNext, Links.setPrev, Links.mk.injEq, funext_iff, update_apply,
    setList_list, setList_node]
  grind

section

variable (hholds : h.Holds l xs)
include hholds

/-- The fields of a list are the links of NULL. -/
theorem Holds.list_eq : h.list l = some ⟨(h.links l).next null, (h.links l).prev null,
    xs.length⟩ := by
  obtain ⟨t, ht, hsize⟩ := Option.map_eq_some_iff.mp hholds.size
  simp [links, ht, ← hsize]

theorem Holds.ne_null (hx : (x, v) ∈ xs) : x ≠ null := by
  rintro rfl
  exact (nodup_cons.mp hholds.ring.nodup).1 (mem_map_of_mem hx)

/-- The fields of a node are its links and its value. -/
theorem Holds.node_eq (hx : (x, v) ∈ xs) :
    h.node x = some ⟨v, (h.links l).prev x, (h.links l).next x⟩ := by
  obtain ⟨n, hn, rfl⟩ := Option.map_eq_some_iff.mp (hholds.live _ hx)
  have hnull := hholds.ne_null hx
  have hn' : h.node x = some n := hn
  simp [links, hnull, hn']

theorem Holds.congr (hnodes : ∀ p ∈ xs.map (·.1), h'.node p = h.node p)
    (hlist : h'.list l = h.list l) : h'.Holds l xs := by
  have hlinks : ∀ p ∈ null :: xs.map (·.1), p = null ∨ h'.node p = h.node p :=
    fun p hp => (mem_cons.mp hp).imp_right (hnodes p)
  refine ⟨hholds.addr, hholds.ring.congr (fun p hp => ?_) (fun p hp => ?_), fun y hy => ?_, ?_⟩
  · simp only [links, hlist]
    obtain rfl | hp := hlinks p hp
    · rfl
    · rw [hp]
  · simp only [links, hlist]
    obtain rfl | hp := hlinks p hp
    · rfl
    · rw [hp]
  · rw [valueAt, hnodes _ (mem_map_of_mem hy)]
    exact hholds.live y hy
  · rw [hlist]
    exact hholds.size

end

/-- At most list `l` and the nodes of `xs` and `ys` differ. -/
structure Within (h h' : ListHeap) (l : Ptr) (xs ys : List (Ptr × Ptr)) : Prop where
  nodes : ∀ p, p ∉ xs.map (·.1) → p ∉ ys.map (·.1) → h'.node p = h.node p
  lists : ∀ l' ≠ l, h'.list l' = h.list l'

/-- List `l` with the nodes `xs` has become the list with the nodes `ys`, of which
those that are not in `xs` are new. -/
structure Becomes (h h' : ListHeap) (l : Ptr) (xs ys : List (Ptr × Ptr)) : Prop where
  holds : h'.Holds l ys
  within : h.Within h' l xs ys
  fresh : ∀ y ∈ ys.map (·.1), y ∈ xs.map (·.1) ∨ h.node y = none

namespace Within

theorem refl : h.Within h l xs ys := ⟨fun _ _ _ => rfl, fun _ _ => rfl⟩

variable (hwithin : h.Within h' l xs ys)
include hwithin

theorem setNode (hp : p ∈ xs.map (·.1) ∨ p ∈ ys.map (·.1)) : h.Within (h'.setNode p n) l xs ys := by
  refine ⟨fun q hxs hys => ?_, hwithin.lists⟩
  have hqp : q ≠ p := by
    rintro rfl
    exact hp.elim hxs hys
  rw [setNode_node, if_neg hqp]
  exact hwithin.nodes q hxs hys

theorem setList : h.Within (h'.setList l t) l xs ys := by
  refine ⟨hwithin.nodes, fun l' hl' => ?_⟩
  rw [setList_list, if_neg hl']
  exact hwithin.lists l' hl'

theorem freeNode (hp : p ∈ xs.map (·.1)) : h.Within (h'.freeNode p) l xs ys := by
  refine ⟨fun q hxs hys => ?_, hwithin.lists⟩
  have hqp : q ≠ p := by
    rintro rfl
    exact hxs hp
  rw [freeNode_node, if_neg hqp]
  exact hwithin.nodes q hxs hys

end Within

end

variable {h : ListHeap} {l a v x y w : Ptr} {xs ys zs : List (Ptr × Ptr)}

theorem Holds.notMem_of_fresh (hholds : h.Holds l xs) (hfresh : h.node a = none) :
    a ∉ xs.map (·.1) := by
  intro hmem
  obtain ⟨y, hy, rfl⟩ := mem_map.mp hmem
  simp [hholds.node_eq hy] at hfresh

theorem Holds.head_eq (hholds : h.Holds l ((x, v) :: xs)) :
    (h.links l).next null = x ∧ (h.links l).prev x = null := hholds.ring.path.1

theorem Holds.tail_eq (hholds : h.Holds l (xs ++ [(x, v)])) :
    (h.links l).prev null = x ∧ (h.links l).next x = null := by
  have hpath := hholds.ring.path
  rw [map_append] at hpath
  obtain ⟨hnext, hprev⟩ := (Links.Path.append_iff.mp hpath).2
  exact ⟨hprev, hnext⟩

theorem Holds.head_ne_null (hholds : h.Holds l xs) (hne : xs ≠ []) :
    (h.links l).next null ≠ null := by
  rwa [Ne, hholds.ring.next_eq_head_iff, map_eq_nil_iff]

theorem length_lt {L : Links Ptr} {ns : List Ptr} (hring : L.Ring null ns) : ns.length < 2 ^ 32 :=
  Links.length_lt hring

theorem Holds.length_lt (hholds : h.Holds l xs) : xs.length < 2 ^ 32 := by
  have hlength := ListHeap.length_lt hholds.ring
  rwa [length_map] at hlength

/-- A new node that is linked into the ring is in the list. -/
theorem Holds.link {h' : ListHeap} (hholds : h.Holds l xs) (hsplit : xs = ys ++ zs)
    (hfresh : h.node a = none)
    {L : Links Ptr} (hring : L.Ring null (ys.map (·.1) ++ a :: zs.map (·.1)))
    (hlinks : h'.links l = L) (hwithin : h.Within h' l xs (ys ++ (a, v) :: zs))
    (hvalues : ∀ p, h'.valueAt p = if p = a then some v else h.valueAt p)
    (hsize : (h'.list l).map (·.size) = some (u32 (xs.length + 1))) :
    h.Becomes h' l xs (ys ++ (a, v) :: zs) := by
  subst hsplit hlinks
  have hlength := ListHeap.length_lt hring
  simp only [length_append, length_map, length_cons] at hlength
  refine ⟨⟨hholds.addr, by simpa using hring, fun y hy => ?_, ?_⟩, hwithin, fun y hy => ?_⟩
  · rw [hvalues]
    obtain rfl | hy := mem_cons.mp (perm_middle.mem_iff.mp hy)
    · exact if_pos rfl
    · rw [if_neg fun heq : y.1 = a => hholds.notMem_of_fresh hfresh (heq ▸ mem_map_of_mem hy)]
      exact hholds.live y hy
  · rw [hsize, u32_of_lt (by rw [length_append]; omega)]
    simp [Nat.add_assoc]
  · obtain ⟨z, hz, rfl⟩ := mem_map.mp hy
    obtain rfl | hz := mem_cons.mp (perm_middle.mem_iff.mp hz)
    · exact .inr hfresh
    · exact .inl (mem_map_of_mem hz)

section

variable (ha : a ≠ null) (hfresh : h.node a = none)
include ha hfresh

theorem Holds.notMem_cons (hholds : h.Holds l xs) : a ∉ null :: xs.map (·.1) := by
  simp only [mem_cons, not_or]
  exact ⟨ha, hholds.notMem_of_fresh hfresh⟩

theorem listInsertBack_becomes (hholds : h.Holds l xs) :
    ∃ h', h.listInsertBack l v a = some (h', a) ∧ h.Becomes h' l xs (xs ++ [(a, v)]) := by
  have hl := hholds.addr
  have hlist := hholds.list_eq
  have hring := (Links.ring_insertBefore_head hholds.ring (hholds.notMem_cons ha hfresh)).1
  rcases eq_nil_or_concat' xs with rfl | ⟨ys, ⟨x, w⟩, rfl⟩
  · obtain ⟨hnext, hprev⟩ := Links.Ring.nil_iff.mp hholds.ring
    rw [hnext, hprev] at hlist
    refine ⟨(h.setNode a ⟨v, null, null⟩).setList l ⟨a, a, u32 (0 + 1)⟩, ?_,
      hholds.link rfl hfresh hring ?_ (Within.refl.setNode (.inr (by simp))).setList ?_ ?_⟩
    · simp [listInsertBack, nodeAlloc, readNode, readList, writeNode, writeList, ha, hl, hlist]
    · simp only [links_setList, links_setNode ha, Links.listHeadInsertBefore]
      simp only [Links.setNext, Links.setPrev, Links.mk.injEq, funext_iff, update_apply]
      grind
    · simp
    · simp
  · have hmem : (x, w) ∈ ys ++ [(x, w)] := by simp
    have hnode := hholds.node_eq hmem
    have hx := hholds.ne_null hmem
    have hlast := hholds.tail_eq.1
    have hfirst := hholds.head_ne_null (append_ne_nil_of_right_ne_nil ys (by simp))
    have hxa : x ≠ a := by
      rintro rfl
      exact hholds.notMem_of_fresh hfresh (mem_map_of_mem hmem)
    refine ⟨((h.setNode a ⟨v, x, null⟩).setNode x ⟨w, (h.links l).prev x, a⟩).setList l
      ⟨(h.links l).next null, a, u32 ((ys ++ [(x, w)]).length + 1)⟩, ?_,
      hholds.link (append_nil _).symm hfresh hring ?_
        ((Within.refl.setNode (.inr (by simp))).setNode
        (.inl (mem_map_of_mem hmem))).setList (fun p => ?_) ?_⟩
    · simp [listInsertBack, nodeAlloc, readNode, readList, writeNode, writeList, ha, hl,
        hlist, hlast, hx, hxa, hxa.symm, hnode, hfirst, setNode_comm hxa]
    · simp only [links_setList, links_setNode ha, links_setNode hx, Links.listHeadInsertBefore]
      simp only [Links.setNext, Links.setPrev, Links.mk.injEq, funext_iff, update_apply]
      grind
    · rw [valueAt_setList, valueAt_setNode_of_eq, valueAt_setNode]
      rw [valueAt_setNode, if_neg hxa]
      exact hholds.live _ hmem
    · simp

theorem listInsertFront_becomes (hholds : h.Holds l ((x, w) :: xs)) :
    ∃ h', h.listInsertFront l v a = some (h', a) ∧
      h.Becomes h' l ((x, w) :: xs) ((a, v) :: (x, w) :: xs) := by
  have hl := hholds.addr
  have hlist := hholds.list_eq
  have hring := (Links.ring_insertAfter_head hholds.ring (hholds.notMem_cons ha hfresh)).1
  have hmem : (x, w) ∈ (x, w) :: xs := mem_cons_self
  have hnode := hholds.node_eq hmem
  have hx := hholds.ne_null hmem
  have hfirst := hholds.head_eq.1
  have hxa : x ≠ a := by
    rintro rfl
    exact hholds.notMem_of_fresh hfresh (mem_map_of_mem hmem)
  refine ⟨((h.setNode a ⟨v, null, x⟩).setNode x ⟨w, a, (h.links l).next x⟩).setList l
      ⟨a, (h.links l).prev null, u32 (((x, w) :: xs).length + 1)⟩, ?_,
      hholds.link (nil_append _).symm hfresh hring ?_
        ((Within.refl.setNode (.inr (by simp))).setNode
        (.inl (mem_map_of_mem hmem))).setList (fun p => ?_) ?_⟩
  · simp [listInsertFront, nodeAlloc, readNode, readList, writeNode, writeList, ha, hl,
      hlist, hfirst, hx, hxa, hxa.symm, hnode, setNode_comm hxa]
  · simp only [links_setList, links_setNode ha, links_setNode hx, Links.listHeadInsertAfter]
    simp only [Links.setNext, Links.setPrev, Links.mk.injEq, funext_iff, update_apply]
    grind
  · rw [valueAt_setList, valueAt_setNode_of_eq, valueAt_setNode]
    rw [valueAt_setNode, if_neg hxa]
    exact hholds.live _ hmem
  · simp

end

/-- A node whose neighbours are linked is out of the list. -/
theorem Holds.unlink {h' : ListHeap} (hholds : h.Holds l (ys ++ (x, v) :: zs))
    (hwithin : h.Within h' l (ys ++ (x, v) :: zs) xs) (hlinks : ∀ p ≠ x, ((h'.links l).next p =
        if p = (h.links l).prev x then (h.links l).next x else (h.links l).next p) ∧
      (h'.links l).prev p = if p = (h.links l).next x then (h.links l).prev x else
        (h.links l).prev p)
    (hvalues : ∀ p ≠ x, h'.valueAt p = h.valueAt p)
    (hsize : (h'.list l).map (·.size) = some (sub32 (ys ++ (x, v) :: zs).length 1))
    (hrest : xs = ys ++ zs) : h.Becomes h' l (ys ++ (x, v) :: zs) xs := by
  subst hrest
  have hring := hholds.ring
  rw [map_append, map_cons] at hring
  have hnodup : ((x, v) :: (ys ++ zs)).map (·.1) |>.Nodup := by
    have hmiddle := nodup_middle.mp (nodup_cons.mp hring.nodup).2
    rwa [map_cons, map_append]
  have hother : ∀ y ∈ ys ++ zs, y.1 ≠ x := by
    rintro y hy rfl
    have hmem : y.1 ∈ (ys ++ zs).map (·.1) := mem_map_of_mem hy
    exact (nodup_cons.mp hnodup).1 hmem
  have hsub : ∀ y ∈ ys ++ zs, y ∈ ys ++ (x, v) :: zs := by
    intro y hy
    exact (perm_middle.mem_iff.mpr (mem_cons_of_mem _ hy))
  refine ⟨⟨hholds.addr, ?_, fun y hy => ?_, ?_⟩, hwithin, fun y hy => ?_⟩
  · rw [map_append]
    exact Links.ring_unlink hring (fun p hp => (hlinks p hp).1) fun p hp => (hlinks p hp).2
  · rw [hvalues _ (hother y hy)]
    exact hholds.live y (hsub y hy)
  · rw [hsize, sub32_of_le hholds.length_lt (by simp; omega)]
    simp
  · obtain ⟨z, hz, rfl⟩ := mem_map.mp hy
    exact .inl (mem_map_of_mem (hsub z hz))

/-- The neighbours of the first two nodes. -/
theorem Holds.first_two (hholds : h.Holds l ((x, v) :: (y, w) :: zs)) :
    x ≠ y ∧ (h.links l).next null = x ∧ (h.links l).prev x = null ∧ (h.links l).next x = y ∧
      (h.links l).prev y = x := by
  have hnodup := hholds.ring.nodup
  simp only [map_cons, nodup_cons, mem_cons, not_or] at hnodup
  obtain ⟨⟨hfirst, hprev⟩, ⟨hnext, hback⟩, _⟩ := hholds.ring.path
  exact ⟨hnodup.2.1.1, hfirst, hprev, hnext, hback⟩

/-- The neighbours of the last two nodes. -/
theorem Holds.last_two (hholds : h.Holds l (xs ++ [(y, w)] ++ [(x, v)])) :
    x ≠ y ∧ (h.links l).prev null = x ∧ (h.links l).next x = null ∧ (h.links l).prev x = y ∧
      (h.links l).next y = x := by
  have hring := hholds.ring
  rw [append_assoc, map_append] at hring
  obtain ⟨_, ⟨hnext, hback⟩, hlast, hprev⟩ := Links.Path.append_iff.mp hring.path
  have hnodup : [y, x].Nodup := (nodup_append.mp (nodup_cons.mp hring.nodup).2).2.1
  have hxy : x ≠ y := by
    rintro rfl
    simp at hnodup
  exact ⟨hxy, hprev, hlast, hback, hnext⟩

theorem listRemoveFront_becomes (hholds : h.Holds l ((x, v) :: (y, w) :: zs)) :
    ∃ h', h.listRemoveFront l = some (h', v) ∧ h.Becomes h' l ((x, v) :: (y, w) :: zs)
    ((y, w) :: zs) := by
  have hl := hholds.addr
  have hlist := hholds.list_eq
  have hmem : (x, v) ∈ (x, v) :: (y, w) :: zs := mem_cons_self
  have hmem' : (y, w) ∈ (x, v) :: (y, w) :: zs := by simp
  have hnode := hholds.node_eq hmem
  have hnode' := hholds.node_eq hmem'
  have hx := hholds.ne_null hmem
  have hy := hholds.ne_null hmem'
  obtain ⟨hxy, hfirst, hxprev, hsecond, hyprev⟩ := hholds.first_two
  have hsplit : h.Holds l ([] ++ (x, v) :: (y, w) :: zs) := hholds
  refine ⟨((h.setNode y ⟨w, null, (h.links l).next y⟩).freeNode x).setList l
      ⟨y, (h.links l).prev null, sub32 ((x, v) :: (y, w) :: zs).length 1⟩, ?_,
    hsplit.unlink ((Within.refl.setNode (.inl (mem_map_of_mem hmem'))).freeNode
        (mem_map_of_mem hmem)).setList ?_ ?_ ?_ rfl⟩
  · simp [listRemoveFront, nodeDealloc, readNode, readList, writeNode, writeList, hl, hlist, hfirst,
        hx, hy, hxy, hnode, hnode', hsecond]
  · intro p hp
    simp only [links_setList, links_freeNode hx, links_setNode hy]
    simp only [Links.setNext, Links.setPrev, update_apply]
    grind
  · intro p hp
    rw [valueAt_setList, valueAt_freeNode hp, valueAt_setNode_of_eq (hholds.live _ hmem')]
  · simp

/-- Two changes of a list after each other, when the second one keeps the nodes. -/
theorem Becomes.trans {h' h'' : ListHeap} (hfirst : h.Becomes h' l xs ys)
    (hsecond : h'.Becomes h'' l ys zs) (hsub : ∀ y ∈ ys.map (·.1), y ∈ zs.map (·.1)) :
    h.Becomes h'' l xs zs := by
  refine ⟨hsecond.holds, ⟨fun p hxs hzs => ?_, fun l' hl' => ?_⟩, fun z hz => ?_⟩
  · have hys : p ∉ ys.map (·.1) := fun hmem => hzs (hsub p hmem)
    exact (hsecond.within.nodes p hys hzs).trans (hfirst.within.nodes p hxs hys)
  · exact (hsecond.within.lists l' hl').trans (hfirst.within.lists l' hl')
  · obtain hys | hnone := hsecond.fresh z hz
    · exact hfirst.fresh z hys
    · refine or_iff_not_imp_left.mpr fun hxs => ?_
      have hys : z ∉ ys.map (·.1) := hfirst.holds.notMem_of_fresh hnone
      rwa [← hfirst.within.nodes z hxs hys]

theorem Becomes.freeNode {h' : ListHeap} (hbecomes : h.Becomes h' l xs ys)
    (hxs : x ∈ xs.map (·.1)) (hys : x ∉ ys.map (·.1)) : h.Becomes (h'.freeNode x) l xs ys := by
  refine ⟨hbecomes.holds.congr (fun p hp => ?_) rfl, hbecomes.within.freeNode hxs, hbecomes.fresh⟩
  have hne : p ≠ x := by
    rintro rfl
    exact hys hp
  rw [freeNode_node, if_neg hne]

theorem listPopBack_becomes (hholds : h.Holds l (xs ++ [(y, w)] ++ [(x, v)])) :
    ∃ h', h.listPopBack l = some (h', x) ∧ h.listRemoveBack l = some (h'.freeNode x, v) ∧
      h.Becomes h' l (xs ++ [(y, w)] ++ [(x, v)]) (xs ++ [(y, w)]) := by
  have hl := hholds.addr
  have hlist := hholds.list_eq
  have hmem : (x, v) ∈ xs ++ [(y, w)] ++ [(x, v)] := by simp
  have hmem' : (y, w) ∈ xs ++ [(y, w)] ++ [(x, v)] := by simp
  have hnode := hholds.node_eq hmem
  have hnode' := hholds.node_eq hmem'
  have hx := hholds.ne_null hmem
  have hy := hholds.ne_null hmem'
  have hfirst := hholds.head_ne_null (by simp)
  obtain ⟨hxy, hlast, hxnext, hback, hynext⟩ := hholds.last_two
  refine ⟨(h.setNode y ⟨w, (h.links l).prev y, null⟩).setList l
    ⟨(h.links l).next null, y, sub32 (xs ++ [(y, w)] ++ [(x, v)]).length 1⟩, ?_, ?_, ?_⟩
  · simp [listPopBack, readNode, readList, writeNode, writeList, hl, hlist, hfirst, hlast, hback,
        hx, hy, hnode, hnode']
  · simp [listRemoveBack, nodeDealloc, readNode, readList, writeNode, writeList, hl, hlist, hfirst,
        hlast, hback, hx, hy, hxy, hnode, hnode']
  · refine hholds.unlink (Within.refl.setNode (.inl (mem_map_of_mem hmem'))).setList
      ?_ ?_ ?_ (append_nil _).symm
    · intro p hp
      simp only [links_setList, links_setNode hy]
      simp only [Links.setNext, Links.setPrev, update_apply]
      grind
    · intro p hp
      rw [valueAt_setList, valueAt_setNode_of_eq (hholds.live _ hmem')]
    · simp

variable {z u : Ptr} (hholds : h.Holds l (xs ++ [(y, w)] ++ (x, v) :: (z, u) :: ys))
include hholds

theorem Holds.between : x ≠ y ∧ x ≠ z ∧ y ≠ z ∧ (h.links l).prev x = y ∧
    (h.links l).next x = z := by
  have hring := hholds.ring
  rw [append_assoc, map_append] at hring
  obtain ⟨_, ⟨_, hprev⟩, ⟨hnext, _⟩, _⟩ := Links.Path.append_iff.mp hring.path
  have hnodup := (nodup_append.mp (nodup_cons.mp hring.nodup).2).2.1
  have hne : [y, x, z].Nodup := hnodup.sublist (by simp)
  simp only [nodup_cons, mem_cons, not_mem_nil, or_false, not_or] at hne
  exact ⟨fun heq => hne.1.1 heq.symm, hne.2.1, hne.1.2, hprev, hnext⟩

theorem listRemoveNode_becomes :
    ∃ h', h.listRemoveNode l x = some (h', v) ∧
      h.Becomes h' l (xs ++ [(y, w)] ++ (x, v) :: (z, u) :: ys)
        (xs ++ [(y, w)] ++ (z, u) :: ys) := by
  have hl := hholds.addr
  have hlist := hholds.list_eq
  have hmem : (x, v) ∈ xs ++ [(y, w)] ++ (x, v) :: (z, u) :: ys := by simp
  have hmemy : (y, w) ∈ xs ++ [(y, w)] ++ (x, v) :: (z, u) :: ys := by simp
  have hmemz : (z, u) ∈ xs ++ [(y, w)] ++ (x, v) :: (z, u) :: ys := by simp
  have hnode := hholds.node_eq hmem
  have hnodey := hholds.node_eq hmemy
  have hnodez := hholds.node_eq hmemz
  have hx := hholds.ne_null hmem
  have hy := hholds.ne_null hmemy
  have hz := hholds.ne_null hmemz
  obtain ⟨hxy, hxz, hyz, hprev, hnext⟩ := hholds.between
  have hfirst : (h.links l).next null ≠ x := by
    intro heq
    have hback := hholds.ring.prev_next
    rw [heq, hprev] at hback
    exact hy hback
  have hlast : (h.links l).prev null ≠ x := by
    intro heq
    have hback := hholds.ring.next_prev
    rw [heq, hnext] at hback
    exact hz hback
  refine ⟨(((h.setNode z ⟨u, y, (h.links l).next z⟩).setNode y
      ⟨w, (h.links l).prev y, z⟩).freeNode x).setList l ⟨(h.links l).next null,
      (h.links l).prev null, sub32 (xs ++ [(y, w)] ++ (x, v) :: (z, u) :: ys).length 1⟩, ?_,
    hholds.unlink (((Within.refl.setNode (.inl (mem_map_of_mem hmemz))).setNode
      (.inl (mem_map_of_mem hmemy))).freeNode (mem_map_of_mem hmem)).setList
      ?_ ?_ ?_ rfl⟩
  · simp [listRemoveNode, nodeDealloc, readNode, readList, writeNode, writeList, hl, hlist, hfirst,
      hlast, hprev, hnext, hx, hy, hz, hxy, hxz, hyz, hnode, hnodey, hnodez]
  · intro p hp
    simp only [links_setList, links_freeNode hx, links_setNode hy, links_setNode hz]
    simp only [Links.setNext, Links.setPrev, update_apply]
    grind
  · intro p hp
    have hsame : (h.setNode z ⟨u, y, (h.links l).next z⟩).valueAt y = some w := by
      rw [valueAt_setNode, if_neg hyz]
      exact hholds.live _ hmemy
    rw [valueAt_setList, valueAt_freeNode hp, valueAt_setNode_of_eq hsame,
      valueAt_setNode_of_eq (hholds.live _ hmemz)]
  · simp

end ListHeap

end Hos
