import Hos.Containers.List
import Hos.Lib.Segment

/-!
# Hash maps with chained entries

The operations of `hashmap.c` on the array of bucket heads and a heap of entries.
The hash function, the comparison and the duplication of keys are those that the
map was created with; all that is known about them is that keys which compare
equal have the same hash and that a duplicate compares equal to its key.

The walk along a bucket is a `do … while` loop in `hashmap_set` and in
`hashmap_remove`. The first one starts at an entry. The second one starts behind
the first entry, which may be the end of the bucket: then its first pass reads
the key of a null entry.
-/

namespace Hos

open Option List Function

/-- The functions of a map, with what they are for. -/
structure KeyFunctions where
  hash : Ptr → Nat
  comp : Ptr → Ptr → Bool
  dup : Ptr → Ptr
  comp_equiv : Equivalence fun a b => comp a b = true
  hash_comp : ∀ a b, comp a b = true → hash a = hash b
  comp_dup : ∀ k, comp (dup k) k = true

/-- `hashmap_entry_t`. -/
structure HashmapEntry where
  key : Ptr
  value : Ptr
  next : Ptr

/-- `hashmap_t` together with the entries that are allocated. -/
structure Hashmap where
  functions : KeyFunctions
  size : Nat
  entries : Nat → Ptr
  entry : Ptr → Option HashmapEntry

/-- Where the walk along a bucket is. -/
structure Walk where
  p : Ptr
  x : Ptr
  found : Bool

namespace Hashmap

/-- `hashmap_create`. -/
def hashmapCreate (size : Nat) (functions : KeyFunctions) : Hashmap :=
  ⟨functions, size, fun _ => null, fun _ => none⟩

/-- A read through a pointer to an entry, which must not be NULL or freed. -/
def readEntry (m : Hashmap) (p : Ptr) : Option HashmapEntry := if p = null then none else m.entry p

def setEntry (m : Hashmap) (p : Ptr) (e : HashmapEntry) : Hashmap :=
  { m with entry := Function.update m.entry p (some e) }

def setHead (m : Hashmap) (hash : Nat) (p : Ptr) : Hashmap :=
  { m with entries := Function.update m.entries hash p }

/-- `__dealloc_entry`. -/
def deallocEntry (m : Hashmap) (p : Ptr) : Hashmap :=
  { m with entry := Function.update m.entry p none }

/-- `__alloc_entry` and the fields of the new entry; the second argument is what
`kmalloc` answers. -/
def allocEntry (m : Hashmap) (e key value : Ptr) : Option Hashmap :=
  if e = null then none else some (m.setEntry e ⟨m.functions.dup key, value, null⟩)

/-- The bucket of a key. -/
def bucket (m : Hashmap) (key : Ptr) : Nat := m.functions.hash key % m.size

/-- One pass of the loop that looks for a key. -/
def walkStep (m : Hashmap) (key : Ptr) (s : Walk) : Option Walk := do
  let e ← m.readEntry s.x
  if m.functions.comp e.key key then some { s with found := true }
  else some ⟨s.x, e.next, false⟩

/-- The loop that looks for a key, until it is found or the bucket ends. -/
def walk (m : Hashmap) (key : Ptr) (s : Walk) : Option Walk :=
  whileLoop (fun s => decide (s.x ≠ null) && !s.found) (m.walkStep key) s

/-- The same as a `do … while` loop. -/
def doWalk (m : Hashmap) (key : Ptr) (s : Walk) : Option Walk := do
  let s ← m.walkStep key s
  m.walk key s

/-- `hashmap_set`. -/
def hashmapSet (m : Hashmap) (key value newEntry : Ptr) : Option (Hashmap × Ptr) := do
  let x := m.entries (m.bucket key)
  if x = null then
    let m ← m.allocEntry newEntry key value
    some (m.setHead (m.bucket key) newEntry, null)
  else
    let s ← m.doWalk key ⟨null, x, false⟩
    if s.found then
      let e ← m.readEntry s.x
      some (m.setEntry s.x { e with value := value }, e.value)
    else
      let m ← m.allocEntry newEntry key value
      let p ← m.readEntry s.p
      some (m.setEntry s.p { p with next := newEntry }, null)

/-- `hashmap_get`. -/
def hashmapGet (m : Hashmap) (key : Ptr) : Option Ptr := do
  let s ← m.walk key ⟨null, m.entries (m.bucket key), false⟩
  if s.found then (m.readEntry s.x).map (·.value) else some null

/-- `hashmap_has`. -/
def hashmapHas (m : Hashmap) (key : Ptr) : Option Bool :=
  (m.walk key ⟨null, m.entries (m.bucket key), false⟩).map (·.found)

/-- `hashmap_remove`. -/
def hashmapRemove (m : Hashmap) (key : Ptr) : Option (Hashmap × Ptr) := do
  let x := m.entries (m.bucket key)
  if x = null then some (m, null)
  else
    let e ← m.readEntry x
    if m.functions.comp e.key key then
      some ((m.setHead (m.bucket key) e.next).deallocEntry x, e.value)
    else
      let s ← m.doWalk key ⟨x, e.next, false⟩
      if s.found then
        let e ← m.readEntry s.x
        let p ← m.readEntry s.p
        some ((m.setEntry s.p { p with next := e.next }).deallocEntry s.x, e.value)
      else some (m, null)

/-- One pass of the inner loop of `hashmap_keys` and `hashmap_values`. The numbers
count the answers of `kmalloc`. -/
def collectStep (m : Hashmap) (field : HashmapEntry → Ptr) (kmalloc : Nat → Ptr) (l : Ptr)
    (s : Ptr × ListHeap × Nat) : Option (Ptr × ListHeap × Nat) := do
  let e ← m.readEntry s.1
  let (h, _) ← s.2.1.listInsertBack l (field e) (kmalloc s.2.2)
  some (e.next, h, s.2.2 + 1)

/-- `hashmap_keys` and `hashmap_values`, which differ in the field they collect. -/
def collect (m : Hashmap) (field : HashmapEntry → Ptr) (h : ListHeap) (kmalloc : Nat → Ptr) :
    Option (ListHeap × Ptr) := do
  let (h, l) ← h.listCreate (kmalloc 0)
  let s ← (List.range m.size).foldlM (fun s i =>
    (whileLoop (fun s : Ptr × ListHeap × Nat => decide (s.1 ≠ null))
      (m.collectStep field kmalloc l) (m.entries i, s)).map (·.2)) (h, 1)
  some (s.1, l)

/-- `hashmap_keys`. -/
def hashmapKeys (m : Hashmap) : ListHeap → (Nat → Ptr) → Option (ListHeap × Ptr) :=
  m.collect (·.key)

/-- `hashmap_values`. -/
def hashmapValues (m : Hashmap) : ListHeap → (Nat → Ptr) → Option (ListHeap × Ptr) :=
  m.collect (·.value)

/-- An entry as a cell with a key and a value. -/
def cell : CellView Ptr (Ptr × Ptr) HashmapEntry := ⟨fun e => (e.key, e.value), (·.next)⟩

/-- A slot of a bucket: the address of the entry, its key and its value. -/
abbrev Slot := Ptr × Ptr × Ptr

/-- The chain of a bucket from an address on. -/
structure Chained (m : Hashmap) (x : Ptr) (ss : List Slot) : Prop where
  segment : Segment cell m.entry x ss null
  nodup : (null :: ss.map (·.1)).Nodup

section

variable {m : Hashmap} {x p key : Ptr} {s : Slot} {l r ss : List Slot}

/-- The address of the last slot, or the given one. -/
def lastAddr (p : Ptr) : List Slot → Ptr
  | [] => p
  | s :: ss => lastAddr s.1 ss

/-- No slot has the key. -/
def Absent (m : Hashmap) (key : Ptr) (ss : List Slot) : Prop :=
  ∀ s ∈ ss, m.functions.comp s.2.1 key = false

theorem Chained.cons (h : m.Chained x (s :: ss)) :
    x = s.1 ∧ x ≠ null ∧ ∃ next, m.entry x = some ⟨s.2.1, s.2.2, next⟩ ∧ m.Chained next ss := by
  obtain ⟨⟨rfl, e, he, hitem, hrest⟩, hnodup⟩ := h
  obtain ⟨hnull, hss⟩ := nodup_cons.mp hnodup
  rw [map_cons, mem_cons, not_or] at hnull
  obtain ⟨hkey, hvalue⟩ := Prod.mk.inj hitem
  refine ⟨rfl, fun heq => hnull.1 heq.symm, e.next, ?_, hrest, ?_⟩
  · rw [he, ← hkey, ← hvalue]
  · exact nodup_cons.mpr ⟨hnull.2, (nodup_cons.mp hss).2⟩

/-- The two loops agree when the walk is not at the end of the bucket. -/
theorem doWalk_eq (hx : x ≠ null) : m.doWalk key ⟨p, x, false⟩ = m.walk key ⟨p, x, false⟩ := by
  rw [walk, whileLoop, if_pos (by simp [hx])]
  rfl

theorem walk_found (h : m.Chained x (l ++ s :: r)) (hl : m.Absent key l)
    (hs : m.functions.comp s.2.1 key = true) :
    m.walk key ⟨p, x, false⟩ = some ⟨lastAddr p l, s.1, true⟩ := by
  induction l generalizing x p with
  | nil =>
    obtain ⟨hxs, hx, next, he, _⟩ := Chained.cons h
    rw [← doWalk_eq hx]
    simp only [doWalk, walkStep, readEntry, if_neg hx, he, hs, bind_eq_bind, bind_some, if_true]
    rw [walk, whileLoop_of_false (by simp), hxs, lastAddr]
  | cons t l ih =>
    obtain ⟨hxt, hx, next, he, hrest⟩ := Chained.cons h
    have ht := hl t mem_cons_self
    rw [← doWalk_eq hx]
    simp only [doWalk, walkStep, readEntry, if_neg hx, he, ht, bind_eq_bind, bind_some,
      Bool.false_eq_true, if_false]
    rw [ih hrest fun u hu => hl u (mem_cons_of_mem t hu), hxt, lastAddr]

theorem walk_absent (h : m.Chained x ss) (habsent : m.Absent key ss) :
    m.walk key ⟨p, x, false⟩ = some ⟨lastAddr p ss, null, false⟩ := by
  induction ss generalizing x p with
  | nil =>
    have hx : x = null := h.segment
    rw [walk, whileLoop_of_false (by simp [hx]), hx, lastAddr]
  | cons t ss ih =>
    obtain ⟨hxt, hx, next, he, hrest⟩ := Chained.cons h
    have ht := habsent t mem_cons_self
    rw [← doWalk_eq hx]
    simp only [doWalk, walkStep, readEntry, if_neg hx, he, ht, bind_eq_bind, bind_some,
      Bool.false_eq_true, if_false]
    rw [ih hrest fun u hu => habsent u (mem_cons_of_mem t hu), hxt, lastAddr]

theorem lastAddr_concat : lastAddr p (ss ++ [s]) = s.1 := by
  induction ss generalizing p with
  | nil => rfl
  | cons t ss ih => exact ih

end

/-- Bucket `i` with the slots `ss` has become the one with the slots `ts`. -/
structure Becomes (m m' : Hashmap) (i : Nat) (ss ts : List Slot) : Prop where
  functions : m'.functions = m.functions
  size : m'.size = m.size
  chained : m'.Chained (m'.entries i) ts
  heads : ∀ j ≠ i, m'.entries j = m.entries j
  within : ∀ p, p ∉ ss.map (·.1) → p ∉ ts.map (·.1) → m'.entry p = m.entry p
  fresh : ∀ p ∈ ts.map (·.1), p ∈ ss.map (·.1) ∨ m.entry p = none

variable {m : Hashmap} {key value e x : Ptr} {s t : Slot} {l r ss : List Slot}

theorem Chained.head_ne_null (h : m.Chained x ss) (hne : ss ≠ []) : x ≠ null := by
  cases ss with
  | nil => exact absurd rfl hne
  | cons s ss => exact (Chained.cons h).2.1

theorem Chained.at_slot (h : m.Chained x (l ++ s :: r)) :
    s.1 ≠ null ∧ s.1 ∉ l.map (·.1) ∧ s.1 ∉ r.map (·.1) ∧
      ∃ next, m.entry s.1 = some ⟨s.2.1, s.2.2, next⟩ ∧ Segment cell m.entry next r null := by
  obtain ⟨hnull, hnodup⟩ := nodup_cons.mp h.nodup
  have hs : s.1 ≠ null := fun heq => hnull (by simp [← heq])
  rw [map_append, map_cons] at hnodup
  have hother := (nodup_cons.mp (nodup_middle.mp hnodup)).1
  rw [mem_append, not_or] at hother
  obtain ⟨c, _, ⟨_, e, he, hitem, hrest⟩⟩ := Segment.append_iff.mp h.segment
  obtain ⟨hkey, hvalue⟩ := Prod.mk.inj hitem
  refine ⟨hs, hother.1, hother.2, e.next, ?_, hrest⟩
  rw [he, ← hkey, ← hvalue]

theorem update_of_notMem {f : Ptr → Option HashmapEntry} {S : List Ptr} {p q : Ptr}
    (o : Option HashmapEntry) (hp : p ∉ S) (hq : q ∈ S) : update f q o p = f p := by
  refine update_of_ne ?_ ..
  rintro rfl
  exact hp hq

theorem hashmapSet_found (value e : Ptr)
    (h : m.Chained (m.entries (m.bucket key)) (l ++ s :: r)) (hl : m.Absent key l)
    (hs : m.functions.comp s.2.1 key = true) :
    ∃ m', m.hashmapSet key value e = some (m', s.2.2) ∧
      m.Becomes m' (m.bucket key) (l ++ s :: r) (l ++ (s.1, s.2.1, value) :: r) := by
  have hx := h.head_ne_null (by simp)
  obtain ⟨hnull, hsl, hsr, next, he, hrest⟩ := h.at_slot
  have hmem : s.1 ∈ (l ++ s :: r).map (·.1) := by simp
  refine ⟨m.setEntry s.1 ⟨s.2.1, value, next⟩, ?_, ⟨rfl, rfl, ⟨?_, ?_⟩, fun _ _ => rfl, ?_, ?_⟩⟩
  · simp only [hashmapSet, if_neg hx, doWalk_eq hx, walk_found h hl hs]
    simp [readEntry, hnull, he]
  · exact h.segment.write ⟨s.2.1, value, next⟩ hsl rfl hrest hsr
  · have hnodup := h.nodup
    rw [map_append, map_cons] at hnodup ⊢
    exact hnodup
  · intro p hp _
    exact update_of_notMem _ hp hmem
  · intro p hp
    rw [map_append, map_cons] at hp ⊢
    exact .inl hp

/-- A new slot at the end of a bucket that is not empty. -/
theorem hashmapSet_append (h : m.Chained (m.entries (m.bucket key)) (l ++ [t]))
    (habsent : m.Absent key (l ++ [t])) (hnull : e ≠ null) (hfresh : m.entry e = none) :
    ∃ m', m.hashmapSet key value e = some (m', null) ∧
      m.Becomes m' (m.bucket key) (l ++ [t]) (l ++ [t] ++ [(e, m.functions.dup key, value)]) := by
  have hx := h.head_ne_null (by simp)
  obtain ⟨ht, htl, _, next, he, hrest⟩ := h.at_slot
  have hmem : t.1 ∈ (l ++ [t]).map (·.1) := by simp
  have he' : e ∉ (l ++ [t]).map (·.1) := by
    intro hmem'
    obtain ⟨u, hu, rfl⟩ := mem_map.mp hmem'
    exact h.segment.live hu hfresh
  have hte : t.1 ≠ e := fun heq => he' (heq ▸ hmem)
  refine ⟨(m.setEntry e ⟨m.functions.dup key, value, null⟩).setEntry t.1 ⟨t.2.1, t.2.2, e⟩, ?_,
    ⟨rfl, rfl, ⟨?_, ?_⟩, fun _ _ => rfl, ?_, ?_⟩⟩
  · simp only [hashmapSet, if_neg hx, doWalk_eq hx, walk_absent h habsent, lastAddr_concat]
    simp [allocEntry, setEntry, readEntry, hnull, ht, hte, he]
  · have hnew : Segment cell (update m.entry e (some ⟨m.functions.dup key, value, null⟩)) e
        [(e, m.functions.dup key, value)] null :=
      (Segment.cons_iff (update_self ..)).mpr ⟨rfl, rfl, rfl⟩
    have hnotMem : t.1 ∉ [(e, m.functions.dup key, value)].map (·.1) := by simpa using hte
    rw [append_assoc]
    exact (h.segment.update_of_notMem he' _).write ⟨t.2.1, t.2.2, e⟩ htl rfl hnew hnotMem
  · rw [map_append, ← cons_append]
    refine nodup_append.mpr ⟨h.nodup, nodup_singleton e, fun a ha b hb => ?_⟩
    obtain rfl := mem_singleton.mp hb
    rintro rfl
    exact (mem_cons.mp ha).elim hnull he'
  · intro p hp hp'
    refine (update_of_notMem _ hp hmem).trans (update_of_notMem _ hp' ?_)
    simp
  · intro p hp
    rw [map_append] at hp
    refine (mem_append.mp hp).imp_right fun heq => ?_
    obtain rfl := mem_singleton.mp heq
    exact hfresh

theorem hashmapSet_empty (h : m.entries (m.bucket key) = null) (hnull : e ≠ null)
    (hfresh : m.entry e = none) :
    ∃ m', m.hashmapSet key value e = some (m', null) ∧
      m.Becomes m' (m.bucket key) [] [(e, m.functions.dup key, value)] := by
  refine ⟨(m.setEntry e ⟨m.functions.dup key, value, null⟩).setHead (m.bucket key) e, ?_,
    ⟨rfl, rfl, ⟨?_, ?_⟩, ?_, ?_, ?_⟩⟩
  · simp only [hashmapSet, if_pos h, allocEntry, if_neg hnull]
    rfl
  · refine (Segment.cons_iff (update_self ..)).mpr ⟨update_self .., rfl, rfl⟩
  · simp [hnull.symm]
  · exact fun j hj => update_of_ne hj ..
  · exact fun p _ hp => update_of_notMem _ hp (by simp)
  · intro p hp
    obtain rfl := mem_singleton.mp hp
    exact .inr hfresh

theorem hashmapSet_absent (value : Ptr) (h : m.Chained (m.entries (m.bucket key)) ss)
    (habsent : m.Absent key ss) (hnull : e ≠ null) (hfresh : m.entry e = none) :
    ∃ m', m.hashmapSet key value e = some (m', null) ∧
      m.Becomes m' (m.bucket key) ss (ss ++ [(e, m.functions.dup key, value)]) := by
  obtain rfl | ⟨l, t, rfl⟩ := eq_nil_or_concat' ss
  · exact hashmapSet_empty h.segment hnull hfresh
  · exact hashmapSet_append h habsent hnull hfresh

/-- Without memory for the new slot the call does not return. -/
theorem hashmapSet_null (value : Ptr) (h : m.Chained (m.entries (m.bucket key)) ss)
    (habsent : m.Absent key ss) : m.hashmapSet key value null = none := by
  by_cases hx : m.entries (m.bucket key) = null
  · simp [hashmapSet, hx, allocEntry]
  · simp [hashmapSet, hx, doWalk_eq hx, walk_absent h habsent, allocEntry]

theorem hashmapRemove_first (h : m.Chained (m.entries (m.bucket key)) (s :: r))
    (hs : m.functions.comp s.2.1 key = true) :
    ∃ m', m.hashmapRemove key = some (m', s.2.2) ∧ m.Becomes m' (m.bucket key) (s :: r) r := by
  have hx := h.head_ne_null (cons_ne_nil s r)
  obtain ⟨hxs, _, next, he, hrest⟩ := Chained.cons h
  have hmem : m.entries (m.bucket key) ∈ (s :: r).map (·.1) := by simp [hxs]
  have hgone : m.entries (m.bucket key) ∉ r.map (·.1) := by
    rw [hxs]
    exact (nodup_cons.mp (nodup_cons.mp h.nodup).2).1
  refine ⟨(m.setHead (m.bucket key) next).deallocEntry (m.entries (m.bucket key)), ?_,
    ⟨rfl, rfl, ⟨?_, hrest.nodup⟩, ?_, ?_, ?_⟩⟩
  · simp [hashmapRemove, readEntry, hx, he, hs]
  · simp only [deallocEntry, setHead, update_self]
    exact hrest.segment.update_of_notMem hgone none
  · exact fun j hj => update_of_ne hj ..
  · intro p hp _
    exact update_of_notMem _ hp hmem
  · exact fun p hp => .inl (mem_cons_of_mem s.1 hp)

theorem hashmapRemove_later (h : m.Chained (m.entries (m.bucket key)) (l ++ [t] ++ s :: r))
    (hl : m.Absent key (l ++ [t])) (hs : m.functions.comp s.2.1 key = true) :
    ∃ m', m.hashmapRemove key = some (m', s.2.2) ∧
      m.Becomes m' (m.bucket key) (l ++ [t] ++ s :: r) (l ++ [t] ++ r) := by
  have hx := h.head_ne_null (by simp)
  obtain ⟨hsnull, hsl, hsr, next, hes, hrest⟩ := h.at_slot
  have hsplit : m.Chained (m.entries (m.bucket key)) (l ++ t :: s :: r) := by
    rw [append_assoc] at h
    exact h
  obtain ⟨htnull, htl, htr, next', het, _⟩ := hsplit.at_slot
  rw [map_cons, mem_cons, not_or] at htr
  have hmems : s.1 ∈ (l ++ [t] ++ s :: r).map (·.1) := by simp
  have hmemt : t.1 ∈ (l ++ [t] ++ s :: r).map (·.1) := by simp
  refine ⟨(m.setEntry t.1 ⟨t.2.1, t.2.2, next⟩).deallocEntry s.1, ?_,
    ⟨rfl, rfl, ⟨?_, ?_⟩, fun _ _ => rfl, ?_, ?_⟩⟩
  · -- the walk starts behind the first slot
    obtain ⟨u, k, hk⟩ := exists_cons_of_ne_nil (l := l ++ [t]) (by simp)
    have hlast : lastAddr u.1 k = t.1 := by
      have hlast' : lastAddr null (u :: k) = t.1 := hk ▸ lastAddr_concat
      exact hlast'
    rw [hk] at h hl
    obtain ⟨hxu, _, next₀, he, hchain⟩ := Chained.cons h
    have hu := hl u mem_cons_self
    have hwalk := walk_found (p := m.entries (m.bucket key)) hchain
      (fun v hv => hl v (mem_cons_of_mem u hv)) hs
    rw [← hxu] at hlast
    have hnext := hchain.head_ne_null (by simp)
    simp [hashmapRemove, readEntry, hx, he, hu, doWalk_eq hnext, hwalk, hlast, hsnull, hes,
      htnull, het]
  · have hgone : s.1 ∉ (l ++ t :: r).map (·.1) := by
      rw [append_cons, map_append, mem_append, not_or]
      exact ⟨hsl, hsr⟩
    rw [append_assoc]
    exact (hsplit.segment.write ⟨t.2.1, t.2.2, next⟩ htl rfl hrest htr.2).update_of_notMem hgone
      none
  · refine h.nodup.sublist (List.Sublist.cons_cons null ?_)
    simp
  · intro p hp _
    exact (update_of_notMem _ hp hmems).trans (update_of_notMem _ hp hmemt)
  · intro p hp
    rw [map_append, mem_append] at hp
    rw [map_append, mem_append, map_cons, mem_cons]
    exact .inl (hp.imp_right .inr)

/-- Looking for a key that a bucket with one entry does not have reads a null
entry. -/
theorem hashmapRemove_alone (h : m.Chained (m.entries (m.bucket key)) [s])
    (hs : m.functions.comp s.2.1 key = false) : m.hashmapRemove key = none := by
  obtain ⟨_, hx, next, he, hrest⟩ := Chained.cons h
  have hnext : next = null := hrest.segment
  simp [hashmapRemove, doWalk, walkStep, readEntry, hx, he, hs, hnext]

theorem hashmapRemove_absent (h : m.Chained (m.entries (m.bucket key)) ss)
    (habsent : m.Absent key ss) (hlength : ss.length ≠ 1) : m.hashmapRemove key = some
      (m, null) := by
  cases ss with
  | nil =>
    have hx : m.entries (m.bucket key) = null := h.segment
    simp [hashmapRemove, hx]
  | cons s ss =>
    obtain ⟨_, hx, next, he, hrest⟩ := Chained.cons h
    have hss : ss ≠ [] := by
      rintro rfl
      exact hlength rfl
    have hs := habsent s mem_cons_self
    have hwalk := walk_absent (p := m.entries (m.bucket key)) hrest
      fun t ht => habsent t (mem_cons_of_mem s ht)
    simp [hashmapRemove, readEntry, hx, he, hs, doWalk_eq (hrest.head_ne_null hss), hwalk]

end Hashmap

end Hos
