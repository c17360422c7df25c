import Hos.Containers.Hashmap
import Hos.Containers.ListCalls
import Hos.Lib.Run

/-!
# Sequences of calls on a hash map

The purpose of `hashmap.c` is a finite map on keys up to the comparison function.
Every bucket holds the keys with its hash, each of them once, and the lookup of a
key depends on one slot of its bucket only; so what `hashmap_set` and
`hashmap_remove` do to one slot is what they do to the map.

`hashmap_keys` and `hashmap_values` collect the slots of all buckets in a new
list. The order is that of the buckets, so all that the map says about the
result is that the keys are those of the map, each of them once.
-/

namespace Hos

open Option List Nat
open Function (update_of_ne update_self)

/-- A finite map on keys. -/
abbrev KeyMap := Ptr → Option Ptr

namespace Hashmap

/-- The buckets hold the given slots. -/
structure Holds (m : Hashmap) (bs : Nat → List Slot) : Prop where
  size_pos : 0 < m.size
  chained : ∀ i < m.size, m.Chained (m.entries i) (bs i)
  hashed : ∀ i < m.size, ∀ s ∈ bs i, m.bucket s.2.1 = i
  distinct : ∀ i < m.size, (bs i).Pairwise fun s t => m.functions.comp s.2.1 t.2.1 = false
  disjoint : ∀ i < m.size, ∀ j < m.size, i ≠ j → ((bs i).map (·.1)).Disjoint ((bs j).map (·.1))

/-- The slot of a key. -/
def slotOf (m : Hashmap) (bs : Nat → List Slot) (key : Ptr) : Option Slot :=
  (bs (m.bucket key)).find? fun s => m.functions.comp s.2.1 key

/-- The map is what the buckets hold. -/
def Represents (m : Hashmap) (f : KeyMap) : Prop :=
  ∃ bs, m.Holds bs ∧ ∀ k, f k = (m.slotOf bs k).map (·.2.2)

section

variable {m : Hashmap} {a b c : Ptr}

theorem comp_refl : m.functions.comp a a = true := m.functions.comp_equiv.refl a

theorem comp_comm : m.functions.comp a b = m.functions.comp b a :=
  Bool.eq_iff_iff.mpr ⟨(m.functions.comp_equiv.symm ·), (m.functions.comp_equiv.symm ·)⟩

/-- Keys that compare equal compare the same with every key. -/
theorem comp_congr (h : m.functions.comp a b = true) (c : Ptr) :
    m.functions.comp c a = m.functions.comp c b :=
  have equiv := m.functions.comp_equiv
  Bool.eq_iff_iff.mpr ⟨(equiv.trans · h), (equiv.trans · (equiv.symm h))⟩

theorem bucket_of_comp (h : m.functions.comp a b = true) : m.bucket a = m.bucket b := by
  rw [bucket, bucket, m.functions.hash_comp a b h]

end

section

variable {m m' : Hashmap} {bs : Nat → List Slot} {key k : Ptr} {s : Slot} {o : Option Slot}
  {l r ss : List Slot} {f : KeyMap}

theorem Holds.bucket_lt (hholds : m.Holds bs) (key : Ptr) : m.bucket key < m.size :=
  mod_lt _ hholds.size_pos

/-- The slot of a key in a bucket is between slots with other keys. -/
theorem exists_around (hdistinct : ss.Pairwise fun s t => m.functions.comp s.2.1 t.2.1 = false)
    (key : Ptr) : m.Absent key ss ∨ ∃ l s r, ss = l ++ s :: r ∧
      m.functions.comp s.2.1 key = true ∧ m.Absent key l ∧ m.Absent key r := by
  by_cases hfound : ∃ s ∈ ss, m.functions.comp s.2.1 key = true
  · obtain ⟨s, hs, hcomp⟩ := hfound
    obtain ⟨l, r, rfl⟩ := append_of_mem hs
    obtain ⟨_, hr, hl⟩ := pairwise_append.mp hdistinct
    refine .inr ⟨l, s, r, rfl, hcomp, fun t ht => ?_, fun t ht => ?_⟩
    · rw [← comp_congr hcomp]
      exact hl t ht s mem_cons_self
    · rw [← comp_congr hcomp, comp_comm]
      exact (pairwise_cons.mp hr).1 t ht
  · refine .inl fun s hs => Bool.eq_false_iff.mpr fun hcomp => hfound ⟨s, hs, hcomp⟩

/-- The lookup of a key that compares equal to `key` depends on one slot, every
other lookup on the slots around it. -/
theorem find_around (hl : m.Absent key l) (hr : m.Absent key r)
    (ho : ∀ s ∈ o, m.functions.comp s.2.1 key = true) (k : Ptr) :
    (l ++ (o.toList ++ r)).find? (fun s => m.functions.comp s.2.1 k) =
      if m.functions.comp key k then o else (l ++ r).find? fun s => m.functions.comp s.2.1 k := by
  have hnone : ∀ {ts : List Slot}, m.Absent key ts → m.functions.comp key k = true →
      ts.find? (fun s => m.functions.comp s.2.1 k) = none := by
    intro ts hts hk
    simp only [← comp_congr hk]
    exact find?_eq_none.mpr fun t ht => Bool.eq_false_iff.mp (hts t ht)
  cases hk : m.functions.comp key k with
  | true =>
    rw [if_pos rfl, find?_append, hnone hl hk, find?_append, hnone hr hk]
    cases o with
    | none => rfl
    | some s =>
      simp [← comp_congr hk, ho s rfl]
  | false =>
    have hskip : o.toList.find? (fun s => m.functions.comp s.2.1 k) = none := by
      refine find?_eq_none.mpr fun s hs => ?_
      rw [comp_comm, comp_congr (ho s (mem_toList.mp hs)), comp_comm, hk]
      exact Bool.false_ne_true
    rw [if_neg Bool.false_ne_true, find?_append, find?_append, hskip, find?_append]
    rfl

theorem distinct_around (hl : m.Absent key l) (hr : m.Absent key r)
    (ho : ∀ s ∈ o, m.functions.comp s.2.1 key = true)
    (hdistinct : (l ++ r).Pairwise fun s t => m.functions.comp s.2.1 t.2.1 = false) :
    (l ++ (o.toList ++ r)).Pairwise fun s t => m.functions.comp s.2.1 t.2.1 = false := by
  cases o with
  | none => exact hdistinct
  | some s =>
    have hs := ho s rfl
    obtain ⟨hll, hrr, hlr⟩ := pairwise_append.mp hdistinct
    refine pairwise_append.mpr ⟨hll, pairwise_cons.mpr ⟨fun t ht => ?_, hrr⟩, ?_⟩
    · rw [comp_comm, comp_congr hs]
      exact hr t ht
    · intro t ht u hu
      obtain rfl | hu := mem_cons.mp hu
      · rw [comp_congr hs]
        exact hl t ht
      · exact hlr t ht u hu

theorem Holds.update {i : Nat} {ts : List Slot} (hholds : m.Holds bs) (hi : i < m.size)
    (hbecomes : m.Becomes m' i (bs i) ts) (hhashed : ∀ t ∈ ts, m.bucket t.2.1 = i)
    (hdistinct : ts.Pairwise fun s t => m.functions.comp s.2.1 t.2.1 = false) :
    m'.Holds (Function.update bs i ts) := by
  have hbucket : ∀ k, m'.bucket k = m.bucket k := fun k => by
    rw [bucket, bucket, hbecomes.functions, hbecomes.size]
  have hother : ∀ j < m.size, j ≠ i → (ts.map (·.1)).Disjoint ((bs j).map (·.1)) := by
    intro j hj hji p hp hp'
    obtain hmem | hnone := hbecomes.fresh p hp
    · exact hholds.disjoint i hi j hj hji.symm hmem hp'
    · obtain ⟨t, ht, rfl⟩ := mem_map.mp hp'
      exact (hholds.chained j hj).segment.live ht hnone
  refine ⟨hbecomes.size ▸ hholds.size_pos, fun j hj => ?_, fun j hj => ?_, fun j hj => ?_, ?_⟩
  · rw [hbecomes.size] at hj
    by_cases hji : j = i
    · subst hji
      rw [update_self]
      exact hbecomes.chained
    · rw [update_of_ne hji, hbecomes.heads j hji]
      obtain ⟨hsegment, hnodup⟩ := hholds.chained j hj
      refine ⟨hsegment.congr fun t ht => hbecomes.within t.1 ?_ ?_, hnodup⟩
      · exact fun hmem => hholds.disjoint i hi j hj (Ne.symm hji) hmem (mem_map_of_mem ht)
      · exact fun hmem => hother j hj hji hmem (mem_map_of_mem ht)
  · rw [hbecomes.size] at hj
    by_cases hji : j = i
    · subst hji
      rw [update_self]
      exact fun t ht => (hbucket _).trans (hhashed t ht)
    · rw [update_of_ne hji]
      exact fun t ht => (hbucket _).trans (hholds.hashed j hj t ht)
  · rw [hbecomes.size] at hj
    rw [hbecomes.functions]
    by_cases hji : j = i
    · subst hji
      rwa [update_self]
    · rw [update_of_ne hji]
      exact hholds.distinct j hj
  · intro j hj k hk hne
    rw [hbecomes.size] at hj hk
    by_cases hji : j = i
    · subst hji
      rw [update_self, update_of_ne hne.symm]
      exact hother k hk hne.symm
    · rw [update_of_ne hji]
      by_cases hki : k = i
      · subst hki
        rw [update_self]
        exact fun p hp hp' => hother j hj hji hp' hp
      · rw [update_of_ne hki]
        exact hholds.disjoint j hj k hk hne

/-- What happens to the slot of a key happens to the key in the map. -/
theorem Holds.change {o' : Option Slot} (hholds : m.Holds bs)
    (hf : ∀ k, f k = (m.slotOf bs k).map (·.2.2)) (hl : m.Absent key l) (hr : m.Absent key r)
    (ho : ∀ s ∈ o, m.functions.comp s.2.1 key = true)
    (ho' : ∀ s ∈ o', m.functions.comp s.2.1 key = true)
    (hsplit : bs (m.bucket key) = l ++ (o.toList ++ r))
    (hbecomes : m.Becomes m' (m.bucket key) (bs (m.bucket key)) (l ++ (o'.toList ++ r))) :
    m'.Represents fun k => if m.functions.comp key k then o'.map (·.2.2) else f k := by
  have hi := hholds.bucket_lt key
  have hsub : (l ++ r).Sublist (bs (m.bucket key)) := by
    rw [hsplit]
    simp
  refine ⟨Function.update bs (m.bucket key) (l ++ (o'.toList ++ r)),
    hholds.update hi hbecomes (fun t ht => ?_) ?_, fun k => ?_⟩
  · rw [mem_append, mem_append, mem_toList] at ht
    obtain hmem | hmem | hmem := ht
    · exact hholds.hashed _ hi t (hsub.subset (mem_append_left r hmem))
    · exact bucket_of_comp (ho' t hmem)
    · exact hholds.hashed _ hi t (hsub.subset (mem_append_right l hmem))
  · exact distinct_around hl hr ho' ((hholds.distinct _ hi).sublist hsub)
  · have hbucket : m'.bucket k = m.bucket k := by
      rw [bucket, bucket, hbecomes.functions, hbecomes.size]
    dsimp only
    rw [hf, slotOf, slotOf, hbucket, hbecomes.functions]
    by_cases hk : m.bucket k = m.bucket key
    · rw [hk, update_self, find_around hl hr ho', hsplit, find_around hl hr ho]
      split
      · rfl
      · rfl
    · have hcomp : ¬m.functions.comp key k = true := fun heq => hk (bucket_of_comp heq).symm
      rw [update_of_ne hk, if_neg hcomp]

end

section

variable {m : Hashmap} {bs : Nat → List Slot} {field : HashmapEntry → Ptr} {g : Ptr × Ptr → Ptr}
  {kmalloc : Nat → Ptr} {h : ListHeap} {l x : Ptr} {ss : List Slot} {vs : List Ptr} {n : Nat}
  {xs : List (Ptr × Ptr)}

/-- The insertions that collect some values. -/
def insertAll (kmalloc : Nat → Ptr) (l : Ptr) : List Ptr → ListHeap × Nat → Option (ListHeap × Nat)
  | [], s => some s
  | v :: vs, s => (s.1.listInsertBack l v (kmalloc s.2)).bind fun r =>
    insertAll kmalloc l vs (r.1, s.2 + 1)

theorem insertAll_append (vs ws : List Ptr) (s : ListHeap × Nat) :
    insertAll kmalloc l (vs ++ ws) s = (insertAll kmalloc l vs s).bind
      (insertAll kmalloc l ws) := by
  induction vs generalizing s with
  | nil => rfl
  | cons v vs ih => simp only [cons_append, insertAll, ih, bind_assoc]

/-- The inner loop collects a bucket. -/
theorem collect_bucket (hfield : ∀ e : HashmapEntry, field e = g (e.key, e.value))
    (hchained : m.Chained x ss) (s : ListHeap × Nat) :
    (whileLoop (fun s : Ptr × ListHeap × Nat => decide (s.1 ≠ null))
        (m.collectStep field kmalloc l) (x, s)).map (·.2) =
      insertAll kmalloc l (ss.map fun t => g t.2) s := by
  induction ss generalizing x s with
  | nil =>
    have hx : x = null := hchained.segment
    rw [whileLoop_of_false (by simp [hx])]
    rfl
  | cons t ss ih =>
    obtain ⟨_, hx, next, he, hrest⟩ := Chained.cons hchained
    have hstep : m.collectStep field kmalloc l (x, s) =
        (s.1.listInsertBack l (g t.2) (kmalloc s.2)).map fun r => (next, r.1, s.2 + 1) := by
      simp only [collectStep, readEntry, if_neg hx, he, bind_eq_bind, bind_some, hfield]
      cases s.1.listInsertBack l (g (t.2.1, t.2.2)) (kmalloc s.2) with
      | none => rfl
      | some r => rfl
    rw [map_cons, insertAll]
    cases hinsert : s.1.listInsertBack l (g t.2) (kmalloc s.2) with
    | none =>
      rw [hinsert] at hstep
      rw [whileLoop_of_none (by simp [hx]) hstep]
      rfl
    | some r =>
      rw [hinsert] at hstep
      rw [whileLoop_of_true (by simp [hx]) hstep]
      exact ih hrest (r.1, s.2 + 1)

/-- All slots, bucket by bucket. -/
def slots (m : Hashmap) (bs : Nat → List Slot) : List Slot := (List.range m.size).flatMap bs

theorem collect_eq (hfield : ∀ e : HashmapEntry, field e = g (e.key, e.value))
    (hholds : m.Holds bs) :
    m.collect field h kmalloc = (h.listCreate (kmalloc 0)).bind fun r =>
      (insertAll kmalloc r.2 ((m.slots bs).map fun t => g t.2) (r.1, 1)).map fun s =>
        (s.1, r.2) := by
  have hloop : ∀ (l : Ptr) (is : List Nat) (s : ListHeap × Nat), (∀ i ∈ is, i < m.size) →
      is.foldlM (fun s i => (whileLoop (fun s : Ptr × ListHeap × Nat => decide (s.1 ≠ null))
        (m.collectStep field kmalloc l) (m.entries i, s)).map (·.2)) s =
      insertAll kmalloc l ((is.flatMap bs).map fun t => g t.2) s := by
    intro l is
    induction is with
    | nil => exact fun s _ => rfl
    | cons i is ih =>
      intro s his
      rw [foldlM_cons, collect_bucket hfield (hholds.chained i (his i mem_cons_self)),
        flatMap_cons, map_append, insertAll_append]
      exact congrArg _ (funext fun s' => ih s' fun j hj => his j (mem_cons_of_mem i hj))
  rw [collect, bind_eq_bind]
  refine congrArg _ (funext fun r => ?_)
  obtain ⟨h', l⟩ := r
  dsimp only
  rw [hloop l (range m.size) (h', 1) fun i hi => mem_range.mp hi, map_eq_bind]
  rfl

/-- `kmalloc` answers NULL or memory that is not in use and that it has not
answered before. -/
def Answers (h : ListHeap) (kmalloc : Nat → Ptr) : Prop :=
  ∀ j, kmalloc j = null ∨ h.Fresh (kmalloc j) ∧ ∀ i < j, kmalloc i ≠ kmalloc j

theorem insertAll_eq_none {j : Nat} (hj : j < vs.length) (hnull : kmalloc (n + j) = null) :
    insertAll kmalloc l vs (h, n) = none := by
  induction vs generalizing h n j with
  | nil => exact absurd hj (not_lt_zero j)
  | cons v vs ih =>
    rw [insertAll]
    cases j with
    | zero =>
      have hexec : h.listInsertBack l v (kmalloc n) = none := by
        simp [ListHeap.listInsertBack, ListHeap.nodeAlloc, show kmalloc n = null from hnull]
      rw [hexec]
      rfl
    | succ j =>
      cases h.listInsertBack l v (kmalloc n) with
      | none => rfl
      | some r =>
        rw [length_cons] at hj
        refine ih (j := j) (by omega) ?_
        rw [← hnull]
        congr 1
        omega

/-- The insertions give a list with the values, in this order. -/
theorem insertAll_becomes (hholds : h.Holds l xs)
    (hfresh : ∀ j ≥ n, kmalloc j ≠ null → h.node (kmalloc j) = none)
    (hdistinct : ∀ i j, i < j → kmalloc j ≠ null → kmalloc i ≠ kmalloc j)
    (hnull : ∀ j < vs.length, kmalloc (n + j) ≠ null) :
    ∃ h' ys, insertAll kmalloc l vs (h, n) = some (h', n + vs.length) ∧
      h.Becomes h' l xs (xs ++ ys) ∧ ys.map (·.2) = vs := by
  induction vs generalizing h n xs with
  | nil => exact ⟨h, [], rfl, by simpa using ListCall.becomes_self hholds, rfl⟩
  | cons v vs ih =>
    have hn : kmalloc n ≠ null := hnull 0 (succ_pos _)
    obtain ⟨h₁, hinsert, hfirst⟩ := ListHeap.listInsertBack_becomes (v := v) hn
      (hfresh n (le_refl n) hn) hholds
    have hfresh₁ : ∀ j ≥ n + 1, kmalloc j ≠ null → h₁.node (kmalloc j) = none := by
      intro j hj hjnull
      have hnode := hfresh j (by omega) hjnull
      have hxs := hholds.notMem_of_fresh hnode
      rw [hfirst.within.nodes _ hxs ?_, hnode]
      rw [map_append, mem_append, not_or]
      refine ⟨hxs, fun hmem => hdistinct n j hj hjnull ?_⟩
      exact (mem_singleton.mp hmem).symm
    have hnull₁ : ∀ j < vs.length, kmalloc (n + 1 + j) ≠ null := by
      intro j hj
      rw [add_assoc, add_comm 1]
      exact hnull (j + 1) (succ_lt_succ hj)
    obtain ⟨h₂, ys, hrest, hsecond, hvalues⟩ := ih hfirst.holds hfresh₁ hnull₁
    refine ⟨h₂, (kmalloc n, v) :: ys, ?_, ?_, ?_⟩
    · rw [insertAll, hinsert, bind_some, hrest, length_cons]
      congr 2
      omega
    · have hboth := hfirst.trans hsecond fun y hy => by
        rw [map_append]
        exact mem_append_left _ hy
      rwa [append_assoc] at hboth
    · rw [map_cons, hvalues]

/-- Collecting fails when `kmalloc` does. -/
theorem kmalloc_of_collect (field : HashmapEntry → Ptr) {r : ListHeap × Ptr}
    (hfield : ∀ e : HashmapEntry, field e = g (e.key, e.value)) (hholds : m.Holds bs)
    (hcollect : m.collect field h kmalloc = some r) : ∀ j ≤ (m.slots bs).length,
      kmalloc j ≠ null := by
  intro j hj hnull
  rw [collect_eq hfield hholds] at hcollect
  obtain ⟨r, hcreate, hinsert⟩ := bind_eq_some_iff.mp hcollect
  cases j with
  | zero =>
    rw [ListHeap.listCreate, if_pos hnull] at hcreate
    cases hcreate
  | succ j =>
    rw [insertAll_eq_none (j := j) (by rw [length_map]; omega)
      (by rw [add_comm]; exact hnull)] at hinsert
    cases hinsert

/-- Otherwise it gives a new list of what the slots hold. -/
theorem collect_becomes (field : HashmapEntry → Ptr)
    (hfield : ∀ e : HashmapEntry, field e = g (e.key, e.value))
    (hholds : m.Holds bs) (hanswers : Answers h kmalloc)
    (hnull : ∀ j ≤ (m.slots bs).length, kmalloc j ≠ null) :
    ∃ h' l xs, m.collect field h kmalloc = some (h', l) ∧ h.Becomes h' l [] xs ∧
      xs.map (·.2) = (m.slots bs).map fun t => g t.2 := by
  rw [collect_eq hfield hholds]
  have hlist : kmalloc 0 ≠ null := hnull 0 (zero_le _)
  have hempty := ListHeap.becomes_setList_empty (h := h) hlist
  have hfresh : ∀ j ≥ 1, kmalloc j ≠ null → h.node (kmalloc j) = none := fun j _ hj =>
    (((hanswers j).resolve_left hj).1.resolve_left hj).1
  have hdistinct : ∀ i j, i < j → kmalloc j ≠ null → kmalloc i ≠ kmalloc j := fun i j hij hj =>
    ((hanswers j).resolve_left hj).2 i hij
  have hlater : ∀ j < ((m.slots bs).map fun t => g t.2).length, kmalloc (1 + j) ≠ null := by
    intro j hj
    rw [length_map] at hj
    exact hnull (1 + j) (by omega)
  obtain ⟨h', ys, hinsert, hbecomes, hvalues⟩ :=
    insertAll_becomes hempty.holds hfresh hdistinct hlater
  refine ⟨h', kmalloc 0, ys, ?_, hempty.trans hbecomes (by simp), hvalues⟩
  rw [ListHeap.listCreate, if_neg hlist, bind_some, hinsert]
  rfl

end

/-- The keys of a map, each of them once. -/
def Enumerates (functions : KeyFunctions) (f : KeyMap) (ks : List Ptr) : Prop :=
  (ks.Pairwise fun a b => functions.comp a b = false) ∧
    ∀ k, f k ≠ none ↔ ∃ k' ∈ ks, functions.comp k' k = true

variable {m : Hashmap} {bs : Nat → List Slot} {f : KeyMap} {s : Slot} {ks ks' : List Ptr}

theorem mem_slots : s ∈ m.slots bs ↔ ∃ i < m.size, s ∈ bs i := by
  simp only [slots, mem_flatMap, mem_range]

theorem Holds.slotOf_of_mem (hholds : m.Holds bs) (hs : s ∈ m.slots bs) :
    m.slotOf bs s.2.1 = some s := by
  obtain ⟨i, hi, hmem⟩ := mem_slots.mp hs
  have hbucket := hholds.hashed i hi s hmem
  obtain ⟨l, r, hsplit⟩ := append_of_mem hmem
  have hdistinct := hholds.distinct i hi
  rw [hsplit] at hdistinct
  have hl : l.find? (fun t => m.functions.comp t.2.1 s.2.1) = none := by
    refine find?_eq_none.mpr fun t ht hcomp => ?_
    rw [(pairwise_append.mp hdistinct).2.2 t ht s mem_cons_self] at hcomp
    cases hcomp
  rw [slotOf, hbucket, hsplit, find?_append, hl, none_or]
  exact find?_cons_of_pos comp_refl

theorem Holds.enumerates (hholds : m.Holds bs) (hf : ∀ k, f k = (m.slotOf bs k).map (·.2.2)) :
    Enumerates m.functions f ((m.slots bs).map (·.2.1)) := by
  constructor
  · rw [pairwise_map, slots, pairwise_flatMap]
    refine ⟨fun i hi => hholds.distinct i (mem_range.mp hi), ?_⟩
    refine nodup_range.imp_of_mem fun {i j} hi hj hne s hs t ht => ?_
    refine Bool.eq_false_iff.mpr fun hcomp => hne ?_
    rw [← hholds.hashed i (mem_range.mp hi) s hs,
      ← hholds.hashed j (mem_range.mp hj) t ht]
    exact bucket_of_comp hcomp
  · intro k
    rw [hf, Ne, map_eq_none_iff, ← Ne, ne_none_iff_exists']
    constructor
    · rintro ⟨s, hs⟩
      have hmem := mem_of_find?_eq_some hs
      have hcomp : m.functions.comp s.2.1 k = true := by simpa using find?_some hs
      exact ⟨s.2.1, mem_map_of_mem (mem_slots.mpr ⟨_, hholds.bucket_lt k, hmem⟩), hcomp⟩
    · rintro ⟨k', hk', hcomp⟩
      obtain ⟨s, hs, rfl⟩ := mem_map.mp hk'
      obtain ⟨i, hi, hmem⟩ := mem_slots.mp hs
      have hbucket : m.bucket k = i := by
        rw [← bucket_of_comp hcomp, hholds.hashed i hi s hmem]
      exact isSome_iff_exists.mp (find?_isSome.mpr ⟨s, hbucket ▸ hmem, hcomp⟩)

/-- Keys that are all different fit in any list that has them all. -/
theorem length_le_of_comp (hks : ks.Pairwise fun a b => m.functions.comp a b = false)
    (hsub : ∀ k ∈ ks, ∃ k' ∈ ks', m.functions.comp k' k = true) : ks.length ≤ ks'.length := by
  induction ks generalizing ks' with
  | nil => exact zero_le _
  | cons k ks ih =>
    obtain ⟨hk, hks⟩ := pairwise_cons.mp hks
    obtain ⟨k', hk', hcomp⟩ := hsub k mem_cons_self
    obtain ⟨l, r, rfl⟩ := append_of_mem hk'
    have hrest : ks.length ≤ (l ++ r).length := by
      refine ih hks fun a ha => ?_
      obtain ⟨a', ha', hcomp'⟩ := hsub a (mem_cons_of_mem k ha)
      refine ⟨a', ?_, hcomp'⟩
      obtain rfl | hmem := mem_cons.mp (perm_middle.mem_iff.mp ha')
      · have hne := hk a ha
        rw [comp_comm, ← comp_congr hcomp, comp_comm, hcomp'] at hne
        cases hne
      · exact hmem
    rw [length_append] at hrest
    rw [length_append, length_cons, length_cons]
    omega

theorem Enumerates.length_eq (h : Enumerates m.functions f ks) (h' : Enumerates m.functions f ks') :
    ks.length = ks'.length := by
  have hsub : ∀ {ks ks'}, Enumerates m.functions f ks → Enumerates m.functions f ks' →
      ∀ k ∈ ks, ∃ k' ∈ ks', m.functions.comp k' k = true := fun h h' k hk =>
    (h'.2 k).mp ((h.2 k).mpr ⟨k, hk, comp_refl⟩)
  exact le_antisymm (length_le_of_comp h.1 (hsub h h')) (length_le_of_comp h'.1 (hsub h' h))

end Hashmap

/-- A call of one of the functions of `hashmap.c`. The last argument of the calls
that allocate is what `kmalloc` answers, and the lists are those there are when
the call is made. -/
inductive HashmapCall where
  | set (key value entry : Ptr)
  | get (key : Ptr)
  | has (key : Ptr)
  | remove (key : Ptr)
  | keys (lists : ListHeap) (kmalloc : Nat → Ptr)
  | values (lists : ListHeap) (kmalloc : Nat → Ptr)

/-- What a call returns. -/
inductive HashmapResult where
  | pointer (p : Ptr)
  | flag (b : Bool)
  | list (lists : ListHeap) (l : Ptr)

namespace HashmapCall

open Hashmap HashmapResult

/-- The call on the table. -/
def exec : HashmapCall → Hashmap → Option (Hashmap × HashmapResult)
  | set key value entry, m => (m.hashmapSet key value entry).map fun r => (r.1, pointer r.2)
  | get key, m => (m.hashmapGet key).map fun v => (m, pointer v)
  | has key, m => (m.hashmapHas key).map fun b => (m, flag b)
  | remove key, m => (m.hashmapRemove key).map fun r => (r.1, pointer r.2)
  | keys lists kmalloc, m => (m.hashmapKeys lists kmalloc).map fun r => (m, list r.1 r.2)
  | values lists kmalloc, m => (m.hashmapValues lists kmalloc).map fun r => (m, list r.1 r.2)

/-- What the call should do to the map. -/
def next (functions : KeyFunctions) : HashmapCall → KeyMap → KeyMap
  | set key value _, f => fun k => if functions.comp key k then some value else f k
  | remove key, f => fun k => if functions.comp key k then none else f k
  | _, f => f

/-- What the call should return. -/
def Right (functions : KeyFunctions) : HashmapCall → KeyMap → HashmapResult → Prop
  | set key _ _, f, r => r = pointer ((f key).getD null)
  | get key, f, r => r = pointer ((f key).getD null)
  | has key, f, r => r = flag (f key).isSome
  | remove key, f, r => r = pointer ((f key).getD null)
  | keys lists _, f, r => ∃ lists' l xs, r = list lists' l ∧ lists.Becomes lists' l [] xs ∧
      Enumerates functions f (xs.map (·.2))
  | values lists _, f, r => ∃ lists' l xs ks, r = list lists' l ∧ lists.Becomes lists' l [] xs ∧
      Enumerates functions f ks ∧ xs.map (fun x => some x.2) = ks.map f

/-- `kmalloc` answers NULL or memory that is not in use. -/
def Fits : HashmapCall → Hashmap → Prop
  | set _ _ entry, m => entry = null ∨ m.entry entry = none
  | keys lists kmalloc, _ => Answers lists kmalloc
  | values lists kmalloc, _ => Answers lists kmalloc
  | _, _ => True

/-- `kmalloc` has an answer when it is asked, and `hashmap_remove` does not look for
an absent key in a bucket with one entry. -/
def Safe : HashmapCall → Hashmap → KeyMap → Prop
  | set key _ entry, _, f => f key ≠ none ∨ entry ≠ null
  | remove key, m, f => f key ≠ none ∨
      ∀ e, m.readEntry (m.entries (m.bucket key)) = some e → e.next ≠ null
  | keys _ kmalloc, m, f => ∀ ks, Enumerates m.functions f ks → ∀ j ≤ ks.length, kmalloc j ≠ null
  | values _ kmalloc, m, f => ∀ ks, Enumerates m.functions f ks → ∀ j ≤ ks.length, kmalloc j ≠ null
  | _, _, _ => True

/-- The call returns what it should and leaves a table for the map that it should
lead to. -/
def Refines (call : HashmapCall) (m : Hashmap) (f : KeyMap) : Prop :=
  ∃ m' r, call.exec m = some (m', r) ∧ call.Right m.functions f r ∧
    m'.Represents (call.next m.functions f)

section

variable {m : Hashmap} {bs : Nat → List Slot} {f : KeyMap} {key value e : Ptr}

/-- The bucket of a key has no slot for it, or one between slots with other keys. -/
theorem bucket_cases (hholds : m.Holds bs) (hf : ∀ k, f k = (m.slotOf bs k).map (·.2.2))
    (key : Ptr) :
    f key = none ∧ m.Absent key (bs (m.bucket key)) ∨
      ∃ l s r, f key = some s.2.2 ∧ bs (m.bucket key) = l ++ s :: r ∧
        m.functions.comp s.2.1 key = true ∧ m.Absent key l ∧ m.Absent key r := by
  obtain habsent | ⟨l, s, r, hsplit, hs, hl, hr⟩ :=
    exists_around (hholds.distinct _ (hholds.bucket_lt key)) key
  · refine .inl ⟨?_, habsent⟩
    rw [hf, slotOf, find?_eq_none.mpr fun s hs => Bool.eq_false_iff.mp (habsent s hs)]
    rfl
  · refine .inr ⟨l, s, r, ?_, hsplit, hs, hl, hr⟩
    have hfind := find_around (o := some s) hl hr (fun t ht => some.inj ht ▸ hs) key
    rw [if_pos comp_refl] at hfind
    rw [hf, slotOf, hsplit]
    exact congrArg _ hfind

theorem forall_mem_some {s : Slot} {P : Slot → Prop} (h : P s) : ∀ t ∈ some s, P t :=
  fun _ ht => some.inj ht ▸ h

theorem forall_mem_none {P : Slot → Prop} : ∀ t ∈ (none : Option Slot), P t :=
  fun _ ht => absurd ht (not_mem_none _)

theorem set_refines_iff (hrep : m.Represents f) (hfits : e = null ∨ m.entry e = none) :
    (set key value e).Refines m f ↔ f key ≠ none ∨ e ≠ null := by
  obtain ⟨bs, hholds, hf⟩ := hrep
  have hchained := hholds.chained _ (hholds.bucket_lt key)
  obtain ⟨hnone, habsent⟩ | ⟨l, s, r, hsome, hsplit, hs, hl, hr⟩ := bucket_cases hholds hf key
  · by_cases he : e = null
    · refine iff_of_false ?_ (by simp [hnone, he])
      rintro ⟨m', r, hexec, _⟩
      simp [exec, he, hashmapSet_null value hchained habsent] at hexec
    · obtain ⟨m', hexec, hbecomes⟩ := hashmapSet_absent value hchained habsent he
        (hfits.resolve_left he)
      refine iff_of_true ⟨m', pointer null, by simp [exec, hexec], by simp [Right, hnone], ?_⟩
        (.inr he)
      have hend : bs (m.bucket key) = bs (m.bucket key) ++ ((none : Option Slot).toList ++ []) := by
        simp
      exact hholds.change hf habsent (by simp [Absent]) forall_mem_none
        (forall_mem_some (s := (e, m.functions.dup key, value)) (m.functions.comp_dup key)) hend
        hbecomes
  · rw [hsplit] at hchained
    obtain ⟨m', hexec, hbecomes⟩ := hashmapSet_found value e hchained hl hs
    refine iff_of_true ⟨m', pointer s.2.2, by simp [exec, hexec], by simp [Right, hsome], ?_⟩
      (.inl (by simp [hsome]))
    rw [← hsplit] at hbecomes
    exact hholds.change hf hl hr (forall_mem_some hs)
      (forall_mem_some (s := (s.1, s.2.1, value)) hs) hsplit hbecomes

theorem get_refines (hrep : m.Represents f) : (get key).Refines m f := by
  have hmap := hrep
  obtain ⟨bs, hholds, hf⟩ := hrep
  have hchained := hholds.chained _ (hholds.bucket_lt key)
  obtain ⟨hnone, habsent⟩ | ⟨l, s, r, hsome, hsplit, hs, hl, hr⟩ := bucket_cases hholds hf key
  · refine ⟨m, pointer null, ?_, by simp [Right, hnone], hmap⟩
    simp [exec, hashmapGet, walk_absent hchained habsent]
  · rw [hsplit] at hchained
    obtain ⟨hnull, _, _, n, he, _⟩ := hchained.at_slot
    refine ⟨m, pointer s.2.2, ?_, by simp [Right, hsome], hmap⟩
    simp [exec, hashmapGet, walk_found hchained hl hs, readEntry, hnull, he]

theorem has_refines (hrep : m.Represents f) : (has key).Refines m f := by
  have hmap := hrep
  obtain ⟨bs, hholds, hf⟩ := hrep
  have hchained := hholds.chained _ (hholds.bucket_lt key)
  obtain ⟨hnone, habsent⟩ | ⟨l, s, r, hsome, hsplit, hs, hl, hr⟩ := bucket_cases hholds hf key
  · refine ⟨m, flag false, ?_, by simp [Right, hnone], hmap⟩
    simp [exec, hashmapHas, walk_absent hchained habsent]
  · rw [hsplit] at hchained
    refine ⟨m, flag true, ?_, by simp [Right, hsome], hmap⟩
    simp [exec, hashmapHas, walk_found hchained hl hs]

/-- Whether the first entry of a chain is the only one can be read from it. -/
theorem next_ne_null_iff {x : Ptr} {ss : List Slot} (hchained : m.Chained x ss) :
    (∀ e, m.readEntry x = some e → e.next ≠ null) ↔ ss.length ≠ 1 := by
  cases ss with
  | nil =>
    have hx : x = null := hchained.segment
    simp [readEntry, hx]
  | cons s ss =>
    obtain ⟨_, hx, next, he, hrest⟩ := Chained.cons hchained
    simp only [readEntry, if_neg hx, he, some.injEq, forall_eq', length_cons]
    cases ss with
    | nil =>
      have hnext : next = null := hrest.segment
      simp [hnext]
    | cons t ss => simpa using hrest.head_ne_null (cons_ne_nil t ss)

/-- Keys that compare equal are the same key of the map. -/
theorem eq_of_comp (hf : ∀ k, f k = (m.slotOf bs k).map (·.2.2)) {k : Ptr}
    (hcomp : m.functions.comp key k = true) : f key = f k := by
  rw [hf, hf, slotOf, slotOf, bucket_of_comp hcomp]
  simp only [comp_congr hcomp]

theorem remove_absent_refines_iff (hholds : m.Holds bs)
    (hf : ∀ k, f k = (m.slotOf bs k).map (·.2.2)) (hnone : f key = none)
    (habsent : m.Absent key (bs (m.bucket key))) :
    (remove key).Refines m f ↔ (bs (m.bucket key)).length ≠ 1 := by
  have hchained := hholds.chained _ (hholds.bucket_lt key)
  constructor
  · rintro ⟨m', r, hexec, _⟩ hlength
    obtain ⟨s, hs⟩ := length_eq_one_iff.mp hlength
    rw [hs] at hchained habsent
    simp [exec, hashmapRemove_alone hchained (habsent s mem_cons_self)] at hexec
  · intro hlength
    have hexec := hashmapRemove_absent hchained habsent hlength
    refine ⟨m, pointer null, by simp [exec, hexec], by simp [Right, hnone], bs, hholds, fun k => ?_⟩
    rw [← hf]
    refine ite_eq_right_iff.mpr fun hcomp => ?_
    rw [← eq_of_comp hf hcomp, hnone]

theorem remove_refines_iff (hrep : m.Represents f) :
    (remove key).Refines m f ↔ f key ≠ none ∨
      ∀ e, m.readEntry (m.entries (m.bucket key)) = some e → e.next ≠ null := by
  obtain ⟨bs, hholds, hf⟩ := hrep
  have hchained := hholds.chained _ (hholds.bucket_lt key)
  obtain ⟨hnone, habsent⟩ | ⟨l, s, r, hsome, hsplit, hs, hl, hr⟩ := bucket_cases hholds hf key
  · rw [next_ne_null_iff hchained, remove_absent_refines_iff hholds hf hnone habsent]
    simp [hnone]
  · have hremove : ∃ m', m.hashmapRemove key = some (m', s.2.2) ∧
        m.Becomes m' (m.bucket key) (l ++ s :: r) (l ++ r) := by
      rw [hsplit] at hchained
      obtain rfl | ⟨l, t, rfl⟩ := eq_nil_or_concat' l
      · exact hashmapRemove_first hchained hs
      · exact hashmapRemove_later hchained hl hs
    obtain ⟨m', hexec, hbecomes⟩ := hremove
    refine iff_of_true ⟨m', pointer s.2.2, by simp [exec, hexec], by simp [Right, hsome], ?_⟩
      (.inl (by simp [hsome]))
    rw [← hsplit] at hbecomes
    exact hholds.change hf hl hr (forall_mem_some hs) forall_mem_none hsplit hbecomes

/-- `kmalloc` answers whenever the keys of the map are collected. -/
theorem safe_collect_iff {kmalloc : Nat → Ptr} (hholds : m.Holds bs)
    (hf : ∀ k, f k = (m.slotOf bs k).map (·.2.2)) :
    (∀ ks, Enumerates m.functions f ks → ∀ j ≤ ks.length, kmalloc j ≠ null) ↔
      ∀ j ≤ (m.slots bs).length, kmalloc j ≠ null := by
  have hkeys := hholds.enumerates hf
  constructor
  · intro h j hj
    exact h _ hkeys j (by rwa [length_map])
  · intro h ks hks j hj
    rw [hks.length_eq hkeys, length_map] at hj
    exact h j hj

variable {lists : ListHeap} {kmalloc : Nat → Ptr}

theorem keys_refines_iff (hrep : m.Represents f) (hfits : Answers lists kmalloc) :
    (keys lists kmalloc).Refines m f ↔
      ∀ ks, Enumerates m.functions f ks → ∀ j ≤ ks.length, kmalloc j ≠ null := by
  have hmap := hrep
  obtain ⟨bs, hholds, hf⟩ := hrep
  rw [safe_collect_iff hholds hf]
  constructor
  · rintro ⟨m', r, hexec, _⟩
    obtain ⟨r', hcollect, _⟩ := map_eq_some_iff.mp hexec
    exact kmalloc_of_collect (·.key) (g := Prod.fst) (fun _ => rfl) hholds hcollect
  · intro hnull
    obtain ⟨lists', l, xs, hcollect, hbecomes, hxs⟩ := collect_becomes (·.key)
      (g := Prod.fst) (fun _ => rfl) hholds hfits hnull
    refine ⟨m, list lists' l, ?_, ⟨lists', l, xs, rfl, hbecomes, ?_⟩, hmap⟩
    · rw [exec, hashmapKeys, hcollect]
      rfl
    · rw [hxs]
      exact hholds.enumerates hf

theorem values_refines_iff (hrep : m.Represents f) (hfits : Answers lists kmalloc) :
    (values lists kmalloc).Refines m f ↔
      ∀ ks, Enumerates m.functions f ks → ∀ j ≤ ks.length, kmalloc j ≠ null := by
  have hmap := hrep
  obtain ⟨bs, hholds, hf⟩ := hrep
  rw [safe_collect_iff hholds hf]
  constructor
  · rintro ⟨m', r, hexec, _⟩
    obtain ⟨r', hcollect, _⟩ := map_eq_some_iff.mp hexec
    exact kmalloc_of_collect (·.value) (g := Prod.snd) (fun _ => rfl) hholds hcollect
  · intro hnull
    obtain ⟨lists', l, xs, hcollect, hbecomes, hxs⟩ := collect_becomes (·.value)
      (g := Prod.snd) (fun _ => rfl) hholds hfits hnull
    refine ⟨m, list lists' l, ?_, ⟨lists', l, xs, _, rfl, hbecomes, hholds.enumerates hf, ?_⟩, hmap⟩
    · rw [exec, hashmapValues, hcollect]
      rfl
    · -- the value of a slot is the value of its key
      have hsome : xs.map (fun x => some x.2) = (xs.map (·.2)).map some := by
        rw [List.map_map]
        rfl
      rw [hsome, hxs, List.map_map, List.map_map]
      refine map_congr_left fun s hs => ?_
      simp [hf, hholds.slotOf_of_mem hs]

theorem refines_iff (call : HashmapCall) (hrep : m.Represents f) (hfits : call.Fits m) :
    call.Refines m f ↔ call.Safe m f := by
  cases call with
  | set key value e => exact set_refines_iff hrep hfits
  | get key => exact iff_of_true (get_refines hrep) trivial
  | has key => exact iff_of_true (has_refines hrep) trivial
  | remove key => exact remove_refines_iff hrep
  | keys lists kmalloc => exact keys_refines_iff hrep hfits
  | values lists kmalloc => exact values_refines_iff hrep hfits

end

/-- A call on the table next to the map that it stands for. -/
def step (call : HashmapCall) (s : Hashmap × KeyMap) : Option (Hashmap × KeyMap) :=
  (call.exec s.1).map fun r => (r.1, call.next s.1.functions s.2)

theorem represents_create (functions : KeyFunctions) {size : Nat} (hsize : 0 < size) :
    (hashmapCreate size functions).Represents fun _ => none := by
  refine ⟨fun _ => [], ⟨hsize, fun i _ => ⟨rfl, by simp⟩, ?_, ?_, ?_⟩, fun k => rfl⟩
  · simp
  · simp
  · simp

theorem step_represents {call : HashmapCall} {s t : Hashmap × KeyMap} (hrep : s.1.Represents s.2)
    (hfits : call.Fits s.1) (hsafe : call.Safe s.1 s.2) (hstep : call.step s = some t) :
    t.1.Represents t.2 := by
  obtain ⟨m', r, hexec, _, hrep'⟩ := (refines_iff call hrep hfits).mpr hsafe
  rw [step, hexec] at hstep
  cases hstep
  exact hrep'

/-- Integer keys, as `hashmap_int_hash` and `hashmap_int_comp` have them. -/
def intKeys : KeyFunctions where
  hash k := k.toNat
  comp a b := decide (a = b)
  dup k := k
  comp_equiv := ⟨fun a => decide_eq_true rfl,
    fun h => decide_eq_true (of_decide_eq_true h).symm,
    fun h h' => decide_eq_true ((of_decide_eq_true h).trans (of_decide_eq_true h'))⟩
  hash_comp a b h := by rw [of_decide_eq_true h]
  comp_dup k := decide_eq_true rfl

/-- From an empty table on, while every call is safe, the table stands for the
finite map; and a call on such a table returns and does what it should exactly
when it is safe. -/
theorem hashmap_refines (functions : KeyFunctions) (size : Nat) (hsize : 0 < size) :
    (∀ s, Runs step (fun call s => call.Fits s.1 ∧ call.Safe s.1 s.2)
        (hashmapCreate size functions, fun _ => none) s → s.1.Represents s.2) ∧
      ∀ (m : Hashmap) (f : KeyMap), m.Represents f → ∀ call : HashmapCall, call.Fits m →
        (call.Refines m f ↔ call.Safe m f) := by
  refine ⟨fun s hrun => ?_, fun m f hrep call hfits => refines_iff call hrep hfits⟩
  exact hrun.invariant (fun s => s.1.Represents s.2)
    (fun call s t hrep hok hstep => step_represents hrep hok.1 hok.2 hstep)
    (represents_create functions hsize)

/-- The first call on a new table, on its own and as a run. -/
theorem hashmap_refines_set : (set (ptr 1) (ptr 5) (ptr 100)).Refines (hashmapCreate 8 intKeys)
      (fun _ => none) ∧
    ∃ s, Runs step (fun call s => call.Fits s.1 ∧ call.Safe s.1 s.2)
      (hashmapCreate 8 intKeys, fun _ => none) s ∧ s.2 (ptr 1) = some (ptr 5) ∧
        s.1.Represents s.2 := by
  have hset : (set (ptr 1) (ptr 5) (ptr 100)).Refines (hashmapCreate 8 intKeys) fun _ => none :=
    ((hashmap_refines intKeys 8 (by decide)).2 _ _ (represents_create intKeys (by decide))
      (set (ptr 1) (ptr 5) (ptr 100)) (.inr rfl)).mpr (.inr (by decide))
  obtain ⟨m', r, hexec, _⟩ := id hset
  have hrun : Runs step (fun call s => call.Fits s.1 ∧ call.Safe s.1 s.2)
      (hashmapCreate 8 intKeys, fun _ => none)
      (m', (set (ptr 1) (ptr 5) (ptr 100)).next intKeys fun _ => none) :=
    Runs.single (i := set (ptr 1) (ptr 5) (ptr 100)) ⟨.inr rfl, .inr (by decide)⟩ (by
      rw [step, hexec]
      rfl)
  exact ⟨hset, _, hrun, rfl, (hashmap_refines intKeys 8 (by decide)).1 _ hrun⟩

/-- With one entry in a table of eight buckets, `hashmap_remove` of an absent key of
the same bucket reads a null entry. -/
theorem absent_key_reads_null_entry :
    ∃ m, (set (ptr 1) (ptr 5) (ptr 100)).exec (hashmapCreate 8 intKeys) = some (m, pointer null) ∧
      (set (ptr 1) (ptr 5) (ptr 100)).next intKeys (fun _ => none) (ptr 9) = none ∧
      (remove (ptr 9)).exec m = none := ⟨_, rfl, rfl, rfl⟩

end HashmapCall

end Hos
