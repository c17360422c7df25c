import Mathlib.Data.List.Nodup
import Mathlib.Data.List.Range

/-!
# A ledger of what a queue has taken in and given out

Every item that a queue accepts gets the next tag. The ledger remembers the
items by tag, which tags are still queued, and which were taken out or dropped;
asking for an item that is not there is a stray. In a sound ledger each tag is
in one of the three lists exactly once, and items of the same key leave in the
order in which they were accepted.
-/

namespace Hos

open Option List

/-- The history of a queue of items of type `α`. -/
structure Ledger (α : Type) where
  accepted : List α
  queue : List Nat
  taken : List Nat
  dropped : List Nat
  strays : Nat

namespace Ledger

variable {α κ : Type}

/-- Nothing has happened yet. -/
def empty : Ledger α := ⟨[], [], [], [], 0⟩

/-- The item of a tag satisfies `p`. -/
def holds (L : Ledger α) (p : α → Bool) (i : Nat) : Bool := L.accepted[i]?.any p

/-- The items in the queue. -/
def items (L : Ledger α) : List α := L.queue.filterMap (L.accepted[·]?)

/-- Put an item at the end of the queue. -/
def accept (L : Ledger α) (a : α) : Ledger α :=
  { L with accepted := L.accepted ++ [a], queue := L.queue ++ [L.accepted.length] }

/-- Drop all queued items that satisfy `p`. -/
def drop (L : Ledger α) (p : α → Bool) : Ledger α :=
  { L with
    queue := L.queue.filter fun i => !L.holds p i
    dropped := L.dropped ++ L.queue.filter (L.holds p) }

/-- Take the first queued item that satisfies `p`. -/
def take (L : Ledger α) (p : α → Bool) : Ledger α :=
  match L.queue.find? (L.holds p) with
  | none => { L with strays := L.strays + 1 }
  | some i => { L with queue := L.queue.erase i, taken := L.taken ++ [i] }

/-- Two tags have items of the same key. -/
def SameKey (L : Ledger α) (key : α → κ) (i j : Nat) : Prop :=
  (L.accepted[i]?).map key = (L.accepted[j]?).map key

/-- Every tag is queued, taken or dropped, once; and within one key the tags are
taken in their order. -/
structure Sound (L : Ledger α) (key : α → κ) : Prop where
  partition : (L.queue ++ L.taken ++ L.dropped).Perm (List.range L.accepted.length)
  sorted : L.queue.Pairwise (· < ·)
  ordered : L.taken.Pairwise fun i j => L.SameKey key i j → i < j
  ahead : ∀ i ∈ L.taken, ∀ j ∈ L.queue, L.SameKey key i j → i < j

variable {L : Ledger α} {key : α → κ} {p : α → Bool} {a : α} {i : Nat}

theorem sound_empty : (empty : Ledger α).Sound key where
  partition := .refl _
  sorted := .nil
  ordered := .nil
  ahead := fun _ hi => absurd hi not_mem_nil

namespace Sound

section

variable (h : L.Sound key)
include h

theorem nodup : (L.queue ++ L.taken ++ L.dropped).Nodup :=
  h.partition.nodup_iff.mpr nodup_range

theorem lt_length (hi : i ∈ L.queue ++ L.taken ++ L.dropped) :
    i < L.accepted.length := mem_range.mp (h.partition.mem_iff.mp hi)

theorem lt_of_queue (hi : i ∈ L.queue) : i < L.accepted.length :=
  h.lt_length (mem_append_left _ (mem_append_left _ hi))

theorem lt_of_taken (hi : i ∈ L.taken) : i < L.accepted.length :=
  h.lt_length (mem_append_left _ (mem_append_right _ hi))

/-- The tags of the queue have items. -/
theorem exists_item (hi : i ∈ L.queue) : ∃ a, L.accepted[i]? = some a :=
  ⟨_, getElem?_eq_getElem (h.lt_of_queue hi)⟩

end

/-- The keys of known tags stay when an item is accepted. -/
theorem sameKey_accept {j : Nat} (hi : i < L.accepted.length) (hj : j < L.accepted.length) :
    (L.accept a).SameKey key i j ↔ L.SameKey key i j := by
  simp only [SameKey, Ledger.accept, getElem?_append_left hi, getElem?_append_left hj]

variable (h : L.Sound key)
include h

theorem accept : (L.accept a).Sound key where
  partition := by
    have hlength : (L.accept a).accepted.length = L.accepted.length + 1 := by simp [Ledger.accept]
    rw [hlength, range_succ]
    have hmoved : ((L.queue ++ [L.accepted.length]) ++ L.taken ++ L.dropped).Perm
        ((L.queue ++ L.taken ++ L.dropped) ++ [L.accepted.length]) := by
      simp only [append_assoc]
      rw [← append_assoc L.taken L.dropped]
      exact List.Perm.append_left _ perm_append_comm
    exact hmoved.trans (h.partition.append_right _)
  sorted := by
    apply pairwise_append.mpr
    refine ⟨h.sorted, pairwise_singleton _ _, ?_⟩
    intro i hi j hj
    obtain rfl := mem_singleton.mp hj
    exact h.lt_of_queue hi
  ordered := by
    apply h.ordered.imp_of_mem
    intro i j hi hj hlt hsame
    exact hlt ((sameKey_accept (h.lt_of_taken hi) (h.lt_of_taken hj)).mp hsame)
  ahead := by
    intro i hi j hj hsame
    rcases mem_append.mp hj with hj | hj
    · exact h.ahead i hi j hj ((sameKey_accept (h.lt_of_taken hi) (h.lt_of_queue hj)).mp hsame)
    · obtain rfl := mem_singleton.mp hj
      exact h.lt_of_taken hi

theorem drop : (L.drop p).Sound key where
  partition := by
    have hsplit : (L.queue.filter (fun i => !L.holds p i) ++ L.taken ++
        (L.dropped ++ L.queue.filter (L.holds p))).Perm (L.queue ++ L.taken ++ L.dropped) := by
      have hfilter : (L.queue.filter (L.holds p) ++ L.queue.filter fun i => !L.holds p i).Perm
          L.queue := filter_append_perm _ _
      have hrest := (hfilter.append_right L.taken).append_right L.dropped
      refine List.Perm.trans ?_ hrest
      rw [← append_assoc]
      refine perm_append_comm.trans ?_
      simp
    exact hsplit.trans h.partition
  sorted := h.sorted.filter _
  ordered := h.ordered
  ahead := fun i hi j hj => h.ahead i hi j (mem_of_mem_filter hj)

theorem take {k : κ} (hp : ∀ a, p a = true ↔ key a = k) : (L.take p).Sound key := by
  unfold Ledger.take
  split
  · exact ⟨h.partition, h.sorted, h.ordered, h.ahead⟩
  rename_i i hfind
  have hi : i ∈ L.queue := mem_of_find?_eq_some hfind
  have hkey : (L.accepted[i]?).map key = some k := by
    have hholds := find?_some hfind
    obtain ⟨a, ha, hpa⟩ := (any_eq_true _ _).mp hholds
    rw [ha, map_some, (hp a).mp hpa]
  constructor
  · have hmoved : (L.queue.erase i ++ (L.taken ++ [i]) ++ L.dropped).Perm
        (i :: L.queue.erase i ++ L.taken ++ L.dropped) := by
      apply List.Perm.append_right
      rw [← append_assoc]
      exact perm_append_comm
    have hback := ((perm_cons_erase hi).symm.append_right L.taken).append_right L.dropped
    exact hmoved.trans (hback.trans h.partition)
  · exact h.sorted.sublist erase_sublist
  · refine pairwise_append.mpr ⟨h.ordered, pairwise_singleton _ _, ?_⟩
    intro j hj l hl
    obtain rfl := mem_singleton.mp hl
    exact h.ahead j hj l hi
  · intro j hj l hl hsame
    rcases mem_append.mp hj with hj | hj
    · exact h.ahead j hj l (mem_of_mem_erase hl) hsame
    · obtain rfl := mem_singleton.mp hj
      -- a later item of the key stands behind the first one
      have hlkey : (L.accepted[l]?).map key = some k := hsame.symm.trans hkey
      obtain ⟨b, hb, hbk⟩ := map_eq_some_iff.mp hlkey
      have hholds : L.holds p l = true := by
        rw [holds, hb]
        exact (hp b).mpr hbk
      obtain ⟨_, before, after, hqueue, hnone⟩ := find?_eq_some_iff_append.mp hfind
      have hsorted := h.sorted
      have hnodup := (nodup_append.mp (nodup_append.mp h.nodup).1).1
      rw [hqueue] at hl hsorted hnodup
      have hne : l ≠ j := by
        rintro rfl
        exact (hnodup.mem_erase_iff.mp hl).1 rfl
      rcases mem_append.mp (mem_of_mem_erase hl) with hl | hl
      · exact absurd (hnone l hl) (by simp [hholds])
      · obtain rfl | hl := mem_cons.mp hl
        · omega
        · have htail := (pairwise_append.mp hsorted).2.1
          exact (pairwise_cons.mp htail).1 l hl

theorem items_accept : (L.accept a).items = L.items ++ [a] := by
  simp only [items, Ledger.accept, filterMap_append]
  congr 1
  · apply filterMap_congr
    intro i hi
    exact getElem?_append_left (h.lt_of_queue hi)
  · simp

theorem items_drop : (L.drop p).items = L.items.filter fun a => !p a := by
  simp only [items, Ledger.drop, filter_filterMap, filterMap_filter]
  apply filterMap_congr
  intro i hi
  obtain ⟨a, ha⟩ := h.exists_item hi
  cases hpa : p a <;> simp [holds, ha, hpa, Option.filter]

end Sound

theorem items_take : (L.take p).items = L.items.eraseP p := by
  unfold Ledger.take
  split
  · rename_i hnone
    refine (eraseP_of_forall_not ?_).symm
    intro a ha
    obtain ⟨i, hi, hia⟩ := mem_filterMap.mp ha
    have hnot := find?_eq_none.mp hnone i hi
    simpa [holds, hia] using hnot
  · rename_i i hfind
    obtain ⟨hholds, before, after, hqueue, hnone⟩ := find?_eq_some_iff_append.mp hfind
    obtain ⟨a, ha, hpa⟩ := (any_eq_true _ _).mp hholds
    have hnot : i ∉ before := fun hmem => by simpa [hholds] using hnone i hmem
    have hbefore : ∀ b ∈ before.filterMap (L.accepted[·]?), ¬p b = true := by
      intro b hb
      obtain ⟨j, hj, hjb⟩ := mem_filterMap.mp hb
      simpa [holds, hjb] using hnone j hj
    simp only [items, hqueue, erase_append_right _ hnot, erase_cons_head,
      filterMap_append, filterMap_cons_some ha]
    rw [eraseP_append_right _ hbefore, eraseP_cons_of_pos hpa]

/-- Nothing is taken exactly when no queued item satisfies `p`. -/
theorem find?_eq_none_iff : L.queue.find? (L.holds p) = none ↔ ∀ a ∈ L.items, p a = false := by
  simp only [find?_eq_none, items, mem_filterMap, holds]
  constructor
  · rintro h a ⟨i, hi, hia⟩
    simpa [hia] using h i hi
  · intro h i hi
    cases hitem : L.accepted[i]? with
    | none => simp
    | some a => simpa using h a ⟨i, hi, hitem⟩

theorem strays_take : (L.take p).strays = if L.items.any p then L.strays else L.strays + 1 := by
  unfold take
  split
  · rename_i hnone
    have hall := find?_eq_none_iff.mp hnone
    simpa using hall
  · rename_i i hfind
    by_contra hnot
    have hall : ∀ a ∈ L.items, p a = false := by simpa using hnot
    rw [find?_eq_none_iff.mpr hall] at hfind
    cases hfind

end Ledger

end Hos
