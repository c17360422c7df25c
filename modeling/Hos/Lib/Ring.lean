import Mathlib.Data.List.Nodup
import Mathlib.Logic.Function.Basic

/-!
# Circular doubly linked lists

The links are two functions on nodes, as the two pointer fields of a node are. A
path leads from one node through a sequence of nodes to another, with both
directions of every link right. A ring is a path from a node back to itself that
meets no node twice; the node it starts at is its head, and any other node of
the ring can be taken as the head instead.

Splicing changes where a path starts or ends; everything else about a path
depends only on the links of its own nodes.
-/

namespace Hos

open List Function

/-- Forward and backward links. -/
structure Links (α : Type) where
  next : α → α
  prev : α → α

namespace Links

variable {α : Type}

section

variable [DecidableEq α]

/-- `a->next = b`. -/
def setNext (L : Links α) (a b : α) : Links α := { L with next := Function.update L.next a b }

/-- `a->prev = b`. -/
def setPrev (L : Links α) (a b : α) : Links α := { L with prev := Function.update L.prev a b }

@[simp]
theorem setNext_next (L : Links α) (a b x : α) :
    (L.setNext a b).next x = if x = a then b else L.next x := update_apply ..

@[simp] theorem setNext_prev (L : Links α) (a b : α) : (L.setNext a b).prev = L.prev := rfl

@[simp]
theorem setPrev_prev (L : Links α) (a b x : α) :
    (L.setPrev a b).prev x = if x = a then b else L.prev x := update_apply ..

@[simp] theorem setPrev_next (L : Links α) (a b : α) : (L.setPrev a b).next = L.next := rfl

end

/-- The nodes are neighbours, in both directions. -/
def Linked (L : Links α) (a b : α) : Prop := L.next a = b ∧ L.prev b = a

/-- The nodes `xs` lead from `a` to `b`. -/
def Path (L : Links α) : α → List α → α → Prop
  | a, [], b => L.Linked a b
  | a, x :: xs, b => L.Linked a x ∧ L.Path x xs b

/-- The circular list with head `h` and entries `xs`. -/
structure Ring (L : Links α) (h : α) (xs : List α) : Prop where
  nodup : (h :: xs).Nodup
  path : L.Path h xs h

namespace Path

variable {L L' : Links α} {a a' b b' x : α} {xs ys : List α}

theorem append_iff : L.Path a (xs ++ x :: ys) b ↔ L.Path a xs x ∧ L.Path x ys b := by
  induction xs generalizing a with
  | nil => exact Iff.rfl
  | cons y xs ih => simp only [cons_append, Path, ih, and_assoc]

variable (h : L.Path a xs b)
include h

/-- The node after the first one. -/
theorem next_eq : L.next a = (xs ++ [b]).head (by simp) := by
  cases xs with
  | nil => exact h.1
  | cons x xs => exact h.1.1

theorem prev_head : L.prev ((xs ++ [b]).head (by simp)) = a := by
  cases xs with
  | nil => exact h.2
  | cons x xs => exact h.1.2

/-- The node before the last one. -/
theorem prev_eq : L.prev b = (a :: xs).getLast (by simp) := by
  induction xs generalizing a with
  | nil => exact h.2
  | cons x xs ih =>
    exact ih h.2

theorem next_getLast : L.next ((a :: xs).getLast (by simp)) = b := by
  induction xs generalizing a with
  | nil => exact h.1
  | cons x xs ih =>
    exact ih h.2

/-- A path with another start: only the links at the start change. -/
theorem restart (hnext : L'.next a' = (xs ++ [b]).head (by simp))
    (hprev : L'.prev ((xs ++ [b]).head (by simp)) = a') (hnexts : ∀ x ∈ xs, L'.next x = L.next x)
    (hprevs : ∀ x ∈ (xs ++ [b]).tail, L'.prev x = L.prev x) : L'.Path a' xs b := by
  cases xs with
  | nil => exact ⟨hnext, hprev⟩
  | cons x xs =>
    refine ⟨⟨hnext, hprev⟩, ?_⟩
    have hrest := h.2
    clear h hnext hprev
    induction xs generalizing x with
    | nil =>
      refine ⟨(hnexts x mem_cons_self).trans hrest.1, ?_⟩
      exact (hprevs b (by simp)).trans hrest.2
    | cons y xs ih =>
      refine ⟨⟨(hnexts x mem_cons_self).trans hrest.1.1, ?_⟩, ?_⟩
      · exact (hprevs y (by simp)).trans hrest.1.2
      · apply ih y (fun z hz => hnexts z (mem_cons_of_mem _ hz)) _ hrest.2
        intro z hz
        exact hprevs z (mem_cons_of_mem _ hz)

theorem congr (hnexts : ∀ x ∈ a :: xs, L'.next x = L.next x)
    (hprevs : ∀ x ∈ xs ++ [b], L'.prev x = L.prev x) : L'.Path a xs b := by
  apply h.restart
  · exact (hnexts a mem_cons_self).trans h.next_eq
  · exact (hprevs _ (head_mem _)).trans h.prev_head
  · exact fun x hx => hnexts x (mem_cons_of_mem a hx)
  · exact fun x hx => hprevs x (mem_of_mem_tail hx)

/-- A path with another end: only the links at the end change. -/
theorem retarget (hnext : L'.next ((a :: xs).getLast (by simp)) = b')
    (hprev : L'.prev b' = (a :: xs).getLast (by simp))
    (hnexts : ∀ x ∈ (a :: xs).dropLast, L'.next x = L.next x)
    (hprevs : ∀ x ∈ xs, L'.prev x = L.prev x) : L'.Path a xs b' := by
  induction xs generalizing a with
  | nil => exact ⟨hnext, hprev⟩
  | cons x xs ih =>
    refine ⟨⟨?_, (hprevs x mem_cons_self).trans h.1.2⟩, ?_⟩
    · exact (hnexts a (by simp)).trans h.1.1
    · apply ih h.2 hnext hprev
      · intro y hy
        exact hnexts y (by
          exact mem_cons_of_mem a hy)
      · exact fun y hy => hprevs y (mem_cons_of_mem x hy)

end Path

section

variable {l : List α}

theorem head_notMem_tail (hne : l ≠ []) (hnodup : l.Nodup) : l.head hne ∉ l.tail := by
  cases l with
  | nil => exact absurd rfl hne
  | cons x l => exact (nodup_cons.mp hnodup).1

theorem getLast_notMem_dropLast (hne : l ≠ []) (hnodup : l.Nodup) : l.getLast hne ∉ l.dropLast := by
  intro hmem
  rw [← dropLast_append_getLast hne] at hnodup
  exact (nodup_append.mp hnodup).2.2 _ hmem _ (mem_singleton_self _) rfl

theorem perm_rotate (h : α) (xs : List α) (x : α) (ys : List α) :
    (h :: (xs ++ x :: ys)).Perm (x :: (ys ++ h :: xs)) := by
  have hswap : ((h :: xs) ++ (x :: ys)).Perm ((x :: ys) ++ (h :: xs)) := perm_append_comm
  exact hswap

end

namespace Ring

variable {L L' : Links α} {h x : α} {xs ys : List α}

theorem nodup_rotated (hring : L.Ring h xs) : (xs ++ [h]).Nodup :=
    perm_append_comm.nodup_iff.mp hring.nodup

theorem mem_rotated : x ∈ xs ++ [h] ↔ x ∈ h :: xs := perm_append_comm.mem_iff

section

variable (hring : L.Ring h xs)
include hring

/-- The neighbours of the head are nodes of the ring. -/
theorem next_mem : L.next h ∈ h :: xs := by
  rw [hring.path.next_eq]
  exact mem_rotated.mp (head_mem _)

theorem prev_mem : L.prev h ∈ h :: xs := by
  rw [hring.path.prev_eq]
  simp

theorem prev_next : L.prev (L.next h) = h := by
  rw [hring.path.next_eq]
  exact hring.path.prev_head

theorem next_prev : L.next (L.prev h) = h := by
  rw [hring.path.prev_eq]
  exact hring.path.next_getLast

end

theorem nil_iff : L.Ring h [] ↔ L.next h = h ∧ L.prev h = h :=
  ⟨fun hring => hring.path, fun hself => ⟨nodup_singleton h, hself⟩⟩

/-- Any node can be the head. -/
theorem rotate (hring : L.Ring h (xs ++ x :: ys)) : L.Ring x (ys ++ h :: xs) where
  nodup := (perm_rotate h xs x ys).nodup_iff.mp hring.nodup
  path := by
    obtain ⟨hfirst, hsecond⟩ := Path.append_iff.mp hring.path
    exact Path.append_iff.mpr ⟨hsecond, hfirst⟩

/-- The entries are determined by the links. -/
theorem next_eq_head_iff (hring : L.Ring h xs) : L.next h = h ↔ xs = [] := by
  rw [hring.path.next_eq]
  cases xs with
  | nil => simp
  | cons x xs =>
    have hne : h ∉ x :: xs := (nodup_cons.mp hring.nodup).1
    simp only [cons_append, head_cons, reduceCtorEq, iff_false]
    rintro rfl
    exact hne mem_cons_self

theorem congr (hring : L.Ring h xs) (hnexts : ∀ x ∈ h :: xs, L'.next x = L.next x)
    (hprevs : ∀ x ∈ h :: xs, L'.prev x = L.prev x) : L'.Ring h xs := by
  refine ⟨hring.nodup, hring.path.congr hnexts fun x hx => hprevs x ?_⟩
  rcases mem_append.mp hx with hx | hx
  · exact mem_cons_of_mem h hx
  · exact mem_singleton.mp hx ▸ mem_cons_self

/-- An entry of a ring stands in it once and is not the head. -/
theorem exists_split (hring : L.Ring h xs) (hx : x ∈ xs) : x ≠ h ∧ ∃ ys zs, xs = ys ++ x :: zs ∧
    x ∉ ys := by
  obtain ⟨hh, hnodup⟩ := nodup_cons.mp hring.nodup
  refine ⟨fun heq => hh (heq ▸ hx), ?_⟩
  obtain ⟨ys, zs, rfl⟩ := append_of_mem hx
  refine ⟨ys, zs, rfl, fun hmem => ?_⟩
  exact (nodup_append.mp hnodup).2.2 x hmem x mem_cons_self rfl

end Ring

/-- The links of all nodes outside of `S` are as before. -/
def SameOutside (L L' : Links α) (S : List α) : Prop :=
  ∀ x ∉ S, L'.next x = L.next x ∧ L'.prev x = L.prev x

/-- The list with head `h` has the entries `xs`, and every list outside of `S` is
as before. -/
def Becomes (L L' : Links α) (S : List α) (h : α) (xs : List α) : Prop :=
  L'.Ring h xs ∧ ∀ h' ys, L.Ring h' ys → (h' :: ys).Disjoint S → L'.Ring h' ys

theorem SameOutside.becomes {L L' : Links α} {S : List α} {h : α} {xs : List α}
    (hsame : L.SameOutside L' S) (hring : L'.Ring h xs) : L.Becomes L' S h xs := by
  refine ⟨hring, fun h' ys hys hdisjoint => hys.congr ?_ ?_⟩
  · exact fun x hx => (hsame x fun hS => hdisjoint hx hS).1
  · exact fun x hx => (hsame x fun hS => hdisjoint hx hS).2

end Links

end Hos
