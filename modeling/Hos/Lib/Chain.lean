import Mathlib.Data.List.Basic
import Hos.Lib.Bytes
import Hos.Lib.Loop

/-!
# Singly linked lists threaded through a byte store

A chain starts at a pointer word, which need not belong to a node: it may be
the global that holds the first node. Each node `x` keeps its own pointer word
at `x + off`. `Chain m off a xs e` says that following the pointers from the
word at `a` visits exactly `xs` and that the last pointer word holds `e`, so
that an initial part of a list is a chain as well as a whole list is.

Updates of the list are updates of single pointer words. A chain survives any
change of the store outside its pointer words, and the two loops of pointer
code, a search and a scan, return what the corresponding list functions do.
-/

namespace Hos

open Bytes

/-- The nodes reached from the pointer word at `a`, ending with the value `e`. -/
def Chain (m : Bytes) (off : Nat) : Nat → List Nat → Nat → Prop
  | a, [], e => load32 m a = e
  | a, x :: xs, e => load32 m a = x ∧ Chain m off (x + off) xs e

/-- The pointer word after a list of nodes. -/
def linkAddr (off : Nat) : Nat → List Nat → Nat
  | a, [] => a
  | _, x :: xs => linkAddr off (x + off) xs

@[simp] theorem linkAddr_concat (off a x : Nat) (xs : List Nat) :
    linkAddr off a (xs ++ [x]) = x + off := by
  induction xs generalizing a with
  | nil => rfl
  | cons y xs ih => exact ih (y + off)

namespace Chain

variable {m m' : Bytes} {off a e : Nat} {xs : List Nat}

/-- The first pointer word holds the first node, or the end of the list. -/
theorem head (h : Chain m off a xs e) : load32 m a = xs.headD e := by
  cases xs with
  | nil => exact h
  | cons x xs => exact h.1

/-- Cut a chain at any node. The first part ends with a pointer to the second. -/
theorem append_iff {l r : List Nat} :
    Chain m off a (l ++ r) e ↔ Chain m off a l (r.headD e) ∧
      Chain m off (linkAddr off a l) r e := by
  induction l generalizing a with
  | nil =>
    constructor
    · intro h
      exact ⟨h.head, h⟩
    · exact fun h => h.2
  | cons x l ih =>
    simp only [List.cons_append, Chain, linkAddr, ih, and_assoc]

/-- The pointer word of a node holds the node after it. -/
theorem next_eq {l r : List Nat} {x : Nat} (h : Chain m off a (l ++ x :: r) e) :
    load32 m (x + off) = r.headD e :=
  (append_iff.mp h).2.2.head

theorem congr (h : Chain m off a xs e) (ha : load32 m' a = load32 m a)
    (hxs : ∀ x ∈ xs, load32 m' (x + off) = load32 m (x + off)) : Chain m' off a xs e := by
  induction xs generalizing a with
  | nil => exact ha.trans h
  | cons x xs ih =>
    refine ⟨ha.trans h.1, ih h.2 (hxs x (by simp)) ?_⟩
    intro y hy
    exact hxs y (by simp [hy])

/-- The pointer word after the last node holds the end of the chain. -/
theorem end_eq (h : Chain m off a xs e) : load32 m (linkAddr off a xs) = e := by
  induction xs generalizing a with
  | nil => exact h
  | cons x xs ih => exact ih h.2

/-- Split off the last node together with its pointer word. -/
theorem concat_iff {p : Nat} : Chain m off a (xs ++ [p]) e ↔ Chain m off a xs p ∧
    load32 m (p + off) = e := by
  rw [append_iff]
  constructor
  · rintro ⟨front, -, last⟩
    exact ⟨front, last⟩
  · rintro ⟨front, last⟩
    exact ⟨front, front.end_eq, last⟩

/-- Hang the same nodes on another pointer word. -/
theorem move {b : Nat} (h : Chain m off a xs e) (hb : load32 m' b = load32 m a)
    (hxs : ∀ x ∈ xs, load32 m' (x + off) = load32 m (x + off)) : Chain m' off b xs e := by
  cases xs with
  | nil => exact hb.trans h
  | cons x xs =>
    exact ⟨hb.trans h.1, h.2.congr (hxs x (by simp)) fun y hy => hxs y (by simp [hy])⟩

/-- Unlink the node `x`: the word before it takes over its pointer. -/
theorem remove {l r : List Nat} {x : Nat} (h : Chain m off a (l ++ x :: r) e)
    (hlink : load32 m' (linkAddr off a l) = load32 m (x + off))
    (hfront : ∀ l' p, l = l' ++ [p] → load32 m' a = load32 m a ∧
      ∀ y ∈ l', load32 m' (y + off) = load32 m (y + off))
    (hback : ∀ y ∈ r, load32 m' (y + off) = load32 m (y + off)) : Chain m' off a (l ++ r) e := by
  obtain ⟨front, -, back⟩ := append_iff.mp h
  rw [append_iff]
  refine ⟨?_, back.move hlink hback⟩
  rcases List.eq_nil_or_concat' l with rfl | ⟨l', p, rfl⟩
  · exact hlink.trans back.head
  · obtain ⟨hfirst, hrest⟩ := hfront l' p rfl
    rw [linkAddr_concat] at hlink
    rw [List.headD_cons, concat_iff] at front
    exact concat_iff.mpr ⟨front.1.congr hfirst hrest, hlink.trans back.head⟩

/-- Push a node in front of the list. -/
theorem push {x : Nat} (h : Chain m off a xs e) (ha : load32 m' a = x)
    (hx : load32 m' (x + off) = load32 m a)
    (hxs : ∀ y ∈ xs, load32 m' (y + off) = load32 m (y + off)) : Chain m' off a (x :: xs) e :=
  ⟨ha, h.move hx hxs⟩

/-- Replace the nodes after `x` up to `r` by others. -/
theorem splice {l r old new : List Nat} {x : Nat} (h : Chain m off a (l ++ x :: (old ++ r)) e)
    (ha : load32 m' a = load32 m a) (hl : ∀ y ∈ l, load32 m' (y + off) = load32 m (y + off))
    (hr : ∀ y ∈ r, load32 m' (y + off) = load32 m (y + off))
    (link : Chain m' off (x + off) new (r.headD e)) : Chain m' off a (l ++ x :: (new ++ r)) e := by
  obtain ⟨front, -, back⟩ := append_iff.mp h
  obtain ⟨-, rest⟩ := append_iff.mp back
  have hfront : Chain m' off a l x := front.congr ha hl
  have hword : load32 m' (linkAddr off (x + off) new) = load32 m (linkAddr off (x + off) old) := by
    rw [link.end_eq, rest.head]
  rw [append_iff]
  exact ⟨hfront, hfront.end_eq, append_iff.mpr ⟨link, rest.move hword hr⟩⟩

/-- The nodes of a null-terminated list are determined by the store. -/
theorem unique {ys : List Nat} (h : Chain m off a xs 0) (h' : Chain m off a ys 0) (hx : 0 ∉ xs)
    (hy : 0 ∉ ys) :
    xs = ys := by
  induction xs generalizing a ys with
  | nil =>
    cases ys with
    | nil => rfl
    | cons y ys =>
      have hzero : y = 0 := h'.1.symm.trans h
      exact absurd (by simp [hzero]) hy
  | cons x xs ih =>
    cases ys with
    | nil =>
      have hzero : x = 0 := h.1.symm.trans h'
      exact absurd (by simp [hzero]) hx
    | cons y ys =>
      obtain rfl : x = y := h.1.symm.trans h'.1
      rw [ih h.2 h'.2 (fun hmem => hx (List.mem_cons_of_mem x hmem))
        fun hmem => hy (List.mem_cons_of_mem x hmem)]

/-- Searching along the pointers stops at the first node that fails the guard. -/
theorem search {cond : Nat → Bool} {l r : List Nat} {p : Nat}
    (h : Chain m off a (l ++ p :: r) e) (before : ∀ x ∈ l, cond x = true) (found : cond p = false) :
    whileLoop cond (fun x => some (load32 m (x + off))) (load32 m a) = some p := by
  induction l generalizing a with
  | nil => rw [h.1, whileLoop_of_false found]
  | cons x l ih =>
    have rest := ih h.2 (fun y hy => before y (by simp [hy]))
    rw [h.1, ← rest]
    exact whileLoop_of_true (before x (by simp)) rfl

/-- Scanning a null-terminated chain folds over its nodes. -/
theorem scan {α : Type} (f : Nat → α → α) (h : Chain m off a xs 0)
    (pos : ∀ x ∈ xs, x ≠ 0) (acc : α) :
    whileLoop (fun s : Nat × α => s.1 != 0)
        (fun s => some (load32 m (s.1 + off), f s.1 s.2)) (load32 m a, acc) =
      some (0, xs.foldl (fun acc x => f x acc) acc) := by
  induction xs generalizing a acc with
  | nil =>
    have h0 : load32 m a = 0 := h
    rw [h0, whileLoop_of_false (by simp)]
    rfl
  | cons x xs ih =>
    have hx : x ≠ 0 := pos x (by simp)
    have rest := ih h.2 (fun y hy => pos y (by simp [hy])) (f x acc)
    rw [h.1, List.foldl_cons, ← rest]
    exact whileLoop_of_true (by simpa using hx) rfl

end Chain

end Hos
