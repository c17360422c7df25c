import Mathlib.Data.List.Nodup
import Mathlib.Logic.Function.Basic

/-!
# Segments of singly linked lists in a heap of cells

A cell carries an item and the address of the next cell. A segment leads from an
address through cells with known addresses and items to another address, which
is where a further segment may begin or the end of the list.

A segment depends only on its own cells. Writing one of them changes its item and
where it leads, and with that what comes after it; everything that list code does
to a list is such a write.
-/

namespace Hos

variable {α β ν : Type}

/-- What a cell is for the list: its item and its successor. -/
structure CellView (α β ν : Type) where
  item : ν → β
  next : ν → α

/-- The cells `xs` lead from `a` to `e`. -/
def Segment (V : CellView α β ν) (heap : α → Option ν) : α → List (α × β) → α → Prop
  | a, [], e => a = e
  | a, (p, b) :: xs, e =>
    a = p ∧ ∃ n, heap p = some n ∧ V.item n = b ∧ Segment V heap (V.next n) xs e

namespace Segment

variable {V : CellView α β ν} {heap heap' : α → Option ν} {a e e' p : α} {b : β}
  {xs ys : List (α × β)}

theorem append_iff : Segment V heap a (xs ++ ys) e ↔ ∃ c, Segment V heap a xs c ∧
    Segment V heap c ys e := by
  induction xs generalizing a with
  | nil => exact ⟨fun h => ⟨a, rfl, h⟩, fun ⟨c, hc, h⟩ => hc ▸ h⟩
  | cons x xs ih =>
    constructor
    · rintro ⟨ha, n, hn, hitem, hrest⟩
      obtain ⟨c, hfirst, hsecond⟩ := ih.mp hrest
      exact ⟨c, ⟨ha, n, hn, hitem, hfirst⟩, hsecond⟩
    · rintro ⟨c, ⟨ha, n, hn, hitem, hfirst⟩, hsecond⟩
      exact ⟨ha, n, hn, hitem, ih.mpr ⟨c, hfirst, hsecond⟩⟩

theorem congr (h : Segment V heap a xs e) (hsame : ∀ x ∈ xs, heap' x.1 = heap x.1) :
    Segment V heap' a xs e := by
  induction xs generalizing a with
  | nil => exact h
  | cons x xs ih =>
    obtain ⟨ha, n, hn, hitem, hrest⟩ := h
    refine ⟨ha, n, (hsame x List.mem_cons_self).trans hn, hitem, ih hrest ?_⟩
    exact fun y hy => hsame y (List.mem_cons_of_mem x hy)

theorem live (h : Segment V heap a xs e) {x : α × β} (hx : x ∈ xs) : heap x.1 ≠ none := by
  induction xs generalizing a with
  | nil => cases hx
  | cons y xs ih =>
    obtain ⟨_, n, hn, _, hrest⟩ := h
    obtain rfl | hx := List.mem_cons.mp hx
    · rw [hn]
      simp
    · exact ih hrest hx

theorem cons_iff {n : ν} (hn : heap p = some n) :
    Segment V heap a ((p, b) :: xs) e ↔ a = p ∧ V.item n = b ∧ Segment V heap (V.next n) xs e := by
  constructor
  · rintro ⟨ha, m, hm, hitem, hrest⟩
    cases hn.symm.trans hm
    exact ⟨ha, hitem, hrest⟩
  · rintro ⟨ha, hitem, hrest⟩
    exact ⟨ha, n, hn, hitem, hrest⟩

variable [DecidableEq α]

/-- A segment does not see writes to other cells. -/
theorem update_of_notMem (h : Segment V heap a xs e) (hp : p ∉ xs.map (·.1)) (o : Option ν) :
    Segment V (Function.update heap p o) a xs e := by
  refine h.congr fun x hx => Function.update_of_ne ?_ ..
  rintro rfl
  exact hp (List.mem_map_of_mem hx)

/-- Writing a cell of a segment so that it leads to another segment. -/
theorem write {b' : β} (h : Segment V heap a (xs ++ (p, b) :: ys) e) (n : ν)
    (hxs : p ∉ xs.map (·.1)) (hitem : V.item n = b') {zs : List (α × β)}
    (hrest : Segment V heap (V.next n) zs e') (hzs : p ∉ zs.map (·.1)) :
    Segment V (Function.update heap p (some n)) a (xs ++ (p, b') :: zs) e' := by
  obtain ⟨c, hfirst, ⟨rfl, _⟩⟩ := append_iff.mp h
  refine append_iff.mpr ⟨c, hfirst.update_of_notMem hxs _, ?_⟩
  exact (cons_iff (Function.update_self ..)).mpr ⟨rfl, hitem, hrest.update_of_notMem hzs _⟩

end Segment

end Hos
