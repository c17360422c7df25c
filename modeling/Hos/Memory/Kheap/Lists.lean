import Hos.Memory.Kheap.Layout

/-!
# Walks and updates of the two lists

The free list is a chain through the `nextfree` words, hung on the third word
of the heap. Removing and adding a block change only that chain; the sizes,
the block chain and the tail stay as they are. The walks of both lists
terminate because the lists are finite and null-terminated: the previous and
next block are the neighbours in address order, and best fit returns a
smallest fitting block.
-/

namespace Hos.Kheap

open List Nat

open Bytes

/-- Only `nextfree` words and the free-list word differ. -/
structure LinksOnly (vs : Nat) (S : Nat → Prop) (m m' : Bytes) : Prop where
  size : ∀ v, S v → sizeField m' v = sizeField m v
  next : ∀ v, S v → v ≠ vs → next m' v = next m v
  tail : m'.load32 (vs + 4) = m.load32 (vs + 4)
  touches : TouchesHeaders S m m'

section

variable {m m' m'' : Bytes} {vs : Nat} {S : Nat → Prop}

theorem LinksOnly.refl : LinksOnly vs S m m :=
    ⟨fun _ _ => rfl, fun _ _ _ => rfl, rfl, TouchesHeaders.refl⟩

theorem LinksOnly.trans (h : LinksOnly vs S m m') (h' : LinksOnly vs S m' m'') :
    LinksOnly vs S m m'' where
  size v hv := (h'.size v hv).trans (h.size v hv)
  next v hv hne := (h'.next v hv hne).trans (h.next v hv hne)
  tail := h'.tail.trans h.tail
  touches := h.touches.trans h'.touches

variable (apart : ∀ u v, S u → S v → Apart u v) (start : S vs)
include apart start

theorem linksOnly_setNextfree {u x : Nat} (hu : S u) (hne : u ≠ vs) :
    LinksOnly vs S m (setNextfree m u x) where
  size v hv := sizeField_setNextfree (apart u v hu hv)
  next v hv _ := next_setNextfree (apart u v hu hv)
  tail := nextfree_setNextfree (apart u vs hu start) hne.symm
  touches := TouchesHeaders.setNextfree hu

theorem linksOnly_freelist {x : Nat} : LinksOnly vs S m (m.store32 (vs + 8) x) where
  size v hv := sizeField_setNext (apart vs v start hv)
  next v hv hne := next_setNext (apart vs v start hv) hne
  tail := nextfree_setNext (apart vs vs start start)
  touches := TouchesHeaders.setNext start

/-- Removing a listed block returns, unlinks exactly that block, and leaves
everything but the free list alone. -/
theorem blockRemoveFromFreelist_spec {l r : List Nat} {x : Nat}
    (chain : Chain m 4 (vs + 8) (l ++ x :: r) 0) (nodup : (l ++ x :: r).Nodup)
    (listed : ∀ a ∈ l ++ x :: r, S a ∧ a ≠ vs ∧ a ≠ 0) :
    ∃ m', blockRemoveFromFreelist m x (vs + 8) = some m' ∧
      Chain m' 4 (vs + 8) (l ++ r) 0 ∧ LinksOnly vs S m m' := by
  have hx := listed x (by simp)
  obtain ⟨hfront, hback, hdisjoint⟩ := nodup_append.mp nodup
  have back : ∀ y ∈ r, S y ∧ y ≠ x := by
    intro y hy
    refine ⟨(listed y (by simp [hy])).1, ?_⟩
    rintro rfl
    exact (nodup_cons.mp hback).1 hy
  rcases eq_nil_or_concat' l with rfl | ⟨l', p, rfl⟩
  · -- The block is the first of the list: the free-list word is redirected.
    have hfirst : m.load32 (vs + 8) = x := chain.1
    refine ⟨setNextfree (m.store32 (vs + 8) (nextfree m x)) x 0, ?_, ?_, ?_⟩
    · simp [blockRemoveFromFreelist, hfirst]
    · refine chain.remove ?_ (by simp) ?_
      · change next (setNextfree (setNext m vs (nextfree m x)) x 0) vs = nextfree m x
        rw [next_setNextfree (apart x vs hx.1 start), next_setNext_self]
        exact mod_eq_of_lt load32_lt
      · intro y hy
        obtain ⟨hSy, hyx⟩ := back y hy
        change nextfree (setNextfree (setNext m vs (nextfree m x)) x 0) y = nextfree m y
        rw [nextfree_setNextfree (apart x y hx.1 hSy) hyx, nextfree_setNext (apart vs y start hSy)]
    · exact (linksOnly_freelist apart start).trans (linksOnly_setNextfree apart start hx.1 hx.2.1)
  · -- Otherwise the walk stops at the block before it.
    have hp := listed p (by simp)
    have hpx : p ≠ x := hdisjoint p (by simp) x (by simp)
    have hchain : Chain m 4 (vs + 8) (l' ++ p :: x :: r) 0 := by simpa using chain
    have before : ∀ y ∈ l', S y ∧ y ≠ p ∧ y ≠ x ∧ y ≠ 0 ∧ nextfree m y ≠ x := by
      intro y hy
      have hmem := listed y (by simp [hy])
      refine ⟨hmem.1, ?_, hdisjoint y (by simp [hy]) x (by simp), hmem.2.2, ?_⟩
      · exact (nodup_append.mp hfront).2.2 y hy p (by simp)
      · obtain ⟨l₁, l₂, rfl⟩ := append_of_mem hy
        rw [append_assoc] at hchain
        have hnext : nextfree m y = (l₂ ++ p :: x :: r).headD 0 := hchain.next_eq
        rw [hnext]
        cases l₂ with
        | nil => exact hpx
        | cons z l₂ => exact hdisjoint z (by simp) x (by simp)
    have hfirst : x ≠ m.load32 (vs + 8) := by
      rw [hchain.head]
      cases l' with
      | nil => exact hpx.symm
      | cons y l' => exact (before y (by simp)).2.2.1.symm
    have walk : whileLoop (fun prev => prev != 0 && nextfree m prev != x)
        (fun prev => some (nextfree m prev)) (m.load32 (vs + 8)) = some p := by
      refine hchain.search ?_ ?_
      · intro y hy
        obtain ⟨-, -, -, hy0, hyx⟩ := before y hy
        simp [hy0, hyx]
      · have hpn : nextfree m p = x := hchain.next_eq
        simp [hpn]
    have hkept : ∀ y, S y → y ≠ p → y ≠ x →
        nextfree (setNextfree (setNextfree m p (nextfree m x)) x 0) y = nextfree m y := by
      intro y hSy hyp hyx
      rw [nextfree_setNextfree (apart x y hx.1 hSy) hyx,
        nextfree_setNextfree (apart p y hp.1 hSy) hyp]
    refine ⟨setNextfree (setNextfree m p (nextfree m x)) x 0, ?_, ?_, ?_⟩
    · simp [blockRemoveFromFreelist, hfirst, walk, hp.2.2]
    · refine chain.remove ?_ ?_ ?_
      · rw [linkAddr_concat]
        change nextfree (setNextfree (setNextfree m p (nextfree m x)) x 0) p = nextfree m x
        rw [nextfree_setNextfree (apart x p hx.1 hp.1) hpx, nextfree_setNextfree_self]
        exact mod_eq_of_lt load32_lt
      · intro l'' p' hsplit
        obtain ⟨rfl, hpp⟩ := append_inj' hsplit rfl
        refine ⟨?_, ?_⟩
        · change next (setNextfree (setNextfree m p (nextfree m x)) x 0) vs = next m vs
          rw [next_setNextfree (apart x vs hx.1 start), next_setNextfree (apart p vs hp.1 start)]
        · intro y hy
          obtain ⟨hSy, hyp, hyx, -, -⟩ := before y hy
          exact hkept y hSy hyp hyx
      · intro y hy
        obtain ⟨hSy, hyx⟩ := back y hy
        exact hkept y hSy (hdisjoint p (by simp) y (by simp [hy])).symm hyx
    · exact (linksOnly_setNextfree apart start hp.1 hp.2.1).trans
        (linksOnly_setNextfree apart start hx.1 hx.2.1)

/-- Adding a block pushes it in front of the list. -/
theorem blockAddToFreelist_spec {fs : List Nat} {x : Nat}
    (chain : Chain m 4 (vs + 8) fs 0) (listed : ∀ a ∈ fs, S a) (hx : S x) (hvs : x ≠ vs)
    (hlt : x < 2 ^ 32) (fresh : x ∉ fs) :
    Chain (blockAddToFreelist m x (vs + 8)) 4 (vs + 8) (x :: fs) 0 ∧
      LinksOnly vs S m (blockAddToFreelist m x (vs + 8)) := by
  refine ⟨?_, (linksOnly_setNextfree apart start hx hvs).trans (linksOnly_freelist apart start)⟩
  refine chain.push ?_ ?_ ?_
  · change next (setNext (setNextfree m x (m.load32 (vs + 8))) vs x) vs = x
    rw [next_setNext_self]
    omega
  · change nextfree (setNext (setNextfree m x (m.load32 (vs + 8))) vs x) x = m.load32 (vs + 8)
    rw [nextfree_setNext (apart vs x start hx), nextfree_setNextfree_self]
    exact mod_eq_of_lt load32_lt
  · intro y hy
    have hyx : y ≠ x := fun heq => fresh (heq ▸ hy)
    change nextfree (setNext (setNextfree m x (m.load32 (vs + 8))) vs x) y = nextfree m y
    rw [nextfree_setNext (apart vs y start (listed y hy)),
      nextfree_setNextfree (apart x y hx (listed y hy)) hyx]

end

section

variable {m : Bytes} {vs x : Nat} {l r : List Nat}

variable (chain : Chain m 8 vs (l ++ x :: r) 0) (nodup : (l ++ x :: r).Nodup)
include chain nodup

/-- The walk from the head stops at the block before `x`, or is not started
when `x` is the head. -/
theorem blockGetPreviousBlock_spec :
    blockGetPreviousBlock m x vs = some (l.getLast?.getD 0) := by
  obtain ⟨hfront, -, hdisjoint⟩ := nodup_append.mp nodup
  rcases eq_nil_or_concat' l with rfl | ⟨l', p, rfl⟩
  · have hhead : m.load32 vs = x := chain.1
    simp [blockGetPreviousBlock, hhead]
  · have hchain : Chain m 8 vs (l' ++ p :: x :: r) 0 := by simpa using chain
    have hhead : x ≠ m.load32 vs := by
      rw [hchain.head]
      cases l' with
      | nil => exact (hdisjoint p (by simp) x (by simp)).symm
      | cons y l' => exact (hdisjoint y (by simp) x (by simp)).symm
    have walk : whileLoop (fun prev => next m prev != x) (fun prev => some (next m prev))
        (m.load32 vs) = some p := by
      refine hchain.search ?_ ?_
      · intro y hy
        obtain ⟨l₁, l₂, rfl⟩ := append_of_mem hy
        rw [append_assoc] at hchain
        have hnext : next m y = (l₂ ++ p :: x :: r).headD 0 := hchain.next_eq
        have hne : next m y ≠ x := by
          rw [hnext]
          cases l₂ with
          | nil => exact hdisjoint p (by simp) x (by simp)
          | cons z l₂ => exact hdisjoint z (by simp) x (by simp)
        simpa using hne
      · have hpn : next m p = x := hchain.next_eq
        simp [hpn]
    simpa [blockGetPreviousBlock, hhead] using walk

/-- The block after `x`, or null when `x` is the tail. -/
theorem blockGetNextBlock_spec (tail : m.load32 (vs + 4) = (l ++ x :: r).getLast?.getD 0) :
    blockGetNextBlock m x (vs + 4) = r.headD 0 := by
  have hnext : next m x = r.headD 0 := chain.next_eq
  rcases eq_nil_or_concat' r with rfl | ⟨r', z, rfl⟩
  · have htail : m.load32 (vs + 4) = x := by simpa using tail
    simp [blockGetNextBlock, htail]
  · have htail : m.load32 (vs + 4) = z := by
      rw [tail, ← cons_append, ← append_assoc, getLast?_concat, Option.getD_some]
    have hne : x ≠ z := by
      have hback := (nodup_append.mp nodup).2.1
      rintro rfl
      exact (nodup_cons.mp hback).1 (by simp)
    simp only [blockGetNextBlock, htail, hne, ↓reduceIte, hnext]

end

variable {m : Bytes} {vs : Nat} {p : Nat → Bool}

/-- `best` is null and there is no candidate, or it is a smallest candidate. -/
def IsBestFit (m : Bytes) (p : Nat → Bool) (seen : List Nat) (best : Nat) : Prop :=
  (best = 0 ∧ ∀ a ∈ seen, p a = false) ∨
    (best ∈ seen ∧ p best = true ∧ ∀ a ∈ seen, p a = true → sizeField m best ≤ sizeField m a)

/-- What both scans of the free list do with the block `x`. -/
def chooseSmaller (m : Bytes) (p : Nat → Bool) (x best : Nat) : Nat :=
  if !p x then best else if best = 0 ∨ sizeField m x < sizeField m best then x else best

/-- Looking at one more block keeps the best choice best. -/
theorem IsBestFit.step {seen : List Nat} {best x : Nat} (h : IsBestFit m p seen best)
    (pos : ∀ a ∈ seen, a ≠ 0) : IsBestFit m p (seen ++ [x]) (chooseSmaller m p x best) := by
  have hall : ∀ {Q : Nat → Prop}, (∀ a ∈ seen, Q a) → Q x → ∀ a ∈ seen ++ [x], Q a :=
    fun hseen hx => forall_mem_append.mpr ⟨hseen, forall_mem_singleton.mpr hx⟩
  cases hfit : p x with
  | false =>
    have hstep : chooseSmaller m p x best = best := by simp [chooseSmaller, hfit]
    rw [hstep]
    rcases h with ⟨hzero, hnone⟩ | ⟨hmem, hbest, hmin⟩
    · exact .inl ⟨hzero, hall hnone hfit⟩
    · exact .inr ⟨by simp [hmem], hbest, hall hmin (by simp [hfit])⟩
  | true =>
    rcases h with ⟨hzero, hnone⟩ | ⟨hmem, hbest, hmin⟩
    · have hstep : chooseSmaller m p x best = x := by simp [chooseSmaller, hfit, hzero]
      rw [hstep]
      exact .inr ⟨by simp, hfit, hall (fun a ha => by simp [hnone a ha]) fun _ => Nat.le_refl _⟩
    · have hpos := pos best hmem
      by_cases hlt : sizeField m x < sizeField m best
      · have hstep : chooseSmaller m p x best = x := by simp [chooseSmaller, hfit, hlt]
        rw [hstep]
        refine .inr ⟨by simp, hfit, hall (fun a ha hafit => ?_) fun _ => Nat.le_refl _⟩
        exact Nat.le_trans (Nat.le_of_lt hlt) (hmin a ha hafit)
      · have hstep : chooseSmaller m p x best = best := by simp [chooseSmaller, hfit, hlt, hpos]
        rw [hstep]
        exact .inr ⟨by simp [hmem], hbest, hall hmin fun _ => Nat.le_of_not_lt hlt⟩

theorem IsBestFit.foldl {seen : List Nat} {best : Nat} (h : IsBestFit m p seen best)
    (xs : List Nat) (pos : ∀ a ∈ seen ++ xs, a ≠ 0) :
    IsBestFit m p (seen ++ xs) (xs.foldl (fun best x => chooseSmaller m p x best) best) := by
  induction xs generalizing seen best with
  | nil => simpa using h
  | cons x xs ih =>
    have hstep := h.step (x := x) fun a ha => pos a (by simp [ha])
    simpa using ih hstep (by simpa using pos)

/-- A scan of the free list terminates with a best fit among all its blocks. -/
theorem scan_bestFit (p : Nat → Bool) {fs : List Nat} (chain : Chain m 4 (vs + 8) fs 0)
    (pos : ∀ a ∈ fs, a ≠ 0) :
    ∃ best, IsBestFit m p fs best ∧ (fs = [] → best = 0) ∧
      whileLoop (fun s : Nat × Nat => s.1 != 0)
        (fun s => some (nextfree m s.1, chooseSmaller m p s.1 s.2))
        (m.load32 (vs + 8), 0) = some (0, best) := by
  have start : IsBestFit m p [] 0 := .inl ⟨rfl, by simp⟩
  refine ⟨_, by simpa using start.foldl fs (by simpa using pos), ?_, chain.scan
    (chooseSmaller m p) pos 0⟩
  rintro rfl
  rfl

/-- An empty free list is not scanned; the result would be the same. -/
theorem find_of_scan {best : Nat} {fs : List Nat} (chain : Chain m 4 (vs + 8) fs 0)
    (pos : ∀ a ∈ fs, a ≠ 0) {step : Nat × Nat → Nat × Nat} (hempty : fs = [] → best = 0)
    (scan : whileLoop (fun s : Nat × Nat => s.1 != 0) (fun s => some (step s))
      (m.load32 (vs + 8), 0) = some (0, best)) :
    (do
      let firstFreeBlock := m.load32 (vs + 8) if firstFreeBlock = 0 then return 0
      let s ← whileLoop (fun s : Nat × Nat => s.1 != 0) (fun s => some (step s)) (firstFreeBlock, 0)
      return s.2) = some best := by
  cases fs with
  | nil =>
    have hfirst : m.load32 (vs + 8) = 0 := chain
    simp [hfirst, hempty rfl]
  | cons x fs =>
    have hfirst : m.load32 (vs + 8) = x := chain.1
    have hx : x ≠ 0 := pos x (by simp)
    rw [hfirst] at scan
    simp [hfirst, hx, scan]

variable (size : Nat) {fs : List Nat} (chain : Chain m 4 (vs + 8) fs 0) (pos : ∀ a ∈ fs, a ≠ 0)
include size chain pos

theorem blockFindBestFitting_spec :
    ∃ best, blockFindBestFitting m size (vs + 8) = some best ∧
      IsBestFit m (fun a => blockIsFit m a size) fs best := by
  obtain ⟨best, hbest, hempty, scan⟩ := scan_bestFit (fun a => blockIsFit m a size) chain pos
  exact ⟨best, find_of_scan chain pos hempty scan, hbest⟩

/-- The scan for aligned blocks also takes blocks that are neither aligned nor large enough. -/
theorem blockFindBestFittingAlign_spec :
    ∃ best, blockFindBestFittingAlign m size (vs + 8) = some best ∧
      IsBestFit m (fun a => blockIsFit m a size || !isAlign a) fs best := by
  obtain ⟨best, hbest, hempty, scan⟩ := scan_bestFit
    (fun a => blockIsFit m a size || !isAlign a) chain pos
  refine ⟨best, find_of_scan chain pos hempty ?_, hbest⟩
  simpa only [bestFittingAlignStep, chooseSmaller, Bool.not_or, Bool.not_not] using scan

end Hos.Kheap
