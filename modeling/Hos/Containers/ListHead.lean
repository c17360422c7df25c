import Mathlib.Data.List.Perm.Subperm
import Hos.Lib.Loop
import Hos.Lib.Ring
import Hos.Lib.Word

/-!
# Intrusive lists

The operations of `list_head.h` on the links of all nodes. A list is the ring of
its head; every operation turns rings into rings and changes no link outside of
the rings that it works on, so any number of lists can share the memory.

`list_head_append` tests both lists before it does anything. When the main list
is empty it leaves the secondary list where it is, which is the one case in
which the result is not the concatenation.
-/

namespace Hos

open List

namespace Links

variable {α : Type} [DecidableEq α]

/-- `list_head_init`. -/
def listHeadInit (L : Links α) (head : α) : Links α := (L.setPrev head head).setNext head head

/-- `list_head_empty`. -/
def listHeadEmpty (L : Links α) (head : α) : Bool := L.next head = head

/-- `list_head_size`, with the loop over the entries. -/
def listHeadSize (L : Links α) (head : α) : Option Nat :=
  if L.listHeadEmpty head then some 0
  else
    (whileLoop (fun s : α × Nat => decide (s.1 ≠ head))
      (fun s => some (L.next s.1, u32 (s.2 + 1))) (L.next head, 0)).map (·.2)

/-- `list_head_insert_after`. -/
def listHeadInsertAfter (L : Links α) (newEntry location : α) : Links α :=
  let oldNext := L.next location
  let L₁ := L.setNext location newEntry
  let L₂ := L₁.setPrev newEntry location
  let L₃ := L₂.setNext newEntry oldNext
  L₃.setPrev oldNext newEntry

/-- `list_head_insert_before`. -/
def listHeadInsertBefore (L : Links α) (newEntry location : α) : Links α :=
  let oldPrev := L.prev location
  let L₁ := L.setNext oldPrev newEntry
  let L₂ := L₁.setPrev newEntry oldPrev
  let L₃ := L₂.setNext newEntry location
  L₃.setPrev location newEntry

/-- `list_head_remove`. -/
def listHeadRemove (L : Links α) (entry : α) : Links α :=
  if L.listHeadEmpty entry then L
  else
    let L₁ := L.setNext (L.prev entry) (L.next entry)
    let L₂ := L₁.setPrev (L₁.next entry) (L₁.prev entry)
    L₂.listHeadInit entry

/-- `list_head_pop`. -/
def listHeadPop (L : Links α) (head : α) : Links α × Option α :=
  if L.listHeadEmpty head then (L, none) else (L.listHeadRemove (L.next head), some (L.next head))

/-- `list_head_append`. -/
def listHeadAppend (L : Links α) (main secondary : α) : Links α :=
  if L.listHeadEmpty main || L.listHeadEmpty secondary then L
  else
    let L₁ := L.setNext (L.prev main) (L.next secondary)
    let L₂ := L₁.setPrev (L₁.next secondary) (L₁.prev main)
    let L₃ := L₂.setNext (L₂.prev secondary) main
    let L₄ := L₃.setPrev main (L₃.prev secondary)
    L₄.listHeadInit secondary

section

variable {L : Links α} {h n x : α} {xs ys zs : List α}

theorem listHeadEmpty_eq (hring : L.Ring h xs) : L.listHeadEmpty h = decide (xs = []) := by
  rw [listHeadEmpty, decide_eq_decide, hring.next_eq_head_iff]

theorem ring_insertAfter_head (hring : L.Ring h xs) (hn : n ∉ h :: xs) :
    (L.listHeadInsertAfter n h).Ring h (n :: xs) ∧
      L.SameOutside (L.listHeadInsertAfter n h) (n :: h :: xs) := by
  have hold := hring.path.next_eq
  have hmem := hring.next_mem
  have hnext : ∀ x, (L.listHeadInsertAfter n h).next x =
      if x = n then L.next h else if x = h then n else L.next x := by
    intro x
    simp [listHeadInsertAfter]
  have hprev : ∀ x, (L.listHeadInsertAfter n h).prev x =
      if x = L.next h then n else if x = n then h else L.prev x := by
    intro x
    simp [listHeadInsertAfter]
  have hnh : h ≠ n := fun heq => hn (heq ▸ mem_cons_self)
  have hno : n ≠ L.next h := fun heq => hn (heq ▸ hmem)
  refine ⟨⟨?_, ?_, ?_⟩, ?_⟩
  · exact (List.Perm.swap n h xs).nodup_iff.mpr (nodup_cons.mpr ⟨hn, hring.nodup⟩)
  · exact ⟨by rw [hnext, if_neg hnh, if_pos rfl], by rw [hprev, if_neg hno, if_pos rfl]⟩
  · apply hring.path.restart
    · rw [hnext, if_pos rfl, hold]
    · rw [hprev, ← hold, if_pos rfl]
    · intro x hx
      have hxn : x ≠ n := fun heq => hn (heq ▸ mem_cons_of_mem h hx)
      have hxh : x ≠ h := fun heq => (nodup_cons.mp hring.nodup).1 (heq ▸ hx)
      rw [hnext, if_neg hxn, if_neg hxh]
    · intro x hx
      have hxn : x ≠ n := fun heq => hn (Ring.mem_rotated.mp (heq ▸ mem_of_mem_tail hx))
      have hxo : x ≠ L.next h := by
        rintro rfl
        rw [hold] at hx
        exact head_notMem_tail _ hring.nodup_rotated hx
      rw [hprev, if_neg hxo, if_neg hxn]
  · intro x hx
    have hxn : x ≠ n := fun heq => hx (heq ▸ mem_cons_self)
    have hxs : x ∉ h :: xs := fun hmem' => hx (mem_cons_of_mem n hmem')
    have hxh : x ≠ h := fun heq => hxs (heq ▸ mem_cons_self)
    have hxo : x ≠ L.next h := fun heq => hxs (heq ▸ hmem)
    rw [hnext, hprev, if_neg hxn, if_neg hxh, if_neg hxo, if_neg hxn]
    simp

/-- A new entry after the head is the first one, after another entry it follows
that entry. -/
theorem ring_insertAfter (hring : L.Ring h (ys ++ x :: zs)) (hn : n ∉ h :: (ys ++ x :: zs)) :
    (L.listHeadInsertAfter n x).Ring h (ys ++ x :: n :: zs) ∧
      L.SameOutside (L.listHeadInsertAfter n x) (n :: h :: (ys ++ x :: zs)) := by
  have hperm := perm_rotate h ys x zs
  have hn' : n ∉ x :: (zs ++ h :: ys) := fun hmem => hn (hperm.mem_iff.mpr hmem)
  obtain ⟨hnew, hsame⟩ := ring_insertAfter_head hring.rotate hn'
  refine ⟨hnew.rotate, fun y hy => hsame y fun hmem => hy ?_⟩
  exact (hperm.cons n).mem_iff.mpr hmem

/-- Inserting before a node is inserting after the one before it. -/
theorem listHeadInsertBefore_eq (hback : L.next (L.prev h) = h) :
    L.listHeadInsertBefore n h = L.listHeadInsertAfter n (L.prev h) := by
  unfold listHeadInsertBefore listHeadInsertAfter
  rw [hback]

theorem ring_insertBefore_head (hring : L.Ring h xs) (hn : n ∉ h :: xs) :
    (L.listHeadInsertBefore n h).Ring h (xs ++ [n]) ∧
      L.SameOutside (L.listHeadInsertBefore n h) (n :: h :: xs) := by
  have hlast := hring.path.prev_eq
  rw [listHeadInsertBefore_eq hring.next_prev]
  rcases eq_nil_or_concat' xs with rfl | ⟨ys, l, rfl⟩
  · have hself : L.prev h = h := hlast
    rw [hself]
    exact ring_insertAfter_head hring hn
  · have hl : L.prev h = l := by
      rw [hlast]
      simp
    rw [hl, append_assoc]
    exact ring_insertAfter hring hn

/-- A new entry before the head is the last one, before another entry it precedes
that entry. -/
theorem ring_insertBefore (hring : L.Ring h (ys ++ x :: zs)) (hn : n ∉ h :: (ys ++ x :: zs)) :
    (L.listHeadInsertBefore n x).Ring h (ys ++ n :: x :: zs) ∧
      L.SameOutside (L.listHeadInsertBefore n x) (n :: h :: (ys ++ x :: zs)) := by
  have hperm := perm_rotate h ys x zs
  have hn' : n ∉ x :: (zs ++ h :: ys) := fun hmem => hn (hperm.mem_iff.mpr hmem)
  obtain ⟨hnew, hsame⟩ := ring_insertBefore_head hring.rotate hn'
  rw [append_assoc, cons_append] at hnew
  have hback := hnew.rotate
  rw [append_assoc] at hback
  refine ⟨hback, fun y hy => hsame y fun hmem => hy ?_⟩
  exact (hperm.cons n).mem_iff.mpr hmem

end

section

variable {L : Links α} {h e x : α} {xs ys zs : List α}

/-- The links after an entry that is not alone is removed. -/
theorem listHeadRemove_links (hring : L.Ring e (x :: xs)) (y : α) :
    (L.listHeadRemove e).next y = (if y = e then e else if y = L.prev e then x else L.next y) ∧
      (L.listHeadRemove e).prev y = if y = e then e else if y = x then L.prev e else L.prev y := by
  have hnotempty : L.listHeadEmpty e = false := by
    rw [listHeadEmpty, decide_eq_false_iff_not, hring.next_eq_head_iff]
    simp
  have hnext : L.next e = x := hring.path.1.1
  have hne : e ≠ L.prev e := by
    rw [hring.path.prev_eq, getLast_cons_cons]
    intro heq
    exact (nodup_cons.mp hring.nodup).1 (heq ▸ getLast_mem _)
  simp [listHeadRemove, hnotempty, hnext, hne, listHeadInit]

/-- Removing the head of a ring leaves the others in a ring. -/
theorem ring_remove_head (hring : L.Ring e (x :: xs)) :
    (L.listHeadRemove e).Ring x xs ∧ (L.listHeadRemove e).Ring e [] ∧
      L.SameOutside (L.listHeadRemove e) (e :: x :: xs) := by
  have hlinks := listHeadRemove_links hring
  have hlast : L.prev e = (x :: xs).getLast (cons_ne_nil x xs) := by
    rw [hring.path.prev_eq, getLast_cons_cons]
  obtain ⟨he, hxs⟩ := nodup_cons.mp hring.nodup
  have hmem : L.prev e ∈ x :: xs := hlast ▸ getLast_mem _
  have hle : L.prev e ≠ e := fun heq => he (heq ▸ hmem)
  have hxe : x ≠ e := fun heq => he (heq ▸ mem_cons_self)
  refine ⟨⟨hxs, ?_⟩, Ring.nil_iff.mpr ?_, ?_⟩
  · apply hring.path.2.retarget
    · rw [← hlast, (hlinks _).1, if_neg hle, if_pos rfl]
    · rw [← hlast, (hlinks _).2, if_neg hxe, if_pos rfl]
    · intro y hy
      have hye : y ≠ e := fun heq => he (heq ▸ (dropLast_sublist _).subset hy)
      have hyl : y ≠ L.prev e := by
        rintro rfl
        rw [hlast] at hy
        exact getLast_notMem_dropLast _ hxs hy
      rw [(hlinks y).1, if_neg hye, if_neg hyl]
    · intro y hy
      have hye : y ≠ e := fun heq => he (heq ▸ mem_cons_of_mem x hy)
      have hyx : y ≠ x := fun heq => (nodup_cons.mp hxs).1 (heq ▸ hy)
      rw [(hlinks y).2, if_neg hye, if_neg hyx]
  · exact ⟨(hlinks e).1.trans (if_pos rfl), (hlinks e).2.trans (if_pos rfl)⟩
  · intro y hy
    have hye : y ≠ e := fun heq => hy (heq ▸ mem_cons_self)
    have hyxs : y ∉ x :: xs := fun hmem' => hy (mem_cons_of_mem e hmem')
    have hyl : y ≠ L.prev e := fun heq => hyxs (heq ▸ hmem)
    have hyx : y ≠ x := fun heq => hyxs (heq ▸ mem_cons_self)
    rw [(hlinks y).1, (hlinks y).2, if_neg hye, if_neg hyl, if_neg hye, if_neg hyx]
    simp

theorem ring_remove (hring : L.Ring h (ys ++ e :: zs)) :
    (L.listHeadRemove e).Ring h (ys ++ zs) ∧ (L.listHeadRemove e).Ring e [] ∧
      L.SameOutside (L.listHeadRemove e) (h :: (ys ++ e :: zs)) := by
  have hperm := perm_rotate h ys e zs
  have hrotated := hring.rotate
  cases zs with
  | nil =>
    obtain ⟨hrest, halone, hsame⟩ := ring_remove_head hrotated
    rw [append_nil]
    exact ⟨hrest, halone, fun y hy => hsame y fun hmem => hy (hperm.mem_iff.mpr hmem)⟩
  | cons z zs =>
    obtain ⟨hrest, halone, hsame⟩ := ring_remove_head hrotated
    exact ⟨hrest.rotate, halone, fun y hy => hsame y fun hmem => hy (hperm.mem_iff.mpr hmem)⟩

/-- An entry is out of the ring as soon as its two neighbours are linked. -/
theorem ring_unlink {L' : Links α} (hring : L.Ring h (ys ++ e :: zs))
    (hnext : ∀ y ≠ e, L'.next y = if y = L.prev e then L.next e else L.next y)
    (hprev : ∀ y ≠ e, L'.prev y = if y = L.next e then L.prev e else L.prev y) :
    L'.Ring h (ys ++ zs) := by
  obtain ⟨x, xs, hrotated⟩ : ∃ x xs, L.Ring e (x :: xs) := by
    cases zs with
    | nil => exact ⟨_, _, hring.rotate⟩
    | cons z zs => exact ⟨_, _, hring.rotate⟩
  have hx : L.next e = x := hrotated.path.1.1
  have hlinks := listHeadRemove_links hrotated
  have hne : ∀ y ∈ h :: (ys ++ zs), y ≠ e := by
    rintro y hy rfl
    have hnodup : ((h :: ys) ++ y :: zs).Nodup := hring.nodup
    exact (nodup_cons.mp (nodup_middle.mp hnodup)).1 hy
  refine (ring_remove hring).1.congr (fun y hy => ?_) fun y hy => ?_
  · rw [hnext y (hne y hy), (hlinks y).1, if_neg (hne y hy), hx]
  · rw [hprev y (hne y hy), (hlinks y).2, if_neg (hne y hy), hx]

theorem ring_pop (hring : L.Ring h xs) :
    (L.listHeadPop h).2 = xs.head? ∧ (L.listHeadPop h).1.Ring h xs.tail ∧
      (∀ x ∈ xs.head?, (L.listHeadPop h).1.Ring x []) ∧ L.SameOutside (L.listHeadPop h).1
        (h :: xs) := by
  have hempty := listHeadEmpty_eq hring
  cases xs with
  | nil =>
    rw [listHeadPop, hempty, if_pos (by simp)]
    exact ⟨rfl, hring, fun _ hx => absurd hx (Option.not_mem_none _), fun _ _ => ⟨rfl, rfl⟩⟩
  | cons x xs =>
    have hnext : L.next h = x := hring.path.1.1
    rw [listHeadPop, hempty, if_neg (by simp), hnext]
    rw [← nil_append (x :: xs)] at hring
    obtain ⟨hrest, halone, hsame⟩ := ring_remove hring
    refine ⟨rfl, hrest, ?_, hsame⟩
    intro y hy
    cases hy
    exact halone

/-- The loop of `list_head_size` from a node on. -/
theorem size_loop {n : Nat} (hpath : L.Path x xs h) (hxs : h ∉ x :: xs) :
    whileLoop (fun s : α × Nat => decide (s.1 ≠ h)) (fun s => some (L.next s.1, u32 (s.2 + 1)))
      (x, n) = some (h, u32 (n + xs.length + 1)) := by
  induction xs generalizing x n with
  | nil =>
    have hne : x ≠ h := fun heq => hxs (heq ▸ mem_cons_self)
    have hnext : L.next x = h := hpath.1
    refine Eq.trans (whileLoop_of_true (decide_eq_true hne) rfl) ?_
    simp only [hnext]
    exact whileLoop_of_false (decide_eq_false (not_not.mpr rfl))
  | cons y xs ih =>
    have hne : x ≠ h := fun heq => hxs (heq ▸ mem_cons_self)
    have hnext : L.next x = y := hpath.1.1
    have hys : h ∉ y :: xs := fun hmem => hxs (mem_cons_of_mem x hmem)
    have hcount : u32 (u32 (n + 1) + xs.length + 1) = u32 (n + (y :: xs).length + 1) := by
      simp only [u32, length_cons]
      omega
    refine Eq.trans (whileLoop_of_true (decide_eq_true hne) rfl) ?_
    simp only [hnext]
    rw [ih hpath.2 hys, hcount]

theorem size_eq (hring : L.Ring h xs) : L.listHeadSize h = some (u32 xs.length) := by
  have hempty := listHeadEmpty_eq hring
  cases xs with
  | nil =>
    rw [listHeadSize, hempty, if_pos (by simp)]
    rfl
  | cons x xs =>
    have hnext : L.next h = x := hring.path.1.1
    have hloop := size_loop (n := 0) hring.path.2 (nodup_cons.mp hring.nodup).1
    rw [listHeadSize, hempty, if_neg (by simp), hnext, hloop, Option.map_some, length_cons,
      Nat.zero_add]

end

variable {L : Links α} {m s : α} {xs ys : List α}

section

variable {x y : α} (hm : L.Ring m (x :: xs)) (hs : L.Ring s (y :: ys))
  (hdisjoint : (m :: x :: xs).Disjoint (s :: y :: ys))
include hm hs hdisjoint

/-- The links after two lists that are not empty are joined. -/
theorem listHeadAppend_links (z : α) :
    (L.listHeadAppend m s).next z = (if z = s then s else if z = L.prev s then m
        else if z = L.prev m then y else L.next z) ∧
      (L.listHeadAppend m s).prev z = if z = s then s else if z = m then L.prev s
        else if z = y then L.prev m else L.prev z := by
  have hnext : L.next s = y := hs.path.1.1
  have hsm : s ≠ L.prev m := fun heq => hdisjoint (heq ▸ hm.prev_mem) mem_cons_self
  have hsy : s ≠ y := fun heq => (nodup_cons.mp hs.nodup).1 (heq ▸ mem_cons_self)
  simp [listHeadAppend, listHeadEmpty_eq hm, listHeadEmpty_eq hs, hnext, hsm, hsy, listHeadInit]

theorem ring_append :
    (L.listHeadAppend m s).Ring m (x :: xs ++ y :: ys) ∧ (L.listHeadAppend m s).Ring s [] ∧
      L.SameOutside (L.listHeadAppend m s) ((m :: x :: xs) ++ s :: y :: ys) := by
  have hlinks := listHeadAppend_links hm hs hdisjoint
  have hlm := hm.path.prev_eq
  have hls : L.prev s = (y :: ys).getLast (cons_ne_nil y ys) := by
    rw [hs.path.prev_eq, getLast_cons_cons]
  -- the nodes of the two lists are different
  have hmain : ∀ z ∈ m :: x :: xs, z ≠ s ∧ z ≠ L.prev s ∧ z ≠ y := fun z hz =>
    ⟨fun heq => hdisjoint hz (heq ▸ mem_cons_self), fun heq => hdisjoint hz (heq ▸ hs.prev_mem),
      fun heq => hdisjoint hz (heq ▸ mem_cons_of_mem s mem_cons_self)⟩
  have hsecond : ∀ z ∈ s :: y :: ys, z ≠ m ∧ z ≠ L.prev m := fun z hz =>
    ⟨fun heq => hdisjoint (heq ▸ mem_cons_self) hz, fun heq => hdisjoint (heq ▸ hm.prev_mem) hz⟩
  obtain ⟨hmx, hxs⟩ := nodup_cons.mp hm.nodup
  obtain ⟨hsy, hys⟩ := nodup_cons.mp hs.nodup
  have hmem : L.prev s ∈ y :: ys := hls ▸ getLast_mem _
  refine ⟨⟨?_, Path.append_iff.mpr ⟨?_, ?_⟩⟩, Ring.nil_iff.mpr ?_, ?_⟩
  · exact nodup_append.mpr ⟨hm.nodup, hys, fun a ha b hb heq =>
      hdisjoint ha (heq ▸ mem_cons_of_mem s hb)⟩
  · obtain ⟨hs₁, hs₂, _⟩ := hmain _ hm.prev_mem
    obtain ⟨hm₁, _⟩ := hsecond y (mem_cons_of_mem s mem_cons_self)
    have hys' : y ≠ s := fun heq => hsy (heq ▸ mem_cons_self)
    apply hm.path.retarget
    · rw [← hlm, (hlinks _).1, if_neg hs₁, if_neg hs₂, if_pos rfl]
    · rw [← hlm, (hlinks _).2, if_neg hys', if_neg hm₁, if_pos rfl]
    · intro z hz
      obtain ⟨hz₁, hz₂, _⟩ := hmain z ((dropLast_sublist _).subset hz)
      have hz₃ : z ≠ L.prev m := by
        rintro rfl
        rw [hlm] at hz
        exact getLast_notMem_dropLast _ hm.nodup hz
      rw [(hlinks z).1, if_neg hz₁, if_neg hz₂, if_neg hz₃]
    · intro z hz
      obtain ⟨hz₁, _, hz₂⟩ := hmain z (mem_cons_of_mem m hz)
      have hz₃ : z ≠ m := fun heq => hmx (heq ▸ hz)
      rw [(hlinks z).2, if_neg hz₁, if_neg hz₃, if_neg hz₂]
  · have hps : L.prev s ≠ s := fun heq => hsy (heq ▸ hmem)
    have hms : m ≠ s := (hmain m mem_cons_self).1
    apply hs.path.2.retarget
    · rw [← hls, (hlinks _).1, if_neg hps, if_pos rfl]
    · rw [← hls, (hlinks _).2, if_neg hms, if_pos rfl]
    · intro z hz
      have hz' := (dropLast_sublist _).subset hz
      have hz₁ : z ≠ s := fun heq => hsy (heq ▸ hz')
      have hz₂ : z ≠ L.prev s := by
        rintro rfl
        rw [hls] at hz
        exact getLast_notMem_dropLast _ hys hz
      have hz₃ := (hsecond z (mem_cons_of_mem s hz')).2
      rw [(hlinks z).1, if_neg hz₁, if_neg hz₂, if_neg hz₃]
    · intro z hz
      have hz' := mem_cons_of_mem y hz
      have hz₁ : z ≠ s := fun heq => hsy (heq ▸ hz')
      have hz₂ := (hsecond z (mem_cons_of_mem s hz')).1
      have hz₃ : z ≠ y := fun heq => (nodup_cons.mp hys).1 (heq ▸ hz)
      rw [(hlinks z).2, if_neg hz₁, if_neg hz₂, if_neg hz₃]
  · exact ⟨(hlinks s).1.trans (if_pos rfl), (hlinks s).2.trans (if_pos rfl)⟩
  · intro z hz
    obtain ⟨hz₁, hz₂⟩ : z ∉ m :: x :: xs ∧ z ∉ s :: y :: ys :=
      ⟨fun h => hz (mem_append_left _ h), fun h => hz (mem_append_right _ h)⟩
    have hzs : z ≠ s := fun heq => hz₂ (heq ▸ mem_cons_self)
    have hzps : z ≠ L.prev s := fun heq => hz₂ (heq ▸ mem_cons_of_mem s hmem)
    have hzpm : z ≠ L.prev m := fun heq => hz₁ (heq ▸ hm.prev_mem)
    have hzm : z ≠ m := fun heq => hz₁ (heq ▸ mem_cons_self)
    have hzy : z ≠ y := fun heq => hz₂ (heq ▸ mem_cons_of_mem s mem_cons_self)
    rw [(hlinks z).1, (hlinks z).2, if_neg hzs, if_neg hzps, if_neg hzpm, if_neg hzs,
      if_neg hzm, if_neg hzy]
    simp

end

/-- Appending gives the concatenation unless only the main list is empty. -/
theorem append_iff (hm : L.Ring m xs) (hs : L.Ring s ys)
    (hdisjoint : (m :: xs).Disjoint (s :: ys)) :
    ((L.listHeadAppend m s).Ring m (xs ++ ys) ∧ (L.listHeadAppend m s).Ring s [] ↔
      xs ≠ [] ∨ ys = []) ∧ L.SameOutside (L.listHeadAppend m s) ((m :: xs) ++ s :: ys) := by
  cases xs with
  | nil =>
    have hsame : L.listHeadAppend m s = L := if_pos (by simp [listHeadEmpty_eq hm])
    rw [hsame]
    refine ⟨?_, fun _ _ => ⟨rfl, rfl⟩⟩
    constructor
    · rintro ⟨_, hnil⟩
      exact Or.inr (hs.next_eq_head_iff.mp (Ring.nil_iff.mp hnil).1)
    · rintro (hne | rfl)
      · exact absurd rfl hne
      · exact ⟨hm, hs⟩
  | cons x xs =>
    cases ys with
    | nil =>
      have hsame : L.listHeadAppend m s = L := if_pos (by simp [listHeadEmpty_eq hs])
      rw [hsame, append_nil]
      exact ⟨iff_of_true ⟨hm, hs⟩ (Or.inr rfl), fun _ _ => ⟨rfl, rfl⟩⟩
    | cons y ys =>
      obtain ⟨hjoined, hempty, hsame⟩ := ring_append hm hs hdisjoint
      exact ⟨iff_of_true ⟨hjoined, hempty⟩ (Or.inl (cons_ne_nil x xs)), hsame⟩

end Links

/-- The operations that change one list. -/
inductive ListOp (α : Type) where
  | insertAfter (newEntry location : α)
  | insertBefore (newEntry location : α)
  | remove (entry : α)
  | pop

namespace ListOp

variable {α : Type} [DecidableEq α]

/-- A sequence with a new entry behind another one. -/
def behindEntry (location newEntry : α) : List α → List α
  | [] => []
  | x :: xs =>
    if x = location then x :: newEntry :: xs else x :: behindEntry location newEntry xs

/-- A sequence with a new entry in front of another one. -/
def beforeEntry (location newEntry : α) : List α → List α
  | [] => []
  | x :: xs =>
    if x = location then newEntry :: x :: xs else x :: beforeEntry location newEntry xs

/-- The operation on the sequence of entries of a list with the given head. -/
def onList (head : α) : ListOp α → List α → List α
  | insertAfter n location, xs => if location = head then n :: xs else behindEntry location n xs
  | insertBefore n location, xs => if location = head then xs ++ [n] else beforeEntry location n xs
  | remove entry, xs => xs.erase entry
  | pop, xs => xs.tail

/-- What the operation returns. -/
def value : ListOp α → List α → Option α
  | pop, xs => xs.head?
  | _, _ => none

/-- The operation on the links. -/
def onLinks (head : α) : ListOp α → Links α → Links α × Option α
  | insertAfter n location, L => (L.listHeadInsertAfter n location, none)
  | insertBefore n location, L => (L.listHeadInsertBefore n location, none)
  | remove entry, L => (L.listHeadRemove entry, none)
  | pop, L => L.listHeadPop head

/-- New entries are in front of or behind a node of the list and not in it yet, and
an entry of the list is removed. -/
def Fits (head : α) : ListOp α → List α → Prop
  | insertAfter n location, xs => n ∉ head :: xs ∧ location ∈ head :: xs
  | insertBefore n location, xs => n ∉ head :: xs ∧ location ∈ head :: xs
  | remove entry, xs => entry ∈ xs
  | pop, _ => True

/-- The nodes whose links the operation may change. -/
def nodes (head : α) : ListOp α → List α → List α
  | insertAfter n _, xs => n :: head :: xs
  | insertBefore n _, xs => n :: head :: xs
  | _, xs => head :: xs

section

variable {x n : α} {ys zs : List α}

theorem behindEntry_append (hx : x ∉ ys) :
    behindEntry x n (ys ++ x :: zs) = ys ++ x :: n :: zs := by
  induction ys with
  | nil => exact if_pos rfl
  | cons y ys ih =>
    have hne : y ≠ x := fun heq => hx (heq ▸ mem_cons_self)
    rw [cons_append, behindEntry, if_neg hne, ih fun hmem => hx (mem_cons_of_mem y hmem),
      cons_append]

theorem beforeEntry_append (hx : x ∉ ys) :
    beforeEntry x n (ys ++ x :: zs) = ys ++ n :: x :: zs := by
  induction ys with
  | nil => exact if_pos rfl
  | cons y ys ih =>
    have hne : y ≠ x := fun heq => hx (heq ▸ mem_cons_self)
    rw [cons_append, beforeEntry, if_neg hne, ih fun hmem => hx (mem_cons_of_mem y hmem),
      cons_append]

end

/-- Every operation does to the ring what it does to the sequence. -/
theorem onLinks_becomes {L : Links α} {h : α} {xs : List α} {op : ListOp α} (hring : L.Ring h xs)
    (hfits : op.Fits h xs) :
    L.Becomes (op.onLinks h L).1 (op.nodes h xs) h (op.onList h xs) ∧
      (op.onLinks h L).2 = op.value xs := by
  cases op with
  | insertAfter n location =>
    obtain ⟨hn, hlocation⟩ := hfits
    refine ⟨?_, rfl⟩
    obtain rfl | hmem := mem_cons.mp hlocation
    · obtain ⟨hnew, hsame⟩ := Links.ring_insertAfter_head hring hn
      rw [onList, if_pos rfl]
      exact hsame.becomes hnew
    · obtain ⟨hne, ys, zs, rfl, hys⟩ := hring.exists_split hmem
      obtain ⟨hnew, hsame⟩ := Links.ring_insertAfter hring hn
      rw [onList, if_neg hne, behindEntry_append hys]
      exact hsame.becomes hnew
  | insertBefore n location =>
    obtain ⟨hn, hlocation⟩ := hfits
    refine ⟨?_, rfl⟩
    obtain rfl | hmem := mem_cons.mp hlocation
    · obtain ⟨hnew, hsame⟩ := Links.ring_insertBefore_head hring hn
      rw [onList, if_pos rfl]
      exact hsame.becomes hnew
    · obtain ⟨hne, ys, zs, rfl, hys⟩ := hring.exists_split hmem
      obtain ⟨hnew, hsame⟩ := Links.ring_insertBefore hring hn
      rw [onList, if_neg hne, beforeEntry_append hys]
      exact hsame.becomes hnew
  | remove entry =>
    refine ⟨?_, rfl⟩
    obtain ⟨_, ys, zs, rfl, hys⟩ := hring.exists_split hfits
    obtain ⟨hrest, _, hsame⟩ := Links.ring_remove hring
    rw [onList, erase_append_right _ hys, erase_cons_head]
    exact hsame.becomes hrest
  | pop =>
    obtain ⟨hvalue, hrest, _, hsame⟩ := Links.ring_pop hring
    exact ⟨hsame.becomes hrest, hvalue⟩

end ListOp

namespace Links

section

variable {L : Links (BitVec 32)} {h : BitVec 32} {xs : List (BitVec 32)} (hring : L.Ring h xs)
include hring

theorem length_lt : xs.length < 2 ^ 32 := by
  have hnodup : ((h :: xs).map BitVec.toNat).Nodup := hring.nodup.map fun _ _ heq =>
    BitVec.eq_of_toNat_eq heq
  have hrange : (h :: xs).map BitVec.toNat ⊆ List.range (2 ^ 32) := by
    intro a ha
    obtain ⟨x, _, rfl⟩ := mem_map.mp ha
    exact mem_range.mpr x.isLt
  have hlength := (hnodup.subperm hrange).length_le
  rwa [length_range, length_map] at hlength

/-- The operations on a list are those on the sequence of its entries, whatever
other lists there are: a removed entry is a list of its own, and the size is the
length of the sequence. Appending a second list gives the concatenation and leaves that list empty
exactly when the
first list is not empty or both are. -/
theorem list_head_refines :
    (∀ op : ListOp (BitVec 32), op.Fits h xs →
      L.Becomes (op.onLinks h L).1 (op.nodes h xs) h (op.onList h xs) ∧
        (op.onLinks h L).2 = op.value xs) ∧
      (∀ e ∈ xs, (L.listHeadRemove e).Ring e []) ∧ L.listHeadSize h = some xs.length ∧
      ∀ s ys, L.Ring s ys → (h :: xs).Disjoint (s :: ys) →
        ((L.Becomes (L.listHeadAppend h s) ((h :: xs) ++ s :: ys) h (xs ++ ys) ∧
          (L.listHeadAppend h s).Ring s []) ↔ xs ≠ [] ∨ ys = []) := by
  refine ⟨fun op hfits => ListOp.onLinks_becomes hring hfits, ?_, ?_, ?_⟩
  · intro e he
    obtain ⟨_, ys, zs, rfl, _⟩ := hring.exists_split he
    exact (ring_remove hring).2.1
  · rw [size_eq hring, u32, Nat.mod_eq_of_lt (length_lt hring)]
  · intro s ys hys hdisjoint
    obtain ⟨hiff, hsame⟩ := append_iff hring hys hdisjoint
    rw [← hiff]
    exact and_congr_left fun _ => ⟨fun hbecomes => hbecomes.1, fun hjoined => hsame.becomes hjoined⟩

end

/-- Two lists with one entry each, and an empty one. -/
def threeLists : Links (BitVec 32) where
  next := fun x =>
    if x = 0x1000#32 then 0x1010#32 else if x = 0x1010#32 then 0x1000#32
    else if x = 0x2000#32 then 0x2010#32 else if x = 0x2010#32 then 0x2000#32 else x
  prev := fun x =>
    if x = 0x1000#32 then 0x1010#32 else if x = 0x1010#32 then 0x1000#32
    else if x = 0x2000#32 then 0x2010#32 else if x = 0x2010#32 then 0x2000#32 else x

/-- The two lists with an entry are joined. -/
theorem list_head_refines_joined :
    threeLists.Ring 0x1000#32 [0x1010#32] ∧ threeLists.listHeadSize 0x1000#32 = some 1 ∧
      (threeLists.listHeadAppend 0x1000#32 0x2000#32).Ring 0x1000#32 [0x1010#32, 0x2010#32] ∧
      (threeLists.listHeadAppend 0x1000#32 0x2000#32).Ring 0x2000#32 [] := by
  have hmain : threeLists.Ring 0x1000#32 [0x1010#32] := ⟨by decide, ⟨rfl, rfl⟩, ⟨rfl, rfl⟩⟩
  have hsecondary : threeLists.Ring 0x2000#32 [0x2010#32] := ⟨by decide, ⟨rfl, rfl⟩, ⟨rfl, rfl⟩⟩
  obtain ⟨_, _, hsize, happend⟩ := list_head_refines hmain
  obtain ⟨hjoined, hempty⟩ := (happend _ _ hsecondary (by simp)).mpr (Or.inl (by decide))
  exact ⟨hmain, hsize, hjoined.1, hempty⟩

/-- Appending a list with an entry to an empty one does nothing. -/
theorem append_to_empty_list :
    threeLists.Ring 0x3000#32 [] ∧ threeLists.Ring 0x2000#32 [0x2010#32] ∧
      [0x3000#32].Disjoint [0x2000#32, 0x2010#32] ∧
      (threeLists.listHeadAppend 0x3000#32 0x2000#32).Ring 0x3000#32 [] ∧
      (threeLists.listHeadAppend 0x3000#32 0x2000#32).Ring 0x2000#32 [0x2010#32] :=
  ⟨⟨by decide, rfl, rfl⟩, ⟨by decide, ⟨rfl, rfl⟩, rfl, rfl⟩, by simp, ⟨by decide, rfl, rfl⟩,
    ⟨by decide, ⟨rfl, rfl⟩, rfl, rfl⟩⟩

end Links

end Hos
