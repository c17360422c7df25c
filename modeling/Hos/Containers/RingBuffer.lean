import Mathlib.Logic.Function.Basic
import Mathlib.Tactic.Common

/-!
# Ring buffers of `ring_buffer.h`

`DECLARE_FIXED_SIZE_RING_BUFFER` makes a buffer for a type, a length and a value for
failed reads. A buffer of length `n` holds up to `n - 1` items, since equal indices
mean that it is empty. The front is where items are pushed. A push to a full buffer
drops the item at the back.
-/

namespace Hos

open List Function

structure RingBuffer (α : Type) where
  size : Nat
  read : Nat
  write : Nat
  buffer : Nat → α

namespace RingBuffer

variable {α : Type}

def init (length : Nat) (item : α) : RingBuffer α := ⟨length, 0, 0, fun _ => item⟩

def step (rb : RingBuffer α) (index : Nat) : Nat := if index = rb.size - 1 then 0 else index + 1

def pushFront (rb : RingBuffer α) (item : α) : RingBuffer α :=
  let read := if rb.step rb.write = rb.read then rb.step rb.read else rb.read
  { rb with read := read, write := rb.step rb.write
            buffer := Function.update rb.buffer rb.write item }

def empty (rb : RingBuffer α) : Bool := rb.write == rb.read

/-- The next push drops an item. -/
def full (rb : RingBuffer α) : Bool := rb.step rb.write == rb.read

/-- The index before `write`. -/
def last (rb : RingBuffer α) : Nat := if 0 < rb.write then rb.write - 1 else rb.size - 1

def popBack (rb : RingBuffer α) (init : α) : α × RingBuffer α :=
  if rb.empty then (init, rb) else (rb.buffer rb.read, { rb with read := rb.step rb.read })

def popFront (rb : RingBuffer α) (init : α) : α × RingBuffer α :=
  if rb.empty then (init, rb) else (rb.buffer rb.last, { rb with write := rb.last })

def back (rb : RingBuffer α) (init : α) : α := if rb.empty then init else rb.buffer rb.read

def front (rb : RingBuffer α) (init : α) : α := if rb.empty then init else rb.buffer rb.last

@[simp] theorem size_popBack (rb : RingBuffer α) (init : α) :
    (rb.popBack init).2.size = rb.size := by
  unfold popBack
  split <;> rfl

@[simp] theorem size_popFront (rb : RingBuffer α) (init : α) :
    (rb.popFront init).2.size = rb.size := by
  unfold popFront
  split <;> rfl

/-- The index `i` places after `base`. -/
def place (size base i : Nat) : Nat := if base + i < size then base + i else base + i - size

/-- The buffer holds the items, the oldest of them first. -/
structure Holds (rb : RingBuffer α) (items : List α) : Prop where
  read_lt : rb.read < rb.size
  length_lt : items.length < rb.size
  write_eq : rb.write = place rb.size rb.read items.length
  cells : ∀ i item, items[i]? = some item → rb.buffer (place rb.size rb.read i) = item

section

variable {size base i j : Nat}

theorem place_inj (hi : i < size) (hj : j < size) : place size base i = place size base j ↔
    i = j := by
  unfold place
  split <;> split <;> omega

end

variable {rb : RingBuffer α} {items : List α} {x : α} (item : α)

theorem place_step_read {i : Nat} (hi : i + 1 < rb.size) :
    place rb.size (rb.step rb.read) i = place rb.size rb.read (i + 1) := by
  unfold place step
  split <;> split <;> split <;> omega

theorem holds_init {length : Nat} (hpos : 0 < length) : Holds (init length item) [] := by
  refine ⟨hpos, hpos, ?_, fun i x hx => by cases hx⟩
  exact (if_pos hpos).symm

section

variable (h : Holds rb items)
include h

theorem Holds.empty_iff : rb.empty = true ↔ items = [] := by
  have hread := h.read_lt
  have hlength := h.length_lt
  rw [empty, beq_iff_eq, h.write_eq, ← length_eq_zero_iff]
  unfold place
  split <;> omega

theorem Holds.step_write : rb.step rb.write = place rb.size rb.read (items.length + 1) := by
  have hread := h.read_lt
  have hlength := h.length_lt
  rw [step, h.write_eq]
  unfold place
  split <;> split <;> split <;> omega

theorem Holds.full_iff : rb.full = true ↔ items.length + 1 = rb.size := by
  rw [full, beq_iff_eq, h.step_write]
  unfold place
  split <;> omega

theorem Holds.step_read_lt : rb.step rb.read < rb.size := by
  have hread := h.read_lt
  unfold step
  split <;> omega

theorem Holds.pushFront (hroom : items.length + 1 < rb.size) :
    Holds (rb.pushFront item) (items ++ [item]) := by
  have hread : ¬rb.step rb.write = rb.read :=
    fun heq => Nat.ne_of_lt hroom (h.full_iff.mp (beq_iff_eq.mpr heq))
  rw [RingBuffer.pushFront, if_neg hread]
  refine ⟨h.read_lt, by simpa using hroom, ?_, fun i x hx => ?_⟩
  · rw [length_append]
    exact h.step_write
  · dsimp only
    rcases Nat.lt_or_ge i items.length with hlt | hge
    · rw [getElem?_append_left hlt] at hx
      have hne : place rb.size rb.read i ≠ rb.write := by
        rw [h.write_eq, Ne, place_inj (Nat.lt_trans hlt h.length_lt) h.length_lt]
        exact Nat.ne_of_lt hlt
      rw [update_of_ne hne]
      exact h.cells i x hx
    · obtain rfl : i = items.length := by
        have hi := (List.getElem?_eq_some_iff.mp hx).1
        rw [length_append, length_singleton] at hi
        omega
      rw [getElem?_concat_length] at hx
      rw [← h.write_eq, update_self]
      exact Option.some.inj hx

end

theorem Holds.popBack (h : Holds rb (x :: items)) :
    (rb.popBack item).1 = x ∧ Holds (rb.popBack item).2 items := by
  have hne : ¬rb.empty = true := fun hempty => cons_ne_nil x items (h.empty_iff.mp hempty)
  have hlength := h.length_lt
  rw [length_cons] at hlength
  rw [RingBuffer.popBack, if_neg hne]
  refine ⟨?_, h.step_read_lt, Nat.lt_of_succ_lt hlength, ?_, fun i y hy => ?_⟩
  · have hfirst := h.cells 0 x rfl
    rwa [place, Nat.add_zero, if_pos h.read_lt] at hfirst
  · exact h.write_eq.trans (place_step_read hlength).symm
  · have hi := (List.getElem?_eq_some_iff.mp hy).1
    exact (congrArg rb.buffer (place_step_read (by omega))).trans (h.cells (i + 1) y hy)

theorem Holds.last_eq (h : Holds rb (items ++ [x])) :
    rb.last = place rb.size rb.read items.length := by
  rw [last, h.write_eq, length_append, length_singleton]
  unfold place
  split <;> split <;> split <;> omega

theorem Holds.popFront (h : Holds rb (items ++ [x])) : Holds (rb.popFront item).2 items := by
  have hne : ¬rb.empty = true := fun hempty =>
    append_ne_nil_of_right_ne_nil items (cons_ne_nil x []) (h.empty_iff.mp hempty)
  have hlength := h.length_lt
  rw [length_append, length_singleton] at hlength
  rw [RingBuffer.popFront, if_neg hne]
  refine ⟨h.read_lt, Nat.lt_of_succ_lt hlength, h.last_eq, fun i y hy => h.cells i y ?_⟩
  rw [getElem?_append_left (List.getElem?_eq_some_iff.mp hy).1]
  exact hy

theorem Holds.popFront_nil (h : Holds rb []) : (rb.popFront item).2 = rb :=
  congrArg Prod.snd (if_pos (h.empty_iff.mpr rfl))

theorem Holds.front (h : Holds rb (items ++ [x])) : rb.front item = x := by
  have hne : ¬rb.empty = true := fun hempty =>
    append_ne_nil_of_right_ne_nil items (cons_ne_nil x []) (h.empty_iff.mp hempty)
  rw [RingBuffer.front, if_neg hne, h.last_eq]
  exact h.cells _ _ getElem?_concat_length

theorem popBack_fst (init : α) : (rb.popBack init).1 = rb.back init := by
  unfold popBack back
  split <;> rfl

theorem popFront_fst (init : α) : (rb.popFront init).1 = rb.front init := by
  unfold popFront front
  split <;> rfl

/-- A push to a full buffer is a push after a pop from the back. -/
theorem Holds.pushFront_full (h : Holds rb (x :: items)) (hfull : items.length + 2 = rb.size) :
    Holds (rb.pushFront item) (items ++ [item]) := by
  have hne : ¬rb.empty = true := fun hempty => cons_ne_nil x items (h.empty_iff.mp hempty)
  have hwrite : rb.step rb.write = rb.read := beq_iff_eq.mp (h.full_iff.mpr hfull)
  have hpop : (rb.popBack item).2 = { rb with read := rb.step rb.read } := by
    rw [RingBuffer.popBack, if_neg hne]
  have hroom : items.length + 1 < (rb.popBack item).2.size := by
    rw [size_popBack]
    omega
  have hother : ¬rb.step rb.write = rb.step rb.read := by
    rw [hwrite]
    unfold step
    split <;> omega
  have hsame : (rb.popBack item).2.pushFront item = rb.pushFront item := by
    rw [hpop, RingBuffer.pushFront, RingBuffer.pushFront, if_pos hwrite]
    exact congrArg (fun read => RingBuffer.mk rb.size read _ _) (if_neg hother)
  exact hsame ▸ (h.popBack item).2.pushFront item hroom

/-- The operations of a buffer. -/
inductive Call (α : Type) where
  | pushFront (item : α)
  | popBack
  | popFront
  | back
  | front
  | empty

/-- The buffer after a call, and the item or the answer that it returns. -/
def Call.exec (init : α) (rb : RingBuffer α) : Call α → RingBuffer α × Option (α ⊕ Bool)
  | pushFront item => (rb.pushFront item, none)
  | popBack => ((rb.popBack init).2, some (.inl (rb.popBack init).1))
  | popFront => ((rb.popFront init).2, some (.inl (rb.popFront init).1))
  | back => (rb, some (.inl (rb.back init)))
  | front => (rb, some (.inl (rb.front init)))
  | empty => (rb, some (.inr rb.empty))

/-- The call on a deque with room for `n` items, the oldest of them first. -/
def Call.deque (init : α) (n : Nat) (items : List α) : Call α → List α × Option (α ⊕ Bool)
  | pushFront item => ((if items.length = n then items.tail else items) ++ [item], none)
  | popBack => (items.tail, some (.inl (items.headD init)))
  | popFront => (items.dropLast, some (.inl (items.getLastD init)))
  | back => (items, some (.inl (items.headD init)))
  | front => (items, some (.inl (items.getLastD init)))
  | empty => (items, some (.inr items.isEmpty))

/-- What calls return, one after the other. -/
def replies {σ ρ : Type} (exec : σ → Call α → σ × ρ) (s : σ) : List (Call α) → List ρ
  | [] => []
  | call :: calls => (exec s call).2 :: replies exec (exec s call).1 calls

section

variable (h : Holds rb items)
include h

theorem Holds.popBack_tail : rb.back item = items.headD item ∧
    Holds (rb.popBack item).2 items.tail := by
  cases items with
  | nil =>
    have hempty := h.empty_iff.mpr rfl
    exact ⟨if_pos hempty, by rwa [RingBuffer.popBack, if_pos hempty]⟩
  | cons x items =>
    rw [← popBack_fst]
    exact h.popBack item

theorem Holds.popFront_dropLast :
    rb.front item = items.getLastD item ∧ Holds (rb.popFront item).2 items.dropLast := by
  obtain rfl | ⟨items, x, rfl⟩ := items.eq_nil_or_concat
  · exact ⟨if_pos (h.empty_iff.mpr rfl), by rwa [h.popFront_nil]⟩
  · rw [concat_eq_append] at *
    rw [getLastD_concat, dropLast_concat]
    exact ⟨h.front item, h.popFront item⟩

/-- Every call on a buffer is the call on the deque that it holds. -/
theorem Holds.exec (hsize : 2 ≤ rb.size) (call : Call α) :
    (call.exec item rb).2 = (call.deque item (rb.size - 1) items).2 ∧
      Holds (call.exec item rb).1 (call.deque item (rb.size - 1) items).1 ∧
      (call.exec item rb).1.size = rb.size := by
  cases call with
  | pushFront x =>
    refine ⟨rfl, ?_, rfl⟩
    have hlength := h.length_lt
    simp only [Call.exec, Call.deque]
    split
    · rename_i hfull
      cases items with
      | nil =>
        rw [length_nil] at hfull
        omega
      | cons y items =>
        rw [length_cons] at hfull
        exact h.pushFront_full x (by omega)
    · exact h.pushFront x (by omega)
  | popBack =>
    obtain ⟨hback, hpop⟩ := h.popBack_tail item
    exact ⟨by rw [Call.exec, Call.deque, popBack_fst, hback], hpop, size_popBack _ _⟩
  | popFront =>
    obtain ⟨hfront, hpop⟩ := h.popFront_dropLast item
    exact ⟨by rw [Call.exec, Call.deque, popFront_fst, hfront], hpop, size_popFront _ _⟩
  | back => exact ⟨by rw [Call.exec, Call.deque, (h.popBack_tail item).1], h, rfl⟩
  | front => exact ⟨by rw [Call.exec, Call.deque, (h.popFront_dropLast item).1], h, rfl⟩
  | empty =>
    have hempty : rb.empty = items.isEmpty := by
      rw [Bool.eq_iff_iff, h.empty_iff, List.isEmpty_iff]
    exact ⟨by rw [Call.exec, Call.deque, hempty], h, rfl⟩

end

/-- A ring buffer of length `n` answers every sequence of calls like a deque of `n - 1` items
that drops the oldest one when it is full. -/
theorem deque_refined {length : Nat} (hlength : 2 ≤ length) (init : α) (calls : List (Call α)) :
    replies (Call.exec init) (RingBuffer.init length init) calls =
      replies (Call.deque init (length - 1)) [] calls := by
  have hrun : ∀ (rb : RingBuffer α) items, Holds rb items → rb.size = length →
      replies (Call.exec init) rb calls = replies (Call.deque init (length - 1)) items calls := by
    induction calls with
    | nil => exact fun _ _ _ _ => rfl
    | cons call calls ih =>
      rintro rb items h rfl
      obtain ⟨hreply, hnext, hsize⟩ := h.exec init hlength call
      rw [replies, replies, hreply, ih _ _ hnext hsize]
  exact hrun _ _ (holds_init init (by omega)) rfl

/-- Three items are pushed to a buffer of length three, and two are read. -/
theorem deque_refined_three :
    replies (Call.exec 0) (RingBuffer.init 3 0)
      [.pushFront 1, .pushFront 2, .pushFront 3, .back, .popFront, .popBack, .popBack, .empty] =
      [none, none, none, some (.inl 2), some (.inl 3), some (.inl 2), some (.inl 0),
        some (.inr true)] :=
  (deque_refined (by decide) 0 _).trans rfl

end RingBuffer

end Hos
