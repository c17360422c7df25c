import Hos.Process.Task

/-!
# The process table

What the process tree and the run queue are made of, without signals, time and
memory: for every task its place in the tree, whether it is periodic, whether
its memory is still there and whether it is a zombie; then the run queue with
its counters. The steps are what the operations of the kernel do to this table.
-/

namespace Hos

/-- A task in the process table. -/
structure Node where
  pid : Int
  parent : Option Nat
  children : List Nat
  periodic : Bool
  image : Bool
  zombie : Bool

/-- The process table. -/
@[ext] structure Table where
  node : Nat → Option Node
  queue : List Nat
  curr : Option Nat
  numActive : Nat
  numPeriodic : Nat

namespace Table

/-- Change every node. -/
def map (T : Table) (f : Nat → Node → Node) : Table :=
  { T with node := fun p => (T.node p).map (f p) }

/-- Change one node. -/
def modify (T : Table) (p : Nat) (f : Node → Node) : Table :=
  T.map fun q n => if q = p then f n else n

/-- The first task of the run queue with the given identifier. -/
def runningProcess (T : Table) (pid : Int) : Option Nat :=
  T.queue.find? fun p => (T.node p).any fun n => n.pid = pid

/-- A new child of task `c`. -/
def fork (T : Table) (c a : Nat) (pid : Int) : Table :=
  { T with
    node := Function.update (T.modify c fun n => { n with children := n.children ++ [a] }).node a
      (some ⟨pid, some c, [], false, true, false⟩)
    queue := T.queue ++ [a]
    numActive := u32 (T.numActive + 1) }

/-- Task `c` with the given children exits; the children go to task `i`. -/
def exit (T : Table) (c i : Nat) (kids : List Nat) : Table :=
  T.map fun p n =>
    { n with
      parent := if p ∈ kids then some i else n.parent
      children :=
        if p = c then (listHeadAppend (((T.node i).map Node.children).getD []) kids).2
        else if p = i then (listHeadAppend n.children kids).1
        else n.children
      image := n.image && p != c
      zombie := n.zombie || p == c }

/-- Take a task off the run queue. -/
def dequeue (T : Table) (p : Nat) (periodic : Bool) : Table :=
  { T with
    queue := T.queue.erase p
    numActive := sub32 T.numActive 1
    numPeriodic := if periodic then sub32 T.numPeriodic 1 else T.numPeriodic }

/-- Task `c` frees its child `e`. -/
def reap (T : Table) (c e : Nat) (periodic : Bool) : Table :=
  let T₁ := (T.modify c fun n => { n with children := n.children.erase e }).dequeue e periodic
  { T₁ with node := Function.update T₁.node e none }

/-- The counter of periodic tasks when a task that was or was not periodic
becomes so or not. -/
def recount (numPeriodic : Nat) (before after : Bool) : Nat :=
  if !before && after then u32 (numPeriodic + 1)
  else if before && !after then sub32 numPeriodic 1
  else numPeriodic

/-- What one operation of the kernel does to the table, and the task that it
frees. -/
inductive Step : Option Nat → Table → Table → Prop where
  | quiet (T : Table) : Step none T T
  | fork {T : Table} {c a : Nat} {n : Node} (pid : Int) (hcurr : T.curr = some c)
      (hnode : T.node c = some n) (himage : n.image = true) (hfresh : T.node a = none)
      (hnull : a ≠ 0) (haddr : a < 2 ^ 32) : Step none T (T.fork c a pid)
  | exit {T : Table} {c i : Nat} {n : Node} (hcurr : T.curr = some c) (hnode : T.node c = some n)
      (hinit : T.runningProcess 1 ≠ some c)
      (hmove : n.children ≠ [] → T.runningProcess 1 = some i) :
      Step none T (T.exit c i n.children)
  | reap {T : Table} {c e : Nat} {n m : Node} (hcurr : T.curr = some c)
      (hnode : T.node c = some n) (hchild : e ∈ n.children) (hentry : T.node e = some m)
      (hzombie : m.zombie = true) :
      Step (some e) T (T.reap c e m.periodic)
  | setPeriodic {T : Table} {p : Nat} {n : Node} (periodic : Bool) (hmem : p ∈ T.queue)
      (hnode : T.node p = some n) :
      Step none T { T.modify p ({ · with periodic := periodic }) with
        numPeriodic := recount T.numPeriodic n.periodic periodic }
  | leave {T : Table} {c : Nat} {n : Node} (hcurr : T.curr = some c)
      (hnode : T.node c = some n) (hzombie : n.zombie = true) :
      Step none T { T.dequeue c n.periodic with curr := some (behind T.queue c) }
  | switch {T : Table} {next : Nat} (hnext : T.curr = some next ∨ next ∈ T.queue) :
      Step none T { T with curr := some next }
  | stopped {T : Table} (c p : Nat) :
      Step none T ((T.modify c ({ · with zombie := false })).modify p ({ · with zombie := false }))

variable {T : Table} {p q : Nat} {f : Node → Node}

theorem map_node (g : Nat → Node → Node) : (T.map g).node p = (T.node p).map (g p) := rfl

theorem map_map (g h : Nat → Node → Node) : (T.map g).map h = T.map fun p n => h p (g p n) := by
  simp only [map, Option.map_map]
  rfl

theorem map_congr {g h : Nat → Node → Node}
    (heq : ∀ p n, T.node p = some n → g p n = h p n) : T.map g = T.map h := by
  refine Table.ext (funext fun p => ?_) rfl rfl rfl rfl
  rw [map_node, map_node]
  exact Option.map_congr fun n hn => heq p n hn

theorem map_eq_self {g : Nat → Node → Node} (heq : ∀ p n, T.node p = some n → g p n = n) :
    T.map g = T := by
  have hid : T.map (fun _ n => n) = T := by simp [map]
  exact (map_congr heq).trans hid

@[simp] theorem modify_queue : (T.modify p f).queue = T.queue := rfl

@[simp] theorem modify_curr : (T.modify p f).curr = T.curr := rfl

@[simp] theorem modify_node_self : (T.modify p f).node p = (T.node p).map f := by
  simp [modify, map]

theorem modify_node_of_ne (hne : q ≠ p) : (T.modify p f).node q = T.node q := by
  simp [modify, map, hne]

theorem map_node_ne_none {g : Nat → Node → Node} : (T.map g).node q ≠ none ↔ T.node q ≠ none := by
  simp [map]

end Table

end Hos
