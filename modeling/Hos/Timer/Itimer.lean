import Hos.Process.View
import Hos.Timer.Wheel

/-!
# The real timers of tasks

`sys_alarm`, `sys_getitimer` and `sys_setitimer` with the functions that their
timers call, on top of the kernel's tasks and of the timer wheel. The fields of a
task for its timers are kept apart from the others.

`alarm_timeout` clears the timer of the task that is running when the alarm goes
off, which need not be the one that asked for it. `sys_setitimer` does not store
the timer that it allocates, and it forgets one that it should disarm.
-/

namespace Hos

/-- The fields of a `task_struct` for timers. -/
structure Itimers where
  realTimer : Option Nat
  itRealIncr : Nat
  itRealValue : Nat
  itVirtIncr : Nat
  itVirtValue : Nat
  itProfIncr : Nat
  itProfValue : Nat

/-- The fields of a new task. -/
def Itimers.zero : Itimers := ⟨none, 0, 0, 0, 0, 0, 0⟩

/-- `struct itimerval`. -/
structure Itimerval where
  intervalSec : Nat
  intervalUsec : Nat
  valueSec : Nat
  valueUsec : Nat

/-- The tasks with their timers, the ticks since the start, and the blocks that the
coming calls of `kmalloc` for timers return. -/
structure Owners where
  kernel : Kernel
  itimers : Nat → Itimers
  ticks : Nat
  blocks : Nat → Nat

/-- The wheel and the tasks. -/
abbrev World := TvecBase × Owners

namespace World

/-- `TICKS_PER_SECOND`. -/
def ticksPerSecond : Nat := 1193

/-- `SIGALRM`. -/
def sigalrm : Int := 14

/-- `ITIMER_REAL`, `ITIMER_VIRTUAL` and `ITIMER_PROF`. -/
def itimerReal : Int := 0
def itimerVirtual : Int := 1
def itimerProf : Int := 2

/-- Change the timers of a task. -/
def modify (w : World) (p : Nat) (f : Itimers → Itimers) : World :=
  (w.1, { w.2 with itimers := Function.update w.2.itimers p (f (w.2.itimers p)) })

def setRealTimer (w : World) (p : Nat) (addr : Option Nat) : World :=
  w.modify p ({ · with realTimer := addr })

/-- `kmalloc` of a timer. No caller looks for a null pointer, and a block that is in use
is not returned. -/
def kmalloc (w : World) : Option (Nat × World) :=
  if w.2.blocks 0 = 0 ∨ (w.1.timer (w.2.blocks 0)).isSome then none
  else some (w.2.blocks 0, (w.1, { w.2 with blocks := fun n => w.2.blocks (n + 1) }))

/-- `init_timer`, the fields of the timer and `add_timer`. -/
def arm (w : World) (addr : Nat) (timer : TimerList) : Option World :=
  ((w.1.store addr timer).addTimer addr).map fun base => (base, w.2)

/-- The signal of an expired timer. -/
def kill (w : World) (pid : Int) : Option World :=
  (w.2.kernel.sysKill pid sigalrm).map fun r => (w.1, { w.2 with kernel := r.1 })

/-- `alarm_timeout`. -/
def alarmTimeout (pid : Int) (w : World) : Option World := do
  let w ← w.kill pid
  let cur ← w.2.kernel.curr
  some (w.setRealTimer cur none)

/-- `it_real_fn`. The task is used without a look at whether there is one. -/
def itRealFn (pid : Int) (w : World) : Option World := do
  let found := w.2.kernel.getRunningProcess pid
  let w ← w.kill pid
  let cur ← found
  let incr := (w.2.itimers cur).itRealIncr
  if incr ≠ 0 then do
    let (addr, w) ← w.kmalloc
    let t ← w.2.kernel.tasks cur
    (w.setRealTimer cur (some addr)).arm addr ⟨u32 (w.2.ticks + incr), .itRealFn, t.pid⟩
  else some (w.setRealTimer cur none)

/-- `timer->function(timer->data)`. -/
def callback (timer : TimerList) (w : World) : Option World :=
  match timer.function with
  | .alarmTimeout => w.alarmTimeout timer.data
  | .itRealFn => w.itRealFn timer.data

/-- `sys_alarm`. -/
def sysAlarm (w : World) (seconds : Int) : Option (World × Int) := do
  let c ← w.2.kernel.curr
  let t ← w.2.kernel.tasks c
  let alarm : TimerList := ⟨((w.2.ticks + ticksPerSecond * seconds) % 2 ^ 32).toNat,
    .alarmTimeout, t.pid⟩
  match (w.2.itimers c).realTimer with
  | some addr =>
    let timer ← w.1.timer addr
    let base ← w.1.delTimer addr
    let result := i32 (sub32 timer.expires w.2.ticks / ticksPerSecond)
    if seconds = 0 then some (setRealTimer (base.kfree addr, w.2) c none, result)
    else
      let w ← arm (base, w.2) addr alarm
      some (w, result)
  | none =>
    if seconds = 0 then some (w, 0)
    else do
      let (addr, w) ← w.kmalloc
      let w ← (w.setRealTimer c (some addr)).arm addr alarm
      some (w, 0)

end World

/-- Ticks of seconds and microseconds, as `unsigned long`. -/
def timevalTicks (sec usec : Nat) : Nat :=
  u32 (u32 (sec * World.ticksPerSecond) + u32 (usec * World.ticksPerSecond) / 1000)

/-- `calc_itimerval`. -/
def calcItimerval (incr value : Nat) : Itimerval :=
  ⟨incr / World.ticksPerSecond, u32 (incr / World.ticksPerSecond * 1000),
    value / World.ticksPerSecond, u32 (value / World.ticksPerSecond * 1000)⟩

namespace World

/-- `sys_getitimer` for a time domain from zero to three, with what it stores for the
caller. The real timer is read without a look at whether there is one. -/
def sysGetitimer (w : World) (which : Int) : Option (World × Option Itimerval) := do
  let c ← w.2.kernel.curr
  let fields := w.2.itimers c
  if which = itimerReal then do
    let addr ← fields.realTimer
    let timer ← w.1.timer addr
    let value := sub32 timer.expires w.2.ticks
    some (w.modify c ({ · with itRealValue := value }),
      some (calcItimerval fields.itRealIncr value))
  else if which = itimerVirtual then some (w,
    some (calcItimerval fields.itVirtIncr fields.itVirtValue))
  else if which = itimerProf then some (w,
    some (calcItimerval fields.itProfIncr fields.itProfValue))
  else some (w, none)

/-- `update_task_itimerval`. -/
def updateTaskItimerval (w : World) (c : Nat) (which : Int) (val : Itimerval) : World :=
  let incr := timevalTicks val.intervalSec val.intervalUsec
  let value := timevalTicks val.valueSec val.valueUsec
  if which = itimerReal then w.modify c ({ · with itRealIncr := incr, itRealValue := value })
  else if which = itimerVirtual then w.modify c
    ({ · with itVirtIncr := incr, itVirtValue := value })
  else if which = itimerProf then w.modify c ({ · with itProfIncr := incr, itProfValue := value })
  else w

/-- The real timer in `sys_setitimer`: the old one starts again, or a new one starts. -/
def restart (w : World) (c interval : Nat) : Option World := do
  let t ← w.2.kernel.tasks c
  let timer : TimerList := ⟨u32 (w.2.ticks + interval), .itRealFn, t.pid⟩
  match (w.2.itimers c).realTimer with
  | some addr =>
    let base ← w.1.delTimer addr
    arm (base, w.2) addr timer
  | none =>
    let (addr, w) ← w.kmalloc
    w.arm addr timer

/-- `sys_setitimer`. The flag says whether there is a place for the old value. -/
def sysSetitimer (w : World) (which : Int) (newValue : Itimerval) (oldValue : Bool) :
    Option (World × Int) :=
  if which < 0 ∨ which > 3 then some (w, 22)
  else do
    let w ← (if oldValue then (w.sysGetitimer which).map Prod.fst else some w : Option World)
    let c ← w.2.kernel.curr
    let interval := timevalTicks newValue.intervalSec newValue.intervalUsec
    if interval = 0 then
      let w := if which = itimerReal ∧ (w.2.itimers c).realTimer ≠ none
        then w.setRealTimer c none else w
      some (w.updateTaskItimerval c which newValue, -1)
    else do
      let w ← (if which = itimerReal then w.restart c interval else some w : Option World)
      some (w.updateTaskItimerval c which newValue, -1)

/-- What happens to the wheel and the tasks, step by step. -/
inductive Event where
  | call (op : Kernel.Op)
  | alarm (seconds : Int)
  | setitimer (which : Int) (newValue : Itimerval) (oldValue : Bool)
  | cascate (tv index : Nat)
  | expire (tv index addr : Nat)
  | advance
  | clock (ticks : Nat)

/-- The task that an operation creates has no timers yet. -/
def created (op : Kernel.Op) (itimers : Nat → Itimers) : Nat → Itimers :=
  match op with
  | .fork addr _ => Function.update itimers addr.toNat .zero
  | _ => itimers

/-- The state after a step that returns. A system call is made by a task that has its
memory, and a timer expires while it is in a list. -/
def Event.exec : Event → World → Option World
  | call op, w => (op.exec w.2.kernel).map fun k =>
    (w.1, { w.2 with kernel := k, itimers := created op w.2.itimers })
  | alarm seconds, w => if w.2.kernel.inUserMode then (w.sysAlarm seconds).map Prod.fst else none
  | setitimer which newValue oldValue, w =>
    if w.2.kernel.inUserMode then (w.sysSetitimer which newValue oldValue).map Prod.fst else none
  | cascate tv index, w => (w.1.cascate tv index).map fun base => (base, w.2)
  | expire tv index addr, w =>
    if addr ∈ w.1.vec tv index then TvecBase.fire callback addr w else none
  | advance, w => some ({ w.1 with timerTicks := u32 (w.1.timerTicks + 1) }, w.2)
  | clock ticks, w => some (w.1, { w.2 with ticks := ticks })

/-- What `sys_getitimer` stores directly after `sys_setitimer`. -/
def readBack (w : World) (which : Int) (newValue : Itimerval) (oldValue : Bool) :
    Option (Option Itimerval) := do
  let (w, _) ← w.sysSetitimer which newValue oldValue
  let (_, got) ← w.sysGetitimer which
  return got

/-- A time with valid microseconds whose ticks fit in 32 bits. -/
def TickRange (sec usec : Nat) : Prop :=
  usec < 1000000 ∧ sec * ticksPerSecond + usec * ticksPerSecond / 1000000 < 2 ^ 32

/-- Two times differ by at most one tick. -/
def WithinTick (sec usec sec' usec' : Nat) : Prop :=
  (sec * 1000000 + usec) * ticksPerSecond ≤ (sec' * 1000000 + usec') * ticksPerSecond + 1000000 ∧
    (sec' * 1000000 + usec') * ticksPerSecond ≤ (sec * 1000000 + usec) * ticksPerSecond + 1000000

/-- The interval and the value come back. -/
def RoundTrip (newValue got : Itimerval) : Prop :=
  WithinTick newValue.intervalSec newValue.intervalUsec got.intervalSec got.intervalUsec ∧
    WithinTick newValue.valueSec newValue.valueUsec got.valueSec got.valueUsec

/-- The times that come back. -/
def Returned (sec usec : Nat) : Prop := sec = 0 ∧ usec ≤ 838 ∨ sec = 1 ∧ 162 ≤ usec ∧ usec < 1000

variable {w : World} {which : Int} {newValue : Itimerval} {oldValue : Bool} {c sec usec : Nat}

set_option maxRecDepth 4000 in
/-- Seconds come back with the thousands of the microseconds added, and each of them
adds a millisecond. -/
theorem withinTick_iff (h : TickRange sec usec) :
    WithinTick sec usec (timevalTicks sec usec / ticksPerSecond)
      (u32 (timevalTicks sec usec / ticksPerSecond * 1000)) ↔ Returned sec usec := by
  obtain ⟨husec, hticks⟩ := h
  have hsec : sec * 1193 < 2 ^ 32 := Nat.lt_of_le_of_lt (Nat.le_add_right _ _) hticks
  rw [WithinTick, timevalTicks, ticksPerSecond, u32_of_lt hsec,
    u32_of_lt (show usec * 1193 < 2 ^ 32 by omega), Returned]
  rcases Nat.lt_or_ge (sec * 1193 + usec * 1193 / 1000) (2 ^ 32) with hlt | hge
  · have hdiv : (sec * 1193 + usec * 1193 / 1000) / 1193 = sec + usec / 1000 := by omega
    rw [u32_of_lt hlt, hdiv, u32_of_lt (by omega)]
    omega
  · -- a wrapped sum comes back as less than the microseconds
    rw [u32, u32, Nat.mod_eq_sub_mod hge, Nat.mod_eq_of_lt (by omega), Nat.mod_eq_of_lt (by omega)]
    omega

section

variable (hwhich : which = itimerVirtual ∨ which = itimerProf) (hcurr : w.2.kernel.curr = some c)
include hwhich hcurr

theorem readBack_eq :
    w.readBack which newValue oldValue =
      some (calcItimerval (timevalTicks newValue.intervalSec newValue.intervalUsec)
        (timevalTicks newValue.valueSec newValue.valueUsec)) := by
  obtain rfl | rfl := hwhich <;> cases oldValue <;>
    simp [readBack, sysSetitimer, sysGetitimer, updateTaskItimerval, modify, hcurr,
      itimerVirtual, itimerProf, itimerReal]

theorem itimer_round_trip_iff (hinterval : TickRange newValue.intervalSec newValue.intervalUsec)
    (hvalue : TickRange newValue.valueSec newValue.valueUsec) :
    (∃ got, w.readBack which newValue oldValue = some (some got) ∧ RoundTrip newValue got) ↔
      Returned newValue.intervalSec newValue.intervalUsec ∧
        Returned newValue.valueSec newValue.valueUsec := by
  rw [← withinTick_iff hinterval, ← withinTick_iff hvalue, readBack_eq hwhich hcurr]
  constructor
  · rintro ⟨got, heq, hround⟩
    cases heq
    exact hround
  · exact fun hround => ⟨_, rfl, hround⟩

end

theorem itimer_round_trip_short :
    ∃ k, Kernel.boot 0x1000 0 (fun _ => none) = some k ∧
      ∃ got, readBack (TvecBase.install, ⟨k, fun _ => .zero, 0, fun _ => 0⟩) itimerVirtual ⟨0, 500,
        1, 500⟩ false = some (some got) ∧ RoundTrip ⟨0, 500, 1, 500⟩ got :=
  ⟨_, rfl, (itimer_round_trip_iff (c := 0x1000) (.inl rfl) rfl ⟨by decide, by decide⟩
    ⟨by decide, by decide⟩).mpr ⟨.inl (by decide), .inr (by decide)⟩⟩

/-- Two seconds come back as two seconds and two milliseconds. -/
theorem two_seconds_differ :
    ∃ k, Kernel.boot 0x1000 0 (fun _ => none) = some k ∧
      readBack (TvecBase.install, ⟨k, fun _ => .zero, 0, fun _ => 0⟩) itimerVirtual ⟨2, 0,
        2, 0⟩ false = some (some ⟨2, 2000, 2, 2000⟩) ∧ ¬RoundTrip ⟨2, 0, 2, 0⟩ ⟨2, 2000, 2, 2000⟩ :=
  ⟨_, rfl, rfl, fun h => absurd h.1.2 (by decide)⟩

end World

end Hos
