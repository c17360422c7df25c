import Hos.Lib.Loop
import Hos.Lib.Word

/-!
# The timer wheel of `timer.c`

Armed timers are in the lists of five vectors. The first one has a list for each of
the next 256 ticks, and a list of the others covers a range of ticks that is 64
times longer from one vector to the next. `cascate` moves the timers of one list to
the lists where they belong by then.

Timers are named by the address of their `timer_list`; an address without a timer
has been freed, and following it is undefined, which is `none` here. A loop over a
list with `list_for_each_safe` keeps the entry after the current one, which has to
be in the list still when the loop gets there.
-/

namespace Hos

open Option List

/-- The functions of the real timers of tasks. -/
inductive TimerFunction where
  | alarmTimeout
  | itRealFn
  deriving DecidableEq

/-- `struct timer_list`. The argument of the function is a process identifier. -/
structure TimerList where
  expires : Nat
  function : TimerFunction
  data : Int

/-- `tvec_base_t`: the tick to be processed next and the lists of the vectors `tv1` to
`tv5`, with the timers that are allocated. -/
structure TvecBase where
  timerTicks : Nat
  vec : Nat → Nat → List Nat
  timer : Nat → Option TimerList

namespace TvecBase

/-- `TVN_MASK`. -/
def tvnMask : Nat := 63

/-- `TVR_MASK`. -/
def tvrMask : Nat := 255

/-- `TIMER_TICKS_BITS`. -/
def timerTicksBits (tv : Nat) : Nat := 8 + 6 * tv

/-- `dynamic_timers_install`. -/
def install : TvecBase := ⟨0, fun _ _ => [], fun _ => none⟩

/-- `__find_tvec`: the vector and the index in it. -/
def findTvec (timerTicks expires : Nat) : Nat × Nat :=
  let ticks := sub32 expires timerTicks
  -- in the past
  if i32 ticks < 0 then (1, timerTicks &&& tvrMask)
  else if ticks < 2 ^ timerTicksBits 0 then (1, expires &&& tvrMask)
  else if ticks < 2 ^ timerTicksBits 1 then (2, expires >>> timerTicksBits 0 &&& tvnMask)
  else if ticks < 2 ^ timerTicksBits 2 then (3, expires >>> timerTicksBits 1 &&& tvnMask)
  else if ticks < 2 ^ timerTicksBits 3 then (4, expires >>> timerTicksBits 2 &&& tvnMask)
  else (5, expires >>> timerTicksBits 3 &&& tvnMask)

/-- `list_head_insert_before` the head of a list. -/
def append (base : TvecBase) (tv index addr : Nat) : TvecBase :=
  { base with vec := fun tv' index' =>
      if tv' = tv ∧ index' = index then base.vec tv' index' ++ [addr] else base.vec tv' index' }

/-- `list_head_remove`, which takes the timer out of the list that it is in. -/
def unlink (base : TvecBase) (addr : Nat) : TvecBase :=
  { base with vec := fun tv index => (base.vec tv index).filter (· ≠ addr) }

/-- A timer structure with the given contents. -/
def store (base : TvecBase) (addr : Nat) (timer : TimerList) : TvecBase :=
  { base with timer := fun a => if a = addr then some timer else base.timer a }

/-- `kfree` of a timer. -/
def kfree (base : TvecBase) (addr : Nat) : TvecBase :=
  { base with timer := fun a => if a = addr then none else base.timer a }

/-- `__add_timer_tvec_base`, which `add_timer` calls. -/
def addTimer (base : TvecBase) (addr : Nat) : Option TvecBase :=
  (base.timer addr).map fun timer =>
    base.append (findTvec base.timerTicks timer.expires).1
      (findTvec base.timerTicks timer.expires).2 addr

/-- `del_timer`. It reads the timer to compute a list that it does not use. -/
def delTimer (base : TvecBase) (addr : Nat) : Option TvecBase :=
  (base.timer addr).map fun _ => base.unlink addr

/-- The entry after another one in a list. -/
def nextIn (list : List Nat) (addr : Nat) : Option Nat := (list.dropWhile (· ≠ addr)).tail.head?

section

variable {σ : Type} (base : σ → TvecBase) (tv index : Nat) (body : Nat → σ → Option σ)

/-- One round of `list_for_each_safe`. -/
def walkStep (it : Nat) (s : σ) : Option (Option Nat × σ) := do
  let tmp := nextIn ((base s).vec tv index) it
  let s ← body it s
  if tmp.all (· ∈ (base s).vec tv index) then some (tmp, s) else none

/-- `list_for_each_safe` over the list of a vector. -/
def walk (s : σ) : Option σ :=
  (whileLoop (fun st : Option Nat × σ => st.1.isSome)
    (fun st => st.1.bind fun it => walkStep base tv index body it st.2)
    (((base s).vec tv index).head?, s)).map Prod.snd

end

/-- `cascate`. -/
def cascate (base : TvecBase) (tv index : Nat) : Option TvecBase :=
  walk id tv index (fun it base => (base.unlink it).addTimer it) base

section

variable {ρ : Type} (callback : TimerList → TvecBase × ρ → Option (TvecBase × ρ))

/-- A timer expires: it calls its function, leaves its list and is freed. -/
def fire (it : Nat) (s : TvecBase × ρ) : Option (TvecBase × ρ) := do
  let timer ← s.1.timer it
  let s ← callback timer s
  some ((s.1.unlink it).kfree it, s.2)

end

section

variable {σ : Type} {base : σ → TvecBase} {tv index : Nat} {body : Nat → σ → Option σ} {s t : σ}

/-- A walk that returns keeps what its body keeps for the entries of the list. -/
theorem walk_invariant (inv : σ → Prop)
    (step : ∀ it s t, inv s → it ∈ (base s).vec tv index → body it s = some t → inv t)
    (h : walk base tv index body s = some t) (hs : inv s) : inv t := by
  obtain ⟨⟨it, u⟩, hloop, rfl⟩ := map_eq_some_iff.mp h
  have hkept := whileLoop_invariant
    (fun st : Option Nat × σ => inv st.2 ∧ ∀ it ∈ st.1, it ∈ (base st.2).vec tv index) ?_ hloop
    ⟨hs, fun it hit => mem_of_mem_head? hit⟩
  · exact hkept.1.1
  · rintro ⟨it, s⟩ ⟨tmp, t⟩ ⟨hinv, hit⟩ - hbody
    obtain ⟨it, rfl, hstep⟩ := bind_eq_some_iff.mp hbody
    obtain ⟨u, hu, hnext⟩ := bind_eq_some_iff.mp hstep
    obtain ⟨hall, heq⟩ := ite_none_right_eq_some.mp hnext
    obtain ⟨rfl, rfl⟩ := Prod.mk.inj (some.inj heq)
    exact ⟨step it s u hinv (hit it rfl) hu,
      fun a ha => by simpa using all_eq_true _ _ |>.mp hall a ha⟩

end

/-- The timer is in a list. -/
def Armed (base : TvecBase) (addr : Nat) : Prop := ∃ tv index, addr ∈ base.vec tv index

variable {base base' : TvecBase} {addr a tv index : Nat} {timer : TimerList}

theorem armed_append : (base.append tv index addr).Armed a ↔ base.Armed a ∨ a = addr := by
  constructor
  · rintro ⟨tv', index', hmem⟩
    dsimp only [append] at hmem
    split at hmem
    · rw [mem_append, mem_singleton] at hmem
      exact hmem.imp_left fun h => ⟨tv', index', h⟩
    · exact Or.inl ⟨tv', index', hmem⟩
  · rintro (⟨tv', index', hmem⟩ | rfl)
    · refine ⟨tv', index', ?_⟩
      dsimp only [append]
      split
      · exact mem_append_left _ hmem
      · exact hmem
    · refine ⟨tv, index, ?_⟩
      dsimp only [append]
      rw [if_pos ⟨rfl, rfl⟩]
      simp

theorem armed_unlink : (base.unlink addr).Armed a ↔ base.Armed a ∧ a ≠ addr := by
  simp only [Armed, unlink, mem_filter, decide_eq_true_eq]
  simp

theorem addTimer_spec (h : base.addTimer addr = some base') :
    base'.timer = base.timer ∧ base'.timerTicks = base.timerTicks ∧
      ∀ a, base'.Armed a ↔ base.Armed a ∨ a = addr := by
  obtain ⟨timer, -, rfl⟩ := map_eq_some_iff.mp h
  exact ⟨rfl, rfl, fun a => armed_append⟩

/-- Moving timers from list to list keeps all of them armed. -/
theorem cascate_spec (h : base.cascate tv index = some base') :
    base'.timer = base.timer ∧ base'.timerTicks = base.timerTicks ∧ ∀ a, base'.Armed a ↔
      base.Armed a := by
  refine walk_invariant
    (fun b : TvecBase => b.timer = base.timer ∧ b.timerTicks = base.timerTicks ∧ ∀ a, b.Armed a ↔
      base.Armed a)
    ?_ h ⟨rfl, rfl, fun a => Iff.rfl⟩
  rintro it b b' ⟨htimer, hticks, harmed⟩ hmem hbody
  obtain ⟨htimer', hticks', harmed'⟩ := addTimer_spec hbody
  refine ⟨htimer'.trans htimer, hticks'.trans hticks, fun a => ?_⟩
  rw [harmed', armed_unlink, ← harmed]
  constructor
  · rintro (⟨ha, -⟩ | rfl)
    · exact ha
    · exact ⟨tv, index, hmem⟩
  · intro ha
    by_cases heq : a = it
    · exact Or.inr heq
    · exact Or.inl ⟨ha, heq⟩

end TvecBase

end Hos
