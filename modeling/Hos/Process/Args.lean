import Hos.Memory.Kheap.Strdup

/-!
# Argument vectors

`__push_args_on_stack` copies a vector of strings below an address: first the bytes of
the strings, the last string first and each from its terminator down, then the
null pointer and the pointers to the copies. The addresses of the copies wait in an
array of 256 entries until then; a store past that array is not defined.

The source is read through the memory that is written, so the vector has to lie
outside the range below the address.
-/

namespace Hos.Exec

open List Function Option Nat

open Bytes Kheap

section

/-- The entries of the array `args_location`. -/
def argsLocationSize : Nat := 256

/-- `args[i]`. -/
def arg (m : Bytes) (args i : Nat) : Nat := m.load32 (u32 (args + 4 * i))

/-- `__count_args`. -/
def countArgs (m : Bytes) (args : Nat) : Option Nat :=
  whileLoop (fun argc => arg m args argc != 0) (fun argc => some (argc + 1)) 0

/-- `__count_args_bytes`, the word of the `int`. -/
def countArgsBytes (m : Bytes) (args : Nat) : Option Nat := do
  let argc ← countArgs m args
  let nchar ← (List.range argc).foldlM (fun nchar i => do
    let len ← strlen m (arg m args i)
    some (u32 (nchar + (len + 1)))) 0
  some (u32 (nchar + (argc + 1) * 4))

/-- `PUSH_VALUE_ON_STACK` of a `char`. -/
def pushByte (s : Bytes × Nat) (b : Byte) : Bytes × Nat :=
  (Function.update s.1 (sub32 s.2 1) b, sub32 s.2 1)

/-- `PUSH_VALUE_ON_STACK` of a pointer or an `int`. -/
def pushWord (s : Bytes × Nat) (v : Nat) : Bytes × Nat :=
  (s.1.store32 (sub32 s.2 4) v, sub32 s.2 4)

/-- The inner loop: the bytes of `args[i]` from index `j` down to 0. -/
def pushString (args i : Nat) : Nat → Bytes × Nat → Bytes × Nat
  | 0, s => pushByte s (s.1 (u32 (arg s.1 args i + 0)))
  | j + 1, s => pushString args i j (pushByte s (s.1 (u32 (arg s.1 args i + (j + 1)))))

/-- The loop over the strings below `i`, with `args_location` so far. -/
def pushStrings (args : Nat) : Nat → Bytes × Nat → (Nat → Nat) →
    Option ((Bytes × Nat) × (Nat → Nat))
  | 0, s, location => some (s, location)
  | i + 1, s, location => do
      let len ← strlen s.1 (arg s.1 args i)
      let s := pushString args i len s
      if i < argsLocationSize then pushStrings args i s (Function.update location i s.2) else none

/-- The loop over the pointers below `i`. -/
def pushPointers (location : Nat → Nat) : Nat → Bytes × Nat → Bytes × Nat
  | 0, s => s
  | i + 1, s => pushPointers location i (pushWord s (location i))

/-- `__push_args_on_stack`: the memory and the stack, which is also the result. -/
def pushArgsOnStack (m : Bytes) (stack args : Nat) : Option (Bytes × Nat) := do
  let argc ← countArgs m args
  let (s, location) ← pushStrings args argc (m, stack) fun _ => 0
  some (pushPointers location argc (pushWord s 0))

end

section

/-- The bytes of the strings with their terminators. -/
def charsBytes (strings : List (List Byte)) : Nat := (strings.map fun s => s.length + 1).sum

/-- What a vector takes on the stack. -/
def argsBytes (strings : List (List Byte)) : Nat := charsBytes strings + 4 * (strings.length + 1)

/-- The vector at `args` has these strings, and all its bytes are at addresses with `P`. -/
structure VectorAt (m : Bytes) (args : Nat) (strings : List (List Byte))
    (P : Nat → Prop) : Prop where
  entry : ∀ i s, strings[i]? = some s → m.load32 (args + 4 * i) ≠ 0 ∧
    Terminated m (m.load32 (args + 4 * i)) s ∧
    ∀ x, m.load32 (args + 4 * i) ≤ x → x ≤ m.load32 (args + 4 * i) + s.length → P x
  stop : m.load32 (args + 4 * strings.length) = 0
  table : ∀ x, args ≤ x → x < args + 4 * (strings.length + 1) → P x

/-- Memory is as before outside the range. -/
def Frame (lo hi : Nat) (m m' : Bytes) : Prop := ∀ x, x < lo ∨ hi ≤ x → m' x = m x

variable {m m' m'' : Bytes} {args i lo mid hi : Nat} {strings : List (List Byte)} {P Q : Nat → Prop}
  {s : List Byte}

theorem Frame.trans (h : Frame mid hi m m') (h' : Frame lo mid m' m'') (hlo : lo ≤ mid)
    (hhi : mid ≤ hi) :
    Frame lo hi m m'' := by
  intro x hx
  rw [h' x (by omega), h x (by omega)]

theorem frame_load32 (h : Frame lo hi m m') {a : Nat} (ha : a + 4 ≤ lo ∨ hi ≤ a) :
    m'.load32 a = m.load32 a :=
  load32_congr fun x hlo hhi => h x (by omega)

theorem terminated_congr {p : Nat} (h : Terminated m p s)
    (hsame : ∀ x, p ≤ x → x ≤ p + s.length → m' x = m x) :
    Terminated m' p s := by
  refine ⟨fun i hi => ?_, ?_, h.nonzero⟩
  · rw [hsame _ (by omega) (by omega)]
    exact h.bytes i hi
  · rw [hsame _ (by omega) (le_refl _)]
    exact h.stop

theorem VectorAt.load32_eq (h : VectorAt m args strings P) (hsame : ∀ x, P x → m' x = m x)
    (hi : i ≤ strings.length) : m'.load32 (args + 4 * i) = m.load32 (args + 4 * i) :=
  load32_congr fun x hlo hhi => hsame x (h.table x (by omega) (by omega))

theorem lt_of_getElem? (h : strings[i]? = some s) : i < strings.length :=
    (List.getElem?_eq_some_iff.mp h).1

section

variable (h : VectorAt m args strings P)
include h

theorem VectorAt.congr (hsame : ∀ x, P x → m' x = m x) :
    VectorAt m' args strings P where
  entry := by
    intro i s hs
    obtain ⟨hne, hstring, hin⟩ := h.entry i s hs
    rw [h.load32_eq hsame (le_of_lt (lt_of_getElem? hs))]
    exact ⟨hne, terminated_congr hstring fun x hlo hhi => hsame x (hin x hlo hhi), hin⟩
  stop := (h.load32_eq hsame (le_refl _)).trans h.stop
  table := h.table

theorem VectorAt.mono (hPQ : ∀ x, P x → Q x) : VectorAt m args strings Q :=
  ⟨fun i s hs => ⟨(h.entry i s hs).1, (h.entry i s hs).2.1,
    fun x hlo hhi => hPQ x ((h.entry i s hs).2.2 x hlo hhi)⟩,
    h.stop, fun x hlo hhi => hPQ x (h.table x hlo hhi)⟩

theorem VectorAt.arg_eq (hlt : ∀ x, P x → x < 2 ^ 32) (hi : i ≤ strings.length) :
    arg m args i = m.load32 (args + 4 * i) := by
  have hat := hlt _ (h.table (args + 4 * i) (by omega) (by omega))
  rw [arg, u32_of_lt hat]

end

theorem charsBytes_take_succ (h : strings[i]? = some s) :
    charsBytes (strings.take (i + 1)) = charsBytes (strings.take i) + (s.length + 1) := by
  rw [charsBytes, take_add_one, h, toList_some, map_append, List.sum_append, charsBytes]
  rfl

theorem charsBytes_take_le (strings : List (List Byte)) (i : Nat) :
    charsBytes (strings.take i) ≤ charsBytes strings := by
  conv_rhs => rw [← take_append_drop i strings, charsBytes, map_append, List.sum_append]
  exact le_add_right _ _

end

section

variable {m : Bytes} {args i : Nat} {strings : List (List Byte)} {P : Nat → Prop} {s : List Byte}

section

variable (h : VectorAt m args strings P) (hlt : ∀ x, P x → x < 2 ^ 32)
include h hlt

theorem VectorAt.countArgs :
    countArgs m args = some strings.length := by
  have hscan : ∀ n i, i + n = strings.length →
      whileLoop (fun argc => arg m args argc != 0) (fun argc => some (argc + 1)) i =
        some strings.length := by
    intro n
    induction n with
    | zero =>
      rintro i rfl
      exact whileLoop_of_false (by rw [h.arg_eq hlt (le_refl _), h.stop]; rfl)
    | succ n ih =>
      intro i hi
      have hget := getElem?_eq_getElem (show i < strings.length by omega)
      have hmore : (arg m args i != 0) = true := by
        rw [h.arg_eq hlt (by omega)]
        exact bne_iff_ne.mpr (h.entry i _ hget).1
      refine Eq.trans ?_ (ih (i + 1) (by omega))
      exact whileLoop_of_true hmore rfl
  exact hscan strings.length 0 (zero_add _)

theorem VectorAt.strlen (hs : strings[i]? = some s) (hlen : s.length < 2 ^ 31) :
    strlen m (arg m args i) = some s.length := by
  obtain ⟨_, hstring, hin⟩ := h.entry i s hs
  rw [h.arg_eq hlt (le_of_lt (lt_of_getElem? hs))]
  exact strlen_spec hstring (hlt _ (hin _ (le_add_right _ _) (le_refl _))) hlen

end

/-- A string is shorter than all of them. -/
theorem length_lt_charsBytes (hs : strings[i]? = some s) : s.length < charsBytes strings := by
  have hsucc := charsBytes_take_succ hs
  have hle := charsBytes_take_le strings (i + 1)
  omega

theorem VectorAt.countArgsBytes (h : VectorAt m args strings P) (hlt : ∀ x, P x → x < 2 ^ 32)
    (hbytes : argsBytes strings < 2 ^ 31) : countArgsBytes m args = some (argsBytes strings) := by
  rw [argsBytes] at hbytes
  have hfold : ∀ n ≤ strings.length, (List.range n).foldlM (fun nchar i => do
      let len ← Kheap.strlen m (arg m args i)
      some (u32 (nchar + (len + 1)))) 0 = some (charsBytes (strings.take n)) := by
    intro n hn
    induction n with
    | zero => rfl
    | succ n ih =>
      have hget := getElem?_eq_getElem (show n < strings.length by omega)
      have hsucc := charsBytes_take_succ hget
      have hle := charsBytes_take_le strings (n + 1)
      rw [range_succ, foldlM_append, ih (by omega)]
      simp only [Option.bind_eq_bind, Option.bind_some, foldlM_cons, foldlM_nil, Option.pure_def,
        h.strlen hlt hget (by omega)]
      rw [u32_of_lt (by omega), hsucc]
  rw [Exec.countArgsBytes, h.countArgs hlt]
  have hchars := hfold _ (le_refl _)
  rw [take_length] at hchars
  refine (congrArg (Option.bind · _) hchars).trans (congrArg some ?_)
  rw [u32_of_lt (by omega), argsBytes, mul_comm]

end

variable {m : Bytes} {args i lo hi sp : Nat} {strings : List (List Byte)} {P : Nat → Prop}
    {s : List Byte}

theorem pushByte_eq (b : Byte) (hsp : 0 < sp) (hlt : sp < 2 ^ 32) :
    ∃ m', pushByte (m, sp) b = (m', sp - 1) ∧ m' (sp - 1) = b ∧ Frame (sp - 1) sp m m' := by
  have hsub : sub32 sp 1 = sp - 1 := sub32_of_le hlt hsp
  refine ⟨update m (sp - 1) b, ?_, update_self _ _ _, fun x hx => ?_⟩
  · rw [pushByte, hsub]
  · exact update_of_ne (by omega) _ _

theorem pushWord_eq {v : Nat} (hv : v < 2 ^ 32) (hsp : 4 ≤ sp) (hlt : sp < 2 ^ 32) :
    ∃ m', pushWord (m, sp) v = (m', sp - 4) ∧ m'.load32 (sp - 4) = v ∧ Frame (sp - 4) sp m m' := by
  have hsub : sub32 sp 4 = sp - 4 := sub32_of_le hlt hsp
  refine ⟨m.store32 (sp - 4) v, ?_, ?_, fun x hx => store32_of_notMem (by omega)⟩
  · rw [pushWord, hsub]
  · rw [load32_store32_self, mod_eq_of_lt hv]

theorem VectorAt.read {k : Nat} (h : VectorAt m args strings P) (hlt : ∀ x, P x → x < 2 ^ 32)
    (hs : strings[i]? = some s) (hk : k ≤ s.length) :
    m (u32 (arg m args i + k)) = m (m.load32 (args + 4 * i) + k) := by
  have hat := hlt _ ((h.entry i s hs).2.2 (m.load32 (args + 4 * i) + k) (by omega) (by omega))
  rw [h.arg_eq hlt (le_of_lt (lt_of_getElem? hs)), u32_of_lt hat]

section

variable (h : VectorAt m args strings P) (hP : ∀ x, P x → x < 2 ^ 32 ∧ (x < lo ∨ hi ≤ x))
include h hP

/-- The bytes of a string up to index `j`. -/
theorem VectorAt.pushString {j : Nat} (hs : strings[i]? = some s) (hj : j ≤ s.length)
    (hlo : lo + (j + 1) ≤ sp) (hhi : sp ≤ hi) (hlt : sp < 2 ^ 32) :
    ∃ m', pushString args i j (m, sp) = (m', sp - (j + 1)) ∧ Frame (sp - (j + 1)) sp m m' ∧
      ∀ k ≤ j, m' (sp - (j + 1) + k) = m (m.load32 (args + 4 * i) + k) := by
  induction j generalizing m sp with
  | zero =>
    obtain ⟨m', hpush, hbyte, hframe⟩ := pushByte_eq (m := m) (m (u32 (arg m args i + 0)))
      (by omega) hlt
    refine ⟨m', hpush, hframe, fun k hk => ?_⟩
    obtain rfl : k = 0 := le_zero.mp hk
    exact hbyte.trans (h.read (fun x hx => (hP x hx).1) hs hj)
  | succ j ih =>
    obtain ⟨m₁, hpush, hbyte, hframe⟩ :=
      pushByte_eq (m := m) (m (u32 (arg m args i + (j + 1)))) (show 0 < sp by omega) hlt
    -- the push is outside the vector, so the rest of the string is still there
    have hsame : ∀ x, P x → m₁ x = m x := fun x hx => hframe x (by have := (hP x hx).2; omega)
    have hpointer := h.load32_eq hsame (le_of_lt (lt_of_getElem? hs))
    have hsp : sp - 1 - (j + 1) = sp - (j + 1 + 1) := by omega
    obtain ⟨m', hrest, hframe', hbytes⟩ :=
      ih (h.congr hsame) (by omega) (show lo + (j + 1) ≤ sp - 1 by omega) (by omega) (by omega)
    rw [hsp] at hrest hframe' hbytes
    refine ⟨m', ?_, hframe.trans hframe' (by omega) (by omega), fun k hk => ?_⟩
    · rw [Exec.pushString, hpush, hrest]
    · by_cases hlast : k = j + 1
      · subst hlast
        rw [hframe' _ (by omega), show sp - (j + 1 + 1) + (j + 1) = sp - 1 by omega, hbyte,
          h.read (fun x hx => (hP x hx).1) hs hj]
      · rw [hbytes k (by omega), hpointer]
        exact hsame _ ((h.entry i s hs).2.2 _ (by omega) (by omega))

theorem VectorAt.pushString_copy (hs : strings[i]? = some s) (hlo : lo + (s.length + 1) ≤ sp)
    (hhi : sp ≤ hi) (hlt : sp < 2 ^ 32) :
    ∃ m', Exec.pushString args i s.length (m, sp) = (m', sp - (s.length + 1)) ∧
      Frame (sp - (s.length + 1)) sp m m' ∧ Terminated m' (sp - (s.length + 1)) s := by
  obtain ⟨m', hpush, hframe, hbytes⟩ := h.pushString hP hs (le_refl _) hlo hhi hlt
  have hstring := (h.entry i s hs).2.1
  refine ⟨m', hpush, hframe, fun k hk => ?_, ?_, hstring.nonzero⟩
  · rw [hbytes k (by omega)]
    exact hstring.bytes k hk
  · rw [hbytes _ (le_refl _)]
    exact hstring.stop

/-- The copies of the strings below `i` lie below each other, and `args_location` has
where they start. -/
theorem VectorAt.pushStrings (hi' : i ≤ strings.length) (hsize : i ≤ argsLocationSize)
    (hlo : lo + charsBytes (strings.take i) ≤ sp) (hhi : sp ≤ hi) (hlt : sp < 2 ^ 32)
    (hlong : charsBytes strings < 2 ^ 31) (location : Nat → Nat) :
    ∃ m' location', Exec.pushStrings args i (m, sp) location =
        some ((m', sp - charsBytes (strings.take i)), location') ∧
      Frame (sp - charsBytes (strings.take i)) sp m m' ∧ (∀ k, i ≤ k → location' k = location k) ∧
      ∀ k s, k < i → strings[k]? = some s → Terminated m' (location' k) s ∧
        sp - charsBytes (strings.take i) ≤ location' k ∧ location' k + s.length < sp := by
  induction i generalizing m sp location with
  | zero =>
    exact ⟨m, location, rfl, fun _ _ => rfl, fun _ _ => rfl,
      fun k _ hk => absurd hk (not_lt_zero k)⟩
  | succ i ih =>
    have hget := getElem?_eq_getElem hi'
    generalize strings[i] = s at hget
    have hchars := charsBytes_take_succ hget
    have hlen := length_lt_charsBytes hget
    obtain ⟨m₁, hpush, hframe, hcopy⟩ := h.pushString_copy hP hget (by omega) hhi hlt
    have hsame : ∀ x, P x → m₁ x = m x := fun x hx => hframe x (by have := (hP x hx).2; omega)
    obtain ⟨m', location', hrest, hframe', hkept, hcopies⟩ :=
      ih (h.congr hsame) (by omega) (by omega)
      (show lo + charsBytes (strings.take i) ≤ sp - (s.length + 1) by omega) (by omega) (by omega)
      (update location i (sp - (s.length + 1)))
    have hsp : sp - (s.length + 1) - charsBytes (strings.take i) =
        sp - charsBytes (strings.take (i + 1)) := by
      omega
    rw [hsp] at hrest hframe' hcopies
    refine ⟨m', location', ?_, hframe.trans hframe' (by omega) (by omega),
      fun k hk => ?_, fun k t hk ht => ?_⟩
    · rw [Exec.pushStrings, h.strlen (fun x hx => (hP x hx).1) hget (by omega)]
      refine Eq.trans ?_ hrest
      change (if i < argsLocationSize then Exec.pushStrings args i
        (Exec.pushString args i s.length (m, sp))
        (update location i (Exec.pushString args i s.length (m, sp)).2) else none) = _
      rw [if_pos (by omega), hpush]
    · rw [hkept k (by omega), update_of_ne (by omega)]
    · by_cases hlast : k = i
      · -- the string pushed first is above what the rest of the loop writes
        subst hlast
        cases ht.symm.trans hget
        rw [hkept k (le_refl k), update_self]
        exact ⟨terminated_congr hcopy fun x hx hx' => hframe' x (by omega), by omega, by omega⟩
      · obtain ⟨hterm, hge, hbelow⟩ := hcopies k t (by omega) ht
        exact ⟨hterm, hge, by omega⟩

end

theorem pushPointers_eq {location : Nat → Nat} {n : Nat} (hlocation : ∀ k < n, location k < 2 ^ 32)
    (hsp : 4 * n ≤ sp) (hlt : sp < 2 ^ 32) :
    ∃ m', pushPointers location n (m, sp) = (m', sp - 4 * n) ∧ Frame (sp - 4 * n) sp m m' ∧
      ∀ k < n, m'.load32 (sp - 4 * n + 4 * k) = location k := by
  induction n generalizing m sp with
  | zero => exact ⟨m, rfl, fun _ _ => rfl, fun k hk => absurd hk (not_lt_zero k)⟩
  | succ n ih =>
    obtain ⟨m₁, hpush, hword, hframe⟩ :=
      pushWord_eq (m := m) (hlocation n (lt_succ_self n)) (show 4 ≤ sp by omega) hlt
    obtain ⟨m', hrest, hframe', hwords⟩ := ih (m := m₁) (fun k hk => hlocation k (by omega))
      (show 4 * n ≤ sp - 4 by omega) (by omega)
    have hsub : sp - 4 - 4 * n = sp - 4 * (n + 1) := by omega
    rw [hsub] at hrest hframe' hwords
    refine ⟨m', ?_, hframe.trans hframe' (by omega) (by omega), fun k hk => ?_⟩
    · rw [pushPointers, hpush, hrest]
    · by_cases hlast : k = n
      · subst hlast
        rw [show sp - 4 * (k + 1) + 4 * k = sp - 4 by omega, frame_load32 hframe' (by omega), hword]
      · exact hwords k (by omega)

/-- The stack has moved down by what `__count_args_bytes` counts, the array there has the
same strings, and nothing else has been written. -/
structure Pushed (m : Bytes) (stack args : Nat) (strings : List (List Byte))
    (m' : Bytes) : Prop where
  count : Exec.countArgsBytes m args = some (argsBytes strings)
  run : pushArgsOnStack m stack args = some (m', stack - argsBytes strings)
  vector : VectorAt m' (stack - argsBytes strings) strings fun x => stack - argsBytes strings ≤ x ∧
    x < stack
  frame : Frame (stack - argsBytes strings) stack m m'

/-- `__push_args_on_stack` with room for the vector. -/
theorem VectorAt.pushed (h : VectorAt m args strings P) (stack : Nat)
    (hP : ∀ x, P x → x < 2 ^ 32 ∧ (x < stack - argsBytes strings ∨ stack ≤ x))
    (hcount : strings.length ≤ argsLocationSize) (hroom : argsBytes strings ≤ stack)
    (hstack : stack < 2 ^ 32) (hlong : argsBytes strings < 2 ^ 31) : ∃ m',
      Pushed m stack args strings m' := by
  have hlt : ∀ x, P x → x < 2 ^ 32 := fun x hx => (hP x hx).1
  have hbytes : argsBytes strings = charsBytes strings + 4 * (strings.length + 1) := rfl
  obtain ⟨m₁, location, hstrings, hframe₁, -, hcopies⟩ := h.pushStrings hP (le_refl _) hcount
    (by rw [take_length]; omega) (le_refl _) hstack (by omega) fun _ => 0
  rw [take_length] at hstrings hframe₁ hcopies
  obtain ⟨m₂, hnull, hstop, hframe₂⟩ := pushWord_eq (m := m₁) (show 0 < 2 ^ 32 by decide)
    (show 4 ≤ stack - charsBytes strings by omega) (by omega)
  have hlocation : ∀ k < strings.length, location k < 2 ^ 32 := by
    intro k hk
    have hcopy := hcopies k _ hk (getElem?_eq_getElem hk)
    omega
  obtain ⟨m₃, hpointers, hframe₃, hwords⟩ := pushPointers_eq (m := m₂) hlocation
    (show 4 * strings.length ≤ stack - charsBytes strings - 4 by omega) (by omega)
  have hsp : stack - charsBytes strings - 4 - 4 * strings.length = stack - argsBytes strings := by
    omega
  rw [hsp] at hpointers hframe₃ hwords
  have hframe := (hframe₂.trans hframe₃ (by omega) (by omega))
  refine ⟨m₃, h.countArgsBytes hlt hlong, ?_, ⟨fun k s hs => ?_, ?_, fun x hlo hhi => by omega⟩,
    hframe₁.trans hframe (by omega) (by omega)⟩
  · rw [pushArgsOnStack, h.countArgs hlt]
    refine (congrArg (bind · _) hstrings).trans (congrArg some ?_)
    rw [hnull, hpointers]
  · have hk := lt_of_getElem? hs
    obtain ⟨hterm, hge, hbelow⟩ := hcopies k s hk hs
    rw [hwords k hk]
    exact ⟨by omega, terminated_congr hterm fun x hlo hhi => hframe x (by omega),
      fun x hlo hhi => by omega⟩
  · rw [show stack - argsBytes strings + 4 * strings.length =
      stack - charsBytes strings - 4 by omega, frame_load32 hframe₃ (by omega), hstop]

end Hos.Exec
