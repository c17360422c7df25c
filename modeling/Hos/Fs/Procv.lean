import Mathlib.Data.List.Induction
import Mathlib.Logic.Function.Iterate
import Hos.Containers.RingBuffer
import Hos.Lib.Run

/-!
# Reading the keyboard through `procv.c`

The keyboard interrupt pushes key codes to a buffer of its own. `procv_read` moves
them, one in each call, to the buffer of the reading process, where a line is put
together. Once the last character there is a newline, each call returns one
character of the line, and no key code is taken before the buffer is empty again.

In canonical mode the characters that a process gets are the lines that were typed,
after erase processing, as long as the keyboard's buffer does not overflow.
-/

namespace Hos.Procv

open List Function

/-- `ISIG`, `ICANON`, `ECHO` and `ECHOE`. -/
def isig : Nat := 0x80
def icanon : Nat := 0x100
def echo : Nat := 0x8
def echoe : Nat := 0x2

def sigterm : Nat := 15
def sigstop : Nat := 23

/-- The length of the buffers for key codes. -/
def rbLength : Nat := 256

/-- Characters, as `int`. -/
def backspace : Int := 8
def newline : Int := 10
def delete : Int := 0x7F

/-- What the delete key adds to a line. -/
def deleteSequence : List Int := [0o33, 91, 51, 126]

def iscntrl (c : Int) : Bool := (0 ≤ c && c ≤ 0x1F) || c == 0x7F

def isalpha (c : Int) : Bool := (65 ≤ c && c ≤ 90) || (97 ≤ c && c ≤ 122)

/-- The buffer of the keyboard, the one of the reading process, the characters shown
and the signals that the process sends to itself. -/
structure Tty where
  scancodes : RingBuffer Int
  rb : RingBuffer Int
  video : List Int
  kills : List Nat

def init : Tty := ⟨.init rbLength (-1), .init rbLength (-1), [], []⟩

namespace Tty

def putc (tty : Tty) (c : Int) : Tty := { tty with video := tty.video ++ [c] }

def push (tty : Tty) (c : Int) : Tty := { tty with rb := tty.rb.pushFront c }

def keyboardPushFront (tty : Tty) (c : Int) : Tty :=
  if 0 ≤ c then { tty with scancodes := tty.scancodes.pushFront c } else tty

def keyboardPopBack (tty : Tty) : Int × Tty :=
  if tty.scancodes.empty then (-1, tty)
  else ((tty.scancodes.popBack (-1)).1, { tty with scancodes := (tty.scancodes.popBack (-1)).2 })

/-- The oldest character goes to the caller. -/
def deliver (tty : Tty) : Option Int × Tty :=
  (some ((tty.rb.popBack (-1)).1 % 256), { tty with rb := (tty.rb.popBack (-1)).2 })

/-- The echo of a character. -/
def echoChar (tty : Tty) (c : Int) : Tty :=
  if iscntrl c && (isalpha (65 + (c - 1)) && c != newline && c != backspace) then
    (tty.putc 94).putc (65 + (c - 1))
  else tty.putc c

/-- The signals of `^C` and `^Z`. -/
def signalChar (tty : Tty) (c : Int) : Tty :=
  if iscntrl c then
    if c = 0x03 then { tty with kills := tty.kills ++ [sigterm] }
    else if c = 0x1A then { tty with kills := tty.kills ++ [sigstop] }
    else tty
  else tty

/-- `procv_read` on a backspace. -/
def receiveBackspace (lflag : Nat) (tty : Tty) : Option Int × Tty :=
  let tty := if lflag &&& echoe ≠ echoe ∧ lflag &&& echo = echo then (tty.putc 94).putc 63 else tty
  if lflag &&& icanon = icanon then
    let tty := { tty with rb := (tty.rb.popFront (-1)).2 }
    (none, if lflag &&& echoe = echoe then tty.putc backspace else tty)
  else (tty.push backspace).deliver

/-- `procv_read` on the delete key. -/
def receiveDelete (lflag : Nat) (tty : Tty) : Option Int × Tty :=
  let tty := if lflag &&& echo = echo then [94, 91, 91, 51, 126].foldl putc tty else tty
  (none, deleteSequence.foldl push tty)

/-- `procv_read` on any other character. -/
def receiveChar (lflag : Nat) (tty : Tty) (c : Int) : Option Int × Tty :=
  let tty := tty.push c
  let tty := if lflag &&& echo = echo then tty.echoChar c else tty
  let tty := if lflag &&& isig = isig then tty.signalChar c else tty
  if lflag &&& icanon = icanon then (none, tty) else tty.deliver

/-- `procv_read` when there is no character to return yet. -/
def takeKey (lflag : Nat) (tty : Tty) : Option Int × Tty :=
  let (c, tty) := tty.keyboardPopBack
  if c < 0 then (none, tty)
  else if c % 256 = backspace then tty.receiveBackspace lflag
  else if c % 256 = delete then tty.receiveDelete lflag
  else tty.receiveChar lflag (c % 256)

/-- `procv_read`, which returns one character or none. -/
def procvRead (lflag : Nat) (tty : Tty) : Option Int × Tty :=
  if tty.rb.empty = false ∧ (lflag &&& icanon ≠ icanon ∨ lflag &&& icanon = icanon ∧
    tty.rb.front (-1) = newline) then
    tty.deliver
  else tty.takeKey lflag

end Tty

/-! ## Lines -/

/-- A line after one more character. -/
def edit (line : List Int) (c : Int) : List Int :=
  if c = backspace then line.dropLast else if c = delete then line ++ deleteSequence
    else line ++ [c]

/-- The lines that were completed and the one that is being typed. -/
structure Typed where
  done : List Int
  line : List Int

namespace Typed

def type (t : Typed) (code : Int) : Typed :=
  if code % 256 = newline then ⟨t.done ++ edit t.line (code % 256), []⟩
    else ⟨t.done, edit t.line (code % 256)⟩

end Typed

/-- What the key codes spell. -/
def typed (codes : List Int) : Typed := codes.foldl Typed.type ⟨[], []⟩

section

variable {codes : List Int} {code : Int}

@[simp] theorem typed_append_singleton : typed (codes ++ [code]) = (typed codes).type code := by
  rw [typed, foldl_append]
  rfl

theorem done_prefix_append (codes' : List Int) :
    (typed codes).done <+: (typed (codes ++ codes')).done := by
  induction codes' using List.reverseRecOn with
  | nil => exact (append_nil codes).symm ▸ prefix_rfl
  | append_singleton codes' code ih =>
    rw [← append_assoc, typed_append_singleton, Typed.type]
    split
    · exact ih.trans (prefix_append _ _)
    · exact ih

/-- What holds of the characters of a line. -/
structure IsLine (line : List Int) : Prop where
  byte : ∀ c ∈ line, 0 ≤ c ∧ c < 256
  ne_newline : newline ∉ line

theorem byte_edit {line : List Int} (h : ∀ c ∈ line, 0 ≤ c ∧ c < 256) {c : Int}
    (hc : 0 ≤ c ∧ c < 256) :
    ∀ x ∈ edit line c, 0 ≤ x ∧ x < 256 := by
  unfold edit
  split
  · exact fun x hx => h x (dropLast_subset line hx)
  · split
    · exact forall_mem_append.mpr ⟨h, by decide⟩
    · exact forall_mem_append.mpr ⟨h, forall_mem_singleton.mpr hc⟩

theorem IsLine.edit {line : List Int} (h : IsLine line) {c : Int} (hc : 0 ≤ c ∧ c < 256)
    (hne : c ≠ newline) :
    IsLine (edit line c) := by
  refine ⟨byte_edit h.byte hc, ?_⟩
  unfold Procv.edit
  split
  · exact fun hmem => h.ne_newline (dropLast_subset line hmem)
  · split
    · rw [mem_append, not_or]
      exact ⟨h.ne_newline, by decide⟩
    · rw [mem_append, not_or, mem_singleton]
      exact ⟨h.ne_newline, hne.symm⟩

theorem isLine_typed (codes : List Int) : IsLine (typed codes).line := by
  induction codes using List.reverseRecOn with
  | nil => exact ⟨fun c hc => absurd hc not_mem_nil, not_mem_nil⟩
  | append_singleton codes code ih =>
    have hc : 0 ≤ code % 256 ∧ code % 256 < 256 := by omega
    rw [typed_append_singleton, Typed.type]
    split
    · exact ⟨fun c hc => absurd hc not_mem_nil, not_mem_nil⟩
    · exact ih.edit hc (by assumption)

end

/-! ## One call -/

section

open RingBuffer

variable {tty : Tty} {line : List Int} {c : Int} {lflag : Nat}

/-- A call that leaves the buffers alone. -/
def SameBuffers (tty tty' : Tty) : Prop := tty'.rb = tty.rb ∧ tty'.scancodes = tty.scancodes

theorem SameBuffers.ite {p : Prop} [Decidable p] {tty' : Tty} (h : SameBuffers tty tty') :
    SameBuffers tty (if p then tty' else tty) := by
  split
  · exact h
  · exact ⟨rfl, rfl⟩

theorem sameBuffers_putc : SameBuffers tty (tty.putc c) := ⟨rfl, rfl⟩

theorem sameBuffers_echoChar : SameBuffers tty (tty.echoChar c) := by
  unfold Tty.echoChar
  split <;> exact ⟨rfl, rfl⟩

theorem sameBuffers_signalChar : SameBuffers tty (tty.signalChar c) := by
  unfold Tty.signalChar
  split
  · split
    · exact ⟨rfl, rfl⟩
    · exact SameBuffers.ite ⟨rfl, rfl⟩
  · exact ⟨rfl, rfl⟩

theorem holds_foldl_push {cs : List Int} (h : Holds tty.rb line)
    (hroom : line.length + cs.length < tty.rb.size) :
    Holds (cs.foldl Tty.push tty).rb (line ++ cs) ∧ (cs.foldl Tty.push tty).scancodes =
      tty.scancodes ∧ (cs.foldl Tty.push tty).rb.size = tty.rb.size := by
  induction cs generalizing tty line with
  | nil =>
    rw [append_nil]
    exact ⟨h, rfl, rfl⟩
  | cons c cs ih =>
    rw [length_cons] at hroom
    have hpush : Holds (tty.push c).rb (line ++ [c]) := h.pushFront c (by omega)
    have hsize : (tty.push c).rb.size = tty.rb.size := rfl
    have hrest := ih hpush (by rw [length_append, length_singleton, hsize]; omega)
    rw [append_assoc] at hrest
    exact hrest

/-- What a character does in canonical mode: nothing is returned and the line is
edited. -/
structure Receives (tty : Tty) (line : List Int) (r : Option Int × Tty) : Prop where
  none : r.1 = none
  scancodes : r.2.scancodes = tty.scancodes
  size : r.2.rb.size = tty.rb.size
  holds : Holds r.2.rb line

theorem holds_popFront_dropLast (h : Holds tty.rb line) :
    Holds (tty.rb.popFront (-1)).2 line.dropLast := by
  induction line using List.reverseRecOn with
  | nil => exact (h.popFront_nil (-1)).symm ▸ h
  | append_singleton line c _ =>
    rw [dropLast_concat]
    exact h.popFront (-1)

theorem receiveBackspace_spec (hcanon : lflag &&& icanon = icanon) (h : Holds tty.rb line) :
    Receives tty line.dropLast (tty.receiveBackspace lflag) := by
  have hshown : SameBuffers tty
      (if lflag &&& echoe ≠ echoe ∧ lflag &&& echo = echo then (tty.putc 94).putc 63 else tty) :=
    SameBuffers.ite ⟨rfl, rfl⟩
  simp only [Tty.receiveBackspace, if_pos hcanon]
  generalize (if lflag &&& echoe ≠ echoe ∧ lflag &&& echo = echo then (tty.putc 94).putc 63
    else tty) = tty₁
    at hshown ⊢
  have herased : SameBuffers { tty₁ with rb := (tty₁.rb.popFront (-1)).2 }
      (if lflag &&& echoe = echoe then Tty.putc { tty₁ with rb := (tty₁.rb.popFront (-1)).2 }
        backspace
        else { tty₁ with rb := (tty₁.rb.popFront (-1)).2 }) := SameBuffers.ite sameBuffers_putc
  refine ⟨rfl, herased.2.trans hshown.2, ?_, ?_⟩
  · rw [herased.1, size_popFront, hshown.1]
  · rw [herased.1]
    exact holds_popFront_dropLast (hshown.1.symm ▸ h)

theorem receiveDelete_spec (h : Holds tty.rb line)
    (hfit : (line ++ deleteSequence).length < tty.rb.size) :
    Receives tty (line ++ deleteSequence) (tty.receiveDelete lflag) := by
  have hshown : SameBuffers tty
      (if lflag &&& echo = echo then [94, 91, 91, 51, 126].foldl Tty.putc tty else tty) :=
    SameBuffers.ite ⟨rfl, rfl⟩
  simp only [Tty.receiveDelete]
  generalize (if lflag &&& echo = echo then [94, 91, 91, 51, 126].foldl Tty.putc tty else tty) =
    tty₁
    at hshown ⊢
  rw [length_append] at hfit
  obtain ⟨hholds, hcodes, hsize⟩ := holds_foldl_push (hshown.1.symm ▸ h) (hshown.1.symm ▸ hfit)
  exact ⟨rfl, hcodes.trans hshown.2, hsize.trans (congrArg RingBuffer.size hshown.1), hholds⟩

section

variable (hcanon : lflag &&& icanon = icanon)
include hcanon

theorem receiveChar_spec (h : Holds tty.rb line)
    (hfit : (line ++ [c]).length < tty.rb.size) : Receives tty (line ++ [c])
    (tty.receiveChar lflag c) := by
  have hshown : SameBuffers (tty.push c) (if lflag &&& echo = echo then (tty.push c).echoChar c
      else tty.push c) :=
    SameBuffers.ite sameBuffers_echoChar
  simp only [Tty.receiveChar, if_pos hcanon]
  generalize (if lflag &&& echo = echo then (tty.push c).echoChar c else tty.push c) =
    tty₁ at hshown ⊢
  have hsignal : SameBuffers tty₁ (if lflag &&& isig = isig then tty₁.signalChar c else tty₁) :=
    SameBuffers.ite sameBuffers_signalChar
  rw [length_append, length_singleton] at hfit
  refine ⟨rfl, hsignal.2.trans hshown.2, ?_, ?_⟩
  · rw [hsignal.1, hshown.1]
    rfl
  · rw [hsignal.1, hshown.1]
    exact h.pushFront c hfit

/-- A completed line is returned before any key is taken. -/
theorem procvRead_of_line (h : Holds tty.rb (line ++ [newline])) :
    tty.procvRead lflag = tty.deliver := by
  have hempty : tty.rb.empty = false := by
    rw [Bool.eq_false_iff, Ne, h.empty_iff]
    simp
  exact if_pos ⟨hempty, .inr ⟨hcanon, h.front (-1)⟩⟩

/-- A line that is not complete stays in the buffer. -/
theorem procvRead_of_partial (h : Holds tty.rb line) (hne : newline ∉ line) :
    tty.procvRead lflag = tty.takeKey lflag := by
  refine if_neg ?_
  rintro ⟨hempty, hraw | ⟨-, hfront⟩⟩
  · exact hraw hcanon
  · induction line using List.reverseRecOn with
    | nil => exact Bool.eq_false_iff.mp hempty (h.empty_iff.mpr rfl)
    | append_singleton line c _ =>
      rw [h.front (-1)] at hfront
      exact hne (mem_append_right line (mem_singleton.mpr hfront.symm))

end

theorem takeKey_nil (h : Holds tty.scancodes []) : tty.takeKey lflag = (none, tty) := by
  rw [Tty.takeKey, Tty.keyboardPopBack, if_pos (h.empty_iff.mpr rfl)]
  rfl

/-- The oldest key code edits the line. -/
theorem takeKey_cons {code : Int} {rest : List Int} (hcanon : lflag &&& icanon = icanon)
    (hcodes : Holds tty.scancodes (code :: rest)) (hcode : 0 ≤ code) (h : Holds tty.rb line)
    (hfit : (edit line (code % 256)).length < tty.rb.size) :
    (tty.takeKey lflag).1 = none ∧ Holds (tty.takeKey lflag).2.scancodes rest ∧
      (tty.takeKey lflag).2.scancodes.size = tty.scancodes.size ∧
      (tty.takeKey lflag).2.rb.size = tty.rb.size ∧ Holds (tty.takeKey lflag).2.rb
        (edit line (code % 256)) := by
  obtain ⟨hpop, hrest⟩ := hcodes.popBack (-1)
  have hempty : ¬tty.scancodes.empty = true := fun hempty =>
    cons_ne_nil code rest (hcodes.empty_iff.mp hempty)
  have hreceives : Receives { tty with scancodes := (tty.scancodes.popBack (-1)).2 }
    (edit line (code % 256)) (tty.takeKey lflag) := by
    rw [Tty.takeKey, Tty.keyboardPopBack, if_neg hempty, hpop]
    dsimp only
    rw [if_neg (by omega)]
    unfold edit at hfit ⊢
    by_cases hback : code % 256 = backspace
    · rw [if_pos hback, if_pos hback]
      exact receiveBackspace_spec hcanon h
    · rw [if_neg hback, if_neg hback]
      rw [if_neg hback] at hfit
      by_cases hdelete : code % 256 = delete
      · rw [if_pos hdelete, if_pos hdelete]
        rw [if_pos hdelete] at hfit
        exact receiveDelete_spec h hfit
      · rw [if_neg hdelete, if_neg hdelete]
        rw [if_neg hdelete] at hfit
        exact receiveChar_spec hcanon h hfit
  refine ⟨hreceives.none, ?_, ?_, hreceives.size, hreceives.holds⟩
  · rw [hreceives.scancodes]
    exact hrest
  · rw [hreceives.scancodes, size_popBack]

end

/-! ## Sessions -/

/-- Keys and calls of `procv_read` in any order. The key codes that arrived and the
characters that were returned are kept for the specification. -/
structure Session where
  tty : Tty
  keys : List Int
  out : List Int

inductive Event
  | key (code : Int)
  | read

namespace Session

def start : Session := ⟨init, [], []⟩

def read (lflag : Nat) (s : Session) : Session :=
  { s with tty := (s.tty.procvRead lflag).2, out := s.out ++ (s.tty.procvRead lflag).1.toList }

def press (s : Session) (code : Int) : Session :=
  { s with tty := s.tty.keyboardPushFront code
           keys := if 0 ≤ code then s.keys ++ [code] else s.keys }

def exec (lflag : Nat) : Event → Session → Option Session
  | .key code, s => some (s.press code)
  | .read, s => some (s.read lflag)

/-- Every line that the codes spell fits in the buffer of the process. -/
def Fits (codes : List Int) : Prop :=
  ∀ p c, p ++ [c] <+: codes → (edit (typed p).line (c % 256)).length < rbLength

/-- The line that is being typed fits, and the keyboard's buffer has room for the key. -/
def Admitted : Event → Session → Prop
  | .key code, s => 0 ≤ code → Fits (s.keys ++ [code]) ∧ s.tty.scancodes.full = false
  | .read, _ => True

/-- The buffers hold the codes in `waiting` and the characters in `pending`. Either
these are the rest of a completed line or they are the line being typed. -/
structure Inv (s : Session) (consumed waiting pending : List Int) : Prop where
  keys_eq : s.keys = consumed ++ waiting
  fits : Fits s.keys
  waiting_holds : s.tty.scancodes.Holds waiting
  waiting_size : s.tty.scancodes.size = rbLength
  waiting_nonneg : ∀ code ∈ waiting, 0 ≤ code
  pending_holds : s.tty.rb.Holds pending
  pending_size : s.tty.rb.size = rbLength
  pending_byte : ∀ c ∈ pending, 0 ≤ c ∧ c < 256
  out_append : s.out ++ pending = (typed consumed).done ++ (typed consumed).line
  phase : (pending.getLast? = some newline ∧ (typed consumed).line = []) ∨
    pending = (typed consumed).line

section

variable {s : Session} {consumed waiting pending : List Int} {lflag : Nat} {code : Int}

theorem inv_start : Inv start [] [] [] where
  keys_eq := rfl
  fits p c hprefix := absurd (prefix_nil.mp hprefix) (by simp)
  waiting_holds := RingBuffer.holds_init (-1) (by decide)
  waiting_size := rfl
  waiting_nonneg code hmem := absurd hmem not_mem_nil
  pending_holds := RingBuffer.holds_init (-1) (by decide)
  pending_size := rfl
  pending_byte c hmem := absurd hmem not_mem_nil
  out_append := rfl
  phase := .inr rfl

/-- What is returned is a prefix of the completed lines. -/
theorem Inv.out_prefix (h : Inv s consumed waiting pending) : s.out <+: (typed s.keys).done := by
  have hdone : s.out <+: (typed consumed).done := by
    have hout := h.out_append
    rcases h.phase with ⟨-, hline⟩ | hline
    · rw [hline, append_nil] at hout
      exact ⟨pending, hout⟩
    · rw [hline] at hout
      exact (append_cancel_right hout) ▸ prefix_rfl
  rw [h.keys_eq]
  exact hdone.trans (done_prefix_append waiting)

theorem Inv.press (h : Inv s consumed waiting pending) (hcode : 0 ≤ code)
    (hfits : Fits (s.keys ++ [code]))
    (hroom : waiting.length + 1 < rbLength) : Inv (s.press code) consumed
      (waiting ++ [code]) pending := by
  rw [Session.press, Tty.keyboardPushFront, if_pos hcode, if_pos hcode]
  exact { h with
    keys_eq := by rw [h.keys_eq, append_assoc]
    fits := hfits
    waiting_holds := h.waiting_holds.pushFront code (h.waiting_size ▸ hroom)
    waiting_size := h.waiting_size
    waiting_nonneg := forall_mem_append.mpr ⟨h.waiting_nonneg, forall_mem_singleton.mpr hcode⟩ }

/-- A call returns a character of a completed line, takes a key or finds nothing to do. -/
inductive ReadCase (lflag : Nat) (s : Session) (consumed waiting pending : List Int) : Prop
  | deliver (c : Int) (rest : List Int) (hpending : pending = c :: rest)
      (hout : (s.read lflag).out = s.out ++ [c]) (hinv : Inv (s.read lflag) consumed waiting rest)
  | take (code : Int) (rest : List Int) (hwaiting : waiting = code :: rest)
      (hout : (s.read lflag).out = s.out) (line : List Int)
      (hinv : Inv (s.read lflag) (consumed ++ [code]) rest line)
  | idle (hwaiting : waiting = []) (hdone : s.out = (typed consumed).done) (heq : s.read lflag = s)

section

variable (h : Inv s consumed waiting pending) (hcanon : lflag &&& icanon = icanon)
include h hcanon

theorem Inv.deliver (hlast : pending.getLast? = some newline) (hline : (typed consumed).line = []) :
    ReadCase lflag s consumed waiting pending := by
  obtain ⟨c, rest, rfl⟩ : ∃ c rest, pending = c :: rest := by
    cases pending with
    | nil => cases hlast
    | cons c rest => exact ⟨c, rest, rfl⟩
  obtain ⟨line, heq⟩ := getLast?_eq_some_iff.mp hlast
  have hread : s.tty.procvRead lflag = s.tty.deliver :=
    procvRead_of_line hcanon (heq ▸ h.pending_holds)
  have htty : (s.read lflag).tty = { s.tty with rb := (s.tty.rb.popBack (-1)).2 } :=
    congrArg Prod.snd hread
  obtain ⟨hpop, hrest⟩ := h.pending_holds.popBack (-1)
  have hbyte := h.pending_byte c mem_cons_self
  have hout : (s.read lflag).out = s.out ++ [c] := by
    rw [Session.read, hread, Tty.deliver, hpop, Int.emod_eq_of_lt hbyte.1 hbyte.2]
    rfl
  refine .deliver c rest rfl hout ⟨h.keys_eq, h.fits, ?_, ?_, h.waiting_nonneg, ?_, ?_,
    fun x hx => h.pending_byte x (mem_cons_of_mem c hx), ?_, ?_⟩
  · rw [htty]
    exact h.waiting_holds
  · rw [htty]
    exact h.waiting_size
  · rw [htty]
    exact hrest
  · rw [htty, RingBuffer.size_popBack]
    exact h.pending_size
  · rw [hout, append_assoc]
    exact h.out_append
  · cases rest with
    | nil => exact .inr hline.symm
    | cons x rest => exact .inl ⟨hlast, hline⟩

/-- Without a completed line a key is taken, if there is one. -/
theorem Inv.take (hline : pending = (typed consumed).line) :
    ReadCase lflag s consumed waiting pending := by
  have hdone : s.out = (typed consumed).done := append_cancel_right (hline ▸ h.out_append)
  have hisLine := isLine_typed consumed
  have hread : s.tty.procvRead lflag = s.tty.takeKey lflag :=
    procvRead_of_partial hcanon h.pending_holds (hline ▸ hisLine.ne_newline)
  cases waiting with
  | nil =>
    refine .idle rfl hdone ?_
    rw [Session.read, hread, takeKey_nil h.waiting_holds]
    simp
  | cons code rest =>
    have hfit := h.fits consumed code ⟨rest, by rw [h.keys_eq, append_assoc]; rfl⟩
    rw [← hline, ← h.pending_size] at hfit
    obtain ⟨hnone, hrest, hcodes, hsize, hedit⟩ :=
      takeKey_cons hcanon h.waiting_holds (h.waiting_nonneg code mem_cons_self) h.pending_holds hfit
    have htty : (s.read lflag).tty = (s.tty.takeKey lflag).2 := congrArg Prod.snd hread
    have hout : (s.read lflag).out = s.out := by
      rw [Session.read, hread, hnone]
      simp
    have hbyte := byte_edit h.pending_byte (c := code % 256) (by omega)
    refine .take code rest rfl hout _ ⟨?_, h.fits, htty ▸ hrest, ?_,
      fun x hx => h.waiting_nonneg x (mem_cons_of_mem code hx), htty ▸ hedit, ?_, hbyte, ?_, ?_⟩
    · rw [append_assoc]
      exact h.keys_eq
    · rw [htty, hcodes, h.waiting_size]
    · rw [htty, hsize, h.pending_size]
    · rw [hout, hdone, hline, typed_append_singleton, Typed.type]
      split <;> simp
    · rw [typed_append_singleton, Typed.type, hline]
      split
      case isTrue hnewline =>
        refine .inl ⟨?_, rfl⟩
        rw [edit, hnewline, if_neg (by decide), if_neg (by decide), getLast?_concat]
      simp

theorem Inv.read : ReadCase lflag s consumed waiting pending := by
  rcases h.phase with ⟨hlast, hline⟩ | hline
  · exact h.deliver hcanon hlast hline
  · exact h.take hcanon hline

/-- Enough calls return all that was completed. -/
theorem Inv.iterate_read {n : Nat} (hn : waiting.length + (typed s.keys).done.length ≤
    n + s.out.length) :
    ((Session.read lflag)^[n] s).out = (typed s.keys).done := by
  induction n generalizing s consumed waiting pending with
  | zero =>
    have hle := h.out_prefix.length_le
    exact h.out_prefix.eq_of_length (by omega)
  | succ n ih =>
    rw [iterate_succ_apply]
    cases h.read hcanon with
    | deliver c rest hpending hout hinv =>
      refine ih hinv ?_
      rw [hout, length_append, length_singleton]
      exact (by omega : waiting.length + (typed s.keys).done.length ≤ n + (s.out.length + 1))
    | take code rest hwaiting hout line hinv =>
      refine ih hinv ?_
      rw [hwaiting, length_cons] at hn
      rw [hout]
      exact (by omega : rest.length + (typed s.keys).done.length ≤ n + s.out.length)
    | idle hwaiting hdone heq =>
      have hkeys : s.keys = consumed := by rw [h.keys_eq, hwaiting, append_nil]
      rw [heq]
      refine ih h ?_
      rw [hwaiting, hdone, hkeys, length_nil]
      omega

end

theorem exec_inv {event : Event} {t : Session}
    (h : ∃ consumed waiting pending, Inv s consumed waiting pending)
    (hcanon : lflag &&& icanon = icanon) (hevent : Admitted event s)
    (hexec : exec lflag event s = some t) :
    ∃ consumed waiting pending, Inv t consumed waiting pending := by
  obtain ⟨consumed, waiting, pending, hinv⟩ := h
  cases event with
  | key code =>
    cases hexec
    by_cases hcode : 0 ≤ code
    · obtain ⟨hfits, hroom⟩ := hevent hcode
      have hne := mt hinv.waiting_holds.full_iff.mpr (Bool.eq_false_iff.mp hroom)
      have hlt := hinv.waiting_holds.length_lt
      rw [hinv.waiting_size] at hne hlt
      exact ⟨_, _, _, hinv.press hcode hfits (by omega)⟩
    · rw [press, Tty.keyboardPushFront, if_neg hcode, if_neg hcode]
      exact ⟨_, _, _, hinv⟩
  | read =>
    cases hexec
    cases hinv.read hcanon with
    | deliver c rest _ _ hread => exact ⟨_, _, _, hread⟩
    | take code rest _ _ line hread => exact ⟨_, _, _, hread⟩
    | idle _ _ heq => exact ⟨_, _, _, heq.symm ▸ hinv⟩

/-- In canonical mode, for any keys and calls in any order, what was returned is a prefix
of the lines completed so far, and the calls that follow return the rest. -/
theorem canonical_input (hcanon : lflag &&& icanon = icanon)
    (hrun : Runs (exec lflag) Admitted start s) :
    s.out <+: (typed s.keys).done ∧ ∀ n ≥ s.keys.length + (typed s.keys).done.length,
      ((Session.read lflag)^[n] s).out = (typed s.keys).done := by
  obtain ⟨consumed, waiting, pending, hinv⟩ := hrun.invariant
    (fun s => ∃ consumed waiting pending, Inv s consumed waiting pending)
    (fun _ _ _ h hevent hexec => exec_inv h hcanon hevent hexec) ⟨[], [], [], inv_start⟩
  refine ⟨hinv.out_prefix, fun n hn => hinv.iterate_read hcanon ?_⟩
  have hlength := congrArg List.length hinv.keys_eq
  rw [length_append] at hlength
  omega

end

/-! ## Type-ahead -/

open RingBuffer

variable {codes : List Int} {lflag : Nat}

/-- The lines fit that the codes spell after what was typed before. -/
def FitsAfter : Typed → List Int → Prop
  | _, [] => True
  | t, code :: codes => (edit t.line (code % 256)).length < rbLength ∧ FitsAfter (t.type code) codes

theorem fitsAfter_iff (t : Typed) : FitsAfter t codes ↔
    ∀ p c, p ++ [c] <+: codes → (edit (p.foldl Typed.type t).line (c % 256)).length < rbLength := by
  induction codes generalizing t with
  | nil => simp [FitsAfter]
  | cons code codes ih =>
    rw [FitsAfter, ih]
    refine ⟨?_, fun h => ⟨h [] code (by simp), fun p c hp => h (code :: p) c (by simpa using hp)⟩⟩
    rintro ⟨hfirst, hrest⟩ (_ | ⟨x, p⟩) c hp
    · exact (cons_prefix_cons.mp hp).1 ▸ hfirst
    · obtain ⟨rfl, htail⟩ := cons_prefix_cons.mp hp
      exact hrest p c htail

instance : ∀ (codes : List Int) (t : Typed), Decidable (FitsAfter t codes)
  | [], _ => .isTrue trivial
  | _ :: codes, _ => @instDecidableAnd _ _ _ (instDecidableFitsAfter codes _)

instance : DecidablePred Fits := fun _ => decidable_of_iff _ (fitsAfter_iff ⟨[], []⟩)

/-- Key codes of lines with one letter each. -/
def letters (n : Nat) : List Int := (List.replicate n [97, newline]).flatten

theorem foldlM_key (s : Session) :
    (codes.map Event.key).foldlM (fun s e => exec lflag e s) s = some (codes.foldl press s) := by
  induction codes generalizing s with
  | nil => rfl
  | cons code codes ih => exact ih (s.press code)

/-- Without keys and without characters a call does nothing. -/
theorem read_idle {s : Session} (hrb : s.tty.rb.empty = true)
    (hcodes : s.tty.scancodes.empty = true) :
    s.read lflag = s := by
  simp [Session.read, Tty.procvRead, hrb, Tty.takeKey, Tty.keyboardPopBack, hcodes]

/-- A letter is typed, read and erased, and another one takes its place. -/
theorem canonical_input_erase : ∃ s,
    [Event.key 98, .read, .key 8, .key 97, .key newline].foldlM
      (fun s e => exec icanon e s) start = some s ∧
      s.out <+: [97, newline] ∧ ∀ n ≥ 6, ((Session.read icanon)^[n] s).out = [97, newline] := by
  refine ⟨_, rfl, canonical_input (by decide) ?_⟩
  refine ((((Runs.single (i := .key 98) (fun _ => ⟨?_, rfl⟩) rfl).trans
    (Runs.single (i := .read) trivial rfl)).trans
      (Runs.single (i := .key 8) (fun _ => ⟨?_, rfl⟩) rfl)).trans
    (Runs.single (i := .key 97) (fun _ => ⟨?_, rfl⟩) rfl)).trans
    (Runs.single (i := .key newline) (fun _ => ⟨?_, rfl⟩) rfl) <;> decide

set_option maxRecDepth 20000 in
/-- One key more than the keyboard's buffer holds, before the first call. The first
letter is lost. -/
theorem typeahead_overflow : Fits (letters 128) ∧ (typed (letters 128)).done = letters 128 ∧
    ¬newline :: letters 127 <+: letters 128 ∧ ∃ s, ((letters 128).map Event.key).foldlM
      (fun s e => exec icanon e s) start = some s ∧
      s.keys = letters 128 ∧ ∀ n ≥ 510, ((Session.read icanon)^[n] s).out =
        newline :: letters 127 := by
  -- all that was not lost is returned by then, and there is nothing left to return
  obtain ⟨s, hs⟩ : ∃ s, (Session.read icanon)^[510] ((letters 128).foldl press start) = s :=
    ⟨_, rfl⟩
  obtain ⟨hrb, hcodes, hout⟩ : s.tty.rb.empty = true ∧ s.tty.scancodes.empty = true ∧
      s.out = newline :: letters 127 := by
    rw [← hs]
    decide +kernel
  refine ⟨by decide +kernel, by decide +kernel, by decide, _, foldlM_key start, by decide +kernel,
    fun n hn => ?_⟩
  rw [← Nat.sub_add_cancel hn, iterate_add_apply, hs, iterate_fixed (read_idle hrb hcodes)]
  exact hout

end Session

end Hos.Procv
