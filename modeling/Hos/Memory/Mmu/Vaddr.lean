import Hos.Lib.Loop
import Hos.Memory.Mmu.Area

/-!
# Tables of another directory

`mmu_map_vaddr` lets the active directory use tables of another one, by copying
directory entries in steps of four megabytes. Both of its indices start at the source
address, so that the entries go to the slots of the source and not of the destination. The
steps start at the address itself: a range that does not start at a slot may end in
a slot that no step reaches.
-/

namespace Hos.Vm

/-- One pass of the loop of `mmu_map_vaddr`. -/
def mapVaddrStep (srcPdir : Nat) (s : Nat × Nat × Vm) : Nat × Nat × Vm :=
  let srcPde := s.1 / 2 ^ 22 % 1024
  let dstPde := s.2.1 / 2 ^ 22 % 1024
  (u32 (s.1 + 2 ^ 22), u32 (s.2.1 + 2 ^ 22),
    s.2.2.setEntry s.2.2.curPdir srcPde (s.2.2.phys.load32 (entryAddr srcPdir dstPde)))

/-- `mmu_map_vaddr`: the address that it answers, and the state. -/
def mapVaddr (vm : Vm) (srcPdir srcVaddr dstVaddr size : Nat) : Option (Nat × Vm) := do
  let srcVaddrEnd := u32 (srcVaddr + size)
  let s ← whileLoop (fun s : Nat × Nat × Vm => decide (s.1 < srcVaddrEnd))
    (fun s => some (mapVaddrStep srcPdir s)) (srcVaddr, srcVaddr, vm)
  return (dstVaddr, s.2.2)

/-- The frame of the table that the directory `d` has for an address. -/
def tableOf (phys : Bytes) (d addr : Nat) : Option Nat :=
  if present (phys.word d (addr / 2 ^ 22))
    then some (frameNo (phys.word d (addr / 2 ^ 22))) else none

/-- Entries of the directory `e` in the same slots of the directory `d`. -/
def copySlots (vm : Vm) (d e start num : Nat) : Vm :=
  (List.range' start num).foldl (fun vm i => vm.setEntry (d * pageSize) i (vm.phys.word e i)) vm

section

variable {vm : Vm} {d e s n a size : Nat}

/-- The slots that are copied, and nothing else, hold the entries of `e`. -/
theorem copySlots_words (hn : s + n ≤ 1024) :
    vm.Writes (vm.copySlots d e s n) {d} ∧ ∀ i < 1024, (vm.copySlots d e s n).phys.word d i =
      if s ≤ i ∧ i < s + n then vm.phys.word e i else vm.phys.word d i := by
  induction n with
  | zero => exact ⟨Writes.refl vm _, fun i _ => (if_neg (by omega)).symm⟩
  | succ n ih =>
    obtain ⟨hwrites, hwords⟩ := ih (by omega)
    have hstep : vm.copySlots d e s (n + 1) = { vm.copySlots d e s n with
        phys := (vm.copySlots d e s n).phys.setWord d (s + n)
          ((vm.copySlots d e s n).phys.word e (s + n)) } := by
      rw [copySlots, List.range'_1_concat, List.foldl_append]
      rfl
    -- the source still has its entry, also when it is the directory itself
    have hsource : (vm.copySlots d e s n).phys.word e (s + n) = vm.phys.word e (s + n) := by
      by_cases hde : e = d
      · subst hde
        rw [hwords (s + n) (by omega), if_neg (by omega)]
      · exact hwrites.word hde (by omega)
    rw [hstep, hsource]
    refine ⟨hwrites.trans (writes_setWord _ _ _ (by omega) rfl (fun _ hg => hg) rfl),
      fun i hi => ?_⟩
    by_cases his : i = s + n
    · rw [his, Bytes.word_setWord_self, if_pos (by omega), Nat.mod_eq_of_lt Bytes.word_lt]
    · rw [Bytes.word_setWord_of_ne (by omega) hi (Or.inr his), hwords i hi]
      by_cases hin : s ≤ i ∧ i < s + n
      · rw [if_pos hin, if_pos (by omega)]
      · rw [if_neg hin, if_neg (by omega)]

/-- One pass copies the slot of the address. -/
theorem mapVaddrStep_eq (hcur : vm.curPdir = d * pageSize) (ha : a + 2 ^ 22 < 2 ^ 32) :
    mapVaddrStep (e * pageSize) (a, a, vm) = (a + 2 ^ 22, a + 2 ^ 22,
      vm.copySlots d e (a / 2 ^ 22) 1) := by
  have hindex : a / 2 ^ 22 % 1024 = a / 2 ^ 22 := Nat.mod_eq_of_lt (by omega)
  rw [mapVaddrStep, hindex, u32_of_lt ha, hcur]
  rfl

/-- The loop takes a step for every four megabytes that are left. -/
theorem mapVaddr_loop (hcur : vm.curPdir = d * pageSize) (hn : n = (size + (2 ^ 22 - 1)) / 2 ^ 22)
    (hend : a + size ≤ userEnd) :
    ∃ b c, whileLoop (fun s : Nat × Nat × Vm => decide (s.1 < a + size))
      (fun s => some (mapVaddrStep (e * pageSize) s)) (a, a, vm) =
        some (b, c, vm.copySlots d e (a / 2 ^ 22) n) := by
  rw [userEnd] at hend
  induction n generalizing vm a size with
  | zero =>
    refine ⟨a, a, whileLoop_of_false ?_⟩
    rw [decide_eq_false_iff_not]
    omega
  | succ n ih =>
    have hguard : decide (a < a + size) = true := decide_eq_true (by omega)
    have hpass := @whileLoop_of_true _ (fun s : Nat × Nat × Vm => decide (s.1 < a + size))
      (fun s => some (mapVaddrStep (e * pageSize) s)) (a, a, vm) _ hguard
      (congrArg some (mapVaddrStep_eq hcur (by omega)))
    have hnext : (a + 2 ^ 22) / 2 ^ 22 = a / 2 ^ 22 + 1 := by omega
    by_cases hlast : size ≤ 2 ^ 22
    · -- the last step may leave the range behind
      obtain rfl : n = 0 := by omega
      refine ⟨_, _, hpass.trans (whileLoop_of_false ?_)⟩
      rw [decide_eq_false_iff_not]
      omega
    · have hrest : a + 2 ^ 22 + (size - 2 ^ 22) = a + size := by omega
      obtain ⟨b, c, hloop⟩ := @ih (vm.copySlots d e (a / 2 ^ 22) 1) (a + 2 ^ 22)
        (size - 2 ^ 22) hcur (by omega) (by omega)
      refine ⟨b, c, hpass.trans ?_⟩
      rw [hrest, hnext] at hloop
      assumption

theorem mapVaddr_eq {b : Nat} (hcur : vm.curPdir = d * pageSize) (hend : a + size ≤ userEnd) :
    vm.mapVaddr (e * pageSize) a b size =
      some (b, vm.copySlots d e (a / 2 ^ 22) ((size + (2 ^ 22 - 1)) / 2 ^ 22)) := by
  have hend' : u32 (a + size) = a + size := u32_of_lt (by rw [userEnd] at hend; omega)
  obtain ⟨_, _, hloop⟩ := mapVaddr_loop hcur rfl hend
  rw [mapVaddr, hend', hloop]
  rfl

end

/-- `mmu_map_vaddr` returns, and every address of the destination then has the table
that the address of the source has in the directory `e`. -/
def MapsTables (vm : Vm) (d e a b size : Nat) : Prop :=
  ∃ vm', vm.mapVaddr (e * pageSize) a b size = some (b, vm') ∧
    ∀ k < size, tableOf vm'.phys d (b + k) = tableOf vm.phys e (a + k)

variable {vm : Vm} {d e a b size : Nat}

theorem tableOf_congr {phys phys' : Bytes} {addr addr' : Nat}
    (h : phys'.word d (addr' / 2 ^ 22) = phys.word e (addr / 2 ^ 22)) :
    tableOf phys' d addr' = tableOf phys e addr := by
  rw [tableOf, h, tableOf]

/-- A step reaches every slot of the range. -/
theorem mapsTables_of_steps (hcur : vm.curPdir = d * pageSize) (hend : a + size ≤ userEnd)
    (hsteps : a % 2 ^ 22 + size ≤ 2 ^ 22 * ((size + (2 ^ 22 - 1)) / 2 ^ 22)) :
    vm.MapsTables d e a a size := by
  refine ⟨_, mapVaddr_eq hcur hend, fun k hk => tableOf_congr ?_⟩
  rw [userEnd] at hend
  rw [(copySlots_words (by omega)).2 _ (by omega), if_pos (by omega)]

/-- A directory in frame one with a table for every slot, next to an empty one in
frame two. -/
def sourceWords (f i : Nat) : Nat := if f = 1 then (i + 1) * pageSize + 7 else 0

/-- The empty directory is the active one. -/
def twoDirectories : Vm := ⟨Bytes.ofWords sourceWords, ⟨fun _ => 0, 0, 0, 0⟩, 2 * pageSize,
    2 * pageSize⟩

theorem tableOf_source {addr : Nat} (h : addr < 2 ^ 32) :
    tableOf twoDirectories.phys 1 addr = some (addr / 2 ^ 22 + 1) := by
  have hword : twoDirectories.phys.word 1 (addr / 2 ^ 22) = (addr / 2 ^ 22 + 1) * pageSize + 7 := by
    rw [twoDirectories, Bytes.word_ofWords (by omega), sourceWords, if_pos rfl, pageSize]
    omega
  rw [tableOf, hword, present, frameNo, pageSize, if_pos]
  · exact congrArg some (by omega)
  · rw [Nat.testBit_zero, decide_eq_true_eq]
    omega

/-- After the call an address has a table only in a slot that a step reaches, and it is
that of the same slot. -/
theorem tableOf_copied {vm' : Vm} (hend : a + size ≤ userEnd)
    (hrun : twoDirectories.mapVaddr (1 * pageSize) a b size = some (b, vm')) {addr t : Nat}
    (haddr : addr < 2 ^ 32) (htable : tableOf vm'.phys 2 addr = some t) :
    t = addr / 2 ^ 22 + 1 ∧ a / 2 ^ 22 ≤ addr / 2 ^ 22 ∧
      addr / 2 ^ 22 < a / 2 ^ 22 + (size + (2 ^ 22 - 1)) / 2 ^ 22 := by
  obtain ⟨-, rfl⟩ := Prod.mk.inj (Option.some.inj ((mapVaddr_eq rfl hend).symm.trans hrun))
  rw [userEnd] at hend
  have hword := (@copySlots_words twoDirectories 2 1 (a / 2 ^ 22) ((size + (2 ^ 22 - 1)) / 2 ^ 22)
    (by omega)).2 (addr / 2 ^ 22) (by omega)
  by_cases hin : a / 2 ^ 22 ≤ addr / 2 ^ 22 ∧
    addr / 2 ^ 22 < a / 2 ^ 22 + (size + (2 ^ 22 - 1)) / 2 ^ 22
  · rw [if_pos hin] at hword
    rw [tableOf_congr hword, tableOf_source haddr] at htable
    exact ⟨(Option.some.inj htable).symm, hin⟩
  · have hempty : twoDirectories.phys.word 2 (addr / 2 ^ 22) = 0 := by
      rw [twoDirectories, Bytes.word_ofWords (by omega)]
      rfl
    rw [if_neg hin, hempty] at hword
    rw [tableOf, hword] at htable
    cases htable

/-- `mmu_map_vaddr` maps a range for all directories exactly when source and destination
are the same range and its steps of four megabytes reach the slot of its last
address. -/
theorem map_vaddr_iff (ha : a + size ≤ userEnd) (hb : b + size ≤ userEnd)
    (hcong : a % 2 ^ 22 = b % 2 ^ 22) :
    (∀ (vm : Vm) d e, vm.curPdir = d * pageSize → vm.MapsTables d e a b size) ↔
      size = 0 ∨ a = b ∧ a % 2 ^ 22 + size ≤ 2 ^ 22 * ((size + (2 ^ 22 - 1)) / 2 ^ 22) := by
  constructor
  · intro h
    by_cases hsize : size = 0
    · exact Or.inl hsize
    · obtain ⟨vm', hrun, htables⟩ := h twoDirectories 2 1 rfl
      have ha' := ha
      have hb' := hb
      rw [userEnd] at ha' hb'
      have hreached : ∀ k < size, a / 2 ^ 22 ≤ (b + k) / 2 ^ 22 ∧
          (a + k) / 2 ^ 22 = (b + k) / 2 ^ 22 ∧
          (b + k) / 2 ^ 22 < a / 2 ^ 22 + (size + (2 ^ 22 - 1)) / 2 ^ 22 := by
        intro k hk
        have htable := htables k hk
        rw [tableOf_source (by omega)] at htable
        obtain ⟨hslot, hlow, hhigh⟩ := tableOf_copied ha hrun (by omega) htable
        omega
      have hlast := hreached (size - 1) (by omega)
      omega
  · rintro (rfl | ⟨rfl, hsteps⟩) vm d e hcur
    · exact ⟨_, mapVaddr_eq hcur ha, fun k hk => absurd hk (Nat.not_lt_zero k)⟩
    · exact mapsTables_of_steps hcur ha hsteps

/-- A segment of one page. -/
theorem map_vaddr_page : twoDirectories.MapsTables 2 1 0x8048000 0x8048000 0x1000 :=
  (map_vaddr_iff (by decide) (by decide) rfl).mpr (Or.inr ⟨rfl, by decide⟩) twoDirectories 2 1 rfl

/-- A segment of two pages around a multiple of four megabytes: its second page has no
table afterwards. A page that is mapped to another address has none either. -/
theorem map_vaddr_misses : ¬twoDirectories.MapsTables 2 1 0x83FF000 0x83FF000 0x2000 ∧
    ¬twoDirectories.MapsTables 2 1 0x400000 0x800000 0x1000 := by
  constructor
  · rintro ⟨vm', hrun, htables⟩
    have htable := htables 0x1000 (by decide)
    exact absurd (tableOf_copied (by decide) hrun (by decide) htable).2.2 (by decide)
  · rintro ⟨vm', hrun, htables⟩
    have htable := htables 0 (by decide)
    exact absurd (tableOf_copied (by decide) hrun (by decide) htable).2.2 (by decide)

end Hos.Vm
