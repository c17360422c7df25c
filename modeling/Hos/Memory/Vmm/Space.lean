import Hos.Lib.Frames
import Hos.Memory.Vmm.Basic

/-!
# Address spaces as directories of tables

A directory is a frame of entries, each of which may name a frame with the
entries of 1024 pages. Entry 1023 of a directory names the directory itself, so
that the addresses above `0xFFC00000` are the entries of all pages and the last
page of them is the directory. The functions of `vmm.c` read and write entries
through these addresses; here they are said in terms of the words of the frames.

A new table or page is a frame whose bit was clear. Since the bits of the
directory and of all tables are set, clearing the new frame touches none of
them.
-/

namespace Hos.Vm

open Option Nat Bool

/-- The number of the frame of an entry. -/
def frameNo (raw : Nat) : Nat := raw / pageSize

/-- The entry of virtual page `p` in the table that the directory `d` has for it. -/
def leaf (phys : Bytes) (d p : Nat) : Nat :=
  phys.word (frameNo (phys.word d (p / 1024))) (p % 1024)

/-- The entry of a page that is mapped. -/
def mapping (phys : Bytes) (d p : Nat) : Option Nat :=
  if present (phys.word d (p / 1024)) && present (leaf phys d p) then some (leaf phys d p) else none

/-- The directory `d` is active and its last entry names it. -/
structure Recursive (vm : Vm) (d : Nat) : Prop where
  cr3 : vm.cr3 = d * pageSize
  curPdir : vm.curPdir = d * pageSize
  self_present : present (vm.phys.word d 1023) = true
  self_frame : frameNo (vm.phys.word d 1023) = d

/-- The tables of the directory are frames in use, and none of them is the directory. -/
structure Linked (vm : Vm) (d : Nat) : Prop extends Recursive vm d where
  table_ne : ∀ i < 1023, present (vm.phys.word d i) = true → frameNo (vm.phys.word d i) ≠ d
  used : ∀ i < 1024, present (vm.phys.word d i) = true →
    vm.pmm.bit (frameNo (vm.phys.word d i)) = true
  maxFrames : vm.pmm.maxFrames ≤ 2 ^ 20

/-- The tables of the directory are in order. Slots may share a table when it is
full, like the tables that map the first megabytes twice. -/
structure Space (vm : Vm) (d : Nat) : Prop extends Recursive vm d where
  table_ne : ∀ i < 1023, present (vm.phys.word d i) = true → frameNo (vm.phys.word d i) ≠ d
  used : ∀ i < 1024, present (vm.phys.word d i) = true →
    vm.pmm.bit (frameNo (vm.phys.word d i)) = true
  small : ∀ i < 1023, large (vm.phys.word d i) = false
  shared : ∀ i < 1023, ∀ j < 1023, i ≠ j → present (vm.phys.word d i) = true →
    present (vm.phys.word d j) = true → frameNo (vm.phys.word d i) = frameNo (vm.phys.word d j) →
      ∀ k < 1024, present (vm.phys.word (frameNo (vm.phys.word d i)) k) = true
  maxFrames : vm.pmm.maxFrames ≤ 2 ^ 20

theorem Space.linked {vm : Vm} {d : Nat} (h : vm.Space d) : vm.Linked d :=
  ⟨h.toRecursive, h.table_ne, h.used, h.maxFrames⟩

section

variable {raw flags f : Nat}

theorem entryFrame_eq : entryFrame raw = frameNo raw * pageSize := rfl

/-- The entry that an allocation leaves. -/
def newEntry (old f flags : Nat) : Nat :=
    (old % pageSize + f % 2 ^ 20 * pageSize) ||| flags % pageSize

theorem or_flags_lt (hraw : raw < 2 ^ 32) : raw ||| flags % pageSize < 2 ^ 32 := by
  apply or_lt_two_pow hraw
  rw [pageSize]
  omega

theorem frameNo_or_flags : frameNo (raw ||| flags % pageSize) = frameNo raw := by
  have hzero : flags % pageSize / 2 ^ 12 = 0 := by
    rw [pageSize]
    omega
  rw [frameNo, frameNo, pageSize, ← pageSize, show pageSize = 2 ^ 12 from rfl,
    ← shiftRight_eq_div_pow, shiftRight_or_distrib, shiftRight_eq_div_pow,
    shiftRight_eq_div_pow]
  rw [show (2 : Nat) ^ 12 = pageSize from rfl] at hzero ⊢
  simp

theorem present_or_flags : present (raw ||| flags % pageSize) = (present raw || present flags) := by
  rw [present, testBit_or, show pageSize = 2 ^ 12 from rfl, testBit_mod_two_pow]
  rfl

theorem large_or_flags : large (raw ||| flags % pageSize) = (large raw || large flags) := by
  rw [large, testBit_or, show pageSize = 2 ^ 12 from rfl, testBit_mod_two_pow]
  rfl

theorem setFrame_lt {old : Nat} : old % pageSize + f % 2 ^ 20 * pageSize < 2 ^ 32 := by
  rw [pageSize]
  omega

end

section

variable {vm : Vm} {phys : Bytes} {d i j p virtAddr : Nat}

/-- The walk of the processor in terms of pages. -/
theorem walk_eq (hv : virtAddr < 2 ^ 32) :
    walk phys (d * pageSize) virtAddr =
      (mapping phys d (virtAddr / pageSize)).map fun raw =>
        frameNo raw * pageSize + virtAddr % pageSize := by
  have hpde : pdeIndex virtAddr = virtAddr / pageSize / 1024 := by
    rw [pdeIndex, pageSize]
    omega
  have hpte : pteIndex virtAddr = virtAddr / pageSize % 1024 := rfl
  rw [walk, mapping, leaf, hpde, hpte]
  by_cases hdir : present (phys.word d (virtAddr / pageSize / 1024)) = true
  · by_cases hleaf : present (phys.word (frameNo (phys.word d (virtAddr / pageSize / 1024)))
        (virtAddr / pageSize % 1024)) = true
    · rw [hdir, hleaf, Bool.and_self, if_pos rfl, map_some]
      exact (if_pos hdir).trans (if_pos hleaf)
    · rw [hdir, Bool.true_and, if_neg hleaf, map_none]
      exact (if_pos hdir).trans (if_neg hleaf)
  · rw [eq_false_iff.mpr hdir, Bool.false_and]
    exact if_neg hdir

theorem mapping_eq_some_iff {raw : Nat} : mapping phys d p = some raw ↔
    present (phys.word d (p / 1024)) = true ∧ present raw = true ∧ leaf phys d p = raw := by
  rw [mapping]
  split
  · next h =>
    rw [and_eq_true] at h
    rw [some.injEq]
    constructor
    · rintro rfl
      exact ⟨h.1, h.2, rfl⟩
    omega
  · next h =>
    rw [and_eq_true] at h
    constructor
    · simp
    · rintro ⟨hdir, hraw, rfl⟩
      exact absurd ⟨hdir, hraw⟩ h

theorem mapping_eq_none_iff : mapping phys d p = none ↔
    present (phys.word d (p / 1024)) = true → present (leaf phys d p) = false := by
  rw [mapping]
  simp

section

variable (h : vm.Recursive d) (hi : i < 1024)
include h hi

/-- The recursive window shows the entries of the directory. -/
theorem Recursive.mapping_window :
    mapping vm.phys d (1023 * 1024 + i) =
      if present (vm.phys.word d i) then some (vm.phys.word d i) else none := by
  have hdiv : (1023 * 1024 + i) / 1024 = 1023 := by omega
  have hmod : (1023 * 1024 + i) % 1024 = i := by omega
  rw [mapping, leaf, hdiv, hmod, h.self_frame, h.self_present, Bool.true_and]

theorem Recursive.translate_window (hj : j < 4096)
    (hpresent : present (vm.phys.word d i) = true) :
    vm.translate (0xFFC00000 + i * pageSize + j) = some
      (frameNo (vm.phys.word d i) * pageSize + j) := by
  have hdiv : (0xFFC00000 + i * pageSize + j) / pageSize = 1023 * 1024 + i := by
    rw [pageSize]
    omega
  have hmod : (0xFFC00000 + i * pageSize + j) % pageSize = j := by
    rw [pageSize]
    omega
  have hlt : 0xFFC00000 + i * pageSize + j < 2 ^ 32 := by
    rw [pageSize]
    omega
  rw [translate, h.cr3, walk_eq hlt, hdiv, hmod, h.mapping_window hi, if_pos hpresent]
  rfl

theorem Recursive.translate_directory :
    vm.translate (entryAddr rGetDirectory i) = some (Bytes.wordAddr d i) := by
  have haddr : entryAddr rGetDirectory i = 0xFFC00000 + 1023 * pageSize + 4 * i := rfl
  rw [haddr, h.translate_window (by decide) (by omega) h.self_present, h.self_frame]
  rfl

end

theorem Recursive.translate_table (h : vm.Recursive d) (hj : j < 1024)
    (hpresent : present (vm.phys.word d (pdeIndex virtAddr)) = true) :
    vm.translate (entryAddr (rGetPtable virtAddr) j) =
      some (Bytes.wordAddr (frameNo (vm.phys.word d (pdeIndex virtAddr))) j) :=
  h.translate_window (mod_lt _ (by decide)) (by omega) hpresent

end

/-- Word `j` of frame `g` has been changed and frame `f` has been cleared. -/
structure Installed (m m' : Bytes) (g j f : Nat) : Prop where
  cleared : ∀ k < 1024, m'.word f k = 0
  other : ∀ h k, k < 1024 → h ≠ f → (h ≠ g ∨ k ≠ j) → m'.word h k = m.word h k
  bytes : ∀ x, x / 4096 ≠ f → x / 4096 ≠ g → m' x = m x

section

variable {vm vm' : Vm} {d f g i j virtAddr flags : Nat} {pmm : Pmm} {m : Bytes}

theorem pageSetFlags_eq : vm.pageSetFlags (Bytes.wordAddr g j) flags =
    { vm with phys := vm.phys.setWord g j (vm.phys.word g j ||| flags % pageSize) } := rfl

theorem newEntry_lt {old : Nat} : newEntry old f flags < 2 ^ 32 := or_flags_lt setFrame_lt

theorem frameNo_newEntry {old : Nat} (hf : f < 2 ^ 20) : frameNo (newEntry old f flags) = f := by
  rw [newEntry, frameNo_or_flags, frameNo, pageSize]
  omega

theorem present_newEntry {old : Nat} (hflags : present flags = true) :
    present (newEntry old f flags) = true := by
  rw [newEntry, present_or_flags, hflags, Bool.or_true]

theorem large_newEntry {old : Nat} (hold : large old = false) (hflags : large flags = false) :
    large (newEntry old f flags) = false := by
  have hlow : large (old % pageSize + f % 2 ^ 20 * pageSize) = large old := by
    rw [large, add_comm, mul_comm, show pageSize = 2 ^ 12 from rfl,
      testBit_two_pow_mul_add _ (mod_lt _ (by decide)), if_pos (by decide),
      testBit_mod_two_pow]
    rfl
  rw [newEntry, large_or_flags, hlow, hold, hflags]
  rfl

theorem pageAllocate_eq (habsent : present (vm.phys.word g j) = false) :
    vm.pageAllocate (Bytes.wordAddr g j) flags = vm.pmm.allocateFrame.map fun r =>
      { vm with
        pmm := r.2
        phys := vm.phys.setWord g j (newEntry (vm.phys.word g j) r.1 flags) } := by
  have hload : vm.phys.load32 (Bytes.wordAddr g j) = vm.phys.word g j := rfl
  rw [pageAllocate, hload, if_neg (by rw [habsent]; exact false_ne_true)]
  cases vm.pmm.allocateFrame with
  | none => rfl
  | some r =>
    have hset : ({ vm with pmm := r.2 } : Vm).pageSetFrame (Bytes.wordAddr g j) r.1 = { vm with
          pmm := r.2
          phys := vm.phys.setWord g j (vm.phys.word g j % pageSize + r.1 % 2 ^ 20 * pageSize) } :=
            rfl
    simp only [bind_eq_bind, bind_some, map_some, hset, pageSetFlags_eq]
    rw [Bytes.word_setWord_self, Bytes.setWord_setWord, mod_eq_of_lt setFrame_lt]
    rfl

theorem pageMapAddr_eq {physAddr : Nat} :
    vm.pageMapAddr (Bytes.wordAddr g j) flags physAddr = { vm with
      pmm := vm.pmm.frameSeta physAddr
      phys := vm.phys.setWord g j (newEntry (vm.phys.word g j) (physAddr / 2 ^ 12) flags) } := by
  have hset : ({ vm with pmm := vm.pmm.frameSeta physAddr } : Vm).pageSetFrame (Bytes.wordAddr g j)
      (physAddr / 2 ^ Pmm.frameShift) =
      { vm with
        pmm := vm.pmm.frameSeta physAddr
        phys := vm.phys.setWord g j
          (vm.phys.word g j % pageSize + physAddr / 2 ^ 12 % 2 ^ 20 * pageSize) } := rfl
  rw [pageMapAddr, hset, pageSetFlags_eq]
  rw [Bytes.word_setWord_self, Bytes.setWord_setWord, mod_eq_of_lt setFrame_lt]
  rfl

theorem zeroPage_eq (h : vm.translate virtAddr = some (f * pageSize)) :
    vm.zeroPage virtAddr = some { vm with phys := vm.phys.clearFrame f } := by
  rw [zeroPage, h]
  rfl

theorem installed_clearFrame (hj : j < 1024) (e : Nat) :
    Installed m ((m.setWord g j e).clearFrame f) g j f where
  cleared k hk := Bytes.word_clearFrame_self hk
  other h k hk hf hne := by
    rw [Bytes.word_clearFrame_of_ne hk hf, Bytes.word_setWord_of_ne hj hk hne]
  bytes x hf hg := by
    rw [Bytes.clearFrame_of_frame_ne hf, Bytes.setWord_of_frame_ne hj hg]

/-- Changing the entry once more. -/
theorem Installed.setWord {m' : Bytes} (h : Installed m m' g j f) (hj : j < 1024) (hfg : f ≠ g)
    (e : Nat) : Installed m (m'.setWord g j e) g j f where
  cleared k hk := by rw [Bytes.word_setWord_of_ne hj hk (.inl hfg), h.cleared k hk]
  other h' k hk hf hne := by rw [Bytes.word_setWord_of_ne hj hk hne, h.other h' k hk hf hne]
  bytes x hf hg := by rw [Bytes.setWord_of_frame_ne hj hg, h.bytes x hf hg]

/-- Word `j` of frame `g` has become the entry of a new frame. -/
structure Takes (vm vm' : Vm) (g j f : Nat) : Prop where
  alloc : vm.pmm.allocateFrame = some (f, vm'.pmm)
  cr3 : vm'.cr3 = vm.cr3
  curPdir : vm'.curPdir = vm.curPdir
  installed : Installed vm.phys vm'.phys g j f
  frame : frameNo (vm'.phys.word g j) = f
  isPresent : present (vm'.phys.word g j) = true
  size : large (vm.phys.word g j) = false → large (vm'.phys.word g j) = false

/-- A frame that is allocated is none of those that the directory uses. -/
theorem Linked.fresh (h : vm.Linked d) (halloc : vm.pmm.allocateFrame = some (f, pmm)) :
    f < 2 ^ 20 ∧ f ≠ d ∧ ∀ i < 1024, present (vm.phys.word d i) = true →
      frameNo (vm.phys.word d i) ≠ f := by
  obtain ⟨_, hlt, hclear, _⟩ := Pmm.allocateFrame_eq_some halloc
  have hne : ∀ i < 1024, present (vm.phys.word d i) = true → frameNo (vm.phys.word d i) ≠ f := by
    rintro i hi hpresent rfl
    rw [h.used i hi hpresent] at hclear
    cases hclear
  refine ⟨lt_of_lt_of_le hlt h.maxFrames, ?_, hne⟩
  have hself := hne 1023 (by decide) h.self_present
  rw [h.self_frame] at hself
  exact hself.symm

/-- What happens at an entry that is not present: a frame is allocated for it and
cleared through its address. -/
theorem takes_of_allocate (hj : j < 1024) (hfg : ∀ r, vm.pmm.allocateFrame = some r → r.1 ≠ g)
    (hmax : vm.pmm.maxFrames ≤ 2 ^ 20) (hflags : present flags = true)
    (hlarge : large flags = false) (habsent : present (vm.phys.word g j) = false)
    (htranslate : ∀ f pmm e, vm.pmm.allocateFrame = some (f, pmm) → frameNo e = f →
      present e = true → e < 2 ^ 32 →
      ({ vm with pmm := pmm, phys := vm.phys.setWord g j e } : Vm).translate virtAddr = some
        (f * pageSize))
    (hrun : ((vm.pageAllocate (Bytes.wordAddr g j) flags).bind fun vm => vm.zeroPage virtAddr) =
      some vm') : ∃ f, Takes vm vm' g j f := by
  rw [pageAllocate_eq habsent] at hrun
  obtain ⟨vm₀, hallocate, hzero⟩ := bind_eq_some_iff.mp hrun
  obtain ⟨⟨f, pmm⟩, halloc, rfl⟩ := map_eq_some_iff.mp hallocate
  have hlt : f < 2 ^ 20 := lt_of_lt_of_le (Pmm.allocateFrame_eq_some halloc).2.1 hmax
  rw [zeroPage_eq (htranslate f pmm _ halloc (frameNo_newEntry hlt) (present_newEntry hflags)
    newEntry_lt)] at hzero
  cases hzero
  have hentry : ((vm.phys.setWord g j (newEntry (vm.phys.word g j) f flags)).clearFrame f).word g
      j = newEntry (vm.phys.word g j) f flags := by
    rw [Bytes.word_clearFrame_of_ne hj (hfg _ halloc).symm, Bytes.word_setWord_self,
      mod_eq_of_lt newEntry_lt]
  refine ⟨f, halloc, rfl, rfl, installed_clearFrame hj _, ?_, ?_, fun hsize => ?_⟩
  · exact (congrArg frameNo hentry).trans (frameNo_newEntry hlt)
  · exact (congrArg present hentry).trans (present_newEntry hflags)
  · exact (congrArg large hentry).trans (large_newEntry hsize hlarge)

end

variable {vm vm' : Vm} {d f i j p flags : Nat} {ret : Option Nat}

theorem pdeIndex_page (hp : p < 2 ^ 20) : pdeIndex (p * pageSize) = p / 1024 := by
  rw [pdeIndex, pageSize]
  omega

theorem pteIndex_page : pteIndex (p * pageSize) = p % 1024 := by
  rw [pteIndex, pageSize]
  omega

/-- The window shows a table as soon as the directory has its entry. -/
theorem Recursive.translate_newTable {pmm : Pmm} {e : Nat} (h : vm.Recursive d)
    (hp : p < 1023 * 1024) (hset : present e = true) (he : e < 2 ^ 32) :
    ({ vm with pmm := pmm, phys := vm.phys.setWord d (p / 1024) e } : Vm).translate
      (rGetPtable (p * pageSize)) = some (frameNo e * pageSize) := by
  have hentry : ((vm.phys.setWord d (p / 1024) e).word d (p / 1024)) = e := by
    rw [Bytes.word_setWord_self, mod_eq_of_lt he]
  have hself : (vm.phys.setWord d (p / 1024) e).word d 1023 = vm.phys.word d 1023 :=
    Bytes.word_setWord_of_ne (by omega) (by decide) (.inr (by omega))
  have hrec : Recursive { vm with pmm := pmm, phys := vm.phys.setWord d (p / 1024) e } d :=
    ⟨h.cr3, h.curPdir, hself ▸ h.self_present, hself ▸ h.self_frame⟩
  have htable : rGetPtable (p * pageSize) = 0xFFC00000 + p / 1024 * pageSize + 0 := by
    rw [rGetPtable, pdeIndex_page (by omega), add_zero]
  rw [htable, hrec.translate_window (by omega) (by decide) (by rw [hentry]; exact hset), hentry,
    add_zero]

section

variable (h : vm.Linked d) (hp : p < 1023 * 1024) (hflags : present flags = true)
include h hp hflags

/-- A missing table is a new frame. -/
theorem Linked.ensureTable_cases (hlarge : present (vm.phys.word d (p / 1024)) = false →
    large flags = false)
    (hrun : vm.ensureTable (Bytes.wordAddr d (p / 1024)) (p * pageSize) flags = some vm') :
    present (vm.phys.word d (p / 1024)) = true ∧ vm' = vm ∨
      present (vm.phys.word d (p / 1024)) = false ∧ ∃ f, vm.Takes vm' d (p / 1024) f := by
  rw [ensureTable, ← Bytes.word] at hrun
  by_cases hpresent : present (vm.phys.word d (p / 1024)) = true
  · rw [if_pos hpresent] at hrun
    exact .inl ⟨hpresent, (some.inj hrun).symm⟩
  · rw [if_neg hpresent] at hrun
    have habsent := eq_false_iff.mpr hpresent
    refine .inr ⟨habsent, takes_of_allocate (by omega) (fun r halloc => (h.fresh halloc).2.1)
      h.maxFrames hflags (hlarge habsent) habsent (fun f pmm e _ hframe hset hlt => ?_) hrun⟩
    rw [h.translate_newTable hp hset hlt, hframe]

/-- A table can be made as long as a frame can be allocated. -/
theorem Linked.ensureTable_isSome (hsupply : present (vm.phys.word d (p / 1024)) = false → ∃ r,
    vm.pmm.allocateFrame = some r) :
    ∃ vm', vm.ensureTable (Bytes.wordAddr d (p / 1024)) (p * pageSize) flags = some vm' := by
  rw [ensureTable, ← Bytes.word]
  by_cases hpresent : present (vm.phys.word d (p / 1024)) = true
  · exact ⟨vm, if_pos hpresent⟩
  · have habsent := eq_false_iff.mpr hpresent
    obtain ⟨r, hr⟩ := hsupply habsent
    rw [if_neg hpresent, pdeAllocate, pageAllocate_eq habsent, hr, map_some, bind_eq_bind,
      bind_some, zeroPage, h.translate_newTable hp (present_newEntry hflags) newEntry_lt]
    simp

end

/-- A missing page of a table is a new frame. -/
theorem Space.ensurePage_cases (h : vm.Space d) (hp : p < 1023 * 1024)
    (hflags : present flags = true)
    (hlarge : large flags = false) (htable : present (vm.phys.word d (p / 1024)) = true)
    (hleaf : present (leaf vm.phys d p) = false)
    (hrun : vm.ensurePage (Bytes.wordAddr (frameNo (vm.phys.word d (p / 1024))) (p % 1024))
      (p * pageSize) flags = some vm') :
    ∃ f, vm.Takes vm' (frameNo (vm.phys.word d (p / 1024))) (p % 1024) f := by
  have hslot : p / 1024 < 1023 := by omega
  have hne := h.table_ne _ hslot htable
  rw [ensurePage, ← Bytes.word, ← leaf, if_neg (by rw [hleaf]; exact false_ne_true)] at hrun
  refine takes_of_allocate (mod_lt p (by decide))
    (fun r halloc => ((h.linked.fresh halloc).2.2 _ (by omega) htable).symm) h.maxFrames hflags
      hlarge hleaf
    (fun f pmm e _ hframe hset hlt => ?_) hrun
  have hdir : (vm.phys.setWord (frameNo (vm.phys.word d (p / 1024))) (p % 1024) e).word d
      (p / 1024) = vm.phys.word d (p / 1024) :=
    Bytes.word_setWord_of_ne (mod_lt p (by decide)) (by omega) (.inl hne.symm)
  have hmapping : mapping (vm.phys.setWord (frameNo (vm.phys.word d (p / 1024))) (p % 1024) e) d p =
      some e := by
    rw [mapping_eq_some_iff, leaf, hdir, Bytes.word_setWord_self, mod_eq_of_lt hlt]
    exact ⟨htable, hset, rfl⟩
  have hdiv : p * pageSize / pageSize = p := Nat.mul_div_cancel p (by decide)
  have haddr : p * pageSize < 2 ^ 32 := by
    rw [pageSize]
    omega
  refine (congrArg (fun dir => walk _ dir _) h.cr3).trans ?_
  rw [walk_eq haddr, hdiv, hmapping, map_some, hframe, mul_mod_left, add_zero]

theorem Takes.bit {g b : Nat} (h : vm.Takes vm' g j f) :
    vm'.pmm.bit b = (vm.pmm.bit b || b == f) := by
  obtain ⟨_, _, _, hpmm⟩ := Pmm.allocateFrame_eq_some h.alloc
  rw [hpmm, Pmm.bit_markFrameUsed]

theorem Takes.maxFrames {g : Nat} (h : vm.Takes vm' g j f) :
    vm'.pmm.maxFrames = vm.pmm.maxFrames := by
  obtain ⟨_, _, _, hpmm⟩ := Pmm.allocateFrame_eq_some h.alloc
  rw [hpmm, Pmm.maxFrames_markFrameUsed]

/-- The flags are set once more at the end. -/
theorem Takes.pageSetFlags {g : Nat} (h : vm.Takes vm' g j f) (hj : j < 1024) (hfg : f ≠ g)
    (hlarge : large flags = false) : vm.Takes
      (vm'.pageSetFlags (Bytes.wordAddr g j) flags) g j f := by
  have hentry : (vm'.phys.setWord g j (vm'.phys.word g j ||| flags % pageSize)).word g j =
      vm'.phys.word g j ||| flags % pageSize := by
    rw [Bytes.word_setWord_self, mod_eq_of_lt (or_flags_lt Bytes.word_lt)]
  refine ⟨h.alloc, h.cr3, h.curPdir, h.installed.setWord hj hfg _, ?_, ?_, fun hsize => ?_⟩
  · exact (congrArg frameNo hentry).trans (frameNo_or_flags.trans h.frame)
  · refine (congrArg present hentry).trans ?_
    rw [present_or_flags, h.isPresent, Bool.true_or]
  · refine (congrArg large hentry).trans ?_
    rw [large_or_flags, h.size hsize, hlarge]
    rfl

/-- Two directories whose entry for a page and whose table entry agree. -/
theorem mapping_congr {m m' : Bytes} {q : Nat} (hdir : m'.word d (q / 1024) = m.word d (q / 1024))
    (hleaf : present (m.word d (q / 1024)) = true →
      m'.word (frameNo (m.word d (q / 1024))) (q % 1024) =
        m.word (frameNo (m.word d (q / 1024))) (q % 1024)) : mapping m' d q = mapping m d q := by
  rw [mapping, mapping, leaf, leaf, hdir]
  by_cases hpresent : present (m.word d (q / 1024)) = true
  · rw [hleaf hpresent]
  · rw [eq_false_iff.mpr hpresent, Bool.false_and, Bool.false_and]
    rfl

/-- The directory stays and no frame is freed. -/
theorem Linked.congr (h : vm.Linked d) (hcr3 : vm'.cr3 = vm.cr3) (hcur : vm'.curPdir = vm.curPdir)
    (hdir : ∀ i < 1024, vm'.phys.word d i = vm.phys.word d i)
    (hbits : ∀ g, vm.pmm.bit g = true → vm'.pmm.bit g = true)
    (hmax : vm'.pmm.maxFrames = vm.pmm.maxFrames) : vm'.Linked d := by
  have hself := hdir 1023 (by decide)
  refine ⟨⟨hcr3.trans h.cr3, hcur.trans h.curPdir, hself ▸ h.self_present, hself ▸ h.self_frame⟩,
    fun i hi hpresent => ?_, fun i hi hpresent => ?_, hmax ▸ h.maxFrames⟩
  · rw [hdir i (by omega)] at hpresent ⊢
    exact h.table_ne i hi hpresent
  · rw [hdir i hi] at hpresent ⊢
    exact hbits _ (h.used i hi hpresent)

/-- More pages in the same tables. -/
theorem Space.of_mono (h : vm.Space d) (hlinked : vm'.Linked d)
    (hdir : ∀ i < 1023, vm'.phys.word d i = vm.phys.word d i)
    (hmono : ∀ q < 1023 * 1024, mapping vm.phys d q ≠ none → mapping vm'.phys d q ≠ none) :
    vm'.Space d := by
  refine ⟨hlinked.toRecursive, hlinked.table_ne, hlinked.used, fun i hi => ?_,
    fun i hi j hj hij hpi hpj hframe k hk => ?_, hlinked.maxFrames⟩
  · rw [hdir i hi]
    exact h.small i hi
  · have hdiv : (i * 1024 + k) / 1024 = i := by omega
    have hmod : (i * 1024 + k) % 1024 = k := by omega
    have hbefore : mapping vm.phys d (i * 1024 + k) ≠ none := by
      rw [hdir i hi] at hpi hframe
      rw [hdir j hj] at hpj hframe
      intro hnone
      have habsent := mapping_eq_none_iff.mp hnone (by rw [hdiv]; exact hpi)
      rw [leaf, hdiv, hmod, h.shared i hi j hj hij hpi hpj hframe k hk] at habsent
      cases habsent
    obtain ⟨raw, hraw⟩ := ne_none_iff_exists'.mp (hmono _ (by omega) hbefore)
    obtain ⟨-, hset, hleaf⟩ := mapping_eq_some_iff.mp hraw
    rw [leaf, hdiv, hmod] at hleaf
    rw [hleaf]
    exact hset

theorem Linked.takes_table (h : vm.Linked d) (hi : i < 1023)
    (habsent : present (vm.phys.word d i) = false) (ht : vm.Takes vm' d i f) :
    vm'.Linked d ∧ (∀ j < 1024, j ≠ i → vm'.phys.word d j = vm.phys.word d j) ∧
      (∀ j < 1023, present (vm.phys.word d j) = true → ∀ k < 1024,
        vm'.phys.word (frameNo (vm.phys.word d j)) k = vm.phys.word
          (frameNo (vm.phys.word d j)) k) ∧
      ∀ q < 1023 * 1024, mapping vm'.phys d q = mapping vm.phys d q := by
  obtain ⟨_, hfd, hftable⟩ := h.fresh ht.alloc
  have hdir : ∀ j < 1024, j ≠ i → vm'.phys.word d j = vm.phys.word d j := fun j hj hji =>
    ht.installed.other d j hj hfd.symm (.inr hji)
  have htable : ∀ j < 1023, present (vm.phys.word d j) = true → ∀ k < 1024,
      vm'.phys.word (frameNo (vm.phys.word d j)) k = vm.phys.word (frameNo (vm.phys.word d j)) k :=
    fun j hj hpresent k hk => ht.installed.other _ k hk (hftable j (by omega) hpresent)
      (.inl (h.table_ne j hj hpresent))
  have hself := hdir 1023 (by decide) (by omega)
  refine ⟨⟨⟨ht.cr3.trans h.cr3, ht.curPdir.trans h.curPdir, hself ▸ h.self_present,
    hself ▸ h.self_frame⟩, ?_, ?_, ht.maxFrames ▸ h.maxFrames⟩, hdir, htable, ?_⟩
  · intro j hj hpresent
    by_cases hji : j = i
    · rw [hji, ht.frame]
      exact hfd
    · rw [hdir j (by omega) hji] at hpresent ⊢
      exact h.table_ne j hj hpresent
  · intro j hj hpresent
    by_cases hji : j = i
    · rw [hji, ht.frame, ht.bit, beq_self_eq_true, Bool.or_true]
    · rw [hdir j hj hji] at hpresent ⊢
      rw [ht.bit, h.used j hj hpresent, Bool.true_or]
  · intro q hq
    by_cases hqi : q / 1024 = i
    · have hbefore : mapping vm.phys d q = none := by
        rw [mapping_eq_none_iff, hqi, habsent]
        simp
      rw [hbefore, mapping_eq_none_iff, leaf, hqi, ht.frame, ht.installed.cleared _ (by omega)]
      exact fun _ => rfl
    · exact mapping_congr (hdir _ (by omega) hqi) fun hpresent =>
        htable _ (by omega) hpresent _ (by omega)

theorem Space.takes_table (h : vm.Space d) (hi : i < 1023)
    (habsent : present (vm.phys.word d i) = false) (ht : vm.Takes vm' d i f) :
    vm'.Space d := by
  obtain ⟨_, _, hftable⟩ := h.linked.fresh ht.alloc
  obtain ⟨hlinked, hdir, htable, -⟩ := h.linked.takes_table hi habsent ht
  refine ⟨hlinked.toRecursive, hlinked.table_ne, hlinked.used, ?_, ?_, hlinked.maxFrames⟩
  · intro j hj
    by_cases hji : j = i
    · rw [hji]
      exact ht.size (h.small i hi)
    · rw [hdir j (by omega) hji]
      exact h.small j hj
  · intro j hj k hk hjk hpj hpk hframe l hl
    by_cases hji : j = i
    · subst hji
      rw [hdir k (by omega) (Ne.symm hjk)] at hpk hframe
      rw [ht.frame] at hframe
      exact absurd hframe.symm (hftable k (by omega) hpk)
    · rw [hdir j (by omega) hji] at hpj hframe ⊢
      by_cases hki : k = i
      · rw [hki, ht.frame] at hframe
        exact absurd hframe (hftable j (by omega) hpj)
      · rw [hdir k (by omega) hki] at hpk hframe
        rw [htable j hj hpj l hl]
        exact h.shared j hj k hk hjk hpj hpk hframe l hl

/-- A table with a page that is not mapped belongs to one slot. -/
theorem Space.own (h : vm.Space d) (hi : i < 1023) (hj : j < 1024)
    (hpresent : present (vm.phys.word d i) = true)
    (habsent : present (vm.phys.word (frameNo (vm.phys.word d i)) j) = false) :
    ∀ k < 1024, k ≠ i → present (vm.phys.word d k) = true →
      frameNo (vm.phys.word d k) ≠ frameNo (vm.phys.word d i) := by
  intro k hk hki hpk hframe
  by_cases hself : k = 1023
  · rw [hself, h.self_frame] at hframe
    exact h.table_ne i hi hpresent hframe.symm
  · rw [h.shared i hi k (by omega) (Ne.symm hki) hpresent hpk hframe.symm j hj] at habsent
    cases habsent

theorem Space.takes_page (h : vm.Space d) (hp : p < 1023 * 1024)
    (htable : present (vm.phys.word d (p / 1024)) = true)
    (hleaf : present (leaf vm.phys d p) = false)
    (ht : vm.Takes vm' (frameNo (vm.phys.word d (p / 1024))) (p % 1024) f) :
    vm'.Space d ∧ (∀ j < 1024, vm'.phys.word d j = vm.phys.word d j) ∧
      (∀ q < 1023 * 1024, q ≠ p → mapping vm'.phys d q = mapping vm.phys d q) ∧
      ∃ raw, mapping vm'.phys d p = some raw ∧ frameNo raw = f := by
  obtain ⟨_, hfd, hftable⟩ := h.linked.fresh ht.alloc
  have hslot : p / 1024 < 1023 := by omega
  have hown := h.own hslot (mod_lt p (by decide)) htable hleaf
  have hne := h.table_ne _ hslot htable
  have hdir : ∀ j < 1024, vm'.phys.word d j = vm.phys.word d j := fun j hj =>
    ht.installed.other d j hj hfd.symm (.inl hne.symm)
  have hother : ∀ j < 1024, present (vm.phys.word d j) = true → ∀ k < 1024,
      (j ≠ p / 1024 ∨ k ≠ p % 1024) →
      vm'.phys.word (frameNo (vm.phys.word d j)) k =
        vm.phys.word (frameNo (vm.phys.word d j)) k := by
    intro j hj hpresent k hk hjk
    refine ht.installed.other _ k hk (hftable j hj hpresent) ?_
    by_cases hslots : j = p / 1024
    · omega
    · exact .inl (hown j hj hslots hpresent)
  have hsame : ∀ q < 1023 * 1024, q ≠ p → mapping vm'.phys d q = mapping vm.phys d q := by
    intro q hq hqp
    refine mapping_congr (hdir _ (by omega)) fun hpresent =>
      hother _ (by omega) hpresent _ (by omega) ?_
    omega
  obtain ⟨raw, hraw, hframe⟩ : ∃ raw, mapping vm'.phys d p = some raw ∧ frameNo raw = f := by
    refine ⟨_, mapping_eq_some_iff.mpr ⟨?_, ht.isPresent, ?_⟩, ht.frame⟩
    · rw [hdir _ (by omega)]
      exact htable
    · rw [leaf, hdir _ (by omega)]
  have hlinked := h.linked.congr ht.cr3 ht.curPdir hdir
    (fun g hg => by rw [ht.bit, hg, Bool.true_or]) ht.maxFrames
  refine ⟨h.of_mono hlinked (fun i hi => hdir i (by omega)) fun q hq hbefore => ?_, hdir, hsame,
    raw, hraw, hframe⟩
  by_cases hqp : q = p
  · rw [hqp, hraw]
    exact some_ne_none raw
  · rwa [hsame q hq hqp]

/-- Slot `i` is there already or gets an empty table. -/
def TableStep (vm vm' : Vm) (d i : Nat) : Prop :=
  present (vm.phys.word d i) = true ∧ vm' = vm ∨
    present (vm.phys.word d i) = false ∧ ∃ f, vm.Takes vm' d i f

theorem TableStep.present_after (h : vm.TableStep vm' d i) :
    present (vm'.phys.word d i) = true := by
  obtain ⟨hpresent, rfl⟩ | ⟨_, f, ht⟩ := h
  · exact hpresent
  · exact ht.isPresent

theorem Linked.tableStep (h : vm.Linked d) (hi : i < 1023) (hstep : vm.TableStep vm' d i) :
    vm'.Linked d ∧ (∀ j < 1024, present (vm.phys.word d j) = true ∨ j ≠ i →
        vm'.phys.word d j = vm.phys.word d j) ∧
      ∀ q < 1023 * 1024, mapping vm'.phys d q = mapping vm.phys d q := by
  obtain ⟨_, rfl⟩ | ⟨habsent, f, ht⟩ := hstep
  · exact ⟨h, fun _ _ _ => rfl, fun _ _ => rfl⟩
  · obtain ⟨hlinked, hdir, -, hmapping⟩ := h.takes_table hi habsent ht
    refine ⟨hlinked, fun j hj hcases => hdir j hj ?_, hmapping⟩
    rintro rfl
    obtain hpresent | hne := hcases
    · rw [habsent] at hpresent
      cases hpresent
    · exact hne rfl

theorem Space.tableStep (h : vm.Space d) (hi : i < 1023) (hstep : vm.TableStep vm' d i) :
    vm'.Space d := by
  obtain ⟨_, rfl⟩ | ⟨habsent, f, ht⟩ := hstep
  · exact h
  · exact h.takes_table hi habsent ht

/-- `vmm_create_page` of a page that is not mapped: the table, then the page. -/
theorem Space.createPage_steps (h : vm.Space d) (hp : p < 1023 * 1024)
    (hflags : present flags = true) (hlarge : large flags = false)
    (hunmapped : mapping vm.phys d p = none)
    (hrun : vm.createPage (p * pageSize) flags = some (vm', ret)) :
    ∃ vm₁ f, vm.TableStep vm₁ d (p / 1024) ∧ present (leaf vm₁.phys d p) = false ∧
      vm₁.Takes vm' (frameNo (vm₁.phys.word d (p / 1024))) (p % 1024) f := by
  have hslot : p / 1024 < 1023 := by omega
  have haddr : p * pageSize / pageSize * pageSize = p * pageSize := by
    rw [Nat.mul_div_cancel p (by decide)]
  have hindex := pdeIndex_page (show p < 2 ^ 20 by omega)
  simp only [createPage, haddr, hindex, pteIndex_page, bind_eq_bind, h.translate_directory (show p / 1024 < 1024 by omega),
    bind_some] at hrun
  obtain ⟨vm₁, hensure, hrun⟩ := bind_eq_some_iff.mp hrun
  have hstep : vm.TableStep vm₁ d (p / 1024) :=
    h.linked.ensureTable_cases hp hflags (fun _ => hlarge) hensure
  have hspace := h.tableStep hslot hstep
  obtain ⟨_, _, hmapping⟩ := h.linked.tableStep hslot hstep
  have htable := hstep.present_after
  have hleaf := mapping_eq_none_iff.mp ((hmapping p hp).trans hunmapped) htable
  rw [← hindex] at htable
  have hpte := fun j hj => hspace.translate_table (j := j) hj htable
  rw [hindex] at hpte htable
  have hsmall : ¬large (vm₁.phys.load32 (Bytes.wordAddr d (p / 1024))) = true := by
    rw [← Bytes.word, hspace.small _ hslot]
    simp
  rw [hspace.translate_directory (show p / 1024 < 1024 by omega), bind_some, if_neg hsmall,
    hpte _ (mod_lt p (by decide)), bind_some] at hrun
  obtain ⟨vm₂, hpage, hrun⟩ := bind_eq_some_iff.mp hrun
  obtain ⟨f, ht⟩ := hspace.ensurePage_cases hp hflags hlarge htable hleaf hpage
  obtain ⟨hspace₂, hdir₂, _⟩ := hspace.takes_page hp htable hleaf ht
  have htable₂ : present (vm₂.phys.word d (pdeIndex (p * pageSize))) = true := by
    rw [hindex, hdir₂ _ (by omega)]
    exact htable
  rw [hspace₂.translate_table (mod_lt p (by decide)) htable₂, bind_some, hindex,
    hdir₂ _ (by omega)] at hrun
  cases hrun
  refine ⟨vm₁, f, hstep, hleaf, ht.pageSetFlags (mod_lt p (by decide)) ?_ hlarge⟩
  exact ((hspace.linked.fresh ht.alloc).2.2 _ (by omega) htable).symm

/-- Whatever makes the table, `vmm_map_page` then writes the entry of the page. -/
theorem Recursive.mapPage_eq {vm : Vm} {d p physAddr flags : Nat} (h : vm.Recursive d)
    (hp : p < 1023 * 1024)
    (hmade : ∀ vm₁, vm.ensureTable (Bytes.wordAddr d (p / 1024)) (p * pageSize) flags = some vm₁ →
      vm₁.Recursive d ∧ present (vm₁.phys.word d (p / 1024)) = true ∧
        large (vm₁.phys.word d (p / 1024)) = false) :
    (vm.mapPage (p * pageSize) physAddr flags).map (·.1) =
      (vm.ensureTable (Bytes.wordAddr d (p / 1024)) (p * pageSize) flags).map fun vm₁ =>
        { vm₁ with
          pmm := vm₁.pmm.frameSeta physAddr
          phys := vm₁.phys.setWord (frameNo (vm₁.phys.word d (p / 1024))) (p % 1024)
            (newEntry (leaf vm₁.phys d p) (physAddr / 2 ^ 12) flags) } := by
  have haddr : p * pageSize / pageSize * pageSize = p * pageSize := by
    rw [Nat.mul_div_cancel p (by decide)]
  have hpde : entryAddr vm.curPdir (p / 1024) = Bytes.wordAddr d (p / 1024) := by
    rw [h.curPdir]
    rfl
  have hindex := pdeIndex_page (show p < 2 ^ 20 by omega)
  simp only [mapPage, haddr, hindex, pteIndex_page, hpde, bind_eq_bind]
  cases htable : vm.ensureTable (Bytes.wordAddr d (p / 1024)) (p * pageSize) flags with
  | none => rfl
  | some vm₁ =>
    obtain ⟨hrec, hset, hsmall⟩ := hmade vm₁ htable
    have hno : ¬large (vm₁.phys.load32 (Bytes.wordAddr d (p / 1024))) = true := by
      rw [← Bytes.word, hsmall]
      exact false_ne_true
    have htranslate := hrec.translate_table (mod_lt p (by decide)) (hindex.symm ▸ hset)
    rw [hindex] at htranslate
    rw [bind_some, if_neg hno, htranslate, bind_some, pageMapAddr_eq]
    rfl

end Hos.Vm
