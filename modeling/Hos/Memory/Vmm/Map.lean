import Mathlib.Data.Set.Card
import Hos.Memory.Pmm.Search
import Hos.Memory.Mmu.Directory
import Hos.Memory.Vmm.Inverse

/-!
# Mapping a range of addresses

`vmm_map_range` writes the entry of every page that the range covers, and makes the
tables that are missing. Two pages may have one entry: the boot code enters the
tables of the first eight megabytes twice, so that a page of the identity mapping
and its copy in the kernel half change together. What a call does to the
translation of a page is therefore said in terms of the pages that have its entry.

The start of a range is rounded down and its end is rounded up, also when the range
is empty: an empty range that starts inside a page covers that page.
-/

namespace Hos

open Option Nat Finset Set

namespace Pmm

/-- At least `n` single frames outside of `A` can be allocated. -/
structure Supplies (p : Pmm) (n : Nat) (A : Set Nat) : Prop where
  zero : p.bit 0 = true
  lowest : p.lowestAvailable = 0
  count : p.usedFrames + n ≤ p.maxFrames
  frames : ∃ S : Finset Nat, n ≤ S.card ∧ ∀ f ∈ S, f ∉ A ∧ p.bit f = false ∧
    f < p.maxFrames / 32 * 32

namespace Supplies

variable {p : Pmm} {n : Nat} {A : Set Nat}

theorem mono {m : Nat} (h : p.Supplies n A) (hm : m ≤ n) : p.Supplies m A := by
  obtain ⟨S, hcard, hS⟩ := h.frames
  have hcount := h.count
  exact ⟨h.zero, h.lowest, by omega, S, Nat.le_trans hm hcard, hS⟩

theorem allocateFrame (h : p.Supplies (n + 1) A) (hmax : p.maxFrames ≤ 2 ^ 20) :
    ∃ f p', p.allocateFrame = some (f, p') ∧ p'.Supplies n A := by
  obtain ⟨S, hcard, hS⟩ := h.frames
  have hcount := h.count
  obtain ⟨f, hf⟩ : S.Nonempty := card_pos.mp (by omega)
  obtain ⟨-, hall⟩ | ⟨hne, hlt, hclear, -⟩ := firstFreeFrame_lowest h.zero h.lowest
  · obtain ⟨-, hfree, hbelow⟩ := hS f hf
    exact absurd ((hall f hbelow).symm.trans hfree) (by decide)
  · have halloc : p.allocateFrame = some (p.firstFreeFrame, p.markFrameUsed p.firstFreeFrame) := by
      rw [Pmm.allocateFrame, if_neg (by omega)]
      exact if_neg hne
    refine ⟨_, _, halloc, ?_, h.lowest, ?_, S.erase p.firstFreeFrame, ?_, fun g hg => ?_⟩
    · rw [bit_markFrameUsed, h.zero, Bool.true_or]
    · rw [usedFrames_markFrameUsed, maxFrames_markFrameUsed, u32_of_lt (by omega)]
      omega
    · have herase : S.card - 1 ≤ (S.erase p.firstFreeFrame).card := pred_card_le_card_erase
      omega
    · obtain ⟨hother, hmem⟩ := mem_erase.mp hg
      obtain ⟨houtside, hfree, hbelow⟩ := hS g hmem
      refine ⟨houtside, ?_, hbelow⟩
      rw [bit_markFrameUsed, hfree, beq_false_of_ne hother]
      rfl

/-- Marking a frame of `A`. -/
theorem frameSeta {a : Nat} (h : p.Supplies n A) (ha : a / 2 ^ frameShift ∈ A) :
    (p.frameSeta a).Supplies n A := by
  obtain ⟨S, hcard, hS⟩ := h.frames
  refine ⟨?_, h.lowest, h.count, S, hcard, fun f hf => ?_⟩
  · rw [Pmm.frameSeta, bit_frameSet, h.zero, Bool.true_or]
  · obtain ⟨houtside, hfree, hbelow⟩ := hS f hf
    have hne : f ≠ a / 2 ^ frameShift := by
      rintro rfl
      exact houtside ha
    refine ⟨houtside, ?_, hbelow⟩
    rw [Pmm.frameSeta, bit_frameSet, hfree, beq_false_of_ne hne]
    rfl

end Supplies

end Pmm

namespace Vm

/-- Two pages have one entry: they are the same page, or their slots have one table. -/
def SameEntry (phys : Bytes) (d q p : Nat) : Prop :=
  q % 1024 = p % 1024 ∧ (q / 1024 = p / 1024 ∨
    present (phys.word d (q / 1024)) = true ∧ present (phys.word d (p / 1024)) = true ∧
      frameNo (phys.word d (q / 1024)) = frameNo (phys.word d (p / 1024)))

/-- The slots of `S` that have no table. -/
def missing (phys : Bytes) (d : Nat) (S : Set Nat) : Set Nat :=
  {i | i ∈ S ∧ present (phys.word d i) = false}

section

variable {vm vm' : Vm} {phys : Bytes} {d e f i p q : Nat}

theorem SameEntry.refl (phys : Bytes) (d p : Nat) : SameEntry phys d p p := ⟨rfl, .inl rfl⟩

theorem SameEntry.symm (h : SameEntry phys d q p) : SameEntry phys d p q := by
  obtain ⟨hindex, hslot | ⟨hq, hp, htable⟩⟩ := h
  · exact ⟨hindex.symm, .inl hslot.symm⟩
  · exact ⟨hindex.symm, .inr ⟨hp, hq, htable.symm⟩⟩

/-- Pages with one entry are mapped alike. -/
theorem SameEntry.mapping_eq (h : SameEntry phys d q p) : mapping phys d q = mapping phys d p := by
  obtain ⟨hindex, hslot | ⟨hq, hp, htable⟩⟩ := h
  · rw [mapping, mapping, leaf, leaf, hslot, hindex]
  · rw [mapping, mapping, leaf, leaf, hq, hp, htable, hindex]

theorem SameEntry.congr {phys' : Bytes} (hq : phys'.word d (q / 1024) = phys.word d (q / 1024))
    (hp : phys'.word d (p / 1024) = phys.word d (p / 1024)) :
    SameEntry phys' d q p ↔ SameEntry phys d q p := by
  rw [SameEntry, SameEntry, hq, hp]

/-- A page that is not mapped has its entry for itself. -/
theorem Space.eq_of_sameEntry (h : vm.Space d) (hq : q < 1023 * 1024) (hp : p < 1023 * 1024)
    (hnone : mapping vm.phys d p = none) (hsame : SameEntry vm.phys d q p) : q = p := by
  obtain ⟨hindex, hslot | ⟨hqset, hpset, htable⟩⟩ := hsame
  · omega
  · by_contra hne
    have hfull := h.shared (p / 1024) (by omega) (q / 1024) (by omega) (by omega) hpset
      hqset htable.symm (p % 1024) (mod_lt p (by decide))
    have habsent := mapping_eq_none_iff.mp hnone hpset
    cases hfull.symm.trans habsent

/-- A new table belongs to one slot. -/
theorem Linked.sameEntry_table (h : vm.Linked d) (hi : i < 1023)
    (habsent : present (vm.phys.word d i) = false) (ht : vm.Takes vm' d i f) (hq : q < 1023 * 1024)
    (hp : p < 1023 * 1024) : SameEntry vm'.phys d q p ↔ SameEntry vm.phys d q p := by
  obtain ⟨-, -, hftable⟩ := h.fresh ht.alloc
  obtain ⟨-, hdir, -, -⟩ := h.takes_table hi habsent ht
  -- a page of slot `i` shares its entry with no page of another slot, before and after
  have hnew : ∀ {a b : Nat}, a < 1023 * 1024 → b < 1023 * 1024 → a / 1024 = i → b / 1024 ≠ i →
      ¬SameEntry vm'.phys d a b ∧ ¬SameEntry vm.phys d a b := by
    intro a b ha hb hai hbi
    constructor
    · rintro ⟨-, hslot | ⟨-, hpresent, htable⟩⟩
      · omega
      · rw [hai, ht.frame, hdir _ (by omega) hbi] at htable
        rw [hdir _ (by omega) hbi] at hpresent
        exact hftable _ (by omega) hpresent htable.symm
    · rintro ⟨-, hslot | ⟨hpresent, -, -⟩⟩
      · omega
      · rw [hai, habsent] at hpresent
        cases hpresent
  by_cases hqi : q / 1024 = i
  · by_cases hpi : p / 1024 = i
    · exact and_congr_right fun _ => iff_of_true (.inl (hqi.trans hpi.symm))
        (.inl (hqi.trans hpi.symm))
    · obtain ⟨hafter, hbefore⟩ := hnew hq hp hqi hpi
      exact iff_of_false hafter hbefore
  · by_cases hpi : p / 1024 = i
    · obtain ⟨hafter, hbefore⟩ := hnew hp hq hpi hqi
      exact iff_of_false (fun hsame => hafter hsame.symm) fun hsame => hbefore hsame.symm
    · exact SameEntry.congr (hdir _ (by omega) hqi) (hdir _ (by omega) hpi)

theorem Linked.sameEntry_step (h : vm.Linked d) (hi : i < 1023) (hstep : vm.TableStep vm' d i)
    (hq : q < 1023 * 1024) (hp : p < 1023 * 1024) : SameEntry vm'.phys d q p ↔
      SameEntry vm.phys d q p := by
  obtain ⟨-, rfl⟩ | ⟨habsent, f, ht⟩ := hstep
  · rfl
  · exact h.sameEntry_table hi habsent ht hq hp

/-- Writing the entry of page `p` changes the pages that have this entry. -/
theorem Linked.setLeaf (h : vm.Linked d) (hp : p < 1023 * 1024)
    (htable : present (vm.phys.word d (p / 1024)) = true) (he : e < 2 ^ 32) {phys : Bytes}
    (hphys : phys = vm.phys.setWord (frameNo (vm.phys.word d (p / 1024))) (p % 1024) e) :
    (∀ i < 1024, phys.word d i = vm.phys.word d i) ∧
      (∀ q < 1023 * 1024, SameEntry vm.phys d q p → mapping phys d q = if present e
        then some e else none) ∧
      ∀ q < 1023 * 1024, ¬SameEntry vm.phys d q p → mapping phys d q = mapping vm.phys d q := by
  have hne := h.table_ne _ (by omega) htable
  have hmod : p % 1024 < 1024 := mod_lt p (by decide)
  have hdir : ∀ i < 1024, phys.word d i = vm.phys.word d i := fun i hi => by
    rw [hphys, Bytes.word_setWord_of_ne hmod hi (.inl hne.symm)]
  have hself : mapping phys d p = if present e then some e else none := by
    rw [mapping, leaf, hdir _ (by omega), hphys, Bytes.word_setWord_self, mod_eq_of_lt he, htable,
      Bool.true_and]
  refine ⟨hdir, fun q hq hsame => ?_, fun q hq hother => ?_⟩
  · have hafter : SameEntry phys d q p :=
      (SameEntry.congr (hdir _ (by omega)) (hdir _ (by omega))).mpr hsame
    exact hafter.mapping_eq.trans hself
  · refine mapping_congr (hdir _ (by omega)) fun hpresent => ?_
    rw [hphys]
    refine Bytes.word_setWord_of_ne hmod (by omega) ?_
    by_contra hsame
    rw [not_or, not_not, not_not] at hsame
    exact hother ⟨hsame.2, .inr ⟨hpresent, htable, hsame.1⟩⟩

end

/-- What mapping page `p` to a frame leaves. -/
structure MapsPage (vm vm' : Vm) (d p frame flags : Nat) : Prop where
  linked : vm'.Linked d
  directory : ∀ i < 1024, present (vm.phys.word d i) = true ∨ i ≠ p / 1024 →
    vm'.phys.word d i = vm.phys.word d i
  table : present (vm'.phys.word d (p / 1024)) = true
  small : large (vm'.phys.word d (p / 1024)) = false
  same : ∀ q < 1023 * 1024, ∀ r < 1023 * 1024, SameEntry vm'.phys d q r ↔ SameEntry vm.phys d q r
  entry : ∃ old, ∀ q < 1023 * 1024, SameEntry vm.phys d q p →
    (∀ raw, mapping vm.phys d q = some raw → old = raw) ∧
      mapping vm'.phys d q = some (newEntry old frame flags)
  other : ∀ q < 1023 * 1024, ¬SameEntry vm.phys d q p → mapping vm'.phys d q = mapping vm.phys d q

/-- The directory entries that a call with these flags meets are no large pages, also
when they are made by the call. -/
def SmallSlots (phys : Bytes) (d flags : Nat) (S : Set Nat) : Prop :=
  ∀ i ∈ S, large (phys.word d i) = false ∧ (present (phys.word d i) = false → large flags = false)

section

variable {vm vm₁ vm' : Vm} {d p physAddr flags : Nat}

theorem TableStep.small {i : Nat} (h : vm.TableStep vm' d i)
    (hsmall : large (vm.phys.word d i) = false) :
    large (vm'.phys.word d i) = false := by
  obtain ⟨-, rfl⟩ | ⟨-, f, ht⟩ := h
  · exact hsmall
  · exact ht.size hsmall

variable (h : vm.Linked d) (hp : p < 1023 * 1024) (hflags : present flags = true)
  (hsmall : SmallSlots vm.phys d flags {p / 1024})
include h hp hflags hsmall

/-- `vmm_map_page` makes the table and then writes the entry of the page. -/
theorem Linked.mapPage_eq :
    (vm.mapPage (p * pageSize) physAddr flags).map (·.1) =
      (vm.ensureTable (Bytes.wordAddr d (p / 1024)) (p * pageSize) flags).map fun vm₁ =>
        { vm₁ with
          pmm := vm₁.pmm.frameSeta physAddr
          phys := vm₁.phys.setWord (frameNo (vm₁.phys.word d (p / 1024))) (p % 1024)
            (newEntry (leaf vm₁.phys d p) (physAddr / 2 ^ 12) flags) } := by
  obtain ⟨hslot, hlarge⟩ := hsmall _ rfl
  refine h.toRecursive.mapPage_eq hp fun vm₁ htable => ?_
  have hstep : vm.TableStep vm₁ d (p / 1024) := h.ensureTable_cases hp hflags hlarge htable
  obtain ⟨hlinked, -⟩ := h.tableStep (by omega) hstep
  exact ⟨hlinked.toRecursive, hstep.present_after, hstep.small hslot⟩

theorem Linked.mapsPage (hstep : vm.TableStep vm₁ d (p / 1024)) (frame : Nat)
    (pmm : Pmm) (hbits : ∀ g, vm₁.pmm.bit g = true → pmm.bit g = true)
    (hmax : pmm.maxFrames = vm₁.pmm.maxFrames) :
    MapsPage vm { vm₁ with
      pmm := pmm
      phys := vm₁.phys.setWord (frameNo (vm₁.phys.word d (p / 1024))) (p % 1024)
        (newEntry (leaf vm₁.phys d p) frame flags) } d p frame flags := by
  obtain ⟨hslot, hlarge⟩ := hsmall _ rfl
  obtain ⟨hlinked, hdir, hmapping⟩ := h.tableStep (by omega) hstep
  have hsame : ∀ q < 1023 * 1024, ∀ r < 1023 * 1024, SameEntry vm₁.phys d q r ↔
      SameEntry vm.phys d q r :=
    fun q hq r hr => h.sameEntry_step (by omega) hstep hq hr
  obtain ⟨hwords, hentry, hother⟩ := hlinked.setLeaf hp hstep.present_after newEntry_lt rfl
  refine ⟨hlinked.congr rfl rfl hwords hbits hmax, ?_, ?_, ?_, ?_,
    ⟨leaf vm₁.phys d p, fun q hq hqp => ⟨fun raw hraw => ?_, ?_⟩⟩, fun q hq hqp => ?_⟩
  · intro i hi hcases
    exact (hwords i hi).trans (hdir i hi hcases)
  · exact (congrArg present (hwords _ (by omega))).trans hstep.present_after
  · exact (congrArg large (hwords _ (by omega))).trans (hstep.small hslot)
  · intro q hq r hr
    exact (SameEntry.congr (hwords _ (by omega)) (hwords _ (by omega))).trans (hsame q hq r hr)
  · have hp' : mapping vm₁.phys d p = some raw := by
      rw [← ((hsame q hq p hp).mpr hqp).mapping_eq, hmapping q hq, hraw]
    exact (mapping_eq_some_iff.mp hp').2.2
  · exact (hentry q hq ((hsame q hq p hp).mpr hqp)).trans (if_pos (present_newEntry hflags))
  · exact (hother q hq (mt (hsame q hq p hp).mp hqp)).trans (hmapping q hq)

end

/-- What mapping the pages `ps` leaves: a page that has the entry of one of them is
mapped to the frame of one of them, and all others are as before. -/
structure MapsPages (vm vm' : Vm) (d : Nat) (frame : Nat → Nat) (ps : List Nat) : Prop where
  linked : vm'.Linked d
  directory : ∀ i < 1024, present (vm.phys.word d i) = true ∨ (∀ p ∈ ps, i ≠ p / 1024) →
    vm'.phys.word d i = vm.phys.word d i
  same : ∀ q < 1023 * 1024, ∀ r < 1023 * 1024, SameEntry vm'.phys d q r ↔ SameEntry vm.phys d q r
  pages : ∀ q < 1023 * 1024,
    (∃ p ∈ ps, SameEntry vm.phys d q p ∧ ∃ raw, mapping vm'.phys d q = some raw ∧
      frameNo raw = frame p) ∨
      (∀ p ∈ ps, ¬SameEntry vm.phys d q p) ∧ mapping vm'.phys d q = mapping vm.phys d q

section

variable {vm vm₁ vm' : Vm} {d p flags : Nat} {S A : Set Nat} {ps : List Nat} {addr : Nat → Nat}

/-- The body of the loop, with the physical address of each page. -/
def mapAt (addr : Nat → Nat) (flags : Nat) (vm : Vm) (p : Nat) : Option Vm :=
  (vm.mapPage (p * pageSize) (addr p) flags).map (·.1)

theorem MapsPage.smallSlots {frame : Nat} (h : MapsPage vm vm' d p frame flags)
    (hS : ∀ i ∈ S, i < 1023) (hsmall : SmallSlots vm.phys d flags S) :
    SmallSlots vm'.phys d flags S := by
  intro i hi
  have hlt := hS i hi
  by_cases hslot : i = p / 1024
  · subst hslot
    refine ⟨h.small, fun habsent => ?_⟩
    rw [h.table] at habsent
    cases habsent
  · rw [h.directory i (by omega) (.inr hslot)]
    exact hsmall i hi

section

variable (h : vm.Linked d) (hS : ∀ i ∈ S, i < 1023) (hsmall : SmallSlots vm.phys d flags S)
  (hflags : present flags = true)
include h hS hsmall hflags

theorem Linked.mapAt_step (hp : p / 1024 ∈ S) (hrun : vm.mapAt addr flags p = some vm') :
    ∃ vm₁, vm.TableStep vm₁ d (p / 1024) ∧ vm'.pmm = vm₁.pmm.frameSeta (addr p) ∧
      MapsPage vm vm' d p (addr p / 2 ^ 12) flags := by
  have hslot := hS _ hp
  have hlt : p < 1023 * 1024 := by omega
  have hone : SmallSlots vm.phys d flags {p / 1024} := fun i hi => hsmall i (hi ▸ hp)
  rw [mapAt, h.mapPage_eq hlt hflags hone] at hrun
  obtain ⟨vm₁, htable, rfl⟩ := map_eq_some_iff.mp hrun
  have hstep : vm.TableStep vm₁ d (p / 1024) := h.ensureTable_cases hlt hflags (hone _ rfl).2 htable
  refine ⟨vm₁, hstep, rfl, h.mapsPage hlt hflags hone hstep _ _ (fun g hg => ?_) rfl⟩
  rw [Pmm.frameSeta, Pmm.bit_frameSet, hg, Bool.true_or]

theorem Linked.mapPages (haddr : ∀ p, addr p < 2 ^ 32) (hps : ∀ p ∈ ps, p / 1024 ∈ S)
    (hrun : ps.foldlM (mapAt addr flags) vm = some vm') :
    MapsPages vm vm' d (fun p => addr p / 2 ^ 12) ps := by
  induction ps generalizing vm with
  | nil =>
    cases hrun
    exact ⟨h, fun _ _ _ => rfl, fun _ _ _ _ => Iff.rfl,
      fun q _ => .inr ⟨fun p hp => absurd hp List.not_mem_nil, rfl⟩⟩
  | cons p ps ih =>
    rw [List.foldlM_cons, bind_eq_bind, bind_eq_some_iff] at hrun
    obtain ⟨vm₁, hfirst, hrest⟩ := hrun
    have hp := hps p List.mem_cons_self
    obtain ⟨-, -, -, hpage⟩ := h.mapAt_step hS hsmall hflags hp hfirst
    obtain ⟨hlinked, hdir, hsame, hpages⟩ := ih hpage.linked (hpage.smallSlots hS hsmall)
      (fun q hq => hps q (List.mem_cons_of_mem p hq)) hrest
    have hlt : ∀ r ∈ ps, r < 1023 * 1024 := fun r hr => by
      have hslot := hS _ (hps r (List.mem_cons_of_mem p hr))
      omega
    refine ⟨hlinked, fun i hi hcases => ?_,
      fun q hq r hr => (hsame q hq r hr).trans (hpage.same q hq r hr), fun q hq => ?_⟩
    · have hfirst := hpage.directory i hi (hcases.imp_right fun hnone => hnone p List.mem_cons_self)
      refine (hdir i hi (hcases.imp (fun hset => ?_) fun hnone r hr => ?_)).trans hfirst
      · rw [hfirst]
        exact hset
      · exact hnone r (List.mem_cons_of_mem p hr)
    obtain ⟨r, hr, hqr, hraw⟩ | ⟨hnone, hkept⟩ := hpages q hq
    · exact .inl ⟨r, List.mem_cons_of_mem p hr, (hpage.same q hq r (hlt r hr)).mp hqr, hraw⟩
    · by_cases hqp : SameEntry vm.phys d q p
      · obtain ⟨old, hold⟩ := hpage.entry
        have hframe := haddr p
        exact .inl ⟨p, List.mem_cons_self, hqp, _, hkept.trans (hold q hq hqp).2,
          frameNo_newEntry (by omega)⟩
      · refine .inr ⟨fun r hr => ?_, hkept.trans (hpage.other q hq hqp)⟩
        obtain rfl | hmem := List.mem_cons.mp hr
        · exact hqp
        · exact mt (hpage.same q hq r (hlt r hmem)).mpr (hnone r hmem)

end

/-- Making a table takes one frame and one slot off the list of missing ones. -/
theorem TableStep.supplies {i : Nat} (h : vm.TableStep vm₁ d i) (hlinked : vm.Linked d)
    (hS : ∀ i ∈ S, i < 1023) (hi : i ∈ S) (hdir : ∀ j ∈ S, j ≠ i →
      vm'.phys.word d j = vm.phys.word d j)
    (hpresent : present (vm.phys.word d i) = true → vm'.phys.word d i = vm.phys.word d i)
    (htable : present (vm'.phys.word d i) = true)
    (hsupply : vm.pmm.Supplies (missing vm.phys d S).ncard A) :
    vm₁.pmm.Supplies (missing vm'.phys d S).ncard A := by
  obtain ⟨hthere, rfl⟩ | ⟨habsent, f, ht⟩ := h
  · have heq : missing vm'.phys d S = missing vm₁.phys d S := by
      ext j
      refine and_congr_right fun hj => ?_
      by_cases hji : j = i
      · rw [hji, hpresent hthere]
      · rw [hdir j hj hji]
    rwa [heq]
  · have hfinite : (missing vm.phys d S).Finite := (finite_lt_nat 1023).subset fun j hj => hS j hj.1
    have hmem : i ∈ missing vm.phys d S := ⟨hi, habsent⟩
    have heq : missing vm'.phys d S = missing vm.phys d S \ {i} := by
      ext j
      by_cases hji : j = i
      · subst hji
        simp [missing, htable]
      · simp only [missing, mem_ofPred_eq, mem_sdiff, mem_singleton_iff, hji,
          not_false_eq_true, and_true]
        exact and_congr_right fun hj => by rw [hdir j hj hji]
    have hcard := ncard_sdiff_singleton_add_one hmem hfinite
    rw [← hcard] at hsupply
    obtain ⟨g, pmm, halloc, hrest⟩ := hsupply.allocateFrame hlinked.maxFrames
    rw [ht.alloc] at halloc
    cases halloc
    rwa [heq]

/-- The loop gets through when there are enough frames for the missing tables. -/
theorem Linked.mapPages_isSome (h : vm.Linked d) (hS : ∀ i ∈ S, i < 1023)
    (hsmall : SmallSlots vm.phys d flags S) (hflags : present flags = true)
    (hps : ∀ p ∈ ps, p / 1024 ∈ S) (hA : ∀ p ∈ ps, addr p / 2 ^ 12 ∈ A)
    (hsupply : vm.pmm.Supplies (missing vm.phys d S).ncard A) :
    ∃ vm', ps.foldlM (mapAt addr flags) vm = some vm' := by
  induction ps generalizing vm with
  | nil => exact ⟨vm, rfl⟩
  | cons p ps ih =>
    have hp := hps p List.mem_cons_self
    have hslot := hS _ hp
    have hlt : p < 1023 * 1024 := by omega
    have hone : SmallSlots vm.phys d flags {p / 1024} := fun i hi => hsmall i (hi ▸ hp)
    have halloc : present (vm.phys.word d (p / 1024)) = false → ∃ r,
        vm.pmm.allocateFrame = some r := by
      intro habsent
      have hpos : 0 < (missing vm.phys d S).ncard := ncard_pos
        ((finite_lt_nat 1023).subset fun j hj => hS j hj.1) |>.mpr ⟨_, hp, habsent⟩
      obtain ⟨f, pmm, hf, -⟩ := (hsupply.mono hpos).allocateFrame (n := 0) h.maxFrames
      exact ⟨_, hf⟩
    obtain ⟨vm₀, htable⟩ := h.ensureTable_isSome hlt hflags halloc
    have hfirst : ∃ vm₂, vm.mapAt addr flags p = some vm₂ := by
      rw [mapAt, h.mapPage_eq hlt hflags hone, htable]
      simp
    obtain ⟨vm₂, hfirst⟩ := hfirst
    obtain ⟨vm₁, hstep, hpmm, hpage⟩ := h.mapAt_step hS hsmall hflags hp hfirst
    have hsupply' : vm₂.pmm.Supplies (missing vm₂.phys d S).ncard A := by
      rw [hpmm]
      refine Pmm.Supplies.frameSeta (hstep.supplies h hS hp (fun j hj hji => ?_)
        (fun hthere => ?_) hpage.table hsupply) (hA p List.mem_cons_self)
      · exact hpage.directory j (lt_succ_of_lt (hS j hj)) (.inr hji)
      · exact hpage.directory _ (by omega) (.inl hthere)
    obtain ⟨vm', hrest⟩ := ih hpage.linked (hpage.smallSlots hS hsmall)
      (fun q hq => hps q (List.mem_cons_of_mem p hq))
        (fun q hq => hA q (List.mem_cons_of_mem p hq)) hsupply'
    refine ⟨vm', ?_⟩
    rw [List.foldlM_cons, hfirst]
    exact hrest

end

/-- A range has a byte in page `p`. -/
def Overlaps (virtAddr size p : Nat) : Prop :=
  ∃ addr, virtAddr ≤ addr ∧ addr < virtAddr + size ∧ addr / pageSize = p

/-- The frame that `vmm_map_range` maps page `p` to. -/
def target (virtAddr physAddr p : Nat) : Nat :=
  (physAddr / pageSize + (p - virtAddr / pageSize)) % 2 ^ 20

/-- The range is mapped to the physical addresses from `physAddr` on, and no page
outside of it has been changed. -/
structure RangeMapped (vm vm' : Vm) (virtAddr physAddr size : Nat) : Prop where
  range : ∀ k < size, vm'.rGetPhyAddr (virtAddr + k) = some (u32 (physAddr + k))
  other : ∀ addr < 0xFFC00000, ¬Overlaps virtAddr size (addr / pageSize) →
    vm'.translate addr = vm.translate addr

/-- The pages of the range have entries of their own, and a page outside that has the
entry of a page that is written is mapped to the same frame already. -/
structure Mappable (phys : Bytes) (d virtAddr physAddr size : Nat) : Prop where
  own : ∀ q r, Overlaps virtAddr size q → Overlaps virtAddr size r → SameEntry phys d q r → q = r
  kept : ∀ q r, Covered virtAddr size q → r < 1023 * 1024 → ¬Overlaps virtAddr size r →
    SameEntry phys d r q → ∃ raw, mapping phys d r = some raw ∧
      frameNo raw = target virtAddr physAddr q

variable {vm vm' : Vm} {d virtAddr physAddr size flags p q : Nat}

theorem overlaps_iff : Overlaps virtAddr size p ↔ 0 < size ∧ Covered virtAddr size p := by
  rw [Covered, pageSize]
  constructor
  · rintro ⟨addr, hlo, hhi, rfl⟩
    rw [pageSize]
    omega
  · rintro ⟨hsize, hlo, hhi⟩
    refine ⟨max virtAddr (p * pageSize), Nat.le_max_left _ _, ?_, ?_⟩
    · rw [pageSize]
      omega
    · rw [pageSize]
      omega

theorem meets_lt (hrange : virtAddr + size ≤ 0xFFC00000) : ∀ i ∈ {i | Meets virtAddr size i},
    i < 1023 := by
  rintro _ ⟨p, hp, rfl⟩
  have hlt := covered_lt hrange hp
  omega

/-- The physical address that runs along. -/
theorem physAddr_div (hp : virtAddr / pageSize ≤ p) :
    u32 (alignDown physAddr + (p * pageSize - alignDown virtAddr)) / 2 ^ 12 =
      target virtAddr physAddr p := by
  rw [u32, alignDown, alignDown, target, pageSize] at *
  omega

theorem target_injective (hrange : virtAddr + size ≤ 0xFFC00000) (hp : Covered virtAddr size p)
    (hq : Covered virtAddr size q) (h : target virtAddr physAddr p = target virtAddr physAddr q) :
    p = q := by
  have hplt := covered_lt hrange hp
  have hqlt := covered_lt hrange hq
  obtain ⟨hp, -⟩ := hp
  obtain ⟨hq, -⟩ := hq
  rw [target, target] at h
  omega

theorem target_offset {k : Nat} (hoff : virtAddr % pageSize = physAddr % pageSize) :
    target virtAddr physAddr ((virtAddr + k) / pageSize) * pageSize + (virtAddr + k) % pageSize =
      u32 (physAddr + k) := by
  rw [target, u32, pageSize] at *
  omega

theorem mapRange_eq (hrange : virtAddr + size ≤ 0xFFC00000) :
    vm.mapRange virtAddr physAddr size flags =
      (List.range' (virtAddr / pageSize) ((virtAddr + size + 4095) / pageSize - virtAddr /
        pageSize)).foldlM
        (mapAt (fun p => u32 (alignDown physAddr + (p * pageSize - alignDown virtAddr))) flags)
          vm := by
  have hend : (virtAddr + size + 4095) / pageSize < 2 ^ 20 := by
    rw [pageSize]
    omega
  rw [Vm.mapRange, u32_of_lt (by omega), alignUp_eq hrange, @alignDown_eq virtAddr,
    pageLoop_eq hend]
  rfl

theorem Recursive.translate_eq {addr : Nat} (h : vm.Recursive d) (haddr : addr < 2 ^ 32) :
    vm.translate addr = (mapping vm.phys d (addr / pageSize)).map fun raw =>
      frameNo raw * pageSize + addr % pageSize := by
  rw [translate, h.cr3, walk_eq haddr]

section

variable (h : vm.Linked d) (hrange : virtAddr + size ≤ 0xFFC00000) (hflags : present flags = true)
  (hsmall : SmallSlots vm.phys d flags {i | Meets virtAddr size i})
include h hrange hflags hsmall

theorem Linked.mapRange (hrun : vm.mapRange virtAddr physAddr size flags = some vm') :
    vm'.Linked d ∧ (∀ i < 1024, present (vm.phys.word d i) = true ∨ ¬Meets virtAddr size i →
        vm'.phys.word d i = vm.phys.word d i) ∧
      (∀ q < 1023 * 1024, ∀ r < 1023 * 1024, SameEntry vm'.phys d q r ↔ SameEntry vm.phys d q r) ∧
      ∀ q < 1023 * 1024, (∃ p, Covered virtAddr size p ∧ SameEntry vm.phys d q p ∧
          ∃ raw, mapping vm'.phys d q = some raw ∧ frameNo raw = target virtAddr physAddr p) ∨
        (∀ p, Covered virtAddr size p → ¬SameEntry vm.phys d q p) ∧
          mapping vm'.phys d q = mapping vm.phys d q := by
  rw [mapRange_eq hrange] at hrun
  obtain ⟨hlinked, hdir, hsame, hpages⟩ :=
    h.mapPages (S := {i | Meets virtAddr size i}) (meets_lt hrange)
    hsmall hflags (fun p => u32_lt _) (fun p hp => ⟨p, mem_covered.mp hp, rfl⟩) hrun
  refine ⟨hlinked, fun i hi hcases => hdir i hi (hcases.imp_right fun hmeets p hp heq => ?_), hsame,
    fun q hq => ?_⟩
  · exact hmeets ⟨p, mem_covered.mp hp, heq.symm⟩
  obtain ⟨p, hp, hqp, raw, hraw, hframe⟩ | ⟨hnone, hkept⟩ := hpages q hq
  · have hcovered := mem_covered.mp hp
    exact .inl ⟨p, hcovered, hqp, raw, hraw, hframe.trans (physAddr_div hcovered.1)⟩
  · exact .inr ⟨fun p hp => hnone p (mem_covered.mpr hp), hkept⟩

/-- `vmm_map_range` returns when there are frames for the missing tables. -/
theorem Linked.mapRange_isSome (hsupply :
    vm.pmm.Supplies (missing vm.phys d {i | Meets virtAddr size i}).ncard
      {g | ∃ p, Covered virtAddr size p ∧ target virtAddr physAddr p = g}) :
    ∃ vm', vm.mapRange virtAddr physAddr size flags = some vm' := by
  rw [mapRange_eq hrange]
  refine h.mapPages_isSome (meets_lt hrange) hsmall hflags (fun p hp => ⟨p, mem_covered.mp hp, rfl⟩)
    (fun p hp => ?_) hsupply
  have hcovered := mem_covered.mp hp
  exact ⟨p, hcovered, (physAddr_div hcovered.1).symm⟩

end

section

variable (hrange : virtAddr + size ≤ 0xFFC00000) (hoff : virtAddr % pageSize = physAddr % pageSize)
  (h : vm.Linked d) (hlinked : vm'.Linked d)
include hrange hoff h hlinked

theorem mappable_of_rangeMapped (hsame : ∀ q < 1023 * 1024, ∀ r < 1023 * 1024,
    SameEntry vm'.phys d q r ↔ SameEntry vm.phys d q r)
    (hwritten : ∀ q, Covered virtAddr size q → ∃ p, Covered virtAddr size p ∧
      ∃ raw, mapping vm'.phys d q = some raw ∧ frameNo raw = target virtAddr physAddr p)
    (hmapped : RangeMapped vm vm' virtAddr physAddr size) :
    Mappable vm.phys d virtAddr physAddr size := by
  have hlt : ∀ {q}, Covered virtAddr size q → q < 1023 * 1024 := covered_lt hrange
  -- every page that is covered ends up at its own frame
  have hframe : ∀ q, Covered virtAddr size q →
      ∃ raw, mapping vm'.phys d q = some raw ∧ frameNo raw = target virtAddr physAddr q := by
    intro q hq
    obtain ⟨p, hp, raw, hraw, hpframe⟩ := hwritten q hq
    refine ⟨raw, hraw, ?_⟩
    by_cases hsize : 0 < size
    · obtain ⟨addr, hlo, hhi, rfl⟩ := overlaps_iff.mpr ⟨hsize, hq⟩
      obtain ⟨k, rfl⟩ := Nat.exists_eq_add_of_le hlo
      have haddr : virtAddr + k < 2 ^ 32 := by omega
      have htranslate := hlinked.translate_eq haddr
      rw [hraw, map_some] at htranslate
      have hphy := hmapped.range k (by omega)
      rw [hlinked.rGetPhyAddr_eq haddr htranslate, some.injEq, ← target_offset hoff, pageSize]
        at hphy
      rw [pageSize]
      omega
    · have hqp : q = p := by
        rw [Covered, pageSize] at hq hp
        omega
      rw [hqp, hpframe]
  refine ⟨fun q r hq hr hqr => ?_, fun q r hq hr hoverlap hrq => ?_⟩
  · have hq := (overlaps_iff.mp hq).2
    have hr := (overlaps_iff.mp hr).2
    obtain ⟨raw, hraw, hqframe⟩ := hframe q hq
    obtain ⟨raw', hraw', hrframe⟩ := hframe r hr
    rw [((hsame q (hlt hq) r (hlt hr)).mpr hqr).mapping_eq, hraw'] at hraw
    cases hraw
    exact target_injective hrange hq hr (hqframe.symm.trans hrframe)
  · obtain ⟨raw, hraw, hqframe⟩ := hframe q hq
    have haddr : r * pageSize < 0xFFC00000 := by
      rw [pageSize]
      omega
    have hdiv : r * pageSize / pageSize = r := Nat.mul_div_cancel r (by decide)
    have hother := hmapped.other (r * pageSize) haddr (hdiv.symm ▸ hoverlap)
    rw [hlinked.translate_eq (by omega), h.translate_eq (by omega), hdiv,
      ((hsame r hr q (hlt hq)).mpr hrq).mapping_eq, hraw, map_some, eq_comm,
      map_eq_some_iff] at hother
    obtain ⟨raw', hraw', heq⟩ := hother
    refine ⟨raw', hraw', ?_⟩
    rw [pageSize] at heq
    omega

theorem rangeMapped_of_mappable (hpages : ∀ q < 1023 * 1024,
    (∃ p, Covered virtAddr size p ∧ SameEntry vm.phys d q p ∧
        ∃ raw, mapping vm'.phys d q = some raw ∧ frameNo raw = target virtAddr physAddr p) ∨
      (∀ p, Covered virtAddr size p → ¬SameEntry vm.phys d q p) ∧
        mapping vm'.phys d q = mapping vm.phys d q)
    (hmappable : Mappable vm.phys d virtAddr physAddr size) :
    RangeMapped vm vm' virtAddr physAddr size := by
  refine ⟨fun k hk => ?_, fun addr haddr hoverlap => ?_⟩
  · have hoverlap : Overlaps virtAddr size ((virtAddr + k) / pageSize) :=
      ⟨virtAddr + k, by omega, by omega, rfl⟩
    obtain ⟨hsize, hcovered⟩ := overlaps_iff.mp hoverlap
    apply hlinked.rGetPhyAddr_eq (by omega)
    rw [hlinked.translate_eq (by omega)]
    obtain ⟨p, hp, hqp, raw, hraw, hframe⟩ | ⟨hnone, -⟩ := hpages _ (covered_lt hrange hcovered)
    · have heq := hmappable.own _ p hoverlap (overlaps_iff.mpr ⟨hsize, hp⟩) hqp
      rw [hraw, map_some, hframe, ← heq, target_offset hoff]
    · exact absurd (SameEntry.refl _ _ _) (hnone _ hcovered)
  · have hpage : addr / pageSize < 1023 * 1024 := by
      rw [pageSize]
      omega
    rw [hlinked.translate_eq (by omega), h.translate_eq (by omega)]
    obtain ⟨p, hp, hqp, raw, hraw, hframe⟩ | ⟨-, hkept⟩ := hpages _ hpage
    · obtain ⟨raw', hraw', hframe'⟩ := hmappable.kept p _ hp hpage hoverlap hqp
      rw [hraw, hraw', map_some, map_some, hframe, hframe']
    · rw [hkept]

end

/-- `vmm_map_range` maps a range to the physical addresses and leaves the other pages
alone exactly when the entries that it writes belong to no other page. -/
theorem mapRange_mapped_iff (h : vm.Linked d) (hoff : virtAddr % pageSize = physAddr % pageSize)
    (hrange : virtAddr + size ≤ 0xFFC00000) (hflags : present flags = true)
    (hsmall : SmallSlots vm.phys d flags {i | Meets virtAddr size i})
    (hsupply : vm.pmm.Supplies (missing vm.phys d {i | Meets virtAddr size i}).ncard
      {g | ∃ p, Covered virtAddr size p ∧ target virtAddr physAddr p = g}) :
    (∃ vm', vm.mapRange virtAddr physAddr size flags = some vm' ∧
      RangeMapped vm vm' virtAddr physAddr size) ↔ Mappable vm.phys d virtAddr physAddr size := by
  constructor
  · rintro ⟨vm', hrun, hmapped⟩
    obtain ⟨hlinked, -, hsame, hpages⟩ := h.mapRange hrange hflags hsmall hrun
    refine mappable_of_rangeMapped hrange hoff h hlinked hsame (fun q hq => ?_) hmapped
    obtain ⟨p, hp, -, hraw⟩ | ⟨hnone, -⟩ := hpages q (covered_lt hrange hq)
    · exact ⟨p, hp, hraw⟩
    · exact absurd (SameEntry.refl _ _ _) (hnone q hq)
  · intro hmappable
    obtain ⟨vm', hrun⟩ := h.mapRange_isSome hrange hflags hsmall hsupply
    obtain ⟨hlinked, -, -, hpages⟩ := h.mapRange hrange hflags hsmall hrun
    exact ⟨vm', hrun, rangeMapped_of_mappable hrange hoff h hlinked hpages hmappable⟩

theorem sameEntry_bareSpace (hq : q < 1023 * 1024) (h : SameEntry bareSpace.phys 1 q p) :
    q = p := by
  obtain ⟨hindex, hslot | ⟨hpresent, -, -⟩⟩ := h
  · omega
  · rw [word_bareSpace (by omega)] at hpresent
    cases hpresent

/-- Two pages at four megabytes, mapped to the frames three and four. -/
theorem mapRange_mapped_pages : ∃ vm', bareSpace.mapRange 0x400000 0x3000 0x2000 7 = some vm' ∧
    RangeMapped bareSpace vm' 0x400000 0x3000 0x2000 := by
  have hcovered : ∀ p, Covered 0x400000 0x2000 p → p = 0x400 ∨ p = 0x401 := by
    rintro p ⟨hlo, hhi⟩
    rw [pageSize] at hlo hhi
    omega
  have hmeets : ∀ i, Meets 0x400000 0x2000 i → i = 1 := by
    rintro _ ⟨p, hp, rfl⟩
    obtain rfl | rfl := hcovered p hp <;> rfl
  have hmissing : (missing bareSpace.phys 1 {i | Meets 0x400000 0x2000 i}).ncard ≤ 1 := by
    have hsub : missing bareSpace.phys 1 {i | Meets 0x400000 0x2000 i} ⊆ {1} :=
      fun i hi => hmeets i hi.1
    exact (ncard_le_ncard hsub (finite_singleton 1)).trans_eq (ncard_singleton 1)
  have hsupply : bareSpace.pmm.Supplies 1
      {g | ∃ p, Covered 0x400000 0x2000 p ∧ target 0x400000 0x3000 p = g} := by
    refine ⟨by decide, rfl, by decide, {2}, Nat.le_refl 1, fun f hf => ?_⟩
    obtain rfl := mem_singleton.mp hf
    refine ⟨?_, by decide, by decide⟩
    rintro ⟨p, hp, htarget⟩
    obtain rfl | rfl := hcovered p hp
    · cases htarget
    · cases htarget
  have hsmall : SmallSlots bareSpace.phys 1 7 {i | Meets 0x400000 0x2000 i} := by
    intro i hi
    rw [hmeets i hi, word_bareSpace (by decide)]
    exact ⟨rfl, fun _ => rfl⟩
  have hmappable : Mappable bareSpace.phys 1 0x400000 0x3000 0x2000 := by
    refine ⟨fun q r hq hr hqr => ?_, fun q r hq hr hoverlap hrq => ?_⟩
    · exact sameEntry_bareSpace (covered_lt (by decide) (overlaps_iff.mp hq).2) hqr
    · rw [sameEntry_bareSpace hr hrq] at hoverlap
      exact absurd (overlaps_iff.mpr ⟨by decide, hq⟩) hoverlap
  exact (mapRange_mapped_iff space_bareSpace.linked (by decide) (by decide) (by decide) hsmall
    (hsupply.mono hmissing)).mpr hmappable

/-- An empty range in the middle of a page: the page gets mapped. -/
theorem mapRange_empty_maps_page : ∃ vm', bareSpace.mapRange 0x400800 0x3800 0 7 = some vm' ∧
    ¬Overlaps 0x400800 0 0x400 ∧ bareSpace.translate 0x400000 = none ∧
      vm'.translate 0x400000 = some 0x3000 ∧ ¬RangeMapped bareSpace vm' 0x400800 0x3800 0 := by
  have hoverlap : ¬Overlaps 0x400800 0 0x400 := fun h => absurd (overlaps_iff.mp h).1 (by decide)
  have hbefore : bareSpace.translate 0x400000 = none := by
    rfl
  have hrun : ((bareSpace.mapRange 0x400800 0x3800 0 7).bind fun vm' => vm'.translate 0x400000) =
      some 0x3000 := by
    rw [mapRange_eq (by decide)]
    decide +kernel
  obtain ⟨vm', hmap, hafter⟩ := bind_eq_some_iff.mp hrun
  refine ⟨vm', hmap, hoverlap, hbefore, hafter, fun hmapped => ?_⟩
  have hsame := hmapped.other 0x400000 (by decide) hoverlap
  rw [hbefore, hafter] at hsame
  cases hsame

end Vm

end Hos
