import Hos.Memory.Mmu.Basic

/-!
# Creating an area

`__allocate_vm_area` takes new frames for the tables of all slots of an area,
writes them over the entries of the directory, and fills the entries of its pages
through a window in the active directory. Nothing else is written: the directory
of the image, the table of the window and the new tables. The new tables are not
cleared. An entry of a page that looks present stays what it was in the frame; the
others get new frames.

The window is taken down at an address that is not the one it was put up at, so
some of its pages stay.
-/

namespace Hos.Vm

open List Nat

/-- The active directory has a table for the window. -/
structure Window (vm : Vm) (d w : Nat) : Prop extends Recursive vm d where
  table_present : present (vm.phys.word d 830) = true
  table_frame : frameNo (vm.phys.word d 830) = w
  table_small : large (vm.phys.word d 830) = false
  ne : w ≠ d

/-- A step that writes to the frames in `W` only and frees no frame. -/
structure Writes (vm vm' : Vm) (W : Set Nat) : Prop where
  cr3 : vm'.cr3 = vm.cr3
  curPdir : vm'.curPdir = vm.curPdir
  bytes : ∀ x, x / 4096 ∉ W → vm'.phys x = vm.phys x
  bits : ∀ g, vm.pmm.bit g = true → vm'.pmm.bit g = true
  maxFrames : vm'.pmm.maxFrames = vm.pmm.maxFrames

section

variable {vm vm' vm'' : Vm} {d w : Nat} {W W' : Set Nat}

theorem Writes.refl (vm : Vm) (W : Set Nat) : vm.Writes vm W :=
  ⟨rfl, rfl, fun _ _ => rfl, fun _ hg => hg, rfl⟩

theorem Writes.trans (h : vm.Writes vm' W) (h' : vm'.Writes vm'' W) : vm.Writes vm'' W :=
  ⟨h'.cr3.trans h.cr3, h'.curPdir.trans h.curPdir, fun x hx => (h'.bytes x hx).trans (h.bytes x hx),
    fun g hg => h'.bits g (h.bits g hg), h'.maxFrames.trans h.maxFrames⟩

theorem Writes.mono (h : vm.Writes vm' W) (hW : W ⊆ W') : vm.Writes vm' W' :=
  ⟨h.cr3, h.curPdir, fun x hx => h.bytes x fun hmem => hx (hW hmem), h.bits, h.maxFrames⟩

theorem Writes.word {f k : Nat} (h : vm.Writes vm' W) (hf : f ∉ W) (hk : k < 1024) :
    vm'.phys.word f k = vm.phys.word f k :=
  Bytes.word_congr hk fun x hx => h.bytes x (hx.symm ▸ hf)

theorem writes_setWord (vm : Vm) (pmm : Pmm) (v : Nat) {f k : Nat} (hk : k < 1024) (hf : f ∈ W)
    (hbits : ∀ g, vm.pmm.bit g = true → pmm.bit g = true)
    (hmax : pmm.maxFrames = vm.pmm.maxFrames) :
    vm.Writes { vm with pmm := pmm, phys := vm.phys.setWord f k v } W :=
  ⟨rfl, rfl, fun _ hx => Bytes.setWord_of_frame_ne hk (fun heq => hx (heq ▸ hf)), hbits, hmax⟩

/-- The window stays when its two directory entries do. -/
theorem Window.congr (h : vm.Window d w) (hcr3 : vm'.cr3 = vm.cr3) (hcur : vm'.curPdir = vm.curPdir)
    (hself : vm'.phys.word d 1023 = vm.phys.word d 1023)
    (htable : vm'.phys.word d 830 = vm.phys.word d 830) : vm'.Window d w :=
  ⟨⟨hcr3.trans h.cr3, hcur.trans h.curPdir, hself ▸ h.self_present, hself ▸ h.self_frame⟩,
    htable ▸ h.table_present, htable ▸ h.table_frame, htable ▸ h.table_small, h.ne⟩

theorem Window.writes (h : vm.Window d w) (hw : vm.Writes vm' W) (hd : d ∉ W) : vm'.Window d w :=
  h.congr hw.cr3 hw.curPdir (hw.word hd (by decide)) (hw.word hd (by decide))

end

section

variable {vm : Vm} {d w i k flags physAddr : Nat}

theorem windowPage : pageTableMapStart + i * pageSize = (830 * 1024 + i) * pageSize := by
  rw [pageTableMapStart, pageSize]
  omega

variable (h : vm.Window d w) (hi : i < 1024)
include h hi

theorem Window.mapping_page :
    mapping vm.phys d (830 * 1024 + i) =
      if present (vm.phys.word w i) then some (vm.phys.word w i) else none := by
  have hdiv : (830 * 1024 + i) / 1024 = 830 := by omega
  have hmod : (830 * 1024 + i) % 1024 = i := by omega
  rw [mapping, leaf, hdiv, hmod, h.table_present, h.table_frame, Bool.true_and]

/-- An entry of the table that a page of the window shows. -/
theorem Window.translate_entry (hk : k < 1024) (hpresent : present (vm.phys.word w i) = true) :
    vm.translate (entryAddr (pageTableMapStart + i * pageSize) k) =
      some (Bytes.wordAddr (frameNo (vm.phys.word w i)) k) := by
  have hdiv : entryAddr (pageTableMapStart + i * pageSize) k / pageSize = 830 * 1024 + i := by
    rw [entryAddr, windowPage, pageSize]
    omega
  have hmod : entryAddr (pageTableMapStart + i * pageSize) k % pageSize = 4 * k := by
    rw [entryAddr, windowPage, pageSize]
    omega
  have hlt : entryAddr (pageTableMapStart + i * pageSize) k < 2 ^ 32 := by
    rw [entryAddr, windowPage, pageSize]
    omega
  rw [translate, h.cr3, walk_eq hlt, hdiv, hmod, h.mapping_page hi, if_pos hpresent]
  rfl

/-- `vmm_map_page` of a page of the window writes one entry of its table. -/
theorem Window.mapPage_eq :
    (vm.mapPage (pageTableMapStart + i * pageSize) physAddr flags).map (·.1) = some { vm with
        pmm := vm.pmm.frameSeta physAddr
        phys := vm.phys.setWord w i (newEntry (vm.phys.word w i) (physAddr / 2 ^ 12) flags) } := by
  have hdiv : (830 * 1024 + i) / 1024 = 830 := by omega
  have hmod : (830 * 1024 + i) % 1024 = i := by omega
  have hmade : vm.ensureTable (Bytes.wordAddr d 830) ((830 * 1024 + i) * pageSize) flags =
      some vm :=
    if_pos h.table_present
  have hmap := @Recursive.mapPage_eq vm d (830 * 1024 + i) physAddr flags h.toRecursive (by omega)
    fun vm₁ h₁ => by
      rw [hdiv, hmade] at h₁
      rw [← Option.some.inj h₁, hdiv]
      exact ⟨h.toRecursive, h.table_present, h.table_small⟩
  rw [windowPage, hmap, hdiv, hmod, hmade, Option.map_some, leaf, hdiv, hmod, h.table_frame]

/-- `vmm_unmap_page` of a page of the window clears its entry. -/
theorem Window.unmapPage_eq :
    vm.unmapPage ((830 * 1024 + i) * pageSize) = some (if present (vm.phys.word w i) = true then
        { vm with phys := vm.phys.setWord w i 0 } else vm) := by
  have hdiv : (830 * 1024 + i) / 1024 = 830 := by omega
  have hmod : (830 * 1024 + i) % 1024 = i := by omega
  rw [unmapPage, h.toRecursive.mappedEntry_eq (by omega), hdiv, hmod, h.table_frame,
    h.mapping_page hi]
  by_cases hpresent : present (vm.phys.word w i) = true
  · rw [if_pos hpresent, if_pos hpresent]
    rfl
  · rw [if_neg hpresent, if_neg hpresent]
    rfl

end

section

variable {vm vm' : Vm} {d e w s n f flags : Nat}

/-- The entries of the new tables. -/
theorem setTables_words (vm : Vm) (e f flags : Nat) (hn : s + n ≤ 1024) :
    vm.Writes (vm.setTables (e * pageSize) s n (f * pageSize) flags) {e} ∧
      (vm.setTables (e * pageSize) s n (f * pageSize) flags).pmm = vm.pmm ∧
      ∀ i < 1024, (vm.setTables (e * pageSize) s n (f * pageSize) flags).phys.word e i =
        if s ≤ i ∧ i < s + n then (u32 (f * pageSize + (i - s) * pageSize) ||| flags) % 2 ^ 32
        else vm.phys.word e i := by
  induction n with
  | zero => exact ⟨Writes.refl vm _, rfl, fun i _ => (if_neg (by omega)).symm⟩
  | succ n ih =>
    obtain ⟨hwrites, hpmm, hwords⟩ := ih (by omega)
    have hstep : vm.setTables (e * pageSize) s (n + 1) (f * pageSize) flags =
        { vm.setTables (e * pageSize) s n (f * pageSize) flags with
          phys := (vm.setTables (e * pageSize) s n (f * pageSize) flags).phys.setWord e (s + n)
            (u32 (f * pageSize + (s + n - s) * pageSize) ||| flags) } := by
      rw [setTables, range'_1_concat, foldl_append]
      rfl
    rw [hstep]
    refine ⟨hwrites.trans (writes_setWord _ _ _ (by omega) rfl (fun _ hg => hg) rfl), hpmm,
      fun i hi => ?_⟩
    by_cases his : i = s + n
    · subst his
      simp
    · rw [Bytes.word_setWord_of_ne (by omega) hi (.inr his), hwords i hi]
      by_cases hin : s ≤ i ∧ i < s + n
      · rw [if_pos hin, if_pos (by omega)]
      · rw [if_neg hin, if_neg (by omega)]

/-- The `n` pages of the window from `s` on are taken down. -/
structure Hides (vm vm' : Vm) (d w s n : Nat) : Prop where
  writes : vm.Writes vm' {w}
  window : vm'.Window d w
  pmm : vm'.pmm = vm.pmm
  hidden : ∀ i, s ≤ i → i < s + n → present (vm'.phys.word w i) = false
  other : ∀ i < 1024, (i < s ∨ s + n ≤ i) → vm'.phys.word w i = vm.phys.word w i

/-- The frames from `f` on are shown at the `n` pages of the window from `s` on. -/
structure Shows (vm vm' : Vm) (d w s n f : Nat) : Prop where
  writes : vm.Writes vm' {w}
  window : vm'.Window d w
  bits : ∀ g, vm'.pmm.bit g = true ↔ vm.pmm.bit g = true ∨ f ≤ g ∧ g < f + n
  shown : ∀ i, s ≤ i → i < s + n → present (vm'.phys.word w i) = true ∧
    frameNo (vm'.phys.word w i) = f + (i - s)
  other : ∀ i < 1024, (i < s ∨ s + n ≤ i) → vm'.phys.word w i = vm.phys.word w i

variable (h : vm.Window d w)
include h

theorem Window.mapPages (hn : s + n ≤ 1024) (hf : f + n ≤ 2 ^ 20) :
    ∃ vm', (List.range' (830 * 1024 + s) n).foldlM (fun (vm : Vm) p => (vm.mapPage (p * pageSize)
        (u32 (f * pageSize + (p * pageSize - (830 * 1024 + s) * pageSize))) kernelAccess).map
          (·.1)) vm = some vm' ∧ Shows vm vm' d w s n f := by
  induction n with
  | zero =>
    exact ⟨vm, rfl, Writes.refl vm _, h, fun g => ⟨.inl, fun hcases => hcases.elim id (by omega)⟩,
      fun i _ _ => by omega, fun _ _ _ => rfl⟩
  | succ n ih =>
    obtain ⟨vm₁, hrun, hwrites, hwindow, hbits, hpages, hother⟩ := ih (by omega) (by omega)
    have hphys : u32 (f * pageSize + ((830 * 1024 + s + n) * pageSize - (830 * 1024 + s) *
        pageSize)) = (f + n) * pageSize := by
      rw [u32_of_lt]
      · rw [pageSize]
        omega
      · rw [pageSize]
        omega
    have hdiv : (f + n) * pageSize / 2 ^ 12 = f + n := Nat.mul_div_cancel _ (by decide)
    have hpage : (830 * 1024 + s + n) * pageSize = pageTableMapStart + (s + n) * pageSize := by
      rw [windowPage, add_assoc]
    have hbit : ∀ g, (vm₁.pmm.frameSeta ((f + n) * pageSize)).bit g =
        (vm₁.pmm.bit g || g == f + n) := by
      intro g
      rw [Pmm.frameSeta, Pmm.bit_frameSet, show 2 ^ Pmm.frameShift = 2 ^ 12 from rfl, hdiv]
    have hstep : vm₁.Writes { vm₁ with
        pmm := vm₁.pmm.frameSeta ((f + n) * pageSize)
        phys := vm₁.phys.setWord w (s + n) (newEntry (vm₁.phys.word w (s + n)) (f + n) kernelAccess)
          } {w} :=
      writes_setWord _ _ _ (by omega) rfl (fun g hg => by rw [hbit, hg, Bool.true_or]) rfl
    refine ⟨_, ?_, hwrites.trans hstep, hwindow.writes hstep h.ne.symm,
      fun g => ?_, fun i hlow hhigh => ?_, fun i hi hcases => ?_⟩
    · rw [range'_1_concat, foldlM_append, hrun, Option.bind_eq_bind, Option.bind_some,
        foldlM_cons, hphys, hpage, hwindow.mapPage_eq (by omega), hdiv]
      rfl
    · rw [hbit, Bool.or_eq_true, hbits, beq_iff_eq, or_assoc]
      exact or_congr_right (by omega)
    · by_cases hlast : i = s + n
      · subst hlast
        rw [Bytes.word_setWord_self, mod_eq_of_lt newEntry_lt]
        refine ⟨present_newEntry rfl, ?_⟩
        rw [frameNo_newEntry (by omega)]
        omega
      · rw [Bytes.word_setWord_of_ne (by omega) (by omega) (.inr hlast)]
        exact hpages i hlow (by omega)
    · rw [Bytes.word_setWord_of_ne (by omega) hi (.inr (by omega))]
      exact hother i hi (by omega)

theorem Window.mapRange (hn : s + n ≤ 768) (hf : f + n ≤ 2 ^ 20) :
    ∃ vm', vm.mapRange (pageTableMapStart + s * pageSize) (f * pageSize)
    (n * pageSize) kernelAccess = some vm' ∧ Shows vm vm' d w s n f := by
  have hdown : alignDown (pageTableMapStart + s * pageSize) = (830 * 1024 + s) * pageSize := by
    rw [alignDown, windowPage, Nat.mul_div_cancel _ (by decide)]
  have hup : alignUp (u32 (pageTableMapStart + s * pageSize + n * pageSize)) =
      (830 * 1024 + s + n) * pageSize := by
    rw [windowPage, u32_of_lt (by rw [pageSize]; omega), alignUp_eq (by rw [pageSize]; omega),
      pageSize]
    omega
  have hphys : alignDown (f * pageSize) = f * pageSize := by
    rw [alignDown, Nat.mul_div_cancel _ (by decide)]
  have hnum : 830 * 1024 + s + n - (830 * 1024 + s) = n := by omega
  rw [Vm.mapRange, hdown, hup, hphys, pageLoop_eq (by omega), hnum]
  exact h.mapPages (by omega) hf

theorem Window.unmapPage {i : Nat} (hi : i < 1024) :
    ∃ vm', vm.unmapPage ((830 * 1024 + i) * pageSize) = some vm' ∧ Hides vm vm' d w i 1 := by
  rw [h.unmapPage_eq hi]
  by_cases hpresent : present (vm.phys.word w i) = true
  · rw [if_pos hpresent]
    have hstep : vm.Writes { vm with phys := vm.phys.setWord w i 0 } {w} :=
      writes_setWord _ _ _ hi rfl (fun _ hg => hg) rfl
    refine ⟨_, rfl, hstep, h.writes hstep h.ne.symm, rfl,
      fun j hle hlt => ?_, fun j hj hcases => ?_⟩
    · obtain rfl : j = i := by omega
      rw [Bytes.word_setWord_self]
      rfl
    · exact Bytes.word_setWord_of_ne hi hj (.inr (by omega))
  · rw [if_neg hpresent]
    refine ⟨vm, rfl, Writes.refl vm _, h, rfl, fun j hle hlt => ?_, fun _ _ _ => rfl⟩
    obtain rfl : j = i := by omega
    exact Bool.eq_false_iff.mpr hpresent

theorem Window.unmapPages (hn : s + n ≤ 1024) :
    ∃ vm', (List.range' (830 * 1024 + s) n).foldlM
      (fun (vm : Vm) p => vm.unmapPage (p * pageSize)) vm = some vm' ∧ Hides vm vm' d w s n := by
  induction n with
  | zero => exact ⟨vm, rfl, Writes.refl vm _, h, rfl, fun i _ _ => by omega, fun _ _ _ => rfl⟩
  | succ n ih =>
    obtain ⟨vm₁, hrun, hfirst⟩ := ih (by omega)
    obtain ⟨vm₂, hunmap, hlast⟩ := hfirst.window.unmapPage (i := s + n) (by omega)
    refine ⟨vm₂, ?_, hfirst.writes.trans hlast.writes, hlast.window, hlast.pmm.trans hfirst.pmm,
      fun i hle hlt => ?_, fun i hi hcases => ?_⟩
    · rw [range'_1_concat, foldlM_append, hrun, Option.bind_eq_bind, Option.bind_some, foldlM_cons,
        add_assoc, hunmap]
      rfl
    · by_cases hi : i < s + n
      · rw [hlast.other i (by omega) (.inl hi)]
        exact hfirst.hidden i hle hi
      · exact hlast.hidden i (by omega) (by omega)
    · rw [hlast.other i hi (by omega)]
      exact hfirst.other i hi (by omega)

/-- `vmm_unmap_range` at the address that `__allocate_vm_area` computes. -/
theorem Window.unmapRange (hs : s ≤ 768) (hn : n ≤ 768) :
    ∃ vm' c, vm.unmapRange (pageTableMapStart + s) (n * pageSize) = some vm' ∧
      (c = 0 ↔ s = 0) ∧ c ≤ 1 ∧ Hides vm vm' d w c (n - c) := by
  obtain ⟨c, hzero, hc, hup⟩ : ∃ c, (c = 0 ↔ s = 0) ∧ c ≤ 1 ∧
      alignUp (pageTableMapStart + s) = (830 * 1024 + c) * pageSize := by
    refine ⟨if s = 0 then 0 else 1, by split <;> omega, by split <;> omega, ?_⟩
    rw [alignUp_eq (by rw [pageTableMapStart]; omega), pageTableMapStart, pageSize]
    split <;> omega
  have hdown : alignDown (u32 (pageTableMapStart + s + n * pageSize)) =
      (830 * 1024 + n) * pageSize := by
    rw [u32_of_lt (by rw [pageTableMapStart, pageSize]; omega), alignDown,
      pageTableMapStart, pageSize]
    omega
  obtain ⟨vm', hrun, hhides⟩ := h.unmapPages (s := c) (n := n - c) (by omega)
  refine ⟨vm', c, ?_, hzero, hc, hhides⟩
  rw [Vm.unmapRange, hup, hdown, pageLoop_eq (by omega),
    show 830 * 1024 + n - (830 * 1024 + c) = n - c by omega]
  exact hrun

end

/-- The word at a place. -/
def wordAt (phys : Bytes) (place : Nat × Nat) : Nat := phys.word place.1 place.2

/-- The entries of the pages in `P`, at the given places, have been filled: one that
was present is as it was, and each of the others has a frame of its own that was
free before. -/
structure Filled (vm vm' : Vm) (place : Nat → Nat × Nat) (P : Set Nat) : Prop where
  writes : vm.Writes vm' {f | ∃ p ∈ P, (place p).1 = f}
  other : ∀ f k, k < 1024 → (∀ p ∈ P, place p ≠ (f, k)) → vm'.phys.word f k = vm.phys.word f k
  stale : ∀ p ∈ P, present (wordAt vm.phys (place p)) = true →
    wordAt vm'.phys (place p) = wordAt vm.phys (place p)
  taken : ∀ p ∈ P, present (wordAt vm.phys (place p)) = false →
    present (wordAt vm'.phys (place p)) = true ∧
      vm.pmm.bit (frameNo (wordAt vm'.phys (place p))) = false ∧
      vm'.pmm.bit (frameNo (wordAt vm'.phys (place p))) = true
  injective : ∀ p ∈ P, ∀ q ∈ P, present (wordAt vm.phys (place p)) = false →
    present (wordAt vm.phys (place q)) = false →
    frameNo (wordAt vm'.phys (place p)) = frameNo (wordAt vm'.phys (place q)) → p = q
  bits : ∀ g, vm'.pmm.bit g = true → vm.pmm.bit g = true ∨
    ∃ p ∈ P, present (wordAt vm.phys (place p)) = false ∧ frameNo (wordAt vm'.phys (place p)) = g

section

variable {vm vm₁ vm' : Vm} {place : Nat → Nat × Nat} {P Q : Set Nat} {p flags : Nat}

theorem Filled.empty (vm : Vm) (place : Nat → Nat × Nat) : Filled vm vm place ∅ where
  writes := Writes.refl vm _
  other _ _ _ _ := rfl
  stale _ hp := absurd hp (Set.notMem_empty _)
  taken _ hp := absurd hp (Set.notMem_empty _)
  injective _ hp := absurd hp (Set.notMem_empty _)
  bits _ hg := .inl hg

/-- Other entries are filled after the first ones. -/
theorem Filled.trans (h : Filled vm vm₁ place P) (h' : Filled vm₁ vm' place Q)
    (hmod : ∀ p, (place p).2 < 1024) (hplace : ∀ p ∈ P, ∀ q ∈ Q, place p ≠ place q) :
    Filled vm vm' place (P ∪ Q) := by
  have hfirst : ∀ p ∈ P, wordAt vm'.phys (place p) = wordAt vm₁.phys (place p) := fun p hp =>
    h'.other _ _ (hmod p) fun q hq heq => hplace p hp q hq heq.symm
  have hsecond : ∀ q ∈ Q, wordAt vm₁.phys (place q) = wordAt vm.phys (place q) := fun q hq =>
    h.other _ _ (hmod q) fun p hp => hplace p hp q hq
  -- the frame of a first entry is in use by now
  have hne : ∀ p ∈ P, ∀ q ∈ Q, present (wordAt vm.phys (place p)) = false →
      present (wordAt vm₁.phys (place q)) = false →
      frameNo (wordAt vm₁.phys (place p)) ≠ frameNo (wordAt vm'.phys (place q)) := by
    intro p hp q hq hp' hq' heq
    have hset := (h.taken p hp hp').2.2
    rw [heq, (h'.taken q hq hq').2.1] at hset
    cases hset
  refine ⟨(h.writes.mono ?_).trans (h'.writes.mono ?_),
    fun f k hk hother => ?_, ?_, ?_, ?_, fun g hg => ?_⟩
  · rintro f ⟨p, hp, hf⟩
    exact ⟨p, .inl hp, hf⟩
  · rintro f ⟨q, hq, hf⟩
    exact ⟨q, .inr hq, hf⟩
  · exact (h'.other f k hk fun q hq => hother q (.inr hq)).trans
      (h.other f k hk fun p hp => hother p (.inl hp))
  · rintro p (hp | hp) hpresent
    · exact (hfirst p hp).trans (h.stale p hp hpresent)
    · exact (h'.stale p hp ((hsecond p hp).symm ▸ hpresent)).trans (hsecond p hp)
  · rintro p (hp | hp) habsent
    · obtain ⟨hset, hbefore, hafter⟩ := h.taken p hp habsent
      rw [hfirst p hp]
      exact ⟨hset, hbefore, h'.writes.bits _ hafter⟩
    · obtain ⟨hset, hbefore, hafter⟩ := h'.taken p hp ((hsecond p hp).symm ▸ habsent)
      refine ⟨hset, Bool.eq_false_iff.mpr fun hbit => ?_, hafter⟩
      rw [h.writes.bits _ hbit] at hbefore
      cases hbefore
  · rintro p (hp | hp) q (hq | hq) hp' hq' heq
    · rw [hfirst p hp, hfirst q hq] at heq
      exact h.injective p hp q hq hp' hq' heq
    · rw [hfirst p hp] at heq
      exact absurd heq (hne p hp q hq hp' ((hsecond q hq).symm ▸ hq'))
    · rw [hfirst q hq] at heq
      exact absurd heq.symm (hne q hq p hp hq' ((hsecond p hp).symm ▸ hp'))
    · exact h'.injective p hp q hq ((hsecond p hp).symm ▸ hp') ((hsecond q hq).symm ▸ hq') heq
  · obtain hg | ⟨q, hq, hq', hframe⟩ := h'.bits g hg
    · refine (h.bits g hg).imp_right ?_
      rintro ⟨p, hp, hp', hframe⟩
      exact ⟨p, .inl hp, hp', (congrArg frameNo (hfirst p hp)).trans hframe⟩
    · exact .inr ⟨q, .inr hq, hsecond q hq ▸ hq', hframe⟩

/-- An entry that looks present is left alone. -/
theorem filled_of_present (hpresent : present (wordAt vm.phys (place p)) = true) :
    Filled vm vm place {p} := by
  refine ⟨Writes.refl vm _, fun _ _ _ _ => rfl, fun _ _ _ => rfl, ?_, ?_, fun _ hg => .inl hg⟩
  · rintro q rfl habsent
    rw [hpresent] at habsent
    cases habsent
  simp

/-- An entry that is not present gets a frame. -/
theorem filled_of_absent {f : Nat} {pmm : Pmm} (hmod : (place p).2 < 1024)
    (hmax : vm.pmm.maxFrames ≤ 2 ^ 20)
    (hflags : present flags = true) (habsent : present (wordAt vm.phys (place p)) = false)
    (halloc : vm.pmm.allocateFrame = some (f, pmm)) :
    Filled vm { vm with
      pmm := pmm
      phys := vm.phys.setWord (place p).1 (place p).2
        (newEntry (wordAt vm.phys (place p)) f flags) } place {p} := by
  obtain ⟨_, hlt, hclear, hpmm⟩ := Pmm.allocateFrame_eq_some halloc
  have hf : f < 2 ^ 20 := by omega
  have hbit : ∀ g, pmm.bit g = (vm.pmm.bit g || g == f) := fun g => by
    rw [hpmm, Pmm.bit_markFrameUsed]
  have hself : wordAt (vm.phys.setWord (place p).1 (place p).2
      (newEntry (wordAt vm.phys (place p)) f flags)) (place p) =
      newEntry (wordAt vm.phys (place p)) f flags := by
    rw [wordAt, Bytes.word_setWord_self, mod_eq_of_lt newEntry_lt]
  refine ⟨writes_setWord vm pmm _ hmod ⟨p, rfl, rfl⟩ (fun g hg => ?_) (hpmm ▸ rfl),
    fun f' k hk hne => ?_, ?_, ?_, ?_, fun g hg => ?_⟩
  · rw [hbit, hg, Bool.true_or]
  · refine Bytes.word_setWord_of_ne hmod hk ?_
    rw [← not_and_or]
    exact fun heq => hne p rfl (Prod.ext heq.1.symm heq.2.symm)
  · rintro q rfl hpresent
    rw [habsent] at hpresent
    cases hpresent
  · rintro q rfl -
    rw [hself, frameNo_newEntry hf, hbit, beq_self_eq_true, Bool.or_true]
    exact ⟨present_newEntry hflags, hclear, rfl⟩
  · simp
  · rw [hbit, Bool.or_eq_true, beq_iff_eq] at hg
    refine hg.imp_right fun heq => ⟨p, rfl, habsent, ?_⟩
    rw [hself, frameNo_newEntry hf, heq]

end

/-- The place of the entry of a page in the table that the window shows. -/
def windowPlace (phys : Bytes) (w p : Nat) : Nat × Nat :=
    (frameNo (phys.word w (p / 1024)), p % 1024)

section

variable {vm vm₁ vm' : Vm} {d w p flags : Nat} {place : Nat → Nat × Nat} {P : Set Nat}

/-- The pages whose tables the window shows. -/
structure Shown (vm : Vm) (d w p : Nat) : Prop where
  lt : p / 1024 < 1024
  isPresent : present (vm.phys.word w (p / 1024)) = true
  ne_directory : frameNo (vm.phys.word w (p / 1024)) ≠ d
  ne_window : frameNo (vm.phys.word w (p / 1024)) ≠ w

theorem Filled.notMem (hP : ∀ q ∈ P, vm.Shown d w q ∧ place q = windowPlace vm.phys w q) :
    d ∉ {f | ∃ q ∈ P, (place q).1 = f} ∧ w ∉ {f | ∃ q ∈ P, (place q).1 = f} := by
  constructor
  · rintro ⟨q, hq, heq⟩
    rw [(hP q hq).2] at heq
    exact (hP q hq).1.ne_directory heq
  · rintro ⟨q, hq, heq⟩
    rw [(hP q hq).2] at heq
    exact (hP q hq).1.ne_window heq

variable (hwindow : vm.Window d w) (hmod : ∀ p, (place p).2 < 1024)
    (hmax : vm.pmm.maxFrames ≤ 2 ^ 20) (hflags : present flags = true)
include hwindow hmod hmax hflags

theorem Filled.allocateAreaPage (h : Filled vm vm₁ place P)
    (hP : ∀ q ∈ P, vm.Shown d w q ∧ place q = windowPlace vm.phys w q)
    (hp : vm.Shown d w p) (hplace : place p = windowPlace vm.phys w p)
    (hne : ∀ q ∈ P, place q ≠ place p) (hrun : vm₁.allocateAreaPage flags p = some vm') :
    Filled vm vm' place (P ∪ {p}) := by
  obtain ⟨hd, hw⟩ := Filled.notMem hP
  have hwindow₁ := hwindow.writes h.writes hd
  have hentry := h.writes.word hw hp.lt
  have htranslate := hwindow₁.translate_entry hp.lt (mod_lt p (by decide))
    (hentry ▸ hp.isPresent)
  have hindex : p / 2 ^ 10 % 1024 = p / 1024 := mod_eq_of_lt hp.lt
  have haddr : Bytes.wordAddr (frameNo (vm.phys.word w (p / 1024))) (p % 1024) =
      Bytes.wordAddr (place p).1 (place p).2 := by
    rw [hplace]
    rfl
  have hload : vm₁.phys.load32 (Bytes.wordAddr (place p).1 (place p).2) =
      wordAt vm₁.phys (place p) := rfl
  simp only [Vm.allocateAreaPage, allocateAreaPageVia, translateVia, hindex, htranslate, hentry,
    haddr, hload, Option.bind_eq_bind, Option.bind_some] at hrun
  refine h.trans ?_ hmod fun q hq q' hq' => hq' ▸ hne q hq
  by_cases hpresent : present (wordAt vm₁.phys (place p)) = true
  · rw [if_pos hpresent] at hrun
    cases hrun
    exact filled_of_present hpresent
  · rw [if_neg hpresent] at hrun
    have habsent := Bool.eq_false_iff.mpr hpresent
    obtain ⟨⟨f, pmm⟩, halloc, rfl⟩ := Option.map_eq_some_iff.mp
      ((pageAllocate_eq habsent).symm.trans hrun)
    exact filled_of_absent (hmod p) (h.writes.maxFrames ▸ hmax) hflags habsent halloc

theorem Window.allocateAreaPages {ps : List Nat}
    (hps : ∀ p ∈ ps, vm.Shown d w p ∧ place p = windowPlace vm.phys w p)
    (hdistinct : ps.Pairwise fun p q => place p ≠ place q)
    (hrun : ps.foldlM (fun vm pfn => vm.allocateAreaPage flags pfn) vm = some vm') :
    Filled vm vm' place {p | p ∈ ps} := by
  induction ps using reverseRecOn generalizing vm' with
  | nil =>
    cases hrun
    simpa using Filled.empty vm place
  | append_singleton ps p ih =>
    rw [foldlM_append, Option.bind_eq_bind, Option.bind_eq_some_iff] at hrun
    obtain ⟨vm₁, hpages, hpage⟩ := hrun
    obtain ⟨hdistinct, -, hne⟩ := pairwise_append.mp hdistinct
    rw [forall_mem_append] at hps
    obtain ⟨hp, hplace⟩ := hps.2 p mem_cons_self
    have hfilled := (ih hps.1 hdistinct hpages).allocateAreaPage hwindow hmod hmax hflags
      hps.1 hp hplace (fun q hq => hne q hq p mem_cons_self) (by simpa using hpage)
    convert hfilled using 1
    ext q
    simp [or_comm]

end

/-- The place of the entry of a page in tables at the frames from `f` on, for the slots
from `s` on. -/
def tablePlace (f s p : Nat) : Nat × Nat := (f + (p / 1024 - s), p % 1024)

/-- What `__allocate_vm_area` leaves: new tables at the frames from `f` on for the `n`
slots from `s` on, with entries for the pages from `a` up to `b`. -/
structure AreaMade (vm vm' : Vm) (e w s n f a b flags : Nat) : Prop where
  writes : vm.Writes vm' ({e, w} ∪ {g | f ≤ g ∧ g < f + n})
  bound : f + n ≤ 2 ^ 20
  free : ∀ g, f ≤ g → g < f + n → vm.pmm.bit g = false
  used : ∀ g, f ≤ g → g < f + n → vm'.pmm.bit g = true
  entries : ∀ i, s ≤ i → i < s + n → vm'.phys.word e i = (f + (i - s)) * pageSize ||| flags
  directory : ∀ i < 1024, (i < s ∨ s + n ≤ i) → vm'.phys.word e i = vm.phys.word e i
  window : ∀ i, 768 ≤ i → i < 1024 → vm'.phys.word w i = vm.phys.word w i
  other : ∀ g, f ≤ g → g < f + n → ∀ k < 1024, (∀ p, a ≤ p → p < b → tablePlace f s p ≠ (g, k)) →
    vm'.phys.word g k = vm.phys.word g k
  stale : ∀ p, a ≤ p → p < b → present (wordAt vm.phys (tablePlace f s p)) = true →
    wordAt vm'.phys (tablePlace f s p) = wordAt vm.phys (tablePlace f s p)
  taken : ∀ p, a ≤ p → p < b → present (wordAt vm.phys (tablePlace f s p)) = false →
    present (wordAt vm'.phys (tablePlace f s p)) = true ∧
      vm.pmm.bit (frameNo (wordAt vm'.phys (tablePlace f s p))) = false ∧
      vm'.pmm.bit (frameNo (wordAt vm'.phys (tablePlace f s p))) = true ∧
      ¬(f ≤ frameNo (wordAt vm'.phys (tablePlace f s p)) ∧
        frameNo (wordAt vm'.phys (tablePlace f s p)) < f + n)
  injective : ∀ p, a ≤ p → p < b → ∀ q, a ≤ q → q < b →
    present (wordAt vm.phys (tablePlace f s p)) = false →
    present (wordAt vm.phys (tablePlace f s q)) = false →
    frameNo (wordAt vm'.phys (tablePlace f s p)) = frameNo (wordAt vm'.phys (tablePlace f s q)) →
      p = q
  bits : ∀ g, vm'.pmm.bit g = true → vm.pmm.bit g = true ∨ (f ≤ g ∧ g < f + n) ∨
    ∃ p, a ≤ p ∧ p < b ∧ present (wordAt vm.phys (tablePlace f s p)) = false ∧
      frameNo (wordAt vm'.phys (tablePlace f s p)) = g

variable {vm vm' : Vm} {d e w s n f a b vmStart sizeAlloc flags : Nat}

theorem allocateFrames_bits {p p' : Pmm} (h : p.allocateFrames n = some (f, p')) :
    (∀ g, f ≤ g → g < f + n → p.bit g = false) ∧
      (∀ g, p'.bit g = true ↔ p.bit g = true ∨ f ≤ g ∧ g < f + n) ∧ p'.maxFrames = p.maxFrames ∧
      (0 < n ∧ f + n ≤ p.maxFrames ∨ f + n = 0) := by
  by_cases hn : n = 0
  · rw [Pmm.allocateFrames, if_pos hn] at h
    cases h
    exact ⟨fun g _ _ => by omega, fun g => ⟨.inl, fun hcases => hcases.elim id (by omega)⟩, rfl,
      .inr (by omega)⟩
  · obtain ⟨_, hle, hfree, rfl⟩ := Pmm.allocateFrames_eq_some hn h
    refine ⟨hfree, fun g => ?_, Pmm.maxFrames_markFrames p f n, .inl ⟨by omega, hle⟩⟩
    rw [Pmm.bit_markFrames, Bool.or_eq_true, decide_eq_true_eq]

/-- The tables are entered in the directory and shown in the window. -/
structure TablesShown (vm vm' : Vm) (d e w s n f flags : Nat) : Prop where
  window : vm'.Window d w
  writes : vm.Writes vm' {e, w}
  bits : ∀ g, vm'.pmm.bit g = true ↔ vm.pmm.bit g = true ∨ f ≤ g ∧ g < f + n
  entries : ∀ i, s ≤ i → i < s + n → vm'.phys.word e i = (f + (i - s)) * pageSize ||| flags
  directory : ∀ i < 1024, (i < s ∨ s + n ≤ i) → vm'.phys.word e i = vm.phys.word e i
  shown : ∀ i, s ≤ i → i < s + n → present (vm'.phys.word w i) = true ∧
    frameNo (vm'.phys.word w i) = f + (i - s)
  other : ∀ i < 1024, (i < s ∨ s + n ≤ i) → vm'.phys.word w i = vm.phys.word w i

theorem Window.tablesShown {pmm : Pmm} (hwindow : vm.Window d w) (hew : e ≠ w)
    (hlow : flags < pageSize)
    (hn : s + n ≤ 768) (hbound : f + n ≤ 2 ^ 20) (hmax : pmm.maxFrames = vm.pmm.maxFrames)
    (hbits : ∀ g, pmm.bit g = true ↔ vm.pmm.bit g = true ∨ f ≤ g ∧ g < f + n)
    (hrun : ({ vm with pmm := pmm }.setTables (e * pageSize) s n (f * pageSize) flags).mapRange
      (pageTableMapStart + s * pageSize) (f * pageSize) (n * pageSize) kernelAccess = some vm') :
    TablesShown vm vm' d e w s n f flags := by
  obtain ⟨hwrites₀, hpmm₀, hwords₀⟩ := setTables_words { vm with pmm := pmm } e f flags
    (show s + n ≤ 1024 by omega)
  have hstart : vm.Writes { vm with pmm := pmm } {e, w} :=
    ⟨rfl, rfl, fun _ _ => rfl, fun g hg => (hbits g).mpr (.inl hg), hmax⟩
  generalize { vm with pmm := pmm }.setTables (e * pageSize) s n (f * pageSize) flags = vm₀
    at hwrites₀ hpmm₀ hwords₀ hrun
  have hdir₀ : ∀ i, 768 ≤ i → i < 1024 → vm₀.phys.word d i = vm.phys.word d i := by
    intro i hle hlt
    by_cases hde : d = e
    · rw [hde, hwords₀ i hlt, if_neg (by omega)]
    · exact hwrites₀.word hde hlt
  have hwindow₀ : vm₀.Window d w := hwindow.congr hwrites₀.cr3 hwrites₀.curPdir
    (hdir₀ 1023 (by decide) (by decide)) (hdir₀ 830 (by decide) (by decide))
  obtain ⟨vm₁, hmap, hwrites₁, hwindow₁, hbits₁, hshown, hother⟩ := hwindow₀.mapRange hn hbound
  obtain rfl := Option.some.inj (hmap.symm.trans hrun)
  have hentry : ∀ i < 1024, vm₁.phys.word e i = vm₀.phys.word e i :=
    fun i hi => hwrites₁.word hew hi
  have hwrites : vm.Writes vm₁ {e, w} :=
    (hstart.trans (hwrites₀.mono (by simp))).trans (hwrites₁.mono (by simp))
  refine ⟨hwindow₁, hwrites, fun g => ?_, fun i hle hlt => ?_, fun i hi hcases => ?_, hshown,
    fun i hi hcases => ?_⟩
  · rw [hbits₁, hpmm₀, hbits, or_assoc, or_self]
  · have hvalue : u32 (f * pageSize + (i - s) * pageSize) = (f + (i - s)) * pageSize := by
      rw [u32_of_lt, add_mul]
      rw [pageSize]
      omega
    have hraw : (f + (i - s)) * pageSize ||| flags < 2 ^ 32 := by
      rw [pageSize] at hlow ⊢
      exact or_lt_two_pow (by omega) (by omega)
    rw [hentry i (by omega), hwords₀ i (by omega), if_pos ⟨hle, hlt⟩, hvalue, mod_eq_of_lt hraw]
  · rw [hentry i hi, hwords₀ i hi, if_neg (by omega)]
  · rw [hother i hi hcases]
    exact hwrites₀.word hew.symm hi

theorem tablePlace_injective {p q : Nat} (hp : s ≤ p / 1024) (hq : s ≤ q / 1024)
    (h : tablePlace f s p = tablePlace f s q) : p = q := by
  obtain ⟨hframe, hmod⟩ := Prod.mk.inj h
  omega

theorem tablePlace_mem {p : Nat} (hp : s ≤ p / 1024 ∧ p / 1024 < s + n) :
    f ≤ (tablePlace f s p).1 ∧ (tablePlace f s p).1 < f + n := by
  rw [tablePlace]
  omega

/-- The pages of the window that showed the tables are unmapped, and no other one changes. -/
def WindowRestored (vm vm' : Vm) (w s n : Nat) : Prop :=
  (∀ i, s ≤ i → i < s + n → present (vm'.phys.word w i) = false) ∧
    ∀ i < 1024, i < s ∨ s + n ≤ i → vm'.phys.word w i = vm.phys.word w i

/-- The pages are filled and the window is taken down. -/
theorem TablesShown.areaMade {vm₁ vm₂ : Vm} (h : TablesShown vm vm₁ d e w s n f flags)
    (hd : vm.pmm.bit d = true) (he : vm.pmm.bit e = true) (hw : vm.pmm.bit w = true) (hew : e ≠ w)
    (hmax : vm.pmm.maxFrames ≤ 2 ^ 20) (hflags : present flags = true) (hn : s + n ≤ 768)
    (hbound : f + n ≤ 2 ^ 20) (hfree : ∀ g, f ≤ g → g < f + n → vm.pmm.bit g = false)
    (hpages : ∀ p, a ≤ p → p < b → s ≤ p / 1024 ∧ p / 1024 < s + n)
    (hfill : (List.range' a (b - a)).foldlM (fun vm pfn => vm.allocateAreaPage flags pfn) vm₁ =
      some vm₂) (hunmap : vm₂.unmapRange (pageTableMapStart + s) (n * pageSize) = some vm') :
    AreaMade vm vm' e w s n f a b flags ∧ vm'.Window d w ∧
      (WindowRestored vm vm' w s n ↔ s = 0 ∨ n = 0) := by
  have hnew : ∀ h, vm.pmm.bit h = true → ∀ g, f ≤ g → g < f + n → g ≠ h := by
    rintro h hset g hge hlt rfl
    rw [hfree g hge hlt] at hset
    cases hset
  have hplace : ∀ p ∈ List.range' a (b - a), vm₁.Shown d w p ∧
      tablePlace f s p = windowPlace vm₁.phys w p := by
    intro p hp
    rw [mem_range'_1] at hp
    obtain ⟨hs, hsn⟩ := hpages p hp.1 (by omega)
    obtain ⟨hpresent, hframe⟩ := h.shown _ hs hsn
    refine ⟨⟨by omega, hpresent, hframe ▸ hnew d hd _ (by omega) (by omega),
      hframe ▸ hnew w hw _ (by omega) (by omega)⟩, ?_⟩
    rw [windowPlace, tablePlace, hframe]
  have hdistinct : (List.range' a (b - a)).Pairwise fun p q => tablePlace f s p ≠
      tablePlace f s q := by
    have hnodup : (List.range' a (b - a)).Nodup := nodup_range'
    refine hnodup.imp_of_mem fun {p q} hp hq hne heq => hne ?_
    rw [mem_range'_1] at hp hq
    exact tablePlace_injective (hpages p hp.1 (by omega)).1 (hpages q hq.1 (by omega)).1 heq
  have hfilled := h.window.allocateAreaPages (fun p => mod_lt p (by decide))
    (h.writes.maxFrames ▸ hmax) hflags hplace hdistinct hfill
  have hmem : {p | p ∈ List.range' a (b - a)} = {p | a ≤ p ∧ p < b} := by
    ext p
    simp only [Set.mem_ofPred_eq, mem_range'_1]
    omega
  rw [hmem] at hfilled
  have hframes : ∀ g, (∃ p ∈ {p | a ≤ p ∧ p < b}, (tablePlace f s p).1 = g) → f ≤ g ∧
      g < f + n := by
    rintro g ⟨p, ⟨hlow, hhigh⟩, rfl⟩
    exact tablePlace_mem (hpages p hlow hhigh)
  have hkeep : ∀ h, vm.pmm.bit h = true → ∀ k < 1024, vm₂.phys.word h k = vm₁.phys.word h k := by
    intro h hset k hk
    refine hfilled.writes.word (fun hg => ?_) hk
    obtain ⟨hge, hlt⟩ := hframes h hg
    exact hnew h hset h hge hlt rfl
  have hwindow₂ : vm₂.Window d w := h.window.congr hfilled.writes.cr3 hfilled.writes.curPdir
    (hkeep d hd 1023 (by decide)) (hkeep d hd 830 (by decide))
  obtain ⟨vm₃, c, hrun, hzero, hc, hwrites₃, hwindow₃, hpmm, hhidden, hother₃⟩ :=
    hwindow₂.unmapRange (s := s) (n := n) (by omega) (by omega)
  obtain rfl := Option.some.inj (hrun.symm.trans hunmap)
  have hsame₁ : ∀ g, f ≤ g → g < f + n → ∀ k < 1024, vm₁.phys.word g k = vm.phys.word g k := by
    intro g hge hlt k hk
    refine h.writes.word ?_ hk
    rintro (rfl | rfl)
    · exact hnew g he g hge hlt rfl
    · exact hnew g hw g hge hlt rfl
  have hsame₃ : ∀ g, f ≤ g → g < f + n → ∀ k < 1024, vm₃.phys.word g k = vm₂.phys.word g k :=
    fun g hge hlt k hk => hwrites₃.word (hnew w hw g hge hlt) hk
  have hword : ∀ {phys phys' : Bytes}, (∀ g, f ≤ g → g < f + n → ∀ k < 1024,
      phys.word g k = phys'.word g k) →
      ∀ p, a ≤ p → p < b → wordAt phys (tablePlace f s p) = wordAt phys' (tablePlace f s p) := by
    intro phys phys' hsame p hlow hhigh
    obtain ⟨hge, hlt⟩ := tablePlace_mem (f := f) (hpages p hlow hhigh)
    exact hsame _ hge hlt _ (mod_lt p (by decide))
  have hbefore := hword hsame₁
  have hafter := hword hsame₃
  have hentries : ∀ i < 1024, vm₃.phys.word e i = vm₁.phys.word e i := fun i hi =>
    (hwrites₃.word hew hi).trans (hkeep e he i hi)
  refine ⟨⟨?_, hbound, hfree, fun g hge hlt => ?_, fun i hle hlt => ?_, fun i hi hcases => ?_,
    fun i hle hlt => ?_, fun g hge hlt k hk hne => ?_, fun p hlow hhigh hpresent => ?_,
    fun p hlow hhigh habsent => ?_, fun p hlow hhigh q hlow' hhigh' hp hq
      heq => ?_, fun g hg => ?_⟩, hwindow₃, ?_⟩
  · exact ((h.writes.mono Set.subset_union_left).trans (hfilled.writes.mono fun g hg =>
      .inr (hframes g hg))).trans (hwrites₃.mono fun g hg => .inl (.inr hg))
  · rw [hpmm]
    exact hfilled.writes.bits g ((h.bits g).mpr (.inr ⟨hge, hlt⟩))
  · rw [hentries i (by omega), h.entries i hle hlt]
  · rw [hentries i hi, h.directory i hi hcases]
  · rw [hother₃ i hlt (by omega), hkeep w hw i hlt, h.other i hlt (by omega)]
  · rw [hsame₃ g hge hlt k hk, ← hsame₁ g hge hlt k hk]
    exact hfilled.other g k hk fun p hp => hne p hp.1 hp.2
  · rw [← hbefore p hlow hhigh] at hpresent ⊢
    rw [hafter p hlow hhigh]
    exact hfilled.stale p ⟨hlow, hhigh⟩ hpresent
  · rw [← hbefore p hlow hhigh] at habsent
    obtain ⟨hpresent, hclear, hset⟩ := hfilled.taken p ⟨hlow, hhigh⟩ habsent
    rw [hafter p hlow hhigh, hpmm]
    refine ⟨hpresent, ?_, hset, fun hrange => ?_⟩
    · exact Bool.eq_false_iff.mpr fun hold =>
        Bool.eq_false_iff.mp hclear ((h.bits _).mpr (.inl hold))
    · exact Bool.eq_false_iff.mp hclear ((h.bits _).mpr (.inr hrange))
  · rw [← hbefore p hlow hhigh] at hp
    rw [← hbefore q hlow' hhigh'] at hq
    rw [hafter p hlow hhigh, hafter q hlow' hhigh'] at heq
    exact hfilled.injective p ⟨hlow, hhigh⟩ q ⟨hlow', hhigh'⟩ hp hq heq
  · rw [hpmm] at hg
    obtain hold | ⟨p, ⟨hlow, hhigh⟩, habsent, hframe⟩ := hfilled.bits g hg
    · exact ((h.bits g).mp hold).imp_right .inl
    · rw [hbefore p hlow hhigh] at habsent
      rw [← hafter p hlow hhigh] at hframe
      exact .inr (.inr ⟨p, hlow, hhigh, habsent, hframe⟩)
  · constructor
    · intro hrestored
      by_contra hpos
      -- the last page is behind those that are taken down
      have hlast := hrestored.1 (s + n - 1) (by omega) (by omega)
      rw [hother₃ _ (by omega) (by omega), hkeep w hw _ (by omega),
        (h.shown _ (by omega) (by omega)).1] at hlast
      cases hlast
    · intro hcases
      refine ⟨fun i hle hlt => hhidden i (by omega) (by omega), fun i hi hout => ?_⟩
      rw [hother₃ i hi (by omega), hkeep w hw i hi, h.other i hi hout]

theorem pdeStart_eq {addr : Nat} (h : addr < 2 ^ 32) : pdeStart addr = addr / 2 ^ 22 := by
  rw [pdeStart]
  omega

theorem pdeEnd_eq {addr : Nat} (h : addr ≤ userEnd) :
    pdeEnd addr = (addr + (2 ^ 22 - 1)) / 2 ^ 22 := by
  rw [userEnd] at h
  rw [pdeEnd, alignUpTable, u32_of_lt (by omega)]
  omega

/-- The slots of an area: from which on and how many. -/
def areaSlots (vmStart sizeAlloc : Nat) : Nat × Nat :=
  (vmStart / 2 ^ 22, (vmStart + sizeAlloc + (2 ^ 22 - 1)) / 2 ^ 22 - vmStart / 2 ^ 22)

/-- The pages of an area: from which on and up to which. -/
def areaPages (vmStart sizeAlloc : Nat) : Nat × Nat :=
  (vmStart / 4096, (vmStart + sizeAlloc + 4095) / 4096)

theorem areaSlots_le (h : vmStart + sizeAlloc ≤ userEnd) :
    (areaSlots vmStart sizeAlloc).1 + (areaSlots vmStart sizeAlloc).2 ≤ 768 := by
  rw [userEnd] at h
  rw [areaSlots]
  omega

/-- `__allocate_vm_area` in the user half, through the window of the active directory. -/
theorem Window.allocateVmArea (h : vm.Window d w) (hd : vm.pmm.bit d = true)
    (he : vm.pmm.bit e = true)
    (hw : vm.pmm.bit w = true) (hew : e ≠ w) (hmax : vm.pmm.maxFrames ≤ 2 ^ 20)
    (hflags : present flags = true) (hlow : flags < pageSize) (hend : vmStart + sizeAlloc ≤ userEnd)
    (hrun : vm.allocateVmArea (e * pageSize) vmStart flags sizeAlloc = some vm') :
    ∃ f pmm, vm.pmm.allocateFrames (areaSlots vmStart sizeAlloc).2 = some (f, pmm) ∧
      AreaMade vm vm' e w (areaSlots vmStart sizeAlloc).1 (areaSlots vmStart sizeAlloc).2 f
        (areaPages vmStart sizeAlloc).1 (areaPages vmStart sizeAlloc).2 flags ∧ vm'.Window d w ∧
      (WindowRestored vm vm' w (areaSlots vmStart sizeAlloc).1 (areaSlots vmStart sizeAlloc).2 ↔
        (areaSlots vmStart sizeAlloc).1 = 0 ∨ (areaSlots vmStart sizeAlloc).2 = 0) := by
  have hend' := hend
  rw [userEnd] at hend'
  have haddr : u32 (vmStart + sizeAlloc) = vmStart + sizeAlloc := u32_of_lt (by omega)
  have hstart : pdeStart vmStart = (areaSlots vmStart sizeAlloc).1 := pdeStart_eq (by omega)
  have hnum : pdeEnd (vmStart + sizeAlloc) - (areaSlots vmStart sizeAlloc).1 =
      (areaSlots vmStart sizeAlloc).2 := by
    rw [pdeEnd_eq hend]
    rfl
  have hsub : sub32 (pdeEnd (vmStart + sizeAlloc)) (areaSlots vmStart sizeAlloc).1 =
      (areaSlots vmStart sizeAlloc).2 := by
    rw [← hnum, pdeEnd_eq hend]
    have hle : (areaSlots vmStart sizeAlloc).1 ≤ (vmStart + sizeAlloc + (2 ^ 22 - 1)) / 2 ^ 22 :=
      Nat.div_le_div_right (by omega)
    exact sub32_of_le (by omega) hle
  have hpfnEnd : pfnEnd (vmStart + sizeAlloc) = (areaPages vmStart sizeAlloc).2 := by
    rw [pfnEnd, alignUp_eq (by omega), pageSize, areaPages]
    omega
  have hpfnStart : pfnStart vmStart = (areaPages vmStart sizeAlloc).1 := rfl
  have hslots := areaSlots_le hend
  have hpages : ∀ p, (areaPages vmStart sizeAlloc).1 ≤ p → p < (areaPages vmStart sizeAlloc).2 →
      (areaSlots vmStart sizeAlloc).1 ≤ p / 1024 ∧
        p / 1024 < (areaSlots vmStart sizeAlloc).1 + (areaSlots vmStart sizeAlloc).2 := by
    rw [areaSlots, areaPages]
    omega
  generalize areaSlots vmStart sizeAlloc = slots at *
  generalize areaPages vmStart sizeAlloc = pages at *
  simp only [Vm.allocateVmArea, allocateVmAreaVia, haddr, hstart, hsub, hnum, hpfnEnd, hpfnStart,
    Option.bind_eq_bind, Option.bind_eq_some_iff] at hrun
  obtain ⟨⟨f, pmm⟩, halloc, vm₁, hmap, vm₂, hfill, hunmap⟩ := hrun
  dsimp only at hmap
  obtain ⟨hfree, hbits, hmax', hbound⟩ := allocateFrames_bits halloc
  have hbound' : f + slots.2 ≤ 2 ^ 20 := by omega
  have hphys : u32 (f * pageSize) = f * pageSize := by
    rw [u32_of_lt]
    rw [pageSize]
    omega
  have hsize : u32 (slots.2 * pageSize) = slots.2 * pageSize := by
    rw [u32_of_lt]
    rw [pageSize]
    omega
  rw [hphys, hsize] at hmap
  rw [hsize] at hunmap
  have hshown := h.tablesShown hew hlow hslots hbound' hmax' hbits hmap
  exact ⟨f, pmm, halloc, hshown.areaMade hd he hw hew hmax hflags hslots hbound' hfree hpages
    hfill hunmap⟩

end Hos.Vm
