import Hos.Memory.Pmm.Bounds
import Hos.Memory.Vmm.Map

/-!
# The kernel half after boot

The boot code leaves a directory with the tables of the first eight megabytes, entered
at zero and again at `0xC0000000`. `vmm_init` takes a frame for every other table of the
kernel half. `vmm_pde_allocate` does not clear these frames, so whatever they contain
are the entries of the kernel half from then on: a word that happens to have its lowest
bit set is a page that is present. `vmm_create_page` gives no frame to such a page and
does not clear it, and the kernel heap gets whatever memory the word names.
-/

namespace Hos

open List Nat

namespace Pmm

/-- The frames that the next allocations answer. -/
def nextFrames (p : Pmm) : Nat → List Nat
  | 0 => []
  | n + 1 =>
    match p.allocateFrame with
    | none => []
    | some (frame, p) => frame :: p.nextFrames n

end Pmm

namespace Vm

/-- `KERNEL_PDE_START_IDX + KERNEL_INIT_NPTE`. -/
def firstNewSlot : Nat := 770

/-- The first loop of `vmm_init`, over `n` directory entries. -/
def allocateTables (vm : Vm) (kPdir i n : Nat) : Option Vm :=
  (List.range' i n).foldlM (fun vm i => vm.pdeAllocate (entryAddr kPdir i) kernelAccess) vm

/-- The loop of `vmm_init` over the pages of the bitmap. -/
def createBitmapPages (vm : Vm) (kernelEnd : Nat) : Option Vm :=
  (List.range (128 * 1024 / pageSize)).foldlM (fun vm i =>
    (vm.createPage (u32 (Pmm.pageAlign kernelEnd + i * pageSize)) kernelAccess).map (·.1)) vm

/-- The mapping of the video memory. -/
def mapVideo (vm : Vm) (boot : Pmm.BootInfo) : Option Vm :=
  vm.mapRange Pmm.framebufferStart boot.videoPhyStart.toNat boot.videoMapSize userAccess

/-- `vmm_init` with the directory of the boot code at `kPdir`. -/
def init (vm : Vm) (kPdir kernelEnd : Nat) (boot : Pmm.BootInfo) : Option Vm := do
  let vm := { vm with curPdir := kPdir }
  let vm ← vm.allocateTables kPdir firstNewSlot (1023 - firstNewSlot)
  let vm := vm.setEntry kPdir 1023 (entryFrame vm.cr3 ||| kernelAccess)
  let vm ← vm.createBitmapPages kernelEnd
  let vm ← vm.mapVideo boot
  return vm.switchDirectory kPdir kPdir

/-- The directory entries that the boot code sets. -/
def BootSlot (i : Nat) : Prop := i = 0 ∨ i = 1 ∨ i = 768 ∨ i = 769

instance {i : Nat} : Decidable (BootSlot i) := inferInstanceAs (Decidable (_ ∨ _ ∨ _ ∨ _))

/-- The address space that the boot code leaves: full tables for its entries, and no
other entries. -/
structure Booted (vm : Vm) (d : Nat) : Prop where
  cr3 : vm.cr3 = d * pageSize
  lt : d < 2 ^ 20
  maxFrames : vm.pmm.maxFrames ≤ 2 ^ 20
  used : vm.pmm.bit d = true
  set : ∀ i, BootSlot i → present (vm.phys.word d i) = true
  small : ∀ i, BootSlot i → large (vm.phys.word d i) = false
  table_ne : ∀ i, BootSlot i → frameNo (vm.phys.word d i) ≠ d
  table_used : ∀ i, BootSlot i → vm.pmm.bit (frameNo (vm.phys.word d i)) = true
  full : ∀ i, BootSlot i → ∀ k < 1024, present (vm.phys.word (frameNo (vm.phys.word d i)) k) = true
  empty : ∀ i < 1024, ¬BootSlot i → vm.phys.word d i = 0

/-- The directory entries from `s` on have been given the frames `fs`. -/
structure Handed (vm vm' : Vm) (d s : Nat) (fs : List Nat) : Prop where
  cr3 : vm'.cr3 = vm.cr3
  curPdir : vm'.curPdir = vm.curPdir
  maxFrames : vm'.pmm.maxFrames = vm.pmm.maxFrames
  entry : ∀ k f, fs[k]? = some f → vm'.phys.word d (s + k) = newEntry 0 f kernelAccess
  other : ∀ g j, j < 1024 → (g ≠ d ∨ j < s ∨ s + fs.length ≤ j) →
    vm'.phys.word g j = vm.phys.word g j
  bits : ∀ g, vm'.pmm.bit g = true ↔ vm.pmm.bit g = true ∨ g ∈ fs
  fresh : ∀ f ∈ fs, vm.pmm.bit f = false ∧ f < 2 ^ 20
  nodup : fs.Nodup

variable {vm vm' : Vm} {d s n : Nat}

/-- The first loop of `vmm_init` hands out the next frames. -/
theorem allocateTables_handed (hd : vm.pmm.bit d = true) (hmax : vm.pmm.maxFrames ≤ 2 ^ 20)
    (hn : s + n ≤ 1024) (hempty : ∀ i, s ≤ i → i < s + n → vm.phys.word d i = 0)
    (hrun : vm.allocateTables (d * pageSize) s n = some vm') :
    (vm.pmm.nextFrames n).length = n ∧ Handed vm vm' d s (vm.pmm.nextFrames n) := by
  induction n generalizing vm s with
  | zero =>
    cases hrun
    refine ⟨rfl, rfl, rfl, rfl, fun k f hf => ?_, fun _ _ _ _ => rfl, fun g => ?_,
      fun f hf => absurd hf not_mem_nil, nodup_nil⟩
    · cases hf
    · exact (or_iff_left not_mem_nil).symm
  | succ n ih =>
    have hzero := hempty s (Nat.le_refl s) (by omega)
    have habsent : present (vm.phys.word d s) = false := by
      rw [hzero]
      rfl
    rw [allocateTables, range'_succ, foldlM_cons, Option.bind_eq_bind, Option.bind_eq_some_iff]
      at hrun
    obtain ⟨vm₁, hfirst, hrest⟩ := hrun
    rw [pdeAllocate, show entryAddr (d * pageSize) s = Bytes.wordAddr d s from rfl,
      pageAllocate_eq habsent, Option.map_eq_some_iff] at hfirst
    obtain ⟨⟨f, pmm⟩, halloc, rfl⟩ := hfirst
    obtain ⟨hne, hlt, hclear, hpmm⟩ := Pmm.allocateFrame_eq_some halloc
    have hbits : ∀ g, pmm.bit g = true ↔ vm.pmm.bit g = true ∨ g = f := fun g => by
      rw [hpmm, Pmm.bit_markFrameUsed, Bool.or_eq_true, beq_iff_eq]
    have hmax' : pmm.maxFrames = vm.pmm.maxFrames := by rw [hpmm, Pmm.maxFrames_markFrameUsed]
    have hword : ∀ g j, j < 1024 → (g ≠ d ∨ j ≠ s) →
        (vm.phys.setWord d s (newEntry (vm.phys.word d s) f kernelAccess)).word g j =
          vm.phys.word g j :=
      fun g j hj hcases => Bytes.word_setWord_of_ne (by omega) hj hcases
    obtain ⟨hlength, hh⟩ := ih ((hbits d).mpr (.inl hd)) (hmax' ▸ hmax) (by omega)
      (fun i hlo hhi => (hword d i (by omega) (.inr (by omega))).trans
        (hempty i (by omega) (by omega))) hrest
    have hnext : vm.pmm.nextFrames (n + 1) = f :: pmm.nextFrames n := by
      rw [Pmm.nextFrames, halloc]
    dsimp only at hlength hh
    rw [hnext]
    refine ⟨by rw [length_cons, hlength], hh.cr3, hh.curPdir,
      hh.maxFrames.trans hmax', ?_, ?_, ?_, ?_, ?_⟩
    · intro k g hk
      cases k with
      | zero =>
        rw [getElem?_cons_zero, Option.some.injEq] at hk
        rw [Nat.add_zero, hh.other d s (by omega) (.inr (.inl (lt_succ_self s)))]
        rw [Bytes.word_setWord_self, mod_eq_of_lt newEntry_lt, hzero, hk]
      | succ k =>
        rw [show s + (k + 1) = s + 1 + k by omega, hh.entry k g hk]
    · intro g j hj hcases
      rw [length_cons] at hcases
      rw [hh.other g j hj (by omega)]
      exact hword g j hj (by omega)
    · intro g
      rw [hh.bits g, hbits g, mem_cons, or_assoc]
    · intro g hg
      obtain rfl | hmem := mem_cons.mp hg
      · exact ⟨hclear, Nat.lt_of_lt_of_le hlt hmax⟩
      · obtain ⟨hfree, hbelow⟩ := hh.fresh g hmem
        refine ⟨Bool.eq_false_iff.mpr fun hset => ?_, hbelow⟩
        rw [(hbits g).mpr (.inl hset)] at hfree
        cases hfree
    · refine nodup_cons.mpr ⟨fun hmem => ?_, hh.nodup⟩
      have hfree := (hh.fresh f hmem).1
      rw [(hbits f).mpr (.inr rfl)] at hfree
      cases hfree

/-- The state of `vmm_init` behind the recursive entry. -/
def withTables (vm : Vm) (d : Nat) : Vm :=
  vm.setEntry (d * pageSize) 1023 (entryFrame vm.cr3 ||| kernelAccess)

variable {fs : List Nat} {i k f : Nat}

theorem word_withTables {g j : Nat} (hj : j < 1024) (hne : g ≠ d ∨ j ≠ 1023) :
    (vm.withTables d).phys.word g j = vm.phys.word g j :=
  Bytes.word_setWord_of_ne (by decide) hj hne

theorem word_withTables_self (hcr3 : vm.cr3 = d * pageSize) (hd : d < 2 ^ 20) :
    (vm.withTables d).phys.word d 1023 = d * pageSize ||| kernelAccess % pageSize := by
  have hframe : entryFrame vm.cr3 = d * pageSize := by
    rw [hcr3, entryFrame, Nat.mul_div_cancel d (by decide)]
  have hlt : d * pageSize < 2 ^ 32 := by
    rw [pageSize]
    omega
  have hentry : d * pageSize ||| kernelAccess % pageSize < 2 ^ 32 := or_flags_lt hlt
  refine (Bytes.word_setWord_self).trans ?_
  rw [hframe]
  exact mod_eq_of_lt hentry

/-- What the entries of the directory are now. -/
structure Entered (vm vm' : Vm) (d : Nat) (fs : List Nat) : Prop where
  length : fs.length = 1023 - firstNewSlot
  boot : ∀ i, BootSlot i → vm'.phys.word d i = vm.phys.word d i
  new : ∀ i, firstNewSlot ≤ i → i < 1023 →
    ∃ f, fs[i - firstNewSlot]? = some f ∧ vm'.phys.word d i = newEntry 0 f kernelAccess
  empty : ∀ i < firstNewSlot, ¬BootSlot i → vm'.phys.word d i = 0
  self : vm'.phys.word d 1023 = d * pageSize ||| kernelAccess % pageSize
  other : ∀ g ≠ d, ∀ j < 1024, vm'.phys.word g j = vm.phys.word g j
  bits : ∀ g, vm'.pmm.bit g = true ↔ vm.pmm.bit g = true ∨ g ∈ fs
  fresh : ∀ f ∈ fs, vm.pmm.bit f = false ∧ f < 2 ^ 20
  nodup : fs.Nodup
  cr3 : vm'.cr3 = d * pageSize
  curPdir : vm'.curPdir = d * pageSize
  maxFrames : vm'.pmm.maxFrames = vm.pmm.maxFrames

theorem BootSlot.lt (h : BootSlot i) : i < firstNewSlot := by
  obtain rfl | rfl | rfl | rfl := h <;> decide

theorem Booted.entered (h : vm.Booted d)
    (hrun : ({ vm with curPdir := d * pageSize } : Vm).allocateTables (d * pageSize) firstNewSlot
      (1023 - firstNewSlot) = some vm') :
    Entered vm (vm'.withTables d) d (vm.pmm.nextFrames (1023 - firstNewSlot)) := by
  have hempty : ∀ i, firstNewSlot ≤ i → i < firstNewSlot + (1023 - firstNewSlot) →
      vm.phys.word d i = 0 := by
    intro i hlo hhi
    refine h.empty i ?_ fun hboot => ?_
    · omega
    · have hlt := hboot.lt
      omega
  obtain ⟨hlength, hh⟩ := @allocateTables_handed { vm with curPdir := d * pageSize } vm'
    d _ _ h.used h.maxFrames (by decide) hempty hrun
  have hcr3 : vm'.cr3 = d * pageSize := hh.cr3.trans h.cr3
  have hbefore : ∀ i < firstNewSlot, (vm'.withTables d).phys.word d i = vm.phys.word d i := by
    intro i hi
    rw [firstNewSlot] at hi
    rw [word_withTables (by omega) (.inr (by omega))]
    exact hh.other d i (by omega) (.inr (.inl hi))
  refine ⟨hlength, fun i hi => hbefore i hi.lt, fun i hlo hhi => ?_, fun i hi hboot => ?_,
    word_withTables_self hcr3 h.lt, fun g hg j hj => ?_, hh.bits, hh.fresh, hh.nodup,
      hcr3, hh.curPdir, hh.maxFrames⟩
  · have hindex : i - firstNewSlot < (vm.pmm.nextFrames (1023 - firstNewSlot)).length := by
      rw [hlength]
      omega
    refine ⟨_, getElem?_eq_getElem hindex, ?_⟩
    rw [word_withTables (by omega) (.inr (by omega)), ← hh.entry _ _ (getElem?_eq_getElem hindex),
      Nat.add_sub_cancel' hlo]
  · rw [hbefore i hi]
    exact h.empty i (by rw [firstNewSlot] at hi; omega) hboot
  · rw [word_withTables hj (.inl hg)]
    exact hh.other g j hj (.inl hg)

variable (h : Entered vm vm' d fs)
include h

/-- The frame of a new slot. -/
theorem Entered.new_frame (hlo : firstNewSlot ≤ i) (hhi : i < 1023) :
    ∃ f, fs[i - firstNewSlot]? = some f ∧ f ∈ fs ∧ present (vm'.phys.word d i) = true ∧
      large (vm'.phys.word d i) = false ∧ frameNo (vm'.phys.word d i) = f := by
  obtain ⟨f, hf, hword⟩ := h.new i hlo hhi
  have hmem : f ∈ fs := mem_of_getElem? hf
  rw [hword]
  exact ⟨f, hf, hmem, present_newEntry rfl, large_newEntry rfl rfl,
    frameNo_newEntry (h.fresh f hmem).2⟩

/-- Every slot below the last one is one of the boot code, a new one, or empty. -/
theorem Entered.slots (hpresent : present (vm'.phys.word d i) = true) :
    BootSlot i ∨ firstNewSlot ≤ i := by
  by_cases hboot : BootSlot i
  · exact .inl hboot
  · by_cases hlo : firstNewSlot ≤ i
    · exact .inr hlo
    · rw [h.empty i (by omega) hboot] at hpresent
      cases hpresent

theorem Entered.space (hboot : vm.Booted d) : vm'.Space d := by
  have hself : present (vm'.phys.word d 1023) = true ∧ frameNo (vm'.phys.word d 1023) = d := by
    rw [h.self, present_or_flags, frameNo_or_flags, frameNo, Nat.mul_div_cancel d (by decide)]
    exact ⟨Bool.or_true _, rfl⟩
  -- a new table is neither the directory nor a table of the boot code
  have hnew : ∀ f ∈ fs, ∀ g, vm.pmm.bit g = true → f ≠ g := by
    rintro f hf g hg rfl
    rw [(h.fresh f hf).1] at hg
    cases hg
  refine ⟨⟨h.cr3, h.curPdir, hself.1, hself.2⟩, fun i hi hpresent => ?_, fun i hi hpresent => ?_,
    fun i hi => ?_, fun i hi j hj hij hpi hpj hframe k hk => ?_, h.maxFrames ▸ hboot.maxFrames⟩
  · obtain hslot | hslot := h.slots hpresent
    · rw [h.boot i hslot]
      exact hboot.table_ne i hslot
    · obtain ⟨f, -, hmem, -, -, hframe⟩ := h.new_frame hslot hi
      rw [hframe]
      exact hnew f hmem d hboot.used
  · rw [h.bits]
    by_cases hlast : i = 1023
    · rw [hlast, hself.2]
      exact .inl hboot.used
    · obtain hslot | hslot := h.slots hpresent
      · rw [h.boot i hslot]
        exact .inl (hboot.table_used i hslot)
      · obtain ⟨f, -, hmem, -, -, hframe⟩ := h.new_frame hslot (by omega)
        rw [hframe]
        exact .inr hmem
  · by_cases hslot : BootSlot i
    · rw [h.boot i hslot]
      exact hboot.small i hslot
    · by_cases hlo : firstNewSlot ≤ i
      · obtain ⟨f, -, -, -, hsmall, -⟩ := h.new_frame hlo hi
        exact hsmall
      · rw [h.empty i (by omega) hslot]
        rfl
  · obtain hslot | hslot := h.slots hpi
    · rw [h.boot i hslot, h.other _ (hboot.table_ne i hslot) k hk]
      exact hboot.full i hslot k hk
    · obtain ⟨f, hf, hmem, -, -, hfi⟩ := h.new_frame hslot hi
      rw [hfi] at hframe
      obtain hslot' | hslot' := h.slots hpj
      · rw [h.boot j hslot'] at hframe
        exact absurd hframe (hnew f hmem _ (hboot.table_used j hslot'))
      · obtain ⟨f', hf', -, -, -, hfj⟩ := h.new_frame hslot' hj
        rw [hfj] at hframe
        subst hframe
        have hindex := (getElem?_inj (List.getElem?_eq_some_iff.mp hf).1 h.nodup).mp
          (hf.trans hf'.symm)
        omega

/-- The pages of the kernel half before anything is mapped: those of the boot code, and
those for which a new table has a word with its lowest bit set. -/
theorem Entered.present_iff (hboot : vm.Booted d) {q : Nat}
    (hlo : 768 * 1024 ≤ q) (hhi : q < 1023 * 1024) :
    mapping vm'.phys d q ≠ none ↔ q < firstNewSlot * 1024 ∨
      ∃ f, fs[q / 1024 - firstNewSlot]? = some f ∧ present (vm.phys.word f (q % 1024)) = true := by
  have hmod : q % 1024 < 1024 := mod_lt q (by decide)
  by_cases hq : q < firstNewSlot * 1024
  · refine iff_of_true (fun hnone => ?_) (.inl hq)
    have hslot : BootSlot (q / 1024) := by
      rw [firstNewSlot] at hq
      rw [BootSlot]
      omega
    have hset : present (vm'.phys.word d (q / 1024)) = true := by
      rw [h.boot _ hslot]
      exact hboot.set _ hslot
    have hleaf := mapping_eq_none_iff.mp hnone hset
    rw [leaf, h.boot _ hslot, h.other _ (hboot.table_ne _ hslot) _ hmod, hboot.full _ hslot _ hmod]
      at hleaf
    cases hleaf
  · have hslot : firstNewSlot ≤ q / 1024 := by
      omega
    obtain ⟨f, hf, hmem, hset, -, hframe⟩ := h.new_frame hslot (by omega)
    have hne : f ≠ d := by
      rintro rfl
      exact absurd ((h.fresh f hmem).1.symm.trans hboot.used) (by decide)
    rw [or_iff_right hq, Ne, mapping_eq_none_iff, leaf, hframe, h.other f hne _ hmod]
    simp [hset, hf]

end Vm

end Hos
