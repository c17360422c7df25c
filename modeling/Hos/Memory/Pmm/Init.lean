import Hos.Lib.Loop
import Hos.Memory.Pmm.Basic

/-!
# The initial frame map

`pmm_init` marks every frame as used, releases the frames of the available
regions of the memory map and takes back those of the boot loader, the kernel,
the bitmap and the video memory. Every region is given by a start address and a
length, which are cut to 32 bits and rounded down to frames independently of
each other. The frames that are free in the end can be read off the memory map
and the boot information.
-/

namespace Hos.Pmm

open List Nat

/-- `FRAME_SIZE`. -/
def frameSize : Nat := 4096

/-- An entry of the multiboot memory map; addresses and lengths have 64 bits. -/
structure MmapEntry where
  addr : UInt64
  len : UInt64
  type : UInt32

/-- The fields of `boot_info_t` that describe the physical memory. -/
structure BootInfo where
  bootloaderPhyStart : UInt32
  bootloaderPhyEnd : UInt32
  kernelPhyStart : UInt32
  kernelPhyEnd : UInt32
  kernelSize : UInt32
  highestAddress : UInt32
  videoPhyStart : UInt32
  videoPhyEnd : UInt32

/-- `PAGE_ALIGN`. -/
def pageAlign (addr : Nat) : Nat := u32 (addr + 4095) / 4096 * 4096

/-- `pmm_init_region`. -/
def initRegion (p : Pmm) (addr length : Nat) : Pmm :=
  (List.range (length / frameSize)).foldl (fun p i => p.frameUnset (u32 (i + addr / frameSize))) p

/-- `pmm_deinit_region`. -/
def deinitRegion (p : Pmm) (addr length : Nat) : Pmm :=
  (List.range (length / frameSize)).foldl (fun p i => p.frameSet (u32 (i + addr / frameSize))) p

/-- The number of frames, `(memsize >> FRAME_SHIFT) + 1`. -/
def BootInfo.maxFrames (boot : BootInfo) : Nat := boot.highestAddress.toNat / frameSize + 1

theorem BootInfo.maxFrames_le (boot : BootInfo) : boot.maxFrames ≤ 2 ^ 20 := by
  have hlt := boot.highestAddress.toNat_lt
  simp only [maxFrames, frameSize]
  omega

/-- The words of the bitmap, `FRAME_INDEX(max_frames - 1) + 1`. -/
def BootInfo.bitmapWords (boot : BootInfo) : Nat := (boot.maxFrames - 1) / 32 + 1

/-- `frames_bitmap_size`. -/
def BootInfo.framesBitmapSize (boot : BootInfo) : Nat := boot.bitmapWords * 4

/-- The physical address of the bitmap. -/
def BootInfo.bitmapPhyStart (boot : BootInfo) : Nat := pageAlign boot.kernelPhyEnd.toNat

/-- `addressable_phy_ptr - kernel_phy_end`: the length reserved for the bitmap. -/
def BootInfo.bitmapReserve (boot : BootInfo) : Nat :=
  sub32 (u32 (boot.bitmapPhyStart + boot.framesBitmapSize)) boot.kernelPhyEnd.toNat

/-- `video_phy_end - video_phy_start`. -/
def BootInfo.videoSize (boot : BootInfo) : Nat :=
  sub32 boot.videoPhyEnd.toNat boot.videoPhyStart.toNat

/-- The bitmap with all frames marked as used, as `memset` leaves it. -/
def markAllUsed (p : Pmm) (boot : BootInfo) : Pmm :=
  { p with
    maxFrames := boot.maxFrames
    framesBitmap := fun i => if i < boot.bitmapWords then BitVec.allOnes 32 else p.framesBitmap i }

/-- The loop over the memory map. -/
def initRegions (p : Pmm) (entries : List MmapEntry) : Pmm :=
  entries.foldl (fun p e => if e.type = 1 then p.initRegion (u32 e.addr.toNat) (u32 e.len.toNat)
    else p) p

/-- The regions that are taken back. -/
def deinitRegions (p : Pmm) (boot : BootInfo) : Pmm :=
  let p := p.frameSet 0
  let p := p.deinitRegion 0 boot.bootloaderPhyEnd.toNat
  let p := p.deinitRegion boot.kernelPhyStart.toNat boot.kernelSize.toNat
  let p := p.deinitRegion boot.kernelPhyEnd.toNat boot.bitmapReserve
  p.deinitRegion boot.videoPhyStart.toNat boot.videoSize

/-- The body of the counting loop for bit `j` of word `i`. -/
def countBit (i : Nat) (p : Pmm) (j : Nat) : Pmm :=
  if p.framesBitmap i &&& (1#32 <<< j) ≠ 0#32 then { p with usedFrames := u32 (p.usedFrames + 1) }
  else p

/-- The final loop, which counts the set bits of the whole words. -/
def countUsed (p : Pmm) : Pmm :=
  (List.range (p.maxFrames / 32)).foldl (fun p i => (List.range 32).foldl (countBit i) p) p

/-- `pmm_init`. -/
def init (p : Pmm) (boot : BootInfo) (entries : List MmapEntry) : Pmm :=
  (((p.markAllUsed boot).initRegions entries).deinitRegions boot).countUsed

section

variable {p : Pmm} {f addr length : Nat}

/-- The frames that a region stands for after rounding. -/
def InFrames (addr length f : Nat) : Prop :=
  addr / frameSize ≤ f ∧ f < addr / frameSize + length / frameSize

instance : Decidable (InFrames addr length f) := inferInstanceAs (Decidable (_ ∧ _))

theorem bit_foldl_frameUnset {ι : Type} {g : ι → Nat} (l : List ι) :
    (l.foldl (fun p i => p.frameUnset (g i)) p).bit f = (p.bit f && l.all fun i => f != g i) := by
  induction l generalizing p with
  | nil => rw [foldl_nil, all_nil, Bool.and_true]
  | cons i l ih => rw [foldl_cons, ih, bit_frameUnset, all_cons, Bool.and_assoc]

theorem bit_foldl_frameSet {ι : Type} {g : ι → Nat} (l : List ι) :
    (l.foldl (fun p i => p.frameSet (g i)) p).bit f = (p.bit f || l.any fun i => f == g i) := by
  induction l generalizing p with
  | nil => rw [foldl_nil, any_nil, Bool.or_false]
  | cons i l ih => rw [foldl_cons, ih, bit_frameSet, any_cons, Bool.or_assoc]

section

variable (haddr : addr < 2 ^ 32) (hlength : length < 2 ^ 32)
include haddr hlength

theorem u32_frame {i : Nat}
    (hi : i < length / frameSize) : u32 (i + addr / frameSize) = i + addr / frameSize := by
  apply u32_of_lt
  simp only [frameSize] at hi ⊢
  omega

/-- The frame numbers of the two loops. -/
theorem exists_u32_frame_iff :
    (∃ i < length / frameSize, f = u32 (i + addr / frameSize)) ↔ InFrames addr length f := by
  constructor
  · rintro ⟨i, hi, rfl⟩
    rw [u32_frame haddr hlength hi, InFrames]
    omega
  · rintro ⟨hlo, hhi⟩
    have hi : f - addr / frameSize < length / frameSize := by omega
    refine ⟨f - addr / frameSize, hi, ?_⟩
    rw [u32_frame haddr hlength hi]
    omega

theorem bit_initRegion :
    (p.initRegion addr length).bit f = (p.bit f && !decide (InFrames addr length f)) := by
  rw [initRegion, bit_foldl_frameUnset, Bool.eq_iff_iff]
  simp [← exists_u32_frame_iff haddr hlength]

theorem bit_deinitRegion :
    (p.deinitRegion addr length).bit f = (p.bit f || decide (InFrames addr length f)) := by
  rw [deinitRegion, bit_foldl_frameSet, Bool.eq_iff_iff]
  simp [← exists_u32_frame_iff haddr hlength]

end

/-- The frames that the memory map releases. -/
def Released (entries : List MmapEntry) (f : Nat) : Prop :=
  ∃ e ∈ entries, e.type = 1 ∧ InFrames (u32 e.addr.toNat) (u32 e.len.toNat) f

instance {entries : List MmapEntry} : Decidable (Released entries f) :=
  inferInstanceAs (Decidable (∃ e ∈ entries, _ ∧ _))

theorem released_cons {e : MmapEntry} {entries : List MmapEntry} :
    Released (e :: entries) f ↔
      (e.type = 1 ∧ InFrames (u32 e.addr.toNat) (u32 e.len.toNat) f) ∨ Released entries f := by
  simp [Released]

theorem bit_initRegions (entries : List MmapEntry) :
    (p.initRegions entries).bit f = (p.bit f && !decide (Released entries f)) := by
  induction entries generalizing p with
  | nil => simp [initRegions, Released]
  | cons e entries ih =>
    have hstep : p.initRegions (e :: entries) =
        (if e.type = 1 then p.initRegion (u32 e.addr.toNat) (u32 e.len.toNat) else p).initRegions
          entries := rfl
    rw [hstep, ih]
    by_cases htype : e.type = 1
    · rw [if_pos htype, bit_initRegion (u32_lt _) (u32_lt _), Bool.and_assoc]
      congr 1
      simp [released_cons, htype]
    · rw [if_neg htype]
      congr 2
      simp [released_cons, htype]

/-- The two numbers that releasing and reserving regions leave alone. -/
def counters (p : Pmm) : Nat × Nat := (p.maxFrames, p.usedFrames)

theorem counters_initRegions (entries : List MmapEntry) :
    (p.initRegions entries).counters = p.counters := by
  apply foldl_keeps counters
  intro p e
  split
  · apply foldl_keeps counters
    exact fun _ _ => rfl
  · rfl

theorem counters_deinitRegion : (p.deinitRegion addr length).counters = p.counters := by
  apply foldl_keeps counters
  exact fun _ _ => rfl

variable {boot : BootInfo}

theorem counters_deinitRegions : (p.deinitRegions boot).counters = p.counters := by
  simp only [deinitRegions, counters_deinitRegion]
  rfl

theorem bit_markAllUsed (hf : f < boot.maxFrames) : (p.markAllUsed boot).bit f = true := by
  have hword : f / 32 < boot.bitmapWords := by
    exact lt_succ_of_le (Nat.div_le_div_right (le_sub_one_of_lt hf))
  simp only [bit, wordBit, markAllUsed, hword, if_true]
  rw [BitVec.getLsbD_allOnes, decide_eq_true (mod_lt _ (by decide))]

/-- The frames that are taken back. -/
def Reserved (boot : BootInfo) (f : Nat) : Prop :=
  f = 0 ∨ InFrames 0 boot.bootloaderPhyEnd.toNat f ∨
    InFrames boot.kernelPhyStart.toNat boot.kernelSize.toNat f ∨
    InFrames boot.kernelPhyEnd.toNat boot.bitmapReserve f ∨
    InFrames boot.videoPhyStart.toNat boot.videoSize f

instance : Decidable (Reserved boot f) := inferInstanceAs (Decidable (_ ∨ _ ∨ _ ∨ _ ∨ _))

theorem bit_deinitRegions : (p.deinitRegions boot).bit f =
    (p.bit f || decide (Reserved boot f)) := by
  have hreserve : boot.bitmapReserve < 2 ^ 32 := sub32_lt _ _
  have hvideo : boot.videoSize < 2 ^ 32 := sub32_lt _ _
  simp only [deinitRegions]
  rw [bit_deinitRegion (UInt32.toNat_lt _) hvideo, bit_deinitRegion (UInt32.toNat_lt _) hreserve,
    bit_deinitRegion (UInt32.toNat_lt _) (UInt32.toNat_lt _),
    bit_deinitRegion (by decide) (UInt32.toNat_lt _), bit_frameSet]
  rw [Bool.eq_iff_iff]
  simp only [Bool.or_eq_true, decide_eq_true_eq, beq_iff_eq, or_assoc]
  exact Iff.rfl

end

section

variable {p : Pmm}

/-- A counting step adds the bit to the counter and changes nothing else. -/
theorem countBit_eq {i j n : Nat} (hj : j < 32) (hn : n < 2 ^ 32) :
    countBit i { p with usedFrames := n } j =
      { p with usedFrames := u32 (n + (p.bit (i * 32 + j)).toNat) } := by
  have hdiv : (i * 32 + j) / 32 = i := by omega
  have hmod : (i * 32 + j) % 32 = j := by omega
  have hbit : p.bit (i * 32 + j) = (p.framesBitmap i).getLsbD j := by rw [bit, wordBit, hdiv, hmod]
  rw [countBit, hbit]
  by_cases hzero : p.framesBitmap i &&& 1#32 <<< j = 0#32
  · rw [if_neg (not_not.mpr hzero), (and_mask_eq_zero_iff hj).mp hzero, Bool.toNat_false,
      add_zero, u32_of_lt hn]
  · have hset := mt (and_mask_eq_zero_iff hj).mpr hzero
    rw [if_pos hzero, Bool.eq_true_of_not_eq_false hset, Bool.toNat_true]

theorem countWord_eq {i n : Nat} (hn : n < 2 ^ 32) {m : Nat} (hm : m ≤ 32) :
    (List.range m).foldl (countBit i) { p with usedFrames := n } =
      { p with usedFrames := u32 (n + setCount (fun j => p.bit (i * 32 + j)) m) } := by
  induction m with
  | zero => rw [range_zero, foldl_nil, setCount_zero, add_zero, u32_of_lt hn]
  | succ m ih =>
    rw [range_succ, foldl_append, ih (le_of_succ_le hm), foldl_cons,
      foldl_nil, countBit_eq hm (u32_lt _), setCount_succ, ← add_assoc]
    simp only [u32, mod_add_mod]

theorem countWords_eq {n : Nat} (hn : n < 2 ^ 32) (words : Nat) :
    (List.range words).foldl (fun p i => (List.range 32).foldl (countBit i) p)
    { p with usedFrames := n } =
      { p with usedFrames := u32 (n + setCount p.bit (words * 32)) } := by
  induction words with
  | zero =>
    rw [range_zero, foldl_nil, zero_mul, setCount_zero, add_zero, u32_of_lt hn]
  | succ words ih =>
    rw [range_succ (n := words), foldl_append, ih, foldl_cons, foldl_nil,
      countWord_eq (u32_lt _) (le_refl _), succ_mul, setCount_add, ← add_assoc]
    simp only [u32, mod_add_mod]

/-- The counting loop adds the set bits of the whole words to the counter. -/
theorem countUsed_eq (hused : p.usedFrames < 2 ^ 32) :
    p.countUsed =
      { p with usedFrames := u32 (p.usedFrames + setCount p.bit (p.maxFrames / 32 * 32)) } :=
  countWords_eq hused _

theorem countBit_framesBitmap (i j : Nat) : (countBit i p j).framesBitmap = p.framesBitmap := by
  rw [countBit]
  split <;> rfl

@[simp] theorem bit_countUsed {f : Nat} : p.countUsed.bit f = p.bit f := by
  have hwords : p.countUsed.framesBitmap = p.framesBitmap := by
    apply foldl_keeps framesBitmap
    intro p i
    exact foldl_keeps framesBitmap (fun p j => countBit_framesBitmap i j) _ p
  rw [bit, bit, hwords]

end

variable {p : Pmm} {boot : BootInfo} {entries : List MmapEntry} {f : Nat}

/-- The frames below `max_frames` that are free after `pmm_init`. -/
theorem bit_init (hf : f < boot.maxFrames) :
    (p.init boot entries).bit f = false ↔ Released entries f ∧ ¬Reserved boot f := by
  rw [init, bit_countUsed, bit_deinitRegions, bit_initRegions, bit_markAllUsed hf, Bool.true_and,
    Bool.or_eq_false_iff, Bool.not_eq_false', decide_eq_true_eq, decide_eq_false_iff_not]

/-- `pmm_init` leaves `lowest_available` at zero. -/
theorem lowestAvailable_init (hlow : p.lowestAvailable = 0) (entries : List MmapEntry) :
    (p.init boot entries).lowestAvailable = 0 := by
  have hinit : ((p.markAllUsed boot).initRegions entries).lowestAvailable = 0 := by
    refine lowestAvailable_foldl entries hlow fun q e hq => ?_
    split
    · exact lowestAvailable_foldl _ hq fun _ _ hq' => lowestAvailable_frameUnset hq'
    · exact hq
  have hdeinit : ∀ {q : Pmm} {a n : Nat}, q.lowestAvailable = 0 →
      (q.deinitRegion a n).lowestAvailable = 0 :=
    fun hq => lowestAvailable_foldl _ hq fun _ _ hq' => hq'
  refine lowestAvailable_foldl _ ?_ fun q i hq => lowestAvailable_foldl _ hq fun q' j hq' => ?_
  · exact hdeinit (hdeinit (hdeinit (hdeinit hinit)))
  · rw [countBit]
    split
    · exact hq'
    · exact hq'

/-- Frame `f` has an address in common with `[start, stop)`. -/
def Overlaps (f start stop : Nat) : Prop := ∃ a, a / frameSize = f ∧ start ≤ a ∧ a < stop

/-- Frame `f` is a frame of an available region. -/
def Available (entries : List MmapEntry) (f : Nat) : Prop :=
  ∃ e ∈ entries, e.type = 1 ∧ e.addr.toNat ≤ f * frameSize ∧
    (f + 1) * frameSize ≤ e.addr.toNat + e.len.toNat

/-- What holds of a frame that may be handed out. -/
structure Usable (boot : BootInfo) (entries : List MmapEntry) (f : Nat) : Prop where
  available : Available entries f
  nonzero : f ≠ 0
  bootloader : ¬Overlaps f boot.bootloaderPhyStart.toNat boot.bootloaderPhyEnd.toNat
  kernel : ¬Overlaps f boot.kernelPhyStart.toNat boot.kernelPhyEnd.toNat
  bitmap : ¬Overlaps f boot.bitmapPhyStart (boot.bitmapPhyStart + boot.framesBitmapSize)
  video : ¬Overlaps f boot.videoPhyStart.toNat boot.videoPhyEnd.toNat

/-! ## Regions and rounding -/

/-- Memory `[start, stop)` that must not be handed out, with the address and the length
that are taken back for it. -/
structure Reservation where
  start : Nat
  stop : Nat
  addr : Nat
  length : Nat

/-- The arguments of `pmm_deinit_region`, next to the memory each call is for. -/
def BootInfo.reservations (boot : BootInfo) : List Reservation :=
  [⟨boot.bootloaderPhyStart.toNat, boot.bootloaderPhyEnd.toNat, 0, boot.bootloaderPhyEnd.toNat⟩,
    ⟨boot.kernelPhyStart.toNat, boot.kernelPhyEnd.toNat, boot.kernelPhyStart.toNat,
      boot.kernelSize.toNat⟩,
    ⟨boot.bitmapPhyStart, boot.bitmapPhyStart + boot.framesBitmapSize, boot.kernelPhyEnd.toNat,
      boot.bitmapReserve⟩,
    ⟨boot.videoPhyStart.toNat, boot.videoPhyEnd.toNat, boot.videoPhyStart.toNat, boot.videoSize⟩]

/-- The frames of the memory that the rounding of address and length leaves out. -/
def Reservation.Missed (r : Reservation) (f : Nat) : Prop :=
  r.start < r.stop ∧ r.start / frameSize ≤ f ∧ f ≤ (r.stop - 1) / frameSize ∧
    (f < r.addr / frameSize ∨ r.addr / frameSize + r.length / frameSize ≤ f)

/-- The frames that an entry of the memory map releases without containing them: the
first one of a region that starts in the middle of it, and all of them when the address
has more than 32 bits. -/
def MmapEntry.Misplaced (e : MmapEntry) (f : Nat) : Prop :=
  if e.addr.toNat < 2 ^ 32 then
    f = e.addr.toNat / frameSize ∧ ¬frameSize ∣ e.addr.toNat ∧ frameSize ≤ u32 e.len.toNat
  else InFrames (u32 e.addr.toNat) (u32 e.len.toNat) f

/-- A frame that an entry misplaces is taken back or inside of another available region,
and a frame that a reservation misses is taken back for another one or never released. -/
structure Rounded (boot : BootInfo) (entries : List MmapEntry) : Prop where
  available : ∀ e ∈ entries, e.type = 1 → ∀ f < boot.maxFrames, e.Misplaced f →
    Reserved boot f ∨ Available entries f
  reserved : ∀ r ∈ boot.reservations, ∀ f < boot.maxFrames, r.Missed f →
    Reserved boot f ∨ ¬Released entries f

theorem overlaps_iff {start stop : Nat} : Overlaps f start stop ↔
    start < stop ∧ start / frameSize ≤ f ∧ f ≤ (stop - 1) / frameSize := by
  rw [Overlaps, frameSize]
  constructor
  · rintro ⟨a, rfl, hlo, hhi⟩
    omega
  · rintro ⟨hlt, hlo, hhi⟩
    refine ⟨max start (f * 4096), ?_, le_max_left _ _, ?_⟩
    · omega
    · omega

theorem reserved_iff : Reserved boot f ↔
    f = 0 ∨ ∃ r ∈ boot.reservations, InFrames r.addr r.length f := by
  simp [Reserved, BootInfo.reservations]

theorem Usable.not_overlaps (h : Usable boot entries f) :
    ∀ r ∈ boot.reservations, ¬Overlaps f r.start r.stop := by
  simp only [BootInfo.reservations, forall_mem_cons]
  exact ⟨h.bootloader, h.kernel, h.bitmap, h.video, fun r hr => absurd hr not_mem_nil⟩

theorem usable_of_not_overlaps (havailable : Available entries f) (hzero : f ≠ 0)
    (h : ∀ r ∈ boot.reservations, ¬Overlaps f r.start r.stop) : Usable boot entries f := by
  simp only [BootInfo.reservations, forall_mem_cons] at h
  obtain ⟨hbootloader, hkernel, hbitmap, hvideo, -⟩ := h
  exact ⟨havailable, hzero, hbootloader, hkernel, hbitmap, hvideo⟩

/-- Only addresses of more than 32 bits and partial first frames make a region release
a frame that is not its own. -/
theorem MmapEntry.misplaced_iff {e : MmapEntry} (hf : f < 2 ^ 20) :
    e.Misplaced f ↔ InFrames (u32 e.addr.toNat) (u32 e.len.toNat) f ∧
      ¬(e.addr.toNat ≤ f * frameSize ∧ (f + 1) * frameSize ≤ e.addr.toNat + e.len.toNat) := by
  have hlen : u32 e.len.toNat ≤ e.len.toNat := mod_le _ _
  rw [Misplaced, InFrames, frameSize]
  split
  next haddr =>
    rw [u32_of_lt haddr, dvd_iff_mod_eq_zero]
    omega
  next haddr => exact (and_iff_left (by omega)).symm

/-- The initial map only has usable frames free exactly when the rounding of the
regions, start and length each on its own, loses nothing. -/
theorem init_usable_iff :
    (∀ f < boot.maxFrames, (p.init boot entries).bit f = false → Usable boot entries f) ↔
      Rounded boot entries := by
  have hframe : ∀ f < boot.maxFrames, f < 2 ^ 20 := fun f hf => hf.trans_le boot.maxFrames_le
  constructor
  · intro h
    refine ⟨fun e he htype f hf hmisplaced => ?_, fun r hr f hf hmissed => ?_⟩
    · by_cases hreserved : Reserved boot f
      · exact .inl hreserved
      have hreleased : Released entries f :=
        ⟨e, he, htype, ((e.misplaced_iff (hframe f hf)).mp hmisplaced).1⟩
      exact .inr (h f hf ((bit_init hf).mpr ⟨hreleased, hreserved⟩)).available
    · by_contra! hfree
      have husable := h f hf ((bit_init hf).mpr ⟨hfree.2, hfree.1⟩)
      exact husable.not_overlaps r hr (overlaps_iff.mpr ⟨hmissed.1, hmissed.2.1, hmissed.2.2.1⟩)
  · intro h f hf hclear
    obtain ⟨hreleased, hreserved⟩ := (bit_init hf).mp hclear
    have hkept := mt reserved_iff.mpr hreserved
    push Not at hkept
    refine usable_of_not_overlaps ?_ hkept.1 fun r hr hoverlap => ?_
    · obtain ⟨e, he, htype, hin⟩ := hreleased
      by_cases hinside : e.addr.toNat ≤ f * frameSize ∧
          (f + 1) * frameSize ≤ e.addr.toNat + e.len.toNat
      · exact ⟨e, he, htype, hinside⟩
      · have hmisplaced := (e.misplaced_iff (hframe f hf)).mpr ⟨hin, hinside⟩
        exact (h.available e he htype f hf hmisplaced).resolve_left hreserved
    · obtain ⟨hlt, hlo, hhi⟩ := overlaps_iff.mp hoverlap
      have hout : f < r.addr / frameSize ∨ r.addr / frameSize + r.length / frameSize ≤ f := by
        have hnot := hkept.2 r hr
        rw [InFrames] at hnot
        omega
      obtain hcase | hcase := h.reserved r hr f hf ⟨hlt, hlo, hhi, hout⟩
      · exact hreserved hcase
      · exact hcase hreleased

/-- A machine with 128 MiB of memory whose boot loader, kernel and bitmap end at pages. -/
def alignedBoot : BootInfo where
  bootloaderPhyStart := 0x100000
  bootloaderPhyEnd := 0x101000
  kernelPhyStart := 0x101000
  kernelPhyEnd := 0x155000
  kernelSize := 0x54000
  highestAddress := 0x7FFFFFF
  videoPhyStart := 0xB8000
  videoPhyEnd := 0xB8FA0

/-- The available regions of that machine. -/
def alignedMap : List MmapEntry :=
  [{ addr := 0, len := 0x9F000, type := 1 }, { addr := 0x100000, len := 0x7F00000, type := 1 }]

/-- The screen is cut off, but its frame is in no available region. -/
theorem init_usable_aligned : ∀ f < alignedBoot.maxFrames,
    (init ⟨fun _ => 0, 0, 0, 0⟩ alignedBoot alignedMap).bit f = false →
      Usable alignedBoot alignedMap f := by
  have hentries : ∀ e ∈ alignedMap, e.addr.toNat < 2 ^ 32 ∧ frameSize ∣ e.addr.toNat := by
    decide
  have hranges : ∀ r ∈ alignedBoot.reservations,
      (r.start = 0xB8000 ∧ r.stop = 0xB8FA0) ∨ (r.addr ≤ r.start ∧ r.addr + r.length = r.stop ∧
        frameSize ∣ r.addr ∧ frameSize ∣ r.stop) := by
    decide
  refine init_usable_iff.mpr ⟨fun e he _ f _ hmisplaced => ?_, fun r hr f _ hmissed => ?_⟩
  · obtain ⟨hlow, haligned⟩ := hentries e he
    rw [MmapEntry.Misplaced, if_pos hlow] at hmisplaced
    exact absurd haligned hmisplaced.2.1
  · obtain ⟨hlt, hlo, hhi, hout⟩ := hmissed
    obtain ⟨hstart, hstop⟩ | ⟨hle, hend, haddr, hstop⟩ := hranges r hr
    · have hframe : f = 0xB8 := by
        rw [hstart, frameSize] at hlo
        rw [hstop, frameSize] at hhi
        omega
      rw [hframe]
      exact .inr (by decide)
    · rw [frameSize] at *
      omega

/-- A machine with 128 MiB of memory and a boot loader and kernel that do not end
at a page. -/
def plainBoot : BootInfo where
  bootloaderPhyStart := 0x100000
  bootloaderPhyEnd := 0x100350
  kernelPhyStart := 0x100350
  kernelPhyEnd := 0x154321
  kernelSize := 0x53FD1
  highestAddress := 0x7FDFFFF
  videoPhyStart := 0xB8000
  videoPhyEnd := 0xB8FA0

/-- The available regions of that machine. -/
def plainMap : List MmapEntry :=
  [{ addr := 0, len := 0x9FC00, type := 1 }, { addr := 0x100000, len := 0x7EE0000, type := 1 }]

/-- The only frame of the bitmap is free: the length of the range that is taken
back for it is rounded down, although its start is rounded down as well. -/
theorem init_frees_bitmap :
    0x155 < plainBoot.maxFrames ∧ (init ⟨fun _ => 0, 0, 0, 0⟩ plainBoot plainMap).bit 0x155 =
      false ∧
      Overlaps 0x155 plainBoot.bitmapPhyStart
        (plainBoot.bitmapPhyStart + plainBoot.framesBitmapSize) := by
  refine ⟨by decide, ?_, 0x155000, by decide, by decide, by decide⟩
  rw [bit_init (by decide)]
  decide

end Hos.Pmm
