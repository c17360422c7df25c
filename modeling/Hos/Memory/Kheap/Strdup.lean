import Hos.Memory.Kheap.BestFit

/-!
# `strdup` and `strndup` of `string.c`

Both functions request a block of `len` bytes, store a terminator at `new[len]`
and copy `len` bytes in front of it. The terminator is one byte past the
request, so it depends on the rounding of `kmalloc` whether it still lies in
the block or falls onto whatever comes after it.

The memory records the addresses that are stored to: a store past the block is
seen there even when the byte behind the block was zero before.
-/

namespace Hos.Kheap

open List Function
open Option (bind_eq_bind bind_some)

open Bytes

/-- A memory and the addresses stored to since `kmalloc` returned, latest first. -/
structure Recorded where
  mem : Bytes
  stores : List Nat

namespace Recorded

def store (t : Recorded) (a : Nat) (b : Byte) : Recorded :=
  ⟨Function.update t.mem a b, a :: t.stores⟩

/-- `memcpy(dst, src, num)`, byte by byte from the front. -/
def memcpy (t : Recorded) (dst src : Nat) : Nat → Recorded
  | 0 => t
  | num + 1 => (t.store dst (t.mem src)).memcpy (u32 (dst + 1)) (u32 (src + 1)) num

end Recorded

section

def strlen (m : Bytes) (s : Nat) : Option Nat := do
  let eos ← whileLoop (fun eos => m eos != 0) (fun eos => some (u32 (eos + 1))) s
  let len := i32 (sub32 eos s)
  return if len < 0 then 0 else len.toNat

def strnlen (m : Bytes) (s count : Nat) : Option Nat := do
  let (sc, _) ← whileLoop (fun (p : Nat × Nat) => m p.1 != 0 && p.2 != 0)
    (fun p => some (u32 (p.1 + 1), p.2 - 1)) (s, count)
  let len := i32 (sub32 sc s)
  return if len < 0 then 0 else len.toNat

/-- What a duplication returns and leaves behind. -/
structure Duplicate (σ : Type) where
  new : Nat
  heap : Heap
  env : σ
  stores : List Nat

variable {σ : Type} (P : PageProvider σ)

/-- The common end of `strdup` and `strndup`, for `len` bytes of the string at `s`. -/
def duplicate (h : Heap) (env : σ) (s len : Nat) : Option (Duplicate σ) := do
  let (new, h, env) ← kmalloc P h env len
  if new = 0 then return ⟨0, h, env, []⟩
  let t := (Recorded.store ⟨h.mem, []⟩ (u32 (new + len)) 0).memcpy new s len
  return ⟨new, { h with mem := t.mem }, env, t.stores⟩

def strdup (h : Heap) (env : σ) (s : Nat) : Option (Duplicate σ) := do
  let len ← strlen h.mem s
  duplicate P h env s (u32 (len + 1))

def strndup (h : Heap) (env : σ) (s n : Nat) : Option (Duplicate σ) := do
  let len ← strnlen h.mem s n
  duplicate P h env s len

end

/-- The string at `a` has the bytes `str` and a terminator behind them. -/
structure Terminated (m : Bytes) (a : Nat) (str : List Byte) : Prop where
  bytes : ∀ i, (h : i < str.length) → m (a + i) = str[i]
  stop : m (a + str.length) = 0
  nonzero : ∀ c ∈ str, c ≠ 0

section

variable {m : Bytes} {a : Nat} {c : Byte} {str : List Byte}

theorem Terminated.head (h : Terminated m a (c :: str)) : m a = c ∧ c ≠ 0 :=
  ⟨h.bytes 0 (by simp), h.nonzero c mem_cons_self⟩

theorem Terminated.tail (h : Terminated m a (c :: str)) : Terminated m (a + 1) str := by
  refine ⟨fun i hi => ?_, ?_, fun d hd => h.nonzero d (mem_cons_of_mem c hd)⟩
  · have hbyte := h.bytes (i + 1) (Nat.succ_lt_succ hi)
    rw [Nat.add_assoc, Nat.add_comm 1 i]
    exact hbyte
  · have hstop := h.stop
    rw [Nat.add_assoc, Nat.add_comm 1 str.length]
    exact hstop

/-- The distance that both length functions return. -/
theorem distance_eq {n : Nat} (hend : a + n < 2 ^ 32) (hlen : n < 2 ^ 31) :
    (if i32 (sub32 (a + n) a) < 0 then 0 else (i32 (sub32 (a + n) a)).toNat) = n := by
  rw [sub32_of_le hend (Nat.le_add_right a n), Nat.add_sub_cancel_left, i32_of_lt hlen,
    if_neg (by omega)]
  rfl

theorem strlen_spec (h : Terminated m a str) (hend : a + str.length < 2 ^ 32)
    (hlen : str.length < 2 ^ 31) :
    strlen m a = some str.length := by
  have hscan : whileLoop (fun eos => m eos != 0) (fun eos => some (u32 (eos + 1))) a =
      some (a + str.length) := by
    clear hlen
    induction str generalizing a with
    | nil => exact whileLoop_of_false (by simpa using h.stop)
    | cons c str ih =>
      obtain ⟨hbyte, hc⟩ := h.head
      rw [length_cons] at hend ⊢
      have hmore : (m a != 0) = true := by simpa [hbyte] using hc
      rw [whileLoop, if_pos hmore, bind_eq_bind, bind_some, u32_of_lt (by omega),
        ih h.tail (by omega)]
      congr 1
      omega
  simp only [strlen, hscan, bind_eq_bind, bind_some, Option.pure_def, distance_eq hend hlen]

theorem strnlen_spec (h : Terminated m a str) (n : Nat) (hend : a + str.length < 2 ^ 32)
    (hlen : str.length < 2 ^ 31) : strnlen m a n = some (str.take n).length := by
  have hscan : ∃ rest, whileLoop (fun (p : Nat × Nat) => m p.1 != 0 && p.2 != 0)
      (fun p => some (u32 (p.1 + 1), p.2 - 1)) (a, n) = some (a + (str.take n).length, rest) := by
    clear hlen
    induction str generalizing a n with
    | nil =>
      refine ⟨n, ?_⟩
      have hstop : m a = 0 := h.stop
      exact (whileLoop_of_false (by simp [hstop])).trans (by simp)
    | cons c str ih =>
      cases n with
      | zero => exact ⟨0, whileLoop_of_false (by simp)⟩
      | succ n =>
        obtain ⟨hbyte, hc⟩ := h.head
        rw [length_cons] at hend
        obtain ⟨rest, hrest⟩ := ih h.tail n (by omega)
        refine ⟨rest, ?_⟩
        have hmore : (m a != 0 && n + 1 != 0) = true := by simpa [hbyte] using hc
        rw [whileLoop, if_pos hmore, bind_eq_bind, bind_some, u32_of_lt (by omega),
          Nat.add_sub_cancel, hrest, take_succ_cons, length_cons]
        congr 2
        omega
  obtain ⟨rest, hscan⟩ := hscan
  have htake : (str.take n).length ≤ str.length := by
    rw [length_take]
    omega
  simp only [strnlen, hscan, bind_eq_bind, bind_some, Option.pure_def,
    distance_eq (a := a) (n := (str.take n).length) (by omega) (by omega)]

end

section

/-- Between disjoint ranges `memcpy` moves the bytes and stores to its target alone. -/
theorem Recorded.memcpy_spec (t : Recorded) (dst src n : Nat) (hdst : dst + n ≤ 2 ^ 32)
    (hsrc : src + n ≤ 2 ^ 32) (hsep : ∀ i < n, ∀ j < n, dst + i ≠ src + j) :
    (t.memcpy dst src n).mem = t.mem.blit dst t.mem src n ∧
      ∀ x, x ∈ (t.memcpy dst src n).stores ↔ x ∈ t.stores ∨ dst ≤ x ∧ x < dst + n := by
  induction n generalizing t dst src with
  | zero =>
    refine ⟨blit_zero.symm, fun x => ?_⟩
    have hempty : ¬(dst ≤ x ∧ x < dst + 0) := by omega
    rw [Recorded.memcpy, or_iff_left hempty]
  | succ n ih =>
    by_cases hn : n = 0
    · subst hn
      refine ⟨?_, fun x => ?_⟩
      · funext x
        simp only [Recorded.memcpy, Recorded.store, Function.update, blit]
        grind
      · have hone : dst ≤ x ∧ x < dst + (0 + 1) ↔ x = dst := by omega
        rw [Recorded.memcpy, Recorded.memcpy, Recorded.store, mem_cons, hone, or_comm]
    · have hd : u32 (dst + 1) = dst + 1 := u32_of_lt (by omega)
      have hs : u32 (src + 1) = src + 1 := u32_of_lt (by omega)
      obtain ⟨hmem, hstores⟩ := ih (t.store dst (t.mem src)) (dst + 1) (src + 1) (by omega)
        (by omega) fun i hi j hj => by
          have hne := hsep (i + 1) (by omega) (j + 1) (by omega)
          omega
      rw [Recorded.memcpy, hd, hs]
      refine ⟨?_, fun x => ?_⟩
      · rw [hmem]
        funext x
        -- The source bytes that are still to be copied differ from the one just stored.
        have hkeep : ∀ j < n, (t.store dst (t.mem src)).mem (src + 1 + j) =
            t.mem (src + 1 + j) := by
          intro j hj
          have hne := hsep 0 (by omega) (j + 1) (by omega)
          exact update_of_ne (by omega) _ _
        by_cases hx : dst + 1 ≤ x ∧ x < dst + 1 + n
        · rw [blit_of_mem hx.1 hx.2, hkeep _ (by omega), blit_of_mem (by omega) (by omega)]
          congr 1
          omega
        · rw [blit_of_notMem (by omega)]
          by_cases hxd : x = dst
          · rw [hxd, blit_of_mem (Nat.le_refl _) (by omega), Nat.sub_self]
            exact update_self _ _ _
          · rw [blit_of_notMem (by omega)]
            exact update_of_ne hxd _ _
      · have hgrow : dst ≤ x ∧ x < dst + (n + 1) ↔ x = dst ∨ dst + 1 ≤ x ∧
            x < dst + 1 + n := by omega
        rw [hstores, Recorded.store, mem_cons, hgrow, or_left_comm, or_assoc, or_left_comm]

end

section

variable {R : Nat → Nat → Prop} [Spacing R] {σ : Type} {P : PageProvider σ} {h : Heap}
    {bs : List Block} {fs : List Nat} {size : Nat}

/-- A request that fits gets the block `c`: the carved part of a best block, or a new block
of exactly the rounded size. -/
theorem kmalloc_granted (lay : Layout R h.mem h.vmStart h.kernelHeapTop bs fs)
    (hend : h.vmEnd < 2 ^ 32)
    (hregion : h.vmEnd < h.vmStart + 2 ^ 31) (htop : h.kernelHeapTop ≤ h.vmEnd)
    (total : P.Total) (env : σ) (hsize : size ≠ 0) (fits : h.Fits size) :
    ∃ heap env' bs' fs' c, kmalloc P h env size = some (c.payload, heap, env') ∧
      Allocated R h heap bs c.payload (ceil16 size) bs' fs' c ∧
      h.vmStart + overhead ≤ c.addr ∧ c.stop ≤ h.vmEnd ∧
      (∀ x, x < h.vmStart ∨ pageCeil h.vmEnd ≤ x → heap.mem x = h.mem x) ∧
      ((∃ b, IsBest bs (ceil16 size) b ∧ c.size = (carved b (ceil16 size)).size) ∨
        (∀ b ∈ bs, b.free = true → b.size < ceil16 size) ∧ c.size = ceil16 size) := by
  obtain ⟨b, hbest, hfind⟩ | ⟨hnone, hfind⟩ :=
    findBestFitting_best (n := ceil16 size) lay ceil16_mod
  · obtain ⟨l, r, rfl⟩ := append_of_mem hbest.mem
    obtain ⟨m, fs', run, layout, frame, outside⟩ :=
      kmalloc_of_best (P := P) lay env hsize hbest hfind
    have hused : (usedBlocks (l ++ (carve b (ceil16 size) ++ r))).Perm
        (carved b (ceil16 size) :: usedBlocks (l ++ b :: r)) := usedBlocks_carve hbest.free
    have hmem : carved b (ceil16 size) ∈ l ++ (carve b (ceil16 size) ++ r) :=
      (mem_filter.mp (hused.mem_iff.mpr mem_cons_self)).1
    have hbounds := layout.addr_bounds hmem
    have hceil := le_pageCeil h.vmEnd
    refine ⟨_, env, _, fs', carved b (ceil16 size), run,
      ⟨layout, hused, rfl, le_carved_size hbest.fits, ?_⟩, hbounds.1,
        Nat.le_trans hbounds.2 htop, ?_, .inl ⟨b, hbest, rfl⟩⟩
    · intro x hx
      have hkept : x ∈ usedBlocks (l ++ r) := by
        simpa [usedBlocks_cons_of_free hbest.free] using hx
      exact frame x (mem_filter.mp hkept).1
    · exact fun x hx => outside x (hx.imp_right fun hx => by omega)
  · have hroom := fits hfind
    have hlow := lay.tiled.le
    obtain ⟨⟨ptr, heap, env'⟩, run⟩ := Option.isSome_iff_exists.mp
      (doMalloc_isSome lay total env size)
    have hextend := (kmalloc_of_none (P := P) env hsize hfind).symm.trans run
    obtain ⟨allocated, outside, -⟩ := extendHeap_spec lay ceil16_mod
      (by simp only [overhead] at hlow hroom ⊢; omega) hend hroom hextend
    obtain rfl := allocated.payload
    refine ⟨heap, env', _, fs, _, run, allocated, hlow, ?_, outside, .inr ⟨hnone, rfl⟩⟩
    simp only [Block.stop]
    omega

theorem lt_of_fits (lay : Layout R h.mem h.vmStart h.kernelHeapTop bs fs)
    (hregion : h.vmEnd < h.vmStart + 2 ^ 31) (htop : h.kernelHeapTop ≤ h.vmEnd)
    (hsmall : size ≤ 0xFFFFFFF0) (fits : h.Fits size) : size < 2 ^ 31 := by
  have hround := le_ceil16 hsmall
  have hlow := lay.tiled.le
  obtain ⟨b, hbest, -⟩ | ⟨-, hfind⟩ := findBestFitting_best (n := ceil16 size) lay ceil16_mod
  · have hbounds := lay.addr_bounds hbest.mem
    have hfit := hbest.fits
    omega
  · have hroom := fits hfind
    omega

theorem ceil16_mono {a b : Nat} (hle : a ≤ b) (hb : b ≤ 0xFFFFFFF0) : ceil16 a ≤ ceil16 b := by
  rw [ceil16_eq, ceil16_eq, u32_of_lt (by omega), u32_of_lt (by omega)]
  omega

/-- What fits stays possible for a smaller request. -/
theorem Heap.Fits.mono (lay : Layout R h.mem h.vmStart h.kernelHeapTop bs fs) {a b : Nat}
    (hle : a ≤ b) (hb : b ≤ 0xFFFFFFF0) (fits : h.Fits b) : h.Fits a := by
  intro hfind
  have hround := ceil16_mono hle hb
  obtain ⟨c, hbest, hlarge⟩ | ⟨-, hlarge⟩ := findBestFitting_best (n := ceil16 b) lay ceil16_mod
  · obtain ⟨d, hsmall, haddr⟩ | ⟨hnone, -⟩ := findBestFitting_best (n := ceil16 a) lay ceil16_mod
    · exact absurd (Option.some.inj (haddr.symm.trans hfind)) (lay.addr_ne_zero hsmall.mem)
    · have hlt := hnone c hbest.mem hbest.free
      have hfit := hbest.fits
      omega
  · have hroom := fits hlarge
    omega

end

section

variable {R : Nat → Nat → Prop} [Spacing R] {σ : Type} {P : PageProvider σ} {h : Heap}
    {bs : List Block} {fs : List Nat} {s len : Nat} {str : List Byte}

/-- No byte of `[a, a + n)` belongs to the heap, except to its live payloads. -/
def Untouched (h : Heap) (bs : List Block) (a n : Nat) : Prop :=
  ∀ x, a ≤ x → x < a + n →
    (x < h.vmStart ∨ pageCeil h.vmEnd ≤ x) ∨ ∃ b ∈ usedBlocks bs, b.payload ≤ x ∧ x < b.stop

/-- The call returns a terminated copy of `str` in the block that `kmalloc` returned for `size`
bytes, stores only to that block and leaves every other byte as `kmalloc` left it. -/
def Intact (P : PageProvider σ) (h : Heap) (env : σ) (size : Nat) (str : List Byte)
    (call : Option (Duplicate σ)) : Prop :=
  ∃ d heap, call = some d ∧ kmalloc P h env size = some (d.new, heap, d.env) ∧ d.new ≠ 0 ∧
    Terminated d.heap.mem d.new str ∧
    (∀ x ∈ d.stores, d.new ≤ x ∧ x < d.new + payloadSize heap d.new) ∧
    ∀ x, x < d.new ∨ d.new + payloadSize heap d.new ≤ x → d.heap.mem x = heap.mem x

/-- The block for `len` bytes has a byte to spare: either the size was rounded up, or a best
block is a little larger and too small to be split. -/
def Slack (bs : List Block) (len : Nat) : Prop :=
  len % 16 ≠ 0 ∨ ∃ b, IsBest bs len b ∧ len < b.size ∧ b.size < len + 20

/-- The slack is that of the granted block. -/
theorem slack_iff {c : Block} (hsmall : len ≤ 0xFFFFFFF0)
    (hgrant : (∃ b, IsBest bs (ceil16 len) b ∧ c.size = (carved b (ceil16 len)).size) ∨
      (∀ b ∈ bs, b.free = true → b.size < ceil16 len) ∧ c.size = ceil16 len) :
    len < c.size ↔ Slack bs len := by
  have hfloor : ceil16 len = (len + 15) / 16 * 16 := by rw [ceil16_eq, u32_of_lt (by omega)]
  have hcsize : ceil16 len ≤ c.size := by
    rcases hgrant with ⟨b, hbest, hc⟩ | ⟨-, hc⟩
    · exact hc ▸ le_carved_size hbest.fits
    · exact hc.ge
  by_cases hmod : len % 16 = 0
  · have hexact : ceil16 len = len := by omega
    rw [hexact] at hgrant
    refine Iff.trans ?_ (or_iff_right (not_not_intro hmod)).symm
    rcases hgrant with ⟨b, hbest, hc⟩ | ⟨hnone, hc⟩
    · have hfits := hbest.fits
      rw [hc, carved]
      constructor
      · intro hlt
        refine ⟨b, hbest, ?_⟩
        dsimp only at hlt
        split at hlt
        · simp only [overhead] at *
          omega
        · omega
      · rintro ⟨d, hd, hlt, hsplit⟩
        have hsame : d.size = b.size :=
          Nat.le_antisymm (hd.least b hbest.mem hbest.free hfits)
            (hbest.least d hd.mem hd.free hd.fits)
        have hrest : b.size - len < overhead + 8 := by
          simp only [overhead]
          omega
        dsimp only
        rw [if_pos hrest]
        omega
    · constructor
      · omega
      · rintro ⟨d, hd, -⟩
        have hlt := hnone d hd.mem hd.free
        have hfits := hd.fits
        omega
  · exact ⟨fun _ => .inl hmod, fun _ => by omega⟩

/-- A byte of the source lies outside the granted block and is as before the request. -/
theorem Allocated.source {heap : Heap} {bs' : List Block} {fs' : List Nat} {c : Block} {n x : Nat}
    (allocated : Allocated R h heap bs c.payload n bs' fs' c) (hlow : h.vmStart + overhead ≤ c.addr)
    (hstop : c.stop ≤ h.vmEnd) (outside : ∀ x, x < h.vmStart ∨ pageCeil h.vmEnd ≤ x →
      heap.mem x = h.mem x)
    (hx : (x < h.vmStart ∨ pageCeil h.vmEnd ≤ x) ∨ ∃ b ∈ usedBlocks bs, b.payload ≤ x ∧
      x < b.stop) :
    (x < c.addr ∨ c.stop < x ∨ pageCeil h.vmEnd ≤ x) ∧ heap.mem x = h.mem x := by
  rcases hx with hx | ⟨b, hb, hbx, hxb⟩
  · exact ⟨by omega, outside x hx⟩
  · refine ⟨?_, allocated.frame b hb x hbx hxb⟩
    have hnodup : (c :: usedBlocks bs).Nodup :=
      allocated.used.nodup_iff.mp
        ((List.Nodup.of_map Block.addr allocated.layout.tiled.addrs_nodup).filter _)
    have hmem : ∀ d ∈ c :: usedBlocks bs, d ∈ bs' := fun d hd =>
      (mem_filter.mp (allocated.used.mem_iff.mpr hd)).1
    rcases allocated.layout.tiled.disjoint (hmem b (mem_cons_of_mem c hb)) (hmem c mem_cons_self)
      with
      rfl | hlt | hlt
    · exact absurd hb (nodup_cons.mp hnodup).1
    · omega
    · simp only [Block.payload, overhead] at hbx
      omega

variable (lay : Layout R h.mem h.vmStart h.kernelHeapTop bs fs) (hend : h.vmEnd < 2 ^ 32)
  (hregion : h.vmEnd < h.vmStart + 2 ^ 31) (htop : h.kernelHeapTop ≤ h.vmEnd) (total : P.Total)
  (env : σ) (hstr : Terminated h.mem s str) (hs : s + str.length < 2 ^ 32)
  (kept : Untouched h bs s (str.length + 1))
include lay hend hregion htop total env hstr hs kept

/-- `strdup` and `strndup` after their length is known. The terminator is the only store that
can miss the block. -/
theorem duplicate_intact_iff (hlen : len ≠ 0) (hle : len ≤ str.length + 1)
    (hsmall : len ≤ 0xFFFFFFF0) (fits : h.Fits len) :
    Intact P h env len (str.take len) (duplicate P h env s len) ↔ Slack bs len := by
  obtain ⟨heap, env', bs', fs', c, run, allocated, hlow, hstop, outside, hgrant⟩ :=
    kmalloc_granted lay hend hregion htop total env hlen fits
  have hsize : len ≤ c.size := Nat.le_trans (le_ceil16 hsmall) allocated.size
  have hc : c ∈ bs' := (mem_filter.mp (allocated.used.mem_iff.mpr mem_cons_self)).1
  have hpayload : payloadSize heap c.payload = c.size := by
    rw [payloadSize, Block.payload, Nat.add_sub_cancel, allocated.layout.realSize hc]
  have hnew : c.payload ≠ 0 := by
    simp only [Block.payload, overhead]
    omega
  have hblock : c.addr ≤ c.payload ∧ c.payload + c.size = c.stop := ⟨Nat.le_add_right _ _, rfl⟩
  have hterm : u32 (c.payload + len) = c.payload + len := u32_of_lt (by omega)
  have source : ∀ i < len, (s + i < c.addr ∨ c.stop < s + i ∨ pageCeil h.vmEnd ≤ s + i) ∧
      heap.mem (s + i) = h.mem (s + i) := fun i hi =>
    allocated.source hlow hstop outside (kept (s + i) (by omega) (by omega))
  have hceil := le_pageCeil h.vmEnd
  obtain ⟨t, ht⟩ : ∃ t : Recorded, t = Recorded.store ⟨heap.mem, []⟩ (c.payload + len) 0 := ⟨_, rfl⟩
  obtain ⟨hmem, hstores⟩ := t.memcpy_spec c.payload s len (by omega) (by omega) fun i hi j hj => by
      have haway := (source j hj).1
      omega
  have hcall : duplicate P h env s len =
      some ⟨c.payload, { heap with mem := (t.memcpy c.payload s len).mem }, env',
        (t.memcpy c.payload s len).stores⟩ := by
    rw [ht]
    simp only [duplicate, run, bind_eq_bind, bind_some, hnew, if_false, hterm, Option.pure_def]
  refine Iff.trans ⟨?_, ?_⟩ (slack_iff hsmall hgrant)
  · rintro ⟨d, heap₁, hd, hrun, -, -, hinside, -⟩
    cases hcall.symm.trans hd
    obtain rfl : heap = heap₁ := by simpa using run.symm.trans hrun
    have hlast : c.payload + len ∈ (t.memcpy c.payload s len).stores :=
      (hstores _).mpr (.inl (by rw [ht]; exact mem_cons_self))
    have hin : c.payload + len < c.payload + payloadSize heap c.payload := (hinside _ hlast).2
    omega
  · intro hslack
    have hread : ∀ i < len, (t.memcpy c.payload s len).mem (c.payload + i) = h.mem (s + i) := by
      intro i hi
      obtain ⟨haway, hsame⟩ := source i hi
      rw [hmem, blit_of_mem (by omega) (by omega), Nat.add_sub_cancel_left, ht, ← hsame]
      exact update_of_ne (by omega) _ _
    refine ⟨_, heap, hcall, run, hnew, ⟨fun i hi => ?_, ?_, fun b hb =>
      hstr.nonzero b (mem_of_mem_take hb)⟩, fun x hx => ?_, fun x hx => ?_⟩
    · rw [length_take] at hi
      rw [getElem_take]
      exact (hread i (by omega)).trans (hstr.bytes i (by omega))
    · -- The copy ends with the terminator that was stored, or with that of the string itself.
      rw [length_take]
      by_cases hcut : len ≤ str.length
      · rw [Nat.min_eq_left hcut]
        change (t.memcpy c.payload s len).mem (c.payload + len) = 0
        rw [hmem, blit_of_notMem (by omega), ht]
        exact update_self _ _ _
      · rw [Nat.min_eq_right (by omega)]
        exact (hread str.length (by omega)).trans hstr.stop
    · change x ∈ (t.memcpy c.payload s len).stores at hx
      change c.payload ≤ x ∧ x < c.payload + payloadSize heap c.payload
      rcases (hstores x).mp hx with hx | hx
      · obtain rfl : x = c.payload + len := by
          rw [ht] at hx
          exact mem_singleton.mp hx
        omega
      · omega
    · change x < c.payload ∨ c.payload + payloadSize heap c.payload ≤ x at hx
      change (t.memcpy c.payload s len).mem x = heap.mem x
      rw [hmem, blit_of_notMem (by omega), ht]
      exact update_of_ne (by omega) _ _

/-- `strdup` and `strndup` of a string in a well-formed heap with room for the copy. -/
theorem strdup_intact_iff (hsmall : str.length + 1 ≤ 0xFFFFFFF0) (fits : h.Fits (str.length + 1))
    (n : Nat) :
    (Intact P h env (str.length + 1) str (strdup P h env s) ↔ Slack bs (str.length + 1)) ∧
      (Intact P h env (str.take n).length (str.take n) (strndup P h env s n) ↔
        str.take n ≠ [] ∧ Slack bs (str.take n).length) := by
  have hlen := lt_of_fits lay hregion htop hsmall fits
  constructor
  · have hwhole := duplicate_intact_iff lay hend hregion htop total env hstr hs kept
      (Nat.succ_ne_zero _) (Nat.le_refl _) hsmall fits
    rw [take_of_length_le (Nat.le_succ _)] at hwhole
    simpa only [strdup, strlen_spec hstr hs (by omega), bind_eq_bind, bind_some,
      u32_of_lt (show str.length + 1 < 2 ^ 32 by omega)] using hwhole
  · have hle : (str.take n).length ≤ str.length := by
      rw [length_take]
      omega
    have hcall : strndup P h env s n = duplicate P h env s (str.take n).length := by
      simp only [strndup, strnlen_spec hstr n hs (by omega), bind_eq_bind, bind_some]
    rw [hcall]
    by_cases hempty : str.take n = []
    · refine iff_of_false ?_ (fun hboth => hboth.1 hempty)
      rintro ⟨d, heap, -, hrun, hnew, -⟩
      -- A request for no bytes is answered with a null pointer.
      rw [hempty] at hrun
      simp only [kmalloc, doMalloc, length_nil, if_true, Option.pure_def, Option.some.injEq,
        Prod.mk.injEq] at hrun
      omega
    · have hne : (str.take n).length ≠ 0 := fun h0 => hempty (length_eq_zero_iff.mp h0)
      have hpart := duplicate_intact_iff lay hend hregion htop total env hstr hs kept hne
        (by omega) (by omega) (fits.mono lay (by omega) hsmall)
      have hcut : str.take (str.take n).length = str.take n := by
        rw [length_take, take_eq_take_iff]
        omega
      rw [hcut] at hpart
      exact hpart.trans (and_iff_right hempty).symm

end

/-- A string of the kernel image, at `0xC0100000`. -/
def imageWith (str : List Byte) : Bytes := fun x =>
  if x < 0xC0100000 then 0 else str.getD (x - 0xC0100000) 0

/-- `kheap_init` writes to no byte below the heap. -/
theorem kheapInit_below {σ : Type} {P : PageProvider σ} {mem : Bytes} {env env' : σ}
    {bootInfo : BootInfo}
    {heap : Heap} (halign : bootInfo.heapStart % 4096 = 0) (hlt : bootInfo.heapStart < 2 ^ 32)
    (run : kheapInit P mem env bootInfo = some (heap, env')) : ∀ x < bootInfo.heapStart,
      heap.mem x = mem x := by
  intro x hx
  simp only [kheapInit, bind_eq_bind, Option.bind_eq_some_iff, Option.pure_def, Option.some.injEq,
    Prod.mk.injEq] at run
  obtain ⟨⟨h, env₁⟩, hpage, rfl, rfl⟩ := run
  obtain ⟨m, rfl, hframe⟩ := vmmCreatePage_frame halign hlt hpage
  exact (fill_of_notMem (.inl hx)).trans (hframe x (.inl hx))

/-- The heap after boot, with a string in the kernel image. -/
theorem kheapInit_string (str : List Byte) (hstr : ∀ c ∈ str, c ≠ 0) (hlen : str.length < 0x1000) :
    ∃ heap, kheapInit clearedPages (imageWith str) () kernelBootInfo = some (heap, ()) ∧
      Layout (· = ·) heap.mem heap.vmStart heap.kernelHeapTop [] [] ∧ heap.vmStart = 0xD0000000 ∧
      heap.vmEnd = 0xF0000000 ∧ heap.kernelHeapTop = 0xD000000C ∧
        Terminated heap.mem 0xC0100000 str ∧
      Untouched heap [] 0xC0100000 (str.length + 1) ∧ heap.Fits (str.length + 1) := by
  have hinit : ∃ heap, kheapInit clearedPages (imageWith str) () kernelBootInfo = some (heap, ()) :=
    ⟨_, rfl⟩
  obtain ⟨heap, run⟩ := hinit
  have hbelow := kheapInit_below (by decide) (by decide) run
  obtain ⟨layout, hstart, hend, htop⟩ := kheapInit_spec kernelBootInfo_valid run
  simp only [kernelBootInfo, overhead] at hstart hend htop
  have himage : ∀ i < 0x1000, heap.mem (0xC0100000 + i) = str.getD i 0 := by
    intro i hi
    rw [hbelow _ (by simp only [kernelBootInfo]; omega), imageWith, if_neg (by omega),
      Nat.add_sub_cancel_left]
  refine ⟨heap, run, layout, hstart, hend, htop, ⟨fun i hi => ?_, ?_, hstr⟩,
    fun x _ hx => ?_, fun _ => ?_⟩
  · rw [himage i (by omega), getD_eq_getElem _ _ hi]
  · rw [himage _ hlen, getD_eq_default _ _ (Nat.le_refl _)]
  · omega
  · rw [htop, hend, ceil16_eq, u32_of_lt (by omega), overhead]
    omega

/-- Copies of a string of three characters, whole and cut after two. -/
theorem strdup_intact_short :
    ∃ heap, kheapInit clearedPages (imageWith [0x61, 0x62, 0x63])
    () kernelBootInfo = some (heap, ()) ∧
      Intact clearedPages heap () 4 [0x61, 0x62, 0x63] (strdup clearedPages heap () 0xC0100000) ∧
      Intact clearedPages heap () 2 [0x61, 0x62] (strndup clearedPages heap () 0xC0100000 2) := by
  obtain ⟨heap, run, layout, hstart, hend, htop, hstr, kept, fits⟩ :=
    kheapInit_string [0x61, 0x62, 0x63] (by decide) (by decide)
  obtain ⟨hdup, hndup⟩ := strdup_intact_iff layout (by omega) (by omega)
    (by omega) clearedPages_total () hstr (by decide) kept (by decide) fits 2
  exact ⟨heap, run, hdup.mpr (.inl (by decide)), hndup.mpr ⟨by decide, .inl (by decide)⟩⟩

/-- The terminator of a copy of fifteen characters falls onto the byte behind the block. -/
theorem strdup_fifteen_not_intact :
    ∃ heap, kheapInit clearedPages (imageWith (List.replicate 15 0x61)) () kernelBootInfo = some
      (heap, ()) ∧ Terminated heap.mem 0xC0100000 (List.replicate 15 0x61) ∧
      ¬Intact clearedPages heap () 16 (List.replicate 15 0x61)
        (strdup clearedPages heap () 0xC0100000) := by
  obtain ⟨heap, run, layout, hstart, hend, htop, hstr, kept, fits⟩ :=
    kheapInit_string (List.replicate 15 0x61) (by decide) (by decide)
  refine ⟨heap, run, hstr, ?_⟩
  have hcall : strdup clearedPages heap () 0xC0100000 = duplicate clearedPages heap
      () 0xC0100000 16 := by
    simp only [strdup, strlen_spec hstr (by decide) (by decide), bind_eq_bind, bind_some]
    rfl
  rw [hcall]
  intro hintact
  have hslack : Slack [] 16 := (duplicate_intact_iff layout (by omega) (by omega) (by omega)
    clearedPages_total () hstr (by decide) kept (by decide) (by decide) (by decide) fits).mp hintact
  rcases hslack with hmod | ⟨b, hbest, -⟩
  · omega
  · exact absurd hbest.mem not_mem_nil

end Hos.Kheap
