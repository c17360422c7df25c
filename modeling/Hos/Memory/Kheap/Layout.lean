import Hos.Lib.Chain
import Hos.Memory.Kheap.Basic

/-!
# What a heap memory represents

The abstract heap is the list of its blocks in address order, each with its
real size and its free flag, together with the order of the free list.
`Layout R m vs top bs fs` says that the byte store `m` represents them between
the heap start `vs` and the heap top: the blocks tile the region, with gaps if `R`
admits them, the chain of `next` pointers visits exactly them, and the chain of
`nextfree` pointers visits exactly the free ones, once each.

Header words never overlap because headers are at least twelve bytes apart.
The three words at the heap start behave like one more header in this respect,
which is why the same separation lemmas cover the head, tail and free-list
words as well.
-/

namespace Hos.Kheap

open List Nat

open Bytes

/-- A block of the abstract heap. -/
structure Block where
  addr : Nat
  size : Nat
  free : Bool
  deriving DecidableEq, Repr

namespace Block

/-- The size field that encodes the real size and the free flag. -/
def word (b : Block) : Nat := b.size + b.free.toNat

/-- The end of the block, which is the address of the next one. -/
def stop (b : Block) : Nat := b.addr + overhead + b.size

/-- The pointer handed out for the block. -/
def payload (b : Block) : Nat := b.addr + overhead

end Block

/-- How the end of a block and the start of the next one are related. With equality there
are no gaps; `kmalloc_align` needs the order instead. -/
class Spacing (R : Nat → Nat → Prop) : Prop where
  refl (a : Nat) : R a a
  trans {a b c : Nat} (hab : R a b) (hbc : R b c) : R a c
  le {a b : Nat} (h : R a b) : a ≤ b
  add {a b : Nat} (h : R a b) (k : Nat) : R (a + k) (b + k)

instance : Spacing (· = ·) where
  refl _ := rfl
  trans hab hbc := hab.trans hbc
  le h := Nat.le_of_eq h
  add h k := congrArg (· + k) h

instance : Spacing (· ≤ ·) where
  refl := Nat.le_refl
  trans := Nat.le_trans
  le h := h
  add h k := Nat.add_le_add_right h k

/-- The blocks follow each other between the addresses `a` and `e`. -/
def Tiled (R : Nat → Nat → Prop) : Nat → List Block → Nat → Prop
  | a, [], e => R a e
  | a, b :: bs, e => R a b.addr ∧ Tiled R b.stop bs e

/-- The addresses of the free blocks, in address order. -/
def freeAddrs (bs : List Block) : List Nat := (bs.filter (·.free)).map Block.addr

/-- The blocks that are handed out, in address order. -/
def usedBlocks (bs : List Block) : List Block := bs.filter (!·.free)

@[simp] theorem freeAddrs_nil : freeAddrs [] = [] := rfl

@[simp] theorem freeAddrs_append (l r : List Block) :
    freeAddrs (l ++ r) = freeAddrs l ++ freeAddrs r := by
  simp [freeAddrs]

theorem freeAddrs_cons_of_free {b : Block} {bs : List Block} (h : b.free = true) :
    freeAddrs (b :: bs) = b.addr :: freeAddrs bs := by
  simp [freeAddrs, h]

theorem freeAddrs_cons_of_used {b : Block} {bs : List Block} (h : b.free = false) :
    freeAddrs (b :: bs) = freeAddrs bs := by
  simp [freeAddrs, h]

@[simp] theorem usedBlocks_append (l r : List Block) :
    usedBlocks (l ++ r) = usedBlocks l ++ usedBlocks r := by
  simp [usedBlocks]

theorem usedBlocks_cons_of_free {b : Block} {bs : List Block} (h : b.free = true) :
    usedBlocks (b :: bs) = usedBlocks bs := by
  simp [usedBlocks, h]

theorem usedBlocks_cons_of_used {b : Block} {bs : List Block} (h : b.free = false) :
    usedBlocks (b :: bs) = b :: usedBlocks bs := by
  simp [usedBlocks, h]

/-- Headers at these addresses coincide or do not overlap. -/
def Apart (u v : Nat) : Prop := u = v ∨ u + overhead ≤ v ∨ v + overhead ≤ u

namespace Tiled

variable {R : Nat → Nat → Prop} [Spacing R] {a e : Nat} {bs l r : List Block}

theorem start {c : Nat} (h : R a c) (hbs : Tiled R c bs e) : Tiled R a bs e := by
  cases bs with
  | nil => exact Spacing.trans h hbs
  | cons b bs => exact ⟨Spacing.trans h hbs.1, hbs.2⟩

theorem append_iff : Tiled R a (l ++ r) e ↔ ∃ c, Tiled R a l c ∧ Tiled R c r e := by
  induction l generalizing a with
  | nil =>
    constructor
    · exact fun h => ⟨a, Spacing.refl a, h⟩
    · rintro ⟨c, hac, hr⟩
      exact hr.start hac
  | cons b l ih => simp only [cons_append, Tiled, ih, exists_and_left, and_assoc]

theorem stop {c : Nat} (hbs : Tiled R a bs c) (h : R c e) : Tiled R a bs e := by
  have happ : Tiled R a (bs ++ []) e := append_iff.mpr ⟨c, hbs, h⟩
  rwa [append_nil] at happ

theorem le (h : Tiled R a bs e) : a ≤ e := by
  induction bs generalizing a with
  | nil => exact Spacing.le h
  | cons b bs ih =>
    have hstart := Spacing.le h.1
    have hrest := ih h.2
    unfold Block.stop at hrest
    omega

theorem bounds (h : Tiled R a bs e) {b : Block} (hb : b ∈ bs) : a ≤ b.addr ∧ b.stop ≤ e := by
  obtain ⟨l, r, rfl⟩ := append_of_mem hb
  obtain ⟨c, hl, hbr, hr⟩ := append_iff.mp h
  exact ⟨Nat.le_trans hl.le (Spacing.le hbr), hr.le⟩

/-- Around a block, the earlier blocks end before it and the later ones start
after it. -/
theorem around {b : Block} (h : Tiled R a (l ++ b :: r) e) : Tiled R a l b.addr ∧
    Tiled R b.stop r e := by
  obtain ⟨c, hl, hbr, hr⟩ := append_iff.mp h
  exact ⟨hl.stop hbr, hr⟩

section

variable (h : Tiled R a bs e) {b c : Block} (hb : b ∈ bs) (hc : c ∈ bs)
include h hb hc

theorem apart : Apart b.addr c.addr := by
  obtain ⟨l, r, rfl⟩ := append_of_mem hb
  obtain ⟨hl, hr⟩ := h.around
  rcases mem_append.mp hc with hc | hc
  · have hcb := (hl.bounds hc).2
    unfold Block.stop at hcb
    exact .inr (.inr (by omega))
  · rcases mem_cons.mp hc with rfl | hc
    · exact .inl rfl
    · have hbc := (hr.bounds hc).1
      unfold Block.stop at hbc
      exact .inr (.inl (by omega))

/-- Two blocks of a tiling coincide or occupy disjoint intervals. -/
theorem disjoint :
    b = c ∨ b.stop ≤ c.addr ∨ c.stop ≤ b.addr := by
  obtain ⟨l, r, rfl⟩ := append_of_mem hb
  obtain ⟨hl, hr⟩ := h.around
  rcases mem_append.mp hc with hc | hc
  · exact .inr (.inr (hl.bounds hc).2)
  · rcases mem_cons.mp hc with rfl | hc
    · exact .inl rfl
    · exact .inr (.inl (hr.bounds hc).1)

end

theorem addrs_nodup (h : Tiled R a bs e) : (bs.map Block.addr).Nodup := by
  induction bs generalizing a with
  | nil => exact nodup_nil
  | cons b bs ih =>
    refine nodup_cons.mpr ⟨?_, ih h.2⟩
    intro hmem
    obtain ⟨c, hc, haddr⟩ := mem_map.mp hmem
    have hlow := (h.2.bounds hc).1
    simp only [Block.stop, overhead] at hlow
    omega

end Tiled

theorem Apart.symm {u v : Nat} (h : Apart u v) : Apart v u := by
  rcases h with h | h | h
  · exact .inl h.symm
  · exact .inr (.inr h)
  · exact .inr (.inl h)

section

variable {m : Bytes} {u v x : Nat}

@[simp] theorem sizeField_setSize_self : sizeField (setSize m u x) u = x % 2 ^ 32 :=
    load32_store32_self

@[simp] theorem nextfree_setNextfree_self : nextfree (setNextfree m u x) u = x % 2 ^ 32 :=
    load32_store32_self

@[simp] theorem next_setNext_self : next (setNext m u x) u = x % 2 ^ 32 := load32_store32_self

section

variable (h : Apart u v)
include h

theorem sizeField_setSize (hne : v ≠ u) : sizeField (setSize m u x) v = sizeField m v := by
  unfold Apart overhead at h
  exact load32_store32_of_sep (by omega)

theorem nextfree_setNextfree (hne : v ≠ u) : nextfree (setNextfree m u x) v = nextfree m v := by
  unfold Apart overhead at h
  exact load32_store32_of_sep (by omega)

theorem next_setNext (hne : v ≠ u) : next (setNext m u x) v = next m v := by
  unfold Apart overhead at h
  exact load32_store32_of_sep (by omega)

theorem sizeField_setNextfree : sizeField (setNextfree m u x) v = sizeField m v := by
  unfold Apart overhead at h
  exact load32_store32_of_sep (by omega)

theorem sizeField_setNext : sizeField (setNext m u x) v = sizeField m v := by
  unfold Apart overhead at h
  exact load32_store32_of_sep (by omega)

theorem nextfree_setSize : nextfree (setSize m u x) v = nextfree m v := by
  unfold Apart overhead at h
  exact load32_store32_of_sep (by omega)

theorem nextfree_setNext : nextfree (setNext m u x) v = nextfree m v := by
  unfold Apart overhead at h
  exact load32_store32_of_sep (by omega)

theorem next_setSize : next (setSize m u x) v = next m v := by
  unfold Apart overhead at h
  exact load32_store32_of_sep (by omega)

theorem next_setNextfree : next (setNextfree m u x) v = next m v := by
  unfold Apart overhead at h
  exact load32_store32_of_sep (by omega)

end

theorem setSize_setSize : setSize (setSize m u x) u v = setSize m u v := by
  funext y
  simp only [setSize, store32]
  grind

end

/-- Only bytes of headers in `S` differ between `m` and `m'`. -/
def TouchesHeaders (S : Nat → Prop) (m m' : Bytes) : Prop :=
  ∀ x, (∀ u, S u → x < u ∨ u + overhead ≤ x) → m' x = m x

namespace TouchesHeaders

variable {S : Nat → Prop} {m m' m'' : Bytes} {u v : Nat}

theorem refl : TouchesHeaders S m m := fun _ _ => rfl

theorem trans (h : TouchesHeaders S m m') (h' : TouchesHeaders S m' m'') :
    TouchesHeaders S m m'' := fun x hx => (h' x hx).trans (h x hx)

theorem store {k : Nat} (hu : S u) (hk : k + 4 ≤ overhead) :
    TouchesHeaders S m (m.store32 (u + k) v) := by
  intro x hx
  have hout := hx u hu
  exact store32_of_notMem (by omega)

theorem setSize (hu : S u) : TouchesHeaders S m (setSize m u v) := store (k := 0) hu (by decide)

theorem setNextfree (hu : S u) : TouchesHeaders S m (setNextfree m u v) := store hu (by decide)

theorem setNext (hu : S u) : TouchesHeaders S m (setNext m u v) := store hu (by decide)

end TouchesHeaders

/-- `m` represents the blocks `bs` from `vs + 12` up to `top`, with the free
list in the order `fs`. -/
structure Layout (R : Nat → Nat → Prop) (m : Bytes) (vs top : Nat) (bs : List Block)
    (fs : List Nat) :
    Prop where
  start_pos : 0 < vs
  top_lt : top < 2 ^ 32
  tiled : Tiled R (vs + overhead) bs top
  sized : ∀ b ∈ bs, sizeField m b.addr = b.word
  aligned : ∀ b ∈ bs, b.size % 4 = 0
  blocks : Chain m 8 vs (bs.map Block.addr) 0
  tail : m.load32 (vs + 4) = (bs.map Block.addr).getLast?.getD 0
  frees : Chain m 4 (vs + 8) fs 0
  listed : fs.Perm (freeAddrs bs)
  coalesced : bs.IsChain fun b c => ¬(b.free = true ∧ c.free = true)

/-- The addresses of the headers: the heap start and the blocks. -/
def IsHeader (vs : Nat) (bs : List Block) (u : Nat) : Prop := u = vs ∨ ∃ b ∈ bs, u = b.addr

section

variable {R : Nat → Nat → Prop} [Spacing R] {vs e : Nat} {bs : List Block}
  (h : Tiled R (vs + overhead) bs e)
include h

theorem Tiled.header_apart {u v : Nat} (hu : IsHeader vs bs u) (hv : IsHeader vs bs v) :
    Apart u v := by
  have first : ∀ b ∈ bs, Apart vs b.addr := fun b hb => .inr (.inl (h.bounds hb).1)
  rcases hu with rfl | ⟨b, hb, rfl⟩
  · rcases hv with rfl | ⟨c, hc, rfl⟩
    · exact .inl rfl
    · exact first c hc
  · rcases hv with rfl | ⟨c, hc, rfl⟩
    · exact (first b hb).symm
    · exact h.apart hb hc

/-- Payload bytes lie outside every header. -/
theorem Tiled.payload_outside {b : Block} (hb : b ∈ bs) {x : Nat} (hlow : b.payload ≤ x)
    (hhigh : x < b.stop) :
    ∀ u, IsHeader vs bs u → x < u ∨ u + overhead ≤ x := by
  have hstart := (h.bounds hb).1
  simp only [Block.payload, Block.stop] at hlow hhigh
  rintro u (rfl | ⟨c, hc, rfl⟩)
  · omega
  · rcases h.disjoint hb hc with rfl | hlt | hlt
    · exact .inr hlow
    · simp only [Block.stop] at hlt
      omega
    · simp only [Block.stop] at hlt
      omega

end

/-- Header updates miss every payload. -/
theorem Tiled.payload_eq {R : Nat → Nat → Prop} [Spacing R] {vs e : Nat} {bs : List Block}
    {m m' : Bytes}
    (h : Tiled R (vs + overhead) bs e) (touches : TouchesHeaders (IsHeader vs bs) m m')
    {b : Block} (hb : b ∈ bs) {x : Nat} (hlow : b.payload ≤ x) (hhigh : x < b.stop) : m' x = m x :=
  touches x (h.payload_outside hb hlow hhigh)

namespace Layout

variable {R : Nat → Nat → Prop} [Spacing R] {m : Bytes} {vs top : Nat} {bs : List Block}
  {fs : List Nat}

section

variable (h : Layout R m vs top bs fs)
include h

theorem addr_bounds {b : Block} (hb : b ∈ bs) : vs + overhead ≤ b.addr ∧
    b.addr + overhead + b.size ≤ top :=
  h.tiled.bounds hb

theorem addr_ne_zero {b : Block} (hb : b ∈ bs) : b.addr ≠ 0 := by
  have hlow := (h.addr_bounds hb).1
  unfold overhead at hlow
  omega

theorem header_ge {u : Nat} (hu : IsHeader vs bs u) : vs ≤ u := by
  rcases hu with rfl | ⟨b, hb, rfl⟩
  · rfl
  · exact Nat.le_trans (Nat.le_add_right _ _) (h.addr_bounds hb).1

theorem header_le {u : Nat} (hu : IsHeader vs bs u) : u + overhead ≤ top := by
  rcases hu with rfl | ⟨b, hb, rfl⟩
  · exact h.tiled.le
  · exact Nat.le_trans (Nat.le_add_right _ _) (h.addr_bounds hb).2

/-- What lies outside the heap lies in no header. -/
theorem outside {x : Nat} (hx : x < vs ∨ top ≤ x) : ∀ u, IsHeader vs bs u → x < u ∨
    u + overhead ≤ x := by
  intro u hu
  have hlow := h.header_ge hu
  have hhigh := h.header_le hu
  omega

end

omit [Spacing R] in
theorem free_isBlock (h : Layout R m vs top bs fs) {a : Nat} (ha : a ∈ fs) :
    ∃ b ∈ bs, b.addr = a ∧ b.free = true := by
  obtain ⟨b, hb, haddr⟩ := mem_map.mp (h.listed.mem_iff.mp ha)
  obtain ⟨hmem, hfree⟩ := mem_filter.mp hb
  exact ⟨b, hmem, haddr, hfree⟩

theorem nodup (h : Layout R m vs top bs fs) : fs.Nodup := by
  refine h.listed.nodup_iff.mpr (h.tiled.addrs_nodup.sublist ?_)
  exact filter_sublist.map Block.addr

omit [Spacing R] in
theorem mem_frees (h : Layout R m vs top bs fs) {b : Block} (hb : b ∈ bs)
    (hfree : b.free = true) : b.addr ∈ fs :=
  h.listed.mem_iff.mpr (mem_map.mpr ⟨b, mem_filter.mpr ⟨hb, hfree⟩, rfl⟩)

theorem free_ne_zero (h : Layout R m vs top bs fs) {a : Nat} (ha : a ∈ fs) : a ≠ 0 := by
  obtain ⟨b, hb, rfl, -⟩ := h.free_isBlock ha
  exact h.addr_ne_zero hb

end Layout

variable {m : Bytes} {b : Block}

/-- An even size keeps its flag in the last bit. -/
theorem blockGetRealSize_word (heven : b.size % 4 = 0) : blockGetRealSize b.word = b.size := by
  have hflag := Bool.toNat_le b.free
  simp only [blockGetRealSize, Block.word, shiftRight_eq_div_pow, shiftLeft_eq]
  omega

theorem word_and_one (heven : b.size % 4 = 0) : b.word &&& 1 = b.free.toNat := by
  have hflag := Bool.toNat_le b.free
  simp only [Block.word, and_one_is_mod]
  omega

theorem blockIsFree_eq (hpos : b.addr ≠ 0) (hsize : sizeField m b.addr = b.word)
    (heven : b.size % 4 = 0) : blockIsFree m b.addr = b.free := by
  rw [blockIsFree, if_neg hpos, hsize, word_and_one heven]
  simp

theorem blockSetFree_true {n : Nat} (heven : n % 4 = 0) : blockSetFree n true = n + 1 := by
  have hdisj : n ||| 1 = n + 1 := by
    have hshape : n = 2 ^ 1 * (n / 2) := by omega
    rw [hshape, two_pow_add_eq_or_of_lt (by decide)]
  assumption

theorem blockSetFree_false {n : Nat} (heven : n % 4 = 0) (hn : n < 2 ^ 32) :
    blockSetFree n false = n := by
  have hmask := and_highMask (k := 1) hn (by decide)
  have hclear : n &&& 0xFFFFFFFE = n := by
    rw [show 0xFFFFFFFE = 2 ^ 32 - 2 ^ 1 by decide, hmask]
    omega
  assumption

variable {u n : Nat}

/-- Storing a size and then setting its free flag. -/
theorem setSize_markFree (hsize : n % 4 = 0) (hn : n < 2 ^ 32) :
    setSize (setSize m u n) u (blockSetFree (sizeField (setSize m u n) u) true) = setSize m u
      (n + 1) := by
  rw [setSize_setSize, sizeField_setSize_self, mod_eq_of_lt hn, blockSetFree_true hsize]

/-- Storing a size and then clearing its free flag. -/
theorem setSize_markUsed (hsize : n % 4 = 0) (hn : n < 2 ^ 32) :
    setSize (setSize m u n) u (blockSetFree (sizeField (setSize m u n) u) false) =
      setSize m u n := by
  rw [setSize_setSize, sizeField_setSize_self, mod_eq_of_lt hn, blockSetFree_false hsize hn]

end Hos.Kheap
