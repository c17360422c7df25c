import Mathlib.Data.List.Chain
import Hos.Memory.Kheap.Lists

/-!
# Reshaping the block list

`__do_malloc` and `__do_free` replace a few adjacent blocks by others that
cover the same bytes: two or three blocks become one, one becomes two, or a
single block changes its flag. The first of the new blocks always sits where
the first of the old ones did. `Layout.replace` states once what such an
update must establish; the word that each C assignment writes is described by
`Relinked`, the effect of rewriting one header.
-/

namespace Hos.Kheap

open Option List Nat

/-- The header at `u` gets the size word `w` and the successor `x`, the tail
becomes `u` if `t` holds, and no other list word changes. At the heap start
`size`, `nextfree` and `next` speak about the head, tail and free-list words. -/
structure Relinked (vs : Nat) (S : Nat → Prop) (u w x : Nat) (t : Prop) [Decidable t]
    (m m' : Bytes) : Prop where
  size_self : sizeField m' u = w
  next_self : next m' u = x
  size : ∀ v, S v → v ≠ u → sizeField m' v = sizeField m v
  next : ∀ v, S v → v ≠ u → next m' v = next m v
  nextfree : ∀ v, S v → v ≠ vs → nextfree m' v = nextfree m v
  tail : m'.load32 (vs + 4) = if t then u else m.load32 (vs + 4)
  touches : TouchesHeaders S m m'

/-- Write the size, the successor and, on demand, the tail. -/
def relink (m : Bytes) (vs u w x : Nat) (t : Prop) [Decidable t] : Bytes :=
  if t then (setNext (setSize m u w) u x).store32 (vs + 4) u
  else setNext (setSize m u w) u x

section

variable {m : Bytes} {vs u w x : Nat} {t : Prop} [Decidable t] {S : Nat → Prop}
  (apart : ∀ u v, S u → S v → Apart u v) (start : S vs)
include apart start

theorem relinked_setSize (hu : S u) (hw : w < 2 ^ 32) (tail : t → m.load32 (vs + 4) = u) :
    Relinked vs S u w (next m u) t m (setSize m u w) where
  size_self := by rw [sizeField_setSize_self, mod_eq_of_lt hw]
  next_self := next_setSize (.inl rfl)
  size v hv hvu := sizeField_setSize (apart u v hu hv) hvu
  next v hv _ := next_setSize (apart u v hu hv)
  nextfree v hv _ := nextfree_setSize (apart u v hu hv)
  tail := by
    have hkeep : (setSize m u w).load32 (vs + 4) = m.load32 (vs + 4) :=
      nextfree_setSize (apart u vs hu start)
    split
    · rename_i ht
      exact hkeep.trans (tail ht)
    · exact hkeep
  touches := TouchesHeaders.setSize hu

theorem relinked_setNext (hu : S u) (hx : x < 2 ^ 32) :
    Relinked vs S u (sizeField m u) x False m (setNext m u x) where
  size_self := sizeField_setNext (.inl rfl)
  next_self := by rw [next_setNext_self, mod_eq_of_lt hx]
  size v hv _ := sizeField_setNext (apart u v hu hv)
  next v hv hvu := next_setNext (apart u v hu hv) hvu
  nextfree v hv _ := nextfree_setNext (apart u v hu hv)
  tail := by
    exact nextfree_setNext (apart u vs hu start)
  touches := TouchesHeaders.setNext hu

theorem relinked_relink (hu : S u) (hw : w < 2 ^ 32) (hx : x < 2 ^ 32) (hlt : u < 2 ^ 32) :
    Relinked vs S u w x t m (relink m vs u w x t) := by
  have keep : Relinked vs S u w x False m (setNext (setSize m u w) u x) := by
    refine ⟨?_, ?_, ?_, ?_, ?_, ?_, ?_⟩
    · rw [sizeField_setNext (.inl rfl), sizeField_setSize_self, mod_eq_of_lt hw]
    · rw [next_setNext_self, mod_eq_of_lt hx]
    · intro v hv hvu
      rw [sizeField_setNext (apart u v hu hv), sizeField_setSize (apart u v hu hv) hvu]
    · intro v hv hvu
      rw [next_setNext (apart u v hu hv) hvu, next_setSize (apart u v hu hv)]
    · intro v hv _
      rw [nextfree_setNext (apart u v hu hv), nextfree_setSize (apart u v hu hv)]
    · change nextfree (setNext (setSize m u w) u x) vs = nextfree m vs
      rw [nextfree_setNext (apart u vs hu start), nextfree_setSize (apart u vs hu start)]
    · exact (TouchesHeaders.setSize hu).trans (TouchesHeaders.setNext hu)
  by_cases ht : t
  · -- The tail word is the second word of the header-like heap start.
    rw [relink, if_pos ht]
    change Relinked vs S u w x t m (setNextfree (setNext (setSize m u w) u x) vs u)
    refine ⟨?_, ?_, ?_, ?_, ?_, ?_, ?_⟩
    · rw [sizeField_setNextfree (apart vs u start hu), keep.size_self]
    · rw [next_setNextfree (apart vs u start hu), keep.next_self]
    · intro v hv hvu
      rw [sizeField_setNextfree (apart vs v start hv), keep.size v hv hvu]
    · intro v hv hvu
      rw [next_setNextfree (apart vs v start hv), keep.next v hv hvu]
    · intro v hv hvs
      rw [nextfree_setNextfree (apart vs v start hv) hvs, keep.nextfree v hv hvs]
    · rw [if_pos ht]
      change nextfree (setNextfree (setNext (setSize m u w) u x) vs u) vs = u
      rw [nextfree_setNextfree_self, mod_eq_of_lt hlt]
    · exact keep.touches.trans (TouchesHeaders.setNextfree start)
  · rw [relink, if_neg ht]
    refine ⟨keep.size_self, keep.next_self, keep.size, keep.next, keep.nextfree, ?_, keep.touches⟩
    rw [if_neg ht, keep.tail, if_neg not_false]

end

/-- Header rewriting does not touch the free list. -/
theorem Relinked.frees {vs u w x : Nat} {S : Nat → Prop} {t : Prop} [Decidable t]
    {m m' : Bytes} {fs : List Nat} (relinked : Relinked vs S u w x t m m') (start : S vs)
    (hne : u ≠ vs) (frees : Chain m 4 (vs + 8) fs 0) (listed : ∀ a ∈ fs, S a ∧ a ≠ vs) :
    Chain m' 4 (vs + 8) fs 0 := by
  refine frees.congr (relinked.next vs start hne.symm) ?_
  intro a ha
  exact relinked.nextfree a (listed a ha).1 (listed a ha).2

/-- The free block that covers `b` and the blocks `old` after it. -/
def gathered (b : Block) (old : List Block) : Block where
  addr := b.addr
  size := b.size + (old.map fun x => overhead + x.size).sum
  free := true

theorem gathered_stop {R : Nat → Nat → Prop} [Spacing R] {b : Block} {old : List Block} {e : Nat}
    (h : Tiled R b.stop old e) : R (gathered b old).stop e := by
  induction old generalizing b with
  | nil => exact h
  | cons x old ih =>
    have hrest := ih h.2
    have hshift := Spacing.add h.1 (overhead + x.size + (old.map fun x => overhead + x.size).sum)
    have hstart : b.stop + (overhead + x.size + (old.map fun x => overhead + x.size).sum) =
        (gathered b (x :: old)).stop := by
      simp only [Block.stop, gathered, map_cons, sum_cons]
      omega
    have hend : x.addr + (overhead + x.size + (old.map fun x => overhead + x.size).sum) =
        (gathered x old).stop := by
      simp only [Block.stop, gathered]
      omega
    rw [hstart, hend] at hshift
    exact Spacing.trans hshift hrest

theorem gathered_aligned {b : Block} {old : List Block} (hb : b.size % 4 = 0)
    (hold : ∀ x ∈ old, x.size % 4 = 0) : (gathered b old).size % 4 = 0 := by
  induction old with
  | nil => exact hb
  | cons x old ih =>
    have hrest := ih fun y hy => hold y (by simp [hy])
    have hx := hold x (by simp)
    simp only [gathered, map_cons, sum_cons, overhead] at hrest ⊢
    omega

namespace Layout

variable {R : Nat → Nat → Prop} [Spacing R] {m m' m₁ : Bytes} {vs top : Nat}
  {bs bs' l r old new : List Block} {fs fs' : List Nat}
  {b c : Block}

theorem header (hb : b ∈ bs) : IsHeader vs bs b.addr := .inr ⟨b, hb, rfl⟩

section

variable (h : Layout R m vs top bs fs) (hb : b ∈ bs)
include h hb

theorem addr_ne_start : b.addr ≠ vs := by
  have hlow := (h.addr_bounds hb).1
  simp only [overhead] at hlow
  omega

theorem addr_lt : b.addr + overhead + b.size < 2 ^ 32 :=
  Nat.lt_of_le_of_lt (h.addr_bounds hb).2 h.top_lt

theorem isFree : blockIsFree m b.addr = b.free :=
  blockIsFree_eq (h.addr_ne_zero hb) (h.sized b hb) (h.aligned b hb)

omit [Spacing R] in
theorem realSize : blockGetRealSize (sizeField m b.addr) = b.size := by
  rw [h.sized b hb, blockGetRealSize_word (h.aligned b hb)]

omit [Spacing R] in
theorem stop_eq : b.addr + overhead + blockGetRealSize (sizeField m b.addr) = b.stop := by
  rw [h.realSize hb, Block.stop]

end

/-- The free list holds exactly the blocks that are flagged free. -/
theorem mem_frees_iff (h : Layout R m vs top bs fs) (a : Nat) :
    a ∈ fs ↔ a ∈ bs.map Block.addr ∧ blockIsFree m a = true := by
  constructor
  · intro ha
    obtain ⟨b, hb, rfl, hfree⟩ := h.free_isBlock ha
    exact ⟨mem_map_of_mem hb, by rw [h.isFree hb, hfree]⟩
  · rintro ⟨ha, hfree⟩
    obtain ⟨b, hb, rfl⟩ := mem_map.mp ha
    exact h.mem_frees hb (by rw [← h.isFree hb, hfree])

theorem previous (h : Layout R m vs top (l ++ b :: r) fs) :
    blockGetPreviousBlock m b.addr vs = some ((l.map Block.addr).getLast?.getD 0) := by
  have hblocks := h.blocks
  have hnodup := h.tiled.addrs_nodup
  simp only [map_append, map_cons] at hblocks hnodup
  exact blockGetPreviousBlock_spec hblocks hnodup

theorem following (h : Layout R m vs top (l ++ b :: r) fs) :
    blockGetNextBlock m b.addr (vs + 4) = (r.map Block.addr).headD 0 := by
  have hblocks := h.blocks
  have hnodup := h.tiled.addrs_nodup
  have htail := h.tail
  simp only [map_append, map_cons] at hblocks hnodup htail
  exact blockGetNextBlock_spec hblocks hnodup htail

omit [Spacing R] in
theorem next_eq (h : Layout R m vs top (l ++ b :: r) fs) :
    next m b.addr = (r.map Block.addr).headD 0 := by
  have hblocks := h.blocks
  simp only [map_append, map_cons] at hblocks
  exact hblocks.next_eq

/-- Exactly the last block is the tail. -/
theorem tail_eq_iff (h : Layout R m vs top (l ++ b :: r) fs) : m.load32 (vs + 4) = b.addr ↔
    r = [] := by
  have hnodup := h.tiled.addrs_nodup
  simp only [map_append, map_cons] at hnodup
  have hback := (nodup_cons.mp (nodup_append.mp hnodup).2.1).1
  rw [h.tail]
  rcases eq_nil_or_concat' r with rfl | ⟨r', z, rfl⟩
  · simp
  · rw [← cons_append, ← append_assoc, map_append, map_singleton, getLast?_concat, getD_some]
    refine iff_of_false ?_ (by simp)
    intro heq
    exact hback (by simp [heq])

theorem following_lt (h : Layout R m vs top (l ++ r) fs) : (r.map Block.addr).headD 0 < 2 ^ 32 := by
  cases r with
  | nil => exact Nat.two_pow_pos 32
  | cons b r =>
    have hlt := h.addr_lt (b := b) (by simp)
    simp only [map_cons, headD_cons]
    omega

theorem following_setSize {w : Nat} (h : Layout R m vs top (l ++ b :: r) fs)
    (hc : c ∈ l ++ b :: r) :
    blockGetNextBlock (setSize m c.addr w) b.addr (vs + 4) = (r.map Block.addr).headD 0 := by
  have hbm : b ∈ l ++ b :: r := by simp
  have htail : (setSize m c.addr w).load32 (vs + 4) = m.load32 (vs + 4) :=
    nextfree_setSize (h.tiled.header_apart (header hc) (.inl rfl))
  have hnext : next (setSize m c.addr w) b.addr = next m b.addr :=
    next_setSize (h.tiled.header_apart (header hc) (header hbm))
  rw [← h.following]
  simp only [blockGetNextBlock, htail, hnext]

theorem gathered_lt (h : Layout R m vs top bs fs) (hbs : bs = l ++ b :: (old ++ r)) :
    (gathered b old).word < 2 ^ 32 ∧ (gathered b old).size % 4 = 0 := by
  subst hbs
  constructor
  · obtain ⟨e, hold, hr⟩ := Tiled.append_iff.mp h.tiled.around.2
    have hstop := Spacing.le (gathered_stop hold)
    have hle := hr.le
    have htop := h.top_lt
    simp only [Block.stop, Block.word, gathered, overhead, Bool.toNat_true] at hstop ⊢
    omega
  · refine gathered_aligned (h.aligned b (by simp)) ?_
    intro x hx
    exact h.aligned x (by simp [hx])

/-- The header update of a merge: size, successor and, if needed, the tail. -/
theorem relinked_merge {t : Prop} [Decidable t] {w : Nat} (h : Layout R m vs top bs fs)
    (hbs : bs = l ++ b :: (old ++ r)) (hw : w < 2 ^ 32) :
    Relinked vs (IsHeader vs bs) b.addr w ((r.map Block.addr).headD 0) t m
      (relink m vs b.addr w ((r.map Block.addr).headD 0) t) := by
  have hb : b ∈ bs := by simp [hbs]
  have hx : (r.map Block.addr).headD 0 < 2 ^ 32 :=
    following_lt (l := l ++ b :: old) (by simpa [hbs] using h)
  have hlt := h.addr_lt hb
  exact relinked_relink (fun _ _ => h.tiled.header_apart) (.inl rfl) (header hb) hw hx (by omega)

omit [Spacing R] in
/-- The neighbours of a free block are used. -/
theorem left_used (h : Layout R m vs top (l ++ b :: r) fs) (hb : b.free = true) :
    ∀ x ∈ l.getLast?, x.free = false := by
  intro x hx
  have hpair := (isChain_append.mp h.coalesced).2.2 x hx b rfl
  simpa [hb] using hpair

omit [Spacing R] in
theorem right_used (h : Layout R m vs top (l ++ b :: r) fs) (hb : b.free = true) :
    ∀ x ∈ r.head?, x.free = false := by
  intro x hx
  have hpair := (isChain_cons.mp (isChain_append.mp h.coalesced).2.1).1 x hx
  simpa [hb] using hpair

theorem following_notFree (h : Layout R m vs top (l ++ r) fs) (hr : ∀ x ∈ r.head?, x.free = false) :
    blockIsFree m ((r.map Block.addr).headD 0) = false := by
  cases r with
  | nil => rfl
  | cons b r =>
    rw [map_cons, headD_cons, h.isFree (by simp)]
    exact hr b rfl

theorem previous_notFree (h : Layout R m vs top (l ++ r) fs)
    (hl : ∀ x ∈ l.getLast?, x.free = false) :
    blockIsFree m ((l.map Block.addr).getLast?.getD 0) = false := by
  rcases eq_nil_or_concat' l with rfl | ⟨l', p, rfl⟩
  · rfl
  · rw [map_append, map_singleton, getLast?_concat, getD_some, h.isFree (by simp)]
    exact hl p (by simp)

theorem frees_header (h : Layout R m vs top bs fs) : ∀ a ∈ fs, IsHeader vs bs a ∧ a ≠ vs := by
  intro a ha
  obtain ⟨c, hc, rfl, -⟩ := h.free_isBlock ha
  exact ⟨header hc, h.addr_ne_start hc⟩

theorem frees_relinked {t : Prop} [Decidable t] {w x : Nat} (h : Layout R m vs top bs fs)
    (hb : b ∈ bs) (relinked : Relinked vs (IsHeader vs bs) b.addr w x t m m₁) :
    Chain m₁ 4 (vs + 8) fs 0 :=
  relinked.frees (.inl rfl) (h.addr_ne_start hb) h.frees h.frees_header

/-- The blocks around `b :: old` have other addresses than `b`. -/
theorem others (h : Layout R m vs top bs fs) (hbs : bs = l ++ b :: (old ++ r)) (hc : c ∈ l ++ r) :
    c ∈ bs ∧ c.addr ≠ b.addr := by
  have hnodup := h.tiled.addrs_nodup
  simp only [hbs, map_append, map_cons] at hnodup
  obtain ⟨-, hback, hdisjoint⟩ := nodup_append.mp hnodup
  rcases mem_append.mp hc with hc | hc
  · exact ⟨by simp [hbs, hc], hdisjoint _ (mem_map_of_mem hc) _ (by simp)⟩
  · refine ⟨by simp [hbs, hc], ?_⟩
    intro heq
    exact (nodup_cons.mp hback).1 (heq ▸ mem_append_right _ (mem_map_of_mem hc))

/-- Putting the block at `b` on a list of the free blocks around it. -/
theorem add_spec (h : Layout R m vs top bs fs) (hbs : bs = l ++ b :: (old ++ r))
    (frees : Chain m₁ 4 (vs + 8) fs' 0) (perm : fs'.Perm (freeAddrs (l ++ r))) :
    Chain (blockAddToFreelist m₁ b.addr (vs + 8)) 4 (vs + 8) (b.addr :: fs') 0 ∧
      LinksOnly vs (IsHeader vs bs) m₁ (blockAddToFreelist m₁ b.addr (vs + 8)) := by
  have hb : b ∈ bs := by simp [hbs]
  have hlt := h.addr_lt hb
  have listed : ∀ a ∈ fs', IsHeader vs bs a ∧ a ≠ b.addr := by
    intro a ha
    obtain ⟨c, hc, rfl⟩ := mem_map.mp (perm.mem_iff.mp ha)
    obtain ⟨hmem, hne⟩ := h.others hbs (mem_filter.mp hc).1
    exact ⟨header hmem, hne⟩
  exact blockAddToFreelist_spec (fun _ _ => h.tiled.header_apart) (.inl rfl) frees
    (fun a ha => (listed a ha).1) (header hb) (h.addr_ne_start hb) (by omega)
    fun hmem => (listed _ hmem).2 rfl

omit [Spacing R] in
/-- A free block splits the free list in two, and without it the list holds
the other free blocks. -/
theorem frees_split (h : Layout R m vs top bs fs) (hbs : bs = l ++ b :: r) (hfree : b.free = true) :
    ∃ fl fr, fs = fl ++ b.addr :: fr ∧ (fl ++ fr).Perm (freeAddrs (l ++ r)) := by
  have hmem : b.addr ∈ fs := h.mem_frees (by simp [hbs]) hfree
  obtain ⟨fl, fr, hfs⟩ := append_of_mem hmem
  refine ⟨fl, fr, hfs, ?_⟩
  have hperm := h.listed
  rw [hfs, hbs, freeAddrs_append, freeAddrs_cons_of_free hfree] at hperm
  have hcons := (perm_middle.symm.trans hperm).trans perm_middle
  simpa using hcons.cons_inv

/-- Taking a free block off the list leaves the other free blocks, whatever
was done to the headers before. -/
theorem remove_spec (h : Layout R m vs top bs fs) (hbs : bs = l ++ b :: r) (hfree : b.free = true)
    (frees : Chain m₁ 4 (vs + 8) fs 0) :
    ∃ m' fs', blockRemoveFromFreelist m₁ b.addr (vs + 8) = some m' ∧
      Chain m' 4 (vs + 8) fs' 0 ∧ fs'.Perm (freeAddrs (l ++ r)) ∧
        LinksOnly vs (IsHeader vs bs) m₁ m' := by
  obtain ⟨fl, fr, hfs, perm⟩ := h.frees_split hbs hfree
  have listed : ∀ a ∈ fl ++ b.addr :: fr, IsHeader vs bs a ∧ a ≠ vs ∧ a ≠ 0 := by
    intro a ha
    obtain ⟨hheader, hne⟩ := h.frees_header a (hfs ▸ ha)
    exact ⟨hheader, hne, h.free_ne_zero (hfs ▸ ha)⟩
  obtain ⟨m', run, chain, links⟩ := blockRemoveFromFreelist_spec
    (fun _ _ => h.tiled.header_apart) (.inl rfl) (hfs ▸ frees) (hfs ▸ h.nodup) listed
  exact ⟨m', fl ++ fr, run, chain, perm, links⟩

variable (h : Layout R m vs top bs fs) (hbs : bs = l ++ b :: (old ++ r))
include h hbs

/-- Replacing `b :: old` by `c :: new` over the same bytes. -/
theorem replace (hbs' : bs' = l ++ c :: (new ++ r)) (haddr : c.addr = b.addr)
    (span : ∀ e, Tiled R b.stop old e → Tiled R c.stop new e)
    (sized : ∀ x ∈ c :: new, sizeField m' x.addr = x.word)
    (aligned : ∀ x ∈ c :: new, x.size % 4 = 0)
    (link : Chain m' 8 (c.addr + 8) (new.map Block.addr) ((r.map Block.addr).headD 0))
    (head : m'.load32 vs = m.load32 vs) (keep : ∀ x ∈ l ++ r,
      sizeField m' x.addr = sizeField m x.addr ∧ next m' x.addr = next m x.addr)
    (tail : m'.load32 (vs + 4) =
      if r = [] then ((c :: new).map Block.addr).getLast?.getD 0 else m.load32 (vs + 4))
    (frees : Chain m' 4 (vs + 8) fs' 0) (listed : fs'.Perm (freeAddrs bs'))
    (coalesced : bs'.IsChain fun b c => ¬(b.free = true ∧ c.free = true)) :
    Layout R m' vs top bs' fs' := by
  subst hbs
  subst hbs'
  have hmem : ∀ x, x ∈ l ++ c :: (new ++ r) → x ∈ c :: new ∨ x ∈ l ++ r := by
    intro x hx
    simp only [mem_append, mem_cons] at hx ⊢
    tauto
  have hkeep : ∀ x ∈ l ++ r, x ∈ l ++ b :: (old ++ r) := by
    intro x hx
    simp only [mem_append, mem_cons] at hx ⊢
    tauto
  refine ⟨h.start_pos, h.top_lt, ?_, ?_, ?_, ?_, ?_, frees, listed, coalesced⟩
  · obtain ⟨a, hl, hb, hrest⟩ := Tiled.append_iff.mp h.tiled
    obtain ⟨e, hold, hr⟩ := Tiled.append_iff.mp hrest
    exact Tiled.append_iff.mpr ⟨a, hl, haddr ▸ hb, Tiled.append_iff.mpr ⟨e, span e hold, hr⟩⟩
  · intro x hx
    rcases hmem x hx with hx | hx
    · exact sized x hx
    · exact (keep x hx).1.trans (h.sized x (hkeep x hx))
  · intro x hx
    rcases hmem x hx with hx | hx
    · exact aligned x hx
    · exact h.aligned x (hkeep x hx)
  · have hblocks : Chain m 8 vs
        (l.map Block.addr ++ b.addr :: (old.map Block.addr ++ r.map Block.addr)) 0 := by
      simpa using h.blocks
    have hnext : ∀ x ∈ l ++ r, m'.load32 (x.addr + 8) = m.load32 (x.addr + 8) :=
      fun x hx => (keep x hx).2
    have hsplice := hblocks.splice head (forall_mem_map.mpr fun x hx =>
      hnext x (mem_append_left r hx))
      (forall_mem_map.mpr fun x hx => hnext x (mem_append_right l hx))
      (by simpa only [haddr] using link)
    simpa [haddr] using hsplice
  · rw [tail]
    cases r with
    | nil =>
      rw [if_pos rfl, append_nil, map_append, getLast?_append_of_ne_nil _ (by simp)]
    | cons z r =>
      have hlast : ∀ k : List Block,
          ((k ++ z :: r).map Block.addr).getLast? = ((z :: r).map Block.addr).getLast? := by
        intro k
        rw [map_append, getLast?_append_of_ne_nil _ (by simp)]
      rw [if_neg (by simp), h.tail, ← cons_append, ← append_assoc, hlast,
        ← cons_append, ← append_assoc, hlast]

/-- Replacing `b :: old` by the single block `c`: its header is rewritten and
then the free list is updated. -/
theorem replaceOne {t : Prop} [Decidable t] (haddr : c.addr = b.addr)
    (span : ∀ e, Tiled R b.stop old e → R c.stop e) (aligned : c.size % 4 = 0)
    (relinked : Relinked vs (IsHeader vs bs) b.addr c.word ((r.map Block.addr).headD 0) t m m₁)
    (ht : t ↔ r = []) (links : LinksOnly vs (IsHeader vs bs) m₁ m')
    (frees : Chain m' 4 (vs + 8) fs' 0) (listed : fs'.Perm (freeAddrs (l ++ c :: r)))
    (coalesced : (l ++ c :: r).IsChain fun b c => ¬(b.free = true ∧ c.free = true)) :
    Layout R m' vs top (l ++ c :: r) fs' := by
  have hb : b ∈ bs := by simp [hbs]
  have hnew : l ++ c :: r = l ++ c :: ([] ++ r) := rfl
  refine h.replace hbs hnew haddr ?_ ?_ ?_ ?_ ?_ ?_ ?_ frees listed coalesced
  · assumption
  · intro x hx
    obtain rfl := mem_singleton.mp hx
    rw [haddr, links.size _ (header hb), relinked.size_self]
  · intro x hx
    rwa [mem_singleton.mp hx]
  · rw [haddr]
    exact (links.next _ (header hb) (h.addr_ne_start hb)).trans relinked.next_self
  · exact (links.size vs (.inl rfl)).trans (relinked.size vs (.inl rfl) (h.addr_ne_start hb).symm)
  · intro x hx
    obtain ⟨hmem, hne⟩ := h.others hbs hx
    exact ⟨(links.size _ (header hmem)).trans (relinked.size _ (header hmem) hne),
      (links.next _ (header hmem) (h.addr_ne_start hmem)).trans (relinked.next _ (header hmem) hne)⟩
  · rw [links.tail, relinked.tail]
    simp only [ht, haddr, map_cons, map_nil, getLast?_singleton, getD_some]

/-- Gathering blocks between used neighbours into one free block. -/
theorem gather {t : Prop} [Decidable t] (relinked : Relinked vs (IsHeader vs bs) b.addr
    (gathered b old).word ((r.map Block.addr).headD 0) t m m₁) (ht : t ↔ r = [])
    (links : LinksOnly vs (IsHeader vs bs) m₁ m') (frees : Chain m' 4 (vs + 8) fs' 0)
    (listed : fs'.Perm (b.addr :: freeAddrs (l ++ r))) (left : ∀ x ∈ l.getLast?, x.free = false)
    (right : ∀ x ∈ r.head?, x.free = false) :
    Layout R m' vs top (l ++ gathered b old :: r) fs' := by
  refine h.replaceOne hbs rfl (fun e => gathered_stop) ?_ relinked ht links frees ?_ ?_
  · exact (h.gathered_lt hbs).2
  · have hfree : (gathered b old).free = true := rfl
    refine listed.trans ?_
    rw [freeAddrs_append, freeAddrs_append, freeAddrs_cons_of_free hfree]
    exact perm_middle.symm
  · have hchain := h.coalesced
    rw [hbs, isChain_append, ← cons_append, isChain_append] at hchain
    obtain ⟨hl, ⟨-, hr, -⟩, -⟩ := hchain
    rw [isChain_append, isChain_cons]
    refine ⟨hl, ⟨?_, hr⟩, ?_⟩
    · intro x hx hboth
      rw [right x hx] at hboth
      cases hboth.2
    · intro x hx y hy hboth
      rw [left x hx] at hboth
      cases hboth.1

end Layout

end Hos.Kheap
