import Hos.Memory.Kheap.Reshape

/-!
# Reusing a free block in `__do_malloc`

An allocation takes a best-fitting free block, whole or split in two. Each way
produces a well-formed heap with exactly one more used block, of at least the
rounded size, and writes only to headers. The rest of a split never meets a
free block, because free blocks have used neighbours; the merging branch of
`__do_malloc` is therefore not reached from a well-formed heap.
-/

namespace Hos.Kheap

open Option List Bool

section

variable {size : Nat}

theorem ceil16_eq : ceil16 size = u32 (size + 15) / 16 * 16 := by
  have hmask := and_highMask (k := 4) (u32_lt (size + 15)) (by decide)
  assumption

theorem ceil16_mod : ceil16 size % 16 = 0 := by
  rw [ceil16_eq, Nat.mul_mod_left]

theorem ceil16_add_lt : ceil16 size + overhead < 2 ^ 32 := by
  have hlt := u32_lt (size + 15)
  rw [ceil16_eq, overhead]
  omega

/-- Rounding up only enlarges a size that does not overflow. -/
theorem le_ceil16 (h : size ≤ 0xFFFFFFF0) : size ≤ ceil16 size := by
  rw [ceil16_eq, u32_of_lt (by omega)]
  omega

end

/-- `ptr` is the payload of a new used block of at least `n` bytes, and the
payloads of the other used blocks are as before. -/
structure Allocated (R : Nat → Nat → Prop) (h h' : Heap) (bs : List Block) (ptr n : Nat)
    (bs' : List Block) (fs' : List Nat) (c : Block) : Prop where
  layout : Layout R h'.mem h'.vmStart h'.kernelHeapTop bs' fs'
  used : (usedBlocks bs').Perm (c :: usedBlocks bs)
  payload : c.payload = ptr
  size : n ≤ c.size
  frame : ∀ b ∈ usedBlocks bs, ∀ x, b.payload ≤ x → x < b.stop → h'.mem x = h.mem x

/-- A used block may stand between any two stretches. -/
theorem coalesced_used {l r : List Block} {c : Block} (hc : c.free = false)
    (hl : l.IsChain fun b c => ¬(b.free = true ∧ c.free = true))
    (hr : r.IsChain fun b c => ¬(b.free = true ∧ c.free = true)) :
    (l ++ c :: r).IsChain fun b c => ¬(b.free = true ∧ c.free = true) := by
  rw [isChain_append, isChain_cons]
  refine ⟨hl, ⟨?_, hr⟩, ?_⟩
  · intro x hx hboth
    exact absurd hboth.1 (by simp [hc])
  · intro x hx y hy hboth
    obtain rfl : c = y := by simpa using hy
    exact absurd hboth.2 (by simp [hc])

variable {R : Nat → Nat → Prop} [Spacing R] {h : Heap} {l r : List Block} {b : Block}
    {fs : List Nat} {n : Nat}

/-- The blocks that fit are the free ones with enough room, whatever the flag in the size. -/
theorem Layout.blockIsFit_iff {bs : List Block}
    (lay : Layout R h.mem h.vmStart h.kernelHeapTop bs fs) (hb : b ∈ bs)
    (hn : n % 16 = 0) : blockIsFit h.mem b.addr n = true ↔ n ≤ b.size ∧ b.free = true := by
  have hreal : blockGetRealSize n = n := by
    simp only [blockGetRealSize, Nat.shiftRight_eq_div_pow, Nat.shiftLeft_eq]
    omega
  have halign := lay.aligned b hb
  rw [blockIsFit, hreal, lay.sized b hb, lay.isFree hb, and_eq_true, decide_eq_true_eq]
  refine and_congr_left fun hfree => ?_
  rw [Block.word, hfree, toNat_true]
  omega

theorem takeBestFitting_whole (lay : Layout R h.mem h.vmStart h.kernelHeapTop (l ++ b :: r) fs)
    (hfree : b.free = true) (hle : n ≤ b.size) (hrest : b.size - n < 20) :
    ∃ m fs', takeBestFitting h (n + overhead) b.addr = some m ∧
      Layout R m h.vmStart h.kernelHeapTop (l ++ ⟨b.addr, b.size, false⟩ :: r) fs' ∧
      TouchesHeaders (IsHeader h.vmStart (l ++ b :: r)) h.mem m := by
  obtain ⟨c, hc⟩ : ∃ c : Block, c = ⟨b.addr, b.size, false⟩ := ⟨_, rfl⟩
  have hshape : l ++ b :: r = l ++ b :: ([] ++ r) := rfl
  have hbm : b ∈ l ++ b :: r := by simp
  have hlt := lay.addr_lt hbm
  have halign := lay.aligned b hbm
  have hword : c.word = b.size := by simp [hc, Block.word]
  have relinked : Relinked h.vmStart (IsHeader h.vmStart (l ++ b :: r)) b.addr c.word
      (next h.mem b.addr) (r = []) h.mem (setSize h.mem b.addr c.word) :=
    relinked_setSize (fun _ _ => lay.tiled.header_apart) (Or.inl rfl) (Layout.header hbm)
      (by omega) lay.tail_eq_iff.mpr
  have frees := lay.frees_relinked hbm relinked
  obtain ⟨m, fs', hremove, chain, perm, links⟩ := lay.remove_spec (r := r) rfl hfree frees
  rw [lay.next_eq] at relinked
  have hchunk : u32 (b.size + overhead) = b.size + overhead := u32_of_lt (by omega)
  have hremaining : sub32 (b.size + overhead) (n + overhead) = b.size - n := by
    rw [sub32_of_le (by omega) (by omega)]
    omega
  have hreal : sub32 (b.size + overhead) overhead = b.size := by
    rw [sub32_of_le (by omega) (by omega)]
    omega
  have hsmall : b.size - n < 8 + overhead := hrest
  refine ⟨m, fs', ?_, ?_, relinked.touches.trans links.touches⟩
  · rw [hword] at hremove
    simp only [takeBestFitting, takeBestFittingBy, cutBestFitting, lay.realSize hbm, hchunk,
      hremaining, hsmall, if_true, hreal,
      setSize_markUsed halign (show b.size < 2 ^ 32 by omega), bind_eq_bind,
      bind_some]
    exact hremove
  · rw [← hc]
    refine lay.replaceOne hshape (by rw [hc]) ?_ (by rw [hc]; exact halign) relinked Iff.rfl
      links chain ?_ ?_
    · intro e hold
      rw [hc]
      exact hold
    · simpa [freeAddrs_cons_of_used (show c.free = false by rw [hc])] using perm
    · obtain ⟨hl, hr, -⟩ := isChain_append.mp lay.coalesced
      exact coalesced_used (by rw [hc]) hl (isChain_cons.mp hr).2

section

variable {m m₁ m₂ m₃ m₄ m₅ : Bytes} {vs top : Nat} {c d : Block} {fs' : List Nat}
  {t : Prop} [Decidable t]

/-- The headers before a split are headers after it, and the rest is new. -/
theorem Layout.split_header (lay : Layout R m vs top (l ++ b :: r) fs) (hc : c.addr = b.addr)
    (hd : d.addr = c.stop) (hstop : d.stop = b.stop) {x : Block} (hx : x ∈ l ++ b :: r) :
    IsHeader vs (l ++ c :: d :: r) x.addr ∧ x.addr ≠ d.addr := by
  have hb : b ∈ l ++ b :: r := by simp
  simp only [Block.stop, overhead] at hd hstop
  constructor
  · rcases mem_append.mp hx with hl | hr
    · exact Layout.header (by simp [hl])
    · rcases mem_cons.mp hr with rfl | hr
      · exact Or.inr ⟨c, by simp, hc.symm⟩
      · exact Layout.header (by simp [hr])
  · -- The rest starts inside the block that is split.
    rcases lay.tiled.disjoint hb hx with rfl | hlt | hlt
    · omega
    · simp only [Block.stop, overhead] at hlt
      omega
    · simp only [Block.stop, overhead] at hlt
      omega

/-- The writes of a split in their order: the size of the used part, the
header of the rest, the rest in front of the free list, the successor of the
used part, and the used part off the free list. -/
theorem Layout.split {S : Nat → Prop} (lay : Layout R m vs top (l ++ b :: r) fs)
    (hS : S = IsHeader vs (l ++ c :: d :: r)) (hc : c.addr = b.addr) (hcused : c.free = false)
    (hd : d.addr = c.stop) (hdfree : d.free = true) (hstop : d.stop = b.stop)
    (halign : c.size % 4 = 0 ∧ d.size % 4 = 0) (hfree : b.free = true)
    (first : Relinked vs S b.addr c.word (next m b.addr) False m m₁)
    (rest : Relinked vs S d.addr d.word ((r.map Block.addr).headD 0) t m₁ m₂)
    (ht : t ↔ r = []) (added : LinksOnly vs S m₂ m₃)
    (joined : Relinked vs S b.addr (sizeField m₃ b.addr) d.addr False m₃ m₄)
    (removed : LinksOnly vs S m₄ m₅) (frees : Chain m₅ 4 (vs + 8) (d.addr :: fs') 0)
    (perm : fs'.Perm (freeAddrs (l ++ r))) : Layout R m₅ vs top (l ++ c :: d :: r)
    (d.addr :: fs') := by
  have hbefore : l ++ b :: r = l ++ b :: ([] ++ r) := rfl
  have hafter : l ++ c :: d :: r = l ++ c :: ([d] ++ r) := rfl
  have hb : b ∈ l ++ b :: r := by simp
  obtain ⟨hSb, hbd⟩ := lay.split_header hc hd hstop hb
  have hSd : IsHeader vs (l ++ c :: d :: r) d.addr := Layout.header (by simp)
  have hSvs : IsHeader vs (l ++ c :: d :: r) vs := Or.inl rfl
  rw [← hS] at hSb hSd hSvs
  have hbvs := lay.addr_ne_start hb
  have hdvs : d.addr ≠ vs := by
    have hlow := (lay.addr_bounds hb).1
    simp only [Block.stop, overhead] at hlow hd
    omega
  -- Sizes and successors of headers other than the two parts never change.
  have keep_size : ∀ v, S v → v ≠ b.addr → v ≠ d.addr → sizeField m₅ v = sizeField m v := by
    intro v hv hvb hvd
    rw [removed.size v hv, joined.size v hv hvb, added.size v hv, rest.size v hv hvd,
      first.size v hv hvb]
  have keep_next : ∀ v, S v → v ≠ vs → v ≠ b.addr → v ≠ d.addr → next m₅ v = next m v := by
    intro v hv hvs hvb hvd
    rw [removed.next v hv hvs, joined.next v hv hvb, added.next v hv hvs, rest.next v hv hvd,
      first.next v hv hvb]
  have size_b : sizeField m₅ b.addr = c.word := by
    rw [removed.size _ hSb, joined.size_self, added.size _ hSb, rest.size _ hSb hbd,
      first.size_self]
  have size_d : sizeField m₅ d.addr = d.word := by
    rw [removed.size _ hSd, joined.size _ hSd hbd.symm, added.size _ hSd, rest.size_self]
  have next_b : next m₅ b.addr = d.addr := by
    rw [removed.next _ hSb hbvs, joined.next_self]
  have next_d : next m₅ d.addr = (r.map Block.addr).headD 0 := by
    rw [removed.next _ hSd hdvs, joined.next _ hSd hbd.symm, added.next _ hSd hdvs, rest.next_self]
  have tail : m₅.load32 (vs + 4) = if r = [] then d.addr else m.load32 (vs + 4) := by
    rw [removed.tail, joined.tail, if_neg not_false, added.tail, rest.tail, first.tail,
      if_neg not_false]
    simp only [ht]
  have apart : ∀ x ∈ l ++ r, S x.addr ∧ x.addr ≠ vs ∧ x.addr ≠ b.addr ∧ x.addr ≠ d.addr := by
    intro x hx
    obtain ⟨hxm, hxb⟩ := lay.others hbefore hx
    obtain ⟨hSx, hxd⟩ := lay.split_header hc hd hstop hxm
    exact ⟨hS ▸ hSx, lay.addr_ne_start hxm, hxb, hxd⟩
  refine lay.replace hbefore hafter hc ?_ ?_ ?_ ?_ ?_ ?_ ?_ frees ?_ ?_
  · intro e hold
    exact ⟨hd ▸ Spacing.refl _, hstop ▸ hold⟩
  · simpa [hc] using And.intro size_b size_d
  · simpa using halign
  · exact ⟨by rw [hc]; exact next_b, next_d⟩
  · exact keep_size vs hSvs hbvs.symm hdvs.symm
  · intro x hx
    obtain ⟨hSx, hxvs, hxb, hxd⟩ := apart x hx
    exact ⟨keep_size _ hSx hxb hxd, keep_next _ hSx hxvs hxb hxd⟩
  · simpa using tail
  · refine (perm.cons _).trans ?_
    simp only [freeAddrs_append, freeAddrs_cons_of_used hcused, freeAddrs_cons_of_free hdfree]
    exact perm_middle.symm
  · obtain ⟨hl, hr, -⟩ := isChain_append.mp lay.coalesced
    refine coalesced_used hcused hl (isChain_cons.mpr ⟨?_, (isChain_cons.mp hr).2⟩)
    intro x hx hboth
    exact absurd hboth.2 (by simp [lay.right_used hfree x hx])

end

section

variable (lay : Layout R h.mem h.vmStart h.kernelHeapTop (l ++ b :: r) fs) (hfree : b.free = true)
include lay hfree

/-- The block after the split one is used, also after the first write. -/
theorem following_notFree_setSize {w : Nat} :
    blockIsFree (setSize h.mem b.addr w) ((r.map Block.addr).headD 0) = false := by
  have hbm : b ∈ l ++ b :: r := by simp
  have hbefore : l ++ b :: r = l ++ b :: ([] ++ r) := rfl
  have layr : Layout R h.mem h.vmStart h.kernelHeapTop ((l ++ [b]) ++ r) fs := by
    simpa using lay
  have hfalse := layr.following_notFree (lay.right_used hfree)
  cases r with
  | nil => rfl
  | cons y r =>
    obtain ⟨hym, hyb⟩ := lay.others (c := y) hbefore (by simp)
    have hsame : sizeField (setSize h.mem b.addr w) y.addr = sizeField h.mem y.addr :=
      sizeField_setSize (lay.tiled.header_apart (Layout.header hbm) (Layout.header hym)) hyb
    simpa only [blockIsFree, map_cons, headD_cons, hsame] using hfalse

/-- The writes of a split, in the order of the source. -/
theorem takeBestFitting_split_eq {d : Block} (hn : n % 16 = 0) (hroom : n + 20 ≤ b.size)
    (hd : d = ⟨b.addr + overhead + n, b.size - n - overhead, true⟩) :
    takeBestFitting h (n + overhead) b.addr = blockRemoveFromFreelist (setNext (blockAddToFreelist
        (relink (setSize h.mem b.addr n) h.vmStart d.addr d.word ((r.map Block.addr).headD 0)
          (b.addr = h.mem.load32 (h.vmStart + 4))) d.addr (h.vmStart + 8)) b.addr d.addr)
        b.addr (h.vmStart + 8) := by
  have hbm : b ∈ l ++ b :: r := by simp
  have halign := lay.aligned b hbm
  have hlt := lay.addr_lt hbm
  have hchunk : u32 (b.size + overhead) = b.size + overhead := u32_of_lt (by omega)
  have hremaining : sub32 (b.size + overhead) (n + overhead) = b.size - n := by
    rw [sub32_of_le (by omega) (by omega)]
    omega
  have hreal : sub32 (n + overhead) overhead = n := by
    rw [sub32_of_le (by omega) (by omega)]
    omega
  have hrest : sub32 (b.size - n) overhead = b.size - n - overhead :=
    sub32_of_le (by omega) (by simp only [overhead]; omega)
  have hlarge : ¬b.size - n < 8 + overhead := by
    simp only [overhead]
    omega
  have hptr : u32 (b.addr + (n + overhead)) = b.addr + overhead + n := by
    rw [u32_of_lt (by omega)]
    omega
  have hrestAlign : (b.size - n - overhead) % 4 = 0 := by
    simp only [overhead]
    omega
  have hnext : blockGetNextBlock h.mem b.addr h.tail = (r.map Block.addr).headD 0 := lay.following
  simp only [takeBestFitting, takeBestFittingBy, cutBestFitting, lay.realSize hbm, hchunk,
    hremaining, hlarge, if_false, hreal,
    setSize_markUsed (show n % 4 = 0 by omega) (show n < 2 ^ 32 by omega), bind_eq_bind,
    bind_some, hnext, following_notFree_setSize lay hfree, false_eq_true, hptr,
    separateRest, hrest, setSize_markFree hrestAlign (show b.size - n - overhead < 2 ^ 32 by omega)]
  rw [hd]
  rfl

theorem takeBestFitting_split {c d : Block} (hn : n % 16 = 0) (hroom : n + 20 ≤ b.size)
    (hc : c = ⟨b.addr, n, false⟩) (hd : d = ⟨b.addr + overhead + n, b.size - n - overhead, true⟩) :
    ∃ m fs', takeBestFitting h (n + overhead) b.addr = some m ∧
      Layout R m h.vmStart h.kernelHeapTop (l ++ c :: d :: r) fs' ∧
      TouchesHeaders (IsHeader h.vmStart (l ++ c :: d :: r)) h.mem m := by
  have hbm : b ∈ l ++ b :: r := by simp
  have hcaddr : c.addr = b.addr := by rw [hc]
  have hdaddr : d.addr = c.stop := by rw [hc, hd]; rfl
  have halign := lay.aligned b hbm
  have hlt := lay.addr_lt hbm
  have hstop : d.stop = b.stop := by
    simp only [hd, Block.stop, overhead]
    omega
  have hdlt : d.addr + d.word < 2 ^ 32 := by
    simp only [hd, Block.word, overhead, toNat_true] at hlt ⊢
    omega
  have hcword : c.word = n := by simp [hc, Block.word]
  have tiled : Tiled R (h.vmStart + overhead) (l ++ c :: d :: r) h.kernelHeapTop := by
    obtain ⟨a, hl, hb, hr⟩ := Tiled.append_iff.mp lay.tiled
    exact Tiled.append_iff.mpr ⟨a, hl, hcaddr ▸ hb, hdaddr ▸ Spacing.refl _, hstop ▸ hr⟩
  have hrestAlign : c.size % 4 = 0 ∧ d.size % 4 = 0 := by
    simp only [hc, hd, overhead]
    omega
  have hdvs : d.addr ≠ h.vmStart := by
    have hlow := (lay.addr_bounds hbm).1
    simp only [hd, overhead] at hlow ⊢
    omega
  have apart : ∀ u v, IsHeader h.vmStart (l ++ c :: d :: r) u →
      IsHeader h.vmStart (l ++ c :: d :: r) v → Apart u v := fun _ _ => tiled.header_apart
  have hSvs : IsHeader h.vmStart (l ++ c :: d :: r) h.vmStart := Or.inl rfl
  have hSd : IsHeader h.vmStart (l ++ c :: d :: r) d.addr := Layout.header (by simp)
  have hSb := (lay.split_header hcaddr hdaddr hstop hbm).1
  have sub : ∀ a ∈ fs, IsHeader h.vmStart (l ++ c :: d :: r) a ∧ a ≠ h.vmStart := by
    intro a ha
    obtain ⟨x, hx, rfl, -⟩ := lay.free_isBlock ha
    exact ⟨(lay.split_header hcaddr hdaddr hstop hx).1, lay.addr_ne_start hx⟩
  have fresh : d.addr ∉ fs := by
    intro ha
    obtain ⟨x, hx, heq, -⟩ := lay.free_isBlock ha
    exact (lay.split_header hcaddr hdaddr hstop hx).2 heq
  have hx : (r.map Block.addr).headD 0 < 2 ^ 32 :=
    Layout.following_lt (l := l ++ [b]) (by simpa using lay)
  have first := relinked_setSize (m := h.mem) (w := c.word) (t := False) apart hSvs hSb
    (by omega) False.elim
  have rest := relinked_relink (m := setSize h.mem b.addr c.word) (w := d.word)
    (t := b.addr = h.mem.load32 (h.vmStart + 4)) apart hSvs hSd (by omega) hx (by omega)
  have frees := rest.frees hSvs hdvs (first.frees hSvs (lay.addr_ne_start hbm) lay.frees sub) sub
  obtain ⟨chain, added⟩ := blockAddToFreelist_spec apart hSvs frees (fun a ha => (sub a ha).1) hSd
    hdvs (by omega) fresh
  have joined := relinked_setNext (m := blockAddToFreelist (relink (setSize h.mem b.addr c.word)
    h.vmStart d.addr d.word ((r.map Block.addr).headD 0)
    (b.addr = h.mem.load32 (h.vmStart + 4))) d.addr (h.vmStart + 8)) (x := d.addr) apart hSvs hSb
    (by omega)
  have listed : ∀ a ∈ d.addr :: fs, IsHeader h.vmStart (l ++ c :: d :: r) a ∧
      a ≠ h.vmStart ∧ a ≠ 0 := by
    intro a ha
    rcases mem_cons.mp ha with rfl | ha
    · exact ⟨hSd, hdvs, by simp [hd, overhead]⟩
    · exact ⟨(sub a ha).1, (sub a ha).2, lay.free_ne_zero ha⟩
  have chain' := joined.frees hSvs (lay.addr_ne_start hbm) chain fun a ha =>
    ⟨(listed a ha).1, (listed a ha).2.1⟩
  obtain ⟨fl, fr, hfs, perm⟩ := lay.frees_split rfl hfree
  have nodup : (d.addr :: fs).Nodup := nodup_cons.mpr ⟨fresh, lay.nodup⟩
  rw [hfs, ← cons_append] at chain' listed nodup
  obtain ⟨m, run, frees', removed⟩ := blockRemoveFromFreelist_spec apart hSvs chain' nodup listed
  refine ⟨m, d.addr :: (fl ++ fr), ?_, ?_, ?_⟩
  · rw [takeBestFitting_split_eq lay hfree hn hroom hd, ← run, hcword]
  · exact lay.split rfl hcaddr (by rw [hc]) hdaddr (by rw [hd]) hstop hrestAlign hfree first rest
      (eq_comm.trans lay.tail_eq_iff) added joined removed frees' perm
  · exact first.touches.trans (rest.touches.trans (added.touches.trans
      (joined.touches.trans removed.touches)))

end

/-- What a free block becomes for a request of `n` bytes. The rest is split off when it has
room for a header and eight bytes. -/
def carve (b : Block) (n : Nat) : List Block :=
  if b.size - n < overhead + 8 then [⟨b.addr, b.size, false⟩]
  else [⟨b.addr, n, false⟩, ⟨b.addr + overhead + n, b.size - n - overhead, true⟩]

/-- The part of a free block that is handed out. -/
def carved (b : Block) (n : Nat) : Block :=
    ⟨b.addr, if b.size - n < overhead + 8 then b.size else n, false⟩

theorem le_carved_size (hle : n ≤ b.size) : n ≤ (carved b n).size := by
  dsimp only [carved]
  split
  · exact hle
  rfl

/-- A used block in place of a free one. -/
theorem usedBlocks_carve (hfree : b.free = true) :
    (usedBlocks (l ++ (carve b n ++ r))).Perm (carved b n :: usedBlocks (l ++ b :: r)) := by
  have hpart : usedBlocks (carve b n) = [carved b n] := by
    rw [carve, carved]
    split <;> rfl
  simp only [usedBlocks_append, usedBlocks_cons_of_free hfree, hpart]
  exact perm_middle

variable (lay : Layout R h.mem h.vmStart h.kernelHeapTop (l ++ b :: r) fs) (hn : n % 16 = 0)
  (fit : blockIsFit h.mem b.addr n = true)
include lay hn fit

/-- Reusing a fitting free block always returns, and the other blocks keep their payloads. -/
theorem takeBestFitting_carve :
    ∃ m fs', takeBestFitting h (n + overhead) b.addr = some m ∧
      Layout R m h.vmStart h.kernelHeapTop (l ++ (carve b n ++ r)) fs' ∧
      (∀ x ∈ l ++ r, ∀ y, x.payload ≤ y → y < x.stop → m y = h.mem y) ∧
      ∀ y, y < h.vmStart ∨ h.kernelHeapTop ≤ y → m y = h.mem y := by
  obtain ⟨hle, hfree⟩ := (lay.blockIsFit_iff (mem_append_right l mem_cons_self) hn).mp fit
  rw [carve]
  split
  · rename_i hrest
    obtain ⟨m, fs', run, layout, touches⟩ := takeBestFitting_whole lay hfree hle hrest
    refine ⟨m, fs', run, layout, fun x hx y hlow hhigh => ?_, fun y hy =>
      touches y (lay.outside hy)⟩
    refine lay.tiled.payload_eq touches ?_ hlow hhigh
    simp only [mem_append, mem_cons] at hx ⊢
    tauto
  · rename_i hrest
    have hroom : n + 20 ≤ b.size := by
      simp only [overhead] at hrest
      omega
    obtain ⟨m, fs', run, layout, touches⟩ := takeBestFitting_split lay hfree hn hroom rfl rfl
    refine ⟨m, fs', run, layout, fun x hx y hlow hhigh => ?_, fun y hy =>
      touches y (layout.outside hy)⟩
    refine layout.tiled.payload_eq touches ?_ hlow hhigh
    simp only [mem_append, mem_cons] at hx ⊢
    tauto

theorem takeBestFitting_spec :
    ∃ m bs' fs' c, takeBestFitting h (n + overhead) b.addr = some m ∧
      Allocated R h { h with mem := m } (l ++ b :: r) (b.addr + overhead) n bs' fs' c := by
  obtain ⟨hle, hfree⟩ := (lay.blockIsFit_iff (mem_append_right l mem_cons_self) hn).mp fit
  obtain ⟨m, fs', run, layout, frame, -⟩ := takeBestFitting_carve lay hn fit
  refine ⟨m, _, fs', carved b n, run, layout, usedBlocks_carve hfree, rfl, le_carved_size hle, ?_⟩
  intro x hx
  have hmem : x ∈ usedBlocks (l ++ r) := by
    simpa [usedBlocks_cons_of_free hfree] using hx
  exact frame x (mem_filter.mp hmem).1

end Hos.Kheap
