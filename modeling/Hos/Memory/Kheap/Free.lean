import Hos.Memory.Kheap.Reshape

/-!
# `__do_free`

Freeing a block looks at its two neighbours. Depending on which of them are
free, the block is merged with both, with the previous one, with the next one,
or only marked. In every case the call returns, the used blocks are those from
before without the freed one, and no two free blocks become neighbours.
-/

namespace Hos.Kheap

open Option List Bool

/-- What freeing the block between `l` and `r` achieves. -/
def Freed (R : Nat → Nat → Prop) (h : Heap) (l r : List Block) (b : Block) : Prop :=
  ∃ m bs fs, doFree h b.payload = some { h with mem := m } ∧
    Layout R m h.vmStart h.kernelHeapTop bs fs ∧
    usedBlocks bs = usedBlocks (l ++ r) ∧
    TouchesHeaders (IsHeader h.vmStart (l ++ b :: r)) h.mem m

variable {R : Nat → Nat → Prop} [Spacing R] {h : Heap} {l r : List Block} {b p n : Block}
  {fs : List Nat}

theorem sub32_payload (hlt : b.addr + overhead + b.size < 2 ^ 32) :
    sub32 b.payload overhead = b.addr := by
  have hle : b.payload < 2 ^ 32 := by
    simp only [Block.payload]
    omega
  rw [sub32_of_le hle (by simp [Block.payload]), Block.payload, Nat.add_sub_cancel]

/-- The size field of the merged block, as the two assignments leave it. -/
theorem setSize_gathered {m : Bytes} {old : List Block} {x : Nat}
    (lay : Layout R m h.vmStart h.kernelHeapTop (l ++ b :: (old ++ r)) fs)
    (hx : x = (gathered b old).size) :
    setSize (setSize m b.addr (u32 x)) b.addr
        (blockSetFree (sizeField (setSize m b.addr (u32 x)) b.addr) true) =
      setSize m b.addr (gathered b old).word := by
  obtain ⟨hword, halign⟩ := lay.gathered_lt rfl
  have hlt : (gathered b old).size < 2 ^ 32 := Nat.lt_of_le_of_lt (Nat.le_add_right _ _) hword
  rw [hx, u32_of_lt hlt, setSize_markFree halign hlt]
  rfl

theorem usedBlocks_gathered {old : List Block} :
    usedBlocks (l ++ gathered b old :: r) = usedBlocks (l ++ r) := by
  have hfree : (gathered b old).free = true := rfl
  simp only [usedBlocks_append, usedBlocks_cons_of_free hfree]

/-- Both neighbours are free: the three blocks become one. -/
theorem doFree_both (lay : Layout R h.mem h.vmStart h.kernelHeapTop (l ++ p :: b :: n :: r) fs)
    (hp : p.free = true) (hb : b.free = false) (hn : n.free = true) : Freed R h (l ++ [p])
    (n :: r) b := by
  have layb : Layout R h.mem h.vmStart h.kernelHeapTop ((l ++ [p]) ++ b :: n :: r) fs := by
    simpa using lay
  have layn : Layout R h.mem h.vmStart h.kernelHeapTop ((l ++ [p, b]) ++ n :: r) fs := by
    simpa using lay
  have hshape : l ++ p :: b :: n :: r = l ++ p :: ([b, n] ++ r) := rfl
  have hpm : p ∈ l ++ p :: b :: n :: r := by simp
  have hbm : b ∈ l ++ p :: b :: n :: r := by simp
  have hnm : n ∈ l ++ p :: b :: n :: r := by simp
  have relinked := lay.relinked_merge (t := h.mem.load32 (h.vmStart + 4) = n.addr) hshape
    (lay.gathered_lt hshape).1
  have frees := lay.frees_relinked hpm relinked
  obtain ⟨m', fs', hremove, chain, perm, links⟩ :=
    lay.remove_spec (l := l ++ [p, b]) (r := r) (by simp) hn frees
  have hprev : blockGetPreviousBlock h.mem b.addr h.head = some p.addr := by
    simpa [Heap.head] using layb.previous
  have hnext : blockGetNextBlock h.mem b.addr h.tail = n.addr := by
    simpa [Heap.tail] using layb.following
  have hafter : ∀ w, blockGetNextBlock (setSize h.mem p.addr w) n.addr h.tail =
      (r.map Block.addr).headD 0 := fun w => layn.following_setSize (by simp)
  have hsize : p.size + 2 * overhead + b.size + n.size = (gathered p [b, n]).size := by
    simp only [gathered, map_cons, map_nil, sum_cons, sum_nil]
    omega
  refine ⟨m', _, fs', ?_, lay.gather hshape relinked layn.tail_eq_iff links chain ?_ ?_ ?_, ?_, ?_⟩
  · simp only [doFree, sub32_payload (lay.addr_lt hbm), hprev, hnext, bind_eq_bind,
      bind_some, lay.isFree hpm, lay.isFree hnm, hp, hn, Bool.and_self, if_true,
      lay.realSize hpm, lay.realSize hbm, lay.realSize hnm, setSize_gathered lay hsize, hafter]
    rw [relink] at hremove
    rw [Heap.tail, Heap.freelist, hremove]
    rfl
  · refine perm.trans ?_
    simp only [freeAddrs_append, freeAddrs_cons_of_free hp, freeAddrs_cons_of_used hb,
      freeAddrs_nil, append_assoc, singleton_append]
    exact perm_middle
  · exact lay.left_used hp
  · exact layn.right_used hn
  · rw [usedBlocks_gathered]
    simp [usedBlocks_cons_of_free hp, usedBlocks_cons_of_free hn]
  · simpa using relinked.touches.trans links.touches

/-- Only the previous block is free: it absorbs the freed one. -/
theorem doFree_previous (lay : Layout R h.mem h.vmStart h.kernelHeapTop (l ++ p :: b :: r) fs)
    (hp : p.free = true) (hb : b.free = false) (hr : ∀ x ∈ r.head?, x.free = false) :
    Freed R h (l ++ [p]) r b := by
  have layb : Layout R h.mem h.vmStart h.kernelHeapTop ((l ++ [p]) ++ b :: r) fs := by
    simpa using lay
  have layr : Layout R h.mem h.vmStart h.kernelHeapTop ((l ++ [p, b]) ++ r) fs := by
    simpa using lay
  have hshape : l ++ p :: b :: r = l ++ p :: ([b] ++ r) := rfl
  have hpm : p ∈ l ++ p :: b :: r := by simp
  have hbm : b ∈ l ++ p :: b :: r := by simp
  have relinked := lay.relinked_merge (t := h.mem.load32 (h.vmStart + 4) = b.addr) hshape
    (lay.gathered_lt hshape).1
  have frees := lay.frees_relinked hpm relinked
  have hprev : blockGetPreviousBlock h.mem b.addr h.head = some p.addr := by
    simpa [Heap.head] using layb.previous
  have hnext : blockGetNextBlock h.mem b.addr h.tail = (r.map Block.addr).headD 0 := layb.following
  have hsize : p.size + overhead + b.size = (gathered p [b]).size := by
    simp only [gathered, map_cons, map_nil, sum_cons, sum_nil]
    omega
  refine ⟨_, _, fs, ?_, lay.gather hshape relinked layb.tail_eq_iff LinksOnly.refl
    frees ?_ ?_ hr, ?_, ?_⟩
  · simp only [doFree, sub32_payload (lay.addr_lt hbm), hprev, hnext, bind_eq_bind,
      bind_some, lay.isFree hpm, layr.following_notFree hr, hp, Bool.and_false,
      false_eq_true, if_false, if_true, lay.realSize hpm, lay.realSize hbm,
      setSize_gathered lay hsize, relink]
    rfl
  · refine lay.listed.trans ?_
    simp only [freeAddrs_append, freeAddrs_cons_of_free hp, freeAddrs_cons_of_used hb]
    exact perm_middle
  · exact lay.left_used hp
  · rw [usedBlocks_gathered]
    simp [usedBlocks_cons_of_free hp]
  · simpa using relinked.touches

/-- Only the next block is free: the freed block absorbs it and takes its
place in the free list. -/
theorem doFree_next (lay : Layout R h.mem h.vmStart h.kernelHeapTop (l ++ b :: n :: r) fs)
    (hb : b.free = false) (hn : n.free = true) (hl : ∀ x ∈ l.getLast?, x.free = false) :
    Freed R h l (n :: r) b := by
  have layn : Layout R h.mem h.vmStart h.kernelHeapTop ((l ++ [b]) ++ n :: r) fs := by
    simpa using lay
  have hshape : l ++ b :: n :: r = l ++ b :: ([n] ++ r) := rfl
  have hbm : b ∈ l ++ b :: n :: r := by simp
  have hnm : n ∈ l ++ b :: n :: r := by simp
  have relinked := lay.relinked_merge (t := h.mem.load32 (h.vmStart + 4) = n.addr) hshape
    (lay.gathered_lt hshape).1
  have frees := lay.frees_relinked hbm relinked
  obtain ⟨m', fs', hremove, chain, perm, links⟩ :=
    lay.remove_spec (l := l ++ [b]) (r := r) (by simp) hn frees
  have perm' : fs'.Perm (freeAddrs (l ++ r)) := by
    simpa [freeAddrs_cons_of_used hb] using perm
  obtain ⟨chain', links'⟩ := lay.add_spec hshape chain perm'
  have links₂ := links.trans links'
  have hprev : blockGetPreviousBlock h.mem b.addr h.head =
      some ((l.map Block.addr).getLast?.getD 0) := lay.previous
  have hnext : blockGetNextBlock h.mem b.addr h.tail = n.addr := lay.following
  have hafter : ∀ w, blockGetNextBlock (setSize h.mem b.addr w) n.addr h.tail =
      (r.map Block.addr).headD 0 := fun w => layn.following_setSize (by simp)
  have hsize : b.size + overhead + n.size = (gathered b [n]).size := by
    simp only [gathered, map_cons, map_nil, sum_cons, sum_nil]
    omega
  refine ⟨_, _, b.addr :: fs', ?_, lay.gather hshape relinked layn.tail_eq_iff links₂ chain'
    (perm'.cons _) hl (layn.right_used hn), ?_, relinked.touches.trans links₂.touches⟩
  · simp only [doFree, sub32_payload (lay.addr_lt hbm), hprev, hnext, bind_eq_bind,
      bind_some, lay.isFree hnm, lay.previous_notFree hl, hn, Bool.false_and,
      false_eq_true, if_false, if_true, lay.realSize hbm, lay.realSize hnm,
      setSize_gathered lay hsize, hafter]
    rw [relink] at hremove
    rw [Heap.tail, Heap.freelist, hremove]
    rfl
  · rw [usedBlocks_gathered]
    simp [usedBlocks_cons_of_free hn]

variable (lay : Layout R h.mem h.vmStart h.kernelHeapTop (l ++ b :: r) fs) (hb : b.free = false)
include lay hb

/-- No neighbour is free: the block is marked and listed. -/
theorem doFree_alone (hl : ∀ x ∈ l.getLast?, x.free = false) (hr : ∀ x ∈ r.head?, x.free = false) :
    ∃ m, doFree h b.payload = some { h with mem := m } ∧
      Layout R m h.vmStart h.kernelHeapTop (l ++ gathered b [] :: r) (b.addr :: fs) ∧
      TouchesHeaders (IsHeader h.vmStart (l ++ b :: r)) h.mem m := by
  have layr : Layout R h.mem h.vmStart h.kernelHeapTop ((l ++ [b]) ++ r) fs := by
    simpa using lay
  have hshape : l ++ b :: r = l ++ b :: ([] ++ r) := rfl
  have hbm : b ∈ l ++ b :: r := by simp
  have relinked : Relinked h.vmStart (IsHeader h.vmStart (l ++ b :: r)) b.addr
      (gathered b []).word (next h.mem b.addr) (r = []) h.mem
      (setSize h.mem b.addr (gathered b []).word) :=
    relinked_setSize (fun _ _ => lay.tiled.header_apart) (.inl rfl) (Layout.header hbm)
      (lay.gathered_lt hshape).1 lay.tail_eq_iff.mpr
  have frees := lay.frees_relinked hbm relinked
  have perm : fs.Perm (freeAddrs (l ++ r)) := by
    simpa [freeAddrs_cons_of_used hb] using lay.listed
  obtain ⟨chain, links⟩ := lay.add_spec hshape frees perm
  have hprev : blockGetPreviousBlock h.mem b.addr h.head =
      some ((l.map Block.addr).getLast?.getD 0) := lay.previous
  have hnext : blockGetNextBlock h.mem b.addr h.tail = (r.map Block.addr).headD 0 := lay.following
  have hword : blockSetFree (sizeField h.mem b.addr) true = (gathered b []).word := by
    have hsize : b.word = b.size := by simp [Block.word, hb]
    rw [lay.sized b hbm, hsize, blockSetFree_true (lay.aligned b hbm)]
    rfl
  rw [lay.next_eq] at relinked
  refine ⟨_, ?_, lay.gather hshape relinked Iff.rfl links chain (perm.cons _) hl hr,
    relinked.touches.trans links.touches⟩
  simp only [doFree, sub32_payload (lay.addr_lt hbm), hprev, hnext, bind_eq_bind,
    bind_some, lay.previous_notFree hl, layr.following_notFree hr, Bool.and_self,
    false_eq_true, if_false, hword]
  rfl

theorem doFree_spec : Freed R h l r b := by
  have hright : (∃ n r', r = n :: r' ∧ n.free = true) ∨ ∀ x ∈ r.head?, x.free = false := by
    cases r with
    | nil => exact .inr (by simp)
    | cons n r' =>
      simp
  have hleft : (∃ l' p, l = l' ++ [p] ∧ p.free = true) ∨ ∀ x ∈ l.getLast?, x.free = false := by
    rcases eq_nil_or_concat' l with rfl | ⟨l', p, rfl⟩
    · simp
    simp
  rcases hleft with ⟨l', p, rfl, hp⟩ | hl
  · rw [append_assoc] at lay
    rcases hright with ⟨n, r', rfl, hn⟩ | hr
    · exact doFree_both lay hp hb hn
    · exact doFree_previous lay hp hb hr
  · rcases hright with ⟨n, r', rfl, hn⟩ | hr
    · exact doFree_next lay hb hn hl
    · obtain ⟨m, run, layout, touches⟩ := doFree_alone lay hb hl hr
      exact ⟨m, _, _, run, layout, usedBlocks_gathered, touches⟩

end Hos.Kheap
