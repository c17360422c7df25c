import Hos.Memory.Kheap.Reuse

/-!
# Extending the heap, and `__do_malloc` as a whole

When no free block fits, `__do_brk` maps fresh pages above the heap top and the
new block becomes the last one. Mapping a page may clear it, but every such
page lies above the old top, so the blocks below keep their bytes.
-/

namespace Hos.Kheap

open List Nat Prod Option
open Option (bind_eq_bind bind_some isSome_iff_exists)

open Bytes

section

variable {σ : Type} {P : PageProvider σ} {h h' : Heap} {env env' : σ}

/-- The provider never runs out of physical memory. -/
def PageProvider.Total (P : PageProvider σ) : Prop :=
  ∀ env virtAddr flags, (P.createPage env virtAddr flags).isSome

theorem pageAlignUp_eq {a : Nat} : pageAlignUp a = u32 (a + 4095) / 4096 * 4096 := by
  have hmask := and_highMask (k := 12) (u32_lt (a + 4095)) (by decide)
  assumption

theorem vmmCreatePage_frame {a : Nat} (halign : a % 4096 = 0) (hlt : a < 2 ^ 32)
    (run : vmmCreatePage P h env a = some (h', env')) :
    ∃ m, h' = { h with mem := m } ∧ ∀ x, x < a ∨ a + 4096 ≤ x → m x = h.mem x := by
  have hpage : a &&& 0xFFFFF000 = a := by
    have hmask := and_highMask (k := 12) hlt (by decide)
    simp only [Nat.reducePow, Nat.reduceSub] at hmask
    omega
  cases hcreate : P.createPage env a h.vmFlags with
  | none => simp [vmmCreatePage, hcreate] at run
  | some created =>
    obtain ⟨fresh, env₁⟩ := created
    simp only [vmmCreatePage, hcreate, hpage, bind_eq_bind, bind_some, some.injEq, mk.injEq]
      at run
    refine ⟨_, run.1.symm, ?_⟩
    intro x hx
    cases fresh with
    | false => rfl
    | true => exact fill_of_notMem hx

theorem createPages_frame {a n : Nat} (halign : a % 4096 = 0) (hroom : a + n * 4096 ≤ 2 ^ 32)
    (run : createPages P h env a n = some (h', env')) :
    ∃ m, h' = { h with mem := m } ∧ ∀ x, x < a ∨ a + n * 4096 ≤ x → m x = h.mem x := by
  induction n generalizing h env a with
  | zero =>
    simp only [createPages, some.injEq, mk.injEq] at run
    exact ⟨h.mem, run.1.symm, fun _ _ => rfl⟩
  | succ n ih =>
    cases hpage : vmmCreatePage P h env a with
    | none => simp [createPages, hpage] at run
    | some s =>
      obtain ⟨h₁, env₁⟩ := s
      simp only [createPages, hpage, bind_eq_bind, bind_some] at run
      obtain ⟨m₁, rfl, hframe₁⟩ := vmmCreatePage_frame halign (by omega) hpage
      -- After the last page of the address space the cursor wraps to zero.
      have hstep : u32 (a + pageSize) = a + 4096 ∨ u32 (a + pageSize) = 0 ∧ n = 0 := by
        simp only [u32, pageSize]
        omega
      obtain ⟨m, rfl, hframe⟩ := ih (a := u32 (a + pageSize)) (by omega) (by omega) run
      refine ⟨m, rfl, ?_⟩
      intro x hx
      exact (hframe x (by omega)).trans (hframe₁ x (by omega))

theorem createPages_isSome (total : P.Total) (h : Heap) (env : σ) (a n : Nat) :
    (createPages P h env a n).isSome := by
  induction n generalizing h env a with
  | zero => rfl
  | succ n ih =>
    obtain ⟨created, hcreate⟩ := isSome_iff_exists.mp (total env a h.vmFlags)
    simp only [createPages, vmmCreatePage, hcreate, bind_eq_bind, bind_some]
    exact ih _ _ _

/-- The end of the page that holds the last byte below `a`. -/
def pageCeil (a : Nat) : Nat := (a + 4095) / 4096 * 4096

theorem le_pageCeil (a : Nat) : a ≤ pageCeil a := by
  simp only [pageCeil]
  omega

theorem pageCeil_mono {a b : Nat} (h : a ≤ b) : pageCeil a ≤ pageCeil b := by
  simp only [pageCeil]
  omega

/-- The pages mapped by `__do_brk` stay inside the address space and between the old top
and the page end of the new one. -/
theorem brk_pages (top size : Nat) (hfit : top + size < 2 ^ 32) :
    pageAlignUp top % 4096 = 0 ∧
      pageAlignUp top + (pageAlignUp (top + size) - pageAlignUp top) / 4096 * 4096 ≤ 2 ^ 32 ∧
      ((pageAlignUp (top + size) - pageAlignUp top) / 4096 = 0 ∨ top ≤ pageAlignUp top ∧
        pageAlignUp top + (pageAlignUp (top + size) - pageAlignUp top) / 4096 * 4096 ≤
          pageCeil (top + size)) := by
  simp only [pageAlignUp_eq, u32, pageCeil]
  omega

theorem doBrk_frame {ret size : Nat} (hpos : 0 < size) (hsmall : size < 2 ^ 31)
    (hfit : h.kernelHeapTop + size ≤ h.vmEnd) (hend : h.vmEnd < 2 ^ 32)
    (run : doBrk P h env (i32 size) = some (ret, h', env')) :
    ret = h.kernelHeapTop ∧ ∃ m, h' = { h with mem := m, kernelHeapTop := h.kernelHeapTop + size } ∧
      ∀ x, x < h.kernelHeapTop ∨ pageCeil (h.kernelHeapTop + size) ≤ x → m x = h.mem x := by
  have hboundary : u32 (h.kernelHeapTop + size) = h.kernelHeapTop + size := u32_of_lt (by omega)
  have hinc : (0 : Int) < size := by omega
  obtain ⟨halign, hroom, habove⟩ := brk_pages h.kernelHeapTop size (by omega)
  simp only [doBrk, i32_of_lt hsmall, hinc, if_true, Int.toNat_natCast, hboundary, hfit] at run
  cases hpages : createPages P h env (pageAlignUp h.kernelHeapTop)
      ((pageAlignUp (h.kernelHeapTop + size) - pageAlignUp h.kernelHeapTop) / pageSize) with
  | none => simp [hpages] at run
  | some s =>
    obtain ⟨h₁, env₁⟩ := s
    simp only [hpages, bind_eq_bind, bind_some, Option.pure_def, Option.some.injEq, mk.injEq] at run
    obtain ⟨rfl, rfl, rfl⟩ := run
    obtain ⟨m, rfl, hframe⟩ := createPages_frame halign hroom hpages
    refine ⟨rfl, m, rfl, ?_⟩
    intro x hx
    refine hframe x ?_
    omega

theorem doBrk_isSome (total : P.Total) (h : Heap) (env : σ) (increment : Int) :
    (doBrk P h env increment).isSome := by
  simp only [doBrk]
  split
  · split
    · obtain ⟨s, hpages⟩ := isSome_iff_exists.mp
        (createPages_isSome total h env (pageAlignUp h.kernelHeapTop)
          ((pageAlignUp (u32 (h.kernelHeapTop + increment.toNat)) - pageAlignUp h.kernelHeapTop) /
            pageSize))
      simp [hpages]
    · rfl
  · rfl

end

section

variable {R : Nat → Nat → Prop} [Spacing R] {m m₀ : Bytes} {vs top n : Nat} {bs : List Block}
  {fs : List Nat}

/-- The head word, or the last block, points to the new block `a`. -/
def linkLast (m : Bytes) (vs headBlock tailBlock a : Nat) : Bytes :=
  if headBlock = 0 then m.store32 vs a else setNext m tailBlock a

/-- The links of the block at `u` are cleared. -/
def clearLinks (m : Bytes) (u : Nat) : Bytes := setNextfree (setNext m u 0) u 0

/-- The writes that make the block at `a` the last one. -/
def publishBlock (m : Bytes) (vs headBlock tailBlock a w : Nat) : Bytes :=
  setSize ((linkLast m vs headBlock tailBlock a).store32 (vs + 4) a) a w

theorem clearLinks_of_notMem {u x : Nat} (h : x < u ∨ u + overhead ≤ x) :
    clearLinks m u x = m x := by
  simp only [overhead] at h
  exact (store32_of_notMem (by omega)).trans (store32_of_notMem (by omega))

theorem next_clearLinks {u : Nat} : next (clearLinks m u) u = 0 := by
  rw [clearLinks, next_setNextfree (.inl rfl), next_setNext_self, zero_mod]

/-- Links below `u` and those of `u` are written in either order. -/
theorem clearLinks_linkLast {headBlock tailBlock a u : Nat} (hvs : vs ≤ u)
    (htail : headBlock ≠ 0 → tailBlock + overhead ≤ u) :
    clearLinks (linkLast m vs headBlock tailBlock a) u = linkLast
      (clearLinks m u) vs headBlock tailBlock a := by
  unfold linkLast clearLinks setNextfree setNext
  split
  · rw [store32_comm (a := vs) (b := u + 8) (by omega),
      store32_comm (a := vs) (b := u + 4) (by omega)]
  · rename_i hhead
    have hlow := htail hhead
    simp only [overhead] at hlow
    rw [store32_comm (a := tailBlock + 8) (b := u + 8) (by omega),
      store32_comm (a := tailBlock + 8) (b := u + 4) (by omega)]

/-- Publishing a block: only the link to it, its size and the tail word are written. -/
structure Appended (vs link ret w : Nat) (S : Nat → Prop) (m m' : Bytes) : Prop where
  link_eq : m'.load32 link = ret
  size_self : sizeField m' ret = w
  next_self : next m' ret = next m ret
  tail : m'.load32 (vs + 4) = ret
  size : ∀ v, S v → v ≠ ret → v ≠ link → sizeField m' v = sizeField m v
  next : ∀ v, S v → v ≠ ret → v + 8 ≠ link → next m' v = next m v
  nextfree : ∀ v, S v → v ≠ ret → v ≠ vs → nextfree m' v = nextfree m v
  touches : TouchesHeaders S m m'

/-- Writing the tail word and the size leaves the other headers alone. -/
theorem appended_header {S : Nat → Prop} {ret w : Nat}
    (apart : ∀ u v, S u → S v → Apart u v) (start : S vs) (hret : S ret)
    (hlt : ret < 2 ^ 32) (hw : w < 2 ^ 32) {m' : Bytes}
    (hm : m' = setSize (m.store32 (vs + 4) ret) ret w) :
    (∀ v, S v → v ≠ ret → sizeField m' v = sizeField m v) ∧ (∀ v, S v → next m' v = next m v) ∧
      (∀ v, S v → v ≠ vs → nextfree m' v = nextfree m v) ∧
      (sizeField m' ret = w ∧ m'.load32 (vs + 4) = ret) ∧ TouchesHeaders S m m' := by
  have hform : m' = setSize (setNextfree m vs ret) ret w := hm
  subst hform
  refine ⟨fun v hv hvr => ?_, fun v hv => ?_, fun v hv hvs => ?_, ⟨?_, ?_⟩, ?_⟩
  · rw [sizeField_setSize (apart ret v hret hv) hvr, sizeField_setNextfree (apart vs v start hv)]
  · rw [next_setSize (apart ret v hret hv), next_setNextfree (apart vs v start hv)]
  · rw [nextfree_setSize (apart ret v hret hv), nextfree_setNextfree (apart vs v start hv) hvs]
  · rw [sizeField_setSize_self, mod_eq_of_lt hw]
  · change nextfree (setSize _ ret w) vs = ret
    rw [nextfree_setSize (apart ret vs hret start), nextfree_setNextfree_self, mod_eq_of_lt hlt]
  · exact (TouchesHeaders.setNextfree start).trans (TouchesHeaders.setSize hret)

theorem publishBlock_spec {S : Nat → Prop} {headBlock tailBlock link ret w : Nat}
    (apart : ∀ u v, S u → S v → Apart u v) (start : S vs) (hret : S ret) (hne : ret ≠ vs)
    (hlt : ret < 2 ^ 32) (hw : w < 2 ^ 32) (hlink : headBlock = 0 ∧ link = vs ∨
      headBlock ≠ 0 ∧ S tailBlock ∧ tailBlock ≠ ret ∧ link = tailBlock + 8) :
    Appended vs link ret w S m (publishBlock m vs headBlock tailBlock ret w) := by
  rcases hlink with ⟨hhead, rfl⟩ | ⟨hhead, htail, htr, rfl⟩
  · -- The first block: the head word points to it.
    obtain ⟨hkeep, hnext, hfree, ⟨hsize, htail⟩, htouch⟩ := appended_header
      (m := setSize m link ret) apart start hret hlt hw rfl
    simp only [publishBlock, linkLast, hhead, if_true]
    refine ⟨?_, hsize, ?_, htail, ?_, ?_, ?_, (TouchesHeaders.setSize start).trans htouch⟩
    · refine (hkeep link start hne.symm).trans ?_
      rw [sizeField_setSize_self, mod_eq_of_lt hlt]
    · exact (hnext ret hret).trans (next_setSize (apart link ret start hret))
    · intro v hv hvr hvl
      exact (hkeep v hv hvr).trans (sizeField_setSize (apart link v start hv) hvl)
    · intro v hv hvr _
      exact (hnext v hv).trans (next_setSize (apart link v start hv))
    · intro v hv hvr hvs
      exact (hfree v hv hvs).trans (nextfree_setSize (apart link v start hv))
  · -- Otherwise the old tail does.
    obtain ⟨hkeep, hnext, hfree, ⟨hsize, htail'⟩, htouch⟩ := appended_header
      (m := setNext m tailBlock ret) apart start hret hlt hw rfl
    simp only [publishBlock, linkLast, hhead, if_false]
    refine ⟨?_, hsize, ?_, htail', ?_, ?_, ?_, (TouchesHeaders.setNext htail).trans htouch⟩
    · refine (hnext tailBlock htail).trans ?_
      rw [next_setNext_self, mod_eq_of_lt hlt]
    · exact (hnext ret hret).trans (next_setNext (apart tailBlock ret htail hret) htr.symm)
    · intro v hv hvr _
      exact (hkeep v hv hvr).trans (sizeField_setNext (apart tailBlock v htail hv))
    · intro v hv hvr hvl
      exact (hnext v hv).trans (next_setNext (apart tailBlock v htail hv) (by omega))
    · intro v hv hvr hvs
      exact (hfree v hv hvs).trans (nextfree_setNext (apart tailBlock v htail hv))

namespace Layout

variable (h : Layout R m vs top bs fs)
include h

theorem congr (agree : ∀ u, IsHeader vs bs u → ∀ x, u ≤ x → x < u + overhead → m₀ x = m x) :
    Layout R m₀ vs top bs fs := by
  have word : ∀ u, IsHeader vs bs u → ∀ k, k + 4 ≤ overhead →
      m₀.load32 (u + k) = m.load32 (u + k) := by
    intro u hu k hk
    exact load32_congr fun x _ _ => agree u hu x (by omega) (by omega)
  have start : IsHeader vs bs vs := .inl rfl
  refine ⟨h.start_pos, h.top_lt, h.tiled, ?_, h.aligned, ?_, ?_, ?_, h.listed, h.coalesced⟩
  · intro b hb
    exact (word b.addr (header hb) 0 (by decide)).trans (h.sized b hb)
  · refine h.blocks.congr (word vs start 0 (by decide)) ?_
    intro a ha
    obtain ⟨b, hb, rfl⟩ := mem_map.mp ha
    exact word b.addr (header hb) 8 (by decide)
  · exact (word vs start 4 (by decide)).trans h.tail
  · refine h.frees.congr (word vs start 8 (by decide)) ?_
    intro a ha
    exact word a (h.frees_header a ha).1 4 (by decide)

/-- The word that has to point to a new block is the head word of an empty
heap, and the successor field of the tail otherwise. -/
theorem link_cases :
    m.load32 vs = 0 ∧ linkAddr 8 vs (bs.map Block.addr) = vs ∨
      m.load32 vs ≠ 0 ∧ ∃ z ∈ bs, m.load32 (vs + 4) = z.addr ∧
        linkAddr 8 vs (bs.map Block.addr) = z.addr + 8 := by
  have hblocks := h.blocks
  have htail := h.tail
  rcases eq_nil_or_concat' bs with rfl | ⟨bs₀, z, rfl⟩
  · exact .inl ⟨hblocks, rfl⟩
  · refine .inr ⟨?_, z, by simp, by simpa using htail, by simp⟩
    rw [hblocks.head]
    cases bs₀ with
    | nil => exact h.addr_ne_zero (by simp)
    | cons b bs₀ => exact h.addr_ne_zero (b := b) (by simp)

/-- A new last block, at the old top or at a distance that `R` admits. -/
theorem append {m' : Bytes} {c : Block} {link a : Nat} (hgap : R top a) (hc : c = ⟨a, n, false⟩)
    (hn : n % 4 = 0) (hlt : a + overhead + n < 2 ^ 32)
    (hlink : link = linkAddr 8 vs (bs.map Block.addr)) (hnext : next m a = 0)
    (appended : Appended vs link a n (IsHeader vs (bs ++ [c])) m m') :
    Layout R m' vs (a + overhead + n) (bs ++ [c]) fs := by
  have hle := Spacing.le hgap
  have hcaddr : c.addr = a := by rw [hc]
  have hcsize : c.size = n := by rw [hc]
  have hcused : c.free = false := by rw [hc]
  have hcword : c.word = n := by simp [hc, Block.word]
  have header : ∀ b ∈ bs, IsHeader vs (bs ++ [c]) b.addr := fun b hb => Layout.header (by simp [hb])
  have below : ∀ b ∈ bs, b.addr ≠ a := by
    intro b hb
    have hbound := (h.addr_bounds hb).2
    simp only [overhead] at hbound
    omega
  have hvs : vs ≠ a := by
    have hstart := h.tiled.le
    simp only [overhead] at hstart
    omega
  have hlow : link = vs ∨ ∃ y ∈ bs, link = y.addr + 8 := by
    rw [hlink]
    rcases h.link_cases with ⟨-, hvs⟩ | ⟨-, z, hz, -, hlast⟩
    · exact .inl hvs
    · exact .inr ⟨z, hz, hlast⟩
  have link_size : ∀ b ∈ bs, b.addr ≠ link := by
    intro b hb
    rcases hlow with rfl | ⟨y, hy, rfl⟩
    · exact h.addr_ne_start hb
    · have hapart := h.tiled.apart hb hy
      simp only [Apart, overhead] at hapart
      omega
  have link_start : vs + 8 ≠ link := by
    rcases hlow with rfl | ⟨y, hy, rfl⟩
    · omega
    · have hne := h.addr_ne_start hy
      omega
  refine ⟨h.start_pos, hlt, ?_, ?_, ?_, ?_, ?_, ?_, ?_, ?_⟩
  · exact Tiled.append_iff.mpr ⟨top, h.tiled, hcaddr ▸ hgap,
      by rw [Tiled, Block.stop, hcaddr, hcsize]; exact Spacing.refl _⟩
  · intro b hb
    rcases mem_append.mp hb with hb | hb
    · exact (appended.size _ (header b hb) (below b hb) (link_size b hb)).trans (h.sized b hb)
    · obtain rfl := mem_singleton.mp hb
      rw [hcaddr, hcword]
      exact appended.size_self
  · intro b hb
    rcases mem_append.mp hb with hb | hb
    · exact h.aligned b hb
    · rwa [mem_singleton.mp hb, hcsize]
  · rw [map_append, map_singleton, hcaddr, Chain.concat_iff]
    refine ⟨?_, appended.next_self.trans hnext⟩
    have hlinked := appended.link_eq
    rcases eq_nil_or_concat' bs with rfl | ⟨bs₀, z, rfl⟩
    · rwa [hlink] at hlinked
    · have hblocks := h.blocks
      rw [hlink, map_append, map_singleton, linkAddr_concat] at hlinked
      rw [map_append, map_singleton, Chain.concat_iff] at hblocks ⊢
      refine ⟨hblocks.1.congr ?_ ?_, hlinked⟩
      · refine appended.size vs (.inl rfl) hvs ?_
        simp only [hlink, map_append, map_singleton, linkAddr_concat]
        have hz := (h.addr_bounds (b := z) (by simp)).1
        omega
      · intro a ha
        obtain ⟨b, hb, rfl⟩ := mem_map.mp ha
        refine appended.next _ (header b (by simp [hb])) (below b (by simp [hb])) ?_
        have hlast : bs₀ ++ [z] = bs₀ ++ z :: ([] ++ []) := rfl
        have hne := (h.others (c := b) hlast (by simp [hb])).2
        simp only [hlink, map_append, map_singleton, linkAddr_concat]
        omega
  · simpa [hcaddr] using appended.tail
  · refine h.frees.congr (appended.next vs (.inl rfl) hvs link_start) ?_
    intro a ha
    obtain ⟨b, hb, rfl, -⟩ := h.free_isBlock ha
    exact appended.nextfree _ (header b hb) (below b hb) (h.addr_ne_start hb)
  · simpa [freeAddrs_cons_of_used hcused] using h.listed
  · exact coalesced_used hcused h.coalesced List.IsChain.nil

/-- The writes of the source publish a block, with the head and tail words as
they were before the pages were mapped. -/
theorem publishBlock_appended {c : Block} {a : Nat} (hgap : R top a) (hc : c = ⟨a, n, false⟩)
    (hlt : a + overhead + n < 2 ^ 32) :
    Appended vs (linkAddr 8 vs (bs.map Block.addr)) a n (IsHeader vs (bs ++ [c])) m₀
      (publishBlock m₀ vs (m.load32 vs) (m.load32 (vs + 4)) a n) := by
  have hle := Spacing.le hgap
  have tiled : Tiled R (vs + overhead) (bs ++ [c]) (a + overhead + n) := by
    refine Tiled.append_iff.mpr ⟨top, h.tiled, ?_⟩
    rw [hc]
    exact ⟨hgap, Spacing.refl _⟩
  have hret : IsHeader vs (bs ++ [c]) a := .inr ⟨c, by simp, by rw [hc]⟩
  have hne : a ≠ vs := by
    have hstart := h.tiled.le
    simp only [overhead] at hstart
    omega
  refine publishBlock_spec (fun _ _ => tiled.header_apart) (.inl rfl) hret hne (by omega)
    (by omega) ?_
  rcases h.link_cases with hempty | ⟨hhead, z, hz, htail, hlast⟩
  · exact .inl hempty
  · rw [htail]
    have hbound := (h.addr_bounds hz).2
    refine .inr ⟨hhead, Layout.header (by simp [hz]), ?_, hlast⟩
    simp only [overhead] at hbound
    omega

/-- The block that the tail word names ends below the top. -/
theorem tail_le (hhead : m.load32 vs ≠ 0) : m.load32 (vs + 4) + overhead ≤ top := by
  rcases h.link_cases with hempty | ⟨-, z, hz, htail, -⟩
  · omega
  · rw [htail]
    exact Nat.le_trans (Nat.le_add_right _ _) (h.addr_bounds hz).2

/-- A block published above the old top, after the links at the old top were cleared. -/
theorem published {a : Nat} (hgap : R top a) (hn : n % 4 = 0) (hlt : a + overhead + n < 2 ^ 32)
    (agree : ∀ x < top, m₀ x = m x) (hnext : next (clearLinks m₀ top) a = 0) :
    Layout R (publishBlock (clearLinks m₀ top) vs (m.load32 vs) (m.load32 (vs + 4)) a n) vs
      (a + overhead + n) (bs ++ [⟨a, n, false⟩]) fs := by
  have lay₀ : Layout R (clearLinks m₀ top) vs top bs fs := by
    refine h.congr fun u hu x _ hx => ?_
    have hbelow := Nat.lt_of_lt_of_le hx (h.header_le hu)
    exact (clearLinks_of_notMem (.inl hbelow)).trans (agree x hbelow)
  exact lay₀.append hgap rfl hn hlt rfl hnext (h.publishBlock_appended hgap rfl hlt)

/-- Publishing a block changes no payload and nothing outside the heap. -/
theorem published_frame {a x : Nat} (hgap : R top a) (hlt : a + overhead + n < 2 ^ 32)
    (hx : (∃ b ∈ bs, b.payload ≤ x ∧ x < b.stop) ∨ x < vs ∨ a + overhead + n ≤ x) :
    publishBlock (clearLinks m₀ top) vs (m.load32 vs) (m.load32 (vs + 4)) a n x = m₀ x := by
  have hle := Spacing.le hgap
  have hstart := h.tiled.le
  have tiled : Tiled R (vs + overhead) (bs ++ [⟨a, n, false⟩]) (a + overhead + n) :=
    Tiled.append_iff.mpr ⟨top, h.tiled, hgap, Spacing.refl _⟩
  have touches : TouchesHeaders _ (clearLinks m₀ top) _ :=
    (h.publishBlock_appended hgap rfl hlt).touches
  have hout : x < top ∨ top + overhead ≤ x := by
    rcases hx with ⟨b, hb, -, hxb⟩ | hx
    · exact .inl (Nat.lt_of_lt_of_le hxb (h.addr_bounds hb).2)
    · omega
  refine (touches x ?_).trans (clearLinks_of_notMem hout)
  rcases hx with ⟨b, hb, hbx, hxb⟩ | hx
  · exact tiled.payload_outside (mem_append_left _ hb) hbx hxb
  · rintro u (rfl | ⟨b, hb, rfl⟩)
    · omega
    · have hbounds := tiled.bounds hb
      simp only [Block.stop] at hbounds
      omega

end Layout

variable {σ : Type} {P : PageProvider σ} {h h' : Heap} {env env' : σ} {ptr : Nat}

variable (lay : Layout R h.mem h.vmStart h.kernelHeapTop bs fs) (hn : n % 16 = 0)
  (hsmall : n + overhead < 2 ^ 31) (hend : h.vmEnd < 2 ^ 32)
  (hfit : h.kernelHeapTop + (n + overhead) ≤ h.vmEnd)
include lay hn hsmall hend hfit

theorem extendHeap_eq {ret : Nat} (run : ksbrk P h env (i32 (n + overhead)) =
    some (ret, h', env')) :
    extendHeap P h env (n + overhead) = some (h.kernelHeapTop + overhead, { h' with
        mem := publishBlock (clearLinks h'.mem h.kernelHeapTop) h.vmStart (h.mem.load32 h.vmStart)
          (h.mem.load32 (h.vmStart + 4)) h.kernelHeapTop n }, env') := by
  obtain ⟨rfl, m, rfl, -⟩ := doBrk_frame (by simp [overhead]) hsmall hfit hend run
  have hreal : sub32 (n + overhead) overhead = n := by
    rw [sub32_of_le (by omega) (by omega)]
    omega
  have hptr : u32 (h.kernelHeapTop + overhead) = h.kernelHeapTop + overhead := u32_of_lt (by omega)
  have hstart := lay.tiled.le
  simp only [extendHeap, run, bind_eq_bind, bind_some, Option.pure_def, hreal, hptr,
    setSize_markUsed (show n % 4 = 0 by omega) (show n < 2 ^ 32 by omega)]
  rw [publishBlock, ← clearLinks_linkLast (by omega) lay.tail_le]
  rfl

theorem extendHeap_spec (run : extendHeap P h env (n + overhead) = some (ptr, h', env')) :
    Allocated R h h' bs ptr n (bs ++ [⟨h.kernelHeapTop, n, false⟩]) fs ⟨h.kernelHeapTop, n, false⟩ ∧
      (∀ x, x < h.vmStart ∨ pageCeil h.vmEnd ≤ x → h'.mem x = h.mem x) ∧ ∃ m,
        h' = { h with mem := m, kernelHeapTop := h.kernelHeapTop + (n + overhead) } := by
  cases hbrk : ksbrk P h env (i32 (n + overhead)) with
  | none => simp [extendHeap, hbrk] at run
  | some s =>
    obtain ⟨ret, h₁, env₁⟩ := s
    have hextend := extendHeap_eq lay hn hsmall hend hfit hbrk
    obtain ⟨rfl, m₀, rfl, agree⟩ := doBrk_frame (by simp [overhead]) hsmall hfit hend hbrk
    have hstart := lay.tiled.le
    have hlt : h.kernelHeapTop + overhead + n < 2 ^ 32 := by omega
    simp only [hextend, some.injEq, mk.injEq] at run
    obtain ⟨rfl, rfl, rfl⟩ := run
    have layout := lay.published (Spacing.refl _) (by omega) hlt (fun x hx => agree x (.inl hx))
      next_clearLinks
    refine ⟨⟨?_, ?_, rfl, Nat.le_refl n, ?_⟩, ?_, _, rfl⟩
    · have htop : h.kernelHeapTop + (n + overhead) = h.kernelHeapTop + overhead + n := by omega
      rw [htop]
      exact layout
    · rw [usedBlocks_append, usedBlocks_cons_of_used rfl]
      exact perm_append_singleton _ _
    · intro b hb x hlow hhigh
      have hmem := (mem_filter.mp hb).1
      have hbound := (lay.addr_bounds hmem).2
      refine (lay.published_frame (Spacing.refl _) hlt (.inl ⟨b, hmem, hlow, hhigh⟩)).trans
        (agree x ?_)
      simp only [Block.stop] at hhigh
      omega
    · intro x hx
      have hceil := pageCeil_mono hfit
      have hpage := le_pageCeil h.vmEnd
      exact (lay.published_frame (Spacing.refl _) hlt (by omega)).trans (agree x (by omega))

end

variable {R : Nat → Nat → Prop} [Spacing R] {σ : Type} {P : PageProvider σ} {h h' : Heap}
    {env env' : σ} {bs : List Block} {fs : List Nat} {size ptr : Nat}

/-- If the request has to extend the heap, the extension ends below the end of
the region, counted without wrap-around. -/
def Heap.Fits (h : Heap) (size : Nat) : Prop :=
  blockFindBestFitting h.mem (ceil16 size) h.freelist = some 0 →
    h.kernelHeapTop + (ceil16 size + overhead) ≤ h.vmEnd

variable (lay : Layout R h.mem h.vmStart h.kernelHeapTop bs fs)
include lay

/-- A request either finds no fitting block or is served from a free one. -/
theorem findBestFitting_cases (n : Nat) :
    blockFindBestFitting h.mem n h.freelist = some 0 ∨
      ∃ l b r, bs = l ++ b :: r ∧ blockIsFit h.mem b.addr n = true ∧ b.addr ≠ 0 ∧
        blockFindBestFitting h.mem n h.freelist = some b.addr := by
  obtain ⟨best, run, ⟨rfl, -⟩ | ⟨hmem, hfit, -⟩⟩ :=
    blockFindBestFitting_spec n lay.frees fun a ha => lay.free_ne_zero ha
  · exact .inl run
  · obtain ⟨b, hb, rfl, -⟩ := lay.free_isBlock hmem
    obtain ⟨l, r, hbs⟩ := append_of_mem hb
    exact .inr ⟨l, b, r, hbs, hfit, lay.addr_ne_zero hb, run⟩

/-- A successful request hands out one more block of at least the rounded size. -/
theorem doMalloc_spec (hend : h.vmEnd < 2 ^ 32) (hregion : h.vmEnd < h.vmStart + 2 ^ 31)
    (htop : h.kernelHeapTop ≤ h.vmEnd) (hsize : size ≠ 0) (fits : h.Fits size)
    (run : doMalloc P h env size = some (ptr, h', env')) :
    ∃ bs' fs' c, Allocated R h h' bs ptr (ceil16 size) bs' fs' c ∧
      ∃ m top, h' = { h with mem := m, kernelHeapTop := top } ∧ top ≤ h.vmEnd := by
  have hblock : u32 (ceil16 size + overhead) = ceil16 size + overhead := u32_of_lt ceil16_add_lt
  have hmod : ceil16 size % 16 = 0 := ceil16_mod
  rcases findBestFitting_cases lay (ceil16 size) with hnone | ⟨l, b, r, rfl, hfit, hb, hbest⟩
  · have hroom := fits hnone
    have hlow := lay.tiled.le
    simp only [doMalloc, hsize, if_false, hblock, hnone, bind_eq_bind, bind_some,
      ne_eq, not_true_eq_false] at run
    obtain ⟨allocated, -, m, rfl⟩ :=
      extendHeap_spec lay hmod (by simp only [overhead] at hlow hroom ⊢; omega) hend hroom run
    exact ⟨_, fs, _, allocated, m, _, rfl, hroom⟩
  · obtain ⟨m, bs', fs', c, htake, allocated⟩ := takeBestFitting_spec lay hmod hfit
    have hptr : u32 (b.addr + overhead) = b.addr + overhead := by
      have hlt := lay.addr_lt (b := b) (by simp)
      exact u32_of_lt (by omega)
    simp only [doMalloc, hsize, if_false, hblock, hbest, bind_eq_bind, bind_some,
      ne_eq, hb, not_false_eq_true, if_true, htake, hptr, Option.pure_def, Option.some.injEq,
      mk.injEq] at run
    obtain ⟨rfl, rfl, rfl⟩ := run
    exact ⟨bs', fs', c, allocated, m, _, rfl, htop⟩

/-- With enough physical memory every request returns. -/
theorem doMalloc_isSome (total : P.Total) (env : σ) (size : Nat) :
    (doMalloc P h env size).isSome := by
  have hblock : u32 (ceil16 size + overhead) = ceil16 size + overhead := u32_of_lt ceil16_add_lt
  by_cases hsize : size = 0
  · simp [doMalloc, hsize]
  · rcases findBestFitting_cases lay (ceil16 size) with hnone | ⟨l, b, r, rfl, hfit, hb, hbest⟩
    · obtain ⟨s, hbrk⟩ := isSome_iff_exists.mp
        (doBrk_isSome total h env (i32 (ceil16 size + overhead)))
      simp [doMalloc, hsize, hnone, hblock, extendHeap, ksbrk, hbrk]
    · obtain ⟨m, bs', fs', c, htake, -⟩ := takeBestFitting_spec lay ceil16_mod hfit
      simp [doMalloc, hsize, hbest, hblock, hb, htake]

end Hos.Kheap
