import Mathlib.Data.Set.Function
import Hos.Lib.Word

/-!
# Byte-addressed stores

A store gives a byte to every natural address. Kernel memory, a block device,
a cache buffer and the raw image of a C structure are all such stores; the
little-endian accessors below are the reads and writes of their `uint16_t` and
`uint32_t` fields. Every write comes with the interval it is confined to, so
frame properties are statements about bytes and not about whole words.
-/

namespace Hos

abbrev Byte := BitVec 8

/-- A total byte store. Clients bound the addresses they use. -/
abbrev Bytes := Nat → Byte

namespace Bytes

/-- Read a little-endian `uint16_t`. -/
def load16 (m : Bytes) (a : Nat) : Nat := (m a).toNat + 2 ^ 8 * (m (a + 1)).toNat

/-- Read a little-endian `uint32_t`. -/
def load32 (m : Bytes) (a : Nat) : Nat :=
  (m a).toNat + 2 ^ 8 * (m (a + 1)).toNat + 2 ^ 16 * (m (a + 2)).toNat +
    2 ^ 24 * (m (a + 3)).toNat

/-- Write the low 16 bits of `v`. -/
def store16 (m : Bytes) (a v : Nat) : Bytes := fun x =>
  if x = a then BitVec.ofNat 8 v
  else if x = a + 1 then BitVec.ofNat 8 (v / 2 ^ 8)
  else m x

/-- Write the low 32 bits of `v`. -/
def store32 (m : Bytes) (a v : Nat) : Bytes := fun x =>
  if x = a then BitVec.ofNat 8 v
  else if x = a + 1 then BitVec.ofNat 8 (v / 2 ^ 8)
  else if x = a + 2 then BitVec.ofNat 8 (v / 2 ^ 16)
  else if x = a + 3 then BitVec.ofNat 8 (v / 2 ^ 24)
  else m x

/-- `memset` of `n` bytes at `a`. -/
def fill (m : Bytes) (a n : Nat) (b : Byte) : Bytes := fun x =>
  if a ≤ x ∧ x < a + n then b else m x

/-- `memcpy` of `n` bytes of `src` at `s` to `a`. -/
def blit (m : Bytes) (a : Nat) (src : Bytes) (s n : Nat) : Bytes := fun x =>
  if a ≤ x ∧ x < a + n then src (s + (x - a)) else m x

section

variable {m m' : Bytes} {a b v : Nat}

theorem load16_lt : load16 m a < 2 ^ 16 := by
  unfold load16
  omega

theorem load32_lt : load32 m a < 2 ^ 32 := by
  unfold load32
  omega

/-- Stores that agree on the four bytes of a word load the same value. -/
theorem load32_congr (h : ∀ x, a ≤ x → x < a + 4 → m' x = m x) : load32 m' a = load32 m a := by
  unfold load32
  rw [h a, h (a + 1), h (a + 2), h (a + 3)] <;> omega

/-- The same for a copy of the word at another address. -/
theorem load32_copy (h : ∀ x < 4, m' (b + x) = m (a + x)) : load32 m' b = load32 m a := by
  have h0 := h 0 (by decide)
  rw [Nat.add_zero, Nat.add_zero] at h0
  rw [load32, h0, h 1 (by decide), h 2 (by decide), h 3 (by decide), load32]

theorem load16_congr (h : ∀ x, a ≤ x → x < a + 2 → m' x = m x) : load16 m' a = load16 m a := by
  unfold load16
  rw [h a, h (a + 1)] <;> omega

theorem store32_of_notMem {x : Nat} (h : x < a ∨ a + 4 ≤ x) : store32 m a v x = m x := by
  unfold store32
  rw [if_neg, if_neg, if_neg, if_neg] <;> omega

theorem store16_of_notMem {x : Nat} (h : x < a ∨ a + 2 ≤ x) : store16 m a v x = m x := by
  unfold store16
  rw [if_neg, if_neg] <;> omega

@[simp] theorem load32_store32_self : load32 (store32 m a v) a = v % 2 ^ 32 := by
  simp [load32, store32]
  omega

@[simp] theorem load16_store16_self : load16 (store16 m a v) a = v % 2 ^ 16 := by
  simp [load16, store16]
  omega

theorem store32_comm {w : Nat} (h : a + 4 ≤ b ∨ b + 4 ≤ a) :
    store32 (store32 m a v) b w = store32 (store32 m b w) a v := by
  have hat : ∀ {m m' : Bytes} {c u x : Nat}, m' x = m x → store32 m' c u x = store32 m c u x := by
    intro m m' c u x hx
    simp only [store32, hx]
  funext x
  by_cases hb : b ≤ x ∧ x < b + 4
  · have ha : x < a ∨ a + 4 ≤ x := by omega
    exact (hat (store32_of_notMem ha)).trans (store32_of_notMem ha).symm
  · have hx : x < b ∨ b + 4 ≤ x := by omega
    exact (store32_of_notMem hx).trans (hat (store32_of_notMem hx)).symm

/-- Words in disjoint intervals do not interfere. -/
theorem load32_store32_of_sep (h : a + 4 ≤ b ∨ b + 4 ≤ a) : load32 (store32 m a v) b = load32 m b :=
  load32_congr fun x hlo hhi => store32_of_notMem (by omega)

theorem load16_store16_of_sep (h : a + 2 ≤ b ∨ b + 2 ≤ a) : load16 (store16 m a v) b = load16 m b :=
  load16_congr fun x hlo hhi => store16_of_notMem (by omega)

end

variable {m src : Bytes} {a s n x : Nat} {c : Byte}

theorem fill_of_mem (hlo : a ≤ x) (hhi : x < a + n) : fill m a n c x = c := by
  simp [fill, hlo, hhi]

theorem fill_of_notMem (h : x < a ∨ a + n ≤ x) : fill m a n c x = m x := by
  unfold fill
  rw [if_neg (by omega)]

theorem load32_fill_zero (hlo : a ≤ x) (hhi : x + 4 ≤ a + n) : load32 (fill m a n 0) x = 0 := by
  unfold load32
  rw [fill_of_mem (by omega) (by omega), fill_of_mem (by omega) (by omega),
    fill_of_mem (by omega) (by omega), fill_of_mem (by omega) (by omega)]
  rfl

theorem blit_of_mem (hlo : a ≤ x) (hhi : x < a + n) : blit m a src s n x = src (s + (x - a)) := by
  simp [blit, hlo, hhi]

/-- Only the bytes that are copied matter. -/
theorem blit_congr {src' : Bytes} {t : Nat} (h : ∀ x < n, src (s + x) = src' (t + x)) :
    blit m a src s n = blit m a src' t n := by
  funext x
  simp only [blit]
  split
  · exact h _ (by omega)
  · rfl

@[simp] theorem blit_zero : blit m a src s 0 = m := by
  funext x
  rw [blit, if_neg (by omega)]

/-- Two copies in a row are one. -/
theorem blit_blit {k : Nat} : blit (blit m a src s n) (a + n) src (s + n) k = blit m a src s
    (n + k) := by
  funext x
  simp only [blit]
  by_cases hsecond : a + n ≤ x ∧ x < a + n + k
  · rw [if_pos hsecond, if_pos (by omega)]
    congr 1
    omega
  · rw [if_neg hsecond]
    by_cases hfirst : a ≤ x ∧ x < a + n
    · rw [if_pos hfirst, if_pos (by omega)]
    · rw [if_neg hfirst, if_neg (by omega)]

theorem blit_comm {src' : Bytes} {b t k : Nat} (h : a + n ≤ b ∨ b + k ≤ a) :
    blit (blit m a src s n) b src' t k = blit (blit m b src' t k) a src s n := by
  funext x
  simp only [blit]
  split <;> split <;> first | rfl | omega

/-- A copy overwrites what was copied into its range before. -/
theorem blit_absorb {src' : Bytes} {b t k : Nat} (hlow : b ≤ a) (hhigh : a + n ≤ b + k) :
    blit (blit m a src s n) b src' t k = blit m b src' t k := by
  funext x
  simp only [blit]
  split
  · rfl
  · rw [if_neg (by omega)]

/-- A copy in three pieces, the middle one last. -/
theorem blit_pieces {len tail : Nat} :
    blit (blit (blit m a src s n) (a + n + len) src (s + n + len) tail) (a + n) src (s + n) len =
      blit m a src s (n + len + tail) := by
  rw [blit_comm (Or.inr (Nat.le_refl _)), blit_blit, blit_blit, Nat.add_assoc]

theorem blit_of_notMem (h : x < a ∨ a + n ≤ x) : blit m a src s n x = m x := by
  unfold blit
  rw [if_neg (by omega)]

end Bytes

end Hos
