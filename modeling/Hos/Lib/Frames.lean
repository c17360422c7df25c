import Hos.Lib.Bytes

/-!
# Frames of words

A byte store divided into frames of 4096 bytes, each of them read and written as
1024 little-endian words. Different words do not interfere, and clearing or
copying a frame touches no word of another one.
-/

namespace Hos.Bytes

/-- The address of word `j` of frame `f`. -/
def wordAddr (f j : Nat) : Nat := f * 4096 + 4 * j

/-- Word `j` of frame `f`. -/
def word (m : Bytes) (f j : Nat) : Nat := m.load32 (wordAddr f j)

def setWord (m : Bytes) (f j v : Nat) : Bytes := m.store32 (wordAddr f j) v

/-- The store with given words. -/
def ofWords (w : Nat → Nat → Nat) : Bytes := fun x =>
  BitVec.ofNat 8 (w (x / 4096) (x % 4096 / 4) / 256 ^ (x % 4))

/-- All words of a frame become zero. -/
def clearFrame (m : Bytes) (f : Nat) : Bytes := m.fill (f * 4096) 4096 0

/-- Frame `f` becomes a copy of frame `g`. -/
def copyFrame (m : Bytes) (f g : Nat) : Bytes := m.blit (f * 4096) m (g * 4096) 4096

variable {m m' : Bytes} {f g j k v : Nat}

theorem word_lt : m.word f j < 2 ^ 32 := load32_lt

@[simp] theorem word_setWord_self : (m.setWord f j v).word f j = v % 2 ^ 32 := load32_store32_self

theorem word_ofWords {w : Nat → Nat → Nat} {f j : Nat} (hj : j < 1024) :
    (ofWords w).word f j = w f j % 2 ^ 32 := by
  have hbyte : ∀ b < 4, (ofWords w (wordAddr f j + b)).toNat = w f j / 256 ^ b % 256 := by
    intro b hb
    have hframe : (wordAddr f j + b) / 4096 = f := by
      rw [wordAddr]
      omega
    have hindex : (wordAddr f j + b) % 4096 / 4 = j := by
      rw [wordAddr]
      omega
    have hpos : (wordAddr f j + b) % 4 = b := by
      rw [wordAddr]
      omega
    rw [ofWords, hframe, hindex, hpos, BitVec.toNat_ofNat]
  have h0 := hbyte 0 (by decide)
  rw [Nat.add_zero] at h0
  rw [word, load32, h0, hbyte 1 (by decide), hbyte 2 (by decide), hbyte 3 (by decide)]
  omega

theorem word_setWord_of_ne (hj : j < 1024) (hk : k < 1024) (hne : g ≠ f ∨ k ≠ j) :
    (m.setWord f j v).word g k = m.word g k := by
  apply load32_store32_of_sep
  rw [wordAddr, wordAddr]
  omega

theorem setWord_of_frame_ne {x : Nat} (hj : j < 1024) (hx : x / 4096 ≠ f) :
    m.setWord f j v x = m x := by
  apply store32_of_notMem
  rw [wordAddr]
  omega

theorem setWord_setWord {w : Nat} : (m.setWord f j v).setWord f j w = m.setWord f j w := by
  funext x
  by_cases hx : wordAddr f j ≤ x ∧ x < wordAddr f j + 4
  · have hcases : x = wordAddr f j ∨ x = wordAddr f j + 1 ∨ x = wordAddr f j + 2 ∨
        x = wordAddr f j + 3 := by omega
    obtain rfl | rfl | rfl | rfl := hcases <;> simp [setWord, store32]
  · rw [setWord, setWord, setWord, store32_of_notMem (by omega), store32_of_notMem (by omega),
      store32_of_notMem (by omega)]

theorem word_clearFrame_self (hj : j < 1024) : (m.clearFrame f).word f j = 0 := by
  apply load32_fill_zero
  · exact Nat.le_add_right _ _
  · rw [wordAddr]
    omega

theorem clearFrame_of_frame_ne {x : Nat} (hx : x / 4096 ≠ f) : m.clearFrame f x = m x := by
  apply fill_of_notMem
  omega

theorem word_congr (hj : j < 1024) (h : ∀ x, x / 4096 = f → m' x = m x) :
    m'.word f j = m.word f j := by
  apply load32_congr
  intro x hlow hhigh
  apply h
  rw [wordAddr] at hlow hhigh
  omega

theorem word_clearFrame_of_ne (hj : j < 1024) (hne : g ≠ f) :
    (m.clearFrame f).word g j = m.word g j :=
  word_congr hj fun _ hx => clearFrame_of_frame_ne (hx ▸ hne)

theorem word_copyFrame_self (hj : j < 1024) : (m.copyFrame f g).word f j = m.word g j := by
  have hbyte : ∀ x < 4096, m.copyFrame f g (f * 4096 + x) = m (g * 4096 + x) := by
    intro x hx
    rw [copyFrame, blit, if_pos ⟨Nat.le_add_right _ _, by omega⟩, Nat.add_sub_cancel_left]
  simp only [word, load32, wordAddr, Nat.add_assoc]
  rw [hbyte _ (by omega), hbyte _ (by omega), hbyte _ (by omega), hbyte _ (by omega)]

theorem copyFrame_of_frame_ne {x : Nat} (hx : x / 4096 ≠ f) : m.copyFrame f g x = m x := by
  rw [copyFrame, blit, if_neg (by omega)]

theorem word_copyFrame_of_ne {h : Nat} (hj : j < 1024) (hne : h ≠ f) :
    (m.copyFrame f g).word h j = m.word h j :=
  word_congr hj fun _ hx => copyFrame_of_frame_ne (hx ▸ hne)

end Hos.Bytes
