import Mathlib.Data.List.Basic
import Mathlib.Tactic.Common

/-!
# Bitmaps of 64-bit words

Bit `i` of a bitmap lives at position `i % 64` of word `i / 64`. `set` and `clear` change one bit
(`testBit_set`, `testBit_clear`); `topBit` is the highest set bit of a non-zero word and `lowMask k`
keeps the bits `0 .. k`.
-/

namespace NewM2

/-- A bitmap as its sequence of 64-bit words. -/
abbrev Bitmap := List (BitVec 64)

namespace Bitmap

/-- The word at index `w` (all-zero past the end). -/
def word (bm : Bitmap) (w : Nat) : BitVec 64 := bm.getD w 0

def testBit (bm : Bitmap) (i : Nat) : Bool := (bm.word (i / 64)).getLsbD (i % 64)

def set (bm : Bitmap) (i : Nat) : Bitmap := bm.modify (i / 64) (· ||| 1#64 <<< (i % 64))

def clear (bm : Bitmap) (i : Nat) : Bitmap := bm.modify (i / 64) (· &&& ~~~(1#64 <<< (i % 64)))

@[simp] theorem length_set (bm : Bitmap) (i : Nat) : (bm.set i).length = bm.length := by simp [set]

@[simp] theorem length_clear (bm : Bitmap) (i : Nat) : (bm.clear i).length = bm.length := by
  simp [clear]

theorem word_modify (bm : Bitmap) (w v : Nat) (f : BitVec 64 → BitVec 64) (h : w < bm.length) :
    word (bm.modify w f) v = if v = w then f (bm.word w) else bm.word v := by
  simp only [word, List.getD_eq_getElem?_getD, List.getElem?_modify]
  split
  · next hv => subst hv; simp [List.getElem?_eq_getElem h]
  · next hv => simp [Ne.symm hv]

theorem testBit_set (bm : Bitmap) {i : Nat} (j : Nat) (h : i / 64 < bm.length) :
    (bm.set i).testBit j = (decide (j = i) || bm.testBit j) := by
  simp only [testBit, set, word_modify _ _ _ _ h]
  by_cases hw : j / 64 = i / 64
  · have hj : j % 64 < 64 := Nat.mod_lt _ (by decide)
    have heq : j = i ↔ j % 64 = i % 64 := by omega
    simp only [hw, if_true, BitVec.getLsbD_or, BitVec.getLsbD_shiftLeft, BitVec.getLsbD_one]
    by_cases hb : j % 64 = i % 64
    · simp [heq, hb, Nat.mod_lt]
    · by_cases hlt : j % 64 < i % 64
      · simp [heq, hb, hlt]
      · have : j % 64 - i % 64 ≠ 0 := by omega
        simp [heq, hb, this]
  · have hne : j ≠ i := fun h => hw (h ▸ rfl)
    simp [hw, hne]

theorem testBit_clear (bm : Bitmap) {i : Nat} (j : Nat) (h : i / 64 < bm.length) :
    (bm.clear i).testBit j = (!decide (j = i) && bm.testBit j) := by
  simp only [testBit, clear, word_modify _ _ _ _ h]
  by_cases hw : j / 64 = i / 64
  · have hj : j % 64 < 64 := Nat.mod_lt _ (by decide)
    have heq : j = i ↔ j % 64 = i % 64 := by omega
    simp only [hw, if_true, BitVec.getLsbD_and, BitVec.getLsbD_not, BitVec.getLsbD_shiftLeft,
      BitVec.getLsbD_one]
    by_cases hb : j % 64 = i % 64
    · simp [heq, hb, Nat.mod_lt]
    · by_cases hlt : j % 64 < i % 64
      · simp [heq, hb, hlt, hj]
      · have : j % 64 - i % 64 ≠ 0 := by omega
        simp [heq, hb, this, hj]
  · have hne : j ≠ i := fun h => hw (h ▸ rfl)
    simp [hw, hne]

theorem testBit_replicate_zero (n i : Nat) : testBit (List.replicate n 0#64) i = false := by
  simp only [testBit, word, List.getD_eq_getElem?_getD, List.getElem?_replicate]
  split <;> simp

/-- Index of the highest set bit, as `63 - leading_zeros`. -/
def topBit (w : BitVec 64) : Nat := 63 - w.clz.toNat

/-- The mask of the bits `0 .. k`, computed as the source does (`k = 63` apart). -/
def lowMask (k : Nat) : BitVec 64 :=
  if k = 63 then BitVec.allOnes 64 else (1#64 <<< (k + 1)) - 1#64

theorem getLsbD_lowMask {k : Nat} (j : Nat) (hk : k < 64) :
    (lowMask k).getLsbD j = decide (j ≤ k) := by
  unfold lowMask
  split
  · next h =>
    subst h
    rw [BitVec.getLsbD_allOnes]
    exact decide_eq_decide.2 (by omega)
  · have hmask : (1#64 <<< (k + 1)) - 1#64 = BitVec.ofNat 64 (2 ^ (k + 1) - 1) := by
      apply BitVec.eq_of_toNat_eq
      have h1 : 2 ^ (k + 1) < 2 ^ 64 := Nat.pow_lt_pow_right (by decide) (by omega)
      have h0 : 0 < 2 ^ (k + 1) := Nat.pos_of_ne_zero (by simp)
      simp only [BitVec.toNat_sub, BitVec.toNat_shiftLeft, BitVec.toNat_ofNat, Nat.shiftLeft_eq]
      omega
    rw [hmask, BitVec.getLsbD_ofNat, Nat.testBit_two_pow_sub_one]
    by_cases hj : j ≤ k
    · have h1 : j < 64 := by omega
      have h2 : j < k + 1 := by omega
      simp [hj, h1, h2]
    · have h2 : ¬ j < k + 1 := by omega
      simp [hj, h2]

theorem topBit_lt (w : BitVec 64) : topBit w < 64 := by unfold topBit; omega

/-- `topBit` of a non-zero word is set, and no higher bit is. -/
theorem topBit_spec {w : BitVec 64} (h : w ≠ 0) :
    w.getLsbD (topBit w) = true ∧ ∀ j, topBit w < j → w.getLsbD j = false := by
  refine ⟨?_, fun j hj => ?_⟩
  · exact BitVec.getLsbD_true_clz_of_ne_zero (by decide) h
  · by_contra hb
    have hlt := BitVec.clz_lt_iff_ne_zero.2 h
    have hlt' : w.clz.toNat < 64 := by simpa using BitVec.lt_def.1 hlt
    have := BitVec.toNat_lt_two_pow_sub_clz (x := w)
    have hj64 : j < 64 := by
      by_contra hge
      simp [BitVec.getLsbD_of_ge w j (by omega)] at hb
    have hge : 2 ^ j ≤ w.toNat := by
      apply Nat.ge_two_pow_of_testBit
      simpa [BitVec.testBit_toNat] using hb
    have hpow : 2 ^ (64 - w.clz.toNat) ≤ 2 ^ j := by
      apply Nat.pow_le_pow_right (by decide)
      unfold topBit at hj
      omega
    omega

end Bitmap

end NewM2
