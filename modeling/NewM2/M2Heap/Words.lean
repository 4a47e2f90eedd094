import NewM2.M2Heap.Heap

/-! # Words, headers and sizes -/

namespace NewM2.M2Heap

section words
variable {m m' : Mem} {a b n v x : Nat}

theorem wget_lt (m : Mem) (a : Nat) : wget m a < 2 ^ 64 := Mem.read_lt m a 8

theorem wget_wput_self (h : v < 2 ^ 64) : wget (wput m a v) a = v := Mem.read_write_of_lt m a 8 h

theorem wget_wput_of_apart (h : b + 8 ≤ a ∨ a + 8 ≤ b) : wget (wput m a v) b = wget m b :=
  Mem.read_write_of_disjoint m v h

theorem wget_congr (h : ∀ x, a ≤ x → x < a + 8 → m' x = m x) : wget m' a = wget m a := Mem.read_congr h

theorem wput_of_apart (h : x < a ∨ a + 8 ≤ x) : wput m a v x = m x := Mem.write_of_disjoint m v h

theorem off_eq (h : a + n < 2 ^ 64) : off a n = a + n := Nat.mod_eq_of_lt h

theorem cadd_eq (h : a + n < 2 ^ 64) : cadd a n = a + n := Nat.mod_eq_of_lt h

theorem csub_eq (hn : n ≤ a) (ha : a < 2 ^ 64) : csub a n = a - n := by
  unfold csub
  omega

theorem offN_eq (hn : n ≤ a) (ha : a < 2 ^ 64) : offN a n = a - n := csub_eq hn ha

end words

/-! ## Masks -/

section masks
variable {m m' : Mem} {b v x : Nat}

/-- Clearing the low `k` of `w` bits. -/
theorem and_mask {k w : Nat} (hx : x < 2 ^ w) (hk : k ≤ w) :
    x &&& ((2 ^ (w - k) - 1) <<< k) = x / 2 ^ k * 2 ^ k := by
  rw [← Nat.shiftRight_eq_div_pow, ← Nat.shiftLeft_eq]
  apply Nat.eq_of_testBit_eq
  intro i
  rw [Nat.testBit_and, Nat.testBit_shiftLeft, Nat.testBit_shiftLeft, Nat.testBit_two_pow_sub_one,
    Nat.testBit_shiftRight]
  by_cases hi : k ≤ i
  · rw [show k + (i - k) = i by omega]
    by_cases hw : i < w
    · simp [hi, show i - k < w - k by omega]
    · rw [Nat.testBit_lt_two_pow (hx.trans_le (Nat.pow_le_pow_right (by decide) (by omega)))]
      simp
  · simp [hi]

theorem and_sizeMask (hx : x < 2 ^ 64) : x &&& sizeMask = x / 16 * 16 := by
  have hmask : sizeMask = (2 ^ (64 - 4) - 1) <<< 4 := by simp [sizeMask]
  rw [hmask, and_mask hx (by omega)]
  rfl

theorem and_pageMask (hx : x < 2 ^ 64) : x &&& pageMask = x / 65536 * 65536 := by
  have hmask : pageMask = (2 ^ (64 - 16) - 1) <<< 16 := by simp [pageMask]
  rw [hmask, and_mask hx (by omega)]
  rfl

theorem or_allocFlag (h : 16 ∣ v) : v ||| allocFlag = v + 1 := by
  obtain ⟨k, rfl⟩ := h
  exact (Nat.two_pow_add_eq_or_of_lt (i := 4) (by decide : 1 < 2 ^ 4) k).symm

theorem blkSize_eq : blkSize m b = wget m b / 16 * 16 := and_sizeMask (wget_lt m b)

theorem dvd_blkSize : 16 ∣ blkSize m b := by
  rw [blkSize_eq]
  exact Nat.dvd_mul_left 16 _

theorem blkAlloc_eq : blkAlloc m b = decide (wget m b % 2 = 1) := by
  unfold blkAlloc allocFlag
  rw [Nat.and_one_is_mod]
  rcases Nat.mod_two_eq_zero_or_one (wget m b) with h | h <;> simp [h]

theorem blkSize_congr (h : wget m' b = wget m b) : blkSize m' b = blkSize m b := by
  unfold blkSize
  rw [h]

theorem blkAlloc_congr (h : wget m' b = wget m b) : blkAlloc m' b = blkAlloc m b := by
  unfold blkAlloc
  rw [h]

/-- A header that says free. -/
theorem header_of_free (hv : 16 ∣ v) (h : wget m b = v) : blkSize m b = v ∧ blkAlloc m b = false := by
  rw [blkSize_eq, blkAlloc_eq, h]
  refine ⟨Nat.div_mul_cancel hv, decide_eq_false ?_⟩
  omega

/-- A header that says allocated. -/
theorem header_of_alloc (hv : 16 ∣ v) (h : wget m b = v ||| allocFlag) :
    blkSize m b = v ∧ blkAlloc m b = true := by
  rw [or_allocFlag hv] at h
  rw [blkSize_eq, blkAlloc_eq, h]
  obtain ⟨k, rfl⟩ := hv
  refine ⟨by omega, decide_eq_true (by omega)⟩

theorem blkSize_lt (m : Mem) (b : Nat) : blkSize m b < 2 ^ 64 := by
  have := wget_lt m b
  rw [blkSize_eq]
  omega

end masks

end NewM2.M2Heap
