import Mathlib

/-!
# Rounding

To an integer: towards zero, and to nearest with ties away from zero. Both are odd functions, so that they are
computed on magnitudes. To a binary floating-point number with 53 bits: to nearest with ties to even. -/

namespace NewM2.Rounding

section rounding
variable {α : Type*} [Field α] [LinearOrder α] [FloorRing α]

/-- Towards zero. -/
def truncate (x : α) : ℤ := if 0 ≤ x then ⌊x⌋ else -⌊-x⌋

/-- To nearest, ties away from zero. -/
def roundAway (x : α) : ℤ := if 0 ≤ x then ⌊x + 1 / 2⌋ else -⌊-x + 1 / 2⌋

theorem truncate_of_nonneg {x : α} (h : 0 ≤ x) : truncate x = ⌊x⌋ := if_pos h

theorem roundAway_of_nonneg {x : α} (h : 0 ≤ x) : roundAway x = ⌊x + 1 / 2⌋ := if_pos h

variable [IsStrictOrderedRing α]

theorem truncate_neg (x : α) : truncate (-x) = -truncate x := by
  rcases lt_trichotomy x 0 with h | rfl | h
  · rw [truncate, truncate, if_pos (by linarith), if_neg (by linarith), neg_neg]
  · simp [truncate]
  · rw [truncate, truncate, if_neg (by linarith), if_pos h.le, neg_neg]

theorem roundAway_neg (x : α) : roundAway (-x) = -roundAway x := by
  rcases lt_trichotomy x 0 with h | rfl | h
  · rw [roundAway, roundAway, if_pos (by linarith), if_neg (by linarith), neg_neg]
  · norm_num [roundAway]
  · rw [roundAway, roundAway, if_neg (by linarith), if_pos h.le, neg_neg]

/-- No integer is nearer, and one as near is smaller in magnitude. -/
theorem abs_sub_roundAway (x : α) (n : ℤ) : |x - roundAway x| ≤ |x - n| ∧
    (|x - roundAway x| = |x - n| → |n| ≤ |roundAway x|) := by
  have hpos : ∀ x : α, 0 ≤ x → ∀ n : ℤ, |x - ⌊x + 1 / 2⌋| ≤ |x - n| ∧
      (|x - ⌊x + 1 / 2⌋| = |x - n| → |n| ≤ |⌊x + 1 / 2⌋|) := by
    intro x hx n
    have hlow := Int.floor_le (x + 1 / 2)
    have hhigh := Int.lt_floor_add_one (x + 1 / 2)
    have hnonneg : 0 ≤ ⌊x + 1 / 2⌋ := Int.floor_nonneg.2 (by linarith)
    generalize ⌊x + 1 / 2⌋ = m at *
    rcases lt_trichotomy n m with hlt | rfl | hlt
    · have hcast : (n : α) + 1 ≤ m := by exact_mod_cast hlt
      have hn : |x - n| = x - n := abs_of_nonneg (by linarith)
      refine ⟨by rw [hn, abs_le]; constructor <;> linarith, fun h => ?_⟩
      rcases abs_cases n with ⟨h', -⟩ | ⟨h', hneg⟩
      · rw [h', abs_of_nonneg hnonneg]
        exact hlt.le
      · -- a negative integer is further away
        exfalso
        have hneg' : (n : α) ≤ -1 := by exact_mod_cast (by omega : n ≤ -1)
        rw [hn] at h
        rcases abs_cases (x - (m : α)) with ⟨h₁, -⟩ | ⟨h₁, -⟩ <;> rw [h₁] at h <;> linarith
    · exact ⟨le_rfl, fun _ => le_rfl⟩
    · have hcast : (m : α) + 1 ≤ n := by exact_mod_cast hlt
      have hn : |x - n| = n - x := by rw [abs_sub_comm]; exact abs_of_nonneg (by linarith)
      refine ⟨by rw [hn, abs_le]; constructor <;> linarith, fun h => ?_⟩
      exfalso
      rw [hn] at h
      rcases abs_cases (x - (m : α)) with ⟨h₁, -⟩ | ⟨h₁, -⟩ <;> rw [h₁] at h <;> linarith
  rcases le_total 0 x with hx | hx
  · rw [roundAway_of_nonneg hx]
    exact hpos x hx n
  · obtain ⟨h₁, h₂⟩ := hpos (-x) (by linarith) (-n)
    have hround : roundAway x = -⌊-x + 1 / 2⌋ := by
      rw [← neg_neg x, roundAway_neg, roundAway_of_nonneg (by linarith), neg_neg]
    have hflip : ∀ m : ℤ, |-x - (m : α)| = |x - ((-m : ℤ) : α)| := fun m => by
      rw [← abs_neg]
      congr 1
      push_cast
      ring
    rw [hflip, hflip, neg_neg] at h₁ h₂
    rw [hround]
    rw [abs_neg] at h₂ ⊢
    exact ⟨h₁, h₂⟩

end rounding

/-! ## Quotients of natural numbers -/

theorem truncate_div (n d : Nat) : truncate ((n : ℚ) / d) = (n / d : Nat) := by
  rw [truncate_of_nonneg (by positivity), Rat.floor_natCast_div_natCast, Int.natCast_ediv]

theorem roundAway_div (n : Nat) {d : Nat} (hd : 0 < d) :
    roundAway ((n : ℚ) / d) = ((2 * n + d) / (2 * d) : Nat) := by
  have hsum : (n : ℚ) / d + 1 / 2 = ((2 * n + d : Nat) : ℚ) / (2 * d : Nat) := by
    have hd' : (d : ℚ) ≠ 0 := by exact_mod_cast hd.ne'
    push_cast
    field_simp
  rw [roundAway_of_nonneg (by positivity), hsum, Rat.floor_natCast_div_natCast, Int.natCast_ediv]

/-! ## Floating-point numbers -/

/-- To nearest, ties to even. -/
def roundEven (x : ℚ) : ℤ :=
  if x - ⌊x⌋ < 1 / 2 then ⌊x⌋ else if 1 / 2 < x - ⌊x⌋ then ⌊x⌋ + 1 else ⌊x⌋ + ⌊x⌋ % 2

/-- The exponent of the leading bit. -/
def exponent (x : ℚ) : ℤ :=
  let e : ℤ := (x.num.natAbs.log2 : ℤ) - x.den.log2
  if (2 : ℚ) ^ e ≤ |x| then e else e - 1

/-- The value of the last place, which for very small numbers no longer depends on the exponent. -/
def unit (x : ℚ) : ℚ := 2 ^ max (exponent x - 52) (-1074)

/-- The nearest floating-point number; the range of exponents has no upper end. -/
def toBinary64 (x : ℚ) : ℚ := roundEven (x / unit x) * unit x

theorem roundEven_intCast (n : ℤ) : roundEven n = n := by
  rw [roundEven, Int.floor_intCast, sub_self, if_pos (by norm_num)]

theorem abs_roundEven_sub_le (x : ℚ) : |roundEven x - x| ≤ 1 / 2 := by
  have hlow := Int.floor_le x
  have hhigh := Int.lt_floor_add_one x
  rw [roundEven]
  split_ifs with hdown hup
  · rw [abs_le]
    constructor <;> linarith
  · push_cast
    rw [abs_le]
    constructor <;> linarith
  · -- a tie
    have htie : x - ⌊x⌋ = 1 / 2 := le_antisymm (not_lt.1 hup) (not_lt.1 hdown)
    rcases Int.emod_two_eq ⌊x⌋ with heven | hodd
    · rw [heven, abs_le]
      push_cast
      constructor <;> linarith
    · rw [hodd, abs_le]
      push_cast
      constructor <;> linarith

theorem exponent_le {x : ℚ} (hx : x ≠ 0) : 2 ^ exponent x ≤ |x| := by
  rw [exponent]
  split_ifs with h
  · exact h
  · have hnum : x.num.natAbs ≠ 0 := Int.natAbs_ne_zero.2 (Rat.num_ne_zero.2 hx)
    have hlow : ((2 ^ x.num.natAbs.log2 : ℕ) : ℚ) ≤ x.num.natAbs := by exact_mod_cast Nat.log2_self_le hnum
    have hhigh : (x.den : ℚ) < ((2 ^ (x.den.log2 + 1) : ℕ) : ℚ) := by exact_mod_cast Nat.lt_log2_self
    have habs : |x| = x.num.natAbs / x.den := by
      rw [Rat.abs_def, Rat.divInt_eq_div, Int.cast_natCast, Int.cast_natCast]
    have hden : (0 : ℚ) < x.den := by exact_mod_cast x.den_pos
    rw [habs, le_div_iff₀ hden, sub_sub, zpow_sub₀ (by norm_num), div_mul_eq_mul_div,
      div_le_iff₀ (by positivity)]
    push_cast at hlow hhigh
    rw [zpow_natCast]
    rw [show ((x.den.log2 : ℤ) + 1) = ((x.den.log2 + 1 : ℕ) : ℤ) from rfl, zpow_natCast]
    exact mul_le_mul hlow hhigh.le (by positivity) (by positivity)

theorem unit_pos (x : ℚ) : 0 < unit x := by
  rw [unit]
  positivity

theorem toBinary64_zero : toBinary64 0 = 0 := by
  rw [toBinary64, zero_div, show roundEven 0 = 0 from roundEven_intCast 0, Int.cast_zero, zero_mul]

/-- The error of numbers below a power of two. -/
theorem abs_toBinary64_sub_le {x : ℚ} {k : ℤ} (hk : -1021 ≤ k) (hx : |x| < 2 ^ k) : |toBinary64 x - x| ≤ 2 ^ (k - 54) := by
  rcases eq_or_ne x 0 with rfl | hne
  · rw [toBinary64_zero, sub_self, abs_zero]
    positivity
  have hexp : exponent x < k := (zpow_lt_zpow_iff_right₀ (by norm_num)).1 ((exponent_le hne).trans_lt hx)
  have hunit : unit x ≤ 2 ^ (k - 53) := zpow_le_zpow_right₀ (by norm_num) (by omega)
  have hdiff : toBinary64 x - x = (roundEven (x / unit x) - x / unit x) * unit x := by
    rw [toBinary64, sub_mul, div_mul_cancel₀ _ (unit_pos x).ne']
  rw [hdiff, abs_mul, abs_of_pos (unit_pos x)]
  calc |roundEven (x / unit x) - x / unit x| * unit x ≤ 1 / 2 * 2 ^ (k - 53) :=
        mul_le_mul (abs_roundEven_sub_le _) hunit (unit_pos x).le (by norm_num)
    _ = 2 ^ (k - 54) := by
        rw [show k - 53 = k - 54 + 1 by ring, zpow_add_one₀ (by norm_num)]
        ring

/-- A number of at most 53 bits is exact. -/
theorem toBinary64_exact {m : ℤ} {j : ℕ} (hm : |m| < 2 ^ 53) (hj : j ≤ 1074) :
    toBinary64 ((m : ℚ) / 2 ^ j) = m / 2 ^ j := by
  rcases eq_or_ne m 0 with rfl | hne
  · rw [Int.cast_zero, zero_div, toBinary64_zero]
  generalize hx : (m : ℚ) / 2 ^ j = x
  have hx0 : x ≠ 0 := by
    rw [← hx]
    exact div_ne_zero (Int.cast_ne_zero.2 hne) (by positivity)
  have habs : |x| < 2 ^ (53 - j : ℤ) := by
    rw [← hx, abs_div, abs_of_pos (show (0 : ℚ) < 2 ^ j by positivity), zpow_sub₀ (by norm_num), zpow_natCast]
    rw [div_lt_div_iff_of_pos_right (by positivity)]
    exact_mod_cast hm
  have hexp : exponent x < 53 - j := (zpow_lt_zpow_iff_right₀ (by norm_num)).1 ((exponent_le hx0).trans_lt habs)
  -- the unit divides the number's own last place
  obtain ⟨d, hd⟩ : ∃ d : ℕ, max (exponent x - 52) (-1074) + d = -j := by
    refine ⟨(-j - max (exponent x - 52) (-1074)).toNat, ?_⟩
    omega
  have hunit : x / unit x = ((m * 2 ^ d : ℤ) : ℚ) := by
    rw [div_eq_iff (unit_pos x).ne', unit]
    generalize max (exponent x - 52) (-1074) = e at hd
    rw [← hx, ← zpow_natCast (2 : ℚ) j, div_eq_mul_inv, ← zpow_neg, ← hd, zpow_add₀ (by norm_num), zpow_natCast]
    push_cast
    ring
  rw [toBinary64, hunit, roundEven_intCast, ← hunit, div_mul_cancel₀ _ (unit_pos x).ne']

end NewM2.Rounding
