import Mathlib
import NewM2.Lib.Rounding

/-!
# Decimal (`library/winrtmod/Decimal.mod`)

A decimal is a coefficient times a power of ten. The operations of `BigInt` that the procedures call are
taken as exact, so a coefficient is an integer here; `Winrt/DecimalText.lean` reads and prints
coefficients as they are stored. An exponent is an INTEGER and wraps around. -/

namespace NewM2.Winrt.Decimal
open Rounding

/-- CARDINAL; INTEGER where it is read with `toInt`. -/
abbrev Word := BitVec 64

structure Rec where
  coeff : Int
  exp : Word
deriving Repr, DecidableEq

inductive RoundMode
  | roundDown | roundHalfUp
deriving Repr, DecidableEq

/-- `BigInt.Compare`. -/
def compareInt (a b : Int) : Int := if a < b then -1 else if a = b then 0 else 1

def create : Rec := ⟨0, 0⟩

def pow10 (k : Word) : Int := 10 ^ k.toNat

def scaleToExp (d : Rec) (e : Word) : Int :=
  if d.exp = e then d.coeff else d.coeff * pow10 (d.exp - e)

/-- `BigInt.DivMod` gives the quotient towards zero and its remainder. -/
def divRound (num den : Int) (mode : RoundMode) : Int :=
  let q := num.tdiv den
  let r := num.tmod den
  match mode with
  | .roundHalfUp => if 0 ≤ compareInt (r + r) den then q + 1 else q
  | .roundDown => q

def minExp (a b : Rec) : Word := if a.exp.toInt ≤ b.exp.toInt then a.exp else b.exp

def add (a b : Rec) : Rec :=
  let e := minExp a b
  ⟨scaleToExp a e + scaleToExp b e, e⟩

def sub (a b : Rec) : Rec :=
  let e := minExp a b
  ⟨scaleToExp a e - scaleToExp b e, e⟩

def mul (a b : Rec) : Rec := ⟨a.coeff * b.coeff, a.exp + b.exp⟩

def div (a b : Rec) (places : Word) (mode : RoundMode) : Rec :=
  if b.coeff = 0 then create
  else
    let sgn := a.coeff.sign * b.coeff.sign
    let an := |a.coeff|
    let bn := |b.coeff|
    let shift := a.exp + places - b.exp
    let (num, den) := if 0 ≤ shift.toInt then (an * pow10 shift, bn) else (an, bn * pow10 (-shift))
    let q := divRound num den mode
    ⟨if sgn < 0 then -q else q, -places⟩

def round (d : Rec) (places : Word) (mode : RoundMode) : Rec :=
  let targetExp := -places
  if targetExp.toInt ≤ d.exp.toInt then
    if d.exp = targetExp then d else ⟨d.coeff * pow10 (d.exp - targetExp), targetExp⟩
  else
    let sgn := d.coeff.sign
    let q := divRound |d.coeff| (pow10 (targetExp - d.exp)) mode
    ⟨if sgn < 0 then -q else q, targetExp⟩

def compare (a b : Rec) : Int :=
  let e := minExp a b
  compareInt (scaleToExp a e) (scaleToExp b e)

/-! ## The numbers they stand for -/

def Rec.value (d : Rec) : ℚ := d.coeff * 10 ^ d.exp.toInt

def RoundMode.round : RoundMode → ℚ → ℤ
  | .roundDown => truncate
  | .roundHalfUp => roundAway

/-- `x` rounded to `places` decimal places. -/
def roundTo (mode : RoundMode) (places : Nat) (x : ℚ) : ℚ := mode.round (x * 10 ^ places) / 10 ^ places

/-- The range of INTEGER. -/
def FitsInteger (z : Int) : Prop := -2 ^ 63 ≤ z ∧ z < 2 ^ 63

instance (z : Int) : Decidable (FitsInteger z) := inferInstanceAs (Decidable (_ ∧ _))

theorem RoundMode.round_neg (mode : RoundMode) (x : ℚ) : mode.round (-x) = -mode.round x := by
  cases mode with
  | roundDown => exact truncate_neg x
  | roundHalfUp => exact roundAway_neg x

theorem RoundMode.round_intCast (mode : RoundMode) (z : ℤ) : mode.round z = z := by
  have hpos : ∀ n : ℕ, mode.round (n : ℚ) = n := by
    intro n
    have hone : (n : ℚ) = (n : ℚ) / (1 : ℕ) := by rw [Nat.cast_one, div_one]
    cases mode with
    | roundDown =>
      rw [RoundMode.round, hone, truncate_div, Nat.div_one]
    | roundHalfUp =>
      rw [RoundMode.round, hone, roundAway_div n one_pos]
      congr 1
      omega
  obtain ⟨n, rfl | rfl⟩ := z.eq_nat_or_neg
  · exact_mod_cast hpos n
  · rw [Int.cast_neg, mode.round_neg, Int.cast_natCast, hpos]

/-! ## Exponents -/

/-- A difference of exponents is a CARDINAL, also where it is no INTEGER. -/
theorem sub_toNat {x y : Word} (h : y.toInt ≤ x.toInt) : ((x - y).toNat : Int) = x.toInt - y.toInt := by
  have hx := x.isLt
  have hy := y.isLt
  rw [BitVec.toNat_sub]
  rw [BitVec.toInt_eq_toNat_cond, BitVec.toInt_eq_toNat_cond] at h ⊢
  split_ifs at h ⊢ <;> omega

theorem neg_toInt {x : Word} (h : x.toNat ≤ 2 ^ 63) : (-x).toInt = -(x.toNat : Int) := by
  rw [BitVec.toInt_eq_toNat_cond, BitVec.toNat_neg]
  split_ifs <;> omega

theorem minExp_le_left (a b : Rec) : (minExp a b).toInt ≤ a.exp.toInt := by
  rw [minExp]
  split_ifs with h
  · exact le_rfl
  · exact (not_le.1 h).le

theorem minExp_le_right (a b : Rec) : (minExp a b).toInt ≤ b.exp.toInt := by
  rw [minExp]
  split_ifs with h
  · exact h
  · exact le_rfl

theorem pow10_pos (k : Word) : 0 < pow10 k := pow_pos (by norm_num) _

/-- Scaling keeps the value. -/
theorem scaleToExp_value {d : Rec} {e : Word} (h : e.toInt ≤ d.exp.toInt) :
    (scaleToExp d e : ℚ) * 10 ^ e.toInt = d.value := by
  rw [scaleToExp, Rec.value]
  split_ifs with he
  · rw [he]
  · have hexp : d.exp.toInt = ((d.exp - e).toNat : Int) + e.toInt := by
      rw [sub_toNat h]
      ring
    rw [hexp, zpow_add₀ (by norm_num), zpow_natCast, pow10]
    push_cast
    ring

theorem add_value (a b : Rec) : (add a b).value = a.value + b.value := by
  rw [← scaleToExp_value (minExp_le_left a b), ← scaleToExp_value (minExp_le_right a b), add, Rec.value]
  push_cast
  ring

theorem sub_value (a b : Rec) : (sub a b).value = a.value - b.value := by
  rw [← scaleToExp_value (minExp_le_left a b), ← scaleToExp_value (minExp_le_right a b), sub, Rec.value]
  push_cast
  ring

theorem mul_value {a b : Rec} (h : FitsInteger (a.exp.toInt + b.exp.toInt)) :
    (mul a b).value = a.value * b.value := by
  have hexp : (a.exp + b.exp).toInt = a.exp.toInt + b.exp.toInt := by
    rw [BitVec.toInt_add]
    exact Int.bmod_eq_of_le_mul_two (by have := h.1; omega) (by have := h.2; omega)
  rw [mul, Rec.value, hexp, Rec.value, Rec.value, zpow_add₀ (by norm_num)]
  push_cast
  ring

/-- A common power of ten does not change the order. -/
theorem compareInt_cast (a b e : Int) :
    compareInt a b = if (a : ℚ) * 10 ^ e < b * 10 ^ e then -1 else if (a : ℚ) * 10 ^ e = b * 10 ^ e then 0 else 1 := by
  have hpos : (0 : ℚ) < 10 ^ e := zpow_pos (by norm_num) e
  rw [compareInt]
  simp only [mul_lt_mul_iff_left₀ hpos, mul_left_inj' hpos.ne', Int.cast_lt, Int.cast_inj]

theorem compare_eq (a b : Rec) :
    compare a b = if a.value < b.value then -1 else if a.value = b.value then 0 else 1 := by
  rw [compare, compareInt_cast _ _ (minExp a b).toInt, scaleToExp_value (minExp_le_left a b),
    scaleToExp_value (minExp_le_right a b)]

/-! ## Rounded quotients -/

/-- The comparison of twice the remainder with the divisor decides as the half does. -/
theorem half_up_div (n : Nat) {d : Nat} (hd : 0 < d) :
    (2 * n + d) / (2 * d) = n / d + if d ≤ 2 * (n % d) then 1 else 0 := by
  have hn := Nat.div_add_mod n d
  have hmod := Nat.mod_lt n hd
  have hsplit : 2 * n + d = 2 * (n % d) + d + 2 * d * (n / d) := by
    nth_rewrite 1 [← hn]
    ring
  rw [hsplit, Nat.add_mul_div_left _ _ (by omega), Nat.add_comm]
  congr 1
  split_ifs with h
  · rw [Nat.div_eq_iff (by omega)]
    omega
  · exact Nat.div_eq_of_lt (by omega)

theorem divRound_eq (n : Nat) {d : Nat} (hd : 0 < d) (mode : RoundMode) :
    divRound n d mode = mode.round ((n : ℚ) / d) := by
  cases mode with
  | roundDown =>
    rw [RoundMode.round, truncate_div]
    exact (Int.ofNat_tdiv n d).symm
  | roundHalfUp =>
    rw [RoundMode.round, roundAway_div n hd, half_up_div n hd]
    simp only [divRound, ← Int.ofNat_tdiv, ← Int.ofNat_tmod]
    have hcond : 0 ≤ compareInt (((n % d : Nat) : Int) + ((n % d : Nat) : Int)) d ↔ d ≤ 2 * (n % d) := by
      rw [compareInt]
      split_ifs <;> omega
    simp only [hcond]
    split_ifs <;> push_cast <;> ring

/-- A number is rounded by rounding its magnitude. -/
theorem divRound_signed {x : ℚ} {num den : Int} (hden : 0 < den) (h : |x| * den = num) (mode : RoundMode) :
    (if x < 0 then -divRound num den mode else divRound num den mode) = mode.round x := by
  have hdenQ : (0 : ℚ) < den := by exact_mod_cast hden
  have hnum : 0 ≤ num := by
    have : (0 : ℚ) ≤ num := by rw [← h]; positivity
    exact_mod_cast this
  have habs : |x| = (num.toNat : ℚ) / den.toNat := by
    have hn : ((num.toNat : ℤ) : ℚ) = num := by rw [Int.toNat_of_nonneg hnum]
    have hd : ((den.toNat : ℤ) : ℚ) = den := by rw [Int.toNat_of_nonneg hden.le]
    rw [← Int.cast_natCast, ← Int.cast_natCast den.toNat, hn, hd, ← h, mul_div_cancel_right₀ _ hdenQ.ne']
  have hq := divRound_eq num.toNat (d := den.toNat) (by omega) mode
  rw [Int.toNat_of_nonneg hnum, Int.toNat_of_nonneg hden.le, ← habs] at hq
  rw [hq]
  split_ifs with hx
  · rw [abs_of_neg hx, mode.round_neg, neg_neg]
  · rw [abs_of_nonneg (not_lt.1 hx)]

/-- The record of a rounded integer. -/
theorem value_of_places {places : Word} (h : places.toNat ≤ 2 ^ 63) (q : Int) :
    (Rec.mk q (-places)).value = q / 10 ^ places.toNat := by
  rw [Rec.value, neg_toInt h, zpow_neg, zpow_natCast, div_eq_mul_inv]

theorem mul_neg_iff_left {x y : ℚ} (hy : 0 < y) : x * y < 0 ↔ x < 0 := by
  rw [mul_neg_iff]
  constructor
  · rintro (⟨-, h⟩ | ⟨h, -⟩)
    · exact absurd h hy.le.not_gt
    · exact h
  · exact fun h => .inr ⟨h, hy⟩

theorem sign_coeff (d : Rec) : d.coeff.sign < 0 ↔ d.value < 0 := by
  rw [Int.sign_neg_iff, Rec.value, mul_neg_iff_left (zpow_pos (by norm_num) _), Int.cast_lt_zero]

theorem round_value (d : Rec) {places : Word} (h : places.toNat ≤ 2 ^ 63) (mode : RoundMode) :
    (round d places mode).value = roundTo mode places.toNat d.value := by
  have hten : (10 : ℚ) ^ places.toNat ≠ 0 := by positivity
  have htarget := neg_toInt h
  by_cases hle : (-places).toInt ≤ d.exp.toInt
  · -- padding with zeros is exact
    have hpad : round d places mode = ⟨scaleToExp d (-places), -places⟩ := by
      rw [round, if_pos hle, scaleToExp]
      split_ifs with he
      · rw [← he]
      · rfl
    have hvalue := scaleToExp_value hle
    rw [htarget, zpow_neg, zpow_natCast] at hvalue
    rw [hpad, value_of_places h, roundTo, ← hvalue, inv_mul_cancel_right₀ hten, mode.round_intCast]
  · have hexp := sub_toNat (not_le.1 hle).le
    rw [htarget] at hexp
    have habs : |d.value * 10 ^ places.toNat| * (pow10 (-places - d.exp) : ℤ) = (|d.coeff| : ℤ) := by
      rw [Rec.value, pow10, abs_mul, abs_mul, abs_of_pos (zpow_pos (by norm_num : (0 : ℚ) < 10) _),
        abs_of_pos (by positivity : (0 : ℚ) < 10 ^ places.toNat)]
      push_cast
      rw [mul_assoc, mul_assoc, ← zpow_natCast, ← zpow_natCast, ← zpow_add₀ (by norm_num),
        ← zpow_add₀ (by norm_num), hexp]
      have hzero : d.exp.toInt + ((places.toNat : Int) + (-(places.toNat : Int) - d.exp.toInt)) = 0 := by ring
      rw [hzero, zpow_zero, mul_one]
    have hsign : d.coeff.sign < 0 ↔ d.value * 10 ^ places.toNat < 0 := by
      rw [sign_coeff, mul_neg_iff_left (by positivity)]
    simp only [round, if_neg hle]
    rw [value_of_places h, roundTo, ← divRound_signed (pow10_pos _) habs mode]
    simp only [hsign]

theorem shift_toInt {x y places : Word} (h : FitsInteger (x.toInt + places.toNat - y.toInt)) :
    (x + places - y).toInt = x.toInt + places.toNat - y.toInt := by
  obtain ⟨hlow, hhigh⟩ := h
  have hx := x.isLt
  have hy := y.isLt
  have hp := places.isLt
  rw [BitVec.toInt_eq_toNat_cond, BitVec.toNat_sub, BitVec.toNat_add]
  rw [BitVec.toInt_eq_toNat_cond, BitVec.toInt_eq_toNat_cond] at hlow hhigh ⊢
  split_ifs at hlow hhigh ⊢ <;> omega

/-- The scaled quotient, as the fraction that is rounded. -/
theorem div_fraction {a b : Rec} (hb : b.coeff ≠ 0) {places : Nat} {shift : Int}
    (h : shift = a.exp.toInt + places - b.exp.toInt) :
    |a.value / b.value * 10 ^ places| * |(b.coeff : ℚ)| = |(a.coeff : ℚ)| * 10 ^ shift := by
  have hbQ : |(b.coeff : ℚ)| ≠ 0 := abs_ne_zero.2 (by exact_mod_cast hb)
  have hpow : ∀ e : Int, |(10 : ℚ) ^ e| = 10 ^ e := fun e => abs_of_pos (zpow_pos (by norm_num) e)
  have hexp : (10 : ℚ) ^ shift = 10 ^ a.exp.toInt * 10 ^ places / 10 ^ b.exp.toInt := by
    rw [h, zpow_sub₀ (by norm_num), zpow_add₀ (by norm_num), zpow_natCast]
  have hten : (10 : ℚ) ^ b.exp.toInt ≠ 0 := (zpow_pos (by norm_num) _).ne'
  rw [Rec.value, Rec.value, abs_mul, abs_div, abs_mul, abs_mul, hpow, hpow, ← zpow_natCast, hpow,
    zpow_natCast, hexp]
  field_simp

theorem value_eq_zero (d : Rec) : d.value = 0 ↔ d.coeff = 0 := by
  rw [Rec.value, mul_eq_zero, Int.cast_eq_zero]
  exact or_iff_left (zpow_pos (by norm_num) _).ne'

/-- The sign of a quotient is the product of the signs. -/
theorem sign_quotient (a b : Rec) (places : Nat) :
    a.coeff.sign * b.coeff.sign < 0 ↔ a.value / b.value * 10 ^ places < 0 := by
  have hpos : ∀ d : Rec, 0 < d.coeff ↔ 0 < d.value := fun d => by
    rw [Rec.value, mul_pos_iff_of_pos_right (zpow_pos (by norm_num) _), Int.cast_pos]
  have hneg : ∀ d : Rec, d.coeff < 0 ↔ d.value < 0 := fun d => by rw [← sign_coeff, Int.sign_neg_iff]
  rw [← Int.sign_mul, Int.sign_neg_iff, mul_neg_iff_left (by positivity), div_neg_iff, mul_neg_iff, hpos,
    hneg, hpos, hneg]

theorem div_value {a b : Rec} (hb : b.value ≠ 0) {places : Word} (hplaces : places.toNat ≤ 2 ^ 63)
    (hshift : FitsInteger (a.exp.toInt + places.toNat - b.exp.toInt)) (mode : RoundMode) :
    (div a b places mode).value = roundTo mode places.toNat (a.value / b.value) := by
  have hb' : b.coeff ≠ 0 := fun h => hb ((value_eq_zero b).2 h)
  have hbpos : 0 < |b.coeff| := abs_pos.2 hb'
  have hfrac := div_fraction hb' (shift_toInt hshift) (a := a)
  have hround : ∀ num den : Int, 0 < den →
      |a.value / b.value * 10 ^ places.toNat| * den = num →
      (Rec.mk (if a.coeff.sign * b.coeff.sign < 0 then -divRound num den mode else divRound num den mode)
        (-places)).value = roundTo mode places.toNat (a.value / b.value) := by
    intro num den hden h
    rw [value_of_places hplaces, roundTo, ← divRound_signed hden h mode]
    simp only [sign_quotient a b places.toNat]
  simp only [div, if_neg hb']
  generalize a.exp + places - b.exp = shift at hfrac ⊢
  by_cases hs : 0 ≤ shift.toInt
  · simp only [if_pos hs]
    refine hround _ _ hbpos ?_
    have hpow : (10 : ℚ) ^ shift.toInt = 10 ^ shift.toNat := by
      rw [← zpow_natCast]
      congr 1
      rw [BitVec.toInt_eq_toNat_cond] at hs ⊢
      split_ifs at hs ⊢ <;> omega
    rw [Int.cast_abs, hfrac, hpow, pow10]
    push_cast
    rfl
  · simp only [if_neg hs]
    refine hround _ _ (mul_pos hbpos (pow10_pos _)) ?_
    have hpow : (10 : ℚ) ^ shift.toInt * 10 ^ (-shift).toNat = 1 := by
      have hneg : (((-shift).toNat : Nat) : Int) = -shift.toInt := by
        have hlt := shift.isLt
        rw [BitVec.toNat_neg]
        rw [BitVec.toInt_eq_toNat_cond] at hs ⊢
        split_ifs at hs ⊢ <;> omega
      rw [← zpow_natCast, ← zpow_add₀ (by norm_num), hneg, add_neg_cancel, zpow_zero]
    rw [pow10]
    push_cast
    rw [← mul_assoc, hfrac, mul_assoc, hpow, mul_one]

/-- Sums, differences and products are exact, the order is the order of the values, and quotients and
rounding are exact to the places asked for. Sums, differences and the order need no bound: a difference
of exponents is read as a CARDINAL. -/
theorem arithmetic_exact (a b : Rec) :
    (add a b).value = a.value + b.value ∧
    (sub a b).value = a.value - b.value ∧
    (FitsInteger (a.exp.toInt + b.exp.toInt) → (mul a b).value = a.value * b.value) ∧
    compare a b = (if a.value < b.value then -1 else if a.value = b.value then 0 else 1) ∧
    (∀ places mode, b.value ≠ 0 → places.toNat ≤ 2 ^ 63 →
      FitsInteger (a.exp.toInt + places.toNat - b.exp.toInt) →
      (div a b places mode).value = roundTo mode places.toNat (a.value / b.value)) ∧
    ∀ places mode, places.toNat ≤ 2 ^ 63 →
      (round a places mode).value = roundTo mode places.toNat a.value :=
  ⟨add_value a b, sub_value a b, mul_value, compare_eq a b,
    fun _ mode hb hplaces hshift => div_value hb hplaces hshift mode,
    fun _ mode hplaces => round_value a hplaces mode⟩

theorem arithmetic_exact_thirds :
    (FitsInteger ((0 : Word).toInt + (0 : Word).toInt) ∧
      (mul ⟨2, 0⟩ ⟨3, 0⟩).value = (Rec.mk 2 0).value * (Rec.mk 3 0).value) ∧
    ((Rec.mk 3 0).value ≠ 0 ∧ (2 : Word).toNat ≤ 2 ^ 63 ∧
      FitsInteger ((0 : Word).toInt + (2 : Word).toNat - (0 : Word).toInt) ∧
      (div ⟨2, 0⟩ ⟨3, 0⟩ 2 .roundHalfUp).value =
        roundTo .roundHalfUp 2 ((Rec.mk 2 0).value / (Rec.mk 3 0).value)) ∧
    ((0 : Word).toNat ≤ 2 ^ 63 ∧
      (round ⟨-25, -1⟩ 0 .roundHalfUp).value = roundTo .roundHalfUp 0 (Rec.mk (-25) (-1)).value) := by
  have h := arithmetic_exact ⟨2, 0⟩ ⟨3, 0⟩
  have h' := arithmetic_exact ⟨-25, -1⟩ ⟨3, 0⟩
  have hne : (Rec.mk 3 0).value ≠ 0 := by rw [Ne, value_eq_zero]; decide
  exact ⟨⟨by decide, h.2.2.1 (by decide)⟩,
    ⟨hne, by decide, by decide, h.2.2.2.2.1 2 .roundHalfUp hne (by decide) (by decide)⟩,
    by decide, h'.2.2.2.2.2 0 .roundHalfUp (by decide)⟩

/-- 2/3 to two places, and a tie below zero. -/
example : (div ⟨2, 0⟩ ⟨3, 0⟩ 2 .roundHalfUp, round ⟨-25, -1⟩ 0 .roundHalfUp) =
    (⟨67, -2⟩, ⟨-3, 0⟩) := by decide

end NewM2.Winrt.Decimal
