import Mathlib

/-!
# SHIFT and ROTATE (`newm2-runtime/src/bitops.rs`)

The value is a u64 of which the low `width` bits count, the count an i64. An operation that overflows
stops the program (`none`). Both functions are described bit by bit: bit `i` of the result is bit
`i - count` of the value, where a shift has no other bits (`nm2Shift_spec`) and a rotation counts them
modulo the width (`nm2Rotate_spec`). -/

namespace NewM2.BitOps

/-- u64, or i64 where it is read with `toInt`. -/
abbrev Word := BitVec 64

/-! ## Checked operations -/

/-- `<<` on u64. -/
def shl (v c : Word) : Option Word := if c.toNat < 64 then some (v <<< c.toNat) else none

/-- `>>` on u64. -/
def shr (v c : Word) : Option Word := if c.toNat < 64 then some (v >>> c.toNat) else none

/-- `-` on u64. -/
def subU (a b : Word) : Option Word := if BitVec.usubOverflow a b then none else some (a - b)

/-- `+` on i64. -/
def addI (a b : Word) : Option Word := if BitVec.saddOverflow a b then none else some (a + b)

/-- `%` on i64. -/
def remI (a b : Word) : Option Word :=
  if b = 0 ∨ a = BitVec.intMin 64 ∧ b = -1 then none else some (a.srem b)

/-! ## The functions -/

/-- `width.clamp(1, 64)`. -/
def clampWidth (width : Word) : Word :=
  if width.toNat < 1 then 1 else if 64 < width.toNat then 64 else width

def maskFor (width : Word) : Option Word :=
  if 64 ≤ width.toNat then some (BitVec.allOnes 64) else do subU (← shl 1 width) 1

def nm2Shift (val count width : Word) : Option Word := do
  let width := clampWidth width
  let mask ← maskFor width
  let v := val &&& mask
  let out ←
    if 0 ≤ count.toInt then
      if width.toNat ≤ count.toNat then some 0 else shl v count
    else
      -- `unsigned_abs`
      let c := count.abs
      if width.toNat ≤ c.toNat then some 0 else shr v c
  some (out &&& mask)

/-- The rotation amount, normalised to the width. -/
def rotation (count w : Word) : Option Word := do
  remI (← addI (← remI count w) w) w

def nm2Rotate (val count width : Word) : Option Word := do
  let width := clampWidth width
  let mask ← maskFor width
  let v := val &&& mask
  let r ← rotation count width
  if r = 0 then some v
  else
    let left ← shl v r
    let right ← shr v (← subU width r)
    some ((left ||| right) &&& mask)

/-! ## Bit by bit -/

/-- A truncated remainder made non-negative is the floored one. -/
theorem tmod_add_tmod (c : Int) {w : Int} (hw : 0 < w) : (c.tmod w + w).tmod w = c % w := by
  have hlow : -w < c.tmod w := Int.lt_tmod_of_pos c hw
  rw [Int.tmod_eq_emod_of_nonneg (by omega), Int.add_emod_right, Int.tmod_def,
    Int.sub_mul_emod_self_left]

/-- Bit `i` of the low `width` bits, for any integer `i`. -/
def bitAt (v : Word) (width : Nat) (i : Int) : Bool :=
  decide (0 ≤ i ∧ i < width) && v.getLsbD i.toNat

theorem bitAt_sub {v : Word} {width i c : Nat} (hi : i < width) :
    bitAt v width (i - c) = (decide (c ≤ i) && v.getLsbD (i - c)) := by
  rw [bitAt]
  by_cases hc : c ≤ i
  · rw [decide_eq_true (by omega), decide_eq_true hc, show ((i : Int) - c).toNat = i - c by omega]
  · rw [decide_eq_false (by omega), decide_eq_false hc, Bool.false_and, Bool.false_and]

theorem bitAt_add {v : Word} {width i c : Nat} :
    bitAt v width (i + c) = (decide (i + c < width) && v.getLsbD (i + c)) := by
  rw [bitAt, show ((i : Int) + c).toNat = i + c by omega]
  congr 1
  exact decide_eq_decide.2 (by omega)

theorem toInt_of_nonneg {v : Word} (h : 0 ≤ v.toInt) : v.toInt = v.toNat := by
  rw [BitVec.toInt_eq_toNat_cond] at h ⊢
  split_ifs at h ⊢ with h'
  · rfl
  · have := v.isLt
    omega

/-- The unsigned absolute value, also of the least number. -/
theorem toInt_of_neg {v : Word} (h : v.toInt < 0) : v.toInt = -(v.abs.toNat : Int) := by
  have hmsb : v.msb = true := by
    rw [BitVec.msb_eq_toInt]
    exact decide_eq_true h
  have hlt := v.isLt
  rw [BitVec.toNat_abs, if_pos hmsb]
  rw [BitVec.toInt_eq_toNat_cond] at h ⊢
  split_ifs at h ⊢ with h' <;> omega

section width
variable {width : Word} (hpos : 1 ≤ width.toNat) (hle : width.toNat ≤ 64)
include hpos hle

theorem clampWidth_eq : clampWidth width = width := by
  rw [clampWidth, if_neg (by omega), if_neg (by omega)]

theorem toInt_width : width.toInt = width.toNat := by
  rw [BitVec.toInt_eq_toNat_cond, if_pos (by omega)]

theorem maskFor_spec : ∃ mask, maskFor width = some mask ∧
    ∀ i, mask.getLsbD i = decide (i < width.toNat) := by
  by_cases h : 64 ≤ width.toNat
  · refine ⟨_, if_pos h, fun i => ?_⟩
    rw [BitVec.getLsbD_allOnes, show width.toNat = 64 by omega]
  · have hlt : width.toNat < 64 := by omega
    have hpow : 2 ^ width.toNat < 2 ^ 64 := Nat.pow_lt_pow_right (by decide) hlt
    have hshift : ((1 : Word) <<< width.toNat).toNat = 2 ^ width.toNat := by
      rw [BitVec.toNat_shiftLeft, Nat.shiftLeft_eq, show (1 : Word).toNat = 1 from rfl, Nat.one_mul,
        Nat.mod_eq_of_lt hpow]
    have hone : 1 ≤ 2 ^ width.toNat := Nat.one_le_two_pow
    have hsub : BitVec.usubOverflow ((1 : Word) <<< width.toNat) 1 = false := by
      rw [BitVec.usubOverflow, hshift]
      exact decide_eq_false (Nat.not_lt.2 hone)
    refine ⟨((1 : Word) <<< width.toNat) - 1, ?_, fun i => ?_⟩
    · rw [maskFor, if_neg h, shl, if_pos hlt, Option.bind_eq_bind, Option.bind_some, subU, hsub,
        if_neg Bool.false_ne_true]
    · have hnat : (((1 : Word) <<< width.toNat) - 1).toNat = 2 ^ width.toNat - 1 := by
        rw [BitVec.toNat_sub, hshift]
        simp only [show (1 : Word).toNat = 1 from rfl]
        omega
      rw [← BitVec.testBit_toNat, hnat, Nat.testBit_two_pow_sub_one]

/-- The normalised rotation is the count modulo the width. -/
theorem rotation_spec (count : Word) : ∃ r, rotation count width = some r ∧
    (r.toNat : Int) = count.toInt % width.toNat := by
  have hw := toInt_width hpos hle
  have hwpos : (0 : Int) < width.toNat := by omega
  have hrem : ∀ a, remI a width = some (a.srem width) := fun a => by
    refine if_neg ?_
    rintro (h | ⟨-, h⟩) <;> rw [h] at hpos hle
    · exact absurd hpos (by decide)
    · exact absurd hle (by decide)
  have hlow : -(width.toNat : Int) < count.toInt.tmod width.toNat := Int.lt_tmod_of_pos _ hwpos
  have hhigh : count.toInt.tmod width.toNat < width.toNat := Int.tmod_lt_of_pos _ hwpos
  have hsrem : (count.srem width).toInt = count.toInt.tmod width.toNat := by
    rw [BitVec.toInt_srem, hw]
  have hadd : BitVec.saddOverflow (count.srem width) width = false := by
    rw [BitVec.saddOverflow, hsrem, hw, Bool.or_eq_false_iff]
    exact ⟨decide_eq_false (by omega), decide_eq_false (by omega)⟩
  have hsum : (count.srem width + width).toInt = count.toInt.tmod width.toNat + width.toNat := by
    rw [BitVec.toInt_add, hsrem, hw, Int.bmod_eq_of_le] <;> omega
  have hfinal : ((count.srem width + width).srem width).toInt = count.toInt % width.toNat := by
    rw [BitVec.toInt_srem, hsum, hw, tmod_add_tmod _ hwpos]
  refine ⟨(count.srem width + width).srem width, ?_, ?_⟩
  · simp only [rotation, hrem, addI, hadd, Option.bind_eq_bind, Option.bind_some,
      Bool.false_eq_true, if_false]
  · -- a remainder below the width has no sign
    have hnonneg := Int.emod_nonneg count.toInt (by omega : (width.toNat : Int) ≠ 0)
    rw [← hfinal] at hnonneg ⊢
    rw [BitVec.toInt_eq_toNat_cond] at hnonneg ⊢
    split_ifs at hnonneg ⊢ with h
    · rfl
    · omega

/-- Bit `i` of a rotation is the bit at `i - count` modulo the width. -/
theorem nm2Rotate_spec (val count : Word) : ∃ out, nm2Rotate val count width = some out ∧
    ∀ i, out.getLsbD i =
      (decide (i < width.toNat) && val.getLsbD ((i - count.toInt) % width.toNat).toNat) := by
  obtain ⟨mask, hmask, hbits⟩ := maskFor_spec hpos hle
  obtain ⟨r, hr, hrval⟩ := rotation_spec hpos hle count
  have hwpos : (0 : Int) < width.toNat := by omega
  have hrlt : r.toNat < width.toNat := by
    have := Int.emod_lt_of_pos count.toInt hwpos
    omega
  -- the index as a natural number, without the count
  have hidx : ∀ i : Nat, i < width.toNat → ((i - count.toInt) % width.toNat).toNat =
      if r.toNat ≤ i then i - r.toNat else i + (width.toNat - r.toNat) := by
    intro i hi
    have hsub : ((i : Int) - count.toInt) % width.toNat = (i - r.toNat) % width.toNat := by
      rw [hrval, Int.sub_emod (i : Int) (count.toInt % _), Int.emod_emod, ← Int.sub_emod]
    rw [hsub]
    split_ifs with h
    · rw [Int.emod_eq_of_lt (by omega) (by omega)]
      omega
    · rw [← Int.add_emod_right, Int.emod_eq_of_lt (by omega) (by omega)]
      omega
  simp only [nm2Rotate, clampWidth_eq hpos hle, hmask, hr, Option.bind_eq_bind, Option.bind_some]
  by_cases h0 : r = 0
  · refine ⟨_, if_pos h0, fun i => ?_⟩
    subst h0
    rw [BitVec.getLsbD_and, hbits, Bool.and_comm]
    by_cases hi : i < width.toNat
    · rw [hidx i hi]
      simp [hi]
    · simp [hi]
  · have hr0 : r.toNat ≠ 0 := fun h => h0 (BitVec.eq_of_toNat_eq h)
    have hsub : BitVec.usubOverflow width r = false := decide_eq_false (by omega)
    have hdiff : (width - r).toNat = width.toNat - r.toNat := by
      rw [BitVec.toNat_sub]
      omega
    have hshl : shl (val &&& mask) r = some ((val &&& mask) <<< r.toNat) := if_pos (by omega)
    have hshr : shr (val &&& mask) (width - r) =
        some ((val &&& mask) >>> (width.toNat - r.toNat)) := by
      rw [← hdiff]
      exact if_pos (by omega)
    simp only [h0, if_false, subU, hsub, Bool.false_eq_true, hshl, hshr, Option.bind_some]
    refine ⟨_, rfl, fun i => ?_⟩
    simp only [BitVec.getLsbD_and, BitVec.getLsbD_or, BitVec.getLsbD_shiftLeft,
      BitVec.getLsbD_ushiftRight, hbits]
    by_cases hi : i < width.toNat
    · rw [hidx i hi]
      split_ifs with h
      · simp [hi, Nat.not_lt.2 h, show i < 64 by omega, show i - r.toNat < width.toNat by omega,
          show ¬ width.toNat - r.toNat + i < width.toNat by omega]
      · simp [hi, show i < r.toNat by omega, Nat.add_comm,
          show i + (width.toNat - r.toNat) < width.toNat by omega]
    · simp [hi]

/-- Bit `i` of a shift is the bit at `i - count`, where there is one. -/
theorem nm2Shift_spec (val count : Word) : ∃ out, nm2Shift val count width = some out ∧
    ∀ i : Nat, out.getLsbD i =
      (decide (i < width.toNat) && bitAt val width.toNat (i - count.toInt)) := by
  obtain ⟨mask, hmask, hbits⟩ := maskFor_spec hpos hle
  simp only [nm2Shift, clampWidth_eq hpos hle, hmask, Option.bind_eq_bind, Option.bind_some]
  by_cases hsign : 0 ≤ count.toInt
  · rw [if_pos hsign, toInt_of_nonneg hsign]
    by_cases hbig : width.toNat ≤ count.toNat
    · rw [if_pos hbig]
      refine ⟨_, rfl, fun i => ?_⟩
      by_cases hi : i < width.toNat
      · rw [bitAt_sub hi, decide_eq_false (show ¬ count.toNat ≤ i by omega)]
        simp
      · simp [hi]
    · rw [if_neg hbig, shl, if_pos (by omega)]
      refine ⟨_, rfl, fun i => ?_⟩
      rw [BitVec.getLsbD_and, BitVec.getLsbD_shiftLeft, BitVec.getLsbD_and, hbits, hbits]
      by_cases hi : i < width.toNat
      · rw [bitAt_sub hi]
        rw [decide_eq_true (show i < 64 by omega), decide_eq_true hi,
          decide_eq_true (show i - count.toNat < width.toNat by omega), ← decide_not]
        simp only [Nat.not_lt, Bool.true_and, Bool.and_true]
      · simp [hi]
  · have habs : (count.toInt : Int) = -(count.abs.toNat : Int) := toInt_of_neg (by omega)
    rw [if_neg hsign, habs]
    generalize count.abs = c
    simp only [sub_neg_eq_add, bitAt_add]
    by_cases hbig : width.toNat ≤ c.toNat
    · rw [if_pos hbig]
      refine ⟨_, rfl, fun i => ?_⟩
      rw [decide_eq_false (show ¬ i + c.toNat < width.toNat by omega)]
      simp
    · rw [if_neg hbig, shr, if_pos (by omega)]
      refine ⟨_, rfl, fun i => ?_⟩
      rw [BitVec.getLsbD_and, BitVec.getLsbD_ushiftRight, BitVec.getLsbD_and, hbits, hbits,
        Nat.add_comm c.toNat i, Bool.and_comm (val.getLsbD _), Bool.and_comm]

end width

/-! ## The laws -/

/-- The low `width` bits. -/
def low (width : Nat) (v : Word) : Nat := v.toNat % 2 ^ width

/-- Two words with the same low bits, of which the second has no others, from the bits of the second. -/
theorem eq_low {out v : Word} {width : Nat}
    (h : ∀ i, out.getLsbD i = (decide (i < width) && v.getLsbD i)) : out.toNat = low width v := by
  refine Nat.eq_of_testBit_eq fun i => ?_
  rw [low, Nat.testBit_mod_two_pow, BitVec.testBit_toNat, BitVec.testBit_toNat, h]

theorem getLsbD_of_low {v v' : Word} {width i : Nat} (h : low width v = low width v')
    (hi : i < width) : v.getLsbD i = v'.getLsbD i := by
  have hbit := congrArg (fun n => n.testBit i) h
  simpa [low, Nat.testBit_mod_two_pow, hi, BitVec.testBit_toNat] using hbit

theorem lt_of_bits {out : Word} {width : Nat} {f : Nat → Bool}
    (h : ∀ i, out.getLsbD i = (decide (i < width) && f i)) : out.toNat < 2 ^ width := by
  refine Nat.lt_pow_two_of_testBit _ fun i hi => ?_
  rw [BitVec.testBit_toNat, h, decide_eq_false (Nat.not_lt.2 hi), Bool.false_and]

/-- Rotations compose, are undone by the opposite rotation, read the low bits only and stay among them;
a shift moves the bits. Nothing overflows. -/
theorem rotate_shift_laws (width val : Word) (hpos : 1 ≤ width.toNat) (hle : width.toNat ≤ 64) :
    (∀ m n : Word, BitVec.saddOverflow m n = false → ∃ a b,
      nm2Rotate val m width = some a ∧ nm2Rotate a n width = some b ∧
        nm2Rotate val (m + n) width = some b) ∧
    (∀ n : Word, BitVec.negOverflow n = false → ∃ a b,
      nm2Rotate val n width = some a ∧ nm2Rotate a (-n) width = some b ∧
        b.toNat = low width.toNat val) ∧
    (∀ n val' : Word, low width.toNat val = low width.toNat val' →
      nm2Rotate val n width = nm2Rotate val' n width) ∧
    (∀ n : Word, ∃ a, nm2Rotate val n width = some a ∧ a.toNat < 2 ^ width.toNat) ∧
    (∀ n : Word, ∃ a, nm2Shift val n width = some a ∧ a.toNat < 2 ^ width.toNat ∧
      (∀ i < width.toNat, a.getLsbD i = bitAt val width.toNat (i - n.toInt)) ∧
      ((width.toNat : Int) ≤ |n.toInt| → a = 0)) := by
  have hwpos : (0 : Int) < width.toNat := by omega
  have hrot := fun v c => nm2Rotate_spec hpos hle v c
  -- two rotations are one, bit by bit
  have hcomp : ∀ (m n : Word) (a b : Word),
      (∀ i, a.getLsbD i = (decide (i < width.toNat) &&
        val.getLsbD ((i - m.toInt) % width.toNat).toNat)) →
      (∀ i, b.getLsbD i = (decide (i < width.toNat) &&
        a.getLsbD ((i - n.toInt) % width.toNat).toNat)) →
      ∀ i, b.getLsbD i = (decide (i < width.toNat) &&
        val.getLsbD ((i - (m.toInt + n.toInt)) % width.toNat).toNat) := by
    intro m n a b ha hb i
    have hlow := Int.emod_nonneg ((i : Int) - n.toInt) hwpos.ne'
    have hhigh := Int.emod_lt_of_pos ((i : Int) - n.toInt) hwpos
    rw [hb, ha, decide_eq_true (by omega : ((i - n.toInt) % width.toNat).toNat < width.toNat),
      Bool.true_and, Int.toNat_of_nonneg hlow, Int.sub_emod, Int.emod_emod, ← Int.sub_emod,
      sub_sub, add_comm n.toInt]
  refine ⟨fun m n hmn => ?_, fun n hn => ?_, fun n val' heq => ?_, fun n => ?_, fun n => ?_⟩
  · obtain ⟨a, ha, hab⟩ := hrot val m
    obtain ⟨b, hb, hbb⟩ := hrot a n
    obtain ⟨c, hc, hcb⟩ := hrot val (m + n)
    have hadd : (m + n).toInt = m.toInt + n.toInt := BitVec.toInt_add_of_not_saddOverflow (by simp [hmn])
    refine ⟨a, b, ha, hb, hc.trans (congrArg some (BitVec.eq_of_getLsbD_eq fun i _ => ?_))⟩
    rw [hcb, hadd, hcomp m n a b hab hbb]
  · obtain ⟨a, ha, hab⟩ := hrot val n
    obtain ⟨b, hb, hbb⟩ := hrot a (-n)
    have hneg : (-n).toInt = -n.toInt := BitVec.toInt_neg_of_not_negOverflow (by simp [hn])
    refine ⟨a, b, ha, hb, eq_low fun i => ?_⟩
    rw [hcomp n (-n) a b hab hbb, hneg, add_neg_cancel, sub_zero]
    by_cases hi : i < width.toNat
    · rw [Int.emod_eq_of_lt (by omega) (by omega), Int.toNat_natCast]
    · simp [hi]
  · obtain ⟨a, ha, hab⟩ := hrot val n
    obtain ⟨b, hb, hbb⟩ := hrot val' n
    refine ha.trans ((congrArg some (BitVec.eq_of_getLsbD_eq fun i _ => ?_)).trans hb.symm)
    have hhigh := Int.emod_lt_of_pos ((i : Int) - n.toInt) hwpos
    rw [hab, hbb, getLsbD_of_low heq (by omega)]
  · obtain ⟨a, ha, hab⟩ := hrot val n
    exact ⟨a, ha, lt_of_bits hab⟩
  · obtain ⟨a, ha, hab⟩ := nm2Shift_spec hpos hle val n
    refine ⟨a, ha, lt_of_bits hab, fun i hi => by rw [hab, decide_eq_true hi, Bool.true_and],
      fun hbig => BitVec.eq_of_getLsbD_eq fun i _ => ?_⟩
    rw [hab, show (0 : Word).getLsbD i = false from BitVec.getLsbD_zero, bitAt]
    rcases abs_cases n.toInt with h | h <;>
      · by_cases hi : i < width.toNat
        · rw [decide_eq_false (by omega : ¬ (0 ≤ (i : Int) - n.toInt ∧ (i : Int) - n.toInt < width.toNat)),
            Bool.false_and, Bool.and_false]
        · simp [hi]

theorem rotate_shift_laws_byte :
    nm2Rotate 0x81 1 8 = some 3 ∧ nm2Rotate 0x81 (BitVec.intMin 64) 8 = some 0x81 ∧
      nm2Shift 0x81 (BitVec.intMin 64) 8 = some 0 ∧
      ∀ n : Word, ∃ a, nm2Rotate 0x81 n 8 = some a ∧ a.toNat < 2 ^ 8 :=
  ⟨by decide, by decide, by decide,
    (rotate_shift_laws 8 0x81 (by decide) (by decide)).2.2.2.1⟩

end NewM2.BitOps
