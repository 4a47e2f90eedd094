import Mathlib
import NewM2.Lib.Limbs
import NewM2.Lib.Rounding

/-!
# Money (`library/winrtmod/Money.mod`)

An amount is an INTEGER that counts ten-thousandths. `mul` and `div` go through a number of 128 bits in
four limbs of 32, each in a CARDINAL, so that a product of limbs and the carries have room. The three
primitives are specified by the value of the limbs: `mulPrim_value`, `addPrim_value`, `divPrim_value`.
CARDINAL and INTEGER wrap around. -/

namespace NewM2.Winrt.Money
open Limbs Rounding

/-- CARDINAL; INTEGER where it is read with `toInt`. -/
abbrev Word := BitVec 64

def scale : Word := 10000

def half : Word := 5000

def magU (x : Word) : Word := if x.toInt < 0 then -(x + 1) + 1 else x

def signed (mag : Word) (neg : Bool) : Word := if neg then -mag else mag

/-! ## Limb arithmetic -/

def lowHalf (x : Word) : Word := x &&& 0xFFFFFFFF

def highHalf (x : Word) : Word := x >>> 32

/-- The WHILE loop of `MulPrim`. -/
def carryOn (r : List Word) (carry : Word) (ri : Nat) : List Word :=
  if carry ≠ 0 ∧ ri ≤ 3 then
    let temp := r.getD ri 0 + carry
    carryOn (r.set ri (lowHalf temp)) (highHalf temp) (ri + 1)
  else r
termination_by 4 - ri

/-- The body of the two FOR loops of `MulPrim`. -/
def mulStep (a1 b1 r : List Word) (ai bi : Nat) : List Word :=
  let ri := ai + bi
  let temp := a1.getD ai 0 * b1.getD bi 0 + r.getD ri 0
  carryOn (r.set ri (lowHalf temp)) (highHalf temp) (ri + 1)

def mulPrim (a b : Word) : List Word :=
  let a1 := [lowHalf a, highHalf a]
  let b1 := [lowHalf b, highHalf b]
  [0, 1].foldl (fun r ai => [0, 1].foldl (fun r bi => mulStep a1 b1 r ai bi) r) [0, 0, 0, 0]

def addPrim (r : List Word) (v : Word) : List Word :=
  let temp₀ := r.getD 0 0 + lowHalf v
  let temp₁ := r.getD 1 0 + highHalf v + highHalf temp₀
  let temp₂ := r.getD 2 0 + highHalf temp₁
  let temp₃ := r.getD 3 0 + highHalf temp₂
  [lowHalf temp₀, lowHalf temp₁, lowHalf temp₂, lowHalf temp₃]

/-- The loop of `DivPrim`: the bits below `bit` are still to come. -/
def divLoop (r : List Word) (divisor : Word) : Nat → Word → Word → Word
  | 0, q, _ => q
  | bit + 1, q, rem =>
    let bitval := (r.getD (bit / 32) 0 >>> (bit % 32)) &&& 1
    let rem := rem <<< 1 ||| bitval
    let q := q <<< 1
    if divisor ≤ rem then divLoop r divisor bit (q ||| 1) (rem - divisor)
    else divLoop r divisor bit q rem

def divPrim (r : List Word) (divisor : Word) : Word :=
  if divisor = 0 then 0 else divLoop r divisor 128 0 0

def mul (a b : Word) : Word :=
  let neg := decide (a.toInt < 0) != decide (b.toInt < 0)
  signed (divPrim (addPrim (mulPrim (magU a) (magU b)) half) scale) neg

def div (a b : Word) : Word :=
  if b = 0 then 0
  else
    let neg := decide (a.toInt < 0) != decide (b.toInt < 0)
    signed (divPrim (mulPrim (magU a) scale) (magU b)) neg

/-! ## Words -/

theorem magU_toNat (x : Word) : (magU x).toNat = x.toInt.natAbs := by
  have hlt := x.isLt
  rw [magU]
  split_ifs with h
  · -- the sum does not wrap: x is not 0
    have hneg : -(x + 1) + 1 = -x := by ring
    rw [hneg, BitVec.toNat_neg]
    rw [BitVec.toInt_eq_toNat_cond] at h ⊢
    split_ifs at h ⊢ <;> omega
  · rw [BitVec.toInt_eq_toNat_cond] at h ⊢
    split_ifs at h ⊢ <;> omega

theorem magU_le (x : Word) : (magU x).toNat ≤ 2 ^ 63 := by
  have hlow := BitVec.le_toInt x
  have hhigh := BitVec.toInt_lt (x := x)
  rw [magU_toNat]
  omega

/-- A magnitude with a sign, where the result is an INTEGER. -/
theorem signed_toInt {mag : Word} {neg : Bool} {z : Int} (hz : z = if neg then -(mag.toNat : Int) else mag.toNat)
    (hlow : -2 ^ 63 ≤ z) (hhigh : z < 2 ^ 63) : (signed mag neg).toInt = z := by
  have hlt := mag.isLt
  subst hz
  rw [signed]
  split_ifs at hlow hhigh ⊢ with h
  · rw [BitVec.toInt_eq_toNat_cond, BitVec.toNat_neg]
    split_ifs <;> omega
  · rw [BitVec.toInt_eq_toNat_cond]
    split_ifs <;> omega

theorem lowHalf_toNat (x : Word) : (lowHalf x).toNat = x.toNat % 2 ^ 32 := by
  rw [lowHalf, BitVec.toNat_and]
  exact Nat.and_two_pow_sub_one_eq_mod x.toNat 32

theorem highHalf_toNat (x : Word) : (highHalf x).toNat = x.toNat / 2 ^ 32 := by
  rw [highHalf, BitVec.toNat_ushiftRight, Nat.shiftRight_eq_div_pow]

/-- `(x SHL 1) BOR b` for a bit `b`. -/
theorem shiftIn_toNat (x : Word) {b : Word} (hb : b.toNat < 2) :
    (x <<< 1 ||| b).toNat = (2 * x.toNat + b.toNat) % 2 ^ 64 := by
  have hlt := x.isLt
  have hshift : x.toNat <<< 1 % 2 ^ 64 = 2 ^ 1 * (x.toNat % 2 ^ 63) := by
    rw [Nat.shiftLeft_eq]
    omega
  rw [BitVec.toNat_or, BitVec.toNat_shiftLeft, hshift, ← Nat.two_pow_add_eq_or_of_lt (by simpa using hb)]
  omega

/-! ## The primitives -/

/-- Four limbs of 32 bits. -/
structure Small (r : List Word) : Prop where
  length : r.length = 4
  digits : Digits (2 ^ 32) r

theorem Small.value_lt {r : List Word} (h : Small r) : value (2 ^ 32) r < 2 ^ 128 := by
  have hlt := Limbs.value_lt (B := 2 ^ 32) (by decide) h.digits
  rw [h.length] at hlt
  exact hlt.trans_eq (by decide)

theorem Small.getD_lt {r : List Word} (h : Small r) (i : Nat) : (r.getD i 0).toNat < 2 ^ 32 := by
  rw [List.getD_eq_getElem?_getD]
  rcases hi : r[i]? with - | x
  · decide
  · exact h.digits x (List.mem_of_getElem? hi)

/-- Writing the low half of a word at a limb that it is to replace, and carrying the high half on. -/
theorem value_set_lowHalf {r : List Word} (hr : Small r) {i : Nat} (hi : i ≤ 3) (temp : Word) {x : Nat}
    (htemp : temp.toNat = (r.getD i 0).toNat + x) :
    Small (r.set i (lowHalf temp)) ∧
      value (2 ^ 32) (r.set i (lowHalf temp)) + (highHalf temp).toNat * (2 ^ 32) ^ (i + 1) =
        value (2 ^ 32) r + x * (2 ^ 32) ^ i := by
  have hi' : i < r.length := by rw [hr.length]; omega
  have hset := value_set (B := 2 ^ 32) (lowHalf temp) hi'
  rw [List.getD_eq_getElem _ _ hi'] at htemp
  refine ⟨⟨by rw [List.length_set, hr.length], hr.digits.set ?_⟩, ?_⟩
  · rw [lowHalf_toNat]
    exact Nat.mod_lt _ (by decide)
  · have hsplit : temp.toNat = (lowHalf temp).toNat + (highHalf temp).toNat * 2 ^ 32 := by
      rw [lowHalf_toNat, highHalf_toNat]
      omega
    have hsum : (lowHalf temp).toNat * (2 ^ 32) ^ i + (highHalf temp).toNat * (2 ^ 32) ^ (i + 1) =
        r[i].toNat * (2 ^ 32) ^ i + x * (2 ^ 32) ^ i := by
      rw [← add_mul, ← htemp, hsplit, pow_succ]
      ring
    omega

/-- The carry is added from its limb on; what is carried out of the last limb is lost. -/
theorem carryOn_value {r : List Word} (hr : Small r) (carry : Word) (ri : Nat)
    (hcarry : carry.toNat < 2 ^ 32) : Small (carryOn r carry ri) ∧
      value (2 ^ 32) (carryOn r carry ri) =
        (value (2 ^ 32) r + carry.toNat * (2 ^ 32) ^ ri) % 2 ^ 128 := by
  induction r, carry, ri using carryOn.induct with
  | case1 r carry ri hcond temp ih =>
    rw [carryOn, if_pos hcond]
    have hlimb := hr.getD_lt ri
    have htemp : temp.toNat = (r.getD ri 0).toNat + carry.toNat := by
      rw [BitVec.toNat_add]
      omega
    obtain ⟨hsmall, hvalue⟩ := value_set_lowHalf hr hcond.2 temp htemp
    have hhigh : (highHalf temp).toNat < 2 ^ 32 := by
      rw [highHalf_toNat]
      omega
    refine ⟨(ih hsmall hhigh).1, ?_⟩
    rw [(ih hsmall hhigh).2, hvalue]
  | case2 r carry ri hcond =>
    rw [carryOn, if_neg hcond]
    refine ⟨hr, ?_⟩
    rw [not_and_or, not_ne_iff] at hcond
    rcases hcond with rfl | hbig
    · rw [show (0 : Word).toNat = 0 from rfl, Nat.zero_mul, Nat.add_zero,
        Nat.mod_eq_of_lt hr.value_lt]
    · obtain ⟨k, rfl⟩ := Nat.exists_eq_add_of_le (by omega : 4 ≤ ri)
      rw [pow_add, show (2 ^ 32) ^ 4 = 2 ^ 128 by decide, mul_left_comm, Nat.add_mul_mod_self_left,
        Nat.mod_eq_of_lt hr.value_lt]

/-- One product of limbs is added at its place. -/
theorem mulStep_value {a1 b1 r : List Word} (hr : Small r) (ai bi : Nat) (hi : ai + bi ≤ 3)
    (ha : (a1.getD ai 0).toNat < 2 ^ 32) (hb : (b1.getD bi 0).toNat < 2 ^ 32) :
    Small (mulStep a1 b1 r ai bi) ∧
      value (2 ^ 32) (mulStep a1 b1 r ai bi) = (value (2 ^ 32) r +
        (a1.getD ai 0).toNat * (b1.getD bi 0).toNat * (2 ^ 32) ^ (ai + bi)) % 2 ^ 128 := by
  have hlimb := hr.getD_lt (ai + bi)
  have hprod : (a1.getD ai 0).toNat * (b1.getD bi 0).toNat ≤ (2 ^ 32 - 1) * (2 ^ 32 - 1) :=
    Nat.mul_le_mul (by omega) (by omega)
  have htemp : (a1.getD ai 0 * b1.getD bi 0 + r.getD (ai + bi) 0).toNat =
      (r.getD (ai + bi) 0).toNat + (a1.getD ai 0).toNat * (b1.getD bi 0).toNat := by
    rw [BitVec.toNat_add, BitVec.toNat_mul, Nat.mod_add_mod, Nat.mod_eq_of_lt (by omega), Nat.add_comm]
  obtain ⟨hsmall, hvalue⟩ := value_set_lowHalf hr hi _ htemp
  obtain ⟨hs, hv⟩ := carryOn_value hsmall (highHalf (a1.getD ai 0 * b1.getD bi 0 + r.getD (ai + bi) 0))
    (ai + bi + 1) (by
      rw [highHalf_toNat]
      have := (a1.getD ai 0 * b1.getD bi 0 + r.getD (ai + bi) 0).isLt
      omega)
  exact ⟨hs, by rw [mulStep, hv, hvalue]⟩

theorem mulPrim_value (a b : Word) :
    Small (mulPrim a b) ∧ value (2 ^ 32) (mulPrim a b) = a.toNat * b.toNat := by
  have hlow : ∀ x : Word, (lowHalf x).toNat < 2 ^ 32 := fun x => by
    rw [lowHalf_toNat]
    exact Nat.mod_lt _ (by decide)
  have hhigh : ∀ x : Word, (highHalf x).toNat < 2 ^ 32 := fun x => by
    have := x.isLt
    rw [highHalf_toNat]
    omega
  have hlt : a.toNat * b.toNat < 2 ^ 128 :=
    (Nat.mul_lt_mul'' a.isLt b.isLt).trans_eq (by decide)
  have hzero : Small ([0, 0, 0, 0] : List Word) := ⟨rfl, fun x hx => by
    obtain rfl : x = 0 := by simpa using hx
    decide⟩
  obtain ⟨h₁, v₁⟩ := @mulStep_value [lowHalf a, highHalf a] [lowHalf b, highHalf b] _ hzero 0 0
    (by decide) (hlow a) (hlow b)
  obtain ⟨h₂, v₂⟩ := @mulStep_value [lowHalf a, highHalf a] [lowHalf b, highHalf b] _ h₁ 0 1
    (by decide) (hlow a) (hhigh b)
  obtain ⟨h₃, v₃⟩ := @mulStep_value [lowHalf a, highHalf a] [lowHalf b, highHalf b] _ h₂ 1 0
    (by decide) (hhigh a) (hlow b)
  obtain ⟨h₄, v₄⟩ := @mulStep_value [lowHalf a, highHalf a] [lowHalf b, highHalf b] _ h₃ 1 1
    (by decide) (hhigh a) (hhigh b)
  refine ⟨h₄, v₄.trans ?_⟩
  have hsplit : ∀ x : Word, x.toNat = (lowHalf x).toNat + (highHalf x).toNat * 2 ^ 32 := fun x => by
    rw [lowHalf_toNat, highHalf_toNat]
    omega
  simp only [v₃, v₂, v₁, Nat.mod_add_mod, List.getD_cons_zero, List.getD_cons_succ]
  rw [← Nat.mod_eq_of_lt hlt, hsplit a, hsplit b]
  congr 1
  simp only [value_cons, value_nil, show (0 : Word).toNat = 0 from rfl]
  ring

/-- The sum, where it fits. -/
theorem addPrim_value {r : List Word} (hr : Small r) (v : Word)
    (hlt : value (2 ^ 32) r + v.toNat < 2 ^ 128) :
    Small (addPrim r v) ∧ value (2 ^ 32) (addPrim r v) = value (2 ^ 32) r + v.toNat := by
  obtain ⟨r₀, r₁, r₂, r₃, rfl⟩ : ∃ r₀ r₁ r₂ r₃, r = [r₀, r₁, r₂, r₃] := List.length_eq_four.1 hr.length
  have hd := hr.digits
  simp only [Digits, List.forall_mem_cons, List.not_mem_nil, false_implies, implies_true,
    and_true] at hd
  obtain ⟨h₀, h₁, h₂, h₃⟩ := hd
  have hv := v.isLt
  -- no sum of limbs and carry wraps
  have t₀ : (r₀ + lowHalf v).toNat = r₀.toNat + v.toNat % 2 ^ 32 := by
    rw [BitVec.toNat_add, lowHalf_toNat]
    omega
  have t₁ : (r₁ + highHalf v + highHalf (r₀ + lowHalf v)).toNat =
      r₁.toNat + v.toNat / 2 ^ 32 + (r₀ + lowHalf v).toNat / 2 ^ 32 := by
    rw [BitVec.toNat_add, BitVec.toNat_add, highHalf_toNat, highHalf_toNat]
    omega
  have t₂ : (r₂ + highHalf (r₁ + highHalf v + highHalf (r₀ + lowHalf v))).toNat =
      r₂.toNat + (r₁ + highHalf v + highHalf (r₀ + lowHalf v)).toNat / 2 ^ 32 := by
    rw [BitVec.toNat_add, highHalf_toNat]
    omega
  have t₃ : (r₃ + highHalf (r₂ + highHalf (r₁ + highHalf v + highHalf (r₀ + lowHalf v)))).toNat =
      r₃.toNat + (r₂ + highHalf (r₁ + highHalf v + highHalf (r₀ + lowHalf v))).toNat / 2 ^ 32 := by
    rw [BitVec.toNat_add, highHalf_toNat]
    omega
  simp only [value_cons, value_nil] at hlt ⊢
  simp only [addPrim, List.getD_cons_zero, List.getD_cons_succ]
  refine ⟨⟨rfl, ?_⟩, ?_⟩
  · simp only [Digits, List.forall_mem_cons, List.not_mem_nil, false_implies, implies_true, and_true,
      lowHalf_toNat]
    exact ⟨Nat.mod_lt _ (by decide), Nat.mod_lt _ (by decide), Nat.mod_lt _ (by decide),
      Nat.mod_lt _ (by decide)⟩
  · simp only [value_cons, value_nil, lowHalf_toNat, t₃]
    omega

/-- A bit of the number is a bit of a limb. -/
theorem limb_bit {r : List Word} (hr : Small r) {bit : Nat} (hbit : bit < 128) :
    (((r.getD (bit / 32) 0 >>> (bit % 32)) &&& 1 : Word)).toNat = value (2 ^ 32) r / 2 ^ bit % 2 := by
  have hi : bit / 32 < r.length := by rw [hr.length]; omega
  have hpow : (2 : Nat) ^ bit = (2 ^ 32) ^ (bit / 32) * 2 ^ (bit % 32) := by
    rw [← pow_mul, ← pow_add, Nat.div_add_mod]
  have hand : ∀ x : Word, (x &&& 1).toNat = x.toNat % 2 := fun x => by
    rw [BitVec.toNat_and]
    exact Nat.and_one_is_mod x.toNat
  rw [hand, BitVec.toNat_ushiftRight, Nat.shiftRight_eq_div_pow, List.getD_eq_getElem _ _ hi,
    getElem_toNat (by decide) hr.digits hi, hpow, ← Nat.div_div_eq_div_mul]
  generalize value (2 ^ 32) r / (2 ^ 32) ^ (bit / 32) = q
  -- the low 32 bits have the bit
  obtain ⟨k, hk⟩ := Nat.exists_eq_add_of_le (by omega : bit % 32 + 1 ≤ 32)
  generalize bit % 32 = pos at hk ⊢
  rw [hk, pow_add, pow_succ, mul_assoc, Nat.mod_mul_right_div_self, Nat.mod_mul_right_mod]

/-- The restoring division: the remainder stays below the divisor and does not overflow. -/
theorem divLoop_value {r : List Word} (hr : Small r) {divisor : Word} (hpos : 0 < divisor.toNat)
    (hle : divisor.toNat ≤ 2 ^ 63) {bit : Nat} (hbit : bit ≤ 128) (q rem : Word)
    (hq : q.toNat = value (2 ^ 32) r / 2 ^ bit / divisor.toNat % 2 ^ 64)
    (hrem : rem.toNat = value (2 ^ 32) r / 2 ^ bit % divisor.toNat) :
    (divLoop r divisor bit q rem).toNat = value (2 ^ 32) r / divisor.toNat % 2 ^ 64 := by
  induction bit generalizing q rem with
  | zero => rw [divLoop, hq, pow_zero, Nat.div_one]
  | succ bit ih =>
    have hb := limb_bit hr (by omega : bit < 128)
    have hstep : value (2 ^ 32) r / 2 ^ bit = 2 * (value (2 ^ 32) r / 2 ^ (bit + 1)) +
        value (2 ^ 32) r / 2 ^ bit % 2 := by
      rw [Nat.pow_succ 2 bit, ← Nat.div_div_eq_div_mul]
      omega
    rw [← hb] at hstep
    rw [divLoop]
    generalize (r.getD (bit / 32) 0 >>> (bit % 32)) &&& 1 = bitval at hb hstep
    generalize value (2 ^ 32) r / 2 ^ (bit + 1) = top at hq hrem hstep
    have hblt : bitval.toNat < 2 := by
      rw [hb]
      exact Nat.mod_lt _ (by decide)
    have hremlt : rem.toNat < divisor.toNat := by
      rw [hrem]
      exact Nat.mod_lt _ hpos
    have hshift : (rem <<< 1 ||| bitval).toNat = 2 * rem.toNat + bitval.toNat := by
      rw [shiftIn_toNat rem hblt, Nat.mod_eq_of_lt (by omega)]
    have hq₁ : (q <<< 1 ||| 1).toNat = (2 * q.toNat + 1) % 2 ^ 64 := shiftIn_toNat q (by decide)
    have hq₀ : (q <<< 1).toNat = (2 * q.toNat) % 2 ^ 64 := by
      rw [BitVec.toNat_shiftLeft, Nat.shiftLeft_eq, pow_one, Nat.mul_comm]
    -- the quotient and the remainder of the next prefix
    have htop : divisor.toNat * (top / divisor.toNat) + rem.toNat = top := by
      rw [hrem]
      exact Nat.div_add_mod top divisor.toNat
    by_cases hge : divisor ≤ rem <<< 1 ||| bitval
    · have hge' : divisor.toNat ≤ 2 * rem.toNat + bitval.toNat := hshift ▸ hge
      have hsub : ((rem <<< 1 ||| bitval) - divisor).toNat =
          2 * rem.toNat + bitval.toNat - divisor.toNat := by
        rw [BitVec.toNat_sub_of_le hge, hshift]
      obtain ⟨hdiv, hmod⟩ := (Nat.div_mod_unique (a := 2 * top + bitval.toNat)
        (c := 2 * rem.toNat + bitval.toNat - divisor.toNat) (d := 2 * (top / divisor.toNat) + 1)
        hpos).2 ⟨by rw [mul_add, mul_left_comm]; omega, by omega⟩
      rw [if_pos hge]
      refine ih (by omega) _ _ ?_ ?_
      · rw [hstep, hdiv, hq₁, hq]
        omega
      · rw [hstep, hmod, hsub]
    · have hlt' : 2 * rem.toNat + bitval.toNat < divisor.toNat := by
        rw [← hshift]
        exact Nat.not_le.1 hge
      obtain ⟨hdiv, hmod⟩ := (Nat.div_mod_unique (a := 2 * top + bitval.toNat)
        (c := 2 * rem.toNat + bitval.toNat) (d := 2 * (top / divisor.toNat))
        hpos).2 ⟨by rw [mul_left_comm]; omega, hlt'⟩
      rw [if_neg hge]
      refine ih (by omega) _ _ ?_ ?_
      · rw [hstep, hdiv, hq₀, hq]
        omega
      · rw [hstep, hmod, hshift]

theorem divPrim_value {r : List Word} (hr : Small r) {divisor : Word} (hpos : 0 < divisor.toNat)
    (hle : divisor.toNat ≤ 2 ^ 63) :
    (divPrim r divisor).toNat = value (2 ^ 32) r / divisor.toNat % 2 ^ 64 := by
  have hne : divisor ≠ 0 := by
    rintro rfl
    exact absurd hpos (by decide)
  have hzero : value (2 ^ 32) r / 2 ^ 128 = 0 := Nat.div_eq_of_lt hr.value_lt
  rw [divPrim, if_neg hne]
  exact divLoop_value hr hpos hle le_rfl 0 0 (by rw [hzero, Nat.zero_div]; rfl)
    (by rw [hzero, Nat.zero_mod]; rfl)

/-! ## Products and quotients -/

/-- The sign that `Mul` and `Div` compute. -/
def isNeg (a b : Word) : Bool := decide (a.toInt < 0) != decide (b.toInt < 0)

/-- A number by its sign and magnitude. -/
theorem cast_toInt (a : Word) :
    (a.toInt : ℚ) = if a.toInt < 0 then -(a.toInt.natAbs : ℚ) else a.toInt.natAbs := by
  have habs : (a.toInt.natAbs : ℚ) = |(a.toInt : ℚ)| := by
    rw [Nat.cast_natAbs, Int.cast_abs]
  rw [habs]
  split_ifs with h
  · rw [abs_of_neg (by exact_mod_cast h), neg_neg]
  · rw [abs_of_nonneg (by exact_mod_cast not_lt.1 h)]

theorem mul_eq (a b : Word) : (a.toInt * b.toInt : ℚ) =
    if isNeg a b then -((a.toInt.natAbs * b.toInt.natAbs : Nat) : ℚ)
    else (a.toInt.natAbs * b.toInt.natAbs : Nat) := by
  rw [cast_toInt a, cast_toInt b, isNeg]
  by_cases ha : a.toInt < 0 <;> by_cases hb : b.toInt < 0 <;> simp [ha, hb]

theorem div_eq (a b : Word) : (a.toInt * 10000 / b.toInt : ℚ) =
    if isNeg a b then -(((a.toInt.natAbs * 10000 : Nat) : ℚ) / b.toInt.natAbs)
    else ((a.toInt.natAbs * 10000 : Nat) : ℚ) / b.toInt.natAbs := by
  rw [cast_toInt a, cast_toInt b, isNeg]
  by_cases ha : a.toInt < 0 <;> by_cases hb : b.toInt < 0 <;>
    simp [ha, hb, neg_div, div_neg]

/-- A quotient that is computed on magnitudes, where the result is an INTEGER. -/
theorem signed_quotient {q : Word} (neg : Bool) {n : Nat} {z : Int} (hq : q.toNat = n % 2 ^ 64)
    (hz : z = if neg then -(n : Int) else n) (hlow : -2 ^ 63 ≤ z) (hhigh : z < 2 ^ 63) :
    (signed q neg).toInt = z := by
  have hn : n < 2 ^ 64 := by
    subst hz
    split_ifs at hlow hhigh <;> omega
  rw [Nat.mod_eq_of_lt hn] at hq
  exact signed_toInt (hq ▸ hz) hlow hhigh

/-- The operands and results of the primitives in `Mul`. -/
theorem mul_primitives (a b : Word) :
    value (2 ^ 32) (mulPrim (magU a) (magU b)) = a.toInt.natAbs * b.toInt.natAbs ∧
      value (2 ^ 32) (addPrim (mulPrim (magU a) (magU b)) half) =
        a.toInt.natAbs * b.toInt.natAbs + 5000 ∧
      (divPrim (addPrim (mulPrim (magU a) (magU b)) half) scale).toNat =
        (a.toInt.natAbs * b.toInt.natAbs + 5000) / 10000 % 2 ^ 64 := by
  obtain ⟨hs, hv⟩ := mulPrim_value (magU a) (magU b)
  have hle : (magU a).toNat * (magU b).toNat ≤ 2 ^ 63 * 2 ^ 63 :=
    Nat.mul_le_mul (magU_le a) (magU_le b)
  obtain ⟨hs', hv'⟩ := addPrim_value hs half (by
    rw [hv, show half.toNat = 5000 from rfl]
    omega)
  rw [hv, show half.toNat = 5000 from rfl, magU_toNat, magU_toNat] at hv'
  refine ⟨by rw [hv, magU_toNat, magU_toNat], hv', ?_⟩
  rw [divPrim_value hs' (by decide) (by decide), hv']
  rfl

/-- The operands and results of the primitives in `Div`. -/
theorem div_primitives (a b : Word) (hb : b.toInt ≠ 0) :
    value (2 ^ 32) (mulPrim (magU a) scale) = a.toInt.natAbs * 10000 ∧
      (divPrim (mulPrim (magU a) scale) (magU b)).toNat =
        a.toInt.natAbs * 10000 / b.toInt.natAbs % 2 ^ 64 := by
  obtain ⟨hs, hv⟩ := mulPrim_value (magU a) scale
  rw [magU_toNat, show scale.toNat = 10000 from rfl] at hv
  refine ⟨hv, ?_⟩
  rw [divPrim_value hs (by rw [magU_toNat]; omega) (magU_le b), hv, magU_toNat]

/-- `z` is representable as Money. -/
def IsMoney (z : Int) : Prop := -2 ^ 63 ≤ z ∧ z < 2 ^ 63

theorem mul_toInt (a b : Word) (h : IsMoney (roundAway (a.toInt * b.toInt / 10000 : ℚ))) :
    (mul a b).toInt = roundAway (a.toInt * b.toInt / 10000 : ℚ) := by
  refine signed_quotient (isNeg a b) (mul_primitives a b).2.2 ?_ h.1 h.2
  have hround : ∀ n : Nat, roundAway ((n : ℚ) / 10000) = ((n + 5000) / 10000 : Nat) := fun n => by
    have h := roundAway_div n (d := 10000) (by decide)
    rw [show (2 * n + 10000) / (2 * 10000) = (n + 5000) / 10000 by omega] at h
    exact_mod_cast h
  rw [mul_eq]
  split_ifs
  · rw [neg_div, roundAway_neg, hround]
  · rw [hround]

theorem div_toInt (a b : Word) (hb : b.toInt ≠ 0)
    (h : IsMoney (truncate (a.toInt * 10000 / b.toInt : ℚ))) :
    (div a b).toInt = truncate (a.toInt * 10000 / b.toInt : ℚ) := by
  have hne : b ≠ 0 := by
    rintro rfl
    exact hb rfl
  rw [div, if_neg hne]
  refine signed_quotient (isNeg a b) (div_primitives a b hb).2 ?_ h.1 h.2
  rw [div_eq]
  split_ifs
  · rw [truncate_neg, truncate_div]
  · rw [truncate_div]

/-- `Mul` rounds to nearest, ties away from zero, and `Div` truncates; the primitives are exact on what
they are given. -/
theorem mul_div_exact (a b : Word) :
    (IsMoney (roundAway (a.toInt * b.toInt / 10000 : ℚ)) →
      (mul a b).toInt = roundAway (a.toInt * b.toInt / 10000 : ℚ)) ∧
    (b.toInt ≠ 0 → IsMoney (truncate (a.toInt * 10000 / b.toInt : ℚ)) →
      (div a b).toInt = truncate (a.toInt * 10000 / b.toInt : ℚ)) ∧
    -- the operands of `Mul`
    value (2 ^ 32) (mulPrim (magU a) (magU b)) = (magU a).toNat * (magU b).toNat ∧
    value (2 ^ 32) (addPrim (mulPrim (magU a) (magU b)) half) =
      value (2 ^ 32) (mulPrim (magU a) (magU b)) + half.toNat ∧
    (divPrim (addPrim (mulPrim (magU a) (magU b)) half) scale).toNat =
      value (2 ^ 32) (addPrim (mulPrim (magU a) (magU b)) half) / scale.toNat % 2 ^ 64 ∧
    -- the operands of `Div`
    value (2 ^ 32) (mulPrim (magU a) scale) = (magU a).toNat * scale.toNat ∧
    (b.toInt ≠ 0 → (divPrim (mulPrim (magU a) scale) (magU b)).toNat =
      value (2 ^ 32) (mulPrim (magU a) scale) / (magU b).toNat % 2 ^ 64) := by
  obtain ⟨hmul, hadd, hdiv⟩ := mul_primitives a b
  refine ⟨mul_toInt a b, div_toInt a b, ?_, ?_, ?_, ?_, fun hb => ?_⟩
  · rw [hmul, magU_toNat, magU_toNat]
  · rw [hadd, hmul]
    rfl
  · rw [hdiv, hadd]
    rfl
  · rw [(div_primitives a 1 (by decide)).1, magU_toNat]
    rfl
  · rw [(div_primitives a b hb).2, (div_primitives a b hb).1, magU_toNat]

/-- The least amount times 1.0000, and divided by it. -/
theorem mul_div_exact_min :
    (mul (BitVec.intMin 64) 10000).toInt = -2 ^ 63 ∧ (div (BitVec.intMin 64) 10000).toInt = -2 ^ 63 := by
  have hround : roundAway (((BitVec.intMin 64).toInt * (10000 : Word).toInt / 10000 : ℚ)) = -2 ^ 63 := by
    norm_num [roundAway, show (BitVec.intMin 64).toInt = -2 ^ 63 by decide,
      show (10000 : Word).toInt = 10000 by decide]
  have htrunc : truncate (((BitVec.intMin 64).toInt * 10000 / (10000 : Word).toInt : ℚ)) = -2 ^ 63 := by
    norm_num [truncate, show (BitVec.intMin 64).toInt = -2 ^ 63 by decide,
      show (10000 : Word).toInt = 10000 by decide]
  have h := mul_div_exact (BitVec.intMin 64) 10000
  exact ⟨(h.1 (by rw [hround]; constructor <;> decide)).trans hround,
    (h.2.1 (by decide) (by rw [htrunc]; constructor <;> decide)).trans htrunc⟩

end NewM2.Winrt.Money
