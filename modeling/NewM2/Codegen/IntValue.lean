import Mathlib.Algebra.Order.Ring.Int
import Mathlib.Data.Int.ModEq
import Mathlib.Tactic.Common

/-! # Integer values and operations of the code generator (`newm2-llvm/src/codegen.rs`)

An LLVM integer is a width and that many bits; it has no signedness. `emitBinary` brings its operands
to a common width by zero extension and picks one machine operation. `emitBinary_ofInt` reads each
operation as an operation on integers: which of the two readings of the bits (`read`) it uses
is decided by the opcode alone (`BinOp.signed`), the result is wrapped to its width. `none` is
undefined behaviour or rejected IR: a zero divisor, an overflowing signed division, an extension to a
narrower type. -/

namespace NewM2.Codegen

/-- An LLVM integer value. -/
structure IntValue where
  width : Nat
  bits : BitVec width
deriving Repr, DecidableEq

namespace IntValue

/-- The two's-complement word of `v`. -/
def ofInt (w : Nat) (v : Int) : IntValue := ⟨w, BitVec.ofInt w v⟩

/-- Zero extension or truncation to width `w`. -/
def resize (v : IntValue) (w : Nat) : IntValue := ⟨w, v.bits.setWidth w⟩

/-- `coerce_int`. -/
def coerceInt (v : IntValue) (target : Nat) : IntValue := v.resize target

/-- `v` is the word of the number `x`, which fits the width. -/
def Represents (v : IntValue) (x : Int) : Prop :=
  v.bits = BitVec.ofInt v.width x ∧ -2 ^ (v.width - 1) ≤ x ∧ x < 2 ^ v.width

instance (v : IntValue) (x : Int) : Decidable (v.Represents x) := inferInstanceAs (Decidable (_ ∧ _))

end IntValue

inductive CastKind
  | intTrunc | intZeroExt | intSignExt | bitCast | ordToChar | charToOrd
deriving Repr, DecidableEq

/-- `emit_cast` between integers. An extension to the same width is the identity. -/
def emitCast (kind : CastKind) (v : IntValue) (target : Nat) : Option IntValue :=
  match kind with
  | .intTrunc => if target ≤ v.width then some (v.resize target) else none
  | .intZeroExt => if v.width ≤ target then some (v.resize target) else none
  | .intSignExt => if v.width ≤ target then some ⟨target, v.bits.signExtend target⟩ else none
  | .bitCast | .ordToChar | .charToOrd => some (v.resize target)

/-- `emit_unary` on integers. -/
inductive UnaryOp
  | neg | not
deriving Repr, DecidableEq

def emitUnary : UnaryOp → IntValue → IntValue
  | .neg, v => ⟨v.width, -v.bits⟩
  | .not, v => ⟨v.width, ~~~v.bits⟩

inductive BinOp
  | add | sub | mul | div | mod | quot | rem | srem
  | eq | ne | lt | le | gt | ge | ult | ule | ugt | uge | and | or
deriving Repr, DecidableEq

section words
variable {w : Nat}

/-- A word as a number: two's complement or unsigned. -/
def read (signed : Bool) (b : BitVec w) : Int := if signed then b.toInt else b.toNat

/-- LLVM `sdiv`: undefined for a zero divisor and for the overflowing quotient. -/
def sdiv (a b : BitVec w) : Option (BitVec w) :=
  if b = 0 ∨ a = BitVec.intMin w ∧ b = -1 then none else some (a.sdiv b)

/-- LLVM `srem`, undefined where `sdiv` is. -/
def srem (a b : BitVec w) : Option (BitVec w) :=
  if b = 0 ∨ a = BitVec.intMin w ∧ b = -1 then none else some (a.srem b)

def udiv (a b : BitVec w) : Option (BitVec w) := if b = 0 then none else some (a / b)

def urem (a b : BitVec w) : Option (BitVec w) := if b = 0 then none else some (a % b)

/-- `emit_floored_div`: the truncated quotient, less one when the remainder is not zero and the signs
differ. -/
def flooredDiv (a b : BitVec w) : Option (BitVec w) :=
  (sdiv a b).map fun q =>
    let r := a - q * b
    let needAdj := r ≠ 0 ∧ (a.slt 0 ^^ b.slt 0)
    q - if needAdj then 1 else 0

/-- `emit_floored_mod`. -/
def flooredMod (a b : BitVec w) : Option (BitVec w) := (flooredDiv a b).map fun fd => a - fd * b

/-- The machine operation of an opcode at one width, and the width of its result. -/
def machineOp (a b : BitVec w) : BinOp → Option IntValue
  | .add => some ⟨w, a + b⟩
  | .sub => some ⟨w, a - b⟩
  | .mul => some ⟨w, a * b⟩
  | .div => (flooredDiv a b).map (⟨w, ·⟩)
  | .mod => (flooredMod a b).map (⟨w, ·⟩)
  | .quot => (udiv a b).map (⟨w, ·⟩)
  | .rem => (urem a b).map (⟨w, ·⟩)
  | .srem => (srem a b).map (⟨w, ·⟩)
  | .eq => some ⟨1, BitVec.ofBool (a == b)⟩
  | .ne => some ⟨1, BitVec.ofBool (a != b)⟩
  | .lt => some ⟨1, BitVec.ofBool (a.slt b)⟩
  | .le => some ⟨1, BitVec.ofBool (a.sle b)⟩
  | .gt => some ⟨1, BitVec.ofBool (b.slt a)⟩
  | .ge => some ⟨1, BitVec.ofBool (b.sle a)⟩
  | .ult => some ⟨1, BitVec.ofBool (a.ult b)⟩
  | .ule => some ⟨1, BitVec.ofBool (a.ule b)⟩
  | .ugt => some ⟨1, BitVec.ofBool (b.ult a)⟩
  | .uge => some ⟨1, BitVec.ofBool (b.ule a)⟩
  | .and => some ⟨w, a &&& b⟩
  | .or => some ⟨w, a ||| b⟩

end words

/-- `emit_binary` on integers: `coerce_int_pair` zero-extends the narrower operand. -/
def emitBinary (op : BinOp) (l r : IntValue) : Option IntValue :=
  let w := max l.width r.width
  machineOp (l.bits.setWidth w) (r.bits.setWidth w) op

/-! ## Operations on the readings -/

namespace BinOp

/-- Whether the operation takes its operands as two's-complement numbers. -/
def signed : BinOp → Bool
  | .quot | .rem | .ult | .ule | .ugt | .uge => false
  | _ => true

def isRelation : BinOp → Bool
  | .eq | .ne | .lt | .le | .gt | .ge | .ult | .ule | .ugt | .uge => true
  | _ => false

def isDivision : BinOp → Bool
  | .div | .mod | .quot | .rem | .srem => true
  | _ => false

/-- The width of the result of an operation at width `w`. -/
def resultWidth (op : BinOp) (w : Nat) : Nat := if op.isRelation then 1 else w

/-- The operation on numbers. -/
def denote (op : BinOp) (x y : Int) : Int :=
  match op with
  | .add => x + y
  | .sub => x - y
  | .mul => x * y
  | .div => x.fdiv y
  | .mod => x.fmod y
  | .quot => x.tdiv y
  | .rem | .srem => x.tmod y
  | .eq => if x = y then 1 else 0
  | .ne => if x ≠ y then 1 else 0
  | .lt | .ult => if x < y then 1 else 0
  | .le | .ule => if x ≤ y then 1 else 0
  | .gt | .ugt => if x > y then 1 else 0
  | .ge | .uge => if x ≥ y then 1 else 0
  | .and | .or => 0

/-- Undefined at width `w`: a zero divisor, or a signed division whose quotient overflows. -/
def Undefined (op : BinOp) (w : Nat) (x y : Int) : Prop :=
  op.isDivision ∧ (y = 0 ∨ op.signed ∧ x = -2 ^ (w - 1) ∧ y = -1)

instance (op : BinOp) (w : Nat) (x y : Int) : Decidable (op.Undefined w x y) :=
  inferInstanceAs (Decidable (_ ∧ _))

/-- Not one of the bitwise operations, which are used on truth values only. -/
def isArith : BinOp → Bool
  | .and | .or => false
  | _ => true

end BinOp

section words
variable {w : Nat} {a b : BitVec w}

theorem toInt_neg_one (hw : 0 < w) : (-1 : BitVec w).toInt = -1 := by
  have h : (-1 : BitVec w) = BitVec.allOnes w := BitVec.neg_one_eq_allOnes
  rw [h, BitVec.toInt_allOnes, if_pos hw]

theorem overflow_iff (hw : 0 < w) :
    (a = BitVec.intMin w ∧ b = -1) ↔ (a.toInt = -2 ^ (w - 1) ∧ b.toInt = -1) := by
  rw [← BitVec.toInt_inj, ← BitVec.toInt_inj, BitVec.toInt_intMin_of_pos hw, toInt_neg_one hw]

theorem eq_zero_iff : b = 0 ↔ b.toInt = 0 := by
  rw [← BitVec.toInt_inj]; simp

theorem sdiv_eq_ofInt (a b : BitVec w) : a.sdiv b = BitVec.ofInt w (a.toInt.tdiv b.toInt) :=
  BitVec.eq_of_toInt_eq (by rw [BitVec.toInt_sdiv, BitVec.toInt_ofInt])

theorem srem_eq_ofInt (a b : BitVec w) : a.srem b = BitVec.ofInt w (a.toInt.tmod b.toInt) := by
  rw [← BitVec.toInt_srem, BitVec.ofInt_toInt]

theorem ofInt_sub (x y : Int) : BitVec.ofInt w (x - y) = BitVec.ofInt w x - BitVec.ofInt w y := by
  rw [Int.sub_eq_add_neg, BitVec.ofInt_add, BitVec.ofInt_neg, BitVec.sub_eq_add_neg]

/-- The remainder `emit_floored_div` computes from its quotient is LLVM's `srem`. -/
theorem sub_sdiv_mul (a b : BitVec w) : a - a.sdiv b * b = a.srem b := by
  have h : a.toInt.tmod b.toInt = a.toInt - a.toInt.tdiv b.toInt * b.toInt := by
    have := Int.mul_tdiv_add_tmod a.toInt b.toInt
    rw [Int.mul_comm] at this
    omega
  rw [srem_eq_ofInt, h, ofInt_sub, BitVec.ofInt_mul, BitVec.ofInt_toInt, BitVec.ofInt_toInt,
    sdiv_eq_ofInt]

/-- Floored division from truncated division. -/
theorem fdiv_eq_tdiv_sub (x : Int) {y : Int} (hy0 : y ≠ 0) :
    x.fdiv y = x.tdiv y - if x.tmod y ≠ 0 ∧ (decide (x < 0) ^^ decide (y < 0)) then 1 else 0 := by
  have hdvd : y ∣ x ↔ x.tmod y = 0 := ⟨Int.tmod_eq_zero_of_dvd, Int.dvd_of_tmod_eq_zero⟩
  rw [Int.fdiv_eq_tdiv]
  congr 1
  by_cases hd : x.tmod y = 0
  · simp [hd, hdvd]
  · rw [if_neg (hdvd.not.2 hd)]
    rcases Int.lt_or_gt_of_ne hy0 with hy | hy
    · by_cases hx : x < 0
      · simp [hd, hx, hy, Int.sign_eq_neg_one_of_neg hy, Int.not_le.2 hx, Int.not_le.2 hy]
      · simp [hd, hx, hy, Int.not_lt.1 hx, Int.not_le.2 hy]
    · have hy' : ¬ y < 0 := by omega
      by_cases hx : x < 0
      · simp [hd, hx, hy', Int.sign_eq_one_of_pos hy, Int.not_le.2 hx, Int.le_of_lt hy]
      · simp [hx, hy', Int.not_lt.1 hx, Int.le_of_lt hy]

theorem flooredDiv_eq (hw : 0 < w) :
    flooredDiv a b = if b.toInt = 0 ∨ a.toInt = -2 ^ (w - 1) ∧ b.toInt = -1 then none
      else some (BitVec.ofInt w (a.toInt.fdiv b.toInt)) := by
  unfold flooredDiv sdiv
  simp only [overflow_iff hw, eq_zero_iff]
  split
  · rfl
  · next hdef =>
    have hr : a.srem b = 0 ↔ a.toInt.tmod b.toInt = 0 := by rw [eq_zero_iff, BitVec.toInt_srem]
    have hslt : ∀ x : BitVec w, x.slt 0 = decide (x.toInt < 0) := fun x => by simp [BitVec.slt]
    simp only [Option.map_some, sub_sdiv_mul, ne_eq, hr, hslt]
    rw [fdiv_eq_tdiv_sub _ fun h => hdef (.inl h), ofInt_sub, sdiv_eq_ofInt]
    split <;> simp [*]

theorem flooredMod_eq (hw : 0 < w) :
    flooredMod a b = if b.toInt = 0 ∨ a.toInt = -2 ^ (w - 1) ∧ b.toInt = -1 then none
      else some (BitVec.ofInt w (a.toInt.fmod b.toInt)) := by
  unfold flooredMod
  rw [flooredDiv_eq hw]
  split
  · rfl
  · have h : a.toInt.fmod b.toInt = a.toInt - a.toInt.fdiv b.toInt * b.toInt := by
      have := Int.mul_fdiv_add_fmod a.toInt b.toInt
      rw [Int.mul_comm] at this
      omega
    rw [Option.map_some, h, ofInt_sub, BitVec.ofInt_mul, BitVec.ofInt_toInt, BitVec.ofInt_toInt]

theorem udiv_eq (a b : BitVec w) :
    udiv a b = if (b.toNat : Int) = 0 then none
      else some (BitVec.ofInt w ((a.toNat : Int).tdiv b.toNat)) := by
  have hb : b = 0 ↔ (b.toNat : Int) = 0 := by rw [← BitVec.toNat_inj]; simp
  unfold udiv
  simp only [hb]
  split
  · rfl
  · rw [Option.some.injEq, ← BitVec.toNat_inj, BitVec.toNat_udiv, ← Int.ofNat_tdiv,
      BitVec.ofInt_natCast, BitVec.toNat_ofNat]
    exact (Nat.mod_eq_of_lt (Nat.lt_of_le_of_lt (Nat.div_le_self ..) a.isLt)).symm

theorem urem_eq (a b : BitVec w) :
    urem a b = if (b.toNat : Int) = 0 then none
      else some (BitVec.ofInt w ((a.toNat : Int).tmod b.toNat)) := by
  have hb : b = 0 ↔ (b.toNat : Int) = 0 := by rw [← BitVec.toNat_inj]; simp
  unfold urem
  simp only [hb]
  split
  · rfl
  · rw [Option.some.injEq, ← BitVec.toNat_inj, BitVec.toNat_umod, ← Int.ofNat_tmod,
      BitVec.ofInt_natCast, BitVec.toNat_ofNat]
    exact (Nat.mod_eq_of_lt (Nat.lt_of_le_of_lt (Nat.mod_le ..) a.isLt)).symm

theorem ofBool_eq_ofInt (p : Prop) [Decidable p] :
    BitVec.ofBool (decide p) = BitVec.ofInt 1 (if p then 1 else 0) := by
  by_cases h : p <;> simp [h]

theorem truth_eq (p : Prop) [Decidable p] :
    some (⟨1, BitVec.ofBool (decide p)⟩ : IntValue) = some (.ofInt 1 (if p then 1 else 0)) := by
  rw [ofBool_eq_ofInt]; rfl

/-- A machine operation is its integer operation on the readings of its operands. -/
theorem machineOp_eq (hw : 0 < w) (a b : BitVec w) {op : BinOp} (hop : op.isArith) :
    machineOp a b op =
      if op.Undefined w (read op.signed a) (read op.signed b) then none
      else some (.ofInt (op.resultWidth w) (op.denote (read op.signed a) (read op.signed b))) := by
  cases op with
  | add =>
    show some (⟨w, a + b⟩ : IntValue) = some ⟨w, BitVec.ofInt w (a.toInt + b.toInt)⟩
    rw [BitVec.ofInt_add, BitVec.ofInt_toInt, BitVec.ofInt_toInt]
  | sub =>
    show some (⟨w, a - b⟩ : IntValue) = some ⟨w, BitVec.ofInt w (a.toInt - b.toInt)⟩
    rw [ofInt_sub, BitVec.ofInt_toInt, BitVec.ofInt_toInt]
  | mul =>
    show some (⟨w, a * b⟩ : IntValue) = some ⟨w, BitVec.ofInt w (a.toInt * b.toInt)⟩
    rw [BitVec.ofInt_mul, BitVec.ofInt_toInt, BitVec.ofInt_toInt]
  | div =>
    simp only [machineOp, flooredDiv_eq hw, BinOp.Undefined, BinOp.isDivision, BinOp.signed, read,
      true_and, if_true]
    split <;> rfl
  | mod =>
    simp only [machineOp, flooredMod_eq hw, BinOp.Undefined, BinOp.isDivision, BinOp.signed, read,
      true_and, if_true]
    split <;> rfl
  | srem =>
    simp only [machineOp, srem, overflow_iff hw, eq_zero_iff, srem_eq_ofInt, BinOp.Undefined,
      BinOp.isDivision, BinOp.signed, read, true_and, if_true]
    split <;> rfl
  | quot =>
    simp only [machineOp, udiv_eq, BinOp.Undefined, BinOp.isDivision, BinOp.signed, read, true_and,
      Bool.false_eq_true, false_and, or_false, if_false]
    split <;> rfl
  | rem =>
    simp only [machineOp, urem_eq, BinOp.Undefined, BinOp.isDivision, BinOp.signed, read, true_and,
      Bool.false_eq_true, false_and, or_false, if_false]
    split <;> rfl
  | eq =>
    show some (⟨1, BitVec.ofBool (decide (a = b))⟩ : IntValue) =
      some (.ofInt 1 (if a.toInt = b.toInt then 1 else 0))
    simp only [truth_eq, BitVec.toInt_inj]
  | ne =>
    show some (⟨1, BitVec.ofBool (!decide (a = b))⟩ : IntValue) =
      some (.ofInt 1 (if a.toInt ≠ b.toInt then 1 else 0))
    rw [← decide_not, truth_eq]
    simp only [ne_eq, BitVec.toInt_inj]
  | lt => exact truth_eq (a.toInt < b.toInt)
  | le => exact truth_eq (a.toInt ≤ b.toInt)
  | gt => exact truth_eq (b.toInt < a.toInt)
  | ge => exact truth_eq (b.toInt ≤ a.toInt)
  | ult =>
    show some (⟨1, BitVec.ofBool (decide (a.toNat < b.toNat))⟩ : IntValue) =
      some (.ofInt 1 (if (a.toNat : Int) < b.toNat then 1 else 0))
    simp only [truth_eq, Nat.cast_lt]
  | ule =>
    show some (⟨1, BitVec.ofBool (decide (a.toNat ≤ b.toNat))⟩ : IntValue) =
      some (.ofInt 1 (if (a.toNat : Int) ≤ b.toNat then 1 else 0))
    simp only [truth_eq, Nat.cast_le]
  | ugt =>
    show some (⟨1, BitVec.ofBool (decide (b.toNat < a.toNat))⟩ : IntValue) =
      some (.ofInt 1 (if (b.toNat : Int) < a.toNat then 1 else 0))
    simp only [truth_eq, Nat.cast_lt]
  | uge =>
    show some (⟨1, BitVec.ofBool (decide (b.toNat ≤ a.toNat))⟩ : IntValue) =
      some (.ofInt 1 (if (b.toNat : Int) ≤ a.toNat then 1 else 0))
    simp only [truth_eq, Nat.cast_le]
  | and | or => cases hop

end words

/-- How an operation at width `w` reads an operand of width `wl` that is the word of `v`. -/
def readAs (signed : Bool) (w wl : Nat) (v : Int) : Int :=
  if signed then (v % 2 ^ wl).bmod (2 ^ w) else v % 2 ^ wl

theorem read_resize (signed : Bool) {w wl : Nat} (h : wl ≤ w) (v : Int) :
    read signed (((BitVec.ofInt wl v)).setWidth w) = readAs signed w wl v := by
  have hnat : (((BitVec.ofInt wl v).setWidth w).toNat : Int) = v % 2 ^ wl := by
    rw [BitVec.toNat_setWidth_of_le h, BitVec.toNat_ofInt]
    push_cast
    exact Int.toNat_of_nonneg (Int.emod_nonneg _ (pow_ne_zero _ (by decide)))
  cases signed with
  | false => simpa [read, readAs] using hnat
  | true =>
    simp only [read, readAs, if_true]
    rw [BitVec.toInt_eq_toNat_bmod, hnat]

/-- `emitBinary` on the words of two numbers: the integer operation on the readings at the common
width. -/
theorem emitBinary_ofInt {op : BinOp} (hop : op.isArith) {wl wr : Nat} (hw : 0 < max wl wr)
    (a b : Int) :
    emitBinary op (.ofInt wl a) (.ofInt wr b) =
      let w := max wl wr
      let x := readAs op.signed w wl a
      let y := readAs op.signed w wr b
      if op.Undefined w x y then none else some (.ofInt (op.resultWidth w) (op.denote x y)) := by
  simp only [emitBinary, IntValue.ofInt]
  rw [machineOp_eq hw _ _ hop, read_resize _ (le_max_left ..), read_resize _ (le_max_right ..)]
  rfl

/-- An unsigned number is read as itself by an unsigned operation at every width. -/
theorem readAs_unsigned {w wl : Nat} {v : Int} (h₁ : 0 ≤ v) (h₂ : v < 2 ^ wl) :
    readAs false w wl v = v := by
  show v % 2 ^ wl = v
  exact Int.emod_eq_of_lt h₁ h₂

namespace IntValue

theorem ofInt_eq_iff {w : Nat} {x y : Int} :
    BitVec.ofInt w x = BitVec.ofInt w y ↔ x ≡ y [ZMOD 2 ^ w] := by
  have hx : 0 ≤ x % 2 ^ w := Int.emod_nonneg _ (pow_ne_zero _ (by decide))
  have hy : 0 ≤ y % 2 ^ w := Int.emod_nonneg _ (pow_ne_zero _ (by decide))
  rw [← BitVec.toNat_inj, BitVec.toNat_ofInt, BitVec.toNat_ofInt]
  push_cast
  rw [← Int.ofNat_inj, Int.toNat_of_nonneg hx, Int.toNat_of_nonneg hy]
  rfl

/-- Zero extension or truncation of the word of `x`. -/
theorem resize_ofInt (w target : Nat) (x : Int) :
    (ofInt w x).resize target = ofInt target (x % 2 ^ w) := by
  have hnat : ((BitVec.ofInt w x).toNat : Int) = x % 2 ^ w := by
    rw [BitVec.toNat_ofInt]
    push_cast
    exact Int.toNat_of_nonneg (Int.emod_nonneg _ (pow_ne_zero _ (by decide)))
  show (⟨target, (BitVec.ofInt w x).setWidth target⟩ : IntValue) = ⟨target, BitVec.ofInt target _⟩
  rw [← hnat, BitVec.ofInt_natCast, BitVec.ofNat_toNat]

theorem Represents.eq_ofInt {v : IntValue} {x : Int} (h : v.Represents x) : v = ofInt v.width x := by
  obtain ⟨w, b⟩ := v
  exact congrArg (IntValue.mk w) h.1

theorem represents_ofInt {w : Nat} {x y : Int} :
    (ofInt w x).Represents y ↔ x ≡ y [ZMOD 2 ^ w] ∧ -2 ^ (w - 1) ≤ y ∧ y < 2 ^ w :=
  and_congr_left fun _ => ofInt_eq_iff

end IntValue

end NewM2.Codegen
