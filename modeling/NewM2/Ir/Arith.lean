import Mathlib.Tactic.Linarith
import NewM2.Codegen.IntValue
import NewM2.Sema.Ordinal

/-! # Integer expressions (`newm2-ir/src/lower.rs`, `eval_binary`)

`typeOf` is the type sema assigns, `lowerExpr` the instructions the lowering emits and `Inst.eval` what
the generated code computes. The IR has no signedness: `lowerExpr` sign-extends operands typed as
narrow signed integers and picks signed or unsigned operations from the sema types and the constant
forms of the operands. `NodeOk` is the arithmetic condition at one operator under which that choice
computes the exact value; it holds where both operands are read as their own values
(`OperatorOk.of_reads`). -/

namespace NewM2.Ir
open Sema Codegen

/-! ## Expressions and their types -/

inductive BinaryOp
  | add | sub | mul | div | divKw | mod | rem | eq | ne | lt | le | gt | ge
deriving Repr, DecidableEq

inductive SignOp
  | pos | neg
deriving Repr, DecidableEq

inductive LiteralFlavor
  | default | achar | uchar
deriving Repr, DecidableEq

inductive ConstValue
  | int (n : Int)
  | char (c : Nat)
deriving Repr, DecidableEq

/-- Expressions over integer-family variables and constants. A designator is resolved to what it
names: a variable, a named constant with its folded value, or an enumeration member. -/
inductive Expr
  | integer (n : Nat)
  | char (flavor : LiteralFlavor) (c : Nat)
  | var (x : Nat) (ty : Ty)
  | const (value : ConstValue) (ty : Ty)
  | enumMember (ord : Int) (ty : Ty)
  | unary (op : SignOp) (e : Expr)
  | binary (op : BinaryOp) (l r : Expr)
deriving Repr, DecidableEq

namespace BinaryOp

def isRelation : BinaryOp → Bool
  | eq | ne | lt | le | gt | ge => true
  | _ => false

def isDivision : BinaryOp → Bool
  | div | divKw | mod | rem => true
  | _ => false

/-- The operation on numbers, as the constant folder has it: `DIV` and `MOD` floored, `/` and `REM`
truncated. -/
def exact (op : BinaryOp) (a b : Int) : Int :=
  match op with
  | add => a + b
  | sub => a - b
  | mul => a * b
  | div => a.tdiv b
  | divKw => a.fdiv b
  | mod => a.fmod b
  | rem => a.tmod b
  | eq => if a = b then 1 else 0
  | ne => if a ≠ b then 1 else 0
  | lt => if a < b then 1 else 0
  | le => if a ≤ b then 1 else 0
  | gt => if a > b then 1 else 0
  | ge => if a ≥ b then 1 else 0

end BinaryOp

def SignOp.exact : SignOp → Int → Int
  | pos, a => a
  | neg, a => -a

def ConstValue.ord : ConstValue → Int
  | int n => n
  | char c => c

def LiteralFlavor.type : LiteralFlavor → Ty
  | default => .builtin .char
  | achar => .builtin .achar
  | uchar => .builtin .uchar

namespace Expr

/-- `is_integer_literal`. -/
def isIntegerLiteral : Expr → Bool
  | integer _ => true
  | _ => false

/-- `analyse_expr`: `none` where sema reports an error. -/
def typeOf : Expr → Option Ty
  | integer _ => some (.builtin .integer)
  | char flavor _ => some flavor.type
  | var _ ty => some ty
  | const _ ty => some ty
  | enumMember _ ty => some ty
  | unary _ e =>
    match e.typeOf with
    | some ty => if ty.isNumeric then some ty else none
    | none => none
  | binary op l r =>
    match l.typeOf, r.typeOf with
    | some lty, some rty =>
      if op.isRelation then some (.builtin .boolean)
      else if ¬ lty.isNumeric ∨ ¬ rty.isNumeric then none
      else if lty.compatible rty then some lty
      else if lty.isIntegerFamily ∧ rty.isIntegerFamily then
        some (if l.isIntegerLiteral then rty else lty)
      else none
    | _, _ => none

/-- The exact value. -/
def exact (σ : Nat → Int) : Expr → Int
  | integer n => n
  | char _ c => c
  | var x _ => σ x
  | const value _ => value.ord
  | enumMember ord _ => ord
  | unary op e => op.exact (e.exact σ)
  | binary op l r => op.exact (l.exact σ) (r.exact σ)

/-- `P` holds of the expression and of all its subexpressions. -/
def All (P : Expr → Prop) : Expr → Prop
  | unary op e => P (unary op e) ∧ e.All P
  | binary op l r => P (binary op l r) ∧ l.All P ∧ r.All P
  | e => P e

end Expr

/-! ## Lowering -/

/-- The instructions emitted for an expression, as a tree of the values they use. -/
inductive Inst
  | constInt (n : Int)
  | constChar (c : Nat)
  | load (x : Nat) (width : Nat)
  | unary (op : UnaryOp) (v : Inst)
  | binary (op : BinOp) (l r : Inst)
  | cast (kind : CastKind) (v : Inst) (width : Nat)
deriving Repr, DecidableEq

/-- What the generated code computes; the slot of variable `x` holds the word of `σ x`. -/
def Inst.eval (σ : Nat → Int) : Inst → Option IntValue
  | constInt n => some (.ofInt 64 n)
  | constChar c => some (.ofInt 16 c)
  | load x width => some (.ofInt width (σ x))
  | unary op v => (v.eval σ).map (emitUnary op)
  | binary op l r => do emitBinary op (← l.eval σ) (← r.eval σ)
  | cast kind v width => do emitCast kind (← v.eval σ) width

/-- `const_int`. -/
def constInt : Expr → Option Int
  | .integer n => some n
  | .char _ c => some c
  | .unary .neg e => (constInt e).map (- ·)
  | _ => none

/-- A checked operation of the `i128` folder. -/
def checked (v : Int) : Option Int := if -2 ^ 127 ≤ v ∧ v < 2 ^ 127 then some v else none

/-- `case_label_int`. -/
def caseLabelInt : Expr → Option Int
  | .binary op l r =>
    match caseLabelInt l, caseLabelInt r with
    | some a, some b =>
      match op with
      | .add => checked (a + b)
      | .sub => checked (a - b)
      | .mul => checked (a * b)
      | _ => none
    | _, _ => none
  | .enumMember ord _ => some ord
  | .const value _ => some value.ord
  | e => constInt e

/-- `expr_is_unsigned`. -/
def exprIsUnsigned (e : Expr) : Bool :=
  let unsignedHost : Ty → Bool
    | .builtin b =>
      match b with
      | .cardinal | .longCard | .cardinal8 | .cardinal16 | .cardinal32 | .cardinal64
      | .byte | .word | .dword | .qword | .char | .achar => true
      | _ => false
    | _ => false
  match e.typeOf with
  | none => false
  | some (.subrange host lo _) => if lo < 0 then false else unsignedHost host
  | some ty => unsignedHost ty

/-- `unsigned_compatible`. -/
def unsignedCompatible (e : Expr) : Bool :=
  exprIsUnsigned e || (caseLabelInt e).any (0 ≤ ·)

/-- The test of `widen_if_signed_narrow`: the value is sign-extended to 64 bits. -/
def isSignedNarrow (e : Expr) : Bool :=
  let narrowHost : Ty → Bool
    | .builtin .integer8 | .builtin .integer16 | .builtin .integer32 => true
    | _ => false
  match e.typeOf with
  | none => false
  | some (.subrange host lo _) => if 0 ≤ lo then false else narrowHost host
  | some ty => narrowHost ty

def widenIfSignedNarrow (v : Inst) (e : Expr) : Inst :=
  if isSignedNarrow e then .cast .intSignExt v 64 else v

/-- The opcode for the unsigned path and for the signed or mixed path of `eval_binary`. -/
def selectOp (unsigned : Bool) (op : BinaryOp) : BinOp :=
  let irOp : BinOp :=
    match op with
    | .add => .add | .sub => .sub | .mul => .mul
    | .div => .quot | .divKw => .div | .mod => .mod | .rem => .rem
    | .eq => .eq | .ne => .ne | .lt => .lt | .le => .le | .gt => .gt | .ge => .ge
  if unsigned then
    match irOp with
    | .lt => .ult | .le => .ule | .gt => .ugt | .ge => .uge
    | .div => .quot | .mod => .rem
    | other => other
  else
    match irOp with
    | .rem => .srem
    | other => other

/-- The opcode `eval_binary` chooses. -/
def irOp (op : BinaryOp) (l r : Expr) : BinOp :=
  selectOp ((exprIsUnsigned l || exprIsUnsigned r) && unsignedCompatible l && unsignedCompatible r) op

/-- `eval_expr`. The division check in front of a division does not change its value. -/
def lowerExpr : Expr → Inst
  | .integer n => .constInt n
  | .char _ c => .constChar c
  | .var x ty => .load x ty.width
  | .const (.int n) _ => .constInt n
  | .const (.char c) _ => .constChar c
  | .enumMember ord _ => .constInt ord
  | .unary .pos e => lowerExpr e
  | .unary .neg e => .unary .neg (lowerExpr e)
  | .binary op l r =>
    .binary (irOp op l r) (widenIfSignedNarrow (lowerExpr l) l) (widenIfSignedNarrow (lowerExpr r) r)

/-! ## What the claim asks of one expression -/

/-- The exact value lies in the type sema assigned. -/
def InType (σ : Nat → Int) (e : Expr) : Prop := ∃ ty ∈ e.typeOf, ty.Mem (e.exact σ)

def DivisorNonzero (σ : Nat → Int) : Expr → Prop
  | .binary op _ r => op.isDivision → r.exact σ ≠ 0
  | _ => True

/-- Well-typed, no value out of its type, no zero divisor. -/
def Valid (σ : Nat → Int) (e : Expr) : Prop := e.All fun s => InType σ s ∧ DivisorNonzero σ s

/-- The lowered code computes the exact value. -/
def Computes (σ : Nat → Int) (e : Expr) : Prop :=
  ∃ v, (lowerExpr e).eval σ = some v ∧ v.Represents (e.exact σ)

/-! ## Widths and readings of the operands -/

/-- The width of the word the lowered code computes. -/
def widthOf : Expr → Nat
  | .integer _ | .enumMember _ _ | .const (.int _) _ => 64
  | .char _ _ | .const (.char _) _ => 16
  | .var _ ty => ty.width
  | .unary _ e => widthOf e
  | .binary op l r =>
    if op.isRelation then 1
    else max (if isSignedNarrow l then 64 else widthOf l) (if isSignedNarrow r then 64 else widthOf r)

/-- The width of an operand after `widen_if_signed_narrow`. -/
def operandWidth (e : Expr) : Nat := if isSignedNarrow e then 64 else widthOf e

/-- The number an operand stands for after `widen_if_signed_narrow`: its value, unless the sign
extension of a representation narrower than the type changes it. -/
def operandValue (e : Expr) (v : Int) : Int :=
  if isSignedNarrow e then v.bmod (2 ^ widthOf e) else v

/-- `x` fits a word of width `w`, signed or unsigned. -/
def Fits (w : Nat) (x : Int) : Prop := -2 ^ (w - 1) ≤ x ∧ x < 2 ^ w

/-- At an operator, with both operands read as the chosen opcode reads them at the common width, the
opcode's operation gives the exact result, without overflowing division, and the result fits. -/
def OperatorOk (σ : Nat → Int) (op : BinaryOp) (l r : Expr) : Prop :=
  let w := max (operandWidth l) (operandWidth r)
  let ir := irOp op l r
  let x := readAs ir.signed w (operandWidth l) (operandValue l (l.exact σ))
  let y := readAs ir.signed w (operandWidth r) (operandValue r (r.exact σ))
  let result := op.exact (l.exact σ) (r.exact σ)
  ¬ (ir.isDivision ∧ ir.signed ∧ x = -2 ^ (w - 1) ∧ y = -1) ∧
    ir.denote x y ≡ result [ZMOD 2 ^ ir.resultWidth w] ∧ Fits (ir.resultWidth w) result

def NodeOk (σ : Nat → Int) (e : Expr) : Prop :=
  match e with
  | .binary op l r => OperatorOk σ op l r
  | e => Fits (widthOf e) (e.exact σ)

/-! ## Correctness -/

variable {σ : Nat → Int} {e l r : Expr} {op : BinaryOp} {v : IntValue}

theorem Expr.All.self {P : Expr → Prop} (h : e.All P) : P e := by
  cases e with
  | unary | binary => exact h.1
  | _ => exact h

@[simp] theorem irOp_isArith (op : BinaryOp) (l r : Expr) : (irOp op l r).isArith := by
  unfold irOp selectOp
  cases op <;> dsimp only <;> split <;> rfl

@[simp] theorem irOp_isRelation (op : BinaryOp) (l r : Expr) :
    (irOp op l r).isRelation = op.isRelation := by
  unfold irOp selectOp
  cases op <;> dsimp only <;> split <;> rfl

@[simp] theorem irOp_isDivision (op : BinaryOp) (l r : Expr) :
    (irOp op l r).isDivision = op.isDivision := by
  unfold irOp selectOp
  cases op <;> dsimp only <;> split <;> rfl

theorem widthOf_pos : ∀ e : Expr, 0 < widthOf e
  | .integer _ | .enumMember _ _ | .const (.int _) _ => by simp [widthOf]
  | .char _ _ | .const (.char _) _ => by simp [widthOf]
  | .var _ ty => ty.width_pos
  | .unary _ e => widthOf_pos e
  | .binary op l r => by
    have hl := widthOf_pos l
    unfold widthOf
    split
    · exact one_pos
    · refine lt_max_of_lt_left ?_
      split
      · decide
      · exact hl

theorem widthOf_le : ∀ e : Expr, widthOf e ≤ 64
  | .integer _ | .enumMember _ _ | .const (.int _) _ => by simp [widthOf]
  | .char _ _ | .const (.char _) _ => by simp [widthOf]
  | .var _ ty => ty.width_le
  | .unary _ e => widthOf_le e
  | .binary op l r => by
    have hl := widthOf_le l
    have hr := widthOf_le r
    unfold widthOf
    split
    · decide
    · refine max_le ?_ ?_ <;> split <;> first | exact le_rfl | assumption

theorem operandWidth_pos (e : Expr) : 0 < operandWidth e := by
  unfold operandWidth
  split
  · decide
  · exact widthOf_pos e

theorem emitBinary_width {ir : BinOp} {a b : IntValue}
    (h : emitBinary ir a b = some v) : v.width = ir.resultWidth (max a.width b.width) := by
  cases ir <;>
    simp only [emitBinary, machineOp, Option.map_eq_some_iff, Option.some.injEq] at h <;>
    first
      | (subst h; rfl)
      | (obtain ⟨_, _, rfl⟩ := h; rfl)

theorem eval_width : ∀ {e : Expr} {v : IntValue}, (lowerExpr e).eval σ = some v → v.width = widthOf e
  | .integer _, _, h | .enumMember _ _, _, h | .const (.int _) _, _, h => by cases h; rfl
  | .char _ _, _, h | .const (.char _) _, _, h => by cases h; rfl
  | .var _ _, _, h => by cases h; rfl
  | .unary .pos e, _, h => eval_width (e := e) h
  | .unary .neg e, _, h => by
    obtain ⟨u, hu, rfl⟩ := Option.map_eq_some_iff.1 h
    show u.width = widthOf e
    exact eval_width hu
  | .binary op l r, v, h => by
    have widen : ∀ {e : Expr} {u : IntValue}, (∀ u, (lowerExpr e).eval σ = some u → u.width = widthOf e) →
        (widenIfSignedNarrow (lowerExpr e) e).eval σ = some u → u.width = operandWidth e := by
      intro e u ih hu
      unfold widenIfSignedNarrow at hu
      unfold operandWidth
      split at hu
      · next hn =>
        obtain ⟨a, _, ha⟩ := Option.bind_eq_some_iff.1 hu
        simp only [emitCast] at ha
        split at ha
        · cases ha; rw [if_pos hn]
        · cases ha
      · next hn => rw [if_neg hn]; exact ih u hu
    obtain ⟨a, ha, h⟩ := Option.bind_eq_some_iff.1 h
    obtain ⟨b, hb, h⟩ := Option.bind_eq_some_iff.1 h
    rw [emitBinary_width h, widen (fun _ => eval_width (e := l)) ha,
      widen (fun _ => eval_width (e := r)) hb, BinOp.resultWidth, irOp_isRelation]
    rfl

/-- An operand that was computed exactly, after `widen_if_signed_narrow`. -/
theorem Computes.operand (h : Computes σ e) :
    (widenIfSignedNarrow (lowerExpr e) e).eval σ =
      some (.ofInt (operandWidth e) (operandValue e (e.exact σ))) := by
  obtain ⟨v, hv, hrep⟩ := h
  have hv' : (lowerExpr e).eval σ = some (.ofInt (widthOf e) (e.exact σ)) := by
    rw [hv, hrep.eq_ofInt, ← eval_width hv]
  unfold widenIfSignedNarrow operandWidth operandValue
  split
  · simp only [Inst.eval, hv', Option.bind_eq_bind, Option.bind_some, emitCast, IntValue.ofInt,
      if_pos (widthOf_le e), BitVec.signExtend, BitVec.toInt_ofInt]
  · exact hv'

theorem Computes.fits (h : Computes σ e) : Fits (widthOf e) (e.exact σ) := by
  obtain ⟨v, hv, hrep⟩ := h
  rw [← eval_width hv]
  exact hrep.2

/-- A non-zero number that fits its word is not read as zero. -/
theorem readAs_ne_zero {signed : Bool} {w wl : Nat} {x : Int} (hle : wl ≤ w)
    (hx : x % 2 ^ wl ≠ 0) : readAs signed w wl x ≠ 0 := by
  cases signed with
  | false => exact hx
  | true =>
    intro h
    have hn : 0 ≤ x % 2 ^ wl := Int.emod_nonneg _ (pow_ne_zero _ (by decide))
    have hlt : x % 2 ^ wl < 2 ^ wl := Int.emod_lt_of_pos _ (pow_pos (by decide) _)
    have hpow : (2 : Int) ^ wl ≤ 2 ^ w := pow_le_pow_right₀ (by decide) hle
    have hdvd : ((2 ^ w : Nat) : Int) ∣ x % 2 ^ wl := Int.dvd_of_bmod_eq_zero h
    push_cast at hdvd
    exact hx (Int.eq_zero_of_dvd_of_nonneg_of_lt hn (hlt.trans_le hpow) hdvd)

theorem Fits.emod_ne_zero {w : Nat} {x : Int} (hw : 0 < w) (h : Fits w x) (hx : x ≠ 0) :
    x % 2 ^ w ≠ 0 := by
  intro h0
  have hpow : (2 : Int) ^ w = 2 * 2 ^ (w - 1) := by rw [← pow_succ', Nat.sub_add_cancel hw]
  obtain ⟨k, rfl⟩ := Int.dvd_of_emod_eq_zero h0
  have hpos : (0 : Int) < 2 ^ (w - 1) := pow_pos (by decide) _
  obtain ⟨h₁, h₂⟩ := h
  rw [hpow] at h₁ h₂
  have hk₁ : k < 1 := by nlinarith
  have hk₂ : -1 < k := by nlinarith
  exact hx (by rw [show k = 0 by omega]; simp)

/-- The divisor of a division is not read as zero. -/
theorem Computes.read_ne_zero (h : Computes σ r) (hr : r.exact σ ≠ 0) {signed : Bool} {w : Nat}
    (hw : operandWidth r ≤ w) :
    readAs signed w (operandWidth r) (operandValue r (r.exact σ)) ≠ 0 := by
  have hmod := h.fits.emod_ne_zero (widthOf_pos r) hr
  refine readAs_ne_zero hw ?_
  unfold operandWidth operandValue
  split
  · intro h64
    have hdvd : (2 : Int) ^ widthOf r ∣ (r.exact σ).bmod (2 ^ widthOf r) :=
      (pow_dvd_pow 2 (widthOf_le r)).trans (Int.dvd_of_emod_eq_zero h64)
    have hcast : ((2 ^ widthOf r : Nat) : Int) = 2 ^ widthOf r := by push_cast; rfl
    rw [← hcast] at hdvd hmod
    exact hmod (by rw [← Int.bmod_emod]; exact Int.emod_eq_zero_of_dvd hdvd)
  · exact hmod

/-- One operator over operands that were computed exactly. -/
theorem computes_binary_iff (hl : Computes σ l) (hr : Computes σ r)
    (hdiv : op.isDivision → r.exact σ ≠ 0) : Computes σ (.binary op l r) ↔ OperatorOk σ op l r := by
  have hw : 0 < max (operandWidth l) (operandWidth r) := lt_max_of_lt_left (operandWidth_pos l)
  have heval : (lowerExpr (.binary op l r)).eval σ =
      emitBinary (irOp op l r) (.ofInt (operandWidth l) (operandValue l (l.exact σ)))
        (.ofInt (operandWidth r) (operandValue r (r.exact σ))) := by
    simp only [lowerExpr, Inst.eval, hl.operand, hr.operand]
    rfl
  unfold Computes OperatorOk
  rw [heval, emitBinary_ofInt (irOp_isArith op l r) hw]
  simp only [BinOp.Undefined, irOp_isDivision]
  constructor
  · rintro ⟨v, hv, hrep⟩
    split at hv
    · cases hv
    · next hdef =>
      cases hv
      refine ⟨?_, IntValue.represents_ofInt.1 hrep⟩
      rintro ⟨hd, hov⟩
      exact hdef ⟨hd, .inr hov⟩
  · rintro ⟨hov, hrep⟩
    rw [if_neg]
    · exact ⟨_, rfl, IntValue.represents_ofInt.2 hrep⟩
    · rintro ⟨hd, hzero | hover⟩
      · exact hr.read_ne_zero (hdiv hd) (le_max_right ..) hzero
      · exact hov ⟨hd, hover⟩

/-- The selected operation is the exact one on operands that it reads as themselves. -/
theorem denote_selectOp {unsigned : Bool} {a b : Int}
    (h : (selectOp unsigned op).signed = false → 0 ≤ a ∧ 0 ≤ b) :
    (selectOp unsigned op).denote a b = op.exact a b := by
  cases unsigned <;> cases op <;> first | rfl | skip
  · exact Int.fdiv_eq_tdiv_of_nonneg (h rfl).1 (h rfl).2 |>.symm
  · exact Int.fmod_eq_tmod_of_nonneg (h rfl).1 (h rfl).2 |>.symm

/-- In particular an operator is computed exactly when each operand is read as its own value. -/
theorem OperatorOk.of_reads
    (hx : readAs (irOp op l r).signed (max (operandWidth l) (operandWidth r)) (operandWidth l)
      (operandValue l (l.exact σ)) = l.exact σ)
    (hy : readAs (irOp op l r).signed (max (operandWidth l) (operandWidth r)) (operandWidth r)
      (operandValue r (r.exact σ)) = r.exact σ)
    (hov : ¬ (op.isDivision ∧ r.exact σ = -1 ∧
      l.exact σ = -2 ^ (max (operandWidth l) (operandWidth r) - 1)))
    (hfit : Fits ((irOp op l r).resultWidth (max (operandWidth l) (operandWidth r)))
      (op.exact (l.exact σ) (r.exact σ))) : OperatorOk σ op l r := by
  have hnonneg : ∀ (w wl : Nat) (v : Int), 0 ≤ readAs false w wl v :=
    fun w wl v => Int.emod_nonneg _ (pow_ne_zero _ (by decide))
  have hdenote : (irOp op l r).denote (l.exact σ) (r.exact σ) = op.exact (l.exact σ) (r.exact σ) := by
    refine denote_selectOp fun hs => ?_
    change (irOp op l r).signed = false at hs
    rw [hs] at hx hy
    exact ⟨hx ▸ hnonneg .., hy ▸ hnonneg ..⟩
  unfold OperatorOk
  simp only [hx, hy, hdenote]
  refine ⟨fun ⟨hd, _, ha, hb⟩ => hov ⟨?_, hb, ha⟩, rfl, hfit⟩
  rwa [irOp_isDivision] at hd

theorem computes_ofInt_iff {x : Int} (h : (lowerExpr e).eval σ = some (.ofInt (widthOf e) x))
    (hx : x = e.exact σ) : Computes σ e ↔ Fits (widthOf e) (e.exact σ) := by
  subst hx
  exact ⟨Computes.fits, fun hfits => ⟨_, h, rfl, hfits⟩⟩

theorem computes_unary_iff {sop : SignOp} (he : Computes σ e) :
    Computes σ (.unary sop e) ↔ Fits (widthOf e) ((Expr.unary sop e).exact σ) := by
  obtain ⟨v, hv, hrep⟩ := he
  have hv' : (lowerExpr e).eval σ = some (.ofInt (widthOf e) (e.exact σ)) := by
    rw [hv, hrep.eq_ofInt, ← eval_width hv]
  refine computes_ofInt_iff (e := .unary sop e) (x := sop.exact (e.exact σ)) ?_ rfl
  cases sop with
  | pos => exact hv'
  | neg =>
    have hneg : emitUnary .neg (.ofInt (widthOf e) (e.exact σ)) = .ofInt (widthOf e) (-e.exact σ) := by
      show (⟨widthOf e, -BitVec.ofInt (widthOf e) (e.exact σ)⟩ : IntValue) =
        ⟨widthOf e, BitVec.ofInt (widthOf e) (-e.exact σ)⟩
      rw [BitVec.ofInt_neg]
    show ((lowerExpr e).eval σ).map (emitUnary .neg) = some (.ofInt (widthOf e) (-e.exact σ))
    rw [hv', Option.map_some, hneg]

/-- The lowered code computes an expression and all its subexpressions exactly when the readings at
every operator, and the width of every operand, allow it. -/
theorem computes_iff (σ : Nat → Int) (e : Expr) (h : Valid σ e) :
    e.All (Computes σ) ↔ e.All (NodeOk σ) := by
  induction e with
  | integer _ | char _ _ | var _ _ | enumMember _ _ => exact computes_ofInt_iff rfl rfl
  | const value _ => cases value <;> exact computes_ofInt_iff rfl rfl
  | unary sop e ih =>
    constructor
    · rintro ⟨hself, he⟩
      exact ⟨(computes_unary_iff he.self).1 hself, (ih h.2).1 he⟩
    · rintro ⟨hself, he⟩
      have he' := (ih h.2).2 he
      exact ⟨(computes_unary_iff he'.self).2 hself, he'⟩
  | binary op l r ihl ihr =>
    obtain ⟨⟨-, hdiv⟩, hl, hr⟩ := h
    constructor
    · rintro ⟨hself, hlc, hrc⟩
      exact ⟨(computes_binary_iff hlc.self hrc.self hdiv).1 hself, (ihl hl).1 hlc, (ihr hr).1 hrc⟩
    · rintro ⟨hself, hlo, hro⟩
      have hlc := (ihl hl).2 hlo
      have hrc := (ihr hr).2 hro
      exact ⟨(computes_binary_iff hlc.self hrc.self hdiv).2 hself, hlc, hrc⟩

/-- `x DIV 2` for an INTEGER16 variable. -/
def halfOfInteger16 : Expr := .binary .divKw (.var 0 (.builtin .integer16)) (.integer 2)

theorem computes_iff_halfOfInteger16 :
    halfOfInteger16.All (Computes fun _ => -7) ↔ halfOfInteger16.All (NodeOk fun _ => -7) := by
  refine computes_iff _ _ ⟨⟨⟨_, rfl, by decide⟩, fun _ => by decide⟩, ⟨⟨_, rfl, by decide⟩, trivial⟩,
    ⟨⟨_, rfl, by decide⟩, trivial⟩⟩

/-- `x / 2` for an INTEGER variable that holds -7. -/
theorem quotient_of_negative :
    Valid (fun _ => -7) (.binary .div (.var 0 (.builtin .integer)) (.integer 2)) ∧
      ¬ Computes (fun _ => -7) (.binary .div (.var 0 (.builtin .integer)) (.integer 2)) := by
  refine ⟨⟨⟨⟨_, rfl, by decide⟩, fun _ => by decide⟩, ⟨⟨_, rfl, by decide⟩, trivial⟩,
    ⟨⟨_, rfl, by decide⟩, trivial⟩⟩, ?_⟩
  rintro ⟨v, hv, hrep, -⟩
  have h : (lowerExpr (.binary .div (.var 0 (.builtin .integer)) (.integer 2))).eval (fun _ => -7) =
      some (.ofInt 64 9223372036854775804) := by decide
  rw [h] at hv
  cases hv
  revert hrep
  decide

end NewM2.Ir
