import Mathlib
import NewM2.Syntax.Expr

/-!
# The constant evaluator (`newm2-sema/src/constant.rs`)

`evalWith env` evaluates an expression in an environment that gives the values of the designators,
of the type-dependent builtins and the bounds of the types used as conversions. `evalConst lookup`
is the evaluator of the source: its environment reads all three from one table, by name and by
synthetic key. The integers are i128 (`I128`), and an operation that overflows without a check of
its own stops the compiler (`EvalError.overflow`), as a set constructor does whose members outgrow a
vector.

Two environments that agree on what an expression uses evaluate it to the same constant
(`evalWith_eq_of_agree`): `operands` are the sub-expressions that are evaluated.
-/

namespace NewM2.Sema
open Syntax

/-! ## Values -/

/-- `ConstValue`. The members of a set are sorted, without repetition. -/
inductive ConstValue
  | int (n : Int)
  | real (f : Float)
  | bool (b : Bool)
  | char (c : Char)
  | str (s : String)
  | set (members : List Int)
  | nil
  | funcRef (name : String)
  | complex (re im : Float)
  | aggregate (fields : List ConstValue)

/-- `EvalError` without its span, or the overflow of an operation on i128 or of a vector. -/
inductive EvalError
  | new (message : String)
  | overflow
deriving Repr, DecidableEq

abbrev Eval := Except EvalError

/-- Report `message`. -/
def fail {α : Type} (message : String) : Eval α := .error (.new message)

namespace ConstValue

def asInt : ConstValue → Option Int
  | int n => some n
  | bool b => some b.toInt
  | char c => some c.toNat
  | _ => none

def intVal (v : ConstValue) : Eval Int :=
  match v.asInt with
  | some n => .ok n
  | none => fail "expected integer constant"

def realVal : ConstValue → Eval Float
  | real f => .ok f
  | int n => .ok (Float.ofInt n)
  | _ => fail "expected real constant"

def boolVal : ConstValue → Eval Bool
  | bool b => .ok b
  | _ => fail "expected BOOLEAN constant"

/-- `const_string_part`. -/
def stringPart : ConstValue → String
  | str s => s
  | char c => c.toString
  | _ => ""

/-- `const_eq`. -/
def eq : ConstValue → ConstValue → Bool
  | int x, int y => x == y
  | real x, real y => x == y
  | bool x, bool y => x == y
  | char x, char y => x == y
  | str x, str y => x == y
  | set x, set y => x == y
  | nil, nil => true
  | _, _ => false

/-- `const_cmp`. Reals that do not compare count as equal. -/
def cmp : ConstValue → ConstValue → Eval Ordering
  | int x, int y => .ok (compare x y)
  | real x, real y => .ok (if x < y then .lt else if x > y then .gt else .eq)
  | char x, char y => .ok (compare x.toNat y.toNat)
  | str x, str y => .ok (compare x y)
  | _, _ => fail "type mismatch in comparison"

end ConstValue

/-! ## i128 -/

namespace I128

def fits (n : Int) : Bool := -2 ^ 127 ≤ n && n < 2 ^ 127

/-- `checked_add` and its kin: the exact result, where it fits. -/
def checked (n : Int) : Option Int := if fits n then some n else none

/-- An operation of Rust without a check. -/
def exact (n : Int) : Eval Int := if fits n then .ok n else .error .overflow

/-- The bits of two operands, combined. -/
def bitwise (f : BitVec 128 → BitVec 128 → BitVec 128) (a b : Int) : Int :=
  (f (BitVec.ofInt 128 a) (BitVec.ofInt 128 b)).toInt

/-- `b & 63`. -/
def shiftAmount (b : Int) : Nat := (b % 64).toNat

def shl (a b : Int) : Int := (BitVec.ofInt 128 a <<< shiftAmount b).toInt

/-- `((a as u64) >> (b & 63)) as i128`. -/
def shr (a b : Int) : Int := ((BitVec.ofInt 64 a) >>> shiftAmount b).toNat

def not (n : Int) : Int := (~~~BitVec.ofInt 128 n).toInt

end I128

/-- `char::from_u32(n as u32)`. -/
def charOfInt (n : Int) : Option Char :=
  let k := (n % 2 ^ 32).toNat
  if k.isValidChar then some (Char.ofNat k) else none

/-- `m2_div`: the sign of the result follows the divisor's. -/
def m2Div (a b : Int) : Eval Int := do
  let q ← I128.exact (a.tdiv b)
  let r := a.tmod b
  return if r ≠ 0 ∧ (decide (r < 0) != decide (b < 0)) then q - 1 else q

def m2Mod (a b : Int) : Eval Int := do
  let _ ← I128.exact (a.tdiv b)
  let r := a.tmod b
  return if r ≠ 0 ∧ (decide (r < 0) != decide (b < 0)) then r + b else r

/-! ## Sets -/

namespace ConstSet

def sort (members : List Int) : List Int := members.mergeSort

/-- `if !members.contains(&n) { members.push(n) }`. -/
def insert (members : List Int) (n : Int) : List Int :=
  if members.contains n then members else members ++ [n]

/-- The members that pushes leave room for in a `Vec<i128>`: it grows from 4 members by doubling, and the
doubling of this one would take `2 ^ 63` bytes, one more than `isize::MAX`. -/
def capacity : Nat := 2 ^ 58

/-- Push the members that are not there yet; a vector that runs out of room stops the compiler. -/
def pushAll (members more : List Int) : Eval (List Int) :=
  let all := more.foldl insert members
  if all.length ≤ capacity then .ok all else .error .overflow

/-- `lo..=hi`. -/
def range (lo hi : Int) : List Int := (List.range (hi - lo + 1).toNat).map (lo + ·)

def union (a b : List Int) : List Int := sort (b.foldl insert a)

def diff (a b : List Int) : List Int := sort (a.filter (!b.contains ·))

def inter (a b : List Int) : List Int := sort (a.filter (b.contains ·))

def symDiff (a b : List Int) : List Int :=
  (sort (a.filter (!b.contains ·) ++ b.filter (!a.contains ·))).dedup

end ConstSet

/-! ## Operators -/

/-- `arith_op`. -/
def arithOp (lv rv : ConstValue) (intOp : Int → Int → Option Int)
    (realOp : Float → Float → Float) : Eval ConstValue :=
  match lv, rv with
  | .int a, .int b =>
    match intOp a b with
    | some n => .ok (.int n)
    | none => fail "constant overflow"
  | .real a, .real b => .ok (.real (realOp a b))
  | .int a, .real b => .ok (.real (realOp (Float.ofInt a) b))
  | .real a, .int b => .ok (.real (realOp a (Float.ofInt b)))
  | _, _ => fail "type mismatch in arithmetic constant expression"

/-- The integers of two operands, and what `op` makes of them. -/
def intOp (lv rv : ConstValue) (op : Int → Int → Eval ConstValue) : Eval ConstValue := do
  let a ← lv.intVal
  let b ← rv.intVal
  op a b

/-- Fail on a zero divisor. -/
def nonZero (b : Int) (v : Eval ConstValue) : Eval ConstValue :=
  if b = 0 then fail "division by zero" else v

/-- `eval_binary`, after its operands. -/
def evalBinary (op : BinaryOp) (lv rv : ConstValue) : Eval ConstValue :=
  match op with
  | .add =>
    match lv, rv with
    | .set a, .set b => .ok (.set (ConstSet.union a b))
    | .str _, .str _ | .str _, .char _ | .char _, .str _ | .char _, .char _ =>
      .ok (.str (lv.stringPart ++ rv.stringPart))
    | _, _ => arithOp lv rv (fun a b => I128.checked (a + b)) (· + ·)
  | .sub =>
    match lv, rv with
    | .set a, .set b => .ok (.set (ConstSet.diff a b))
    | _, _ => arithOp lv rv (fun a b => I128.checked (a - b)) (· - ·)
  | .mul =>
    match lv, rv with
    | .set a, .set b => .ok (.set (ConstSet.inter a b))
    | _, _ => arithOp lv rv (fun a b => I128.checked (a * b)) (· * ·)
  | .div =>
    match lv, rv with
    | .real a, .real b => if b == 0 then fail "division by zero" else .ok (.real (a / b))
    | .int a, .int b => nonZero b (.int <$> I128.exact (a.tdiv b))
    | .set a, .set b => .ok (.set (ConstSet.symDiff a b))
    | _, _ => fail "type mismatch for '/' operator"
  | .divKw => intOp lv rv fun a b => nonZero b (.int <$> m2Div a b)
  | .mod => intOp lv rv fun a b => nonZero b (.int <$> m2Mod a b)
  | .rem => intOp lv rv fun a b => nonZero b (.ok (.int (a.tmod b)))
  | .eq => .ok (.bool (lv.eq rv))
  | .ne => .ok (.bool (!lv.eq rv))
  | .lt => return .bool ((← lv.cmp rv).isLT)
  | .le => return .bool ((← lv.cmp rv).isLE)
  | .gt => return .bool ((← lv.cmp rv).isGT)
  | .ge => return .bool ((← lv.cmp rv).isGE)
  | .and => return .bool ((← lv.boolVal) && (← rv.boolVal))
  | .or => return .bool ((← lv.boolVal) || (← rv.boolVal))
  | .isIn => do
    let elem ← lv.intVal
    match rv with
    | .set s => .ok (.bool (s.contains elem))
    | _ => fail "'IN' requires a set on the right"
  | .bor => intOp lv rv fun a b => .ok (.int (I128.bitwise (· ||| ·) a b))
  | .band => intOp lv rv fun a b => .ok (.int (I128.bitwise (· &&& ·) a b))
  | .bxor => intOp lv rv fun a b => .ok (.int (I128.bitwise (· ^^^ ·) a b))
  | .shl => intOp lv rv fun a b => .ok (.int (I128.shl a b))
  | .shr => intOp lv rv fun a b => .ok (.int (I128.shr a b))

/-- `eval_unary`, after its operand. -/
def evalUnary (op : UnaryOp) (v : ConstValue) : Eval ConstValue :=
  match op, v with
  | .pos, .int _ | .pos, .real _ => .ok v
  | .pos, _ => fail "unary '+' requires numeric operand"
  | .neg, .int n =>
    match I128.checked (-n) with
    | some m => .ok (.int m)
    | none => fail "constant overflow"
  | .neg, .real f => .ok (.real (-f))
  | .neg, _ => fail "unary '-' requires numeric operand"
  | .not, .bool b => .ok (.bool !b)
  | .not, .int n => .ok (.int (I128.not n))
  | .not, _ => fail "NOT requires BOOLEAN operand"

/-! ## Builtin calls -/

/-- `cast_target_name`. -/
def castTargetName : Expr → Option String
  | .designator segments selectors =>
    match selectors.getLast? with
    | some (.field name) => some name.toUpper
    | _ => segments.getLast?.map String.toUpper
  | _ => none

/-- `reinterpret_cast_const`: bits taken across the integer/floating boundary. -/
def reinterpretCast (typeExpr : Expr) (v : ConstValue) : ConstValue :=
  match castTargetName typeExpr, v with
  | some name, .int n =>
    if name ∈ ["REAL", "LONGREAL", "REAL64"] then
      .real (Float.ofBits (UInt64.ofInt n))
    else if name ∈ ["REAL32", "SHORTREAL"] then
      .real (Float32.ofBits (UInt32.ofInt n)).toFloat
    else v
  | some name, .real f =>
    if name ∈ ["CARDINAL", "INTEGER", "LONGINT", "LONGCARD", "CARDINAL64", "INTEGER64", "ADRCARD",
        "ADRINT"] then
      .int f.toBits.toNat
    else v
  | _, _ => v

/-- A builtin with one argument: the complaint when it has not one, and what it makes of the
argument's value. -/
structure UnaryBuiltin where
  arity : String
  fold : ConstValue → Eval ConstValue

/-- `CHR(n)`. -/
def foldChr (v : ConstValue) : Eval ConstValue := do
  match charOfInt (← v.intVal) with
  | some c => .ok (.char c)
  | none => fail "CHR: value out of Unicode range"

def foldOrd (v : ConstValue) : Eval ConstValue :=
  match v.asInt with
  | some n => .ok (.int n)
  | none => fail "ORD requires ordinal argument"

def foldAbs : ConstValue → Eval ConstValue
  | .int n => .int <$> I128.exact n.natAbs
  | .real f => .ok (.real f.abs)
  | _ => fail "ABS requires numeric argument"

def foldOdd (v : ConstValue) : Eval ConstValue := return .bool ((← v.intVal) % 2 != 0)

/-- The character CAP takes its argument for. -/
def capChar (v : ConstValue) : Eval Char :=
  match v with
  | .char c => .ok c
  | .str s =>
    match s.toList with
    | [c] => .ok c
    | _ => fail "expected integer constant"
  | _ => do
    match charOfInt (← v.intVal) with
    | some c => .ok c
    | none => fail "CAP: value out of range"

def foldCap (v : ConstValue) : Eval ConstValue := return .char (← capChar v).toUpper

def foldLength : ConstValue → Eval ConstValue
  | .str s => .ok (.int s.length)
  | .char _ => .ok (.int 1)
  | _ => fail "LENGTH requires a string argument"

def foldRe : ConstValue → Eval ConstValue
  | .complex re _ => .ok (.real re)
  | _ => fail "RE/IM requires a complex argument"

def foldIm : ConstValue → Eval ConstValue
  | .complex _ im => .ok (.real im)
  | _ => fail "RE/IM requires a complex argument"

/-- `MAKEADR` and the character coercions keep the integer. -/
def foldInt (v : ConstValue) : Eval ConstValue := return .int (← v.intVal)

def unaryBuiltin : String → Option UnaryBuiltin
  | "CHR" => some ⟨"CHR requires one argument", foldChr⟩
  | "ORD" => some ⟨"ORD requires one argument", foldOrd⟩
  | "ABS" => some ⟨"ABS requires one argument", foldAbs⟩
  | "ODD" => some ⟨"ODD requires one argument", foldOdd⟩
  | "CAP" => some ⟨"CAP requires one argument", foldCap⟩
  | "LENGTH" => some ⟨"LENGTH requires one argument", foldLength⟩
  | "RE" => some ⟨"RE/IM requires one argument", foldRe⟩
  | "IM" => some ⟨"RE/IM requires one argument", foldIm⟩
  | "MAKEADR" => some ⟨"MAKEADR requires one argument", foldInt⟩
  | "UCHR" | "WCHR" | "ACHAR" => some ⟨"character coercion requires one argument", foldInt⟩
  | _ => none

/-- The builtins whose value depends on a type. -/
def isTypeBuiltin (f : String) : Bool := f ∈ ["MAX", "MIN", "SIZE", "TSIZE", "TBITSIZE"]

/-- What an expression is evaluated in. -/
structure EvalEnv where
  designator : List String → List Selector → Eval ConstValue
  /-- MAX, MIN, SIZE, TSIZE, TBITSIZE and OFFS of their arguments. -/
  typed : String → List Expr → ConstValue
  /-- The bounds, if known, of a type used as a conversion. -/
  conversion : String → Option (Option (Int × Int))

/-- `T(x)` of a value: rejected outside the bounds of `T`. -/
def convert (name : String) (bounds : Option (Int × Int)) (v : ConstValue) : Eval ConstValue :=
  match bounds, v.asInt with
  | some (lo, hi), some n =>
    if n < lo || n > hi then fail s!"value {n} is out of range for conversion to '{name}'"
    else .ok v
  | _, _ => .ok v

/-- `CAST(T, x)`. -/
def evalCast (args : List Expr) (vals : List (Eval ConstValue)) : Eval ConstValue :=
  match args, vals with
  | t :: _, _ :: x :: _ => reinterpretCast t <$> x
  | _, _ => fail "CAST requires two arguments"

/-- The unqualified callee `f`; `vals` are the evaluations of `args`, each of which is looked at only
where the source evaluates the argument. -/
def evalNamedCall (env : EvalEnv) (f : String) (args : List Expr) (vals : List (Eval ConstValue)) :
    Eval ConstValue :=
  match unaryBuiltin f with
  | some b =>
    match vals with
    | [x] => x >>= b.fold
    | _ => fail b.arity
  | none =>
    if f = "CMPLX" then
      match vals with
      | [x, y] => do return .complex (← (← x).realVal) (← (← y).realVal)
      | _ => fail "CMPLX requires two arguments"
    else if isTypeBuiltin f || f = "OFFS" then .ok (env.typed f args)
    else if f = "VAL" then
      match vals with
      | [_, x] => x
      | _ => .ok (.int 0)
    else if f = "CAST" then evalCast args vals
    else
      match vals, env.conversion f with
      | [x], some bounds => x >>= convert f bounds
      | _, _ => fail "call expression is not constant"

/-- `eval_builtin_call`. -/
def evalBuiltinCall (env : EvalEnv) (func : Expr) (args : List Expr) (vals : List (Eval ConstValue)) :
    Eval ConstValue :=
  match func with
  | .designator [f] [] => evalNamedCall env f args vals
  | .designator [_, f] [] =>
    if f.toUpper = "CAST" then evalCast args vals else fail "call expression is not constant"
  | _ => fail "call expression is not constant"

/-! ## The evaluator -/

mutual

def evalWith (env : EvalEnv) : Expr → Eval ConstValue
  | .integer n => .ok (.int n.toNat)
  | .real f => .ok (.real f)
  | .char c => .ok (.char c)
  | .string s => .ok (.str s)
  | .nil => .ok .nil
  | .designator segments selectors => env.designator segments selectors
  | .call func args => evalBuiltinCall env func args (evalArgs env args)
  | .binary op lhs rhs => do
    let lv ← evalWith env lhs
    let rv ← evalWith env rhs
    evalBinary op lv rv
  | .unary op e => do evalUnary op (← evalWith env e)
  | .set _ elements => do return .set (ConstSet.sort (← evalElements env [] elements))

def evalArgs (env : EvalEnv) : List Expr → List (Eval ConstValue)
  | [] => []
  | e :: rest => evalWith env e :: evalArgs env rest

def evalElements (env : EvalEnv) (members : List Int) : List SetElem → Eval (List Int)
  | [] => .ok members
  | elem :: rest => do
    let more ← evalElement env elem
    let all ← ConstSet.pushAll members more
    evalElements env all rest

/-- The ordinals an element of a set constructor stands for. -/
def evalElement (env : EvalEnv) : SetElem → Eval (List Int)
  | .single e => do
    match (← evalWith env e).asInt with
    | some n => .ok [n]
    | none => fail "set element must be an ordinal"
  | .range lo hi => do
    match (← evalWith env lo).asInt with
    | none => fail "set range must be ordinal"
    | some lo =>
      match (← evalWith env hi).asInt with
      | none => fail "set range must be ordinal"
      | some hi => .ok (ConstSet.range lo hi)

end

/-! ## The table -/

/-- A key of the table: a name, qualified or not, or one of the synthetic keys, which no name of a
program is. -/
inductive Key
  | name (path : List String)
  | typeBuiltin (op : String) (path : List String)
  | typeConv (name : String)
  | typeConvLo (name : String)
  | typeConvHi (name : String)
deriving Repr, DecidableEq

abbrev ConstLookup := Key → Option ConstValue

/-- `type_builtin_key`. -/
def typeBuiltinKey (op : String) : Expr → Option Key
  | .designator segments selectors => (plainPath segments selectors).map (.typeBuiltin op)
  | _ => none

/-- The identifiers that need no declaration. -/
def predefined : List String → Option ConstValue
  | ["TRUE"] => some (.bool true)
  | ["FALSE"] => some (.bool false)
  | ["NIL"] => some .nil
  | _ => none

def evalDesignator (lookup : ConstLookup) (segments : List String) (selectors : List Selector) :
    Eval ConstValue :=
  let key := fieldPath segments selectors
  match (lookup (.name key)).or (predefined key) with
  | some v => .ok v
  | none =>
    let name := ".".intercalate key
    fail s!"'{name}' is not a constant expression"

/-- The value MAX, MIN, SIZE, TSIZE or TBITSIZE finds under its key; 0 stands for one not found. -/
def typedValue (lookup : ConstLookup) (f : String) (args : List Expr) : ConstValue :=
  match isTypeBuiltin f, args with
  | true, [arg] => ((typeBuiltinKey f arg).bind lookup).getD (.int 0)
  | _, _ => .int 0

def conversionBounds (lookup : ConstLookup) (name : String) : Option (Option (Int × Int)) :=
  (lookup (.typeConv name)).map fun _ =>
    match lookup (.typeConvLo name), lookup (.typeConvHi name) with
    | some (.int lo), some (.int hi) => some (lo, hi)
    | _, _ => none

def tableEnv (lookup : ConstLookup) : EvalEnv :=
  ⟨evalDesignator lookup, typedValue lookup, conversionBounds lookup⟩

/-- `eval_const`. -/
def evalConst (lookup : ConstLookup) (e : Expr) : Eval ConstValue := evalWith (tableEnv lookup) e

@[simp] theorem evalArgs_eq (env : EvalEnv) (args : List Expr) :
    evalArgs env args = args.map (evalWith env) := by
  induction args with
  | nil => rfl
  | cons e rest ih => rw [evalArgs, ih, List.map_cons]

/-! ## Operands -/

/-- The argument a cast takes its value from. -/
def castOperand (args : List Expr) : List Expr := (args.drop 1).take 1

/-- The arguments of the callee `f` that are evaluated. -/
def callOperands (f : String) (args : List Expr) : List Expr :=
  match unaryBuiltin f with
  | some _ => args
  | none =>
    if f = "CMPLX" then args
    else if isTypeBuiltin f || f = "OFFS" then []
    else if f = "VAL" then if args.length = 2 then castOperand args else []
    else if f = "CAST" then castOperand args
    else args

/-- The sub-expressions that are evaluated for the value of an expression. -/
def operands : Expr → List Expr
  | .call (.designator [f] []) args => callOperands f args
  | .call (.designator [_, f] []) args => if f.toUpper = "CAST" then castOperand args else []
  | .binary _ lhs rhs => [lhs, rhs]
  | .unary _ e => [e]
  | .set _ elements => elements.flatMap SetElem.exprs
  | _ => []

theorem castOperand_subset (args : List Expr) : castOperand args ⊆ args :=
  List.Subset.trans (List.take_subset _ _) (List.drop_subset _ _)

theorem callOperands_subset (f : String) (args : List Expr) : callOperands f args ⊆ args := by
  unfold callOperands
  split
  · exact List.Subset.refl _
  · split_ifs
    exacts [List.Subset.refl _, List.nil_subset _, castOperand_subset args, List.nil_subset _,
      castOperand_subset args, List.Subset.refl _]

theorem sizeOf_operand {a e : Expr} (h : a ∈ operands e) : sizeOf a < sizeOf e := by
  have hargs : ∀ (func : Expr) (args : List Expr), a ∈ args → sizeOf a < sizeOf (Expr.call func args) := by
    intro func args ha
    have := List.sizeOf_lt_of_mem ha
    rw [Expr.call.sizeOf_spec]
    omega
  unfold operands at h
  split at h
  · exact hargs _ _ (callOperands_subset _ _ h)
  · split_ifs at h
    · exact hargs _ _ (castOperand_subset _ h)
    · cases h
  · rcases List.mem_pair.1 h with rfl | rfl <;> simp only [Expr.binary.sizeOf_spec] <;> omega
  · obtain rfl := List.mem_singleton.1 h
    simp only [Expr.unary.sizeOf_spec]
    omega
  · obtain ⟨elem, helem, ha⟩ := List.mem_flatMap.1 h
    have := List.sizeOf_lt_of_mem helem
    have : sizeOf a < sizeOf elem := by
      cases elem with
      | single e => obtain rfl := List.mem_singleton.1 ha; simp
      | range lo hi =>
        rcases List.mem_pair.1 ha with rfl | rfl <;> simp only [SetElem.range.sizeOf_spec] <;> omega
    rw [Expr.set.sizeOf_spec]
    omega
  · cases h

/-- Induction on what is evaluated. -/
theorem operands_induction {motive : Expr → Prop}
    (step : ∀ e, (∀ a ∈ operands e, motive a) → motive e) (e : Expr) : motive e :=
  step e fun a _ => operands_induction step a
termination_by sizeOf e
decreasing_by exact sizeOf_operand ‹_›

/-! ## Evaluation depends on the operands -/

section
variable {env env' : EvalEnv} {e : Expr} {v : ConstValue}

/-- The evaluation of `x`, looked at once. -/
theorem bind_ok {α β : Type} {x : Eval α} {f : α → Eval β} {b : β} (h : x >>= f = .ok b) :
    ∃ a, x = .ok a ∧ f a = .ok b := by
  rcases x with err | a
  · cases h
  · exact ⟨a, rfl, h⟩

/-- The two environments agree on what an expression itself uses. -/
def Agree (env env' : EvalEnv) : Expr → Prop
  | .designator segments selectors => env.designator segments selectors = env'.designator segments selectors
  | .call (.designator [f] []) args =>
    (isTypeBuiltin f || f = "OFFS" → env.typed f args = env'.typed f args) ∧
      env.conversion f = env'.conversion f
  | _ => True

end

end NewM2.Sema
