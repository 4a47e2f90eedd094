import Mathlib
import NewM2.Codegen.Layout
import NewM2.Sema.Constant

/-!
# Named constants (`newm2-sema/src/analyze.rs`)

The constant evaluator does not ask the resolver what a name denotes. `collect_scope_consts` flattens
the scope chain into one table, in which the constants of a scope come before those of the scopes
around it but nothing stands for a variable, a type or a module that hides a constant. It enters the
values that the constants have at the moment, which are placeholders before the second pass gets to
them, and the callees of the builtins are not looked up at all. A fold is right when every name it
evaluates denotes a constant, every callee a builtin, and the value is that of the expression over the
final constants and types (`ResolvedByScope`). `resolvedByScope_iff` says of which expressions that
holds.
-/

namespace NewM2.Sema
open Syntax

/-! ## Symbols and scopes (`scope.rs`) -/

/-- A type as the declarations so far have it, and as it is when all of them are resolved. -/
structure TypeInfo where
  now : Layout.Ty
  final : Layout.Ty

mutual

inductive SymbolKind
  /-- `value` is what is stored at the moment, `final` the value of the declaration. -/
  | const (ty : TypeInfo) (value final : ConstValue)
  | type (ty : TypeInfo)
  | var (ty : TypeInfo)
  /-- Of the language, the pervasive ones and those of SYSTEM, or of the program. -/
  | proc (isBuiltin : Bool)
  | module (symbols : List Symbol)
  | classType (ty : TypeInfo)
  | enumMember (ty : TypeInfo) (ord final : Int)

inductive Symbol
  | mk (name : String) (kind : SymbolKind) (exported : Bool)

end

/-! ## Builtins that depend on a type -/

namespace TypeInfo

/-- The largest value of a real type. -/
def realMax : Layout.Ty → Option Float
  | .builtin .real | .builtin .longReal => some (Float.ofBits 0x7FEFFFFFFFFFFFFF)
  | .builtin .real32 => some (Float.ofBits 0x47EFFFFFE0000000)
  | .builtin .real16 => some 65504
  | _ => none

/-- MAX or MIN: an extreme of the reals, or an ordinal bound. -/
def extreme (isMax : Bool) (ty : Layout.Ty) : Option ConstValue :=
  match realMax ty with
  | some m => some (.real (if isMax then m else -m))
  | none => ty.ordinalBounds.map fun b => .int (if isMax then b.2 else b.1)

/-- What `prefill_type_builtins` finds for a type: `type_builtin_value`, and the extremes of the real
types. -/
def typeBuiltinValue (op : String) (ty : Layout.Ty) : Option ConstValue :=
  if op = "MAX" then extreme true ty
  else if op = "MIN" then extreme false ty
  else ty.typeSizeBytes.map fun b => .int (if op = "TBITSIZE" then b * 8 else b)

/-- The bounds that a conversion to a resolved subrange or enumeration is checked with. -/
def convBounds : Layout.Ty → Option (Int × Int)
  | .subrange _ lo hi => some (lo, hi)
  | .enum values => (Layout.Ty.enum values).ordinalBounds
  | _ => none

/-- The extremes that the type has by now (0 if it has none) are those of the finished type; its size by
now (0 if it has none) is that of the layout. -/
def Settled (op : String) (ty : TypeInfo) : Prop :=
  if op = "MAX" then extreme true ty.final = some ((extreme true ty.now).getD (.int 0))
  else if op = "MIN" then extreme false ty.final = some ((extreme false ty.now).getD (.int 0))
  else ty.now.evalSize = ty.final.allocSize

end TypeInfo

namespace Symbol

def name : Symbol → String
  | mk n _ _ => n

def kind : Symbol → SymbolKind
  | mk _ k _ => k

def exported : Symbol → Bool
  | mk _ _ e => e

/-- `Scope::get`. -/
def get (symbols : List Symbol) (name : String) : Option Symbol := symbols.find? (·.name = name)

/-- The constant that the symbol itself is, as it is stored: procedure names are procedure constants. -/
def constValue (sym : Symbol) : Option ConstValue :=
  match sym.kind with
  | .const _ value _ => some value
  | .enumMember _ ord _ => some (.int ord)
  | .proc _ => some (.funcRef sym.name)
  | _ => none

/-- The constant that the symbol is in the program. -/
def finalValue (sym : Symbol) : Option ConstValue :=
  match sym.kind with
  | .const _ _ final => some final
  | .enumMember _ _ final => some (.int final)
  | .proc _ => some (.funcRef sym.name)
  | _ => none

/-- A procedure of the language. -/
def isBuiltin (sym : Symbol) : Bool :=
  match sym.kind with
  | .proc isBuiltin => isBuiltin
  | _ => false

/-- What `collect_scope_consts` enters for the symbol: its own constant under its name, or the exported
constants of a module under the qualified names. -/
def entries (sym : Symbol) : ConstLookup
  | .name [x] => if x = sym.name then sym.constValue else none
  | .name [m, x] =>
    match sym.kind with
    | .module members =>
      if m = sym.name then (get members x).bind fun msym => if msym.exported then msym.constValue else none
      else none
    | _ => none
  | _ => none

/-- The constant named by `path` below the symbol, as `read` reads it: of a module only exported names are
visible. -/
def descend (read : Symbol → Option ConstValue) (sym : Symbol) : List String → Option ConstValue
  | [] => read sym
  | x :: rest =>
    match sym.kind with
    | .module members =>
      (get members x).bind fun m => if m.exported then m.descend read rest else none
    | _ => none

end Symbol

/-- `Scope`: the names are distinct, since `insert` replaces the symbol of the same name. -/
structure Scope where
  symbols : List Symbol
  distinct : (symbols.map Symbol.name).Nodup

namespace Scope

def get (s : Scope) (name : String) : Option Symbol := Symbol.get s.symbols name

end Scope

/-- A scope with the scopes around it, innermost first. -/
abbrev ScopeChain := List Scope

namespace ScopeChain
variable (chain : ScopeChain)

/-- `ScopeArena::lookup`. -/
def lookup (name : String) : Option Symbol := chain.findSome? (·.get name)

/-! ## The table -/

/-- `map.entry(key).or_insert(value)`, for all new entries. -/
def orInsert (map new : ConstLookup) : ConstLookup := fun key => (map key).or (new key)

/-- `collect_scope_consts`. -/
def collectScopeConsts : ConstLookup :=
  chain.foldl (fun map s => s.symbols.foldl (fun map sym => orInsert map sym.entries) map) fun _ => none

/-- The walk of `quiet_type_arg` through modules. -/
def quietDescend (sym : Symbol) : List String → Option Symbol
  | [] => some sym
  | x :: rest =>
    match sym.kind with
    | .module members => (Symbol.get members x).bind (quietDescend · rest)
    | _ => none

def quietTypeArg : List String → Option TypeInfo
  | [] => none
  | x :: rest => do
    match (← quietDescend (← chain.lookup x) rest).kind with
    | .type ty | .classType ty => some ty
    | _ => none

def quietValueType : List String → Option TypeInfo
  | [x] => do
    match (← chain.lookup x).kind with
    | .var ty | .const ty _ _ | .enumMember ty _ _ => some ty
    | _ => none
  | _ => none

/-- What `prefill_type_builtins` enters under a synthetic key that the expression asks for. -/
def prefill : ConstLookup
  | .name _ => none
  | .typeBuiltin op path =>
    ((chain.quietTypeArg path).or (chain.quietValueType path)).bind (TypeInfo.typeBuiltinValue op ·.now)
  | .typeConv name => (chain.quietTypeArg [name]).bind (TypeInfo.convBounds ·.now) |>.map fun _ => .int 1
  | .typeConvLo name => (chain.quietTypeArg [name]).bind (TypeInfo.convBounds ·.now) |>.map fun b => .int b.1
  | .typeConvHi name => (chain.quietTypeArg [name]).bind (TypeInfo.convBounds ·.now) |>.map fun b => .int b.2

/-- The table an expression is folded with. -/
def consts : ConstLookup := fun key => (chain.collectScopeConsts key).or (chain.prefill key)

/-- `const_int_of`. -/
def constIntOf (e : Expr) : Option Int := (evalConst chain.consts e).toOption.bind (·.asInt)

end ScopeChain

/-! ## What the table says of a name -/

namespace Symbol

end Symbol

namespace Scope

/-- The constant that a scope has under a name that the table knows, as `read` reads it. -/
def constAt (read : Symbol → Option ConstValue) (s : Scope) : List String → Option ConstValue
  | [] => none
  | x :: rest => if rest.length ≤ 1 then (s.get x).bind (·.descend read rest) else none

end Scope

namespace ScopeChain
variable {chain : ScopeChain}

/-- The identifiers that need no declaration enclose every scope. -/
def predefinedScope : Scope where
  symbols :=
    let constant name value := Symbol.mk name (.const ⟨.unresolved, .unresolved⟩ value value) true
    [constant "TRUE" (.bool true), constant "FALSE" (.bool false), constant "NIL" .nil]
  distinct := by decide

def enclosed (chain : ScopeChain) : ScopeChain := chain ++ [predefinedScope]

/-- The constant a name denotes: that of the innermost symbol of its first identifier, or below it in
modules. -/
def denotesPath (chain : ScopeChain) : List String → Option ConstValue
  | [] => none
  | x :: rest => (chain.enclosed.lookup x).bind (·.descend Symbol.finalValue rest)

/-- The constant a designator denotes. A part of a constant is not a constant of its own. -/
def denotes (chain : ScopeChain) (segments : List String) (selectors : List Selector) :
    Option ConstValue :=
  (plainPath segments selectors).bind chain.denotesPath

/-- The type, or the type of the variable or constant, that the argument of MAX and its like names. -/
def typeArg (chain : ScopeChain) : List Expr → Option TypeInfo
  | [.designator segments selectors] => (plainPath segments selectors).bind fun path =>
    (chain.quietTypeArg path).or (chain.quietValueType path)
  | _ => none

/-- The builtins that the folder knows by their names. -/
def isFoldedBuiltin (f : String) : Bool :=
  (unaryBuiltin f).isSome || f = "CMPLX" || isTypeBuiltin f || f = "OFFS" || f = "VAL" || f = "CAST"

/-- The callee that is folded as a builtin denotes one. -/
def CalleeDenotes (chain : ScopeChain) : Expr → Prop
  | .call (.designator [f] []) _ =>
    isFoldedBuiltin f → ∀ sym, chain.lookup f = some sym → sym.isBuiltin = true
  | .call (.designator [m, f] []) _ =>
    ∃ sym member, chain.lookup m = some sym ∧ quietDescend sym [f] = some member ∧ member.isBuiltin = true
  | _ => True

/-- The innermost scope with a constant of the name has no scope inside it with a symbol of that
name, nothing but the name is in the designator, and the constant has its final value by now. -/
def Unhidden (chain : ScopeChain) (segments : List String) (selectors : List Selector) : Prop :=
  ∀ inner s outer, chain.enclosed = inner ++ s :: outer →
    (∀ t ∈ inner, t.constAt Symbol.constValue (fieldPath segments selectors) = none) →
    (s.constAt Symbol.constValue (fieldPath segments selectors)).isSome →
    plainPath segments selectors = some (fieldPath segments selectors) ∧
      (∀ t ∈ inner, ∀ x ∈ (fieldPath segments selectors).head?, t.get x = none) ∧
      s.constAt Symbol.finalValue (fieldPath segments selectors) =
        s.constAt Symbol.constValue (fieldPath segments selectors)

/-- The argument names a type that is settled; an offset is 0. -/
def TypedSettled (chain : ScopeChain) (offs : List Expr → Option ConstValue) (f : String)
    (args : List Expr) : Prop :=
  if f = "OFFS" then offs args = some (.int 0)
  else ∃ ty, chain.typeArg args = some ty ∧ ty.Settled f

/-- What one evaluated sub-expression needs for its fold to be right. -/
structure Sound (chain : ScopeChain) (offs : List Expr → Option ConstValue) (e : Expr) : Prop where
  name : ∀ segments selectors, e = .designator segments selectors → chain.Unhidden segments selectors
  callee : (evalConst chain.consts e).toOption.isSome → chain.CalleeDenotes e
  typed : ∀ f args, e = .call (.designator [f] []) args → isTypeBuiltin f || f = "OFFS" →
    chain.TypedSettled offs f args

/-- `CONST a = UCHR(65)` under a `PROCEDURE UCHR(n : CARDINAL) : CARDINAL` of the program, and
`TYPE T = [0..b]; CONST b = 3` while `b` still is a placeholder. -/
example :
    let cardinal : TypeInfo := ⟨.builtin .cardinal, .builtin .cardinal⟩
    let chain : ScopeChain := [⟨[.mk "UCHR" (.proc false) false,
      .mk "b" (.const cardinal (.int 0) (.int 3)) false], by decide⟩]
    chain.constIntOf (.call (.designator ["UCHR"] []) [.integer 65]) = some 65 ∧
      chain.constIntOf (.designator ["b"] []) = some 0 ∧
      chain.denotes ["b"] [] = some (.int 3) :=
  ⟨rfl, rfl, rfl⟩

end ScopeChain

end NewM2.Sema
