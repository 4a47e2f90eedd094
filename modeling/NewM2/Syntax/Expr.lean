import Mathlib

/-!
# Expressions (`newm2-parser/src/ast.rs`)

The expression nodes without their spans, and the sub-expressions by which a recursion over them
goes.
-/

namespace NewM2.Syntax

inductive BinaryOp
  | add | sub | mul | div | divKw | mod | rem
  | eq | ne | lt | le | gt | ge
  | and | or | isIn
  | bor | band | bxor | shl | shr
deriving Repr, DecidableEq

inductive UnaryOp
  | pos | neg | not
deriving Repr, DecidableEq

mutual

inductive Expr
  | integer (n : UInt64)
  | real (f : Float)
  | char (value : Char)
  | string (value : String)
  | nil
  | designator (segments : List String) (selectors : List Selector)
  | call (func : Expr) (args : List Expr)
  | binary (op : BinaryOp) (lhs rhs : Expr)
  | unary (op : UnaryOp) (e : Expr)
  | set (typeName : Option (List String)) (elements : List SetElem)

inductive Selector
  | field (name : String)
  | index (indices : List Expr)
  | deref
  | typeGuard (name : List String)

inductive SetElem
  | single (e : Expr)
  | range (lo hi : Expr)

end

namespace Selector

/-- The identifier of a field selector. -/
def field? : Selector → Option String
  | field name => some name
  | _ => none

end Selector

/-- `A.b.c`: a designator whose selectors all name fields. -/
def plainPath (segments : List String) (selectors : List Selector) : Option (List String) :=
  (selectors.mapM Selector.field?).map (segments ++ ·)

/-- The identifiers of a designator, its indices and dereferences left out. -/
def fieldPath (segments : List String) (selectors : List Selector) : List String :=
  segments ++ selectors.filterMap Selector.field?

namespace SetElem

def exprs : SetElem → List Expr
  | single e => [e]
  | range lo hi => [lo, hi]

end SetElem

end NewM2.Syntax
