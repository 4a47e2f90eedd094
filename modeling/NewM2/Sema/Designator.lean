import NewM2.Sema.Class

/-! # Designators (`newm2-sema/src/analyze.rs`)

A designator as sema resolves it: the symbol that its base name stands for, and the selectors that are
left when the members of modules are taken. A bare name that no scope has may be a field of an enclosing
WITH record. -/

namespace NewM2.Sema.Target

/-- The kinds of symbols; a module is named by its scope. -/
inductive SymbolKind
  | const (aggregate : Bool)
  | enumMember
  | var (paramMode : Option ParamMode)
  | type
  | «class»
  | proc
  | module (scope : Nat)
deriving Repr, DecidableEq

/-- A selector with its binding: a field may be selected through a pointer to a record or through a
class reference. -/
inductive Selector
  | field (name : String) (byReference : Bool)
  | method (name : String)
  | index
  | deref
deriving Repr, DecidableEq

/-- The parser gives the base name one segment. -/
structure Designator where
  base : String
  selectors : List Selector
deriving Repr, DecidableEq

/-- What the scopes say at one place of the program: `lookup` from the innermost scope outwards, and the
scopes of the modules. -/
structure Scopes where
  lookup : String → Option SymbolKind
  get : Nat → String → Option SymbolKind

namespace Scopes
variable (Γ : Scopes)

/-- The loop of `resolve_designator_head`: field selectors of a module are its members. -/
def consumeMembers (current : SymbolKind) : List Selector → Option (SymbolKind × List Selector)
  | .field name byReference :: selectors =>
    match current with
    | .module scope => (Γ.get scope name).bind fun next => consumeMembers next selectors
    | _ => some (current, .field name byReference :: selectors)
  | selectors => some (current, selectors)

/-- `is_const_param_target`. -/
def isConstParamTarget (d : Designator) : Bool := Γ.lookup d.base == some (.var (some .const))

end Scopes
end NewM2.Sema.Target
