import Mathlib
import NewM2.Sema.Class
import NewM2.Syntax.Expr

/-! # NEW and DISPOSE (`newm2-sema/src/heapcheck.rs`)

The pass that warns of leaks and of uses after DISPOSE, on statements with what it reads of them and what a name
in them stands for. -/

namespace NewM2.HeapCheck
open Sema
open Syntax (BinaryOp UnaryOp)

/-! ## Statements -/

mutual

inductive Expr
  /-- A number, a character, a string or NIL. -/
  | literal
  | designator (d : Designator)
  | call (callee : Expr) (args : List Expr)
  | binary (op : BinaryOp) (lhs rhs : Expr)
  | unary (op : UnaryOp) (e : Expr)
  | set (typeName : Option (List String)) (elements : List SetElem)

inductive Designator
  | mk (segments : List String) (selectors : List Selector) (span : Span)

inductive Selector
  | field (name : String)
  | index (indices : List Expr)
  | deref
  | typeGuard (name : List String)

inductive SetElem
  | single (e : Expr)
  | range (lo hi : Expr)

end

mutual

inductive Stmt
  | empty
  | assign (target : Designator) (value : Expr)
  | call (e : Expr)
  | if_ (arms : List Arm) (elseArm : Option (List Stmt))
  | case_ (scrutinee : Expr) (arms : List Arm) (elseArm : Option (List Stmt))
  | guard (selector : Expr) (arms : List Arm) (elseArm : Option (List Stmt))
  | while_ (cond : Expr) (body : List Stmt)
  | repeat_ (body : List Stmt) (cond : Expr)
  | for_ (var : String) (start end_ : Expr) (step : Option Expr) (body : List Stmt)
  | loop (body : List Stmt)
  /-- `fields` are those of the record. A name in the body stands for one only if it is not in scope otherwise. -/
  | with_ (d : Designator) (fields : List String) (body : List Stmt)
  | exit
  | return_ (e : Option Expr)
  | raise (e : Option Expr)
  | retry
  | block (b : Block)

inductive Arm
  | if_ (cond : Expr) (body : List Stmt)
  | case_ (body : List Stmt)
  | guard (denoter : Option String) (body : List Stmt)

/-- The statements, the bodies of the EXCEPT arms and the FINALLY part. -/
inductive Block
  | mk (stmts : List Stmt) (except : List (List Stmt)) (finally_ : Option (List Stmt))

end

/-- A name that a local module imports. -/
inductive LocalImport
  /-- Of FROM, or that of a module. -/
  | foreign (name : String)
  /-- What the name stands for around the local module. -/
  | enclosing (name : String)

/-- The name stands for something else in the local module. -/
def LocalImport.rebinds (p : String) : LocalImport → Bool
  | foreign name => name == p
  | enclosing _ => false

mutual

inductive Decl
  | var (names : List String)
  | procedure (p : ProcDecl)
  | localModule (name : String) (imports : List LocalImport) (decls : List Decl) (body : Option Block)
  | class_ (name : String) (members : List String) (methods : List ProcDecl)
  /-- A constant or a type; an export binds no names. -/
  | other (names : List String)

/-- The names of the parameters, one list for each section. -/
inductive ProcDecl
  | mk (name : String) (params : List (List String)) (body : Option ProcBody)

inductive ProcBody
  | mk (decls : List Decl) (body : Block)

end

/-! ## The pass -/

inductive St
  /-- NEW, and not yet DISPOSE. -/
  | alloc
  | disposed
  /-- Assigned, or merged across branches. -/
  | unknown
deriving Repr, DecidableEq

structure Vars where
  st : String → Option St
  newSpan : String → Option Span
  escaped : String → Bool

inductive Warning
  | again (p : String) (span : Span)
  | doubleDispose (p : String) (span : Span)
  | useAfter (p : String) (span : Span)
  | leak (p : String) (span : Span)
deriving Repr, DecidableEq

def Warning.message : Warning → String
  | again p _ => "'" ++ p ++ "' is allocated again before the previous block is disposed — the old block leaks"
  | doubleDispose p _ => "double DISPOSE of '" ++ p ++ "' (already disposed)"
  | useAfter p _ => "use of '" ++ p ++ "' after DISPOSE (dangling pointer)"
  | leak p _ => "'" ++ p ++ "' is allocated here but never disposed (memory leak)"

structure Pass where
  vars : Vars
  diags : List Warning

/-- The variables to which a branch did something. -/
abbrev Touched := String → Bool

namespace Pass

def start : Pass := ⟨⟨fun _ => none, fun _ => none, fun _ => false⟩, []⟩

def warn (s : Pass) (w : Warning) : Pass := { s with diags := s.diags ++ [w] }

def setSt (s : Pass) (p : String) (st : St) : Pass :=
  { s with vars := { s.vars with st := Function.update s.vars.st p (some st) } }

/-- NEW of a variable. -/
def new (s : Pass) (p : String) (span : Span) : Pass :=
  let s := if s.vars.st p = some .alloc then s.warn (.again p span) else s
  let s := s.setSt p .alloc
  { s with vars := { s.vars with newSpan := Function.update s.vars.newSpan p (some span) } }

/-- DISPOSE of a variable. -/
def dispose (s : Pass) (p : String) (span : Span) : Pass :=
  let s := if s.vars.st p = some .disposed then s.warn (.doubleDispose p span) else s
  s.setSt p .disposed

/-- A designator that begins with the variable; `bare` without selectors. -/
def touch (s : Pass) (name : String) (bare : Bool) (span : Span) : Pass :=
  let s := if s.vars.st name = some .disposed then s.warn (.useAfter name span) else s
  if bare then { s with vars := { s.vars with escaped := Function.update s.vars.escaped name true } } else s

/-- A branch is scanned on a copy of the state; the escapes and the places of NEW are kept. -/
def branch (scan : Pass → Pass) : Pass × Touched → Pass × Touched
  | (s, touched) =>
    let clone := scan s
    ({ vars :=
        { st := s.vars.st
          newSpan := fun p => (s.vars.newSpan p).or (clone.vars.newSpan p)
          escaped := fun p => s.vars.escaped p || clone.vars.escaped p }
       diags := clone.diags },
      fun p => touched p || (clone.vars.st p).isSome && clone.vars.st p != s.vars.st p)

/-- Behind the branches. -/
def join : Pass × Touched → Pass
  | (s, touched) => { s with vars := { s.vars with st := fun p => if touched p then some .unknown else s.vars.st p } }

end Pass

/-- A name without selectors. -/
def Designator.var? : Designator → Option (String × Span)
  | .mk [name] [] span => some (name, span)
  | .mk _ _ _ => none

def simpleVar : Expr → Option (String × Span)
  | .designator d => d.var?
  | _ => none

/-- `NAME(arg, …)`. -/
def asBuiltinCall : Expr → Option (String × List Expr)
  | .call callee args => (simpleVar callee).map fun v => (v.1, args)
  | _ => none

mutual

def scanExpr : Expr → Pass → Pass
  | .designator d, s => scanDesignator d s
  -- a bare callee is the name of a procedure
  | .call callee args, s => scanExprs args (if (simpleVar callee).isSome then s else scanExpr callee s)
  | .binary _ lhs rhs, s => scanExpr rhs (scanExpr lhs s)
  | .unary _ e, s => scanExpr e s
  | .literal, s | .set _ _, s => s

def scanExprs : List Expr → Pass → Pass
  | [], s => s
  | e :: rest, s => scanExprs rest (scanExpr e s)

def scanDesignator : Designator → Pass → Pass
  | .mk segments selectors span, s =>
    scanSelectors selectors (match segments with
      | [name] => s.touch name selectors.isEmpty span
      | _ => s)

def scanSelectors : List Selector → Pass → Pass
  | [], s => s
  | .index indices :: rest, s => scanSelectors rest (scanExprs indices s)
  | .field _ :: rest, s | .deref :: rest, s | .typeGuard _ :: rest, s => scanSelectors rest s

end

/-- NEW or DISPOSE of a variable, and the other arguments. -/
inductive HeapCall
  | new (p : String) (span : Span) (rest : List Expr)
  | dispose (p : String) (span : Span) (rest : List Expr)

def heapCall (e : Expr) : Option HeapCall :=
  match asBuiltinCall e with
  | some (name, arg :: rest) =>
    match simpleVar arg with
    | some (p, span) =>
      if name = "NEW" then some (.new p span rest)
      else if name = "DISPOSE" ∨ name = "DESTROY" then some (.dispose p span rest)
      else none
    | none => none
  | _ => none

def scanCall (e : Expr) (s : Pass) : Pass :=
  match heapCall e with
  | some (.new p span rest) => scanExprs rest (s.new p span)
  | some (.dispose p span rest) => scanExprs rest (s.dispose p span)
  | none => scanExpr e s

def scanAssign (target : Designator) (value : Expr) (s : Pass) : Pass :=
  let s := scanDesignator target (scanExpr value s)
  match target.var? with
  | some (p, _) => s.setSt p .unknown
  | none => s

/-- The bounds of FOR. -/
def scanBounds (start end_ : Expr) (step : Option Expr) (s : Pass) : Pass :=
  let s := scanExpr end_ (scanExpr start s)
  match step with
  | some step => scanExpr step s
  | none => s

mutual

def scanStmt : Stmt → Pass → Pass
  | .assign target value, s => scanAssign target value s
  | .call e, s => scanCall e s
  | .if_ arms elseArm, s => Pass.join (scanElse elseArm (scanArms arms (s, fun _ => false)))
  | .case_ e arms elseArm, s | .guard e arms elseArm, s =>
    Pass.join (scanElse elseArm (scanArms arms (scanExpr e s, fun _ => false)))
  | .while_ cond body, s => Pass.join (Pass.branch (scanStmts body) (scanExpr cond s, fun _ => false))
  | .repeat_ body cond, s =>
    let b := Pass.branch (scanStmts body) (s, fun _ => false)
    Pass.join (scanExpr cond b.1, b.2)
  | .for_ _ start end_ step body, s =>
    Pass.join (Pass.branch (scanStmts body) (scanBounds start end_ step s, fun _ => false))
  | .loop body, s => Pass.join (Pass.branch (scanStmts body) (s, fun _ => false))
  | .with_ d _ body, s => Pass.join (Pass.branch (scanStmts body) (scanDesignator d s, fun _ => false))
  | .return_ (some e), s | .raise (some e), s => scanExpr e s
  | .block (.mk stmts _ _), s => scanStmts stmts s
  | .empty, s | .exit, s | .return_ none, s | .raise none, s | .retry, s => s

def scanStmts : List Stmt → Pass → Pass
  | [], s => s
  | stmt :: rest, s => scanStmts rest (scanStmt stmt s)

/-- Each arm from the state before the statement. -/
def scanArms : List Arm → Pass × Touched → Pass × Touched
  | [], b => b
  | .if_ cond body :: rest, b => scanArms rest (Pass.branch (scanStmts body) (scanExpr cond b.1, b.2))
  | .case_ body :: rest, b | .guard _ body :: rest, b => scanArms rest (Pass.branch (scanStmts body) b)

def scanElse : Option (List Stmt) → Pass × Touched → Pass × Touched
  | none, b => b
  | some body, b => Pass.branch (scanStmts body) b

end

/-! ## Procedures -/

/-- The parameters, the declarations and the body of a procedure. -/
structure Proc where
  params : List (List String)
  decls : List Decl
  body : Block

def Block.stmts : Block → List Stmt
  | .mk stmts _ _ => stmts

def collectVarNames : List Decl → List String
  | [] => []
  | .var names :: decls => names ++ collectVarNames decls
  | .procedure _ :: decls | .localModule _ _ _ _ :: decls | .class_ _ _ _ :: decls | .other _ :: decls =>
    collectVarNames decls

/-- The candidates for leaks. -/
def Proc.locals (f : Proc) : Finset String := (collectVarNames f.decls).toFinset \ f.params.flatten.toFinset

def reportLeaks (locals : Finset String) (v : Vars) : List Warning :=
  ((locals.filter fun p => v.st p = some .alloc ∧ ¬ v.escaped p).sort (· ≤ ·)).filterMap fun p =>
    (v.newSpan p).map (.leak p)

/-- The warnings of a procedure, without those of the nested ones. -/
def Proc.warnings (f : Proc) : List Warning :=
  let s := scanStmts f.body.stmts .start
  s.diags ++ reportLeaks f.locals s.vars

mutual

def scanDecls : List Decl → List Warning
  | [] => []
  | .procedure p :: rest => scanProc p ++ scanDecls rest
  | .var _ :: rest | .localModule _ _ _ _ :: rest | .class_ _ _ _ :: rest | .other _ :: rest => scanDecls rest

def scanProc : ProcDecl → List Warning
  | .mk _ params (some (.mk decls body)) => Proc.warnings ⟨params, decls, body⟩ ++ scanDecls decls
  | .mk _ _ none => []

end

mutual

/-- The procedures that are looked at. -/
def procs : List Decl → List Proc
  | [] => []
  | .procedure p :: rest => procsOf p ++ procs rest
  | .var _ :: rest | .localModule _ _ _ _ :: rest | .class_ _ _ _ :: rest | .other _ :: rest => procs rest

def procsOf : ProcDecl → List Proc
  | .mk _ params (some (.mk decls body)) => ⟨params, decls, body⟩ :: procs decls
  | .mk _ _ none => []

end

end NewM2.HeapCheck
