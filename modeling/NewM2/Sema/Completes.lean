import NewM2.Syntax.Expr

/-!
# Definite return (`newm2-sema/src/analyze.rs`)

Which statements control can fall through, as sema sees it. Of the expressions only those of call
statements are kept: no other is looked at. A function procedure is accepted if its statements do not
complete; the EXCEPT and FINALLY parts of its body are not asked.
-/

namespace NewM2.Sema.Completes
open Syntax

/-- `ast::Stmt`; the arms of IF, CASE and GUARD are their bodies, and RETURN has a value or not. The
block of the last statement comes with its EXCEPT arms and FINALLY part. -/
inductive Stmt
  | empty
  | assign
  | call (e : Expr)
  | if_ (arms : List (List Stmt)) (elseArm : Option (List Stmt))
  | case_ (arms : List (List Stmt)) (elseArm : Option (List Stmt))
  | guard (arms : List (List Stmt)) (elseArm : Option (List Stmt))
  | while_ (body : List Stmt)
  | repeat_ (body : List Stmt)
  | for_ (body : List Stmt)
  | loop (body : List Stmt)
  | with_ (body : List Stmt)
  | exit
  | return_ (value : Bool)
  | raise
  | retry
  | block (stmts : List Stmt) (except : List (List Stmt)) (finally_ : Option (List Stmt))

/-- `ast::Block`. -/
structure Block where
  stmts : List Stmt
  except : List (List Stmt)
  finally_ : Option (List Stmt)

/-- The name of the procedure that a call statement calls: the last field selector, or the last
segment when there are no selectors. -/
def calledName : Expr → Option String
  | .call (.designator segments selectors) _ | .designator segments selectors =>
    match selectors.getLast? with
    | some sel => sel.field?
    | none => segments.getLast?
  | _ => none

def isNoreturnCall (e : Expr) : Bool := calledName e == some "HALT" || calledName e == some "RAISE"

mutual

def Stmt.hasExit : Stmt → Bool
  | .exit => true
  | .if_ arms els | .case_ arms els | .guard arms els => anyHasExit arms || elseHasExit els
  | .while_ body | .repeat_ body | .for_ body | .with_ body | .block body _ _ => loopHasExit body
  -- an inner LOOP captures its own EXITs
  | .loop _ | .empty | .assign | .call _ | .return_ _ | .raise | .retry => false

def loopHasExit : List Stmt → Bool
  | [] => false
  | s :: ss => s.hasExit || loopHasExit ss

def anyHasExit : List (List Stmt) → Bool
  | [] => false
  | body :: rest => loopHasExit body || anyHasExit rest

def elseHasExit : Option (List Stmt) → Bool
  | none => false
  | some body => loopHasExit body

end

mutual

def Stmt.completes : Stmt → Bool
  | .return_ _ | .raise | .retry | .exit => false
  | .call e => !isNoreturnCall e
  | .empty | .assign => true
  | .if_ _ none => true
  | .if_ arms (some body) => anyCompletes arms || seqCompletes body
  -- without an ELSE these raise when no arm is selected
  | .case_ arms els | .guard arms els => anyCompletes arms || elseCompletes els
  | .while_ _ | .repeat_ _ | .for_ _ => true
  | .loop body => loopHasExit body
  | .with_ body | .block body _ _ => seqCompletes body

def seqCompletes : List Stmt → Bool
  | [] => true
  | s :: ss => s.completes && seqCompletes ss

def anyCompletes : List (List Stmt) → Bool
  | [] => false
  | body :: rest => seqCompletes body || anyCompletes rest

def elseCompletes : Option (List Stmt) → Bool
  | none => false
  | some body => seqCompletes body

end

mutual

/-- `RETURN requires a result expression`. -/
def Stmt.returnsValues : Stmt → Bool
  | .return_ value => value
  | .if_ arms els | .case_ arms els | .guard arms els => allReturnValues arms && elseReturnsValues els
  | .while_ body | .repeat_ body | .for_ body | .loop body | .with_ body => seqReturnsValues body
  | .block body except fin =>
    seqReturnsValues body && allReturnValues except && elseReturnsValues fin
  | .empty | .assign | .call _ | .exit | .raise | .retry => true

def seqReturnsValues : List Stmt → Bool
  | [] => true
  | s :: ss => s.returnsValues && seqReturnsValues ss

def allReturnValues : List (List Stmt) → Bool
  | [] => true
  | body :: rest => seqReturnsValues body && allReturnValues rest

def elseReturnsValues : Option (List Stmt) → Bool
  | none => true
  | some body => seqReturnsValues body

end

/-- The checks of sema on the body of a function procedure. `analyse_method_body` does not ask whether the
statements complete. -/
structure Accepted (isMethod : Bool) (b : Block) : Prop where
  not_completes : isMethod = false → seqCompletes b.stmts = false
  stmts : seqReturnsValues b.stmts = true
  except : allReturnValues b.except = true
  finally_ : elseReturnsValues b.finally_ = true

theorem anyHasExit_of_mem {arms : List (List Stmt)} {body : List Stmt} (hmem : body ∈ arms)
    (h : loopHasExit body = true) : anyHasExit arms = true := by
  induction arms with
  | nil => cases hmem
  | cons b rest ih =>
    rw [anyHasExit, Bool.or_eq_true]
    rcases List.mem_cons.1 hmem with rfl | hmem
    exacts [.inl h, .inr (ih hmem)]

theorem anyCompletes_of_mem {arms : List (List Stmt)} {body : List Stmt} (hmem : body ∈ arms)
    (h : seqCompletes body = true) : anyCompletes arms = true := by
  induction arms with
  | nil => cases hmem
  | cons b rest ih =>
    rw [anyCompletes, Bool.or_eq_true]
    rcases List.mem_cons.1 hmem with rfl | hmem
    exacts [.inl h, .inr (ih hmem)]

theorem returnsValues_of_mem {arms : List (List Stmt)} {body : List Stmt} (hmem : body ∈ arms)
    (h : allReturnValues arms = true) : seqReturnsValues body = true := by
  induction arms with
  | nil => cases hmem
  | cons b rest ih =>
    rw [allReturnValues, Bool.and_eq_true] at h
    rcases List.mem_cons.1 hmem with rfl | hmem
    exacts [h.1, ih hmem h.2]

theorem seqReturnsValues_append {l l' : List Stmt} :
    seqReturnsValues (l ++ l') = (seqReturnsValues l && seqReturnsValues l') := by
  induction l with
  | nil => rfl
  | cons s ss ih => rw [List.cons_append, seqReturnsValues, ih, seqReturnsValues, Bool.and_assoc]

theorem seqReturnsValues_flatten {arms : List (List Stmt)} :
    seqReturnsValues arms.flatten = allReturnValues arms := by
  induction arms with
  | nil => rfl
  | cons body rest ih =>
    rw [List.flatten_cons, seqReturnsValues_append, ih, allReturnValues]

end NewM2.Sema.Completes
