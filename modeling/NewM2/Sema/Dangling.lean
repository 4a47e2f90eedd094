import Mathlib
import NewM2.Sema.Leaks
import NewM2.Sema.Paths

/-! # Uses after DISPOSE

`Proc.dangling_real` says when the uses after DISPOSE and the second DISPOSEs that the pass reports of a procedure
are real, on every path through its body. -/

namespace NewM2.HeapCheck
open Sema

/-! ## The paths of a body -/

/-- How an argument is passed. -/
inductive Passing
  | value
  /-- To a VAR parameter. -/
  | reference
  /-- Not evaluated, as by SIZE. -/
  | name
deriving Repr, DecidableEq

/-- What a body does not say: how the procedures that it calls take their arguments and what they assign, and the names
that are in scope around it. -/
structure Surroundings where
  passing : Expr → Nat → Passing
  assigns : Expr → String → Bool
  inScope : String → Bool

/-- The place of a variable that is assigned. -/
def Act.written? : Act → Option (String × Span)
  | use p span .write => some (p, span)
  | use _ _ _ | set _ | dispose _ | hidden _ => none

/-- The places of plain assignments. -/
def Code.writes : Code → List (String × Span)
  | acts l => l.filterMap Act.written?
  | exit | return_ | raise | retry => []
  | seq a b | choose a b | protect a b | finally_ a b => a.writes ++ b.writes
  | loop a | forget a | scope _ a => a.writes

def Act.named? : Act → Option Act
  | use p span _ => some (.use p span .named)
  | set _ | dispose _ | hidden _ => none

/-- An argument, whose evaluation does `acts`. -/
def argActs (passing : Passing) (arg : Expr) (acts : List Act) : List Act :=
  match passing with
  | .value => acts
  | .reference =>
    match simpleVar arg with
    | some (p, span) => [.use p span .reference]
    | none => acts
  | .name => acts.filterMap Act.named?

/-- The variable is passed to a VAR parameter. -/
def passedTo (c : Surroundings) (callee : Expr) (p : String) : Nat → List Expr → Bool
  | _, [] => false
  | i, arg :: rest => c.passing callee i == .reference && arg.carries p || passedTo c callee p (i + 1) rest

/-- The name that a designator begins with. -/
def baseActs (segments : List String) (span : Span) : List Act :=
  match segments with
  | [name] => [.use name span .read]
  | _ => []

mutual

def Expr.acts (c : Surroundings) : Expr → List Act
  | .literal => []
  | .designator d => d.acts c
  | .call callee args =>
    (if (simpleVar callee).isSome then [] else callee.acts c) ++ (argsActs c callee 0 args ++
      [.hidden fun p => c.assigns callee p || passedTo c callee p 0 args])
  | .binary _ lhs rhs => lhs.acts c ++ rhs.acts c
  | .unary _ e => e.acts c
  | .set _ elements => elementsActs c elements

def argsActs (c : Surroundings) (callee : Expr) : Nat → List Expr → List Act
  | _, [] => []
  | i, arg :: rest => argActs (c.passing callee i) arg (arg.acts c) ++ argsActs c callee (i + 1) rest

def exprsActs (c : Surroundings) : List Expr → List Act
  | [] => []
  | e :: rest => e.acts c ++ exprsActs c rest

def Designator.acts (c : Surroundings) : Designator → List Act
  | .mk segments selectors span => baseActs segments span ++ selectorsActs c selectors

def selectorsActs (c : Surroundings) : List Selector → List Act
  | [] => []
  | .index indices :: rest => exprsActs c indices ++ selectorsActs c rest
  | .field _ :: rest | .deref :: rest | .typeGuard _ :: rest => selectorsActs c rest

def elementsActs (c : Surroundings) : List SetElem → List Act
  | [] => []
  | .single e :: rest => e.acts c ++ elementsActs c rest
  | .range lo hi :: rest => lo.acts c ++ (hi.acts c ++ elementsActs c rest)

end

/-- The value first. -/
def assignCode (c : Surroundings) (target : Designator) (value : Expr) : Code :=
  .seq (.acts (value.acts c)) (match target.var? with
    | some (p, span) => .seq (.acts [.use p span .write]) (.acts [.set p])
    | none => .acts (target.acts c))

/-- DISPOSE does not evaluate its other arguments. -/
def callCode (c : Surroundings) (e : Expr) : Code :=
  match heapCall e with
  | some (.new p _ rest) => .seq (.acts (exprsActs c rest)) (.acts [.set p])
  | some (.dispose p span rest) =>
    .seq (.acts ((exprsActs c rest).filterMap Act.named?)) (.seq (.acts [.use p span .dispose]) (.acts [.dispose p]))
  -- a bare procedure is called as well
  | none => .acts (e.acts c ++ [.hidden (c.assigns e)])

def optionActs (c : Surroundings) (e : Option Expr) : List Act := exprsActs c e.toList

mutual

def Stmt.code (c : Surroundings) (inScope : String → Bool) : Stmt → Code
  | .empty => .acts []
  | .assign target value => assignCode c target value
  | .call e => callCode c e
  | .if_ arms elseArm => armsCode c inScope (elseCode c inScope (.acts []) elseArm) arms
  -- without ELSE an exception is raised
  | .case_ e arms elseArm | .guard e arms elseArm =>
    .seq (.acts (e.acts c)) (armsCode c inScope (elseCode c inScope .raise elseArm) arms)
  | .while_ cond body => .loop (.seq (.acts (cond.acts c)) (.choose (seqCode c inScope body) .exit))
  | .repeat_ body cond =>
    .loop (.seq (.forget (seqCode c inScope body)) (.seq (.acts (cond.acts c)) (.choose (.acts []) .exit)))
  | .for_ var start end_ step body =>
    .seq (.acts (start.acts c ++ (.hidden (fun p => p == var) :: (end_.acts c ++ optionActs c step))))
      (.loop (.choose .exit (.seq (seqCode c inScope body) (.acts [.hidden fun p => p == var]))))
  | .loop body => .loop (seqCode c inScope body)
  -- a name stands for a field if it stands for nothing else
  | .with_ d fields body =>
    .seq (.acts (d.acts c)) (.scope (fun p => fields.contains p && !inScope p) (seqCode c inScope body))
  | .exit => .exit
  | .return_ e => .seq (.acts (optionActs c e)) .return_
  | .raise e => .seq (.acts (optionActs c e)) .raise
  | .retry => .retry
  | .block b => b.code c inScope

def seqCode (c : Surroundings) (inScope : String → Bool) : List Stmt → Code
  | [] => .acts []
  | stmt :: rest => .seq (stmt.code c inScope) (seqCode c inScope rest)

def armsCode (c : Surroundings) (inScope : String → Bool) (otherwise : Code) : List Arm → Code
  | [] => otherwise
  | .if_ cond body :: rest => .seq (.acts (cond.acts c)) (.choose (seqCode c inScope body) (armsCode c inScope otherwise rest))
  | .case_ body :: rest => .choose (seqCode c inScope body) (armsCode c inScope otherwise rest)
  | .guard denoter body :: rest =>
    .choose (.scope (fun p => denoter == some p) (seqCode c (fun p => inScope p || denoter == some p) body))
      (armsCode c inScope otherwise rest)

def elseCode (c : Surroundings) (inScope : String → Bool) (otherwise : Code) : Option (List Stmt) → Code
  | none => otherwise
  | some body => seqCode c inScope body

def Block.code (c : Surroundings) (inScope : String → Bool) : Block → Code
  | .mk stmts except none => .protect (seqCode c inScope stmts) (handlersCode c inScope except)
  | .mk stmts except (some body) =>
    .finally_ (.protect (seqCode c inScope stmts) (handlersCode c inScope except)) (seqCode c inScope body)

def handlersCode (c : Surroundings) (inScope : String → Bool) : List (List Stmt) → Code
  | [] => .raise
  | body :: rest => .choose (seqCode c inScope body) (handlersCode c inScope rest)

end

/-! ## Where the pass takes a variable for DISPOSEd -/

mutual

/-- The places of an expression at which the pass looks at the variable. -/
def Expr.seen (p : String) : Expr → List Span
  | .designator d => d.seen p
  | .call callee args => (if (simpleVar callee).isSome then [] else callee.seen p) ++ exprsSeen p args
  | .binary _ lhs rhs => lhs.seen p ++ rhs.seen p
  | .unary _ e => e.seen p
  | .literal | .set _ _ => []

def exprsSeen (p : String) : List Expr → List Span
  | [] => []
  | e :: rest => e.seen p ++ exprsSeen p rest

def Designator.seen (p : String) : Designator → List Span
  | .mk segments selectors span => (if segments = [p] then [span] else []) ++ selectorsSeen p selectors

def selectorsSeen (p : String) : List Selector → List Span
  | [] => []
  | .index indices :: rest => exprsSeen p indices ++ selectorsSeen p rest
  | .field _ :: rest | .deref :: rest | .typeGuard _ :: rest => selectorsSeen p rest

end

/-- The places of which there is a warning. -/
def flag (l : List Span) (st : Option St) : List Span := if st = some .disposed then l else []

def callFlags (p : String) (e : Expr) (st : Option St) : List Span :=
  match heapCall e with
  | some (.new q _ rest) => flag (exprsSeen p rest) (if q = p then some .alloc else st)
  | some (.dispose q span rest) =>
    flag (if q = p then [span] else []) st ++ flag (exprsSeen p rest) (if q = p then some .disposed else st)
  | none => flag (e.seen p) st

mutual

/-- The places at which `p` is used and taken for DISPOSEd, if its state is `st` before the statement. -/
def Stmt.flagged (p : String) : Stmt → Option St → List Span
  | .assign target value, st => flag (value.seen p) st ++ flag (target.seen p) st
  | .call e, st => callFlags p e st
  | .if_ arms elseArm, st => armsFlagged p arms st ++ elseFlagged p elseArm st
  | .case_ e arms elseArm, st | .guard e arms elseArm, st =>
    flag (e.seen p) st ++ (armsFlagged p arms st ++ elseFlagged p elseArm st)
  | .while_ cond body, st => flag (cond.seen p) st ++ seqFlagged p body st
  | .repeat_ body cond, st => seqFlagged p body st ++ flag (cond.seen p) st
  | .for_ _ start end_ step body, st =>
    flag (start.seen p ++ (end_.seen p ++ exprsSeen p step.toList)) st ++ seqFlagged p body st
  | .loop body, st => seqFlagged p body st
  | .with_ d _ body, st => flag (d.seen p) st ++ seqFlagged p body st
  | .return_ e, st | .raise e, st => flag (exprsSeen p e.toList) st
  | .block (.mk stmts _ _), st => seqFlagged p stmts st
  | .empty, _ | .exit, _ | .retry, _ => []

def seqFlagged (p : String) : List Stmt → Option St → List Span
  | [], _ => []
  | stmt :: rest, st => stmt.flagged p st ++ seqFlagged p rest (stmt.track p st)

def armsFlagged (p : String) : List Arm → Option St → List Span
  | [], _ => []
  | .if_ cond body :: rest, st => flag (cond.seen p) st ++ (seqFlagged p body st ++ armsFlagged p rest st)
  | .case_ body :: rest, st | .guard _ body :: rest, st => seqFlagged p body st ++ armsFlagged p rest st

def elseFlagged (p : String) : Option (List Stmt) → Option St → List Span
  | none, _ => []
  | some body, st => seqFlagged p body st

end

/-! ## Places -/

section places
variable {c : Surroundings} {p : String} {span : Span}

/-- The places of the uses. -/
def usesOf (l : List Act) : List (String × Span) := l.filterMap Act.place?

@[simp] theorem usesOf_nil : usesOf [] = [] := rfl

@[simp] theorem usesOf_use (q : String) (span : Span) (access : Access) (l : List Act) :
    usesOf (.use q span access :: l) = (q, span) :: usesOf l := rfl

@[simp] theorem usesOf_hidden (may : String → Bool) (l : List Act) : usesOf (.hidden may :: l) = usesOf l := rfl

@[simp] theorem usesOf_append (l l' : List Act) : usesOf (l ++ l') = usesOf l ++ usesOf l' := List.filterMap_append

@[simp] theorem usesOf_named (l : List Act) : usesOf (l.filterMap Act.named?) = usesOf l := by
  induction l with
  | nil => rfl
  | cons act l ih =>
    cases act with
    | use p span access => exact congrArg ((p, span) :: ·) ih
    | set | dispose | hidden => exact ih

@[simp] theorem all_quiet_named (l : List Act) : (l.filterMap Act.named?).all Act.quiet = true := by
  induction l with
  | nil => rfl
  | cons act l ih => cases act <;> simpa [Act.named?, Act.quiet] using ih

/-- However an argument is passed, its places are the same. -/
@[simp] theorem usesOf_argActs (passing : Passing) (e : Expr) :
    usesOf (argActs passing e (e.acts c)) = usesOf (e.acts c) := by
  cases passing with
  | value => rfl
  | name => exact usesOf_named _
  | reference =>
    unfold argActs
    rcases hvar : simpleVar e with - | ⟨q, span⟩
    · rfl
    · rw [eq_of_simpleVar hvar]
      rfl

theorem all_quiet_argActs {passing : Passing} {e : Expr} {l : List Act} (h : l.all Act.quiet) :
    (argActs passing e l).all Act.quiet := by
  cases passing with
  | value => exact h
  | name => exact all_quiet_named l
  | reference =>
    unfold argActs
    rcases simpleVar e with - | -
    · exact h
    · rfl

mutual

theorem Expr.all_quiet : ∀ e : Expr, (e.acts c).all Act.quiet = true
  | .literal => rfl
  | .designator d => d.all_quiet
  | .call callee args => by
    have hcallee := callee.all_quiet
    have hargs := argsActs_all_quiet callee 0 args
    unfold Expr.acts
    split_ifs <;> simp [hcallee, hargs, Act.quiet]
  | .binary _ lhs rhs => by simp [Expr.acts, lhs.all_quiet, rhs.all_quiet]
  | .unary _ e => e.all_quiet
  | .set _ elements => elementsActs_all_quiet elements

theorem argsActs_all_quiet (callee : Expr) : ∀ (i : Nat) (l : List Expr), (argsActs c callee i l).all Act.quiet = true
  | _, [] => rfl
  | i, e :: rest => by
    rw [argsActs, List.all_append, all_quiet_argActs e.all_quiet, argsActs_all_quiet callee (i + 1) rest]
    rfl

theorem exprsActs_all_quiet : ∀ l : List Expr, (exprsActs c l).all Act.quiet = true
  | [] => rfl
  | e :: rest => by simp [exprsActs, e.all_quiet, exprsActs_all_quiet rest]

theorem Designator.all_quiet : ∀ d : Designator, (d.acts c).all Act.quiet = true
  | .mk segments selectors span => by
    have hbase : (baseActs segments span).all Act.quiet = true := by
      rcases segments with - | ⟨name, - | -⟩ <;> rfl
    rw [Designator.acts, List.all_append, hbase, selectorsActs_all_quiet selectors]
    rfl

theorem selectorsActs_all_quiet : ∀ l : List Selector, (selectorsActs c l).all Act.quiet = true
  | [] => rfl
  | .index indices :: rest => by simp [selectorsActs, exprsActs_all_quiet indices, selectorsActs_all_quiet rest]
  | .field _ :: rest | .deref :: rest | .typeGuard _ :: rest => selectorsActs_all_quiet rest

theorem elementsActs_all_quiet : ∀ l : List SetElem, (elementsActs c l).all Act.quiet = true
  | [] => rfl
  | .single e :: rest => by simp [elementsActs, e.all_quiet, elementsActs_all_quiet rest]
  | .range lo hi :: rest => by simp [elementsActs, lo.all_quiet, hi.all_quiet, elementsActs_all_quiet rest]

end

mutual

/-- The pass looks at places that the paths go through. -/
theorem Expr.mem_uses : ∀ e : Expr, span ∈ e.seen p → (p, span) ∈ usesOf (e.acts c)
  | .literal, h | .set _ _, h => absurd h List.not_mem_nil
  | .designator d, h => d.mem_uses h
  | .call callee args, h => by
    unfold Expr.seen at h
    unfold Expr.acts
    rw [usesOf_append, usesOf_append, List.mem_append, List.mem_append]
    rcases List.mem_append.1 h with h | h
    · left
      split_ifs at h ⊢ with hvar
      · cases h
      · exact callee.mem_uses h
    · exact .inr (.inl (argsActs_mem_uses callee 0 args h))
  | .binary _ lhs rhs, h => by
    unfold Expr.acts
    rw [usesOf_append]
    exact List.mem_append.2 ((List.mem_append.1 h).imp lhs.mem_uses rhs.mem_uses)
  | .unary _ e, h => e.mem_uses h

theorem argsActs_mem_uses (callee : Expr) :
    ∀ (i : Nat) (l : List Expr), span ∈ exprsSeen p l → (p, span) ∈ usesOf (argsActs c callee i l)
  | _, [], h => absurd h List.not_mem_nil
  | i, e :: rest, h => by
    rw [argsActs, usesOf_append, usesOf_argActs]
    exact List.mem_append.2 ((List.mem_append.1 h).imp e.mem_uses (argsActs_mem_uses callee (i + 1) rest))

theorem exprsActs_mem_uses : ∀ l : List Expr, span ∈ exprsSeen p l → (p, span) ∈ usesOf (exprsActs c l)
  | [], h => absurd h List.not_mem_nil
  | e :: rest, h => by
    rw [exprsActs, usesOf_append]
    exact List.mem_append.2 ((List.mem_append.1 h).imp e.mem_uses (exprsActs_mem_uses rest))

theorem Designator.mem_uses : ∀ d : Designator, span ∈ d.seen p → (p, span) ∈ usesOf (d.acts c)
  | .mk segments selectors place, h => by
    rw [Designator.acts, usesOf_append]
    refine List.mem_append.2 ((List.mem_append.1 h).imp (fun h => ?_) (selectorsActs_mem_uses selectors))
    split_ifs at h with hsegments
    · obtain rfl := List.mem_singleton.1 h
      rw [hsegments]
      exact List.mem_singleton_self _
    · cases h

theorem selectorsActs_mem_uses : ∀ l : List Selector, span ∈ selectorsSeen p l → (p, span) ∈ usesOf (selectorsActs c l)
  | [], h => absurd h List.not_mem_nil
  | .index indices :: rest, h => by
    rw [selectorsActs, usesOf_append]
    exact List.mem_append.2 ((List.mem_append.1 h).imp (exprsActs_mem_uses indices) (selectorsActs_mem_uses rest))
  | .field _ :: rest, h | .deref :: rest, h | .typeGuard _ :: rest, h => selectorsActs_mem_uses rest h

end

theorem mem_flag {l : List Span} {st : Option St} : span ∈ flag l st ↔ st = some .disposed ∧ span ∈ l := by
  unfold flag
  split_ifs with h <;> simp [h]

end places

/-! ## The paths and the pass -/

section sound
variable {c : Surroundings} {p : String} {span : Span} {flagged : Span → Prop} {l l' : List Span} {u u' : List (String × Span)}
  {acts : List Act} {st : Option St} {post : Prop}

mutual

theorem Stmt.mem_uses {inScope : String → Bool} : ∀ (stmt : Stmt) (st : Option St), span ∈ stmt.flagged p st → (p, span) ∈ (stmt.code c inScope).uses
  | .assign target value, st, h => by
    unfold Stmt.code assignCode
    refine List.mem_append.2 ((List.mem_append.1 h).imp (fun h => value.mem_uses (mem_flag.1 h).2) fun h => ?_)
    have h := (mem_flag.1 h).2
    rcases hvar : target.var? with - | ⟨q, place⟩
    · exact target.mem_uses h
    · have huse := target.mem_uses (c := c) h
      rw [target.eq_of_var? hvar] at huse
      exact huse
  | .call e, st, h => by
    revert h
    unfold Stmt.flagged callFlags Stmt.code callCode
    rcases heapCall e with - | ⟨q, place, rest⟩ | ⟨q, place, rest⟩ <;> intro h
    · show _ ∈ usesOf _
      rw [usesOf_append]
      exact List.mem_append_left _ (e.mem_uses (mem_flag.1 h).2)
    · exact List.mem_append_left _ (exprsActs_mem_uses rest (mem_flag.1 h).2)
    · rcases List.mem_append.1 h with h | h
      · refine List.mem_append_right _ (List.mem_append_left _ ?_)
        have h := (mem_flag.1 h).2
        split_ifs at h with hq
        · obtain rfl := List.mem_singleton.1 h
          rw [hq]
          exact List.mem_singleton_self _
        · cases h
      · refine List.mem_append_left _ ?_
        show _ ∈ usesOf _
        rw [usesOf_named]
        exact exprsActs_mem_uses rest (mem_flag.1 h).2
  | .if_ arms elseArm, st, h => armsCode_mem_uses arms st ((List.mem_append.1 h).imp_right (elseCode_mem_uses elseArm st))
  | .case_ e arms elseArm, st, h | .guard e arms elseArm, st, h =>
    List.mem_append.2 ((List.mem_append.1 h).imp (fun h => e.mem_uses (mem_flag.1 h).2) fun h =>
      armsCode_mem_uses arms st ((List.mem_append.1 h).imp_right (elseCode_mem_uses elseArm st)))
  | .while_ cond body, st, h =>
    List.mem_append.2 ((List.mem_append.1 h).imp (fun h => cond.mem_uses (mem_flag.1 h).2) fun h =>
      List.mem_append_left _ (seqCode_mem_uses body st h))
  | .repeat_ body cond, st, h =>
    List.mem_append.2 ((List.mem_append.1 h).imp (seqCode_mem_uses body st) fun h =>
      List.mem_append_left _ (cond.mem_uses (mem_flag.1 h).2))
  | .for_ _ start end_ step body, st, h => by
    refine List.mem_append.2 ((List.mem_append.1 h).imp (fun h => ?_) fun h =>
      List.mem_append_right _ (List.mem_append_left _ (seqCode_mem_uses body st h)))
    show _ ∈ usesOf _
    rw [usesOf_append, usesOf_hidden, usesOf_append]
    exact List.mem_append.2 ((List.mem_append.1 (mem_flag.1 h).2).imp start.mem_uses fun h =>
      List.mem_append.2 ((List.mem_append.1 h).imp end_.mem_uses (exprsActs_mem_uses step.toList)))
  | .loop body, st, h => seqCode_mem_uses body st h
  | .with_ d _ body, st, h =>
    List.mem_append.2 ((List.mem_append.1 h).imp (fun h => d.mem_uses (mem_flag.1 h).2) (seqCode_mem_uses body st))
  | .return_ e, _, h | .raise e, _, h => List.mem_append_left _ (exprsActs_mem_uses e.toList (mem_flag.1 h).2)
  | .block (.mk stmts _ none), st, h => List.mem_append_left _ (seqCode_mem_uses stmts st h)
  | .block (.mk stmts _ (some _)), st, h =>
    List.mem_append_left _ (List.mem_append_left _ (seqCode_mem_uses stmts st h))
  | .empty, _, h | .exit, _, h | .retry, _, h => absurd h List.not_mem_nil

theorem seqCode_mem_uses {inScope : String → Bool} :
    ∀ (stmts : List Stmt) (st : Option St), span ∈ seqFlagged p stmts st → (p, span) ∈ (seqCode c inScope stmts).uses
  | [], _, h => absurd h List.not_mem_nil
  | stmt :: rest, st, h =>
    List.mem_append.2 ((List.mem_append.1 h).imp (stmt.mem_uses st) (seqCode_mem_uses rest _))

theorem armsCode_mem_uses {inScope : String → Bool} {otherwise : Code} : ∀ (arms : List Arm) (st : Option St),
    span ∈ armsFlagged p arms st ∨ (p, span) ∈ otherwise.uses → (p, span) ∈ (armsCode c inScope otherwise arms).uses
  | [], _, h => h.resolve_left List.not_mem_nil
  | .if_ cond body :: rest, st, h => by
    unfold armsFlagged at h
    rw [List.mem_append, List.mem_append, or_assoc, or_assoc] at h
    exact List.mem_append.2 (h.imp (fun h => cond.mem_uses (mem_flag.1 h).2) fun h =>
      List.mem_append.2 (h.imp (seqCode_mem_uses body st) (armsCode_mem_uses rest st)))
  | .case_ body :: rest, st, h | .guard _ body :: rest, st, h => by
    unfold armsFlagged at h
    rw [List.mem_append, or_assoc] at h
    exact List.mem_append.2 (h.imp (seqCode_mem_uses body st) (armsCode_mem_uses rest st))

theorem elseCode_mem_uses {inScope : String → Bool} {otherwise : Code} : ∀ (elseArm : Option (List Stmt)) (st : Option St),
    span ∈ elseFlagged p elseArm st → (p, span) ∈ (elseCode c inScope otherwise elseArm).uses
  | none, _, h => absurd h List.not_mem_nil
  | some body, st, h => seqCode_mem_uses body st h

end

theorem branches_mem_uses {inScope : String → Bool} {otherwise : Code} (arms : List Arm) (elseArm : Option (List Stmt)) (st : Option St) :
    ∀ span ∈ armsFlagged p arms st ++ elseFlagged p elseArm st,
      (p, span) ∈ (armsCode c inScope (elseCode c inScope otherwise elseArm) arms).uses := by
  intro span h
  exact armsCode_mem_uses arms st ((List.mem_append.1 h).imp_right (elseCode_mem_uses elseArm st))

/-- The places of a part that are flagged are those of the pass. -/
def Covers (p : String) (flagged : Span → Prop) (l : List Span) (u : List (String × Span)) : Prop :=
  ∀ span, (p, span) ∈ u → flagged span → span ∈ l

theorem Covers.left (hnodup : (u ++ u').Nodup) (hl' : ∀ span ∈ l', (p, span) ∈ u')
    (h : Covers p flagged (l ++ l') (u ++ u')) : Covers p flagged l u := by
  intro span hu hspan
  refine (List.mem_append.1 (h span (List.mem_append_left _ hu) hspan)).resolve_right fun hmem => ?_
  exact List.disjoint_of_nodup_append hnodup hu (hl' span hmem)

theorem Covers.right (hnodup : (u ++ u').Nodup) (hl : ∀ span ∈ l, (p, span) ∈ u)
    (h : Covers p flagged (l ++ l') (u ++ u')) : Covers p flagged l' u' := by
  intro span hu hspan
  refine (List.mem_append.1 (h span (List.mem_append_right _ hu) hspan)).resolve_left fun hmem => ?_
  exact List.disjoint_of_nodup_append hnodup (hl span hmem) hu

/-- An expression, or several. -/
theorem Sound.expr (hquiet : acts.all Act.quiet) (hcovers : Covers p flagged (flag l st) (usesOf acts)) :
    Sound p flagged (st = some .disposed) (.acts acts) (st = some .disposed) :=
  .quiet hquiet fun span _ _ hmem hspan =>
    (mem_flag.1 (hcovers span (List.mem_filterMap.2 ⟨_, hmem, rfl⟩) hspan)).1

/-- An expression with what follows. -/
theorem Sound.expr_seq {b : Code} (hquiet : acts.all Act.quiet) (hl : ∀ span ∈ l, (p, span) ∈ usesOf acts)
    (hl' : ∀ span ∈ l', (p, span) ∈ b.uses) (hnodup : (usesOf acts ++ b.uses).Nodup)
    (hcovers : Covers p flagged (flag l st ++ l') (usesOf acts ++ b.uses))
    (hb : b.uses.Nodup → Covers p flagged l' b.uses → Sound p flagged (st = some .disposed) b post) :
    Sound p flagged (st = some .disposed) (.seq (.acts acts) b) post := by
  have hl : ∀ span ∈ flag l st, (p, span) ∈ usesOf acts := fun span h => hl span (mem_flag.1 h).2
  exact (Sound.expr hquiet (hcovers.left hnodup hl')).seq
    (hb (List.nodup_append.1 hnodup).2.1 (hcovers.right hnodup hl))

/-- A branch or what follows it. -/
theorem Sound.either {a b : Code} {pre : Prop} (hl : ∀ span ∈ l, (p, span) ∈ a.uses) (hl' : ∀ span ∈ l', (p, span) ∈ b.uses)
    (hnodup : (a.uses ++ b.uses).Nodup) (hcovers : Covers p flagged (l ++ l') (a.uses ++ b.uses))
    (ha : a.uses.Nodup → Covers p flagged l a.uses → Sound p flagged pre a post)
    (hb : b.uses.Nodup → Covers p flagged l' b.uses → Sound p flagged pre b post) :
    Sound p flagged pre (.choose a b) post :=
  .choose (ha (List.nodup_append.1 hnodup).1 (hcovers.left hnodup hl'))
    (hb (List.nodup_append.1 hnodup).2.1 (hcovers.right hnodup hl))

mutual

theorem track_isSome : ∀ (stmt : Stmt) (st : Option St), st.isSome → (stmt.track p st).isSome
  | .assign target _, st, h => by
    unfold Stmt.track
    split_ifs <;> simp [h]
  | .call e, st, h => by
    unfold Stmt.track
    rcases heapCall e with - | - | - <;> dsimp only <;> (try split_ifs) <;> simp [h]
  | .if_ arms elseArm, st, h | .case_ _ arms elseArm, st, h | .guard _ arms elseArm, st, h => by
    unfold Stmt.track
    split_ifs <;> simp [h]
  | .while_ _ body, st, h | .repeat_ body _, st, h | .for_ _ _ _ _ body, st, h | .loop body, st, h
  | .with_ _ _ body, st, h => by
    unfold Stmt.track
    split_ifs <;> simp [h]
  | .block (.mk stmts _ _), st, h => trackSeq_isSome stmts st h
  | .empty, _, h | .exit, _, h | .return_ _, _, h | .raise _, _, h | .retry, _, h => h

theorem trackSeq_isSome : ∀ (stmts : List Stmt) (st : Option St), st.isSome → (trackSeq p stmts st).isSome
  | [], _, h => h
  | stmt :: rest, st, h => trackSeq_isSome rest _ (track_isSome stmt st h)

end

/-- A branch that does not change the state leaves the variable DISPOSEd. -/
theorem trackSeq_of_unchanged {stmts : List Stmt} (hst : st = some .disposed)
    (hchanged : changed st (trackSeq p stmts st) = false) : trackSeq p stmts st = some .disposed := by
  unfold changed at hchanged
  rw [trackSeq_isSome stmts st (by rw [hst]; rfl), Bool.true_and, bne_eq_false_iff_eq] at hchanged
  rw [hchanged, hst]

theorem eq_of_ite_unknown {b : Bool} (h : (if b then some .unknown else st) = some St.disposed) :
    b = false ∧ st = some .disposed := by
  cases b
  · exact ⟨rfl, h⟩
  · cases h

theorem Sound.assign {inScope : String → Bool} {target : Designator} {value : Expr} (hnodup : (Stmt.code c inScope (.assign target value)).uses.Nodup)
    (hcovers : Covers p flagged (Stmt.flagged p (.assign target value) st) (Stmt.code c inScope (.assign target value)).uses) :
    Sound p flagged (st = some .disposed) (Stmt.code c inScope (.assign target value))
      (Stmt.track p (.assign target value) st = some .disposed) := by
  revert hnodup hcovers
  unfold Stmt.code assignCode Stmt.track
  rcases hvar : target.var? with - | ⟨q, place⟩ <;> intro hnodup hcovers
  · rw [if_neg (by simp)]
    refine .expr_seq value.all_quiet (fun _ => value.mem_uses) (fun _ h => ?_) hnodup hcovers fun _ hcovers => ?_
    · exact target.mem_uses (mem_flag.1 h).2
    · exact .expr target.all_quiet hcovers
  · obtain rfl := target.eq_of_var? hvar
    refine .expr_seq value.all_quiet (fun _ => value.mem_uses) (fun _ h => ?_) hnodup hcovers fun _ _ =>
      .seq (.quiet rfl fun span access hreads hmem => ?_) (.set q fun h => ?_)
    · exact Designator.mem_uses (c := c) _ (mem_flag.1 h).2
    · cases List.mem_singleton.1 hmem
      cases hreads
    · simp only [Option.map_some, Option.some.injEq] at h
      split_ifs at h with hq
      · cases h
      · exact ⟨h, hq⟩

theorem Sound.call {inScope : String → Bool} {e : Expr} (hnodup : (Stmt.code c inScope (.call e)).uses.Nodup)
    (hcovers : Covers p flagged (Stmt.flagged p (.call e) st) (Stmt.code c inScope (.call e)).uses) :
    Sound p flagged (st = some .disposed) (Stmt.code c inScope (.call e)) (Stmt.track p (.call e) st = some .disposed) := by
  revert hnodup hcovers
  unfold Stmt.code callCode Stmt.track Stmt.flagged callFlags
  rcases heapCall e with - | ⟨q, place, rest⟩ | ⟨q, place, rest⟩ <;> intro hnodup hcovers <;> dsimp only
  · refine .expr ?_ fun span hspan => hcovers span ?_
    · rw [List.all_append, e.all_quiet]
      rfl
    · exact hspan
  · -- NEW: the other arguments are evaluated before
    have hrest : Sound p flagged (st = some .disposed) (.acts (exprsActs c rest)) (st = some .disposed) := by
      refine .quiet (exprsActs_all_quiet rest) fun span _ _ hmem hspan => ?_
      have h := (mem_flag.1 (hcovers span (List.mem_append_left _ (List.mem_filterMap.2 ⟨_, hmem, rfl⟩)) hspan)).1
      split_ifs at h with hq
      · cases h
      · exact h
    refine hrest.seq (.set q fun h => ?_)
    split_ifs at h with hq
    · cases h
    · exact ⟨h, hq⟩
  · -- DISPOSE: they are not evaluated
    have hrest : Sound p flagged (st = some .disposed) (.acts ((exprsActs c rest).filterMap Act.named?))
        (st = some .disposed) := by
      refine .quiet (all_quiet_named _) fun span access hreads hmem => ?_
      obtain ⟨act, -, hact⟩ := List.mem_filterMap.1 hmem
      cases act <;> cases hact
      cases hreads
    refine hrest.seq (.seq (.quiet rfl fun span access _ hmem hspan => ?_) (.dispose q fun h hq => ?_))
    · cases List.mem_singleton.1 hmem
      rcases List.mem_append.1 (hcovers _ (List.mem_append_right _ (List.mem_cons_self ..)) hspan) with h | h
      · exact (mem_flag.1 h).1
      · have huse : (p, place) ∈ usesOf ((exprsActs c rest).filterMap Act.named?) := by
          rw [usesOf_named]
          exact exprsActs_mem_uses rest (mem_flag.1 h).2
        exact absurd (List.mem_cons_self ..) (List.disjoint_of_nodup_append hnodup huse)
    · rwa [if_neg hq] at h

theorem unchanged_of_track {b b' : Bool} (h : (if b || b' then some .unknown else st) = some St.disposed) :
    (st = some .disposed ∧ b = false) ∧ st = some .disposed ∧ b' = false := by
  obtain ⟨hb, hst⟩ := eq_of_ite_unknown h
  rw [Bool.or_eq_false_iff] at hb
  exact ⟨⟨hst, hb.1⟩, hst, hb.2⟩

mutual

theorem Sound.stmt {inScope : String → Bool} : ∀ (stmt : Stmt) (st : Option St), (stmt.code c inScope).uses.Nodup →
    Covers p flagged (stmt.flagged p st) (stmt.code c inScope).uses →
    Sound p flagged (st = some .disposed) (stmt.code c inScope) (stmt.track p st = some .disposed)
  | .empty, _, _, _ => .nil
  | .assign _ _, _, hnodup, hcovers => .assign hnodup hcovers
  | .call _, _, hnodup, hcovers => .call hnodup hcovers
  | .if_ arms elseArm, st, hnodup, hcovers =>
    Sound.arms arms elseArm st hnodup hcovers (fun h => (unchanged_of_track h).1) fun hnodup hcovers =>
      Sound.else_ elseArm st hnodup hcovers (fun h => (unchanged_of_track h).2)
        (Sound.nil.mono (fun _ _ => id) id fun h => (unchanged_of_track h).1.1)
  | .case_ e arms elseArm, st, hnodup, hcovers | .guard e arms elseArm, st, hnodup, hcovers =>
    .expr_seq e.all_quiet (fun _ => e.mem_uses) (branches_mem_uses arms elseArm st) hnodup hcovers fun hnodup hcovers =>
      Sound.arms arms elseArm st hnodup hcovers (fun h => (unchanged_of_track h).1) fun hnodup hcovers =>
        Sound.else_ elseArm st hnodup hcovers (fun h => (unchanged_of_track h).2) (.jump (by simp))
  | .while_ cond body, st, hnodup, hcovers => by
    have hbody := fun (hnodup : (seqCode c inScope body).uses.Nodup) hcovers => Sound.choose (Sound.stmts body st hnodup hcovers) (.jump (a := .exit) (by simp))
    refine (Sound.loop (.expr_seq cond.all_quiet (fun _ => cond.mem_uses) (fun _ h => List.mem_append_left _
      (seqCode_mem_uses body st h)) hnodup hcovers fun hnodup hcovers => hbody (List.nodup_append.1 hnodup).1 fun span h =>
        hcovers span (List.mem_append_left _ h))).mono (fun _ _ => id) id fun h => (eq_of_ite_unknown h).2
  | .repeat_ body cond, st, hnodup, hcovers => by
    have hcond (span : Span) (h : span ∈ flag (cond.seen p) st) :
        (p, span) ∈ (Code.seq (.acts (cond.acts c)) (.choose (.acts []) .exit)).uses :=
      List.mem_append_left _ (cond.mem_uses (mem_flag.1 h).2)
    have hcond' : Covers p flagged (flag (cond.seen p) st) (usesOf (cond.acts c)) := fun span h =>
      hcovers.right hnodup (fun _ => seqCode_mem_uses body st) span (List.mem_append_left _ h)
    exact (Sound.loop (.seq (.forget (Sound.stmts body st (List.nodup_append.1 hnodup).1 (hcovers.left hnodup hcond)))
      (.seq (.expr cond.all_quiet hcond') (.choose .nil (.jump (by simp)))))).mono (fun _ _ => id) id fun h =>
      (eq_of_ite_unknown h).2
  | .for_ var start end_ step body, st, hnodup, hcovers => by
    have hbounds (span : Span) (h : span ∈ start.seen p ++ (end_.seen p ++ exprsSeen p step.toList)) : (p, span) ∈
        usesOf (start.acts c ++ (.hidden (fun p => p == var) :: (end_.acts c ++ optionActs c step))) := by
      rw [usesOf_append, usesOf_hidden, usesOf_append]
      exact List.mem_append.2 ((List.mem_append.1 h).imp start.mem_uses fun h =>
        List.mem_append.2 ((List.mem_append.1 h).imp end_.mem_uses (exprsActs_mem_uses step.toList)))
    refine .expr_seq ?_ hbounds (fun _ h => List.mem_append_right _ (List.mem_append_left _ (seqCode_mem_uses body st h)))
      hnodup hcovers fun hnodup hcovers => ?_
    · simp [start.all_quiet, end_.all_quiet, optionActs, exprsActs_all_quiet, Act.quiet]
    have hbody := Sound.stmts body st (List.nodup_append.1 (List.nodup_append.1 hnodup).2.1).1 fun span h =>
      hcovers span (List.mem_append_right _ (List.mem_append_left _ h))
    refine (Sound.loop (.choose (.jump (by simp)) (.seq hbody (.quiet rfl ?_)))).mono (fun _ _ => id) id fun h =>
      (eq_of_ite_unknown h).2
    rintro span access - hmem
    cases List.mem_singleton.1 hmem
  | .loop body, st, hnodup, hcovers =>
    (Sound.loop (Sound.stmts body st hnodup hcovers)).mono (fun _ _ => id) id fun h => (eq_of_ite_unknown h).2
  | .with_ d fields body, st, hnodup, hcovers => by
    refine .expr_seq d.all_quiet (fun _ => d.mem_uses) (fun _ => seqCode_mem_uses body st) hnodup hcovers fun hnodup hcovers =>
      .scope ((Sound.stmts body st hnodup hcovers).mono (fun _ _ => id) id fun h => ?_) fun h => (eq_of_ite_unknown h).2
    exact trackSeq_of_unchanged (eq_of_ite_unknown h).2 (eq_of_ite_unknown h).1
  | .exit, _, _, _ | .retry, _, _, _ => .jump (by simp [Stmt.code])
  | .return_ e, st, _, hcovers | .raise e, st, _, hcovers =>
    .seq (.expr (exprsActs_all_quiet e.toList) fun span h => hcovers span (List.mem_append_left _ h)) (.jump (by simp))
  | .block (.mk stmts except none), st, hnodup, hcovers =>
    .protect (Sound.stmts stmts st (List.nodup_append.1 hnodup).1 fun span h => hcovers span (List.mem_append_left _ h))
      fun span h hspan => List.disjoint_of_nodup_append hnodup
        (seqCode_mem_uses stmts st (hcovers span (List.mem_append_right _ h) hspan)) h
  | .block (.mk stmts except (some body)), st, hnodup, hcovers => by
    have hin (span : Span) (h : span ∈ seqFlagged p stmts st) : (p, span) ∈ (seqCode c inScope stmts).uses := seqCode_mem_uses stmts st h
    have hprotect := (List.nodup_append.1 hnodup).1
    refine .finally_ (.protect (Sound.stmts stmts st (List.nodup_append.1 hprotect).1 fun span h => hcovers span
      (List.mem_append_left _ (List.mem_append_left _ h))) fun span h hspan => ?_) fun span h hspan => ?_
    · exact List.disjoint_of_nodup_append hprotect
        (hin span (hcovers span (List.mem_append_left _ (List.mem_append_right _ h)) hspan)) h
    · exact List.disjoint_of_nodup_append hnodup
        (List.mem_append_left _ (hin span (hcovers span (List.mem_append_right _ h) hspan))) h

theorem Sound.stmts {inScope : String → Bool} : ∀ (stmts : List Stmt) (st : Option St), (seqCode c inScope stmts).uses.Nodup →
    Covers p flagged (seqFlagged p stmts st) (seqCode c inScope stmts).uses →
    Sound p flagged (st = some .disposed) (seqCode c inScope stmts) (trackSeq p stmts st = some .disposed)
  | [], _, _, _ => .nil
  | stmt :: rest, st, hnodup, hcovers =>
    .seq (Sound.stmt stmt st (List.nodup_append.1 hnodup).1 (hcovers.left hnodup fun _ => seqCode_mem_uses rest _))
      (Sound.stmts rest _ (List.nodup_append.1 hnodup).2.1 (hcovers.right hnodup fun _ => stmt.mem_uses st))

theorem Sound.arms {inScope : String → Bool} {otherwise : Code} {post : Prop} : ∀ (arms : List Arm) (elseArm : Option (List Stmt)) (st : Option St),
    (armsCode c inScope (elseCode c inScope otherwise elseArm) arms).uses.Nodup →
    Covers p flagged (armsFlagged p arms st ++ elseFlagged p elseArm st)
      (armsCode c inScope (elseCode c inScope otherwise elseArm) arms).uses →
    (post → st = some .disposed ∧ armsChange p arms st = false) →
    ((elseCode c inScope otherwise elseArm).uses.Nodup →
      Covers p flagged (elseFlagged p elseArm st) (elseCode c inScope otherwise elseArm).uses →
      Sound p flagged (st = some .disposed) (elseCode c inScope otherwise elseArm) post) →
    Sound p flagged (st = some .disposed) (armsCode c inScope (elseCode c inScope otherwise elseArm) arms) post
  | [], _, _, hnodup, hcovers, _, helse => helse hnodup hcovers
  | .if_ cond body :: rest, elseArm, st, hnodup, hcovers, hpost, helse => by
    have hpost (h : post) : st = some .disposed ∧ changed st (trackSeq p body st) = false ∧ armsChange p rest st = false :=
      (hpost h).imp_right Bool.or_eq_false_iff.1
    rw [armsFlagged, List.append_assoc, List.append_assoc] at hcovers
    refine .expr_seq cond.all_quiet (fun _ => cond.mem_uses) (fun span h => List.mem_append.2 ((List.mem_append.1 h).imp
      (seqCode_mem_uses body st) (branches_mem_uses rest elseArm st span))) hnodup hcovers fun hnodup hcovers => ?_
    refine .either (fun _ => seqCode_mem_uses body st) (branches_mem_uses rest elseArm st) hnodup hcovers (fun hnodup hcovers => ?_) fun hnodup hcovers =>
      Sound.arms rest elseArm st hnodup hcovers (fun h => ⟨(hpost h).1, (hpost h).2.2⟩) helse
    exact (Sound.stmts body st hnodup hcovers).mono (fun _ _ => id) id fun h => trackSeq_of_unchanged (hpost h).1 (hpost h).2.1
  | .case_ body :: rest, elseArm, st, hnodup, hcovers, hpost, helse => by
    have hpost (h : post) : st = some .disposed ∧ changed st (trackSeq p body st) = false ∧ armsChange p rest st = false :=
      (hpost h).imp_right Bool.or_eq_false_iff.1
    rw [armsFlagged, List.append_assoc] at hcovers
    refine .either (fun _ => seqCode_mem_uses body st) (branches_mem_uses rest elseArm st) hnodup hcovers (fun hnodup hcovers => ?_) fun hnodup hcovers =>
      Sound.arms rest elseArm st hnodup hcovers (fun h => ⟨(hpost h).1, (hpost h).2.2⟩) helse
    exact (Sound.stmts body st hnodup hcovers).mono (fun _ _ => id) id fun h => trackSeq_of_unchanged (hpost h).1 (hpost h).2.1
  | .guard _ body :: rest, elseArm, st, hnodup, hcovers, hpost, helse => by
    have hpost (h : post) : st = some .disposed ∧ changed st (trackSeq p body st) = false ∧ armsChange p rest st = false :=
      (hpost h).imp_right Bool.or_eq_false_iff.1
    rw [armsFlagged, List.append_assoc] at hcovers
    refine .either (fun _ => seqCode_mem_uses body st) (branches_mem_uses rest elseArm st) hnodup hcovers (fun hnodup hcovers => ?_) fun hnodup hcovers =>
      Sound.arms rest elseArm st hnodup hcovers (fun h => ⟨(hpost h).1, (hpost h).2.2⟩) helse
    exact .scope ((Sound.stmts body st hnodup hcovers).mono (fun _ _ => id) id fun h =>
      trackSeq_of_unchanged (hpost h).1 (hpost h).2.1) fun h => (hpost h).1

theorem Sound.else_ {inScope : String → Bool} {otherwise : Code} {post : Prop} : ∀ (elseArm : Option (List Stmt)) (st : Option St),
    (elseCode c inScope otherwise elseArm).uses.Nodup →
    Covers p flagged (elseFlagged p elseArm st) (elseCode c inScope otherwise elseArm).uses →
    (post → st = some .disposed ∧ elseChanges p elseArm st = false) →
    Sound p flagged (st = some .disposed) otherwise post →
    Sound p flagged (st = some .disposed) (elseCode c inScope otherwise elseArm) post
  | none, _, _, _, _, h => h
  | some body, st, hnodup, hcovers, hpost, _ =>
    (Sound.stmts body st hnodup hcovers).mono (fun _ _ => id) id fun h =>
      trackSeq_of_unchanged (hpost h).1 (hpost h).2

end

end sound

/-! ## The warnings -/

/-- A use after DISPOSE or a second DISPOSE is reported. -/
def Warned (l : List Warning) (p : String) (span : Span) : Prop := .useAfter p span ∈ l ∨ .doubleDispose p span ∈ l

/-- From `s` to `t` the pass warns of `flags`. -/
def Flags (flags : String → Option St → List Span) (s t : Pass) : Prop :=
  ∀ p span, Warned t.diags p span ↔ Warned s.diags p span ∨ span ∈ flags p (s.vars.st p)

theorem flag_append (l l' : List Span) (st : Option St) : flag l st ++ flag l' st = flag (l ++ l') st := by
  unfold flag
  split_ifs <;> rfl

namespace Flags
variable {flags flags' : String → Option St → List Span} {track : String → Option St → Option St} {s t u : Pass}

theorem refl (s : Pass) : Flags (fun _ _ => []) s s := fun _ _ => by simp

/-- Only the warnings count. -/
theorem diags (h : Flags flags s t) (hdiags : u.diags = t.diags) : Flags flags s u := fun p span => by
  rw [hdiags]
  exact h p span

theorem trans {reads : String → Bool} (h : Flags flags s t) (he : Effect track reads s t) (h' : Flags flags' t u) :
    Flags (fun p st => flags p st ++ flags' p (track p st)) s u := fun p span => by
  rw [h' p span, h p span, he.st, List.mem_append, or_assoc]

/-- Where no state changes. -/
theorem and (h : Flags flags s t) (hst : ∀ p, t.vars.st p = s.vars.st p) (h' : Flags flags' t u) :
    Flags (fun p st => flags p st ++ flags' p st) s u := fun p span => by
  rw [h' p span, h p span, hst, List.mem_append, or_assoc]

theorem congr (h : Flags flags s t) (hflags : ∀ p st, flags p st = flags' p st) : Flags flags' s t := fun p span => by
  rw [h p span, hflags]

end Flags

theorem flags_warn (s : Pass) (q : String) {place : Span} {w : Warning}
    (hw : w = .useAfter q place ∨ w = .doubleDispose q place) :
    Flags (fun p => flag (if q = p then [place] else [])) s (if s.vars.st q = some .disposed then s.warn w else s) := by
  intro p span
  have hmem : Warned [w] p span ↔ q = p ∧ span = place := by
    rcases hw with rfl | rfl <;> simp [Warned, eq_comm]
  have happend : Warned (s.diags ++ [w]) p span ↔ Warned s.diags p span ∨ Warned [w] p span := by
    simp only [Warned, List.mem_append]
    tauto
  rw [mem_flag]
  by_cases hst : s.vars.st q = some .disposed
  · rw [if_pos hst]
    refine happend.trans (or_congr_right (hmem.trans ?_))
    constructor
    · rintro ⟨rfl, rfl⟩
      exact ⟨hst, by simp⟩
    · rintro ⟨-, h⟩
      split_ifs at h with hq
      · exact ⟨hq, List.mem_singleton.1 h⟩
      · cases h
  · rw [if_neg hst]
    refine (or_iff_left ?_).symm
    rintro ⟨hp, h⟩
    split_ifs at h with hq
    · exact hst (hq ▸ hp)
    · cases h

mutual

theorem flags_scanExpr : ∀ (e : Expr) (s : Pass), Flags (fun p => flag (e.seen p)) s (scanExpr e s)
  | .literal, s | .set _ _, s => (Flags.refl s).congr fun p st => by simp [Expr.seen, flag]
  | .designator d, s => flags_scanDesignator d s
  | .call callee args, s => by
    rw [scanExpr]
    by_cases hvar : (simpleVar callee).isSome
    · rw [if_pos hvar]
      exact (flags_scanExprs args s).congr fun p st => by simp [Expr.seen, hvar]
    · rw [if_neg hvar]
      exact ((flags_scanExpr callee s).and (effect_scanExpr callee s).st (flags_scanExprs args _)).congr fun p st => by
        simp [Expr.seen, hvar, flag_append]
  | .binary _ lhs rhs, s =>
    ((flags_scanExpr lhs s).and (effect_scanExpr lhs s).st (flags_scanExpr rhs _)).congr fun p st => by
      simp [Expr.seen, flag_append]
  | .unary _ e, s => flags_scanExpr e s

theorem flags_scanExprs : ∀ (l : List Expr) (s : Pass), Flags (fun p => flag (exprsSeen p l)) s (scanExprs l s)
  | [], s => (Flags.refl s).congr fun p st => by simp [exprsSeen, flag]
  | e :: rest, s =>
    ((flags_scanExpr e s).and (effect_scanExpr e s).st (flags_scanExprs rest _)).congr fun p st => by
      simp [exprsSeen, flag_append]

theorem flags_scanDesignator : ∀ (d : Designator) (s : Pass), Flags (fun p => flag (d.seen p)) s (scanDesignator d s)
  | .mk [name] selectors span, s => by
    have htouch : Flags (fun p => flag (if name = p then [span] else [])) s (s.touch name selectors.isEmpty span) := by
      refine (flags_warn s name (.inl rfl)).diags ?_
      unfold Pass.touch
      split_ifs <;> rfl
    exact (htouch.and (effect_touch s name selectors.isEmpty span).st (flags_scanSelectors selectors _)).congr fun p st => by
      simp [Designator.seen, flag_append]
  | .mk [] selectors _, s | .mk (_ :: _ :: _) selectors _, s =>
    (flags_scanSelectors selectors s).congr fun p st => by simp [Designator.seen]

theorem flags_scanSelectors :
    ∀ (l : List Selector) (s : Pass), Flags (fun p => flag (selectorsSeen p l)) s (scanSelectors l s)
  | [], s => (Flags.refl s).congr fun p st => by simp [selectorsSeen, flag]
  | .index indices :: rest, s =>
    ((flags_scanExprs indices s).and (effect_scanExprs indices s).st (flags_scanSelectors rest _)).congr fun p st => by
      simp [selectorsSeen, flag_append]
  | .field _ :: rest, s | .deref :: rest, s | .typeGuard _ :: rest, s => flags_scanSelectors rest s

end

theorem flags_scanCall (e : Expr) (s : Pass) : Flags (fun p => callFlags p e) s (scanCall e s) := by
  unfold callFlags scanCall
  rcases heapCall e with - | ⟨q, span, rest⟩ | ⟨q, span, rest⟩
  · exact flags_scanExpr e s
  · have hnew : Flags (fun _ _ => []) s (s.new q span) := by
      intro p place
      unfold Pass.new Pass.warn Pass.setSt
      split_ifs <;> simp [Warned]
    exact (hnew.trans (effect_new s q span) (flags_scanExprs rest _)).congr fun _ _ => rfl
  · have hdispose : Flags (fun p => flag (if q = p then [span] else [])) s (s.dispose q span) :=
      (flags_warn s q (.inr rfl)).diags rfl
    exact hdispose.trans (effect_dispose s q span) (flags_scanExprs rest _)

theorem flags_scanAssign (target : Designator) (value : Expr) (s : Pass) :
    Flags (fun p => (Stmt.assign target value).flagged p) s (scanAssign target value s) := by
  refine ((flags_scanExpr value s).and (effect_scanExpr value s).st (flags_scanDesignator target _)).diags ?_
  unfold scanAssign
  rcases target.var? with - | ⟨q, place⟩ <;> rfl

theorem flags_scanBounds (start end_ : Expr) (step : Option Expr) (s : Pass) :
    Flags (fun p => flag (start.seen p ++ (end_.seen p ++ exprsSeen p step.toList))) s (scanBounds start end_ step s) := by
  have hscan := (flags_scanExpr start s).and (effect_scanExpr start s).st (flags_scanExpr end_ _)
  have hst := ((effect_scanExpr start s).trans (effect_scanExpr end_ _)).st
  rcases step with - | step
  · exact hscan.congr fun p st => by simp [exprsSeen, flag_append]
  · exact (hscan.and hst (flags_scanExpr step _)).congr fun p st => by simp [exprsSeen, flag_append]

mutual

theorem flags_scanStmt : ∀ (stmt : Stmt) (s : Pass), Flags (fun p => stmt.flagged p) s (scanStmt stmt s)
  | .assign target value, s => flags_scanAssign target value s
  | .call e, s => flags_scanCall e s
  | .if_ arms elseArm, s =>
    (flags_scanArms arms (s, fun _ => false)).and (branches_scanArms arms (fun _ => true) (s, fun _ => false)).st
      (flags_scanElse elseArm _)
  | .case_ e arms elseArm, s | .guard e arms elseArm, s =>
    (flags_scanExpr e s).and (effect_scanExpr e s).st
      ((flags_scanArms arms (_, fun _ => false)).and (branches_scanArms arms (fun _ => true) (_, fun _ => false)).st
        (flags_scanElse elseArm _))
  | .while_ cond body, s => (flags_scanExpr cond s).and (effect_scanExpr cond s).st (flags_scanStmts body _)
  | .repeat_ body cond, s =>
    (Flags.diags (u := (Pass.branch (scanStmts body) (s, fun _ => false)).1) (flags_scanStmts body s) rfl).and
      (fun _ => rfl) (flags_scanExpr cond _)
  | .for_ _ start end_ step body, s =>
    (flags_scanBounds start end_ step s).and (effect_scanBounds start end_ step (fun _ => true) s).st (flags_scanStmts body _)
  | .loop body, s => flags_scanStmts body s
  | .with_ d fields body, s =>
    (flags_scanDesignator d s).and (effect_scanDesignator d s).st (flags_scanStmts body _)
  | .return_ (some e), s | .raise (some e), s =>
    (flags_scanExpr e s).congr fun p st => by simp [Stmt.flagged, exprsSeen]
  | .block (.mk stmts except finally_), s => flags_scanStmts stmts s
  | .return_ none, s | .raise none, s => (Flags.refl s).congr fun p st => by simp [Stmt.flagged, exprsSeen, flag]
  | .empty, s | .exit, s | .retry, s => .refl s

theorem flags_scanStmts : ∀ (l : List Stmt) (s : Pass), Flags (fun p => seqFlagged p l) s (scanStmts l s)
  | [], s => .refl s
  | stmt :: rest, s => (flags_scanStmt stmt s).trans (effect_scanStmt stmt (fun _ => true) s) (flags_scanStmts rest _)

theorem flags_scanArms : ∀ (l : List Arm) (b : Pass × Touched), Flags (fun p => armsFlagged p l) b.1 (scanArms l b).1
  | [], b => .refl b.1
  | .if_ cond body :: rest, b =>
    (flags_scanExpr cond b.1).and (effect_scanExpr cond b.1).st ((flags_scanStmts body _).and
      (t := (Pass.branch (scanStmts body) (scanExpr cond b.1, b.2)).1) (fun _ => rfl) (flags_scanArms rest _))
  | .case_ body :: rest, b | .guard _ body :: rest, b =>
    (Flags.diags (u := (Pass.branch (scanStmts body) b).1) (flags_scanStmts body b.1) rfl).and
      (fun _ => rfl) (flags_scanArms rest _)

theorem flags_scanElse :
    ∀ (o : Option (List Stmt)) (b : Pass × Touched), Flags (fun p => elseFlagged p o) b.1 (scanElse o b).1
  | none, b => .refl b.1
  | some body, b => flags_scanStmts body b.1

end

/-! ## What is reported of a procedure -/

theorem Stmt.flagged_block {p : String} {st : Option St} (b : Block) :
    (Stmt.block b).flagged p st = seqFlagged p b.stmts st := by
  cases b
  rfl

namespace Proc
variable (f : Proc) (c : Surroundings) {p : String} {span : Span}

/-- A use after DISPOSE or a second DISPOSE that is reported is one: the place is not that of a plain assignment, and
whenever a path through the body gets there the variable is read or disposed of, having been DISPOSEd before and not
assigned since. -/
def DanglingReal : Prop :=
  ∀ p span, Warned f.warnings p span → (p, span) ∉ (f.body.code c c.inScope).writes ∧
    ∀ us out d, Exec (f.body.code c c.inScope) (fun _ => .live) us out d →
      ∀ o ∈ us, o.name = p → o.span = span → o.access.reads ∧ o.fate = .disposed

theorem warned_iff : Warned f.warnings p span ↔ span ∈ seqFlagged p f.body.stmts none := by
  have hscan := flags_scanStmts f.body.stmts .start p span
  have hleaks : ¬ Warned (reportLeaks f.locals (scanStmts f.body.stmts .start).vars) p span := by
    unfold Warned reportLeaks
    simp
  have happend : Warned f.warnings p span ↔ Warned (scanStmts f.body.stmts .start).diags p span := by
    refine ⟨fun h => ?_, fun h => h.imp (List.mem_append_left _) (List.mem_append_left _)⟩
    rcases h with h | h
    · exact .inl ((List.mem_append.1 h).resolve_right fun h => hleaks (.inl h))
    · exact .inr ((List.mem_append.1 h).resolve_right fun h => hleaks (.inr h))
  rw [happend, hscan]
  refine or_iff_right ?_
  rintro (h | h) <;> cases h

/-- Where the variable is flagged it is not live when it is read. -/
theorem fate_ne_live {us : List Use} {out : Out} {d : Fates} {o : Use} (hplaces : (f.body.code c c.inScope).uses.Nodup)
    (hexec : Exec (f.body.code c c.inScope) (fun _ => .live) us out d) (ho : o ∈ us)
    (hflagged : o.span ∈ seqFlagged o.name f.body.stmts none) (hreads : o.access.reads) : o.fate ≠ .live := by
  have hcovers : Covers o.name (fun span => span ∈ seqFlagged o.name f.body.stmts none)
      ((Stmt.block f.body).flagged o.name none) (f.body.code c c.inScope).uses := fun span _ h => by
    rw [Stmt.flagged_block]
    exact h
  have hsound := Sound.stmt (.block f.body) none hplaces hcovers
  exact (hsound _ _ _ _ hexec fun h => (by cases h)).1 o ho rfl hflagged hreads

/-- They are real if and only if each use of a variable that the pass takes for DISPOSEd reads it, and no path gets
there on which the variable has been assigned since out of its sight: in an earlier iteration of a loop, before EXIT,
in EXCEPT or FINALLY, by a call, as the variable of FOR, or because the name stands for something else there. -/
theorem dangling_real (hplaces : (f.body.code c c.inScope).uses.Nodup) : f.DanglingReal c ↔
    ∀ p, ∀ span ∈ seqFlagged p f.body.stmts none, (p, span) ∉ (f.body.code c c.inScope).writes ∧
      ∀ us out d, Exec (f.body.code c c.inScope) (fun _ => .live) us out d →
        ∀ o ∈ us, o.name = p → o.span = span → o.access.reads ∧ o.fate ≠ .lost := by
  constructor
  · intro h p span hspan
    obtain ⟨hwrite, hreal⟩ := h p span (f.warned_iff.2 hspan)
    refine ⟨hwrite, fun us out d hexec o ho hname hplace => ?_⟩
    obtain ⟨hreads, hfate⟩ := hreal us out d hexec o ho hname hplace
    exact ⟨hreads, by rw [hfate]; exact nofun⟩
  · intro h p span hwarned
    have hspan := f.warned_iff.1 hwarned
    obtain ⟨hwrite, hfollowed⟩ := h p span hspan
    refine ⟨hwrite, fun us out d hexec o ho hname hplace => ?_⟩
    obtain ⟨hreads, hlost⟩ := hfollowed us out d hexec o ho hname hplace
    have hlive := f.fate_ne_live c hplaces hexec ho (by rwa [hname, hplace]) hreads
    refine ⟨hreads, ?_⟩
    rcases hfate : o.fate with - | - | -
    · exact absurd hfate hlive
    · rfl
    · exact absurd hfate hlost

/-- Nothing is passed to VAR parameters, the calls assign nothing, and `p` is in scope. -/
def harmless : Surroundings := ⟨fun _ _ => .value, fun _ _ => false, fun p => p == "p"⟩

/-- `NEW(p); DISPOSE(p); p := NIL` -/
def overwritten : Proc where
  params := []
  decls := [.var ["p"]]
  body := .mk [.call (callOf "NEW" "p" ⟨30, 33⟩ ⟨34, 35⟩), .call (callOf "DISPOSE" "p" ⟨38, 45⟩ ⟨46, 47⟩),
    .assign (.mk ["p"] [] ⟨50, 51⟩) .literal] [] none

/-- `NEW(p); DISPOSE(p); NEW(p); DISPOSE(p)` -/
def reused : Proc where
  params := []
  decls := [.var ["p"]]
  body := .mk [.call (callOf "NEW" "p" ⟨30, 33⟩ ⟨34, 35⟩), .call (callOf "DISPOSE" "p" ⟨38, 45⟩ ⟨46, 47⟩),
    .call (callOf "NEW" "p" ⟨50, 53⟩ ⟨54, 55⟩), .call (callOf "DISPOSE" "p" ⟨58, 65⟩ ⟨66, 67⟩)] [] none

theorem dangling_real_reused : reused.DanglingReal harmless := by
  refine (dangling_real reused harmless (by decide)).2 fun p span h => ?_
  have hnil : seqFlagged p reused.body.stmts none = [] := by
    by_cases hp : "p" = p
    · subst hp
      decide
    · simp [reused, callOf, Block.stmts, seqFlagged, Stmt.flagged, Stmt.track, callFlags, heapCall, asBuiltinCall, simpleVar,
        Designator.var?, flag, hp]
  rw [hnil] at h
  cases h

/-- The assignment reads nothing. -/
theorem dangling_real_differs : (overwritten.body.code harmless harmless.inScope).uses.Nodup ∧
    .useAfter "p" ⟨50, 51⟩ ∈ overwritten.warnings ∧ ¬ overwritten.DanglingReal harmless := by
  have hwarned : .useAfter "p" ⟨50, 51⟩ ∈ overwritten.warnings := List.mem_append_left _ (by decide)
  exact ⟨by decide, hwarned, fun h => (h _ _ (.inl hwarned)).1 (by decide)⟩

end Proc

end NewM2.HeapCheck
