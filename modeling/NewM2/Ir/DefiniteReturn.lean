import NewM2.Cfg.Control
import NewM2.Sema.Completes

/-!
# Reaching the end of a function procedure (`newm2-ir/src/lower.rs`)

The runs of lowered statements, whatever the conditions and selectors yield and wherever an exception
is raised. An EXIT without a loop around it and a RETRY outside of a handler are lowered to nothing. The
body of a procedure with an EXCEPT or FINALLY part is run by a wrapper, which goes on behind the handler
when that ends.

`alwaysReturns_of_expected`: a run of a body that sema accepts does not reach its end, provided that it does none
of the `Event`s that sema does not see.
-/

namespace NewM2.Ir.DefiniteReturn
open Syntax Sema.Completes

/-- Whether a loop of the function is open, and whether a handler is being lowered. -/
structure Frames where
  inLoop : Bool
  inHandler : Bool

inductive Outcome
  | falls | exits | returns (value : Bool) | retries | raises | halts
deriving Repr, DecidableEq

/-- What a run does that matters to the analysis of sema. -/
inductive Event
  /-- A call came back. -/
  | returned (e : Syntax.Expr)
  | exitIgnored
  | retryIgnored
  /-- An EXIT went out of the FINALLY part of a nested block. -/
  | leftFinally
  /-- An exception was given to the EXCEPT part. -/
  | handled
  /-- An exception with the source 0 was taken for the normal end of the statements. -/
  | lost

/-- `lower_assert_halt` on HALT. -/
def isHalt : Syntax.Expr → Bool
  | .call (.designator ["HALT"] []) _ | .designator ["HALT"] [] => true
  | _ => false

/-- The statement evaluates an expression before it does anything else. -/
def evaluates : Stmt → Bool
  | .assign | .call _ | .if_ .. | .case_ .. | .guard .. | .while_ _ | .for_ _ | .with_ _ => true
  | .return_ value => value
  | .empty | .repeat_ _ | .loop _ | .exit | .raise | .retry | .block .. => false

inductive Code
  | stmt (s : Stmt)
  | stmts (ss : List Stmt)

/-- `lower_stmt` and `lower_stmts`. -/
inductive Runs : Frames → Code → List Event → Outcome → Prop
  | nil {c} : Runs c (.stmts []) [] .falls
  | cons {c s ss t t' out} : Runs c (.stmt s) t .falls → Runs c (.stmts ss) t' out →
      Runs c (.stmts (s :: ss)) (t ++ t') out
  | stop {c s ss t out} : Runs c (.stmt s) t out → out ≠ .falls → Runs c (.stmts (s :: ss)) t out
  /-- An expression raises an exception or halts the program. -/
  | aborts {c s out} : evaluates s → out = .raises ∨ out = .halts → Runs c (.stmt s) [] out
  | empty {c} : Runs c (.stmt .empty) [] .falls
  | assign {c} : Runs c (.stmt .assign) [] .falls
  | call {c e} : isHalt e = false → Runs c (.stmt (.call e)) [.returned e] .falls
  | ifArm {c arms els body t out} : body ∈ arms → Runs c (.stmts body) t out →
      Runs c (.stmt (.if_ arms els)) t out
  | ifElse {c arms body t out} : Runs c (.stmts body) t out → Runs c (.stmt (.if_ arms (some body))) t out
  | ifNone {c arms} : Runs c (.stmt (.if_ arms none)) [] .falls
  | caseArm {c arms els body t out} : body ∈ arms → Runs c (.stmts body) t out →
      Runs c (.stmt (.case_ arms els)) t out
  | caseElse {c arms body t out} : Runs c (.stmts body) t out →
      Runs c (.stmt (.case_ arms (some body))) t out
  | caseNone {c arms} : Runs c (.stmt (.case_ arms none)) [] .raises
  | guardArm {c arms els body t out} : body ∈ arms → Runs c (.stmts body) t out →
      Runs c (.stmt (.guard arms els)) t out
  | guardElse {c arms body t out} : Runs c (.stmts body) t out →
      Runs c (.stmt (.guard arms (some body))) t out
  | guardNone {c arms} : Runs c (.stmt (.guard arms none)) [] .raises
  | whileDone {c body} : Runs c (.stmt (.while_ body)) [] .falls
  | whileTurn {c body t t' out} : Runs { c with inLoop := true } (.stmts body) t .falls →
      Runs c (.stmt (.while_ body)) t' out → Runs c (.stmt (.while_ body)) (t ++ t') out
  | whileExit {c body t} : Runs { c with inLoop := true } (.stmts body) t .exits →
      Runs c (.stmt (.while_ body)) t .falls
  | whileStop {c body t out} : Runs { c with inLoop := true } (.stmts body) t out → out ≠ .falls →
      out ≠ .exits → Runs c (.stmt (.while_ body)) t out
  | repeatDone {c body t} : Runs { c with inLoop := true } (.stmts body) t .falls →
      Runs c (.stmt (.repeat_ body)) t .falls
  | repeatAborts {c body t out} : Runs { c with inLoop := true } (.stmts body) t .falls →
      out = .raises ∨ out = .halts → Runs c (.stmt (.repeat_ body)) t out
  | repeatTurn {c body t t' out} : Runs { c with inLoop := true } (.stmts body) t .falls →
      Runs c (.stmt (.repeat_ body)) t' out → Runs c (.stmt (.repeat_ body)) (t ++ t') out
  | repeatExit {c body t} : Runs { c with inLoop := true } (.stmts body) t .exits →
      Runs c (.stmt (.repeat_ body)) t .falls
  | repeatStop {c body t out} : Runs { c with inLoop := true } (.stmts body) t out → out ≠ .falls →
      out ≠ .exits → Runs c (.stmt (.repeat_ body)) t out
  | forDone {c body} : Runs c (.stmt (.for_ body)) [] .falls
  | forLast {c body t} : Runs { c with inLoop := true } (.stmts body) t .falls →
      Runs c (.stmt (.for_ body)) t .falls
  | forTurn {c body t t' out} : Runs { c with inLoop := true } (.stmts body) t .falls →
      Runs c (.stmt (.for_ body)) t' out → Runs c (.stmt (.for_ body)) (t ++ t') out
  | forExit {c body t} : Runs { c with inLoop := true } (.stmts body) t .exits →
      Runs c (.stmt (.for_ body)) t .falls
  | forStop {c body t out} : Runs { c with inLoop := true } (.stmts body) t out → out ≠ .falls →
      out ≠ .exits → Runs c (.stmt (.for_ body)) t out
  | loopTurn {c body t t' out} : Runs { c with inLoop := true } (.stmts body) t .falls →
      Runs c (.stmt (.loop body)) t' out → Runs c (.stmt (.loop body)) (t ++ t') out
  | loopExit {c body t} : Runs { c with inLoop := true } (.stmts body) t .exits →
      Runs c (.stmt (.loop body)) t .falls
  | loopStop {c body t out} : Runs { c with inLoop := true } (.stmts body) t out → out ≠ .falls →
      out ≠ .exits → Runs c (.stmt (.loop body)) t out
  | with_ {c body t out} : Runs c (.stmts body) t out → Runs c (.stmt (.with_ body)) t out
  | exit {c} : c.inLoop = true → Runs c (.stmt .exit) [] .exits
  | exitNone {c} : c.inLoop = false → Runs c (.stmt .exit) [.exitIgnored] .falls
  | return_ {c value} : Runs c (.stmt (.return_ value)) [] (.returns value)
  | raise {c} : Runs c (.stmt .raise) [] .raises
  | retry {c} : c.inHandler = true → Runs c (.stmt .retry) [] .retries
  | retryNone {c} : c.inHandler = false → Runs c (.stmt .retry) [.retryIgnored] .falls
  /-- The EXCEPT part of a nested block is not lowered. -/
  | block {c ss except t} : Runs c (.stmts ss) t .falls → Runs c (.stmt (.block ss except none)) t .falls
  | blockFinally {c ss except fin t t' out} : Runs c (.stmts ss) t .falls → Runs c (.stmts fin) t' out →
      Runs c (.stmt (.block ss except (some fin)))
        (t ++ t' ++ if out = .exits then [.leftFinally] else []) out
  | blockStop {c ss except fin t out} : Runs c (.stmts ss) t out → out ≠ .falls →
      Runs c (.stmt (.block ss except fin)) t out

/-! ## Bodies -/

inductive Ending
  | reachedEnd | returned (value : Bool) | raised | halted
deriving Repr, DecidableEq

def Outcome.ending : Outcome → Option Ending
  | falls => some .reachedEnd
  | returns value => some (.returned value)
  | raises => some .raised
  | halts => some .halted
  | exits | retries => none

/-- What follows on the way to the end `e` of the function: the FINALLY part. -/
inductive Finishes (fin : Option (List Stmt)) (e : Ending) : List Event → Ending → Prop
  | none : fin = none → Finishes fin e [] e
  | falls {body t} : fin = some body → Runs ⟨false, false⟩ (.stmts body) t .falls → Finishes fin e t e
  | stops {body t out e'} : fin = some body → Runs ⟨false, false⟩ (.stmts body) t out → out ≠ .falls →
      out.ending = some e' → Finishes fin e t e'

/-- The function with the body `b`, and its wrapper if there are EXCEPT arms or a FINALLY part
(`lower_protected_wrapper`). The arms are lowered one behind the other. -/
inductive BodyRuns (b : Block) : List Event → Ending → Prop
  | normal {t out e t' e'} : Runs ⟨false, false⟩ (.stmts b.stmts) t out → out ≠ .raises → out ≠ .halts →
      out.ending = some e → Finishes b.finally_ e t' e' → BodyRuns b (t ++ t') e'
  | halts {t} : Runs ⟨false, false⟩ (.stmts b.stmts) t .halts → BodyRuns b t .halted
  /-- `nm2_run_protected` returns 0 for an exception with the source 0 as well, which says that none was raised. -/
  | lost {t t' e} : b.except ≠ [] ∨ b.finally_.isSome → Runs ⟨false, false⟩ (.stmts b.stmts) t .raises →
      Finishes b.finally_ .reachedEnd t' e → BodyRuns b (t ++ .lost :: t') e
  | unhandled {t t' e} : b.except = [] → Runs ⟨false, false⟩ (.stmts b.stmts) t .raises →
      Finishes b.finally_ .raised t' e → BodyRuns b (t ++ t') e
  | handled {t t' t'' e} : b.except ≠ [] → Runs ⟨false, false⟩ (.stmts b.stmts) t .raises →
      Runs ⟨false, true⟩ (.stmts b.except.flatten) t' .falls → Finishes b.finally_ .reachedEnd t'' e →
      BodyRuns b (t ++ .handled :: (t' ++ t'')) e
  /-- A handler that returns, halts or raises an exception does so without the FINALLY part. -/
  | leaves {t t' out e} : b.except ≠ [] → Runs ⟨false, false⟩ (.stmts b.stmts) t .raises →
      Runs ⟨false, true⟩ (.stmts b.except.flatten) t' out → out ≠ .falls → out.ending = some e →
      BodyRuns b (t ++ .handled :: t') e
  | retry {t t' t'' e} : b.except ≠ [] → Runs ⟨false, false⟩ (.stmts b.stmts) t .raises →
      Runs ⟨false, true⟩ (.stmts b.except.flatten) t' .retries → BodyRuns b t'' e →
      BodyRuns b (t ++ .handled :: (t' ++ t'')) e

/-- Every way to the end of the function has returned a value. -/
def AlwaysReturns (b : Block) : Prop :=
  ∀ t e, BodyRuns b t e → e ≠ .reachedEnd ∧ e ≠ .returned false

/-! ## What sema does not see -/

/-- What happens at the event, sema reckons with: a procedure that comes back has none of the names of
those that do not; an EXIT has a loop around it and a RETRY a handler; an EXIT does not go out of the
FINALLY part of a nested block; the EXCEPT part that handles an exception does not complete, or the
FINALLY part behind it does not; an exception with the source 0 is not raised, unless the FINALLY part does not
complete. -/
def Event.Expected (b : Block) : Event → Prop
  | returned e => isNoreturnCall e = false
  | exitIgnored | retryIgnored | leftFinally => False
  | handled => seqCompletes b.except.flatten = false ∨ ∃ fin, b.finally_ = some fin ∧ seqCompletes fin = false
  | lost => ∃ fin, b.finally_ = some fin ∧ seqCompletes fin = false

namespace Code

def completes : Code → Bool
  | stmt s => s.completes
  | stmts ss => seqCompletes ss

def hasExit : Code → Bool
  | stmt s => s.hasExit
  | stmts ss => loopHasExit ss

def returnsValues : Code → Bool
  | stmt s => s.returnsValues
  | stmts ss => seqReturnsValues ss

end Code

namespace Runs
variable {c : Frames} {code : Code} {ss : List Stmt} {t : List Event} {out : Outcome} {b : Block}

/-- What an EXIT or a RETRY goes to is there. -/
theorem target (h : Runs c code t out) :
    (out = .exits → c.inLoop = true) ∧ (out = .retries → c.inHandler = true) := by
  induction h with
  | cons _ _ _ ih | blockFinally _ _ _ ih => exact ih
  | aborts _ hout | repeatAborts _ hout _ => rcases hout with rfl | rfl <;> exact ⟨nofun, nofun⟩
  | exit hloop => exact ⟨fun _ => hloop, nofun⟩
  | retry hhandler => exact ⟨nofun, fun _ => hhandler⟩
  | whileTurn _ _ _ ih | repeatTurn _ _ _ ih | forTurn _ _ _ ih | loopTurn _ _ _ ih => exact ih
  | whileStop _ _ hne ih | repeatStop _ _ hne ih | forStop _ _ hne ih | loopStop _ _ hne ih =>
    exact ⟨fun h => absurd h hne, ih.2⟩
  | stop _ _ ih | ifArm _ _ ih | ifElse _ ih | caseArm _ _ ih | caseElse _ ih | guardArm _ _ ih
  | guardElse _ ih | with_ _ ih | blockStop _ _ ih => exact ih
  | _ => exact ⟨nofun, nofun⟩

theorem not_returns_false (h : Runs c code t out) (hv : code.returnsValues = true) :
    out ≠ .returns false := by
  induction h with
  | cons _ _ _ ih =>
    rw [Code.returnsValues, seqReturnsValues, Bool.and_eq_true] at hv
    exact ih hv.2
  | stop _ _ ih =>
    rw [Code.returnsValues, seqReturnsValues, Bool.and_eq_true] at hv
    exact ih hv.1
  | aborts _ hout | repeatAborts _ hout => rcases hout with rfl | rfl <;> rintro ⟨⟩
  | ifArm hmem _ ih | caseArm hmem _ ih | guardArm hmem _ ih =>
    rw [Code.returnsValues, Stmt.returnsValues, Bool.and_eq_true] at hv
    exact ih (returnsValues_of_mem hmem hv.1)
  | ifElse _ ih | caseElse _ ih | guardElse _ ih =>
    rw [Code.returnsValues, Stmt.returnsValues, Bool.and_eq_true] at hv
    exact ih hv.2
  | whileTurn _ _ _ ih | repeatTurn _ _ _ ih | forTurn _ _ _ ih | loopTurn _ _ _ ih => exact ih hv
  | whileStop _ _ _ ih | repeatStop _ _ _ ih | forStop _ _ _ ih | loopStop _ _ _ ih | with_ _ ih =>
    exact ih hv
  | return_ =>
    rintro ⟨⟩
    cases hv
  | blockFinally _ _ _ ih =>
    rw [Code.returnsValues, Stmt.returnsValues, Bool.and_eq_true] at hv
    exact ih hv.2
  | blockStop _ _ ih =>
    rw [Code.returnsValues, Stmt.returnsValues, Bool.and_eq_true, Bool.and_eq_true] at hv
    exact ih hv.1.1
  | _ => rintro ⟨⟩

/-- Control falls through only where sema says so, and EXIT leaves only a LOOP that has one. -/
theorem sound (h : Runs c code t out) (hexp : ∀ ev ∈ t, ev.Expected b) :
    (out = .falls → code.completes = true) ∧ (out = .exits → code.hasExit = true) := by
  induction h with
  | nil | empty | assign | ifNone | whileDone | forDone => exact ⟨fun _ => rfl, nofun⟩
  | whileExit | repeatDone | repeatExit | forLast | forExit => exact ⟨fun _ => rfl, nofun⟩
  | cons _ _ ihs ih =>
    rw [List.forall_mem_append] at hexp
    have hs := (ihs hexp.1).1 rfl
    obtain ⟨hfalls, hexits⟩ := ih hexp.2
    exact ⟨fun h => Bool.and_eq_true_iff.2 ⟨hs, hfalls h⟩, fun h => Bool.or_eq_true_iff.2 (.inr (hexits h))⟩
  | stop _ hne ih =>
    exact ⟨fun h => absurd h hne, fun h => Bool.or_eq_true_iff.2 (.inl ((ih hexp).2 h))⟩
  | aborts _ hout | repeatAborts _ hout => rcases hout with rfl | rfl <;> exact ⟨nofun, nofun⟩
  | call =>
    have hname : isNoreturnCall _ = false := hexp _ List.mem_cons_self
    exact ⟨fun _ => congrArg (!·) hname, nofun⟩
  | @ifArm _ _ els _ _ _ hmem _ ih =>
    obtain ⟨hfalls, hexits⟩ := ih hexp
    refine ⟨fun h => ?_, fun h => Bool.or_eq_true_iff.2 (.inl (anyHasExit_of_mem hmem (hexits h)))⟩
    cases els with
    | none => rfl
    | some body => exact Bool.or_eq_true_iff.2 (.inl (anyCompletes_of_mem hmem (hfalls h)))
  | caseArm hmem _ ih | guardArm hmem _ ih =>
    obtain ⟨hfalls, hexits⟩ := ih hexp
    exact ⟨fun h => Bool.or_eq_true_iff.2 (.inl (anyCompletes_of_mem hmem (hfalls h))),
      fun h => Bool.or_eq_true_iff.2 (.inl (anyHasExit_of_mem hmem (hexits h)))⟩
  | ifElse _ ih | caseElse _ ih | guardElse _ ih =>
    obtain ⟨hfalls, hexits⟩ := ih hexp
    exact ⟨fun h => Bool.or_eq_true_iff.2 (.inr (hfalls h)), fun h => Bool.or_eq_true_iff.2 (.inr (hexits h))⟩
  | whileTurn _ _ _ ih | repeatTurn _ _ _ ih | forTurn _ _ _ ih | loopTurn _ _ _ ih =>
    exact ih (List.forall_mem_append.1 hexp).2
  | whileStop _ hf he ih | repeatStop _ hf he ih | forStop _ hf he ih | loopStop _ hf he ih =>
    exact ⟨fun h => absurd h hf, fun h => absurd h he⟩
  | loopExit _ ih => exact ⟨fun _ => (ih hexp).2 rfl, nofun⟩
  | with_ _ ih => exact ih hexp
  | exit => exact ⟨nofun, fun _ => rfl⟩
  | exitNone | retryNone => exact absurd (hexp _ List.mem_cons_self) id
  | block _ ih => exact ⟨fun _ => (ih hexp).1 rfl, nofun⟩
  | blockFinally _ _ ihs ih =>
    rw [List.forall_mem_append, List.forall_mem_append] at hexp
    refine ⟨fun _ => (ihs hexp.1.1).1 rfl, fun h => ?_⟩
    rw [if_pos h] at hexp
    exact absurd (hexp.2 _ List.mem_cons_self) id
  | blockStop _ hne ih => exact ⟨fun h => absurd h hne, (ih hexp).2⟩
  | caseNone | guardNone | return_ | raise | retry => exact ⟨nofun, nofun⟩

end Runs

section body
variable {b : Block} {t : List Event} {e e' : Ending}

theorem Finishes.sound (h : Finishes b.finally_ e t e') (hexp : ∀ ev ∈ t, ev.Expected b)
    (hv : elseReturnsValues b.finally_ = true) (he : e ≠ .returned false)
    (hend : e = .reachedEnd → ∃ fin, b.finally_ = some fin ∧ seqCompletes fin = false) :
    e' ≠ .reachedEnd ∧ e' ≠ .returned false := by
  cases h with
  | none hnone =>
    refine ⟨fun h => ?_, he⟩
    obtain ⟨fin, hsome, -⟩ := hend h
    rw [hnone] at hsome
    cases hsome
  | falls hfin hrun =>
    refine ⟨fun h => ?_, he⟩
    obtain ⟨fin, hsome, hc⟩ := hend h
    obtain rfl := Option.some.inj (hfin.symm.trans hsome)
    have hcompletes : seqCompletes _ = true := (hrun.sound hexp).1 rfl
    rw [hc] at hcompletes
    cases hcompletes
  | @stops body _ out _ hfin hrun hne he' =>
    rw [hfin] at hv
    have hret := hrun.not_returns_false hv
    cases out with
    | falls => exact absurd rfl hne
    | exits | retries => cases he'
    | raises | halts => cases he'; exact ⟨nofun, nofun⟩
    | returns value =>
      cases he'
      exact ⟨nofun, fun h => hret (by rw [Ending.returned.inj h])⟩

/-- A run of an accepted body in which everything is as sema expects it does not reach the end without a
value. -/
theorem alwaysReturns_of_expected {isMethod : Bool} (hacc : Accepted isMethod b)
    (hmethod : isMethod = true → seqCompletes b.stmts = false) (hrun : BodyRuns b t e)
    (hexp : ∀ ev ∈ t, ev.Expected b) : e ≠ .reachedEnd ∧ e ≠ .returned false := by
  have hbody : ∀ {t}, (∀ ev ∈ t, ev.Expected b) → ¬ Runs ⟨false, false⟩ (.stmts b.stmts) t .falls := by
    intro t hexp h
    have hcompletes : seqCompletes b.stmts = true := (h.sound hexp).1 rfl
    cases isMethod with
    | false => exact absurd (hcompletes.symm.trans (hacc.not_completes rfl)) Bool.true_eq_false.mp
    | true => exact absurd (hcompletes.symm.trans (hmethod rfl)) Bool.true_eq_false.mp
  have hexcept : seqReturnsValues b.except.flatten = true :=
    seqReturnsValues_flatten.trans hacc.except
  induction hrun with
  | @normal t out e t' e' hrun hraises hhalts he hfin =>
    rw [List.forall_mem_append] at hexp
    have hret := hrun.not_returns_false hacc.stmts
    cases out with
    | falls => exact absurd hrun (hbody hexp.1)
    | returns value =>
      cases he
      exact hfin.sound hexp.2 hacc.finally_ (fun h => hret (by rw [Ending.returned.inj h])) nofun
    | raises => exact absurd rfl hraises
    | halts => exact absurd rfl hhalts
    | exits | retries => cases he
  | halts => exact ⟨nofun, nofun⟩
  | lost _ _ hfin =>
    rw [List.forall_mem_append, List.forall_mem_cons] at hexp
    exact hfin.sound hexp.2.2 hacc.finally_ nofun fun _ => hexp.2.1
  | unhandled _ _ hfin =>
    exact hfin.sound (List.forall_mem_append.1 hexp).2 hacc.finally_ nofun nofun
  | handled _ _ hhandler hfin =>
    rw [List.forall_mem_append, List.forall_mem_cons, List.forall_mem_append] at hexp
    obtain ⟨-, hhandled, hexp', hexp''⟩ := hexp
    have hcompletes : seqCompletes b.except.flatten = true := (hhandler.sound hexp').1 rfl
    refine hfin.sound hexp'' hacc.finally_ nofun fun _ => ?_
    rcases hhandled with hc | hc
    · rw [hcompletes] at hc
      cases hc
    · exact hc
  | @leaves t t' out e _ _ hhandler hne he =>
    have hret := hhandler.not_returns_false hexcept
    cases out with
    | falls => exact absurd rfl hne
    | exits | retries => cases he
    | raises | halts => cases he; exact ⟨nofun, nofun⟩
    | returns value =>
      cases he
      exact ⟨nofun, fun h => hret (by rw [Ending.returned.inj h])⟩
  | retry _ _ _ _ ih =>
    rw [List.forall_mem_append, List.forall_mem_cons, List.forall_mem_append] at hexp
    exact ih hexp.2.2.2

end body

/-- `RETURN e`, without an exception. -/
theorem alwaysReturns_of_expected_return :
    Ending.returned true ≠ .reachedEnd ∧ Ending.returned true ≠ .returned false := by
  have hrun : BodyRuns ⟨[.return_ true], [], none⟩ ([] ++ []) (.returned true) :=
    .normal (.stop .return_ nofun) nofun nofun rfl (.none rfl)
  exact @alwaysReturns_of_expected _ _ _ false ⟨fun _ => rfl, rfl, rfl, rfl⟩ nofun hrun nofun

/-- `BEGIN RETURN g(x) EXCEPT END` swallows an exception of `g`. -/
theorem not_alwaysReturns_except :
    Accepted false ⟨[.return_ true], [[]], none⟩ ∧ ¬ AlwaysReturns ⟨[.return_ true], [[]], none⟩ := by
  refine ⟨⟨fun _ => rfl, rfl, rfl, rfl⟩, fun hall => (hall [.handled] .reachedEnd ?_).1 rfl⟩
  have hrun : BodyRuns ⟨[.return_ true], [[]], none⟩ ([] ++ .handled :: ([] ++ [])) .reachedEnd :=
    .handled nofun (.stop (.aborts rfl (.inl rfl)) nofun) .nil (.none rfl)
  exact hrun

/-! ## The lowered graph

The statements of `NewM2.Cfg`, which is without calls and exceptions of expressions, end in the ways of
the runs here. So the lowered graph of a function reaches its end only if a run does. -/

mutual

def ofCfg : Cfg.Stmt → Stmt
  | .empty => .empty
  | .simple _ => .assign
  | .if_ arms els => .if_ (ofArms arms) (ofElse els)
  | .case_ _ arms els => .case_ (ofCase arms) (ofElse els)
  | .while_ _ body => .while_ (ofStmts body)
  | .repeat_ body _ => .repeat_ (ofStmts body)
  | .for_ _ _ _ _ body => .for_ (ofStmts body)
  | .loop body => .loop (ofStmts body)
  | .with_ _ body => .with_ (ofStmts body)
  | .exit => .exit
  | .return_ e => .return_ e.isSome
  | .block ss fin => .block (ofStmts ss) [] (ofElse fin)

def ofArms : List (Nat × List Cfg.Stmt) → List (List Stmt)
  | [] => []
  | (_, body) :: rest => ofStmts body :: ofArms rest

def ofCase : List (List Cfg.CaseLabel × List Cfg.Stmt) → List (List Stmt)
  | [] => []
  | (_, body) :: rest => ofStmts body :: ofCase rest

def ofElse : Option (List Cfg.Stmt) → Option (List Stmt)
  | none => none
  | some body => some (ofStmts body)

def ofStmts : List Cfg.Stmt → List Stmt
  | [] => []
  | s :: ss => ofCfg s :: ofStmts ss

end

/-- The ways to end that correspond. -/
inductive Matches : Cfg.Outcome → Outcome → Prop
  | normal : Matches .normal .falls
  | exit : Matches .exit .exits
  | return_ {value} : Matches .return_ (.returns value)
  | raise : Matches .raise .raises

/-- `r` is the end of a run of `code`, unless a loop has used up its turns. -/
def Reaches (c : Frames) (code : Code) (r : Cfg.Outcome) : Prop :=
  r ≠ .outOfFuel → ∃ t out, Matches r out ∧ Runs c code t out

section loops
variable {c : Frames} {s : Stmt} {body : List Stmt} {ω : Cfg.Oracle}

theorem reaches_iterate {turn : List Cfg.Event → List Cfg.Event × Option Cfg.Outcome}
    (hnext : ∀ h, (turn h).2 = none → ∀ {t out}, Runs c (.stmt s) t out → ∃ t', Runs c (.stmt s) t' out)
    (hlast : ∀ h r, (turn h).2 = some r → Reaches c (.stmt s) r) (n : Nat) (h : List Cfg.Event) :
    Reaches c (.stmt s) (Cfg.iterate turn n h).2 := by
  induction n generalizing h with
  | zero => exact fun hne => absurd rfl hne
  | succ n ih =>
    unfold Cfg.iterate
    rcases ht : turn h with ⟨h', - | r⟩
    · intro hne
      obtain ⟨t, out, hm, hrun⟩ := ih h' hne
      obtain ⟨t', hrun'⟩ := hnext h (by rw [ht]) hrun
      exact ⟨t', out, hm, hrun'⟩
    · exact hlast h r (by rw [ht])

/-- Another turn follows a body that falls through. -/
theorem runs_of_afterBody_none {next : List Cfg.Event → List Cfg.Event × Option Cfg.Outcome}
    {r : List Cfg.Event × Cfg.Outcome} (hbody : Reaches c (.stmts body) r.2)
    (h : (Cfg.afterBody .normal next r).2 = none) : ∃ t, Runs c (.stmts body) t .falls := by
  obtain ⟨h', out⟩ := r
  cases out with
  | normal =>
    obtain ⟨t, out, hm, hrun⟩ := hbody nofun
    cases hm
    exact ⟨t, hrun⟩
  | exit | return_ | raise | outOfFuel | stray => cases h

/-- How a loop ends behind its body. -/
theorem runs_of_afterBody_some {next : List Cfg.Event → List Cfg.Event × Option Cfg.Outcome}
    {r : List Cfg.Event × Cfg.Outcome} {last : Cfg.Outcome} (hbody : Reaches c (.stmts body) r.2)
    (h : (Cfg.afterBody .normal next r).2 = some last) (hne : last ≠ .outOfFuel) :
    (∃ t h, Runs c (.stmts body) t .falls ∧ (next h).2 = some last) ∨
      (∃ t, Runs c (.stmts body) t .exits ∧ last = .normal) ∨
      ∃ t out, Runs c (.stmts body) t out ∧ Matches last out ∧ out ≠ .falls ∧ out ≠ .exits := by
  obtain ⟨h', out⟩ := r
  cases out with
  | normal =>
    obtain ⟨t, out, hm, hrun⟩ := hbody nofun
    cases hm
    exact .inl ⟨t, h', hrun, h⟩
  | exit =>
    obtain ⟨t, out, hm, hrun⟩ := hbody nofun
    cases hm
    exact .inr (.inl ⟨t, hrun, (Option.some.inj h).symm⟩)
  | return_ | raise =>
    obtain ⟨t, out, hm, hrun⟩ := hbody nofun
    obtain rfl := Option.some.inj h
    exact .inr (.inr ⟨t, out, hrun, hm, (by rintro rfl; cases hm), (by rintro rfl; cases hm)⟩)
  | outOfFuel => exact absurd (Option.some.inj h).symm hne
  | stray =>
    obtain ⟨t, out, hm, -⟩ := hbody nofun
    cases hm

end loops

section exec
variable {ω : Cfg.Oracle} {fuel : Nat}

theorem reaches_seq {c : Frames} {s : Stmt} {ss : List Stmt} {r : List Cfg.Event × Cfg.Outcome}
    {next : List Cfg.Event → List Cfg.Event × Cfg.Outcome} (hs : Reaches c (.stmt s) r.2)
    (hnext : ∀ h, Reaches c (.stmts ss) (next h).2) :
    Reaches c (.stmts (s :: ss))
      (match r with
        | (h, .normal) => next h
        | r => r).2 := by
  obtain ⟨h, out⟩ := r
  cases out with
  | normal =>
    intro hne
    obtain ⟨t, _, hm, hrun⟩ := hs nofun
    obtain ⟨t', out, hm', hrun'⟩ := hnext h hne
    cases hm
    exact ⟨t ++ t', out, hm', .cons hrun hrun'⟩
  | exit | return_ | raise | outOfFuel | stray =>
    intro hne
    obtain ⟨t, out, hm, hrun⟩ := hs hne
    exact ⟨t, out, hm, .stop hrun (by rintro rfl; cases hm)⟩

mutual

theorem reaches_exec : ∀ (s : Cfg.Stmt) (l : Bool) (h : List Cfg.Event),
    Reaches ⟨l, false⟩ (.stmt (ofCfg s)) (Cfg.exec .normal ω fuel s l h).2
  | .empty, _, _ => fun _ => ⟨_, _, .normal, .empty⟩
  | .simple _, _, _ => fun _ => ⟨_, _, .normal, .assign⟩
  | .if_ arms els, l, h => by
    unfold Cfg.exec ofCfg
    refine reaches_arms arms l h (fun hmem hrun => .ifArm hmem hrun) fun h => ?_
    cases els with
    | none => exact fun _ => ⟨_, _, .normal, .ifNone⟩
    | some body =>
      intro hne
      obtain ⟨t, out, hm, hrun⟩ := reaches_stmts body l h hne
      exact ⟨t, out, hm, .ifElse hrun⟩
  | .case_ e arms els, l, h => by
    unfold Cfg.exec ofCfg
    refine reaches_case arms l _ (fun hmem hrun => .caseArm hmem hrun) fun h => ?_
    cases els with
    | none => exact fun _ => ⟨_, _, .raise, .caseNone⟩
    | some body =>
      intro hne
      obtain ⟨t, out, hm, hrun⟩ := reaches_stmts body l h hne
      exact ⟨t, out, hm, .caseElse hrun⟩
  | .while_ cond body, l, h => by
    unfold Cfg.exec ofCfg
    have hbody := reaches_stmts body true
    refine reaches_iterate (fun h hnone t out hrun => ?_) (fun h r hsome hne => ?_) fuel h
    · unfold Cfg.testThen at hnone
      dsimp only at hnone
      split at hnone
      · cases hnone
      · obtain ⟨t', hfalls⟩ := runs_of_afterBody_none (hbody _) hnone
        exact ⟨_, .whileTurn hfalls hrun⟩
    · unfold Cfg.testThen at hsome
      dsimp only at hsome
      split at hsome
      · obtain rfl := Option.some.inj hsome
        exact ⟨_, _, .normal, .whileDone⟩
      · rcases runs_of_afterBody_some (hbody _) hsome hne with ⟨t, h', -, hnext⟩ | ⟨t, hrun, rfl⟩ | ⟨t, out, hrun, hm, hf, he⟩
        · cases hnext
        · exact ⟨t, _, .normal, .whileExit hrun⟩
        · exact ⟨t, out, hm, .whileStop hrun hf he⟩
  | .repeat_ body cond, l, h => by
    unfold Cfg.exec ofCfg
    have hbody := reaches_stmts body true
    refine reaches_iterate (fun h hnone t out hrun => ?_) (fun h r hsome hne => ?_) fuel h
    · obtain ⟨t', hfalls⟩ := runs_of_afterBody_none (hbody _) hnone
      exact ⟨_, .repeatTurn hfalls hrun⟩
    · rcases runs_of_afterBody_some (hbody _) hsome hne with ⟨t, h', hrun, hnext⟩ | ⟨t, hrun, rfl⟩ | ⟨t, out, hrun, hm, hf, he⟩
      · dsimp only at hnext
        split at hnext
        · cases hnext
        · obtain rfl := Option.some.inj hnext
          exact ⟨t, _, .normal, .repeatDone hrun⟩
      · exact ⟨t, _, .normal, .repeatExit hrun⟩
      · exact ⟨t, out, hm, .repeatStop hrun hf he⟩
  | .for_ init cond fits advance body, l, h => by
    unfold Cfg.exec ofCfg
    have hbody := reaches_stmts body true
    refine reaches_iterate (fun h hnone t out hrun => ?_) (fun h r hsome hne => ?_) fuel _
    · unfold Cfg.testThen at hnone
      dsimp only at hnone
      split at hnone
      · cases hnone
      · obtain ⟨t', hfalls⟩ := runs_of_afterBody_none (hbody _) hnone
        exact ⟨_, .forTurn hfalls hrun⟩
    · unfold Cfg.testThen at hsome
      dsimp only at hsome
      split at hsome
      · obtain rfl := Option.some.inj hsome
        exact ⟨_, _, .normal, .forDone⟩
      · rcases runs_of_afterBody_some (hbody _) hsome hne with ⟨t, h', hrun, hnext⟩ | ⟨t, hrun, rfl⟩ | ⟨t, out, hrun, hm, hf, he⟩
        · split at hnext
          · obtain rfl := Option.some.inj hnext
            exact ⟨t, _, .normal, .forLast hrun⟩
          · cases hnext
        · exact ⟨t, _, .normal, .forExit hrun⟩
        · exact ⟨t, out, hm, .forStop hrun hf he⟩
  | .loop body, l, h => by
    unfold Cfg.exec ofCfg
    have hbody := reaches_stmts body true
    refine reaches_iterate (fun h hnone t out hrun => ?_) (fun h r hsome hne => ?_) fuel h
    · obtain ⟨t', hfalls⟩ := runs_of_afterBody_none (hbody _) hnone
      exact ⟨_, .loopTurn hfalls hrun⟩
    · rcases runs_of_afterBody_some (hbody _) hsome hne with ⟨t, h', -, hnext⟩ | ⟨t, hrun, rfl⟩ | ⟨t, out, hrun, hm, hf, he⟩
      · cases hnext
      · exact ⟨t, _, .normal, .loopExit hrun⟩
      · exact ⟨t, out, hm, .loopStop hrun hf he⟩
  | .with_ d body, l, h => fun hne => by
    obtain ⟨t, out, hm, hrun⟩ := reaches_stmts body l _ hne
    exact ⟨t, out, hm, .with_ hrun⟩
  | .exit, true, _ => fun _ => ⟨_, _, .exit, .exit rfl⟩
  | .exit, false, _ => fun _ => ⟨_, _, .normal, .exitNone rfl⟩
  | .return_ none, _, _ | .return_ (some _), _, _ => fun _ => ⟨_, _, .return_, .return_⟩
  | .block ss fin, l, h => by
    unfold Cfg.exec ofCfg
    have hss := reaches_stmts ss l h
    generalize Cfg.execStmts .normal ω fuel ss l h = r at hss ⊢
    obtain ⟨h', out⟩ := r
    cases out with
    | normal =>
      intro hne
      obtain ⟨t, out, hm, hrun⟩ := hss nofun
      cases hm
      cases fin with
      | none => exact ⟨t, _, .normal, .block hrun⟩
      | some fin =>
        obtain ⟨t', out, hm', hrun'⟩ := reaches_stmts fin l h' hne
        exact ⟨_, out, hm', .blockFinally hrun hrun'⟩
    | exit | return_ | raise | outOfFuel | stray =>
      intro hne
      obtain ⟨t, out, hm, hrun⟩ := hss hne
      exact ⟨t, out, hm, .blockStop hrun (by rintro rfl; cases hm)⟩

theorem reaches_arms {s : Stmt} {els : List Cfg.Event → List Cfg.Event × Cfg.Outcome} :
    ∀ (arms : List (Nat × List Cfg.Stmt)) (l : Bool) (h : List Cfg.Event),
    (∀ {body t out}, body ∈ ofArms arms → Runs ⟨l, false⟩ (.stmts body) t out →
      Runs ⟨l, false⟩ (.stmt s) t out) → (∀ h, Reaches ⟨l, false⟩ (.stmt s) (els h).2) →
    Reaches ⟨l, false⟩ (.stmt s) (Cfg.execArms .normal ω fuel arms els l h).2
  | [], _, h, _, hels => hels h
  | (c, body) :: rest, l, h, harm, hels => by
    unfold Cfg.execArms
    dsimp only
    split
    · exact reaches_arms rest l _ (fun hmem => harm (List.mem_cons_of_mem _ hmem)) hels
    · intro hne
      obtain ⟨t, out, hm, hrun⟩ := reaches_stmts body l _ hne
      exact ⟨t, out, hm, harm List.mem_cons_self hrun⟩

theorem reaches_case {s : Stmt} {els : List Cfg.Event → List Cfg.Event × Cfg.Outcome} {v : Int} :
    ∀ (arms : List (List Cfg.CaseLabel × List Cfg.Stmt)) (l : Bool) (h : List Cfg.Event),
    (∀ {body t out}, body ∈ ofCase arms → Runs ⟨l, false⟩ (.stmts body) t out →
      Runs ⟨l, false⟩ (.stmt s) t out) → (∀ h, Reaches ⟨l, false⟩ (.stmt s) (els h).2) →
    Reaches ⟨l, false⟩ (.stmt s) (Cfg.execCase .normal ω fuel arms v els l h).2
  | [], _, h, _, hels => hels h
  | (labels, body) :: rest, l, h, harm, hels => by
    unfold Cfg.execCase
    split
    · intro hne
      obtain ⟨t, out, hm, hrun⟩ := reaches_stmts body l _ hne
      exact ⟨t, out, hm, harm List.mem_cons_self hrun⟩
    · rw [if_neg fun h => h.2 rfl]
      exact reaches_case rest l h (fun hmem => harm (List.mem_cons_of_mem _ hmem)) hels

theorem reaches_stmts : ∀ (ss : List Cfg.Stmt) (l : Bool) (h : List Cfg.Event),
    Reaches ⟨l, false⟩ (.stmts (ofStmts ss)) (Cfg.execStmts .normal ω fuel ss l h).2
  | [], _, _ => fun _ => ⟨_, _, .normal, .nil⟩
  | s :: ss, l, h => by
    unfold Cfg.execStmts ofStmts
    exact reaches_seq (reaches_exec s l h) fun h => reaches_stmts ss l h

end

end exec

/-- Where the lowered graph of a function is at its end, a run of the body is. -/
theorem bodyRuns_of_trapped {mode : Cfg.MemoryMode} {body : Cfg.Stmt} {ω : Cfg.Oracle} {n : Nat}
    (hacc : body.Accepted) (h : (Cfg.behaviour (Cfg.lowerBody mode true body) ω n).2 = some .trapped) :
    ∃ t, BodyRuns ⟨[ofCfg body], [], none⟩ t .reachedEnd := by
  obtain ⟨fuel, -, hend⟩ := (Cfg.lowerBody_simulates mode true body ω hacc).2 n
  have heq := hend (by rw [h]; rfl)
  have hobs : (Cfg.observe .trapped (Cfg.exec .normal ω fuel body false [])).2 = some .trapped :=
    (congrArg Prod.snd heq).trans h
  have hreach := @reaches_exec ω fuel body false []
  rcases hr : Cfg.exec .normal ω fuel body false [] with ⟨h', out⟩
  rw [hr] at hobs hreach
  have hne : out ≠ .outOfFuel := by
    rintro rfl
    cases hobs
  obtain ⟨t, out', hm, hrun⟩ := hreach hne
  have hfalls : out' = .falls := by
    cases hm with
    | normal => rfl
    | exit => cases hrun.target.1 rfl
    | return_ | raise => cases hobs
  subst hfalls
  have hseq := Runs.cons hrun .nil
  exact ⟨_, .normal hseq nofun nofun rfl (.none rfl)⟩

/-- `IF c THEN RETURN x END`, where `c` does not hold. -/
theorem bodyRuns_of_trapped_if :
    ∃ t, BodyRuns ⟨[ofCfg (.if_ [(0, [.return_ (some 1)])] none)], [], none⟩ t .reachedEnd :=
  @bodyRuns_of_trapped .gc (.if_ [(0, [.return_ (some 1)])] none) (fun _ _ => 0) 8
    ⟨⟨⟨trivial, trivial⟩, trivial⟩, trivial⟩ (by decide)

end NewM2.Ir.DefiniteReturn
