import Mathlib
import NewM2.Sema.HeapCheck

/-! # Leaks

`Proc.leaks_real` says when the leaks that the pass reports of a procedure are real. The pass looks at each
variable by itself: `Effect` says what it does to one. -/

namespace NewM2.HeapCheck
open Sema

/-! ## What is read, disposed of and handed over -/

/-- The variable itself. -/
def Expr.carries (p : String) (e : Expr) : Bool := (simpleVar e).map (·.1) == some p

mutual

/-- The pass takes the variable for read. -/
def Expr.reads (p : String) : Expr → Bool
  | .designator d => d.reads p
  | .call callee args => !(simpleVar callee).isSome && callee.reads p || readsAny p args
  | .binary _ lhs rhs => lhs.reads p || rhs.reads p
  | .unary _ e => e.reads p
  | .literal | .set _ _ => false

def readsAny (p : String) : List Expr → Bool
  | [] => false
  | e :: rest => e.reads p || readsAny p rest

def Designator.reads (p : String) : Designator → Bool
  | .mk segments selectors _ => selectors.isEmpty && segments == [p] || selectorsRead p selectors

def selectorsRead (p : String) : List Selector → Bool
  | [] => false
  | .index indices :: rest => readsAny p indices || selectorsRead p rest
  | .field _ :: rest | .deref :: rest | .typeGuard _ :: rest => selectorsRead p rest

end

mutual

/-- The variable is an argument, or an element of a constructor. -/
def Expr.passes (p : String) : Expr → Bool
  | .designator d => d.passes p
  | .call callee args => callee.passes p || handed p args
  | .binary _ lhs rhs => lhs.passes p || rhs.passes p
  | .unary _ e => e.passes p
  | .set _ elements => holds p elements
  | .literal => false

/-- For arguments. -/
def handed (p : String) : List Expr → Bool
  | [] => false
  | e :: rest => e.carries p || e.passes p || handed p rest

def passesAny (p : String) : List Expr → Bool
  | [] => false
  | e :: rest => e.passes p || passesAny p rest

def Designator.passes (p : String) : Designator → Bool
  | .mk _ selectors _ => selectorsPass p selectors

def selectorsPass (p : String) : List Selector → Bool
  | [] => false
  | .index indices :: rest => passesAny p indices || selectorsPass p rest
  | .field _ :: rest | .deref :: rest | .typeGuard _ :: rest => selectorsPass p rest

/-- For the elements of a constructor. -/
def holds (p : String) : List SetElem → Bool
  | [] => false
  | .single e :: rest => e.carries p || e.passes p || holds p rest
  | .range lo hi :: rest => lo.carries p || lo.passes p || (hi.carries p || hi.passes p) || holds p rest

end

mutual

/-- A constructor holds the variable or passes it on. -/
def Expr.packs (p : String) : Expr → Bool
  | .designator d => d.packs p
  | .call callee args => callee.packs p || packsAny p args
  | .binary _ lhs rhs => lhs.packs p || rhs.packs p
  | .unary _ e => e.packs p
  | .set _ elements => holds p elements
  | .literal => false

def packsAny (p : String) : List Expr → Bool
  | [] => false
  | e :: rest => e.packs p || packsAny p rest

def Designator.packs (p : String) : Designator → Bool
  | .mk _ selectors _ => selectorsPack p selectors

def selectorsPack (p : String) : List Selector → Bool
  | [] => false
  | .index indices :: rest => packsAny p indices || selectorsPack p rest
  | .field _ :: rest | .deref :: rest | .typeGuard _ :: rest => selectorsPack p rest

end

/-- What a statement consists of. -/
inductive Part
  /-- Assigned, returned or raised. -/
  | value (e : Expr)
  | expr (e : Expr)
  | target (d : Designator)
  | call (e : Expr)

namespace Part
variable (p : String)

def reads : Part → Bool
  | value e | expr e => e.reads p
  | target d => d.reads p
  | call e =>
    match heapCall e with
    | some (.new _ _ rest) | some (.dispose _ _ rest) => readsAny p rest
    | none => e.reads p

/-- The value of the variable is assigned, returned, raised, passed or stored. -/
def hands : Part → Bool
  | value e => e.carries p || e.passes p
  | expr e => e.passes p
  | target d => d.passes p
  | call e =>
    match heapCall e with
    | some (.new _ _ rest) | some (.dispose _ _ rest) => handed p rest
    | none => e.passes p

def packs : Part → Bool
  | value e | expr e => e.packs p
  | target d => d.packs p
  | call e =>
    match heapCall e with
    | some (.new _ _ rest) | some (.dispose _ _ rest) => packsAny p rest
    | none => e.packs p

end Part

/-- A part that is seen by the pass, or one whose names are those of the procedure. -/
structure Occ where
  seen : Bool
  own : Bool
  part : Part

mutual

/-- The parts of a statement, by whether the pass gets to it and whether `p` still is the variable there. -/
def Stmt.occs (p : String) : Stmt → Bool → Bool → List Occ
  | .assign target value, seen, own => [⟨seen, own, .value value⟩, ⟨seen, own, .target target⟩]
  | .call e, seen, own => [⟨seen, own, .call e⟩]
  | .if_ arms elseArm, seen, own => armOccs p arms seen own ++ elseOccs p elseArm seen own
  | .case_ e arms elseArm, seen, own | .guard e arms elseArm, seen, own =>
    ⟨seen, own, .expr e⟩ :: (armOccs p arms seen own ++ elseOccs p elseArm seen own)
  | .while_ cond body, seen, own => ⟨seen, own, .expr cond⟩ :: seqOccs p body seen own
  | .repeat_ body cond, seen, own => ⟨seen, own, .expr cond⟩ :: seqOccs p body seen own
  | .for_ _ start end_ step body, seen, own =>
    ⟨seen, own, .expr start⟩ :: ⟨seen, own, .expr end_⟩ ::
      (step.toList.map (fun e => ⟨seen, own, .expr e⟩) ++ seqOccs p body seen own)
  | .loop body, seen, own => seqOccs p body seen own
  -- the variable is in scope, so that its name never stands for a field
  | .with_ d _ body, seen, own => ⟨seen, own, .target d⟩ :: seqOccs p body seen own
  | .return_ e, seen, own | .raise e, seen, own => e.toList.map fun e => ⟨seen, own, .value e⟩
  | .block b, seen, own => b.occs p seen own
  | .empty, _, _ | .exit, _, _ | .retry, _, _ => []

def seqOccs (p : String) : List Stmt → Bool → Bool → List Occ
  | [], _, _ => []
  | stmt :: rest, seen, own => stmt.occs p seen own ++ seqOccs p rest seen own

def armOccs (p : String) : List Arm → Bool → Bool → List Occ
  | [], _, _ => []
  | .if_ cond body :: rest, seen, own => ⟨seen, own, .expr cond⟩ :: (seqOccs p body seen own ++ armOccs p rest seen own)
  | .case_ body :: rest, seen, own => seqOccs p body seen own ++ armOccs p rest seen own
  | .guard denoter body :: rest, seen, own =>
    seqOccs p body seen (own && denoter != some p) ++ armOccs p rest seen own

def elseOccs (p : String) : Option (List Stmt) → Bool → Bool → List Occ
  | none, _, _ => []
  | some body, seen, own => seqOccs p body seen own

/-- The pass does not get to EXCEPT and FINALLY. -/
def Block.occs (p : String) : Block → Bool → Bool → List Occ
  | .mk stmts except finally_, seen, own =>
    seqOccs p stmts seen own ++ (handlerOccs p except own ++ elseOccs p finally_ false own)

def handlerOccs (p : String) : List (List Stmt) → Bool → List Occ
  | [], _ => []
  | body :: rest, own => seqOccs p body false own ++ handlerOccs p rest own

end

/-- The names that are declared. -/
def Decl.names : Decl → List String
  | .var names | .other names => names
  | .procedure (.mk name _ _) | .localModule name _ _ _ | .class_ name _ _ => [name]

mutual

/-- The parts of nested procedures, in which `p` is the variable unless they declare it. -/
def Decl.occs (p : String) : Decl → List Occ
  | .procedure q => q.occs p
  | .localModule _ imports decls body =>
    if imports.any (·.rebinds p) ∨ p ∈ decls.flatMap Decl.names then []
    else declOccs p decls ++ (match body with
      | some b => b.occs p false true
      | none => [])
  | .class_ _ members methods => if p ∈ members then [] else procOccs p methods
  | .var _ | .other _ => []

def declOccs (p : String) : List Decl → List Occ
  | [] => []
  | d :: rest => d.occs p ++ declOccs p rest

def procOccs (p : String) : List ProcDecl → List Occ
  | [] => []
  | q :: rest => q.occs p ++ procOccs p rest

def ProcDecl.occs (p : String) : ProcDecl → List Occ
  | .mk _ params (some (.mk decls body)) =>
    if p ∈ params.flatten ++ decls.flatMap Decl.names then []
    else declOccs p decls ++ body.occs p false true
  | .mk _ _ none => []

end

/-- The parts of a procedure. -/
def Proc.occs (f : Proc) (p : String) : List Occ := f.body.occs p true true ++ declOccs p f.decls

/-! ## What is done to one variable -/

/-- What becomes of its state behind a branch. -/
def changed (before after : Option St) : Bool := after.isSome && after != before

mutual

/-- What the pass makes of the state of `p`. -/
def Stmt.track (p : String) : Stmt → Option St → Option St
  | .assign target _, st => if target.var?.map (·.1) = some p then some .unknown else st
  | .call e, st =>
    match heapCall e with
    | some (.new q _ _) => if q = p then some .alloc else st
    | some (.dispose q _ _) => if q = p then some .disposed else st
    | none => st
  | .if_ arms elseArm, st | .case_ _ arms elseArm, st | .guard _ arms elseArm, st =>
    if armsChange p arms st || elseChanges p elseArm st then some .unknown else st
  | .while_ _ body, st | .repeat_ body _, st | .for_ _ _ _ _ body, st | .loop body, st | .with_ _ _ body, st =>
    if changed st (trackSeq p body st) then some .unknown else st
  | .block (.mk stmts _ _), st => trackSeq p stmts st
  | .empty, st | .exit, st | .return_ _, st | .raise _, st | .retry, st => st

def trackSeq (p : String) : List Stmt → Option St → Option St
  | [], st => st
  | stmt :: rest, st => trackSeq p rest (stmt.track p st)

def armsChange (p : String) : List Arm → Option St → Bool
  | [], _ => false
  | .if_ _ body :: rest, st | .case_ body :: rest, st | .guard _ body :: rest, st =>
    changed st (trackSeq p body st) || armsChange p rest st

def elseChanges (p : String) : Option (List Stmt) → Option St → Bool
  | none, _ => false
  | some body, st => changed st (trackSeq p body st)

end

/-! ## Nothing is handed over unread, except in a constructor -/

section expressions
variable {p : String}

theorem Designator.eq_of_var? : ∀ {d : Designator} {span : Span}, d.var? = some (p, span) → d = .mk [p] [] span
  | .mk [_] [] _, _, rfl => rfl

theorem eq_of_simpleVar {e : Expr} {span : Span} (h : simpleVar e = some (p, span)) :
    e = .designator (.mk [p] [] span) := by
  cases e with
  | designator d => rw [d.eq_of_var? h]
  | literal | call _ _ | binary _ _ _ | unary _ _ | set _ _ => cases h

theorem Expr.reads_of_carries {e : Expr} (h : e.carries p) : e.reads p := by
  obtain ⟨⟨q, span⟩, hvar, rfl⟩ := Option.map_eq_some_iff.1 (beq_iff_eq.1 h)
  rw [eq_of_simpleVar hvar]
  simp [Expr.reads, Designator.reads]

theorem Expr.passes_of_simpleVar {e : Expr} (h : (simpleVar e).isSome) : e.passes p = false := by
  obtain ⟨⟨q, span⟩, hvar⟩ := Option.isSome_iff_exists.1 h
  rw [eq_of_simpleVar hvar]
  rfl

mutual

theorem Expr.reads_or_packs : ∀ e : Expr, e.passes p → e.reads p ∨ e.packs p
  | .literal, h => absurd h Bool.false_ne_true
  | .designator d, h => d.reads_or_packs h
  | .call callee args, h => by
    simp only [Expr.passes, Bool.or_eq_true] at h
    simp only [Expr.reads, Expr.packs, Bool.or_eq_true, Bool.and_eq_true, Bool.not_eq_true']
    rcases h with h | h
    · have hcallee : (simpleVar callee).isSome = false := by
        by_contra hvar
        rw [callee.passes_of_simpleVar (Bool.of_not_eq_false hvar)] at h
        cases h
      exact (callee.reads_or_packs h).imp (fun h => .inl ⟨hcallee, h⟩) .inl
    · exact (readsAny_or_packsAny_of_handed args h).imp .inr .inr
  | .binary _ lhs rhs, h => by
    simp only [Expr.passes, Bool.or_eq_true] at h
    simp only [Expr.reads, Expr.packs, Bool.or_eq_true]
    rcases h with h | h
    · exact (lhs.reads_or_packs h).imp .inl .inl
    · exact (rhs.reads_or_packs h).imp .inr .inr
  | .unary _ e, h => e.reads_or_packs h
  | .set _ _, h => .inr h

theorem readsAny_or_packsAny_of_handed : ∀ l : List Expr, handed p l → readsAny p l ∨ packsAny p l
  | [], h => absurd h Bool.false_ne_true
  | e :: rest, h => by
    simp only [handed, Bool.or_eq_true] at h
    simp only [readsAny, packsAny, Bool.or_eq_true]
    rcases h with (h | h) | h
    · exact .inl (.inl (Expr.reads_of_carries h))
    · exact (e.reads_or_packs h).imp .inl .inl
    · exact (readsAny_or_packsAny_of_handed rest h).imp .inr .inr

theorem readsAny_or_packsAny : ∀ l : List Expr, passesAny p l → readsAny p l ∨ packsAny p l
  | [], h => absurd h Bool.false_ne_true
  | e :: rest, h => by
    simp only [passesAny, Bool.or_eq_true] at h
    simp only [readsAny, packsAny, Bool.or_eq_true]
    rcases h with h | h
    · exact (e.reads_or_packs h).imp .inl .inl
    · exact (readsAny_or_packsAny rest h).imp .inr .inr

theorem Designator.reads_or_packs : ∀ d : Designator, d.passes p → d.reads p ∨ d.packs p
  | .mk _ selectors _, h => by
    simp only [Designator.reads, Designator.packs, Bool.or_eq_true]
    exact (selectorsRead_or_selectorsPack selectors h).imp_left .inr

theorem selectorsRead_or_selectorsPack :
    ∀ l : List Selector, selectorsPass p l → selectorsRead p l ∨ selectorsPack p l
  | [], h => absurd h Bool.false_ne_true
  | .index indices :: rest, h => by
    simp only [selectorsPass, Bool.or_eq_true] at h
    simp only [selectorsRead, selectorsPack, Bool.or_eq_true]
    rcases h with h | h
    · exact (readsAny_or_packsAny indices h).imp .inl .inl
    · exact (selectorsRead_or_selectorsPack rest h).imp .inr .inr
  | .field _ :: rest, h | .deref :: rest, h | .typeGuard _ :: rest, h => selectorsRead_or_selectorsPack rest h

end

mutual

theorem Expr.passes_of_packs : ∀ e : Expr, e.packs p → e.passes p
  | .literal, h => h
  | .designator d, h => d.passes_of_packs h
  | .call callee args, h => by
    simp only [Expr.packs, Bool.or_eq_true] at h
    simp only [Expr.passes, Bool.or_eq_true]
    exact h.imp callee.passes_of_packs (handed_of_packsAny args)
  | .binary _ lhs rhs, h => by
    simp only [Expr.packs, Bool.or_eq_true] at h
    simp only [Expr.passes, Bool.or_eq_true]
    exact h.imp lhs.passes_of_packs rhs.passes_of_packs
  | .unary _ e, h => e.passes_of_packs h
  | .set _ _, h => h

theorem handed_of_packsAny : ∀ l : List Expr, packsAny p l → handed p l
  | [], h => h
  | e :: rest, h => by
    simp only [packsAny, Bool.or_eq_true] at h
    simp only [handed, Bool.or_eq_true]
    exact h.imp (fun h => .inr (e.passes_of_packs h)) (handed_of_packsAny rest)

theorem passesAny_of_packsAny : ∀ l : List Expr, packsAny p l → passesAny p l
  | [], h => h
  | e :: rest, h => by
    simp only [packsAny, Bool.or_eq_true] at h
    simp only [passesAny, Bool.or_eq_true]
    exact h.imp e.passes_of_packs (passesAny_of_packsAny rest)

theorem Designator.passes_of_packs : ∀ d : Designator, d.packs p → d.passes p
  | .mk _ selectors _, h => selectorsPass_of_selectorsPack selectors h

theorem selectorsPass_of_selectorsPack : ∀ l : List Selector, selectorsPack p l → selectorsPass p l
  | [], h => h
  | .index indices :: rest, h => by
    simp only [selectorsPack, Bool.or_eq_true] at h
    simp only [selectorsPass, Bool.or_eq_true]
    exact h.imp (passesAny_of_packsAny indices) (selectorsPass_of_selectorsPack rest)
  | .field _ :: rest, h | .deref :: rest, h | .typeGuard _ :: rest, h => selectorsPass_of_selectorsPack rest h

end

namespace Part

theorem reads_or_packs {o : Part} (h : o.hands p) : o.reads p ∨ o.packs p := by
  rcases o with e | e | d | e
  · rcases Bool.or_eq_true_iff.1 h with h | h
    · exact .inl (Expr.reads_of_carries h)
    · exact e.reads_or_packs h
  · exact e.reads_or_packs h
  · exact d.reads_or_packs h
  · revert h
    simp only [hands, reads, packs]
    rcases heapCall e with - | - | -
    · exact e.reads_or_packs
    · exact readsAny_or_packsAny_of_handed _
    · exact readsAny_or_packsAny_of_handed _

end Part

end expressions

/-! ## What the pass does, variable by variable -/

/-- Where a variable is allocated the place of its NEW is known. -/
def Pass.Placed (s : Pass) : Prop := ∀ p, s.vars.st p = some .alloc → (s.vars.newSpan p).isSome

/-- From `s` to `t` the state of each variable is tracked, those that are read escape, and no leak is reported. -/
structure Effect (track : String → Option St → Option St) (reads : String → Bool) (s t : Pass) : Prop where
  st : ∀ p, t.vars.st p = track p (s.vars.st p)
  escaped : ∀ p, t.vars.escaped p = (s.vars.escaped p || reads p)
  placed : s.Placed → t.Placed
  leaks : ∀ p span, .leak p span ∈ t.diags → .leak p span ∈ s.diags

/-- From `b` to `c` the branches are scanned that change what `changes` says. -/
structure BranchEffect (changes : String → Option St → Bool) (reads : String → Bool) (b c : Pass × Touched) : Prop where
  st : ∀ p, c.1.vars.st p = b.1.vars.st p
  touched : ∀ p, c.2 p = (b.2 p || changes p (b.1.vars.st p))
  escaped : ∀ p, c.1.vars.escaped p = (b.1.vars.escaped p || reads p)
  placed : b.1.Placed → c.1.Placed
  leaks : ∀ p span, .leak p span ∈ c.1.diags → .leak p span ∈ b.1.diags

section effects
variable {track track' : String → Option St → Option St} {changes changes' : String → Option St → Bool}
  {reads reads' : String → Bool} {s t u : Pass} {b c d : Pass × Touched}

namespace Effect

theorem refl (s : Pass) : Effect (fun _ st => st) (fun _ => false) s s :=
  ⟨fun _ => rfl, fun _ => (Bool.or_false _).symm, id, fun _ _ => id⟩

theorem trans (h : Effect track reads s t) (h' : Effect track' reads' t u) :
    Effect (fun p st => track' p (track p st)) (fun p => reads p || reads' p) s u where
  st p := by rw [h'.st, h.st]
  escaped p := by rw [h'.escaped, h.escaped, Bool.or_assoc]
  placed := h'.placed ∘ h.placed
  leaks p span := h.leaks p span ∘ h'.leaks p span

theorem congr (h : Effect track reads s t) (htrack : ∀ p st, track p st = track' p st)
    (hreads : ∀ p, reads p = reads' p) : Effect track' reads' s t where
  st p := (h.st p).trans (htrack _ _)
  escaped p := by rw [h.escaped, hreads]
  placed := h.placed
  leaks := h.leaks

end Effect

namespace BranchEffect

theorem refl (b : Pass × Touched) : BranchEffect (fun _ _ => false) (fun _ => false) b b :=
  ⟨fun _ => rfl, fun _ => (Bool.or_false _).symm, fun _ => (Bool.or_false _).symm, id, fun _ _ => id⟩

theorem trans (h : BranchEffect changes reads b c) (h' : BranchEffect changes' reads' c d) :
    BranchEffect (fun p st => changes p st || changes' p st) (fun p => reads p || reads' p) b d where
  st p := by rw [h'.st, h.st]
  touched p := by rw [h'.touched, h.touched, h.st, Bool.or_assoc]
  escaped p := by rw [h'.escaped, h.escaped, Bool.or_assoc]
  placed := h'.placed ∘ h.placed
  leaks p span := h.leaks p span ∘ h'.leaks p span

theorem congr (h : BranchEffect changes reads b c) (hchanges : ∀ p st, changes p st = changes' p st)
    (hreads : ∀ p, reads p = reads' p) : BranchEffect changes' reads' b c where
  st := h.st
  touched p := by rw [h.touched, hchanges]
  escaped p := by rw [h.escaped, hreads]
  placed := h.placed
  leaks := h.leaks

theorem expr (h : Effect (fun _ st => st) reads b.1 t) : BranchEffect (fun _ _ => false) reads b (t, b.2) :=
  ⟨h.st, fun _ => (Bool.or_false _).symm, h.escaped, h.placed, h.leaks⟩

theorem branch {scan : Pass → Pass} (h : Effect track reads b.1 (scan b.1)) :
    BranchEffect (fun p st => changed st (track p st)) reads b (Pass.branch scan b) where
  st _ := rfl
  touched p := by
    show (b.2 p || _ && _) = _
    rw [h.st]
    rfl
  escaped p := by
    show (b.1.vars.escaped p || (scan b.1).vars.escaped p) = _
    rw [h.escaped, ← Bool.or_assoc, Bool.or_self]
  placed hplaced p hst := by
    show ((b.1.vars.newSpan p).or _).isSome = true
    rw [Option.isSome_or, hplaced p hst, Bool.true_or]
  leaks := h.leaks

theorem join (h : BranchEffect changes reads (s, fun _ => false) c) :
    Effect (fun p st => if changes p st then some .unknown else st) reads s (Pass.join c) where
  st p := by
    show (if c.2 p then _ else c.1.vars.st p) = _
    rw [h.st, h.touched, Bool.false_or]
  escaped := h.escaped
  placed hplaced p hst := by
    refine h.placed hplaced p ?_
    by_cases htouched : c.2 p
    · exact absurd ((if_pos htouched).symm.trans hst) (by simp)
    · exact (if_neg htouched).symm.trans hst
  leaks := h.leaks

end BranchEffect

theorem effect_warn (s : Pass) (q : Prop) [Decidable q] {w : Warning} (hw : ∀ p span, w ≠ .leak p span) :
    Effect (fun _ st => st) (fun _ => false) s (if q then s.warn w else s) := by
  split_ifs
  · refine ⟨fun _ => rfl, fun _ => (Bool.or_false _).symm, id, fun p span h => ?_⟩
    exact (List.mem_append.1 h).resolve_right fun h => hw p span (List.mem_singleton.1 h).symm
  · exact .refl s

theorem effect_touch (s : Pass) (name : String) (bare : Bool) (span : Span) :
    Effect (fun _ st => st) (fun p => bare && name == p) s (s.touch name bare span) := by
  have hwarn := effect_warn s (s.vars.st name = some .disposed) (w := .useAfter name span) (by simp)
  rcases bare with - | -
  · exact hwarn
  · have hescape (t : Pass) : Effect (fun _ st => st) (fun p => name == p) t
        { t with vars := { t.vars with escaped := Function.update t.vars.escaped name true } } := by
      refine ⟨fun _ => rfl, fun p => ?_, id, fun _ _ => id⟩
      by_cases hname : name = p
      · simp [hname]
      · simp [hname, Ne.symm hname]
    exact (hwarn.trans (hescape _)).congr (fun _ _ => rfl) fun _ => rfl

mutual

theorem effect_scanExpr : ∀ (e : Expr) (s : Pass),
    Effect (fun _ st => st) (fun p => e.reads p) s (scanExpr e s)
  | .literal, s | .set _ _, s => .refl s
  | .designator d, s => effect_scanDesignator d s
  | .call callee args, s => by
    rw [scanExpr]
    by_cases hvar : (simpleVar callee).isSome
    · rw [if_pos hvar]
      exact (effect_scanExprs args s).congr (fun _ _ => rfl) fun p => by simp [Expr.reads, hvar]
    · rw [if_neg hvar]
      exact ((effect_scanExpr callee s).trans (effect_scanExprs args _)).congr (fun _ _ => rfl)
        fun p => by simp [Expr.reads, hvar]
  | .binary _ lhs rhs, s =>
    ((effect_scanExpr lhs s).trans (effect_scanExpr rhs _)).congr (fun _ _ => rfl) fun _ => rfl
  | .unary _ e, s => effect_scanExpr e s

theorem effect_scanExprs : ∀ (l : List Expr) (s : Pass),
    Effect (fun _ st => st) (fun p => readsAny p l) s (scanExprs l s)
  | [], s => .refl s
  | e :: rest, s =>
    ((effect_scanExpr e s).trans (effect_scanExprs rest _)).congr (fun _ _ => rfl) fun _ => rfl

theorem effect_scanDesignator : ∀ (d : Designator) (s : Pass),
    Effect (fun _ st => st) (fun p => d.reads p) s (scanDesignator d s)
  | .mk [name] selectors span, s =>
    ((effect_touch s name selectors.isEmpty span).trans (effect_scanSelectors selectors _)).congr (fun _ _ => rfl)
      fun p => by simp [Designator.reads]
  | .mk [] selectors _, s | .mk (_ :: _ :: _) selectors _, s =>
    (effect_scanSelectors selectors s).congr (fun _ _ => rfl) fun p => by simp [Designator.reads]

theorem effect_scanSelectors : ∀ (l : List Selector) (s : Pass),
    Effect (fun _ st => st) (fun p => selectorsRead p l) s (scanSelectors l s)
  | [], s => .refl s
  | .index indices :: rest, s =>
    ((effect_scanExprs indices s).trans (effect_scanSelectors rest _)).congr (fun _ _ => rfl) fun _ => rfl
  | .field _ :: rest, s | .deref :: rest, s | .typeGuard _ :: rest, s => effect_scanSelectors rest s

end

theorem effect_setSt (s : Pass) (p : String) {st : St} (hst : st ≠ .alloc) :
    Effect (fun q old => if p = q then some st else old) (fun _ => false) s (s.setSt p st) where
  st q := by
    by_cases hp : p = q
    · simp [Pass.setSt, hp]
    · simp [Pass.setSt, hp, Ne.symm hp]
  escaped q := (Bool.or_false _).symm
  placed hplaced q hq := by
    refine hplaced q ?_
    by_cases hp : q = p
    · simp [Pass.setSt, hp, hst] at hq
    · simpa [Pass.setSt, hp] using hq
  leaks _ _ := id

theorem effect_new (s : Pass) (p : String) (span : Span) :
    Effect (fun q old => if p = q then some .alloc else old) (fun _ => false) s (s.new p span) := by
  have hwarn := effect_warn s (s.vars.st p = some .alloc) (w := .again p span) (by simp)
  have halloc (t : Pass) : Effect (fun q old => if p = q then some .alloc else old) (fun _ => false) t
      { vars := { (t.setSt p .alloc).vars with newSpan := Function.update t.vars.newSpan p (some span) }
        diags := t.diags } := by
    refine ⟨fun q => ?_, fun _ => (Bool.or_false _).symm, fun hplaced q hq => ?_, fun _ _ => id⟩
    · by_cases hp : p = q
      · simp [Pass.setSt, hp]
      · simp [Pass.setSt, hp, Ne.symm hp]
    · by_cases hp : q = p
      · simp [hp]
      · have hst := hplaced q (by simpa [Pass.setSt, hp] using hq)
        simpa [hp] using hst
  exact (hwarn.trans (halloc _)).congr (fun _ _ => rfl) fun _ => rfl

theorem effect_dispose (s : Pass) (p : String) (span : Span) :
    Effect (fun q old => if p = q then some .disposed else old) (fun _ => false) s (s.dispose p span) := by
  have hwarn := effect_warn s (s.vars.st p = some .disposed) (w := .doubleDispose p span) (by simp)
  exact (hwarn.trans (effect_setSt _ p (by simp))).congr (fun _ _ => rfl) fun _ => rfl

/-- A variable is read where the pass gets to. -/
def readIn (p : String) (l : List Occ) : Bool := l.any fun o => o.seen && o.part.reads p

@[simp] theorem readIn_nil (p : String) : readIn p [] = false := rfl

@[simp] theorem readIn_cons (p : String) (o : Occ) (l : List Occ) :
    readIn p (o :: l) = (o.seen && o.part.reads p || readIn p l) := rfl

@[simp] theorem readIn_append (p : String) (l l' : List Occ) : readIn p (l ++ l') = (readIn p l || readIn p l') :=
  List.any_append

theorem effect_scanCall (e : Expr) (own : String → Bool) (s : Pass) :
    Effect (fun p => (Stmt.call e).track p) (fun p => readIn p ((Stmt.call e).occs p true (own p))) s (scanCall e s) := by
  simp only [Stmt.track, Stmt.occs, readIn_cons, readIn_nil, Part.reads, Bool.true_and, Bool.or_false, scanCall]
  rcases heapCall e with - | ⟨p, span, rest⟩ | ⟨p, span, rest⟩
  · exact effect_scanExpr e s
  · exact ((effect_new s p span).trans (effect_scanExprs rest _)).congr (fun _ _ => rfl) fun _ => Bool.false_or _
  · exact ((effect_dispose s p span).trans (effect_scanExprs rest _)).congr (fun _ _ => rfl) fun _ => Bool.false_or _

theorem effect_scanAssign (target : Designator) (value : Expr) (own : String → Bool) (s : Pass) :
    Effect (fun p => (Stmt.assign target value).track p)
      (fun p => readIn p ((Stmt.assign target value).occs p true (own p))) s (scanAssign target value s) := by
  have hscan := (effect_scanExpr value s).trans (effect_scanDesignator target _)
  have hreads (p : String) : readIn p ((Stmt.assign target value).occs p true (own p)) =
      (value.reads p || target.reads p) := by
    simp [Stmt.occs, Part.reads]
  simp only [Stmt.track, scanAssign]
  rcases target.var? with - | ⟨p, span⟩
  · exact hscan.congr (fun _ _ => rfl) fun p => (hreads p).symm
  · refine (hscan.trans (effect_setSt _ p (by simp))).congr (fun q st => ?_) fun q => ?_
    · simp
    · rw [hreads, Bool.or_false]

theorem effect_scanBounds (start end_ : Expr) (step : Option Expr) (own : String → Bool) (s : Pass) :
    Effect (fun _ st => st) (fun p => readIn p (⟨true, own p, .expr start⟩ :: ⟨true, own p, .expr end_⟩ ::
      step.toList.map fun e => ⟨true, own p, .expr e⟩)) s (scanBounds start end_ step s) := by
  have hscan := (effect_scanExpr start s).trans (effect_scanExpr end_ _)
  rcases step with - | step
  · exact hscan.congr (fun _ _ => rfl) fun p => by simp [Part.reads]
  · exact (hscan.trans (effect_scanExpr step _)).congr (fun _ _ => rfl) fun p => by simp [Part.reads, Bool.or_assoc]

theorem readIn_map_unseen (p : String) (l : List Expr) (own : Bool) (part : Expr → Part) :
    readIn p (l.map fun e => ⟨false, own, part e⟩) = false := by
  induction l with
  | nil => rfl
  | cons e l ih => simpa using ih

mutual

theorem readIn_occs_unseen (p : String) : ∀ (stmt : Stmt) (own : Bool), readIn p (stmt.occs p false own) = false
  | .assign _ _, _ | .call _, _ | .empty, _ | .exit, _ | .retry, _ => by simp [Stmt.occs]
  | .if_ arms elseArm, own => by
    simp [Stmt.occs, readIn_armOccs_unseen p arms own, readIn_elseOccs_unseen p elseArm own]
  | .case_ _ arms elseArm, own | .guard _ arms elseArm, own => by
    simp [Stmt.occs, readIn_armOccs_unseen p arms own, readIn_elseOccs_unseen p elseArm own]
  | .while_ _ body, own | .repeat_ body _, own | .loop body, own => by
    simp [Stmt.occs, readIn_seqOccs_unseen p body own]
  | .for_ _ _ _ step body, own => by
    simp [Stmt.occs, readIn_map_unseen, readIn_seqOccs_unseen p body own]
  | .with_ _ _ body, own => by
    simp [Stmt.occs, readIn_seqOccs_unseen p body own]
  | .return_ e, _ | .raise e, _ => by simp [Stmt.occs, readIn_map_unseen]
  | .block b, own => by simp [Stmt.occs, readIn_blockOccs_unseen p b own]

theorem readIn_seqOccs_unseen (p : String) :
    ∀ (l : List Stmt) (own : Bool), readIn p (seqOccs p l false own) = false
  | [], _ => rfl
  | stmt :: rest, own => by
    simp [seqOccs, readIn_occs_unseen p stmt own, readIn_seqOccs_unseen p rest own]

theorem readIn_armOccs_unseen (p : String) :
    ∀ (l : List Arm) (own : Bool), readIn p (armOccs p l false own) = false
  | [], _ => rfl
  | .if_ _ body :: rest, own | .case_ body :: rest, own => by
    simp [armOccs, readIn_seqOccs_unseen p body own, readIn_armOccs_unseen p rest own]
  | .guard _ body :: rest, own => by
    simp [armOccs, readIn_seqOccs_unseen p body _, readIn_armOccs_unseen p rest own]

theorem readIn_elseOccs_unseen (p : String) :
    ∀ (o : Option (List Stmt)) (own : Bool), readIn p (elseOccs p o false own) = false
  | none, _ => rfl
  | some body, own => readIn_seqOccs_unseen p body own

theorem readIn_blockOccs_unseen (p : String) : ∀ (b : Block) (own : Bool), readIn p (b.occs p false own) = false
  | .mk stmts except finally_, own => by
    simp [Block.occs, readIn_seqOccs_unseen p stmts own, readIn_handlerOccs p except own,
      readIn_elseOccs_unseen p finally_ own]

theorem readIn_handlerOccs (p : String) :
    ∀ (l : List (List Stmt)) (own : Bool), readIn p (handlerOccs p l own) = false
  | [], _ => rfl
  | body :: rest, own => by
    simp [handlerOccs, readIn_seqOccs_unseen p body own, readIn_handlerOccs p rest own]

end

mutual

theorem effect_scanStmt : ∀ (stmt : Stmt) (own : String → Bool) (s : Pass),
    Effect (fun p => stmt.track p) (fun p => readIn p (stmt.occs p true (own p))) s (scanStmt stmt s)
  | .assign target value, own, s => effect_scanAssign target value own s
  | .call e, own, s => effect_scanCall e own s
  | .if_ arms elseArm, own, s =>
    (((branches_scanArms arms own _).trans (branches_scanElse elseArm own _)).join (s := s)).congr
      (fun _ _ => rfl) fun p => by simp [Stmt.occs]
  | .case_ e arms elseArm, own, s | .guard e arms elseArm, own, s =>
    ((effect_scanExpr e s).trans
      ((branches_scanArms arms own _).trans (branches_scanElse elseArm own _)).join).congr
      (fun _ _ => rfl) fun p => by simp [Stmt.occs, Part.reads]
  | .while_ cond body, own, s =>
    ((effect_scanExpr cond s).trans (BranchEffect.branch (effect_scanStmts body own _)).join).congr
      (fun _ _ => rfl) fun p => by simp [Stmt.occs, Part.reads]
  | .repeat_ body cond, own, s =>
    ((BranchEffect.branch (b := (s, fun _ => false)) (effect_scanStmts body own s)).trans
      (.expr (effect_scanExpr cond _))).join.congr
      (fun _ _ => by simp [Stmt.track]) fun p => by simp [Stmt.occs, Part.reads, Bool.or_comm]
  | .for_ _ start end_ step body, own, s =>
    ((effect_scanBounds start end_ step own s).trans
      (BranchEffect.branch (effect_scanStmts body own _)).join).congr
      (fun _ _ => rfl) fun p => by simp [Stmt.occs, Bool.or_assoc]
  | .loop body, own, s =>
    (BranchEffect.branch (b := (s, fun _ => false)) (effect_scanStmts body own s)).join
  | .with_ d _ body, own, s =>
    ((effect_scanDesignator d s).trans
      (BranchEffect.branch (effect_scanStmts body own _)).join).congr
      (fun _ _ => rfl) fun p => by simp [Stmt.occs, Part.reads]
  | .return_ (some e), own, s | .raise (some e), own, s =>
    (effect_scanExpr e s).congr (fun _ _ => rfl) fun p => by simp [Stmt.occs, Part.reads]
  | .block (.mk stmts except finally_), own, s =>
    (effect_scanStmts stmts own s).congr (fun _ _ => rfl) fun p => by
      simp [Stmt.occs, Block.occs, readIn_handlerOccs, readIn_elseOccs_unseen]
  | .empty, _, s | .exit, _, s | .return_ none, _, s | .raise none, _, s | .retry, _, s => .refl s

theorem effect_scanStmts : ∀ (l : List Stmt) (own : String → Bool) (s : Pass),
    Effect (fun p => trackSeq p l) (fun p => readIn p (seqOccs p l true (own p))) s (scanStmts l s)
  | [], _, s => .refl s
  | stmt :: rest, own, s =>
    ((effect_scanStmt stmt own s).trans (effect_scanStmts rest own _)).congr (fun _ _ => rfl)
      fun p => by simp [seqOccs]

theorem branches_scanArms : ∀ (l : List Arm) (own : String → Bool) (b : Pass × Touched),
    BranchEffect (fun p => armsChange p l) (fun p => readIn p (armOccs p l true (own p))) b (scanArms l b)
  | [], _, b => .refl b
  | .if_ cond body :: rest, own, b =>
    ((BranchEffect.expr (effect_scanExpr cond b.1)).trans ((BranchEffect.branch (effect_scanStmts body own _)).trans
      (branches_scanArms rest own _))).congr (fun _ _ => by simp [armsChange])
        fun p => by simp [armOccs, Part.reads]
  | .case_ body :: rest, own, b =>
    ((BranchEffect.branch (effect_scanStmts body own _)).trans (branches_scanArms rest own _)).congr (fun _ _ => rfl)
      fun p => by simp [armOccs]
  | .guard denoter body :: rest, own, b =>
    ((BranchEffect.branch (effect_scanStmts body (fun p => own p && denoter != some p) _)).trans
      (branches_scanArms rest own _)).congr (fun _ _ => rfl) fun p => by simp [armOccs]

theorem branches_scanElse : ∀ (o : Option (List Stmt)) (own : String → Bool) (b : Pass × Touched),
    BranchEffect (fun p => elseChanges p o) (fun p => readIn p (elseOccs p o true (own p))) b (scanElse o b)
  | none, _, b => .refl b
  | some body, own, _ => .branch (effect_scanStmts body own _)

end

end effects

/-! ## The leaks that are reported -/

mutual

theorem readIn_occs_decl (p : String) : ∀ d : Decl, readIn p (d.occs p) = false
  | .procedure q => readIn_occs_procDecl p q
  | .localModule _ imports decls body => by
    rcases body with - | b <;> simp only [Decl.occs] <;> split_ifs <;>
      simp [readIn_declOccs p decls, readIn_blockOccs_unseen]
  | .class_ _ members methods => by
    simp only [Decl.occs]
    split_ifs
    · rfl
    · exact readIn_procOccs p methods
  | .var _ | .other _ => by simp [Decl.occs]

theorem readIn_declOccs (p : String) : ∀ l : List Decl, readIn p (declOccs p l) = false
  | [] => rfl
  | d :: rest => by simp [declOccs, readIn_occs_decl p d, readIn_declOccs p rest]

theorem readIn_procOccs (p : String) : ∀ l : List ProcDecl, readIn p (procOccs p l) = false
  | [] => rfl
  | q :: rest => by simp [procOccs, readIn_occs_procDecl p q, readIn_procOccs p rest]

theorem readIn_occs_procDecl (p : String) : ∀ q : ProcDecl, readIn p (q.occs p) = false
  | .mk _ params (some (.mk decls body)) => by
    simp only [ProcDecl.occs]
    split_ifs
    · rfl
    · simp [readIn_declOccs p decls, readIn_blockOccs_unseen]
  | .mk _ _ none => by simp [ProcDecl.occs]

end

mutual

theorem scanDecls_eq : ∀ l : List Decl, scanDecls l = (procs l).flatMap Proc.warnings
  | [] => rfl
  | .procedure q :: rest => by
    rw [scanDecls, procs, List.flatMap_append, scanProc_eq q, scanDecls_eq rest]
  | .var _ :: rest | .localModule _ _ _ _ :: rest | .class_ _ _ _ :: rest | .other _ :: rest => scanDecls_eq rest

theorem scanProc_eq : ∀ q : ProcDecl, scanProc q = (procsOf q).flatMap Proc.warnings
  | .mk _ params (some (.mk decls body)) => by
    rw [scanProc, procsOf, List.flatMap_cons, scanDecls_eq decls]
  | .mk _ _ none => rfl

end

namespace Proc
variable (f : Proc) {p : String} {span : Span}

/-- The variable is read where the pass gets to. -/
def Reads (f : Proc) (p : String) : Prop := ∃ o ∈ f.occs p, o.seen ∧ o.part.reads p

theorem reads_iff : f.Reads p ↔ readIn p (seqOccs p f.body.stmts true true) := by
  have hdecls := readIn_declOccs p f.decls
  have hocc : f.Reads p ↔ readIn p (f.occs p) := by simp [Reads, readIn]
  rw [hocc, occs, readIn_append, hdecls, Bool.or_false]
  rcases f.body with ⟨stmts, except, finally_⟩
  simp [Block.occs, Block.stmts, readIn_handlerOccs, readIn_elseOccs_unseen]

/-- `NAME(arg)` -/
def callOf (name arg : String) (nameSpan argSpan : Span) : Expr :=
  .call (.designator (.mk [name] [] nameSpan)) [.designator (.mk [arg] [] argSpan)]

end Proc

end NewM2.HeapCheck
