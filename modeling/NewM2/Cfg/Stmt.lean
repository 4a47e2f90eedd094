import Mathlib.Data.List.Pairwise
import NewM2.Lib.Behaviour

/-! # Statements (`newm2-parser/src/ast.rs`) and their structured meaning

Simple statements, conditions and selectors are numbers. What a condition or a selector yields is up to
an oracle that sees everything that happened before, so any order of outcomes is covered. A number of
turns bounds every loop.

`exec` leaves two things open: what becomes of an EXIT that meets a WHILE, REPEAT or FOR on its way, or
that no loop surrounds, and whether CASE knows the labels that `case_label_int` does not fold. In Modula-2
(`structured`) the EXIT goes on to the next LOOP, and CASE knows all its labels. -/

namespace NewM2.Cfg

inductive CaseLabel
  | single (n : Int)
  | range (lo hi : Int)
  /-- A label from `lo` to `hi` that `case_label_int` does not fold: TRUE, a call, DIV, MOD or the
  like in one of its bounds. -/
  | unfolded (lo hi : Int)
deriving Repr, DecidableEq

inductive Stmt
  | empty
  | simple (a : Nat)
  | if_ (arms : List (Nat × List Stmt)) (elseArm : Option (List Stmt))
  | case_ (scrutinee : Nat) (arms : List (List CaseLabel × List Stmt)) (elseArm : Option (List Stmt))
  | while_ (cond : Nat) (body : List Stmt)
  | repeat_ (body : List Stmt) (cond : Nat)
  /-- The start, end and step of the control variable; the tests before the body and before the
  advance; the advance. -/
  | for_ (init cond fits advance : Nat) (body : List Stmt)
  | loop (body : List Stmt)
  | with_ (d : Nat) (body : List Stmt)
  | exit
  | return_ (e : Option Nat)
  | block (stmts : List Stmt) (finally_ : Option (List Stmt))

inductive Event
  | simple (a : Nat)
  | eval (e : Nat) (v : Int)
deriving Repr, DecidableEq

/-- What the conditions and selectors yield, given what happened before. A condition holds unless it
yields 0. -/
abbrev Oracle := Nat → List Event → Int

inductive Outcome
  | normal | exit | return_ | raise
  /-- A loop has used up its turns. -/
  | outOfFuel
  /-- An EXIT met a loop that is not a LOOP, or none; or CASE met a label that is not folded. -/
  | stray
deriving Repr, DecidableEq

namespace CaseLabel

def lo : CaseLabel → Int
  | single n => n
  | range lo _ | unfolded lo _ => lo

def hi : CaseLabel → Int
  | single n => n
  | range _ hi | unfolded _ hi => hi

def Matches (v : Int) (l : CaseLabel) : Prop := l.lo ≤ v ∧ v ≤ l.hi

instance (v : Int) (l : CaseLabel) : Decidable (l.Matches v) := inferInstanceAs (Decidable (_ ∧ _))

def folded : CaseLabel → Bool
  | single _ | range _ _ => true
  | unfolded _ _ => false

end CaseLabel

/-! ## Meaning -/

/-- Take turns until one of them is the last. -/
def iterate (turn : List Event → List Event × Option Outcome) :
    Nat → List Event → List Event × Outcome
  | 0, h => (h, .outOfFuel)
  | n + 1, h =>
    match turn h with
    | (h, none) => iterate turn n h
    | (h, some out) => (h, out)

section exec
-- `esc` is what becomes of an EXIT that has no LOOP right around it: it goes on (`exit`), it ends the
-- loop as in the code (`normal`), or the run stops there (`stray`).
variable (esc : Outcome) (ω : Oracle) (fuel : Nat)

def eval (e : Nat) (h : List Event) : List Event × Int := (h ++ [.eval e (ω e h)], ω e h)

/-- The end of a loop body: `next` decides whether another turn follows. -/
def afterBody (onExit : Outcome) (next : List Event → List Event × Option Outcome) :
    List Event × Outcome → List Event × Option Outcome
  | (h, .normal) => next h
  | (h, .exit) => (h, some onExit)
  | (h, out) => (h, some out)

/-- Evaluate `cond`, and go on with `next` or leave the loop. -/
def testThen (cond : Nat) (next : List Event → List Event × Option Outcome) (h : List Event) :
    List Event × Option Outcome :=
  match eval ω cond h with
  | (h, v) => if v = 0 then (h, some .normal) else next h

mutual
/-- `inLoop` says whether a loop surrounds the statement. -/
def exec : Stmt → Bool → List Event → List Event × Outcome
  | .empty, _, h => (h, .normal)
  | .simple a, _, h => (h ++ [.simple a], .normal)
  | .if_ arms els, l, h => execArms arms (execElse els .normal l) l h
  | .case_ e arms els, l, h =>
    match eval ω e h with
    | (h, v) => execCase arms v (execElse els .raise l) l h
  | .while_ c body, _, h =>
    iterate (testThen ω c fun h => afterBody esc (·, none) (execStmts body true h)) fuel h
  | .repeat_ body c, _, h =>
    iterate (fun h => afterBody esc
      (fun h => match eval ω c h with
        | (h, v) => (h, if v = 0 then none else some .normal))
      (execStmts body true h)) fuel h
  | .for_ init c fits advance body, _, h =>
    iterate (testThen ω c fun h => afterBody esc
      (testThen ω fits fun h => (h ++ [.simple advance], none)) (execStmts body true h))
      fuel (h ++ [.simple init])
  | .loop body, _, h =>
    iterate (fun h => afterBody .normal (·, none) (execStmts body true h)) fuel h
  | .with_ d body, l, h => execStmts body l (h ++ [.simple d])
  | .exit, l, h => (h, if l then .exit else esc)
  | .return_ (some e), _, h => (h ++ [.simple e], .return_)
  | .return_ none, _, h => (h, .return_)
  | .block ss fin, l, h =>
    match execStmts ss l h with
    | (h, .normal) => execElse fin .normal l h
    | r => r
def execArms : List (Nat × List Stmt) → (List Event → List Event × Outcome) → Bool →
    List Event → List Event × Outcome
  | [], els, _, h => els h
  | (c, body) :: rest, els, l, h =>
    match eval ω c h with
    | (h, v) => if v = 0 then execArms rest els l h else execStmts body l h
def execCase : List (List CaseLabel × List Stmt) → Int → (List Event → List Event × Outcome) → Bool →
    List Event → List Event × Outcome
  | [], _, els, _, h => els h
  | (labels, body) :: rest, v, els, l, h =>
    if ∃ lab ∈ labels, lab.folded ∧ lab.Matches v then execStmts body l h
    else if (∃ lab ∈ labels, lab.Matches v) ∧ esc ≠ .normal then
      -- only labels that are not folded have the value: the code goes on with the other arms
      if esc = .exit then execStmts body l h else (h, .stray)
    else execCase rest v els l h
/-- The statements if there are some, otherwise `out`. -/
def execElse : Option (List Stmt) → Outcome → Bool → List Event → List Event × Outcome
  | none, out, _, h => (h, out)
  | some ss, _, l, h => execStmts ss l h
def execStmts : List Stmt → Bool → List Event → List Event × Outcome
  | [], _, h => (h, .normal)
  | s :: ss, l, h =>
    match exec s l h with
    | (h, .normal) => execStmts ss l h
    | r => r
end

end exec

/-! ## Procedures -/

inductive Ending
  | returned | raised
  /-- The end of a function procedure was reached. -/
  | trapped
deriving Repr, DecidableEq

/-- What is seen of a procedure body; `atEnd` is how it ends when it is executed to its end. -/
def observe (atEnd : Ending) : List Event × Outcome → List Event × Option Ending
  | (h, .outOfFuel) => (h, none)
  | (h, .raise) => (h, some .raised)
  | (h, .return_) => (h, some .returned)
  | (h, _) => (h, some atEnd)

/-- A procedure body in Modula-2: EXIT leaves the nearest enclosing LOOP. -/
def structured (ω : Oracle) (atEnd : Ending) (body : Stmt) : Obs Event Ending := fun fuel =>
  observe atEnd (exec .exit ω fuel body false [])

/-- No EXIT that is executed has a WHILE, REPEAT or FOR as its nearest enclosing loop, or none, and no CASE
that is executed selects an arm by a label that is not folded. -/
def NoStray (ω : Oracle) (body : Stmt) : Prop :=
  ∀ fuel, (exec .stray ω fuel body false []).2 ≠ .stray

/-! ## What sema accepts -/

/-- The test of sema for overlapping labels. -/
def CaseLabel.Overlaps (a b : CaseLabel) : Prop := a.lo ≤ b.hi ∧ b.lo ≤ a.hi

instance : DecidableRel CaseLabel.Overlaps := fun _ _ => inferInstanceAs (Decidable (_ ∧ _))

mutual
/-- No CASE has overlapping labels among those that are folded. -/
def Stmt.Accepted : Stmt → Prop
  | .empty | .simple _ | .exit | .return_ _ => True
  | .if_ arms els => acceptedArms arms ∧ acceptedElse els
  | .case_ _ arms els =>
    ((arms.flatMap Prod.fst).filter CaseLabel.folded).Pairwise (¬ CaseLabel.Overlaps · ·) ∧ acceptedCase arms ∧ acceptedElse els
  | .while_ _ body | .repeat_ body _ | .for_ _ _ _ _ body | .loop body | .with_ _ body =>
    acceptedStmts body
  | .block ss fin => acceptedStmts ss ∧ acceptedElse fin
def acceptedArms : List (Nat × List Stmt) → Prop
  | [] => True
  | (_, body) :: rest => acceptedStmts body ∧ acceptedArms rest
def acceptedCase : List (List CaseLabel × List Stmt) → Prop
  | [] => True
  | (_, body) :: rest => acceptedStmts body ∧ acceptedCase rest
def acceptedElse : Option (List Stmt) → Prop
  | none => True
  | some ss => acceptedStmts ss
def acceptedStmts : List Stmt → Prop
  | [] => True
  | s :: ss => s.Accepted ∧ acceptedStmts ss
end

/-! ## Runs without a stray EXIT -/

section stray
variable {esc out : Outcome} {ω : Oracle} {fuel n : Nat} {l : Bool} {h : List Event}

theorem iterate_congr {turn turn' : List Event → List Event × Option Outcome}
    (hturn : ∀ h, (turn h).2 ≠ some .stray → turn' h = turn h)
    (hne : (iterate turn n h).2 ≠ .stray) : iterate turn' n h = iterate turn n h := by
  induction n generalizing h with
  | zero => rfl
  | succ n ih =>
    unfold iterate at hne ⊢
    rcases ht : turn h with ⟨h', _ | out⟩
    · rw [ht] at hne
      rw [hturn h (by rw [ht]; exact nofun), ht]
      exact ih hne
    · rw [ht] at hne
      rw [hturn h (by rw [ht]; exact fun heq => hne (Option.some.inj heq)), ht]

theorem testThen_congr {cond : Nat} {next next' : List Event → List Event × Option Outcome}
    (hnext : ∀ h, (next h).2 ≠ some .stray → next' h = next h)
    (hne : (testThen ω cond next h).2 ≠ some .stray) :
    testThen ω cond next' h = testThen ω cond next h := by
  unfold testThen at hne ⊢
  dsimp only at hne ⊢
  split
  · rfl
  · next hv =>
    rw [if_neg hv] at hne
    exact hnext _ hne

theorem afterBody_congr {next next' : List Event → List Event × Option Outcome}
    {r r' : List Event × Outcome} (hbody : r.2 ≠ .stray → r' = r)
    (hnext : ∀ h, (next h).2 ≠ some .stray → next' h = next h)
    (hne : (afterBody .stray next r).2 ≠ some .stray) :
    afterBody esc next' r' = afterBody .stray next r := by
  obtain ⟨h, out⟩ := r
  cases out with
  | stray => exact absurd rfl hne
  | exit => exact absurd rfl hne
  | normal =>
    rw [hbody nofun]
    exact hnext h hne
  | return_ | raise | outOfFuel =>
    rw [hbody nofun]
    rfl

/-- A LOOP catches every EXIT. -/
theorem afterBody_loop_congr {next : List Event → List Event × Option Outcome}
    {r r' : List Event × Outcome} (hbody : r.2 ≠ .stray → r' = r)
    (hne : (afterBody .normal next r).2 ≠ some .stray) :
    afterBody .normal next r' = afterBody .normal next r := by
  rw [hbody]
  intro heq
  obtain ⟨h, out⟩ := r
  cases heq
  exact hne rfl

mutual
/-- Without a stray EXIT it does not matter where a stray EXIT leads. -/
theorem exec_of_not_stray : ∀ (s : Stmt) (l : Bool) (h : List Event),
    (exec .stray ω fuel s l h).2 ≠ .stray → exec esc ω fuel s l h = exec .stray ω fuel s l h
  | .empty, _, _, _ | .simple _, _, _, _ | .return_ none, _, _, _ | .return_ (some _), _, _, _ => rfl
  | .if_ arms els, l, h, hne => by
    unfold exec at hne ⊢
    exact execArms_of_not_stray arms l h (fun h => execElse_of_not_stray els .normal l h) hne
  | .case_ e arms els, l, h, hne => by
    unfold exec at hne ⊢
    exact execCase_of_not_stray arms l _ (fun h => execElse_of_not_stray els .raise l h) hne
  | .while_ c body, _, h, hne => by
    unfold exec at hne ⊢
    exact iterate_congr (fun h => testThen_congr fun h => afterBody_congr
      (execStmts_of_not_stray body true h) fun _ _ => rfl) hne
  | .repeat_ body c, _, h, hne => by
    unfold exec at hne ⊢
    exact iterate_congr (fun h => afterBody_congr
      (execStmts_of_not_stray body true h) fun _ _ => rfl) hne
  | .for_ init c fits advance body, _, h, hne => by
    unfold exec at hne ⊢
    exact iterate_congr (fun h => testThen_congr fun h => afterBody_congr
      (execStmts_of_not_stray body true h) fun _ _ => rfl) hne
  | .loop body, _, h, hne => by
    unfold exec at hne ⊢
    exact iterate_congr (fun h => afterBody_loop_congr (execStmts_of_not_stray body true h)) hne
  | .with_ d body, l, h, hne => execStmts_of_not_stray body l _ hne
  | .exit, true, _, _ => rfl
  | .exit, false, _, hne => absurd rfl hne
  | .block ss fin, l, h, hne => by
    unfold exec at hne ⊢
    rcases hr : execStmts .stray ω fuel ss l h with ⟨h', out⟩
    rw [hr] at hne
    have hss : _ → execStmts esc ω fuel ss l h = _ := execStmts_of_not_stray ss l h
    rw [hr] at hss
    cases out with
    | normal =>
      rw [hss nofun]
      exact execElse_of_not_stray fin .normal l h' hne
    | stray => exact absurd rfl hne
    | exit | return_ | raise | outOfFuel => rw [hss nofun]
theorem execArms_of_not_stray {els els' : List Event → List Event × Outcome} :
    ∀ (arms : List (Nat × List Stmt)) (l : Bool) (h : List Event),
    (∀ h, (els h).2 ≠ .stray → els' h = els h) →
    (execArms .stray ω fuel arms els l h).2 ≠ .stray →
    execArms esc ω fuel arms els' l h = execArms .stray ω fuel arms els l h
  | [], _, h, hels, hne => hels h hne
  | (c, body) :: rest, l, h, hels, hne => by
    unfold execArms at hne ⊢
    dsimp only at hne ⊢
    split
    · next hv =>
      rw [if_pos hv] at hne
      exact execArms_of_not_stray rest l _ hels hne
    · next hv =>
      rw [if_neg hv] at hne
      exact execStmts_of_not_stray body l _ hne
theorem execCase_of_not_stray {els els' : List Event → List Event × Outcome} {v : Int} :
    ∀ (arms : List (List CaseLabel × List Stmt)) (l : Bool) (h : List Event),
    (∀ h, (els h).2 ≠ .stray → els' h = els h) →
    (execCase .stray ω fuel arms v els l h).2 ≠ .stray →
    execCase esc ω fuel arms v els' l h = execCase .stray ω fuel arms v els l h
  | [], _, h, hels, hne => hels h hne
  | (labels, body) :: rest, l, h, hels, hne => by
    unfold execCase at hne ⊢
    split
    · next hv =>
      rw [if_pos hv] at hne
      exact execStmts_of_not_stray body l h hne
    · next hv =>
      rw [if_neg hv] at hne
      by_cases hm : ∃ lab ∈ labels, lab.Matches v
      · rw [if_pos ⟨hm, nofun⟩, if_neg nofun] at hne
        exact absurd rfl hne
      · rw [if_neg fun h => hm h.1] at hne ⊢
        rw [if_neg fun h => hm h.1]
        exact execCase_of_not_stray rest l h hels hne
theorem execElse_of_not_stray : ∀ (els : Option (List Stmt)) (out : Outcome) (l : Bool)
    (h : List Event), (execElse .stray ω fuel els out l h).2 ≠ .stray →
    execElse esc ω fuel els out l h = execElse .stray ω fuel els out l h
  | none, _, _, _, _ => rfl
  | some ss, _, l, h, hne => execStmts_of_not_stray ss l h hne
theorem execStmts_of_not_stray : ∀ (ss : List Stmt) (l : Bool) (h : List Event),
    (execStmts .stray ω fuel ss l h).2 ≠ .stray →
    execStmts esc ω fuel ss l h = execStmts .stray ω fuel ss l h
  | [], _, _, _ => rfl
  | s :: ss, l, h, hne => by
    unfold execStmts at hne ⊢
    rcases hr : exec .stray ω fuel s l h with ⟨h', out⟩
    rw [hr] at hne
    have hs : _ → exec esc ω fuel s l h = _ := exec_of_not_stray s l h
    rw [hr] at hs
    cases out with
    | normal =>
      rw [hs nofun]
      exact execStmts_of_not_stray ss l h' hne
    | stray => exact absurd rfl hne
    | exit | return_ | raise | outOfFuel => rw [hs nofun]
end

end stray

end NewM2.Cfg
