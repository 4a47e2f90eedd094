import Mathlib
import NewM2.Lexer.Condition
import NewM2.Lexer.Pieces

/-!
# Conditional compilation as a forest of chains

`Forest` is a text as chains of branches with pieces of text between them, and `Forest.keep` what the
chains select: of a chain the first branch whose condition holds, or the one behind `%ELSE`, in an
environment which the pragmas in kept text extend. The pass computes this with a stack of flags
(`Forest.run`), and every text that it accepts is a forest (`closes_of_run`). A chain of this forest may
have branches behind its `%ELSE`: the pass accepts them and never takes one.
-/

namespace NewM2.Lexer
open Preproc

/-! ## Conditions in a text -/

/-- The operator of a keyword. -/
def operator (kw : Bytes) : Option Bytes :=
  if kw = ascii "AND" then some (ascii " && ")
  else if kw = ascii "OR" then some (ascii " || ")
  else if kw = ascii "NOT" then some (ascii " ! ")
  else none

/-- No letter follows. -/
def NoLetter (rest : Bytes) : Prop := ∀ c ∈ rest.head?, ¬ isAsciiAlphabetic c

/-- The text of a condition, with the operators for their keywords and `spell c` for any other byte. -/
inductive Translates (spell : UInt8 → Bytes) : Bytes → Bytes → Prop
  | nil : Translates spell [] []
  | byte {c : UInt8} {text buf : Bytes} (hc : c ≠ percent) :
      Translates spell text buf → Translates spell (c :: text) (spell c ++ buf)
  | operator {kw op text buf : Bytes} (hop : operator kw = some op) (hend : NoLetter text) :
      Translates spell text buf → Translates spell (percent :: (kw ++ text)) (op ++ buf)

/-- `cond` says `c`. -/
def Says (spell : UInt8 → Bytes) (cond : Bytes) (c : Cond) : Prop :=
  ∃ buf, Translates spell cond buf ∧ IsCondition buf c

/-! ## Forests -/

mutual
/-- A text of pieces and chains. -/
inductive Forest
  | nil
  | text (bytes : Bytes) (pragmas : List Bytes) (rest : Forest)
  | chain (cond : Bytes) (c : Cond) (body : Forest) (tail : Branches) (rest : Forest)
/-- The branches of a chain behind its first. -/
inductive Branches
  | end_
  | else_ (body : Forest) (tail : Branches)
  | elsif (cond : Bytes) (c : Cond) (body : Forest) (tail : Branches)
end

def ifBytes (cond : Bytes) : Bytes := percent :: (ascii "IF" ++ (cond ++ percent :: ascii "THEN"))
def elsifBytes (cond : Bytes) : Bytes := percent :: (ascii "ELSIF" ++ (cond ++ percent :: ascii "THEN"))
def elseBytes : Bytes := percent :: ascii "ELSE"
def endBytes : Bytes := percent :: ascii "END"

mutual
def Forest.bytes : Forest → Bytes
  | .nil => []
  | .text bytes _ rest => bytes ++ rest.bytes
  | .chain cond _ body tail rest => ifBytes cond ++ (body.bytes ++ (tail.bytes ++ rest.bytes))
def Branches.bytes : Branches → Bytes
  | .end_ => endBytes
  | .else_ body tail => elseBytes ++ (body.bytes ++ tail.bytes)
  | .elsif cond _ body tail => elsifBytes cond ++ (body.bytes ++ tail.bytes)
end

mutual
/-- The environment behind the text and what is kept of it, in an active place or not. -/
def Forest.keep : Forest → Env → Bool → Env × Bytes
  | .nil, env, _ => (env, [])
  | .text bytes pragmas rest, env, active =>
    let r := rest.keep (if active then env.applyPragmas pragmas else env) active
    (r.1, (if active then bytes else bytes.map blank) ++ r.2)
  | .chain cond c body tail rest, env, active =>
    let selected := c.eval env
    let r₁ := body.keep env (active && selected)
    let r₂ := tail.keep r₁.1 active selected
    let r₃ := rest.keep r₂.1 active
    (r₃.1, (ifBytes cond).map blank ++ (r₁.2 ++ (r₂.2 ++ r₃.2)))
/-- `earlier` says whether the chain has selected a branch before these. -/
def Branches.keep : Branches → Env → Bool → Bool → Env × Bytes
  | .end_, env, _, _ => (env, endBytes.map blank)
  | .else_ body tail, env, active, earlier =>
    let r₁ := body.keep env (active && !earlier)
    let r₂ := tail.keep r₁.1 active true
    (r₂.1, elseBytes.map blank ++ (r₁.2 ++ r₂.2))
  | .elsif cond c body tail, env, active, earlier =>
    let selected := !earlier && c.eval env
    let r₁ := body.keep env (active && selected)
    let r₂ := tail.keep r₁.1 active (earlier || selected)
    (r₂.1, (elsifBytes cond).map blank ++ (r₁.2 ++ r₂.2))
end

mutual
/-- The pieces and directives of the forest are those of its text before `after`, with conditions that
are `ok`. -/
def Forest.Fits (ok : Bytes → Cond → Prop) : Forest → Bytes → Prop
  | .nil, _ => True
  | .text bytes pragmas rest, after => Piece (rest.bytes ++ after) bytes pragmas ∧ rest.Fits ok after
  | .chain cond c body tail rest, after =>
    ok cond c ∧ NoLetter cond ∧ NoLetter (body.bytes ++ (tail.bytes ++ (rest.bytes ++ after))) ∧
      body.Fits ok (tail.bytes ++ (rest.bytes ++ after)) ∧ tail.Fits ok (rest.bytes ++ after) ∧
      rest.Fits ok after
def Branches.Fits (ok : Bytes → Cond → Prop) : Branches → Bytes → Prop
  | .end_, after => NoLetter after
  | .else_ body tail, after =>
    NoLetter (body.bytes ++ (tail.bytes ++ after)) ∧ body.Fits ok (tail.bytes ++ after) ∧ tail.Fits ok after
  | .elsif cond c body tail, after =>
    ok cond c ∧ NoLetter cond ∧ NoLetter (body.bytes ++ (tail.bytes ++ after)) ∧
      body.Fits ok (tail.bytes ++ after) ∧ tail.Fits ok after
end

mutual
/-- No chain has a branch behind its `%ELSE`. -/
def Forest.Strict : Forest → Prop
  | .nil => True
  | .text _ _ rest => rest.Strict
  | .chain _ _ body tail rest => body.Strict ∧ tail.Strict ∧ rest.Strict
def Branches.Strict : Branches → Prop
  | .end_ => True
  | .else_ body tail => body.Strict ∧ tail = .end_
  | .elsif _ _ body tail => body.Strict ∧ tail.Strict
end

mutual
/-- The conditions of a forest. -/
def Forest.conds : Forest → List Bytes
  | .nil => []
  | .text _ _ rest => rest.conds
  | .chain cond _ body tail rest => cond :: (body.conds ++ (tail.conds ++ rest.conds))
def Branches.conds : Branches → List Bytes
  | .end_ => []
  | .else_ body tail => body.conds ++ tail.conds
  | .elsif cond _ body tail => cond :: (body.conds ++ tail.conds)
end

/-! ## Directives -/

theorem takeWhile_letters {kw rest : Bytes} (hkw : kw.all isAsciiAlphabetic) (hrest : NoLetter rest) :
    (kw ++ rest).takeWhile isAsciiAlphabetic = kw := by
  rw [List.takeWhile_append_of_pos (List.all_eq_true.1 hkw)]
  rcases rest with - | ⟨c, rest⟩
  · simp
  · rw [List.takeWhile_cons_of_neg (hrest c rfl), List.append_nil]

theorem noLetter_nil : NoLetter [] := by
  intro c hc
  cases hc

theorem noLetter_cons {c : UInt8} (hc : ¬ isAsciiAlphabetic c) (rest : Bytes) : NoLetter (c :: rest) := by
  intro d hd
  obtain rfl := Option.some.inj hd
  exact hc

theorem noLetter_percent (rest : Bytes) : NoLetter (percent :: rest) := noLetter_cons (by decide) rest

theorem NoLetter.append {text : Bytes} (h : NoLetter text) (rest : Bytes) :
    NoLetter (text ++ percent :: rest) := by
  rcases text with - | ⟨c, text⟩
  · exact noLetter_percent rest
  · exact h

theorem noLetter_dropWhile (cs : Bytes) : NoLetter (cs.dropWhile isAsciiAlphabetic) := by
  intro c hc
  rcases hd : cs.dropWhile isAsciiAlphabetic with - | ⟨d, ds⟩
  · rw [hd] at hc
    cases hc
  · have hp := List.head_dropWhile_not isAsciiAlphabetic (l := cs) (by simp [hd])
    rw [hd] at hc
    obtain rfl : d = c := Option.some.inj hc
    simpa [hd] using hp

theorem operator_cases {kw op : Bytes} (h : operator kw = some op) :
    kw = ascii "AND" ∧ op = ascii " && " ∨ kw = ascii "OR" ∧ op = ascii " || " ∨
      kw = ascii "NOT" ∧ op = ascii " ! " := by
  unfold operator at h
  split_ifs at h with hand hor hnot
  · exact .inl ⟨hand, (Option.some.inj h).symm⟩
  · exact .inr (.inl ⟨hor, (Option.some.inj h).symm⟩)
  · exact .inr (.inr ⟨hnot, (Option.some.inj h).symm⟩)

theorem readExprThen_drop (skip : Nat) (buf : Bytes) (p : Preproc) (src : Bytes) :
    readExprThen skip buf p src = readExprThen 0 buf p (src.drop skip) := by
  induction src generalizing skip with
  | nil => rw [List.drop_nil, readExprThen, readExprThen]
  | cons c cs ih =>
    rcases skip with - | skip
    · rfl
    · rw [readExprThen, ih, List.drop_succ_cons]

theorem eraseBytes_append (p : Preproc) (a b : Bytes) : (p.eraseBytes a).eraseBytes b = p.eraseBytes (a ++ b) := by
  simp only [eraseBytes, List.map_append, List.append_assoc]

theorem eraseBytes_env (p : Preproc) (a : Bytes) : (p.eraseBytes a).env = p.env := rfl

/-- An operator is put for its keyword. -/
theorem readExprThen_operator (buf : Bytes) (p : Preproc) {kw op rest : Bytes} (hop : operator kw = some op)
    (hrest : NoLetter rest) :
    readExprThen 0 buf p (percent :: (kw ++ rest)) =
      readExprThen 0 (buf ++ op) (p.eraseBytes (percent :: kw)) rest := by
  have hkw : kw.all isAsciiAlphabetic := by
    rcases operator_cases hop with ⟨rfl, -⟩ | ⟨rfl, -⟩ | ⟨rfl, -⟩ <;> decide
  rw [readExprThen]
  simp only [if_true, takeWhile_letters hkw hrest]
  rcases operator_cases hop with ⟨rfl, rfl⟩ | ⟨rfl, rfl⟩ | ⟨rfl, rfl⟩
  · rw [if_neg (by decide), if_pos rfl, readExprThen_drop, List.drop_left]
  · rw [if_neg (by decide), if_neg (by decide), if_pos rfl, readExprThen_drop, List.drop_left]
  · rw [if_neg (by decide), if_neg (by decide), if_neg (by decide), if_pos rfl, readExprThen_drop,
      List.drop_left]

theorem readExprThen_then (buf : Bytes) (p : Preproc) {rest : Bytes} (hrest : NoLetter rest) :
    readExprThen 0 buf p (percent :: (ascii "THEN" ++ rest)) =
      (evalExpr p.env buf).map fun v => (v, p.eraseBytes (percent :: ascii "THEN"), rest) := by
  rw [readExprThen]
  simp only [if_true, takeWhile_letters (show (ascii "THEN").all isAsciiAlphabetic by decide) hrest,
    List.drop_left, eraseBytes_env]
  cases evalExpr p.env buf <;> rfl

/-- A condition is read up to its `%THEN`. -/
theorem Translates.readExprThen {text buf : Bytes} (h : Translates latin1 text buf) (acc : Bytes) (p : Preproc)
    {rest : Bytes} (hrest : NoLetter rest) :
    readExprThen 0 acc p (text ++ percent :: (ascii "THEN" ++ rest)) =
      (evalExpr p.env (acc ++ buf)).map fun v => (v, p.eraseBytes (text ++ percent :: ascii "THEN"), rest) := by
  induction h generalizing acc p with
  | nil =>
    rw [List.nil_append, List.append_nil, List.nil_append]
    exact readExprThen_then acc p hrest
  | @byte c text buf hc _ ih =>
    rw [List.cons_append, Preproc.readExprThen, if_neg hc, ih, eraseBytes_env, List.append_assoc,
      eraseBytes_append]
    rfl
  | @operator kw op text buf hop hend _ ih =>
    rw [List.cons_append, List.append_assoc, readExprThen_operator acc p hop (hend.append _), ih,
      eraseBytes_env, List.append_assoc, eraseBytes_append, List.cons_append, List.cons_append,
      List.append_assoc]

/-- What is read of a condition. -/
theorem exists_translates {skip : Nat} {acc src rest : Bytes} {p p' : Preproc} {v : Bool}
    (h : readExprThen skip acc p src = .ok (v, p', rest)) :
    ∃ text buf, src.drop skip = text ++ percent :: (ascii "THEN" ++ rest) ∧ NoLetter rest ∧
      Translates latin1 text buf ∧ evalExpr p.env (acc ++ buf) = .ok v := by
  induction src generalizing skip acc p with
  | nil => simp [readExprThen] at h
  | cons c cs ih =>
    rcases skip with - | skip
    · by_cases hc : c = percent
      · subst hc
        have hsplit : cs = cs.takeWhile isAsciiAlphabetic ++ cs.dropWhile isAsciiAlphabetic :=
          List.takeWhile_append_dropWhile.symm
        have hdrop := drop_takeWhile isAsciiAlphabetic cs
        have hletter := noLetter_dropWhile cs
        simp only [Preproc.readExprThen, if_true] at h
        generalize cs.takeWhile isAsciiAlphabetic = kw at *
        generalize cs.dropWhile isAsciiAlphabetic = more at *
        have hoperator {op : Bytes} (hop : operator kw = some op)
            (h : readExprThen kw.length (acc ++ op) (p.eraseBytes (percent :: kw)) cs = .ok (v, p', rest)) :
            ∃ text buf, percent :: cs = text ++ percent :: (ascii "THEN" ++ rest) ∧ NoLetter rest ∧
              Translates latin1 text buf ∧ evalExpr p.env (acc ++ buf) = .ok v := by
          obtain ⟨text, buf, htext, hrest, htrans, heval⟩ := ih h
          have hend : NoLetter text := by
            rw [hdrop] at htext
            rw [htext] at hletter
            rcases text with - | ⟨d, text⟩
            · exact noLetter_nil
            · exact hletter
          refine ⟨percent :: (kw ++ text), op ++ buf, ?_, hrest, .operator hop hend htrans, ?_⟩
          · rw [hsplit, ← hdrop, htext, List.cons_append, List.append_assoc]
          · rw [← List.append_assoc]
            exact heval
        split_ifs at h with hthen hand hor hnot
        · obtain ⟨w, hw, h⟩ := bind_eq_ok h
          cases h
          refine ⟨[], [], ?_, ?_, .nil, by rw [List.append_nil]; exact hw⟩
          · rw [hdrop, ← hthen]
            exact congrArg (percent :: ·) hsplit
          · rw [hdrop]
            exact hletter
        · exact hoperator (by rw [hand]; rfl) h
        · exact hoperator (by rw [hor]; rfl) h
        · exact hoperator (by rw [hnot]; rfl) h
      · rw [readExprThen, if_neg hc] at h
        obtain ⟨text, buf, htext, hrest, htrans, heval⟩ := ih h
        refine ⟨c :: text, latin1 c ++ buf, congrArg (c :: ·) htext, hrest, .byte hc htrans, ?_⟩
        rw [← List.append_assoc]
        exact heval
    · rw [readExprThen] at h
      exact ih h

/-! ## What the pass does at a directive -/

theorem run_directive {p p' : Preproc} {cs rest : Bytes} (h : handleDirective p cs = .ok (p', rest)) :
    run 0 p (percent :: cs) = run 0 p' rest := by
  obtain ⟨taken, htaken, hedges, -, -⟩ := handleDirective_erases h
  obtain ⟨d, taken, rfl⟩ := List.exists_cons_of_ne_nil hedges.ne_nil
  obtain ⟨rfl, hcs⟩ := List.cons.inj htaken
  have hstep : run 0 p (percent :: cs) = run (cs.length - rest.length) p' cs := by
    rw [run, if_neg fun h => absurd h.1 (by decide), if_neg fun h => absurd h.1 (by decide),
      if_neg (by decide), if_neg fun h => absurd h.1 (by decide), if_pos rfl, h]
    rfl
  have hcs : cs = taken ++ rest := hcs
  rw [hstep, hcs, run_taken]

/-- `kw` is the keyword of a directive. -/
theorem takeWhile_keyword (kw : Bytes) {rest : Bytes} (hkw : kw.all isAsciiAlphabetic) (hrest : NoLetter rest) :
    (kw ++ rest).takeWhile isAsciiAlphabetic = kw ∧ (kw ++ rest).drop kw.length = rest :=
  ⟨takeWhile_letters hkw hrest, List.drop_left⟩

/-- A condition behind its keyword. -/
theorem readExprThen_condition {cond rest : Bytes} {c : Cond} (h : Says latin1 cond c) (hrest : NoLetter rest)
    (p : Preproc) :
    readExprThen 0 [] p (cond ++ percent :: (ascii "THEN" ++ rest)) =
      .ok (c.eval p.env, p.eraseBytes (cond ++ percent :: ascii "THEN"), rest) := by
  obtain ⟨buf, htrans, hcondition⟩ := h
  rw [htrans.readExprThen [] p hrest, List.nil_append, evalExpr_eq_ok.2 ⟨c, hcondition, rfl⟩]
  rfl

/-- The state of a chain at its next branch. -/
def nextBranch (top : BranchState) (cond : Bool) : BranchState :=
  let take := top.parentActive && !top.anyTaken && cond
  ⟨top.parentActive, top.anyTaken || take, take⟩

/-- Behind a directive which leaves the chain in the state `top`. -/
def enter (p : Preproc) (directive : Bytes) (top : BranchState) (stack : List BranchState) : Preproc :=
  { p.eraseBytes directive with stack := top :: stack }

theorem run_if {cond rest : Bytes} {c : Cond} (h : Says latin1 cond c) (hcond : NoLetter cond)
    (hrest : NoLetter rest) (p : Preproc) :
    run 0 p (ifBytes cond ++ rest) =
      run 0 (enter p (ifBytes cond) (nextBranch ⟨p.active, false, false⟩ (c.eval p.env)) p.stack) rest := by
  obtain ⟨htake, hdrop⟩ := takeWhile_keyword (ascii "IF") (by decide) (hcond.append (ascii "THEN" ++ rest))
  have hsplit : ifBytes cond ++ rest = percent :: (ascii "IF" ++ (cond ++ percent :: (ascii "THEN" ++ rest))) := by
    simp [ifBytes]
  have herase : (p.eraseBytes (percent :: ascii "IF")).eraseBytes (cond ++ percent :: ascii "THEN") =
      p.eraseBytes (ifBytes cond) := by
    rw [eraseBytes_append]
    rfl
  rw [hsplit]
  refine run_directive ?_
  simp only [handleDirective, htake, hdrop, if_true, readExprThen_condition h hrest, bind, Except.bind, herase,
    nextBranch, Bool.not_false, Bool.and_true, Bool.false_or]
  rfl

theorem run_elsif {cond rest : Bytes} {c : Cond} (h : Says latin1 cond c) (hcond : NoLetter cond)
    (hrest : NoLetter rest) {p : Preproc} {top : BranchState} {stack : List BranchState}
    (hp : p.stack = top :: stack) :
    run 0 p (elsifBytes cond ++ rest) =
      run 0 (enter p (elsifBytes cond) (nextBranch top (c.eval p.env)) stack) rest := by
  obtain ⟨htake, hdrop⟩ := takeWhile_keyword (ascii "ELSIF") (by decide) (hcond.append (ascii "THEN" ++ rest))
  have hsplit : elsifBytes cond ++ rest =
      percent :: (ascii "ELSIF" ++ (cond ++ percent :: (ascii "THEN" ++ rest))) := by
    simp [elsifBytes]
  have herase : (p.eraseBytes (percent :: ascii "ELSIF")).eraseBytes (cond ++ percent :: ascii "THEN") =
      p.eraseBytes (elsifBytes cond) := by
    rw [eraseBytes_append]
    rfl
  have hstack : (p.eraseBytes (percent :: ascii "ELSIF")).stack = top :: stack := hp
  rw [hsplit]
  refine run_directive ?_
  simp only [handleDirective, htake, hdrop, if_true, hstack, readExprThen_condition h hrest, bind, Except.bind,
    herase]
  rw [if_neg (by decide)]
  rfl

theorem run_else {rest : Bytes} (hrest : NoLetter rest) {p : Preproc} {top : BranchState}
    {stack : List BranchState} (hp : p.stack = top :: stack) :
    run 0 p (elseBytes ++ rest) = run 0 (enter p elseBytes (nextBranch top true) stack) rest := by
  obtain ⟨htake, hdrop⟩ := takeWhile_keyword (ascii "ELSE") (by decide) hrest
  have hstack : (p.eraseBytes (percent :: ascii "ELSE")).stack = top :: stack := hp
  rw [elseBytes, List.cons_append]
  refine run_directive ?_
  simp only [handleDirective, htake, hdrop, if_true, hstack, nextBranch, Bool.and_true]
  rw [if_neg (by decide), if_neg (by decide)]
  rfl

theorem run_end {rest : Bytes} (hrest : NoLetter rest) {p : Preproc} {top : BranchState}
    {stack : List BranchState} (hp : p.stack = top :: stack) :
    run 0 p (endBytes ++ rest) = run 0 { p.eraseBytes endBytes with stack := stack } rest := by
  obtain ⟨htake, hdrop⟩ := takeWhile_keyword (ascii "END") (by decide) hrest
  have hstack : (p.eraseBytes (percent :: ascii "END")).stack = top :: stack := hp
  rw [endBytes, List.cons_append]
  refine run_directive ?_
  simp only [handleDirective, htake, hdrop, if_true, hstack]
  rw [if_neg (by decide), if_neg (by decide), if_neg (by decide)]

/-! ## The pass over a forest -/

/-- Behind a text that left this environment and of which this was written. -/
def put (p : Preproc) (r : Env × Bytes) : Preproc := { p with env := r.1, out := p.out ++ r.2 }

@[simp] theorem put_active (p : Preproc) (r : Env × Bytes) : (put p r).active = p.active := rfl

@[simp] theorem put_put (p : Preproc) (r r' : Env × Bytes) : put (put p r) r' = put p (r'.1, r.2 ++ r'.2) := by
  simp only [put, List.append_assoc]

theorem Copies.eq_put {p p' : Preproc} {text : Bytes} {pragmas : List Bytes} (h : Copies p p' text pragmas) :
    p' = put p (if p.active then p.env.applyPragmas pragmas else p.env,
      if p.active then text else text.map blank) := by
  obtain ⟨⟨hstack, hout⟩, henv⟩ := h
  obtain ⟨out', env', stack'⟩ := p'
  subst hstack hout henv
  have hmask : p.mask text = if p.active then text else text.map blank := by
    unfold mask
    by_cases hp : p.active
    · simp [hp]
    · simp [hp]
  rw [hmask]
  rfl

/-- `top` is the state of a chain that has selected a branch, if `earlier`. -/
structure InChain (top : BranchState) (stack : List BranchState) (earlier : Bool) : Prop where
  parentActive : top.parentActive = stack.all (·.currentTake)
  anyTaken : top.parentActive → top.anyTaken = earlier

theorem inChain_if (p : Preproc) : InChain ⟨p.active, false, false⟩ p.stack false := ⟨rfl, fun _ => rfl⟩

namespace InChain
variable {top : BranchState} {stack : List BranchState} {earlier : Bool}

theorem next (h : InChain top stack earlier) (cond : Bool) :
    InChain (nextBranch top cond) stack (earlier || (!earlier && cond)) := by
  refine ⟨h.parentActive, fun hactive => ?_⟩
  have hactive : top.parentActive = true := hactive
  simp only [nextBranch, hactive, h.anyTaken hactive, Bool.true_and]

/-- The next branch is kept where the chain is, if it is the one that is selected. -/
theorem enter_active (h : InChain top stack earlier) (p : Preproc) (directive : Bytes) (cond : Bool) :
    (enter p directive (nextBranch top cond) stack).active = (top.parentActive && (!earlier && cond)) := by
  change (top.parentActive && !top.anyTaken && cond && stack.all (·.currentTake)) = _
  rw [← h.parentActive]
  cases hactive : top.parentActive
  · rfl
  · rw [h.anyTaken hactive, Bool.true_and, Bool.true_and, Bool.and_true]

end InChain

mutual
/-- The pass keeps of a forest what its chains select. -/
theorem Forest.run {after : Bytes} : (f : Forest) → f.Fits (Says latin1) after → (p : Preproc) →
    Preproc.run 0 p (f.bytes ++ after) = Preproc.run 0 (put p (f.keep p.env p.active)) after
  | .nil, _, p => by
    rw [Forest.bytes, Forest.keep, put, List.append_nil]
    rfl
  | .text bytes pragmas rest, h, p => by
    obtain ⟨hpiece, hrest⟩ := h
    obtain ⟨p', hcopies, hrun⟩ := hpiece.run p
    rw [Forest.bytes, List.append_assoc, hrun, hcopies.eq_put, rest.run hrest, put_put]
    rfl
  | .chain cond c body tail rest, h, p => by
    obtain ⟨hcond, hletter, hletter', hbody, htail, hrest⟩ := h
    have hassoc : Forest.bytes (.chain cond c body tail rest) ++ after =
        ifBytes cond ++ (body.bytes ++ (tail.bytes ++ (rest.bytes ++ after))) := by
      simp only [Forest.bytes, List.append_assoc]
    have hchain := inChain_if p
    rw [hassoc, run_if hcond hletter hletter', body.run hbody,
      tail.run htail _ rfl (hchain.next (c.eval p.env)), rest.run hrest, hchain.enter_active]
    simp only [enter, put, Forest.keep, eraseBytes, List.append_assoc, Bool.not_false, Bool.true_and,
      Bool.false_or]
    rfl
theorem Branches.run {after : Bytes} : (b : Branches) → b.Fits (Says latin1) after → (p : Preproc) →
    {top : BranchState} → {stack : List BranchState} → {earlier : Bool} → p.stack = top :: stack →
    InChain top stack earlier →
    Preproc.run 0 p (b.bytes ++ after) =
      Preproc.run 0 { put p (b.keep p.env top.parentActive earlier) with stack := stack } after
  | .end_, h, p, top, stack, earlier, hp, hchain => by
    rw [Branches.bytes, run_end h hp]
    rfl
  | .else_ body tail, h, p, top, stack, earlier, hp, hchain => by
    obtain ⟨hletter, hbody, htail⟩ := h
    have hassoc : Branches.bytes (.else_ body tail) ++ after =
        elseBytes ++ (body.bytes ++ (tail.bytes ++ after)) := by
      simp only [Branches.bytes, List.append_assoc]
    rw [hassoc, run_else hletter hp, body.run hbody, tail.run htail _ rfl (hchain.next true),
      hchain.enter_active]
    simp only [enter, put, Branches.keep, eraseBytes, List.append_assoc, Bool.and_true, Bool.or_not_self]
    rfl
  | .elsif cond c body tail, h, p, top, stack, earlier, hp, hchain => by
    obtain ⟨hcond, hletter, hletter', hbody, htail⟩ := h
    have hassoc : Branches.bytes (.elsif cond c body tail) ++ after =
        elsifBytes cond ++ (body.bytes ++ (tail.bytes ++ after)) := by
      simp only [Branches.bytes, List.append_assoc]
    rw [hassoc, run_elsif hcond hletter hletter' hp, body.run hbody,
      tail.run htail _ rfl (hchain.next (c.eval p.env)), hchain.enter_active]
    simp only [enter, put, Branches.keep, eraseBytes, List.append_assoc]
    rfl
end

/-! ## A text that the pass accepts is a forest -/

/-- `src` begins with the rest of `n` chains, and ends with the last of them. -/
def EndsChains (ok : Bytes → Cond → Prop) : Nat → Bytes → Prop
  | 0, src => src = []
  | n + 1, src => ∃ (tail : Branches) (f : Forest) (after : Bytes), src = tail.bytes ++ (f.bytes ++ after) ∧
      tail.Fits ok (f.bytes ++ after) ∧ f.Fits ok after ∧ EndsChains ok n after

/-- `src` is the rest of a forest in `n` chains. -/
def Closes (ok : Bytes → Cond → Prop) (n : Nat) (src : Bytes) : Prop :=
  ∃ (f : Forest) (after : Bytes), src = f.bytes ++ after ∧ f.Fits ok after ∧ EndsChains ok n after

namespace Closes
variable {ok : Bytes → Cond → Prop} {n : Nat} {src : Bytes}

theorem nil : Closes ok 0 [] := ⟨.nil, [], rfl, trivial, rfl⟩

theorem piece {text : Bytes} {pragmas : List Bytes} (h : Closes ok n src) (hpiece : Piece src text pragmas) :
    Closes ok n (text ++ src) := by
  obtain ⟨f, after, rfl, hf, hends⟩ := h
  refine ⟨.text text pragmas f, after, ?_, ⟨hpiece, hf⟩, hends⟩
  rw [Forest.bytes, List.append_assoc]

theorem if_ {cond : Bytes} {c : Cond} (h : Closes ok (n + 1) src) (hok : ok cond c) (hcond : NoLetter cond)
    (hsrc : NoLetter src) : Closes ok n (ifBytes cond ++ src) := by
  obtain ⟨body, -, rfl, hbody, tail, rest, after, rfl, htail, hrest, hends⟩ := h
  refine ⟨.chain cond c body tail rest, after, ?_, ⟨hok, hcond, hsrc, hbody, htail, hrest⟩, hends⟩
  simp only [Forest.bytes, List.append_assoc]

theorem elsif {cond : Bytes} {c : Cond} (h : Closes ok (n + 1) src) (hok : ok cond c) (hcond : NoLetter cond)
    (hsrc : NoLetter src) : Closes ok (n + 1) (elsifBytes cond ++ src) := by
  obtain ⟨body, -, rfl, hbody, tail, rest, after, rfl, htail, hrest, hends⟩ := h
  refine ⟨.nil, _, rfl, trivial, .elsif cond c body tail, rest, after, ?_,
    ⟨hok, hcond, hsrc, hbody, htail⟩, hrest, hends⟩
  simp only [Branches.bytes, List.append_assoc]
  rfl

theorem else_ (h : Closes ok (n + 1) src) (hsrc : NoLetter src) : Closes ok (n + 1) (elseBytes ++ src) := by
  obtain ⟨body, -, rfl, hbody, tail, rest, after, rfl, htail, hrest, hends⟩ := h
  refine ⟨.nil, _, rfl, trivial, .else_ body tail, rest, after, ?_, ⟨hsrc, hbody, htail⟩, hrest, hends⟩
  simp only [Branches.bytes, List.append_assoc]
  rfl

theorem end_ (h : Closes ok n src) (hsrc : NoLetter src) : Closes ok (n + 1) (endBytes ++ src) := by
  obtain ⟨rest, after, rfl, hrest, hends⟩ := h
  exact ⟨.nil, _, rfl, trivial, .end_, rest, after, rfl, hsrc, hrest, hends⟩

end Closes

/-- What a directive is that the pass takes with `n` chains open, and leaves with `m`. -/
inductive Directive (rest : Bytes) (n : Nat) : Bytes → Nat → Prop
  | if_ {cond : Bytes} {c : Cond} (hmeans : Says latin1 cond c) (hcond : NoLetter cond) (hrest : NoLetter rest) :
      Directive rest n (ifBytes cond) (n + 1)
  | elsif {cond : Bytes} {c : Cond} (hn : 0 < n) (hmeans : Says latin1 cond c) (hcond : NoLetter cond)
      (hrest : NoLetter rest) : Directive rest n (elsifBytes cond) n
  | else_ (hn : 0 < n) (hrest : NoLetter rest) : Directive rest n elseBytes n
  | end_ {m : Nat} (hn : n = m + 1) (hrest : NoLetter rest) : Directive rest n endBytes m

theorem exists_condition {p p' : Preproc} {v : Bool} {src rest : Bytes} (hsrc : NoLetter src)
    (h : readExprThen 0 [] p src = .ok (v, p', rest)) :
    ∃ cond c, src = cond ++ percent :: (ascii "THEN" ++ rest) ∧ NoLetter rest ∧ NoLetter cond ∧
      Says latin1 cond c := by
  obtain ⟨cond, buf, hsplit, hrest, htrans, heval⟩ := exists_translates h
  obtain ⟨c, hcondition, -⟩ := evalExpr_eq_ok.1 heval
  rw [List.drop_zero] at hsplit
  subst hsplit
  refine ⟨cond, c, rfl, hrest, ?_, buf, htrans, hcondition⟩
  rcases cond with - | ⟨d, cond⟩
  · exact noLetter_nil
  · exact hsrc

theorem exists_directive {p p' : Preproc} {cs rest : Bytes} (h : handleDirective p cs = .ok (p', rest)) :
    ∃ directive, percent :: cs = directive ++ rest ∧ Directive rest p.stack.length directive p'.stack.length := by
  have hsplit : cs = cs.takeWhile isAsciiAlphabetic ++ cs.dropWhile isAsciiAlphabetic :=
    List.takeWhile_append_dropWhile.symm
  have hletter := noLetter_dropWhile cs
  have hdrop := drop_takeWhile isAsciiAlphabetic cs
  have herase := eraseBytes_erases p (percent :: cs.takeWhile isAsciiAlphabetic)
  simp only [handleDirective, hdrop] at h
  generalize cs.takeWhile isAsciiAlphabetic = kw at *
  generalize cs.dropWhile isAsciiAlphabetic = more at *
  split_ifs at h with hif helsif helse hend
  · obtain ⟨⟨v, p₁, rest₁⟩, hread, h⟩ := bind_eq_ok h
    obtain ⟨taken, kw', -, -, hw⟩ := readExprThen_erases hread
    cases h
    obtain ⟨cond, c, rfl, hrest, hcond, hmeans⟩ := exists_condition hletter hread
    have hlen := congrArg List.length (herase.trans hw).stack
    refine ⟨ifBytes cond, ?_, ?_⟩
    · rw [hsplit, hif]
      simp [ifBytes]
    · rw [List.length_cons, hlen]
      exact .if_ hmeans hcond hrest
  · split at h
    · cases h
    · rename_i top stack hstack
      obtain ⟨⟨v, p₁, rest₁⟩, hread, h⟩ := bind_eq_ok h
      cases h
      obtain ⟨cond, c, rfl, hrest, hcond, hmeans⟩ := exists_condition hletter hread
      have hp : p.stack.length = stack.length + 1 := congrArg List.length hstack
      refine ⟨elsifBytes cond, ?_, ?_⟩
      · rw [hsplit, helsif]
        simp [elsifBytes]
      · rw [hp]
        exact .elsif (Nat.succ_pos _) hmeans hcond hrest
  · split at h
    · cases h
    · rename_i top stack hstack
      cases h
      have hp : p.stack.length = stack.length + 1 := congrArg List.length hstack
      refine ⟨elseBytes, ?_, ?_⟩
      · rw [hsplit, helse]
        rfl
      · rw [hp]
        exact .else_ (Nat.succ_pos _) hletter
  · split at h
    · cases h
    · rename_i top stack hstack
      cases h
      have hp : p.stack.length = stack.length + 1 := congrArg List.length hstack
      refine ⟨endBytes, ?_, .end_ hp hletter⟩
      rw [hsplit, hend]
      rfl

theorem Closes.directive {n m : Nat} {directive src : Bytes} (h : Closes (Says latin1) m src)
    (hdirective : Directive src n directive m) : Closes (Says latin1) n (directive ++ src) := by
  cases hdirective with
  | if_ hmeans hcond hrest => exact h.if_ hmeans hcond hrest
  | elsif hn hmeans hcond hrest =>
    obtain ⟨m, rfl⟩ := Nat.exists_eq_succ_of_ne_zero (Nat.ne_of_gt hn)
    exact h.elsif hmeans hcond hrest
  | else_ hn hrest =>
    obtain ⟨m, rfl⟩ := Nat.exists_eq_succ_of_ne_zero (Nat.ne_of_gt hn)
    exact h.else_ hrest
  | end_ hn hrest =>
    subst hn
    exact h.end_ hrest

theorem Directive.ne_nil {rest directive : Bytes} {n m : Nat} (h : Directive rest n directive m) :
    directive ≠ [] := by
  cases h <;> exact List.cons_ne_nil _ _

/-- A text that the pass accepts closes the chains that are open before it. -/
theorem closes_of_run {p p' : Preproc} {src : Bytes} (h : run 0 p src = .ok p') :
    Closes (Says latin1) p.stack.length src := by
  induction hn : src.length using Nat.strong_induction_on generalizing p src with
  | _ n ih =>
    subst hn
    rcases src with - | ⟨c, cs⟩
    · rw [run] at h
      split_ifs at h with hstack
      rw [hstack]
      exact .nil
    have hshorter {taken rest : Bytes} (hsplit : c :: cs = taken ++ rest) (hne : taken ≠ []) :
        rest.length < (c :: cs).length := by
      have hpos := List.length_pos_iff.2 hne
      rw [hsplit, List.length_append]
      omega
    by_cases hc : c = percent
    · subst hc
      have hstep : ∃ p₁ rest, handleDirective p cs = .ok (p₁, rest) := by
        rw [run, if_neg fun h => absurd h.1 (by decide), if_neg fun h => absurd h.1 (by decide),
          if_neg (by decide), if_neg fun h => absurd h.1 (by decide), if_pos rfl] at h
        obtain ⟨⟨p₁, rest⟩, hdirective, -⟩ := bind_eq_ok h
        exact ⟨p₁, rest, hdirective⟩
      obtain ⟨p₁, rest, hhandle⟩ := hstep
      rw [run_directive hhandle] at h
      obtain ⟨directive, hsplit, hdirective⟩ := exists_directive hhandle
      have hrest := ih _ (hshorter hsplit hdirective.ne_nil) h rfl
      rw [hsplit]
      exact hrest.directive hdirective
    · obtain ⟨text, pragmas, rest, hsplit, hpiece⟩ := exists_piece hc h
      obtain ⟨p₁, hcopies, hrun⟩ := hpiece.run p
      rw [hsplit, hrun] at h
      have hrest := ih _ (hshorter hsplit hpiece.ne_nil) h rfl
      rw [hcopies.writes.stack] at hrest
      rw [hsplit]
      exact hrest.piece hpiece

/-! ## Conditions with other than ASCII characters

The bytes of a condition are taken for characters of their own, so that a string in it which has others
than ASCII characters is not the string that stands there. -/

theorem Translates.congr {spell spell' : UInt8 → Bytes} {text buf : Bytes} (h : Translates spell text buf)
    (hspell : ∀ c ∈ text, spell c = spell' c) : Translates spell' text buf := by
  induction h with
  | nil => exact .nil
  | @byte c text buf hc _ ih =>
    obtain ⟨hfirst, hspell⟩ := List.forall_mem_cons.1 hspell
    rw [hfirst]
    exact .byte hc (ih hspell)
  | operator hop hend _ ih =>
    refine .operator hop hend (ih fun c hc => hspell c ?_)
    exact List.mem_cons_of_mem _ (List.mem_append_right _ hc)

theorem Translates.exists_spell {spell : UInt8 → Bytes} (spell' : UInt8 → Bytes) {text buf : Bytes}
    (h : Translates spell text buf) : ∃ buf', Translates spell' text buf' := by
  induction h with
  | nil => exact ⟨[], .nil⟩
  | byte hc _ ih =>
    obtain ⟨buf', h⟩ := ih
    exact ⟨_, .byte hc h⟩
  | operator hop hend _ ih =>
    obtain ⟨buf', h⟩ := ih
    exact ⟨_, .operator hop hend h⟩

theorem latin1_ascii {c : UInt8} (h : c < 128) : latin1 c = [c] := if_pos h

theorem says_latin1 {cond : Bytes} {c : Cond} (h : ∀ c ∈ cond, c < 128) :
    Says latin1 cond c ↔ Says (fun c => [c]) cond c := by
  refine exists_congr fun buf => and_congr_left fun _ => ?_
  exact ⟨fun ht => ht.congr fun c hc => latin1_ascii (h c hc),
    fun ht => ht.congr fun c hc => (latin1_ascii (h c hc)).symm⟩

mutual
theorem Forest.Fits.mono {ok ok' : Bytes → Cond → Prop} {after : Bytes} : {f : Forest} → f.Fits ok after →
    (∀ cond ∈ f.conds, ∀ c, ok cond c → ok' cond c) → f.Fits ok' after
  | .nil, _, _ => trivial
  | .text _ _ _, h, hok => ⟨h.1, h.2.mono hok⟩
  | .chain _ _ _ _ _, h, hok => by
    obtain ⟨hcond, hletter, hletter', hbody, htail, hrest⟩ := h
    obtain ⟨hfirst, hok⟩ := List.forall_mem_cons.1 hok
    obtain ⟨hokBody, hok⟩ := List.forall_mem_append.1 hok
    obtain ⟨hokTail, hokRest⟩ := List.forall_mem_append.1 hok
    exact ⟨hfirst _ hcond, hletter, hletter', hbody.mono hokBody, htail.mono hokTail, hrest.mono hokRest⟩
theorem Branches.Fits.mono {ok ok' : Bytes → Cond → Prop} {after : Bytes} : {b : Branches} → b.Fits ok after →
    (∀ cond ∈ b.conds, ∀ c, ok cond c → ok' cond c) → b.Fits ok' after
  | .end_, h, _ => h
  | .else_ _ _, h, hok => by
    obtain ⟨hletter, hbody, htail⟩ := h
    obtain ⟨hokBody, hokTail⟩ := List.forall_mem_append.1 hok
    exact ⟨hletter, hbody.mono hokBody, htail.mono hokTail⟩
  | .elsif _ _ _ _, h, hok => by
    obtain ⟨hcond, hletter, hletter', hbody, htail⟩ := h
    obtain ⟨hfirst, hok⟩ := List.forall_mem_cons.1 hok
    obtain ⟨hokBody, hokTail⟩ := List.forall_mem_append.1 hok
    exact ⟨hfirst _ hcond, hletter, hletter', hbody.mono hokBody, htail.mono hokTail⟩
end

/-! ## The reference semantics -/

/-- `f` is what the text is. -/
def Reading (src : Bytes) (f : Forest) : Prop := f.Fits (Says fun c => [c]) [] ∧ f.bytes = src

/-- A forest, without a branch behind an `%ELSE`. -/
def WellNested (src : Bytes) : Prop := (∃ f, Reading src f) ∧ ∀ f, Reading src f → f.Strict

/-- The pass keeps what the chains of a forest select, and refuses any other text. A text without
directives is not looked at. -/
structure MatchesReference (src : Bytes) (env : Env) : Prop where
  keeps : WellNested src → ∀ f, Reading src f → preprocess src env = .ok (f.keep env true).2
  refuses : percent ∈ src → ¬ WellNested src → ∃ message, preprocess src env = .error message

/-- The conditions are ASCII text, whatever they say. -/
def AsciiConditions (src : Bytes) : Prop :=
  ∀ f : Forest, f.Fits (fun cond _ => ∃ buf, Translates (fun c => [c]) cond buf) [] → f.bytes = src →
    ∀ cond ∈ f.conds, ∀ c ∈ cond, c < 128

theorem preprocess_of_percent {src : Bytes} (h : percent ∈ src) (env : Env) :
    preprocess src env = (Preproc.run 0 ⟨[], env, []⟩ src).map (·.out) := by
  rw [preprocess, if_neg (not_not.2 h)]
  cases Preproc.run 0 ⟨[], env, []⟩ src <;> rfl

theorem Forest.keep_of_not_percent {f : Forest} (h : percent ∉ f.bytes) (env : Env) :
    (f.keep env true).2 = f.bytes := by
  induction f using Forest.rec (motive_2 := fun _ => True) generalizing env with
  | nil => rfl
  | text bytes pragmas rest ih =>
    rw [Forest.bytes, List.mem_append, not_or] at h
    rw [Forest.bytes, Forest.keep, ← ih h.2]
    rfl
  | chain cond c body tail rest => exact absurd (List.mem_cons_self ..) h
  | _ => trivial

mutual
/-- Without an `%ELSE` there is no branch behind one. -/
theorem Forest.strict_of_not_else : (f : Forest) → ¬ elseBytes <:+: f.bytes → f.Strict
  | .nil, _ => trivial
  | .text _ _ rest, h => rest.strict_of_not_else fun hi => h (hi.trans (List.suffix_append ..).isInfix)
  | .chain cond _ body tail rest, h => by
    have h : ¬ elseBytes <:+: body.bytes ++ (tail.bytes ++ rest.bytes) :=
      fun hi => h (hi.trans (List.suffix_append ..).isInfix)
    refine ⟨body.strict_of_not_else fun hi => h ?_, tail.strict_of_not_else fun hi => h ?_,
      rest.strict_of_not_else fun hi => h ?_⟩
    · exact hi.trans (List.prefix_append ..).isInfix
    · exact (hi.trans (List.prefix_append ..).isInfix).trans (List.suffix_append ..).isInfix
    · exact (hi.trans (List.suffix_append ..).isInfix).trans (List.suffix_append ..).isInfix
theorem Branches.strict_of_not_else : (b : Branches) → ¬ elseBytes <:+: b.bytes → b.Strict
  | .end_, _ => trivial
  | .else_ _ _, h => absurd (List.prefix_append ..).isInfix h
  | .elsif cond _ body tail, h => by
    have h : ¬ elseBytes <:+: body.bytes ++ tail.bytes := fun hi => h (hi.trans (List.suffix_append ..).isInfix)
    refine ⟨body.strict_of_not_else fun hi => h ?_, tail.strict_of_not_else fun hi => h ?_⟩
    · exact hi.trans (List.prefix_append ..).isInfix
    · exact hi.trans (List.suffix_append ..).isInfix
end

/-- The pass keeps of a text what its chains select. -/
theorem preprocess_keeps {src : Bytes} {f : Forest} (hf : f.Fits (Says latin1) []) (hbytes : f.bytes = src)
    (env : Env) : preprocess src env = .ok (f.keep env true).2 := by
  subst hbytes
  by_cases hpercent : percent ∈ f.bytes
  · have hrun := f.run hf ⟨[], env, []⟩
    rw [List.append_nil] at hrun
    rw [preprocess_of_percent hpercent, hrun]
    rfl
  · rw [preprocess, if_pos hpercent, Forest.keep_of_not_percent hpercent]

theorem exists_fits {src : Bytes} {env : Env} (hpercent : percent ∈ src) {out : Bytes}
    (h : preprocess src env = .ok out) : ∃ f : Forest, f.Fits (Says latin1) [] ∧ f.bytes = src := by
  rw [preprocess_of_percent hpercent] at h
  cases hrun : Preproc.run 0 ⟨[], env, []⟩ src with
  | error e =>
    rw [hrun] at h
    cases h
  | ok p =>
    obtain ⟨f, -, hsrc, hf, rfl⟩ := closes_of_run hrun
    rw [List.append_nil] at hsrc
    exact ⟨f, hf, hsrc.symm⟩

/-- Of ASCII conditions the pass reads what they say. -/
theorem reading_iff {src : Bytes} (h : AsciiConditions src) (f : Forest) :
    Reading src f ↔ f.Fits (Says latin1) [] ∧ f.bytes = src := by
  constructor
  · rintro ⟨hf, hbytes⟩
    refine ⟨hf.mono fun cond hcond c => ?_, hbytes⟩
    refine (says_latin1 (h f (hf.mono fun cond _ c hmeans => ?_) hbytes cond hcond)).2
    obtain ⟨buf, htrans, -⟩ := hmeans
    exact ⟨buf, htrans⟩
  · rintro ⟨hf, hbytes⟩
    refine ⟨hf.mono fun cond hcond c => ?_, hbytes⟩
    refine (says_latin1 (h f (hf.mono fun cond _ c hmeans => ?_) hbytes cond hcond)).1
    obtain ⟨buf, htrans, -⟩ := hmeans
    exact htrans.exists_spell _

/-- With ASCII conditions the pass computes the reference semantics exactly if no chain has a branch
behind its `%ELSE`. -/
theorem conditional_compilation {src : Bytes} (env : Env) (h : AsciiConditions src) :
    MatchesReference src env ↔ ∀ f, Reading src f → f.Strict := by
  constructor
  · intro hmatches f hf
    by_contra hstrict
    have hpercent : percent ∈ src := by
      by_contra hpercent
      refine hstrict (f.strict_of_not_else fun hi => hpercent ?_)
      rw [← hf.2]
      exact hi.subset (List.mem_cons_self ..)
    have hnested : ¬ WellNested src := fun hnested => hstrict (hnested.2 f hf)
    obtain ⟨message, herror⟩ := hmatches.refuses hpercent hnested
    obtain ⟨hfits, hbytes⟩ := (reading_iff h f).1 hf
    cases herror.symm.trans (preprocess_keeps hfits hbytes env)
  · intro hstrict
    refine ⟨fun _ f hf => ?_, fun hpercent hnested => ?_⟩
    · obtain ⟨hfits, hbytes⟩ := (reading_iff h f).1 hf
      exact preprocess_keeps hfits hbytes env
    · cases hout : preprocess src env with
      | error message => exact ⟨message, rfl⟩
      | ok out =>
        obtain ⟨f, hf⟩ := exists_fits hpercent hout
        exact absurd ⟨⟨f, (reading_iff h f).2 hf⟩, hstrict⟩ hnested

mutual
theorem Forest.conds_subset : (f : Forest) → ∀ cond ∈ f.conds, cond ⊆ f.bytes
  | .nil, _, hmem => absurd hmem List.not_mem_nil
  | .text _ _ rest, cond, hmem => List.subset_append_of_subset_right _ (rest.conds_subset cond hmem)
  | .chain first _ body tail rest, cond, hmem => by
    have hfirst : first ⊆ ifBytes first :=
      List.subset_cons_of_subset _ (List.subset_append_of_subset_right _ (List.subset_append_left ..))
    rcases List.mem_cons.1 hmem with rfl | hmem
    · exact List.subset_append_of_subset_left _ hfirst
    refine List.subset_append_of_subset_right _ ?_
    rcases List.mem_append.1 hmem with hmem | hmem
    · exact List.subset_append_of_subset_left _ (body.conds_subset cond hmem)
    refine List.subset_append_of_subset_right _ ?_
    rcases List.mem_append.1 hmem with hmem | hmem
    · exact List.subset_append_of_subset_left _ (tail.conds_subset cond hmem)
    · exact List.subset_append_of_subset_right _ (rest.conds_subset cond hmem)
theorem Branches.conds_subset : (b : Branches) → ∀ cond ∈ b.conds, cond ⊆ b.bytes
  | .end_, _, hmem => absurd hmem List.not_mem_nil
  | .else_ body tail, cond, hmem => by
    refine List.subset_append_of_subset_right _ ?_
    rcases List.mem_append.1 hmem with hmem | hmem
    · exact List.subset_append_of_subset_left _ (body.conds_subset cond hmem)
    · exact List.subset_append_of_subset_right _ (tail.conds_subset cond hmem)
  | .elsif first _ body tail, cond, hmem => by
    have hfirst : first ⊆ elsifBytes first :=
      List.subset_cons_of_subset _ (List.subset_append_of_subset_right _ (List.subset_append_left ..))
    rcases List.mem_cons.1 hmem with rfl | hmem
    · exact List.subset_append_of_subset_left _ hfirst
    refine List.subset_append_of_subset_right _ ?_
    rcases List.mem_append.1 hmem with hmem | hmem
    · exact List.subset_append_of_subset_left _ (body.conds_subset cond hmem)
    · exact List.subset_append_of_subset_right _ (tail.conds_subset cond hmem)
end

theorem asciiConditions_of_ascii {src : Bytes} (h : ∀ c ∈ src, c < 128) : AsciiConditions src := by
  rintro f - rfl cond hcond c hc
  exact h c (f.conds_subset cond hcond hc)

theorem conditional_compilation_elsif :
    MatchesReference (ascii "%IF A%THEN p %ELSIF B%THEN q %ELSE r %END") (Env.empty.defineBool (ascii "B") true) ↔
      ∀ f, Reading (ascii "%IF A%THEN p %ELSIF B%THEN q %ELSE r %END") f → f.Strict :=
  conditional_compilation _ (asciiConditions_of_ascii (by decide +kernel))

theorem translates_self {text : Bytes} (h : percent ∉ text) : Translates (fun c => [c]) text text := by
  induction text with
  | nil => exact .nil
  | cons c text ih =>
    obtain ⟨hc, htext⟩ := List.ne_and_not_mem_of_not_mem_cons h
    exact .byte hc.symm (ih htext)

/-- The condition that a text without operators is. -/
theorem exists_condition_self (cond : Bytes) (env : Env) (v : Bool) (hcond : percent ∉ cond)
    (h : evalExpr env cond = .ok v) : ∃ c, Says (fun c => [c]) cond c ∧ c.eval env = v := by
  obtain ⟨c, hc, hv⟩ := evalExpr_eq_ok.1 h
  exact ⟨c, ⟨cond, translates_self hcond, hc⟩, hv⟩

/-- A second `%ELSE` is not refused, and a string with other than ASCII characters is not the value that
it spells. -/
theorem conditional_compilation_differs :
    ¬ MatchesReference (ascii "%IF A%THEN%ELSE%ELSE%END") .empty ∧
      ¬ MatchesReference (Utf8.encode "%IF A='é'%THEN;%END".toList)
        (Env.empty.defineValue (ascii "A") (Utf8.encode ['é'])) := by
  constructor
  · intro hmatches
    obtain ⟨c, hmeans, -⟩ := exists_condition_self (ascii " A") .empty false (by decide) (by decide +kernel)
    have hreading : Reading (ascii "%IF A%THEN%ELSE%ELSE%END")
        (.chain (ascii " A") c .nil (.else_ .nil (.else_ .nil .end_)) .nil) := by
      refine ⟨⟨hmeans, noLetter_cons (by decide) _, noLetter_percent _, trivial, ⟨noLetter_percent _, trivial,
        noLetter_percent _, trivial, noLetter_nil⟩, trivial⟩, rfl⟩
    have hnested : ¬ WellNested (ascii "%IF A%THEN%ELSE%ELSE%END") := by
      intro hnested
      obtain ⟨-, ⟨-, htail⟩, -⟩ := hnested.2 _ hreading
      cases htail
    obtain ⟨message, herror⟩ := hmatches.refuses (by decide) hnested
    have hok : preprocess (ascii "%IF A%THEN%ELSE%ELSE%END") .empty = .ok (List.replicate 24 space) := by
      decide +kernel
    cases herror.symm.trans hok
  · intro hmatches
    obtain ⟨c, hmeans, htrue⟩ := exists_condition_self (Utf8.encode " A='é'".toList)
      (Env.empty.defineValue (ascii "A") (Utf8.encode ['é'])) true (by decide) (by decide +kernel)
    have hreading : Reading (Utf8.encode "%IF A='é'%THEN;%END".toList)
        (.chain (Utf8.encode " A='é'".toList) c (.text (ascii ";") [] .nil) .end_ .nil) := by
      refine ⟨⟨hmeans, noLetter_cons (by decide) _, noLetter_cons (by decide) _,
        ⟨.byte (.of_isPlain (by decide) _), trivial⟩, noLetter_nil, trivial⟩, rfl⟩
    have hnested : WellNested (Utf8.encode "%IF A='é'%THEN;%END".toList) := by
      refine ⟨⟨_, hreading⟩, fun f hf => f.strict_of_not_else ?_⟩
      rw [hf.2]
      decide
    have hkeeps := hmatches.keeps hnested _ hreading
    simp only [Forest.keep, Branches.keep, htrue] at hkeeps
    have hblank : preprocess (Utf8.encode "%IF A='é'%THEN;%END".toList)
        (Env.empty.defineValue (ascii "A") (Utf8.encode ['é'])) = .ok (List.replicate 20 space) := by
      decide +kernel
    have hsame := Except.ok.inj (hblank.symm.trans hkeeps)
    revert hsame
    decide +kernel

end NewM2.Lexer
