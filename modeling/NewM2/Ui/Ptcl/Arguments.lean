import Mathlib
import NewM2.Ui.Ptcl.Consistent

/-!
# The arguments of an outer command

A nested evaluation writes other arguments to the global array. `Agree x x'`: from states that differ at most in the
arguments, the two scripts give the same result and again such states. An evaluation is `Agree` as itself, and a
builtin whose nested evaluations leave any other arguments behind does what it does without that. -/

namespace NewM2.Ui.Ptcl

variable {σ β γ : Type}

/-- The results are the same, but for the arguments in the state. -/
inductive Alike : Except Stop (β × State σ) → Except Stop (β × State σ) → Prop
  | stopped (e : Stop) : Alike (.error e) (.error e)
  | ends (a : β) (s : State σ) (args : List (List Code)) : Alike (.ok (a, s)) (.ok (a, { s with args := args }))

def Agree (x x' : Script σ β) : Prop := ∀ s args, Alike (x s) (x' { s with args := args })

/-! ## The rules -/

section rules
variable {x x' y y' : Script σ β} {f f' : β → Script σ γ} {s : State σ}

theorem Alike.refl (r : Except Stop (β × State σ)) : Alike r r := by
  rcases r with e | ⟨a, s⟩
  · exact .stopped e
  · exact .ends a s s.args

theorem Agree.alike (h : Agree x x') (s : State σ) : Alike (x s) (x' s) := h s s.args

theorem Agree.bind (hx : Agree x x') (hf : ∀ a, Agree (f a) (f' a)) : Agree (x >>= f) (x' >>= f') := by
  intro s args
  have h := hx s args
  change Alike ((x s).bind fun r => f r.1 r.2) ((x' _).bind fun r => f' r.1 r.2)
  generalize x s = r at h
  generalize x' { s with args := args } = r' at h
  cases h with
  | stopped e => exact .stopped e
  | ends a s₁ args₁ => exact hf a s₁ args₁

theorem Agree.pure (a : β) : Agree (Pure.pure a : Script σ β) (Pure.pure a) := fun s args => .ends a s args

theorem Agree.stop (e : Stop) : Agree (Ptcl.stop e : Script σ β) (Ptcl.stop e) := fun _ _ => .stopped e

theorem Agree.lift (e : Except Stop β) : Agree (liftM e : Script σ β) (liftM e) := by
  rcases e with e | a
  · exact fun _ _ => .stopped e
  · exact fun s args => .ends a s args

theorem Agree.get {g g' : State σ → Script σ β} (h : ∀ s args, Agree (g s) (g' { s with args := args })) :
    Agree (MonadState.get >>= g) (MonadState.get >>= g') := fun s args => h s args s args

theorem Agree.set (s : State σ) (args : List (List Code)) :
    Agree (MonadStateOf.set s : Script σ PUnit) (MonadStateOf.set { s with args := args }) := fun _ _ =>
  .ends PUnit.unit s args

theorem Agree.change {g : State σ → State σ} (h : ∀ s args, g { s with args := args } = { g s with args := args }) :
    Agree (modify g : Script σ PUnit) (modify g) := by
  intro s args
  change Alike (.ok (PUnit.unit, g s)) (.ok (PUnit.unit, g { s with args := args }))
  rw [h s args]
  exact .ends PUnit.unit (g s) args

/-- After this the states are equal. -/
theorem Agree.setArgs {g : State σ → State σ} (h : ∀ s args, g { s with args := args } = g s) (k : PUnit → Script σ β) :
    Agree ((modify g : Script σ PUnit) >>= k) (modify g >>= k) := by
  intro s args
  change Alike (k PUnit.unit (g s)) (k PUnit.unit (g { s with args := args }))
  rw [h s args]
  exact .refl _

theorem Agree.ite {p : Prop} [Decidable p] (hx : Agree x x') (hy : Agree y y') :
    Agree (if p then x else y) (if p then x' else y') := by
  split_ifs
  · exact hx
  · exact hy

theorem Alike.ite {p : Prop} [Decidable p] (hx : p → Alike (x s) (x' s)) (hy : ¬ p → Alike (y s) (y' s)) :
    Alike ((if p then x else y) s) ((if p then x' else y') s) := by
  split_ifs with h
  · exact hx h
  · exact hy h

theorem Alike.get {g g' : State σ → Script σ β} (h : Alike (g s s) (g' s s)) :
    Alike ((MonadState.get >>= g) s) ((MonadState.get >>= g') s) := h

theorem Alike.lift (e : Except Stop β) (h : ∀ a, Alike (f a s) (f' a s)) :
    Alike (((liftM e : Script σ β) >>= f) s) (((liftM e : Script σ β) >>= f') s) := by
  rcases e with e | a
  · exact .stopped e
  · exact h a

theorem Alike.arg {g g' : List Code → Script σ β} (i : Nat)
    (h : Alike (g (s.args.getD i []) s) (g' (s.args.getD i []) s)) : Alike ((arg i >>= g) s) ((arg i >>= g') s) := h

end rules

/-! ## Updates of the variables and the texts -/

section updates

theorem index_agree (i high : Nat) : Agree (index i high : Script σ Unit) (index i high) :=
  Agree.ite (Agree.pure ()) (Agree.stop _)

theorem setVar_agree (name val : List Code) : Agree (setVar name val : Script σ Unit) (setVar name val) := by
  refine Agree.get fun s args => Agree.ite (Agree.pure ()) (Agree.ite (Agree.set _ args) (Agree.ite (Agree.pure ()) ?_))
  exact (index_agree _ _).bind fun _ => Agree.set _ args

theorem setVars_agree (l : List (List Code × List Code)) : Agree (setVars l : Script σ Unit) (setVars l) := by
  induction l with
  | nil => exact Agree.pure ()
  | cons b l ih => exact (setVar_agree b.1 b.2).bind fun _ => ih

theorem setResult_agree (cs : List Code) : Agree (setResult cs : Script σ Unit) (setResult cs) :=
  Agree.change fun _ _ => rfl

theorem fail_agree (msg : List Code) : Agree (fail msg : Script σ Unit) (fail msg) := Agree.change fun _ _ => rfl

theorem failed_agree (msg : List Code) : Agree (failed msg : Script σ Bool) (failed msg) :=
  (fail_agree msg).bind fun _ => Agree.pure false

theorem failedUnlessErr_agree (msg : List Code) : Agree (failedUnlessErr msg : Script σ Bool) (failedUnlessErr msg) :=
  Agree.get fun _ _ => Agree.ite (Agree.pure false) (failed_agree msg)

theorem incrBy_agree (name : List Code) (ev amt : Int) : Agree (incrBy name ev amt : Script σ Bool) (incrBy name ev amt) :=
  (setVar_agree name _).bind fun _ => (setResult_agree _).bind fun _ => Agree.pure true

end updates

/-! ## Nested evaluations -/

section nested
variable {self self' : Nat → List Code → Script σ (Bool × List Code)} {w : List Code} {subErr : Bool}

def SelfAgrees (self self' : Nat → List Code → Script σ (Bool × List Code)) : Prop :=
  ∀ high cs, Agree (self high cs) (self' high cs)

theorem substChar_agree (hself : SelfAgrees self self') (cs : List Code) :
    Agree (substChar self cs w subErr) (substChar self' cs w subErr) := by
  rcases cs with _ | ⟨c, cs⟩
  · exact Agree.stop _
  rw [substChar, substChar]
  refine Agree.ite (Agree.get fun _ _ => (Agree.lift _).bind fun _ => Agree.pure _) (Agree.ite ?_ (Agree.pure _))
  refine (hself _ _).bind fun r => Agree.ite ((Agree.lift _).bind fun _ => Agree.pure _) ?_
  exact (Agree.change fun _ _ => rfl).bind fun _ => Agree.pure _

theorem readTo_agree (hself : SelfAgrees self self') (ends : Code → Bool) (n : Nat) (cs : List Code) :
    Agree (readTo self ends n cs w subErr) (readTo self' ends n cs w subErr) := by
  induction n generalizing cs w subErr with
  | zero => exact Agree.stop _
  | succ n ih =>
    rw [readTo.eq_def, readTo.eq_def self']
    rcases cs with _ | ⟨c, cs⟩
    · exact Agree.pure _
    · exact Agree.ite (Agree.pure _) ((substChar_agree hself (c :: cs)).bind fun r => ih r.1)

theorem readWord_agree (hself : SelfAgrees self self') (cs : List Code) :
    Agree (readWord self cs) (readWord self' cs) := by
  rcases cs with _ | ⟨c, cs⟩
  · exact Agree.stop _
  rw [readWord, readWord]
  refine Agree.ite (Agree.pure _) (Agree.ite ?_ (readTo_agree hself _ _ _))
  exact (readTo_agree hself _ _ _).bind fun r => Agree.pure _

theorem readWords_agree (hself : SelfAgrees self self') (n : Nat) (cs : List Code) (words : List (List Code)) :
    Agree (readWords self n cs words) (readWords self' n cs words) := by
  induction n generalizing cs words with
  | zero => exact Agree.stop _
  | succ n ih =>
    rw [readWords, readWords]
    rcases cs.dropWhile isBlank with _ | ⟨c, cs⟩
    · exact Agree.pure _
    refine Agree.ite (Agree.pure _) (Agree.ite (Agree.pure _) ((index_agree _ _).bind fun _ => ?_))
    exact (readWord_agree hself (c :: cs)).bind fun r => Agree.ite (Agree.pure _) (ih r.1 _)

theorem substitute_agree {hook hook' : List Code → Script σ (Bool × List Code)}
    (hhook : ∀ sub, Agree (hook sub) (hook' sub)) (cs acc : List Code) (err : Bool) :
    Agree (substitute State.valueOf hook cs acc err) (substitute State.valueOf hook' cs acc err) := by
  induction hm : cs.length using Nat.strong_induction_on generalizing cs acc err with
  | h m ih =>
    subst hm
    rw [substitute.eq_def, substitute.eq_def State.valueOf hook']
    rcases cs with _ | ⟨c, cs⟩
    · exact Agree.pure _
    have hshort : (bracket 1 cs).2.length < (c :: cs).length := Nat.lt_succ_of_le (length_bracket_le 1 cs)
    have hrest : (cs.dropWhile isNameCh).length < (c :: cs).length :=
      Nat.lt_succ_of_le (List.dropWhile_suffix _).length_le
    refine Agree.ite (Agree.get fun _ _ => (Agree.lift _).bind fun _ => ih _ hrest _ _ _ rfl) (Agree.ite ?_ ?_)
    · refine (hhook _).bind fun r => Agree.ite ?_ (ih _ hshort _ _ _ rfl)
      exact (Agree.lift _).bind fun _ => ih _ hshort _ _ _ rfl
    · exact ih _ (Nat.lt_succ_self _) _ _ _ rfl

theorem expression_agree (hself : SelfAgrees self self') (fresh cs : List Code) :
    Agree (expression fresh self cs) (expression fresh self' cs) := by
  refine (substitute_agree (fun sub => hself valMax (textOf sub)) (textOf cs) [] false).bind fun r => ?_
  exact Agree.lift (parse (fill fresh r.1) (2 * valMax + 2) r.2)

theorem block_agree (hself : SelfAgrees self self') (body : List Code) :
    Agree (block self body) (block self' body) := by
  refine (hself valMax (textOf body)).bind fun r => ?_
  exact (Agree.change fun _ _ => rfl).bind fun _ => Agree.pure _

theorem whileLoop_agree (hself : SelfAgrees self self') (fresh cond body : List Code) (rounds : Nat) :
    Agree (whileLoop fresh self cond body rounds) (whileLoop fresh self' cond body rounds) := by
  induction rounds with
  | zero => exact failed_agree _
  | succ r ih =>
    refine (expression_agree hself fresh cond).bind fun r => Agree.ite (failedUnlessErr_agree _) ?_
    refine Agree.ite ((setResult_agree []).bind fun _ => Agree.pure true) ?_
    exact (block_agree hself body).bind fun ok => Agree.ite (Agree.pure false) ih

end nested

/-! ## An evaluation -/

section evaluation
variable {self : Nat → List Code → Script σ (Bool × List Code)}

theorem leave_agree : Agree (leave : Script σ Unit) leave := Agree.change fun _ _ => rfl

theorem giveUp_agree (high : Nat) : Agree (giveUp high : Script σ (Bool × List Code)) (giveUp high) :=
  leave_agree.bind fun _ => Agree.get fun _ _ => Agree.pure _

/-- A command gets arguments of its own, so that the runs differ only up to the first one. -/
theorem commands_agree (hself : SelfAgrees self self) (fresh : List Code) (high n : Nat) (cs out : List Code) :
    Agree (commands fresh self high n cs out) (commands fresh self high n cs out) := by
  induction n generalizing cs out with
  | zero => exact Agree.stop _
  | succ n ih =>
    rw [commands]
    rcases cs.dropWhile isSep with _ | ⟨c, cs⟩
    · exact leave_agree.bind fun _ => Agree.pure _
    refine Agree.ite (ih _ _) ((readWords_agree hself _ _ _).bind fun r => Agree.ite (giveUp_agree high) ?_)
    exact Agree.ite (ih _ _) (Agree.setArgs (fun _ _ => rfl) _)

theorem evalRange_agree (fresh : List Code) (n : Nat) :
    SelfAgrees (evalRange fresh n : Nat → List Code → Script σ (Bool × List Code)) (evalRange fresh n) := by
  induction n with
  | zero => exact fun _ _ => Agree.stop _
  | succ n ih =>
    intro high cs
    rw [evalRange]
    refine (Agree.change fun _ _ => rfl).bind fun _ => Agree.get fun _ _ => Agree.ite ?_ (commands_agree ih _ _ _ _ _)
    exact leave_agree.bind fun _ => (fail_agree _).bind fun _ => Agree.get fun _ _ => Agree.pure _

end evaluation

/-! ## Builtins and procedures -/

section builtins
variable {self self' : Nat → List Code → Script σ (Bool × List Code)} {s : State σ}

theorem incrCmd_alike (hself : SelfAgrees self self') (fresh : List Code) (s : State σ) :
    Alike (incrCmd fresh self s) (incrCmd fresh self' s) := by
  refine Alike.get (Alike.ite (fun _ => .refl _) fun _ => Alike.arg 1 (Alike.arg 2 (Alike.get ?_)))
  refine Agree.alike ((expression_agree hself fresh _).bind fun r => Agree.ite (failedUnlessErr_agree _) ?_) s
  refine Agree.ite ((expression_agree hself fresh _).bind fun amt => ?_) (incrBy_agree _ r.2 1)
  exact Agree.ite (failedUnlessErr_agree _) (incrBy_agree _ r.2 amt.2)

theorem exprCmd_alike (hself : SelfAgrees self self') (fresh : List Code) (s : State σ) :
    Alike (exprCmd fresh self s) (exprCmd fresh self' s) := by
  refine Alike.get (Agree.alike ((expression_agree hself fresh _).bind fun r => Agree.ite ?_ ?_) s)
  · exact (setResult_agree _).bind fun _ => Agree.pure true
  · exact failedUnlessErr_agree _

theorem ifCmd_alike (hself : SelfAgrees self self') (fresh : List Code) (s : State σ) :
    Alike (ifCmd fresh self s) (ifCmd fresh self' s) := by
  refine Alike.get (Alike.ite (fun _ => .refl _) fun _ => Alike.arg 1 (Alike.arg 2 ?_))
  refine Alike.ite (fun _ => Alike.arg 3 (Agree.alike ?_ s)) fun _ =>
    Alike.ite (fun _ => Alike.arg 4 (Agree.alike ?_ s)) fun _ => Agree.alike ((Agree.pure []).bind fun blk => ?_) s
  all_goals
    refine (expression_agree hself fresh _).bind fun r => ?_
    refine Agree.ite (failedUnlessErr_agree _) ?_
    refine Agree.ite (block_agree hself _) (Agree.ite (block_agree hself _) ?_)
    exact (setResult_agree []).bind fun _ => Agree.pure true

theorem whileCmd_alike (hself : SelfAgrees self self') (fresh : List Code) (s : State σ) :
    Alike (whileCmd fresh self s) (whileCmd fresh self' s) := by
  refine Alike.get (Alike.ite (fun _ => .refl _) fun _ => Alike.arg 1 (Alike.arg 2 ?_))
  exact (whileLoop_agree hself fresh _ _ maxIters).alike s

theorem callProc_alike (hself : SelfAgrees self self') (p : UserProc) (s : State σ) :
    Alike (callProc self p s) (callProc self' p s) := by
  rw [callProc, callProc]
  refine Alike.lift _ fun parm => Alike.get ?_
  refine Agree.alike ?_ s
  refine (setVars_agree _).bind fun _ => (block_agree hself _).bind fun ok => ?_
  exact (setVars_agree _).bind fun _ => Agree.pure ok

def builtins : List (List Code) :=
  [word ['s', 'e', 't'], word ['p', 'u', 't', 's'], word ['i', 'n', 'c', 'r'], word ['e', 'x', 'p', 'r'], word ['i', 'f'],
    word ['w', 'h', 'i', 'l', 'e'], word ['p', 'r', 'o', 'c']]

/-- The name of the command in the arguments. -/
def State.command (s : State σ) : List Code := textOf (s.args.getD 0 [])

/-- A builtin and a procedure of the script have the arguments they need before the first nested evaluation. -/
theorem dispatch_alike (hself : SelfAgrees self self') (fresh : List Code)
    (hname : s.command ∈ builtins ∨ (lookup s.command s.procs).isSome) :
    Alike (dispatch fresh self s) (dispatch fresh self' s) := by
  refine Alike.get (Alike.ite (fun _ => .refl _) fun _ => Alike.arg 0 ?_)
  refine Alike.ite (fun _ => .refl _) fun hset => Alike.ite (fun _ => .refl _) fun hputs => ?_
  refine Alike.ite (fun _ => incrCmd_alike hself fresh s) fun hincr => ?_
  refine Alike.ite (fun _ => exprCmd_alike hself fresh s) fun hexpr => ?_
  refine Alike.ite (fun _ => ifCmd_alike hself fresh s) fun hif => ?_
  refine Alike.ite (fun _ => whileCmd_alike hself fresh s) fun hwhile => Alike.ite (fun _ => .refl _) fun hproc => ?_
  have hother : s.command ∉ builtins := by
    simp only [builtins, List.mem_cons, List.not_mem_nil, or_false, not_or]
    exact ⟨hset, hputs, hincr, hexpr, hif, hwhile, hproc⟩
  obtain ⟨p, hp⟩ := Option.isSome_iff_exists.1 (hname.resolve_left hother)
  refine Alike.get (Alike.arg 0 ?_)
  rw [State.command] at hp
  rw [hp]
  exact callProc_alike hself p s

/-- The nested evaluation leaves other arguments behind. -/
def changing (change : State σ → List (List Code)) (self : Nat → List Code → Script σ (Bool × List Code)) :
    Nat → List Code → Script σ (Bool × List Code) := fun high cs => do
  let r ← self high cs
  modify fun s => { s with args := change s }
  return r

theorem changing_agrees (hself : SelfAgrees self self) (change : State σ → List (List Code)) :
    SelfAgrees self (changing change self) := by
  intro high cs s args
  have h := hself high cs s args
  change Alike _ ((self high cs _).bind fun r => .ok (r.1, { r.2 with args := change r.2 }))
  generalize self high cs s = r at h ⊢
  generalize self high cs { s with args := args } = r' at h
  cases h with
  | stopped e => exact .stopped e
  | ends a s₁ args₁ => exact .ends a s₁ _

end builtins

end NewM2.Ui.Ptcl
