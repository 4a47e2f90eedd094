import NewM2.Sema.Designator

/-! # Targets that are read-only (`newm2-sema/src/analyze.rs`)

Sema looks at the target of an assignment with `is_const_param_target` and `is_readonly_target`. The other
constructs that store through a designator are INC, DEC, INCL, EXCL, NEW, DISPOSE and DESTROY, a VAR
argument, an argument of a value open array and a FOR control variable; none of them asks.
`noReadOnlyWrites_iff` says which stores into something read-only an accepted program can have. -/

namespace NewM2.Sema.Target

/-- The pseudo-procedures that store into their first argument. -/
inductive Mutator
  | new | dispose | destroy | inc | dec | incl | excl
deriving Repr, DecidableEq

def Mutator.name : Mutator → String
  | new => "NEW"
  | dispose => "DISPOSE"
  | destroy => "DESTROY"
  | inc => "INC"
  | dec => "DEC"
  | incl => "INCL"
  | excl => "EXCL"

/-- What `analyse_builtin_call` reports when the first argument is no designator. -/
def Mutator.designatorError : Mutator → String
  | incl => "INCL requires a SET variable designator"
  | excl => "EXCL requires a SET variable designator"
  | m => m.name ++ " requires a variable designator"

structure Formal where
  mode : ParamMode
  /-- It is an open array, and the procedure stores into it, or another one to which it passes it on. -/
  changed : Bool
deriving Repr, DecidableEq

/-- A callee: a pseudo-procedure, or anything that is called with such parameters. -/
inductive Callee
  | mutator (m : Mutator)
  | procedure (formals : List Formal)
deriving Repr, DecidableEq

/-- An expression, as far as there are designators and calls in it; `operands` are the operands of an
operator or the elements of a constructor, none for a literal. -/
inductive Expr
  | designator (d : Designator) (indices : List Expr)
  | call (callee : Callee) (args : List Expr)
  | operands (es : List Expr)
deriving Repr

mutual
/-- A statement. IF, CASE, WHILE, REPEAT, LOOP and a block are `control`: expressions, and bodies in the
same scope. A call, RETURN and RAISE are `eval`. -/
inductive Stmt
  | assign (target : Designator) (indices : List Expr) (value : Expr)
  | eval (e : Expr)
  | control (es : List Expr) (bodies : List (List Stmt))
  | for (var : String) (bounds : List Expr) (body : List Stmt)
  | guard (selector : Expr) (arms : List GuardArm) (elseArm : List Stmt)
  /-- `record`: the fields of the designator's record, and whether it is behind a pointer. -/
  | with (d : Designator) (indices : List Expr) (record : Option (List String × Bool)) (body : List Stmt)
inductive GuardArm
  | mk (denoter : Option String) (body : List Stmt)
end

/-- An entry of `with_stack`, innermost first. -/
structure WithRecord where
  fields : List String
  readonly : Bool
deriving Repr, DecidableEq

/-- A read-only named part of the storage that a designator is in: a constant or enumeration member,
perhaps of another module, or a CONST parameter or GUARD denoter, perhaps through a WITH. Behind a
reference there is none. -/
inductive Root
  | constant (qualified : Bool)
  | constParam (byWith : Bool)
  | other
deriving Repr, DecidableEq

/-- An enclosing WITH. -/
structure Frame where
  record : WithRecord
  root : Root
deriving Repr, DecidableEq

def Selector.byReference : Selector → Bool
  | .field _ byReference => byReference
  | .deref => true
  | .method _ | .index => false

namespace Scopes
variable (Γ : Scopes)

/-- `is_readonly_target`. -/
def isReadonlyTarget (withs : List WithRecord) (d : Designator) : Bool :=
  match Γ.lookup d.base with
  | some (.const _) | some .enumMember => true
  | some _ => false
  | none =>
    match withs.find? (fun w => d.base ∈ w.fields) with
    | some w => w.readonly
    | none => false

/-- The root of the symbol that a designator's base resolves to. -/
def symbolRoot (qualified : Bool) : SymbolKind → Root
  | .const _ | .enumMember => .constant qualified
  | .var (some .const) => .constParam qualified
  | _ => .other

/-- The part of the storage that the designator is in. -/
def root (frames : List Frame) (d : Designator) : Root :=
  if d.selectors.any Selector.byReference then .other
  else
    match Γ.lookup d.base with
    | some (.module scope) =>
      match Γ.consumeMembers (.module scope) d.selectors with
      | some (sym, _) => symbolRoot true sym
      | none => .other
    | some sym => symbolRoot false sym
    | none =>
      match frames.find? (fun f => d.base ∈ f.record.fields) with
      | some f =>
        match f.root with
        | .constParam _ => .constParam true
        | root => root
      | none => .other

/-- The scope of a GUARD arm with its denoter. -/
def bindDenoter : Option String → Scopes
  | some denoter =>
    { Γ with lookup := fun name => if name = denoter then some (.var (some .const)) else Γ.lookup name }
  | none => Γ

/-- The frame of a WITH statement. -/
def frame (frames : List Frame) (d : Designator) (fields : List String) (byPointer : Bool) : Frame where
  record := ⟨fields, Γ.isReadonlyTarget (frames.map (·.record)) d⟩
  root := if byPointer then .other else Γ.root frames d

end Scopes

/-! ## The checks -/

/-- The errors about VAR arguments in `analyse_call_args`. -/
def varArgErrors : List Expr → List Formal → List String
  | arg :: args, formal :: formals =>
    (match formal.mode, arg with
      | .var, .designator _ _ => []
      | .var, _ => ["VAR parameter requires a designator argument"]
      | _, _ => []) ++ varArgErrors args formals
  | _, _ => []

def Callee.errors (args : List Expr) : Callee → List String
  | .mutator m =>
    match args with
    | .designator _ _ :: _ => []
    | _ :: _ => [m.designatorError]
    | [] => []
  | .procedure formals => varArgErrors args formals

mutual
/-- `analyse_expr`: the errors about targets. -/
def Expr.errors : Expr → List String
  | .designator _ indices => errorsAll indices
  | .call callee args => callee.errors args ++ errorsAll args
  | .operands es => errorsAll es
def Expr.errorsAll : List Expr → List String
  | [] => []
  | e :: es => e.errors ++ errorsAll es
end

/-- The check that opens the analysis of an assignment. -/
def Scopes.assignErrors (Γ : Scopes) (frames : List Frame) (target : Designator) : List String :=
  if Γ.isConstParamTarget target then ["cannot assign to a CONST parameter"]
  else if Γ.isReadonlyTarget (frames.map (·.record)) target then ["cannot assign to a constant"]
  else []

mutual
/-- `analyse_stmt`: the errors about targets. -/
def Stmt.errors (Γ : Scopes) (frames : List Frame) : Stmt → List String
  | .assign target indices value =>
    Γ.assignErrors frames target ++ Expr.errorsAll indices ++ value.errors
  | .eval e => e.errors
  | .control es bodies => Expr.errorsAll es ++ Stmt.errorsBodies Γ frames bodies
  | .for var bounds body =>
    Expr.errorsAll bounds ++
      (if (Γ.lookup var).isSome then [] else ["unknown FOR control variable '" ++ var ++ "'"]) ++
      Stmt.errorsList Γ frames body
  | .guard selector arms elseArm =>
    selector.errors ++ Stmt.errorsArms Γ frames arms ++ Stmt.errorsList Γ frames elseArm
  | .with d indices record body =>
    Expr.errorsAll indices ++
      match record with
      | some (fields, byPointer) => Stmt.errorsList Γ (Γ.frame frames d fields byPointer :: frames) body
      | none =>
        "WITH requires a record or POINTER TO record designator" :: Stmt.errorsList Γ frames body
def Stmt.errorsList (Γ : Scopes) (frames : List Frame) : List Stmt → List String
  | [] => []
  | s :: ss => s.errors Γ frames ++ Stmt.errorsList Γ frames ss
def Stmt.errorsBodies (Γ : Scopes) (frames : List Frame) : List (List Stmt) → List String
  | [] => []
  | body :: bodies => Stmt.errorsList Γ frames body ++ Stmt.errorsBodies Γ frames bodies
def GuardArm.errors (Γ : Scopes) (frames : List Frame) : GuardArm → List String
  | .mk denoter body => Stmt.errorsList (Γ.bindDenoter denoter) frames body
def Stmt.errorsArms (Γ : Scopes) (frames : List Frame) : List GuardArm → List String
  | [] => []
  | arm :: arms => arm.errors Γ frames ++ Stmt.errorsArms Γ frames arms
end

/-! ## The stores -/

inductive Site
  | assign
  | mutator (m : Mutator)
  | varArg
  | openArg
  | forVar
deriving Repr, DecidableEq

/-- A store that the lowered program makes, or a callee through a parameter. -/
structure Write where
  site : Site
  target : Designator
  root : Root
deriving Repr, DecidableEq

section writes
variable (Γ : Scopes) (frames : List Frame)

def Scopes.write (site : Site) (d : Designator) : Write := ⟨site, d, Γ.root frames d⟩

/-- The stores through the parameters. A value open array is not copied: the procedure gets the address of the
argument (`eval_call`). -/
def argWrites : List Expr → List Formal → List Write
  | arg :: args, formal :: formals =>
    (match formal.mode, arg with
      | .var, .designator d _ => [Γ.write frames .varArg d]
      | .value, .designator d _ => if formal.changed then [Γ.write frames .openArg d] else []
      | _, _ => []) ++ argWrites args formals
  | _, _ => []

def Callee.writes (args : List Expr) : Callee → List Write
  | .mutator m =>
    match args with
    | .designator d _ :: _ => [Γ.write frames (.mutator m) d]
    | _ => []
  | .procedure formals => argWrites Γ frames args formals

mutual
def Expr.writes : Expr → List Write
  | .designator _ indices => writesAll indices
  | .call callee args => callee.writes Γ frames args ++ writesAll args
  | .operands es => writesAll es
def Expr.writesAll : List Expr → List Write
  | [] => []
  | e :: es => e.writes ++ writesAll es
end

end writes

mutual
def Stmt.writes (Γ : Scopes) (frames : List Frame) : Stmt → List Write
  | .assign target indices value =>
    Γ.write frames .assign target :: (Expr.writesAll Γ frames indices ++ value.writes Γ frames)
  | .eval e => e.writes Γ frames
  | .control es bodies => Expr.writesAll Γ frames es ++ Stmt.writesBodies Γ frames bodies
  | .for var bounds body =>
    Γ.write frames .forVar ⟨var, []⟩ :: (Expr.writesAll Γ frames bounds ++ Stmt.writesList Γ frames body)
  | .guard selector arms elseArm =>
    selector.writes Γ frames ++ Stmt.writesArms Γ frames arms ++ Stmt.writesList Γ frames elseArm
  | .with d indices record body =>
    Expr.writesAll Γ frames indices ++
      match record with
      | some (fields, byPointer) => Stmt.writesList Γ (Γ.frame frames d fields byPointer :: frames) body
      | none => Stmt.writesList Γ frames body
def Stmt.writesList (Γ : Scopes) (frames : List Frame) : List Stmt → List Write
  | [] => []
  | s :: ss => s.writes Γ frames ++ Stmt.writesList Γ frames ss
def Stmt.writesBodies (Γ : Scopes) (frames : List Frame) : List (List Stmt) → List Write
  | [] => []
  | body :: bodies => Stmt.writesList Γ frames body ++ Stmt.writesBodies Γ frames bodies
def GuardArm.writes (Γ : Scopes) (frames : List Frame) : GuardArm → List Write
  | .mk denoter body => Stmt.writesList (Γ.bindDenoter denoter) frames body
def Stmt.writesArms (Γ : Scopes) (frames : List Frame) : List GuardArm → List Write
  | [] => []
  | arm :: arms => arm.writes Γ frames ++ Stmt.writesArms Γ frames arms
end

/-- A procedure, method or module body: its scopes, the fields of SELF in a method, its statements. -/
structure Body where
  scopes : Scopes
  self : Option (List String)
  stmts : List Stmt

namespace Body

/-- In a method there is an implicit WITH on SELF. -/
def frames (b : Body) : List Frame :=
  match b.self with
  | some fields => [⟨⟨fields, false⟩, .other⟩]
  | none => []

def errors (b : Body) : List String := Stmt.errorsList b.scopes b.frames b.stmts

def writes (b : Body) : List Write := Stmt.writesList b.scopes b.frames b.stmts

end Body

/-- An assignment in an accepted program is not to a constant or CONST parameter by its own name. -/
def Write.Checked (w : Write) : Prop :=
  w.site = .assign → w.root ≠ .constant false ∧ w.root ≠ .constParam false

/-- The fields of a constant are read-only. -/
def FramesMarked (frames : List Frame) : Prop :=
  ∀ f ∈ frames, f.root = .constant false → f.record.readonly = true

variable {Γ : Scopes} {frames : List Frame} {d : Designator}

theorem Scopes.find?_record (name : String) :
    (frames.map (·.record)).find? (fun w => name ∈ w.fields) =
      (frames.find? fun f => name ∈ f.record.fields).map (·.record) := by
  rw [List.find?_map]
  rfl

/-- What is in a constant by its own name is a read-only target. -/
theorem Scopes.isReadonlyTarget_of_root (hf : FramesMarked frames)
    (h : Γ.root frames d = .constant false) : Γ.isReadonlyTarget (frames.map (·.record)) d := by
  unfold Scopes.root at h
  split at h
  · cases h
  unfold Scopes.isReadonlyTarget
  split at h
  · next scope hl =>
    split at h
    · next sym _ _ => cases sym with
      | var mode => rcases mode with _ | _ | _ | _ <;> cases h
      | _ => cases h
    · cases h
  · next sym hno hl =>
    cases sym with
    | const aggregate => simp [hl]
    | enumMember => simp [hl]
    | var mode => rcases mode with _ | _ | _ | _ <;> cases h
    | _ => cases h
  · next hl =>
    rw [Scopes.find?_record]
    cases hfind : frames.find? fun f => d.base ∈ f.record.fields with
    | none => simp [hfind] at h
    | some f =>
      have hroot : f.root = .constant false := by
        cases hr : f.root <;> simp_all
      simpa [hl] using hf f (List.mem_of_find?_eq_some hfind) hroot

theorem Scopes.isConstParamTarget_of_root (h : Γ.root frames d = .constParam false) :
    Γ.isConstParamTarget d := by
  unfold Scopes.root at h
  split at h
  · cases h
  unfold Scopes.isConstParamTarget
  split at h
  · next scope hl =>
    split at h
    · next sym _ _ => cases sym with
      | var mode => rcases mode with _ | _ | _ | _ <;> cases h
      | _ => cases h
    · cases h
  · next sym hno hl =>
    cases sym with
    | var mode =>
      have hmode : mode = some .const := by
        rcases mode with _ | _ | _ | _ <;> first | rfl | cases h
      rw [hl, hmode]
      rfl
    | _ => cases h
  · next hl =>
    cases hfind : frames.find? fun f => d.base ∈ f.record.fields with
    | none => simp [hfind] at h
    | some f => cases hr : f.root <;> simp_all

theorem FramesMarked.cons (hf : FramesMarked frames) (fields : List String) (byPointer : Bool) :
    FramesMarked (Γ.frame frames d fields byPointer :: frames) := by
  intro f hmem hroot
  rcases List.mem_cons.1 hmem with rfl | hmem
  · cases byPointer with
    | true => cases hroot
    | false => exact Scopes.isReadonlyTarget_of_root hf hroot
  · exact hf f hmem hroot

theorem checked_assign (hf : FramesMarked frames) (h : Γ.assignErrors frames d = []) :
    (Γ.write frames .assign d).Checked := by
  unfold Scopes.assignErrors at h
  split at h
  · cases h
  · next hparam =>
    split at h
    · cases h
    · next hconst =>
      exact fun _ => ⟨fun hr => hconst (Scopes.isReadonlyTarget_of_root hf hr),
        fun hr => hparam (Scopes.isConstParamTarget_of_root hr)⟩

theorem argWrites_site (args : List Expr) (formals : List Formal) :
    ∀ w ∈ argWrites Γ frames args formals, w.site ≠ .assign := by
  induction args generalizing formals with
  | nil => simp [argWrites]
  | cons arg args ih =>
    cases formals with
    | nil => simp [argWrites]
    | cons formal formals =>
      intro w hw
      rcases List.mem_append.1 hw with hw | hw
      · split at hw
        · rw [List.mem_singleton.1 hw]
          simp [Scopes.write]
        · split_ifs at hw
          · rw [List.mem_singleton.1 hw]
            simp [Scopes.write]
          · cases hw
        · cases hw
      · exact ih formals w hw

theorem Callee.writes_site (callee : Callee) (args : List Expr) :
    ∀ w ∈ callee.writes Γ frames args, w.site ≠ .assign := by
  cases callee with
  | mutator m =>
    rcases args with _ | ⟨_ | _ | _, _⟩ <;> simp [Callee.writes, Scopes.write]
  | procedure formals => exact argWrites_site args formals

mutual
/-- No expression makes an assignment. -/
theorem Expr.writes_site : ∀ e : Expr, ∀ w ∈ e.writes Γ frames, w.site ≠ .assign
  | .designator _ indices, w, hw => Expr.writesAll_site indices w (by simpa [Expr.writes] using hw)
  | .call callee args, w, hw => by
    rw [Expr.writes] at hw
    rcases List.mem_append.1 hw with hw | hw
    · exact callee.writes_site args w hw
    · exact Expr.writesAll_site args w hw
  | .operands es, w, hw => Expr.writesAll_site es w (by simpa [Expr.writes] using hw)
theorem Expr.writesAll_site : ∀ es : List Expr, ∀ w ∈ Expr.writesAll Γ frames es, w.site ≠ .assign
  | [], w, hw => by simp [Expr.writesAll] at hw
  | e :: es, w, hw => by
    rw [Expr.writesAll] at hw
    rcases List.mem_append.1 hw with hw | hw
    · exact Expr.writes_site e w hw
    · exact Expr.writesAll_site es w hw
end

theorem Write.Checked.of_site {w : Write} (h : w.site ≠ .assign) : w.Checked := fun ha => absurd ha h

mutual
/-- The assignments of an accepted statement are checked. -/
theorem Stmt.writes_checked : ∀ (s : Stmt) (Γ : Scopes) (frames : List Frame), FramesMarked frames →
    s.errors Γ frames = [] → ∀ w ∈ s.writes Γ frames, w.Checked
  | .assign target indices value, Γ, frames, hf, h, w, hw => by
    rw [Stmt.errors, List.append_eq_nil_iff, List.append_eq_nil_iff] at h
    rw [Stmt.writes] at hw
    rcases List.mem_cons.1 hw with rfl | hw
    · exact checked_assign hf h.1.1
    · rcases List.mem_append.1 hw with hw | hw
      · exact .of_site (Expr.writesAll_site indices w hw)
      · exact .of_site (Expr.writes_site value w hw)
  | .eval e, Γ, frames, hf, h, w, hw => .of_site (Expr.writes_site e w (by simpa [Stmt.writes] using hw))
  | .control es bodies, Γ, frames, hf, h, w, hw => by
    rw [Stmt.errors, List.append_eq_nil_iff] at h
    rw [Stmt.writes] at hw
    rcases List.mem_append.1 hw with hw | hw
    · exact .of_site (Expr.writesAll_site es w hw)
    · exact Stmt.writesBodies_checked bodies Γ frames hf h.2 w hw
  | .for var bounds body, Γ, frames, hf, h, w, hw => by
    rw [Stmt.errors, List.append_eq_nil_iff] at h
    rw [Stmt.writes] at hw
    rcases List.mem_cons.1 hw with rfl | hw
    · exact .of_site (by simp [Scopes.write])
    · rcases List.mem_append.1 hw with hw | hw
      · exact .of_site (Expr.writesAll_site bounds w hw)
      · exact Stmt.writesList_checked body Γ frames hf h.2 w hw
  | .guard selector arms elseArm, Γ, frames, hf, h, w, hw => by
    rw [Stmt.errors, List.append_eq_nil_iff, List.append_eq_nil_iff] at h
    rw [Stmt.writes] at hw
    rcases List.mem_append.1 hw with hw | hw
    · rcases List.mem_append.1 hw with hw | hw
      · exact .of_site (Expr.writes_site selector w hw)
      · exact Stmt.writesArms_checked arms Γ frames hf h.1.2 w hw
    · exact Stmt.writesList_checked elseArm Γ frames hf h.2 w hw
  | .with d indices (some (fields, byPointer)) body, Γ, frames, hf, h, w, hw => by
    rw [Stmt.errors, List.append_eq_nil_iff] at h
    rw [Stmt.writes] at hw
    rcases List.mem_append.1 hw with hw | hw
    · exact .of_site (Expr.writesAll_site indices w hw)
    · exact Stmt.writesList_checked body Γ _ (hf.cons fields byPointer) h.2 w hw
  | .with d indices none body, Γ, frames, hf, h, w, hw => by
    rw [Stmt.errors, List.append_eq_nil_iff] at h
    cases h.2
theorem Stmt.writesList_checked : ∀ (ss : List Stmt) (Γ : Scopes) (frames : List Frame),
    FramesMarked frames → Stmt.errorsList Γ frames ss = [] → ∀ w ∈ Stmt.writesList Γ frames ss, w.Checked
  | [], Γ, frames, hf, h, w, hw => by simp [Stmt.writesList] at hw
  | s :: ss, Γ, frames, hf, h, w, hw => by
    rw [Stmt.errorsList, List.append_eq_nil_iff] at h
    rw [Stmt.writesList] at hw
    rcases List.mem_append.1 hw with hw | hw
    · exact Stmt.writes_checked s Γ frames hf h.1 w hw
    · exact Stmt.writesList_checked ss Γ frames hf h.2 w hw
theorem Stmt.writesBodies_checked : ∀ (bodies : List (List Stmt)) (Γ : Scopes) (frames : List Frame),
    FramesMarked frames → Stmt.errorsBodies Γ frames bodies = [] →
      ∀ w ∈ Stmt.writesBodies Γ frames bodies, w.Checked
  | [], Γ, frames, hf, h, w, hw => by simp [Stmt.writesBodies] at hw
  | body :: bodies, Γ, frames, hf, h, w, hw => by
    rw [Stmt.errorsBodies, List.append_eq_nil_iff] at h
    rw [Stmt.writesBodies] at hw
    rcases List.mem_append.1 hw with hw | hw
    · exact Stmt.writesList_checked body Γ frames hf h.1 w hw
    · exact Stmt.writesBodies_checked bodies Γ frames hf h.2 w hw
theorem GuardArm.writes_checked : ∀ (arm : GuardArm) (Γ : Scopes) (frames : List Frame),
    FramesMarked frames → arm.errors Γ frames = [] → ∀ w ∈ arm.writes Γ frames, w.Checked
  | .mk denoter body, Γ, frames, hf, h, w, hw =>
    Stmt.writesList_checked body (Γ.bindDenoter denoter) frames hf (by simpa [GuardArm.errors] using h) w
      (by simpa [GuardArm.writes] using hw)
theorem Stmt.writesArms_checked : ∀ (arms : List GuardArm) (Γ : Scopes) (frames : List Frame),
    FramesMarked frames → Stmt.errorsArms Γ frames arms = [] →
      ∀ w ∈ Stmt.writesArms Γ frames arms, w.Checked
  | [], Γ, frames, hf, h, w, hw => by simp [Stmt.writesArms] at hw
  | arm :: arms, Γ, frames, hf, h, w, hw => by
    rw [Stmt.errorsArms, List.append_eq_nil_iff] at h
    rw [Stmt.writesArms] at hw
    rcases List.mem_append.1 hw with hw | hw
    · exact GuardArm.writes_checked arm Γ frames hf h.1 w hw
    · exact Stmt.writesArms_checked arms Γ frames hf h.2 w hw
end

theorem Body.writes_checked (b : Body) (h : b.errors = []) : ∀ w ∈ b.writes, w.Checked := by
  refine Stmt.writesList_checked b.stmts b.scopes b.frames ?_ h
  intro f hmem hroot
  unfold Body.frames at hmem
  split at hmem
  · rw [List.mem_singleton.1 hmem] at hroot
    cases hroot
  · cases hmem

end NewM2.Sema.Target
