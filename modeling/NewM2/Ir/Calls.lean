import Mathlib

/-! # What a call is lowered to (`newm2-ir/src/lower.rs`, `newm2-sema/src/analyze.rs`)

`eval_call` and the statement lowering try some twenty expansions of built-in procedures, each of which
looks at the spelling of the callee, before they ask which procedure the name denotes.
`faithful_iff` says for which calls that gives what the name resolves to. -/

namespace NewM2.Ir.Calls

/-! ## Names -/

/-- The last three are only told apart from a field here. -/
inductive Selector
  | field (name : String)
  | index | deref | typeGuard
deriving Repr, DecidableEq

structure Designator where
  base : String
  selectors : List Selector
deriving Repr, DecidableEq

/-- `SymbolProvenance`: for an import, the module and the name of the original declaration. -/
inductive Provenance
  | pervasive
  | declared (module : String)
  | imported (originalModule : Option String) (originalName : String)
  | intrinsic (module : String)
deriving Repr, DecidableEq

/-- `SymbolKind`; a procedure with its external link name, a module with its scope. -/
inductive SymbolKind
  | proc (link : Option String)
  | module (scope : Nat)
  | type
  | other
deriving Repr, DecidableEq

structure Symbol where
  name : String
  kind : SymbolKind
  provenance : Provenance
deriving Repr, DecidableEq

def intrinsicModules : List String := ["SYSTEM", "COROUTINES"]

/-- What names mean at a call: `lookup` goes through the enclosing scopes, `member` is a scope of a
module, `moduleProc` the procedures of a module of the graph with their link names. -/
structure Names where
  lookup : String → Option Symbol
  member : Nat → String → Option Symbol
  moduleProc : String → String → Option (Option String)
  lookup_name : ∀ n sym, lookup n = some sym → sym.name = n
  member_name : ∀ scope n sym, member scope n = some sym → sym.name = n
  intrinsic_link : ∀ m ∈ intrinsicModules, ∀ n, (moduleProc m n).join = none

/-- A procedure declared in a module. -/
structure Proc where
  module : String
  name : String
  link : Option String
  notIntrinsic : module ∉ intrinsicModules
deriving DecidableEq

/-- The symbol under which a procedure is emitted: its link name if it is EXTERNAL, else the name
qualified by the module. -/
def Proc.symbol (p : Proc) : List String := p.link.elim [p.module, p.name] ([·])

def Symbol.isProc (sym : Symbol) : Bool :=
  match sym.kind with
  | .proc _ => true
  | _ => false

/-- The name of a procedure by its provenance, `fallback` if it has no module. -/
def Symbol.qualify (sym : Symbol) (base : String) (fallback : List String) : List String :=
  match sym.provenance with
  | .declared m => [m, base]
  | .imported (some m) original => [m, original]
  | _ => fallback

/-- What the callee of a call is. -/
inductive Entity
  | builtin (name : String)
  | proc (p : Proc)
  | type | method | other
deriving DecidableEq

def entityIn (module name : String) (link : Option String) : Entity :=
  if h : module ∈ intrinsicModules then .builtin name else .proc ⟨module, name, link, h⟩

def Symbol.entity (sym : Symbol) : Entity :=
  match sym.kind with
  | .proc link =>
    match sym.provenance with
    | .pervasive | .intrinsic _ => .builtin sym.name
    | .declared m => entityIn m sym.name link
    | .imported (some m) original => entityIn m original link
    | .imported none original => .builtin original
  | .type => .type
  | _ => .other

/-- `resolve_designator_head`: go through modules as far as the selectors name members; what is left of
the selectors. -/
def Names.head (N : Names) (sym : Symbol) : List Selector → Option (Symbol × List Selector)
  | .field n :: rest =>
    match sym.kind with
    | .module scope =>
      match N.member scope n with
      | some next => N.head next rest
      | none => none
    | _ => some (sym, .field n :: rest)
  | sels => some (sym, sels)

/-! ## Calls -/

/-- The form of an argument. -/
inductive ArgForm
  | designator | string | char | other
deriving Repr, DecidableEq

/-- An argument, with what the expansions ask sema about it. -/
structure Arg where
  form : ArgForm
  /-- `expr_type` of the argument is there. -/
  typed : Bool
  /-- `resolve_size_type` finds a type. -/
  sized : Bool
  /-- `lower_min_max_builtin` finds a type. -/
  bounded : Bool
  /-- It is a SIMD vector. -/
  vector : Bool
  /-- `ismember_class_of` finds a class. -/
  ofClass : Bool
  /-- `class_instance_info` or `sema_var_type` finds what NEW allocates. -/
  newable : Bool
deriving Repr, DecidableEq

/-- A call in an expression, a call with parentheses as a statement, a bare name as a statement. -/
inductive Form
  | expr | stmt | bareStmt
deriving Repr, DecidableEq

structure CallSite where
  form : Form
  names : Names
  callee : Designator
  args : List Arg
  /-- The last selector is bound to a method of a class. -/
  methodTail : Bool
  /-- `classify_transfer_cast` knows the conversion of VAL or CAST at this call. -/
  transferable : Bool
  /-- It knows the conversion to the type that the callee names. -/
  convertible : Bool

namespace CallSite
variable (s : CallSite)

/-- What the callee resolves to. -/
def entity : Entity :=
  let unresolved := if s.methodTail && !s.callee.selectors.isEmpty then Entity.method else .other
  match s.names.lookup s.callee.base with
  | none => unresolved
  | some sym =>
    match s.names.head sym s.callee.selectors with
    | some (sym, []) => sym.entity
    | _ => unresolved

def arg (i : Nat) (p : Arg → Bool) : Bool := s.args[i]?.any p

def isDesignator (a : Arg) : Bool := a.form == .designator

end CallSite

/-! ## Expansions -/

/-- Where an expansion reads the name: an unqualified callee, one qualified by SYSTEM at most, or
whatever comes last. -/
inductive Position
  | bare | system | last
deriving Repr, DecidableEq

def Position.name (pos : Position) (d : Designator) : Option String :=
  match pos with
  | .bare => if d.selectors = [] then some d.base else none
  | .system =>
    match d.selectors with
    | [] => some d.base
    | [.field n] => if d.base = "SYSTEM" then some n else none
    | _ => none
  | .last =>
    match d.selectors.getLast? with
    | none => some d.base
    | some (.field n) => some n
    | _ => none

/-- An expansion of some built-ins: their names, and the calls of that name it takes. -/
structure Expansion where
  position : Position
  builtins : List String
  takes : CallSite → String → Bool

/-- The built-in that is expanded. -/
def Expansion.expand (e : Expansion) (s : CallSite) : Option String :=
  (e.position.name s.callee).filter fun n => e.builtins.contains n && e.takes s n

open CallSite (isDesignator)

def newBuiltin : Expansion :=
  ⟨.bare, ["NEW"], fun s _ => s.args.length == 1 && s.arg 0 fun a => isDesignator a && a.newable⟩

def lowerIncDecDispose : Expansion :=
  ⟨.bare, ["INC", "DEC", "INCL", "EXCL", "DISPOSE", "DESTROY"], fun s n =>
    s.arg 0 isDesignator && (!(["INCL", "EXCL"].contains n) || 2 ≤ s.args.length)⟩

def lowerAssertHalt : Expansion :=
  ⟨.bare, ["ASSERT", "HALT"], fun s n => n == "HALT" || !s.args.isEmpty⟩

def lowerCoroutineBuiltin : Expansion :=
  ⟨.last, ["NEWPROCESS", "NEWCOROUTINE", "CURRENT", "TRANSFER"], fun s n =>
    if n = "CURRENT" then s.args.isEmpty
    else if n = "TRANSFER" then s.args.length == 2 && s.arg 0 isDesignator
    else s.args.length == 4 || s.args.length == 5⟩

def lowerSizeBuiltin : Expansion :=
  ⟨.last, ["SIZE", "TSIZE", "TBITSIZE"], fun s _ =>
    s.args.length == 1 && s.arg 0 fun a => isDesignator a && a.sized⟩

def lowerShiftRotateBuiltin : Expansion :=
  ⟨.last, ["SHIFT", "ROTATE"], fun s _ => s.args.length == 2⟩

def lowerAdrBuiltin : Expansion :=
  ⟨.last, ["ADR"], fun s _ =>
    s.args.length == 1 && s.arg 0 fun a => a.form != .other || a.typed⟩

def lowerSystemAddrBuiltin : Expansion :=
  ⟨.last, ["ADDADR", "SUBADR", "DIFADR", "MAKEADR"], fun s n =>
    if n = "MAKEADR" then !s.args.isEmpty else s.args.length == 2⟩

def lowerThrowBuiltin : Expansion := ⟨.last, ["THROW"], fun s _ => s.args.length == 1⟩

def lowerTransferBuiltin : Expansion :=
  ⟨.system, ["VAL", "CAST"], fun s _ => s.args.length == 2 && s.transferable⟩

def lowerMinMaxBuiltin : Expansion :=
  ⟨.bare, ["MAX", "MIN"], fun s _ =>
    s.args.length == 1 && s.arg 0 fun a => isDesignator a && a.bounded⟩

def lowerHighLenBuiltin : Expansion :=
  ⟨.bare, ["HIGH", "LEN"], fun s _ => s.args.length == 1 && s.arg 0 isDesignator⟩

def lowerLengthBuiltin : Expansion := ⟨.bare, ["LENGTH"], fun s _ => s.args.length == 1⟩

/-- SUM, DOT and FMA fall through unless the first argument is a vector. -/
def lowerAbsIntBuiltin : Expansion :=
  ⟨.bare, ["ABS", "SUM", "DOT", "FMA", "INT", "ENTIER", "TRUNC", "FLOAT", "LFLOAT"], fun s n =>
    1 ≤ s.args.length && s.args.length ≤ 3 &&
      (!(["SUM", "DOT", "FMA"].contains n) || s.arg 0 (·.vector))⟩

def lowerOrdChrBuiltin : Expansion :=
  ⟨.bare, ["CAP", "ORD", "CHR"], fun s _ => s.args.length == 1⟩

def lowerOddBuiltin : Expansion := ⟨.bare, ["ODD"], fun s _ => s.args.length == 1⟩

def lowerIsmemberBuiltin : Expansion :=
  ⟨.bare, ["ISMEMBER"], fun s _ => s.args.length == 2 && s.arg 0 (·.ofClass) && s.arg 1 (·.ofClass)⟩

def lowerHresultTestBuiltin : Expansion :=
  ⟨.bare, ["FAILED", "SUCCEEDED"], fun s _ => s.args.length == 1⟩

def lowerCmplxBuiltin : Expansion := ⟨.bare, ["CMPLX"], fun s _ => s.args.length == 2⟩

def lowerReImBuiltin : Expansion := ⟨.bare, ["RE", "IM"], fun s _ => s.args.length == 1⟩

/-- What the statement lowering tries before `eval_call`. -/
def statementExpansions : Form → List Expansion
  | .expr => []
  | .stmt => [newBuiltin, lowerIncDecDispose, lowerAssertHalt]
  | .bareStmt => [lowerAssertHalt]

/-- The chain of `eval_call`. -/
def callExpansions : Form → List Expansion
  | .bareStmt => []
  | _ => [lowerCoroutineBuiltin, lowerSizeBuiltin, lowerShiftRotateBuiltin, lowerAdrBuiltin,
      lowerSystemAddrBuiltin, lowerThrowBuiltin, lowerTransferBuiltin, lowerMinMaxBuiltin,
      lowerHighLenBuiltin, lowerLengthBuiltin, lowerAbsIntBuiltin, lowerOrdChrBuiltin,
      lowerOddBuiltin, lowerIsmemberBuiltin, lowerHresultTestBuiltin, lowerCmplxBuiltin,
      lowerReImBuiltin]

/-- The built-ins that are expanded somewhere. -/
def expanded : List String :=
  (statementExpansions .stmt ++ callExpansions .stmt).flatMap (·.builtins)

/-! ## Lowering -/

/-- The names that `analyse_builtin_call` of sema takes by spelling. -/
def semaBuiltins : List String :=
  ["VAL", "CAST", "ISMEMBER", "NEW", "DISPOSE", "DESTROY", "THROW", "INC", "DEC", "INCL", "EXCL",
    "HALT", "ASSERT", "NEWPROCESS", "TRANSFER", "NEWCOROUTINE", "CURRENT", "SHIFT", "ROTATE", "ADR",
    "ADDADR", "SUBADR", "DIFADR", "MAKEADR", "ORD", "CHR", "CAP", "ODD", "SUCCEEDED", "FAILED",
    "FLOAT", "LFLOAT", "TRUNC", "INT", "ENTIER", "HIGH", "LEN", "LENGTH", "RE", "IM", "CMPLX", "ABS",
    "SIZE", "TSIZE", "TBITSIZE", "MIN", "MAX", "SUM", "DOT", "FMA"]

/-- The names that `is_unimplemented_coroutine_call` rejects behind the module's name. -/
def unimplemented (module : String) : List String :=
  if module = "SYSTEM" then ["IOTRANSFER", "GetCurrentCoroutineId"]
  else ["IOTRANSFER", "ATTACH", "DETACH", "IsATTACHED", "HANDLER", "LISTEN", "PROT", "COROUTINEDONE"]

namespace CallSite
variable (s : CallSite)

/-- Sema takes the call before it resolves the callee, so nothing is recorded about its name. -/
def intercepted : Bool :=
  s.form != .bareStmt &&
    match s.callee.selectors with
    | [] => semaBuiltins.contains s.callee.base
    | [.field n] =>
      intrinsicModules.contains s.callee.base &&
        (semaBuiltins.contains n || (unimplemented s.callee.base).contains n)
    | _ => false

/-- What sema has recorded at the designator. -/
def recorded : Option Symbol :=
  if s.intercepted then none
  else
    match (s.names.lookup s.callee.base).bind (s.names.head · s.callee.selectors) with
    | some (sym, []) => some sym
    | _ => none

/-- `designator_module_member`. -/
def moduleMember (member : String) : Option Symbol :=
  match s.names.lookup s.callee.base with
  | some ⟨_, .module scope, _⟩ => if s.intercepted then none else s.names.member scope member
  | _ => none

/-- The last resort of `designator_proc_name`: the name as it is spelled, if it is a procedure. -/
def spelledName : Option (List String) :=
  let fields := s.callee.selectors.filterMap fun
    | .field n => some n
    | _ => none
  let isProc :=
    s.recorded.any (·.isProc) ||
      match fields with
      | [n] => (s.names.moduleProc s.callee.base n).isSome
      | _ => false
  if fields.length = s.callee.selectors.length ∧ isProc then some (s.callee.base :: fields) else none

/-- `designator_proc_name`. -/
def designatorProcName : Option (List String) :=
  match s.callee.selectors with
  | [] =>
    match s.names.lookup s.callee.base with
    | some sym => if sym.isProc then some (sym.qualify s.callee.base [s.callee.base]) else none
    | none => none
  | [.field member] =>
    match s.moduleMember member with
    | some sym =>
      if sym.isProc then some (sym.qualify member [s.callee.base, member]) else s.spelledName
    | none => s.spelledName
  | _ => s.spelledName

/-- The link name in `resolve_proc_signature`. -/
def linkName (segments : List String) : Option String :=
  match s.recorded, segments with
  | some ⟨_, .proc link, _⟩, _ => link
  | _, [n] =>
    match s.names.lookup n with
    | some ⟨_, .proc link, _⟩ => link
    | _ => none
  | _, [m, n] => (s.names.moduleProc m n).join
  | _, _ => none

/-- `resolve_name_as_value`: the symbol that is called. -/
def resolveNameAsValue (segments : List String) : List String :=
  (s.linkName segments).elim segments ([·])

end CallSite

/-- What a call is lowered to. -/
inductive Emission
  | inline (builtin : String)
  | method | conversion
  | call (symbol : List String)
  | indirect
deriving Repr, DecidableEq

namespace CallSite
variable (s : CallSite)

/-- `eval_call` after the chain of expansions. -/
def evalPlainCall : Emission :=
  if s.form ≠ .bareStmt ∧ s.entity = .type ∧ s.convertible then .conversion
  else
    match s.designatorProcName with
    | some segments => .call (s.resolveNameAsValue segments)
    | none => .indirect

/-- `eval_call` and the statement lowering. -/
def emission : Emission :=
  match (statementExpansions s.form).findSome? (·.expand s) with
  | some n => .inline n
  | none =>
    if s.entity = .method then .method
    else
      match (callExpansions s.form).findSome? (·.expand s) with
      | some n => .inline n
      | none => s.evalPlainCall

/-- A call goes where its name points: a procedure is called, a built-in is expanded, and nothing else
is. -/
structure Faithful : Prop where
  proc : ∀ p, s.entity = .proc p → s.emission = .call p.symbol
  builtin : ∀ n, s.emission = .inline n ↔ s.entity = .builtin n ∧ n ∈ expanded

/-- The call is spelled like an expanded built-in: name, qualification and arguments. -/
def SpelledAs (n : String) : Prop :=
  ∃ e, (e ∈ statementExpansions s.form ∨ s.entity ≠ .method ∧ e ∈ callExpansions s.form) ∧
    e.expand s = some n

/-- Name resolution of the lowering reaches `p`: behind one qualifier at most unless `p` is EXTERNAL;
where sema has taken the call by its spelling, the module's procedure of that name stands for an
unqualified one. -/
def NamedDirectly (p : Proc) : Prop :=
  if s.intercepted then
    s.callee.selectors = [] ∧ (s.names.moduleProc p.module p.name).join = p.link
  else p.link.isSome ∨ s.callee.selectors.length ≤ 1

end CallSite

/-! ## Expansions and spelling -/

section Spelling
variable {s : CallSite} {d : Designator} {e : Expansion} {n n' : String} {l : List Expansion}

/-- All positions read the same name, if they read one. -/
theorem Position.name_last {pos : Position} (h : pos.name d = some n) :
    Position.last.name d = some n := by
  obtain ⟨base, sels⟩ := d
  cases pos with
  | bare =>
    obtain ⟨rfl, rfl⟩ : sels = [] ∧ base = n := by simpa [name] using h
    rfl
  | system =>
    rcases sels with _ | ⟨_ | _ | _ | _, _ | ⟨_, _⟩⟩ <;> simp_all [name]
  | last => exact h

theorem Position.name_unique {pos pos' : Position} (h : pos.name d = some n)
    (h' : pos'.name d = some n') : n = n' :=
  Option.some.inj ((Position.name_last h).symm.trans (Position.name_last h'))

theorem Expansion.expand_eq_some : e.expand s = some n ↔
    e.position.name s.callee = some n ∧ n ∈ e.builtins ∧ e.takes s n = true := by
  simp [expand, Option.filter_eq_some_iff]

theorem findSome_expand : l.findSome? (·.expand s) = some n ↔ ∃ e ∈ l, e.expand s = some n := by
  constructor
  · exact List.exists_of_findSome?_eq_some
  · rintro ⟨e, he, hn⟩
    cases hf : l.findSome? (·.expand s) with
    | none => rw [List.findSome?_eq_none_iff.1 hf e he] at hn; cases hn
    | some n' =>
      obtain ⟨e', -, hn'⟩ := List.exists_of_findSome?_eq_some hf
      rw [Expansion.expand_eq_some] at hn hn'
      rw [Position.name_unique hn.1 hn'.1]

theorem evalPlainCall_ne_inline : s.evalPlainCall ≠ .inline n := by
  unfold CallSite.evalPlainCall
  split
  · exact nofun
  · split <;> exact nofun

theorem spelledAs_iff : s.SpelledAs n ↔
    (statementExpansions s.form).findSome? (·.expand s) = some n ∨
      s.entity ≠ .method ∧ (callExpansions s.form).findSome? (·.expand s) = some n := by
  rw [findSome_expand, findSome_expand]
  constructor
  · rintro ⟨e, he | ⟨hm, he⟩, hn⟩
    exacts [.inl ⟨e, he, hn⟩, .inr ⟨hm, e, he, hn⟩]
  · rintro (⟨e, he, hn⟩ | ⟨hm, e, he, hn⟩)
    exacts [⟨e, .inl he, hn⟩, ⟨e, .inr ⟨hm, he⟩, hn⟩]

/-- Two expansions of one call are of the same built-in. -/
theorem CallSite.SpelledAs.unique (h : s.SpelledAs n) (h' : s.SpelledAs n') : n = n' := by
  obtain ⟨e, -, he⟩ := h
  obtain ⟨e', -, he'⟩ := h'
  exact Position.name_unique (Expansion.expand_eq_some.1 he).1 (Expansion.expand_eq_some.1 he').1

theorem emission_eq_inline_iff : s.emission = .inline n ↔ s.SpelledAs n := by
  cases hst : (statementExpansions s.form).findSome? (·.expand s) with
  | some m =>
    have hm : s.SpelledAs m := spelledAs_iff.2 (.inl hst)
    simp only [CallSite.emission, hst, Emission.inline.injEq]
    exact ⟨fun h => h ▸ hm, hm.unique⟩
  | none =>
    rw [spelledAs_iff]
    simp only [CallSite.emission, hst, reduceCtorEq, false_or]
    by_cases hm : s.entity = .method
    · simp [hm]
    · cases hc : (callExpansions s.form).findSome? (·.expand s) with
      | some m => simp [hm]
      | none => simp [hm, evalPlainCall_ne_inline]

/-- A call that is not spelled like a built-in is a plain call. -/
theorem emission_of_not_spelledAs (h : ∀ n, ¬ s.SpelledAs n) (hm : s.entity ≠ .method) :
    s.emission = s.evalPlainCall := by
  have hst : (statementExpansions s.form).findSome? (·.expand s) = none := by
    refine Option.eq_none_iff_forall_ne_some.2 fun n hn => h n ?_
    exact spelledAs_iff.2 (.inl hn)
  have hc : (callExpansions s.form).findSome? (·.expand s) = none := by
    refine Option.eq_none_iff_forall_ne_some.2 fun n hn => h n ?_
    exact spelledAs_iff.2 (.inr ⟨hm, hn⟩)
  simp [CallSite.emission, hst, hc, hm]

end Spelling

/-! ## Plain calls -/

section Procs
variable {s : CallSite} {p : Proc} {sym : Symbol} {N : Names}

theorem entityIn_eq_proc {m n : String} {link : Option String} (h : entityIn m n link = .proc p) :
    p.module = m ∧ p.name = n ∧ p.link = link := by
  unfold entityIn at h
  split at h
  · cases h
  · cases h
    exact ⟨rfl, rfl, rfl⟩

/-- A symbol that stands for `p` is called under the name of `p`. -/
theorem Symbol.of_entity (h : sym.entity = .proc p) :
    sym.kind = .proc p.link ∧ ∀ fallback, sym.qualify sym.name fallback = [p.module, p.name] := by
  obtain ⟨name, kind, provenance⟩ := sym
  cases kind with
  | proc link =>
    rcases provenance with _ | m | ⟨_ | m, original⟩ | m
    · cases h
    · obtain ⟨hm, hn, hl⟩ := entityIn_eq_proc h
      exact ⟨by rw [hl], fun _ => by simp [qualify, hm, hn]⟩
    · cases h
    · obtain ⟨hm, hn, hl⟩ := entityIn_eq_proc h
      exact ⟨by rw [hl], fun _ => by simp [qualify, hm, hn]⟩
    · cases h
  | module _ => cases h
  | type => cases h
  | other => cases h

theorem Symbol.isProc_of_entity (h : sym.entity = .proc p) : sym.isProc = true := by
  simp [isProc, (of_entity h).1]

theorem entity_eq_proc (h : s.entity = .proc p) : ∃ sym₀ sym,
    s.names.lookup s.callee.base = some sym₀ ∧
      s.names.head sym₀ s.callee.selectors = some (sym, []) ∧ sym.entity = .proc p := by
  unfold CallSite.entity at h
  cases hl : s.names.lookup s.callee.base with
  | none =>
    simp only [hl] at h
    split at h <;> cases h
  | some sym₀ =>
    simp only [hl] at h
    split at h
    · next sym hh => exact ⟨sym₀, sym, rfl, hh, h⟩
    · split at h <;> cases h

/-- The selectors that lead through modules are all fields. -/
theorem Names.head_nil {sels : List Selector} {sym₀ : Symbol}
    (h : N.head sym₀ sels = some (sym, [])) : ∃ ns : List String, sels = ns.map .field := by
  induction sels generalizing sym₀ with
  | nil => exact ⟨[], rfl⟩
  | cons sel rest ih =>
    cases sel with
    | field n =>
      simp only [Names.head] at h
      split at h
      · split at h
        · obtain ⟨ns, rfl⟩ := ih h
          exact ⟨n :: ns, rfl⟩
        · cases h
      · cases h
    | index => cases h
    | deref => cases h
    | typeGuard => cases h

theorem Names.head_field {sym₀ : Symbol} {n : String} (h : N.head sym₀ [.field n] = some (sym, [])) :
    ∃ scope, sym₀.kind = .module scope ∧ N.member scope n = some sym := by
  simp only [Names.head] at h
  split at h
  · next scope hk =>
    split at h
    · next next hm =>
      obtain rfl : next = sym := by simpa [Names.head] using h
      exact ⟨scope, hk, hm⟩
    · cases h
  · cases h

theorem filterMap_field (ns : List String) :
    (ns.map Selector.field).filterMap (fun
      | .field n => some n
      | _ => none) = ns := by
  induction ns with
  | nil => rfl
  | cons n ns ih => simp [ih]

theorem Proc.symbol_eq (p : Proc) : p.symbol = p.link.elim [p.module, p.name] ([·]) := rfl

/-- Where nothing is recorded, the module's procedure of that name gives the link name. -/
theorem resolveNameAsValue_intercepted (h : s.intercepted = true) (m n : String) :
    s.resolveNameAsValue [m, n] = (s.names.moduleProc m n).join.elim [m, n] ([·]) := by
  simp [CallSite.resolveNameAsValue, CallSite.linkName, CallSite.recorded, h]

theorem elim_inj {l l' : Option String} {m n : String} :
    l.elim [m, n] ([·]) = l'.elim [m, n] ([·]) ↔ l = l' := by
  cases l <;> cases l' <;> simp

theorem recorded_eq {sym₀ : Symbol} (hi : s.intercepted = false)
    (hl : s.names.lookup s.callee.base = some sym₀)
    (hh : s.names.head sym₀ s.callee.selectors = some (sym, [])) : s.recorded = some sym := by
  simp [CallSite.recorded, hi, hl, hh]

theorem resolveNameAsValue_recorded {link : Option String} (hr : s.recorded = some sym)
    (hk : sym.kind = .proc link) (segments : List String) :
    s.resolveNameAsValue segments = link.elim segments ([·]) := by
  obtain ⟨name, kind, provenance⟩ := sym
  cases hk
  simp [CallSite.resolveNameAsValue, CallSite.linkName, hr]

theorem evalPlainCall_eq (hp : s.entity = .proc p) : s.evalPlainCall =
    match s.designatorProcName with
    | some segments => .call (s.resolveNameAsValue segments)
    | none => .indirect := by
  simp [CallSite.evalPlainCall, hp]

/-- An unqualified procedure. -/
theorem plainCall_bare (hp : s.entity = .proc p) (hsel : s.callee.selectors = []) :
    s.evalPlainCall = .call p.symbol ↔ s.NamedDirectly p := by
  obtain ⟨sym₀, sym, hl, hh, hsym⟩ := entity_eq_proc hp
  obtain rfl : sym₀ = sym := by simpa [hsel, Names.head] using hh
  obtain ⟨hkind, hqualify⟩ := Symbol.of_entity hsym
  have hname : s.designatorProcName = some [p.module, p.name] := by
    simp only [CallSite.designatorProcName, hsel, hl, Symbol.isProc_of_entity hsym, if_true]
    rw [← s.names.lookup_name _ _ hl, hqualify]
  rw [evalPlainCall_eq hp, hname]
  simp only [Emission.call.injEq, CallSite.NamedDirectly]
  cases hi : s.intercepted with
  | true => simp [resolveNameAsValue_intercepted hi, Proc.symbol_eq, elim_inj, hsel]
  | false =>
    simp [resolveNameAsValue_recorded (recorded_eq hi hl hh) hkind, Proc.symbol_eq, hsel]

/-- A procedure behind one qualifier. -/
theorem plainCall_qualified {n : String} (hp : s.entity = .proc p)
    (hsel : s.callee.selectors = [.field n]) :
    s.evalPlainCall = .call p.symbol ↔ s.NamedDirectly p := by
  obtain ⟨sym₀, sym, hl, hh, hsym⟩ := entity_eq_proc hp
  obtain ⟨hkind, hqualify⟩ := Symbol.of_entity hsym
  obtain ⟨scope, hmod, hmem⟩ := Names.head_field (hsel ▸ hh)
  obtain ⟨name, kind, provenance⟩ := sym₀
  obtain rfl : kind = .module scope := hmod
  rw [evalPlainCall_eq hp]
  cases hi : s.intercepted with
  | false =>
    have hname : s.designatorProcName = some [p.module, p.name] := by
      simp only [CallSite.designatorProcName, hsel, CallSite.moduleMember, hl, hi, hmem,
        Symbol.isProc_of_entity hsym, if_true, Bool.false_eq_true, if_false]
      rw [← s.names.member_name _ _ _ hmem, hqualify]
    simp [hname, resolveNameAsValue_recorded (recorded_eq hi hl hh) hkind, Proc.symbol_eq,
      CallSite.NamedDirectly, hi, hsel]
  | true =>
    -- only behind the name of an intrinsic module, and then nothing of it is a declared procedure
    have hbase : s.callee.base ∈ intrinsicModules := by
      simp only [CallSite.intercepted, hsel, Bool.and_eq_true, List.contains_iff_mem] at hi
      exact hi.2.1
    have hne : p.symbol ≠ [s.callee.base, n] := by
      intro he
      cases hlink : p.link with
      | none =>
        have hmodule : p.module = s.callee.base := by
          simp only [Proc.symbol, hlink, Option.elim_none] at he
          exact (List.cons.inj he).1
        exact p.notIntrinsic (hmodule ▸ hbase)
      | some l => simp [Proc.symbol, hlink] at he
    have hnot : ¬ s.NamedDirectly p := by simp [CallSite.NamedDirectly, hi, hsel]
    refine iff_of_false ?_ hnot
    simp only [CallSite.designatorProcName, hsel, CallSite.moduleMember, hl, hi, if_true,
      CallSite.spelledName]
    split
    · next segments hsegs =>
      obtain ⟨-, rfl⟩ : _ ∧ [s.callee.base, n] = segments := by simpa using hsegs
      rw [resolveNameAsValue_intercepted hi, s.names.intrinsic_link _ hbase]
      simpa using hne.symm
    · exact nofun

/-- A procedure behind several qualifiers is called as it is spelled. -/
theorem plainCall_path {n n' : String} {ns : List String} (hp : s.entity = .proc p)
    (hsel : s.callee.selectors = (n :: n' :: ns).map .field) :
    s.evalPlainCall = .call p.symbol ↔ s.NamedDirectly p := by
  obtain ⟨sym₀, sym, hl, hh, hsym⟩ := entity_eq_proc hp
  obtain ⟨hkind, -⟩ := Symbol.of_entity hsym
  have hi : s.intercepted = false := by simp [CallSite.intercepted, hsel]
  have hr := recorded_eq hi hl hh
  have hname : s.designatorProcName = some (s.callee.base :: n :: n' :: ns) := by
    have hspelled : s.spelledName = some (s.callee.base :: n :: n' :: ns) := by
      simp only [CallSite.spelledName, hsel, filterMap_field, hr, Option.any_some,
        Symbol.isProc_of_entity hsym]
      simp
    rw [← hspelled, CallSite.designatorProcName, hsel]
    rfl
  rw [evalPlainCall_eq hp, hname]
  simp only [resolveNameAsValue_recorded hr hkind, Proc.symbol, Emission.call.injEq,
    CallSite.NamedDirectly, hi, hsel]
  cases p.link <;> simp

theorem plainCall_iff (hp : s.entity = .proc p) :
    s.evalPlainCall = .call p.symbol ↔ s.NamedDirectly p := by
  obtain ⟨sym₀, sym, -, hh, -⟩ := entity_eq_proc hp
  obtain ⟨ns, hsel⟩ := Names.head_nil hh
  rcases ns with _ | ⟨n, _ | ⟨n', ns⟩⟩
  · exact plainCall_bare hp hsel
  · exact plainCall_qualified hp hsel
  · exact plainCall_path hp hsel

end Procs

theorem not_spelledAs_of_proc {s : CallSite} {p : Proc} (hp : s.entity = .proc p)
    (h : ∀ n, s.SpelledAs n ↔ s.entity = .builtin n ∧ n ∈ expanded) (n : String) :
    ¬ s.SpelledAs n := by
  intro hn
  have hbuiltin := ((h n).1 hn).1
  rw [hp] at hbuiltin
  cases hbuiltin

/-- A call is lowered to what its name resolves to exactly if it is spelled like an expanded built-in
when its name is one, and only then, and a declared procedure is named directly. -/
theorem faithful_iff (s : CallSite) : s.Faithful ↔
    (∀ n, s.SpelledAs n ↔ s.entity = .builtin n ∧ n ∈ expanded) ∧
      ∀ p, s.entity = .proc p → s.NamedDirectly p := by
  constructor
  · intro h
    have hbuiltin : ∀ n, s.SpelledAs n ↔ s.entity = .builtin n ∧ n ∈ expanded := fun n =>
      emission_eq_inline_iff.symm.trans (h.builtin n)
    refine ⟨hbuiltin, fun p hp => (plainCall_iff hp).1 ?_⟩
    rw [← emission_of_not_spelledAs (not_spelledAs_of_proc hp hbuiltin) (by simp [hp])]
    exact h.proc p hp
  · rintro ⟨hbuiltin, hdirect⟩
    refine ⟨fun p hp => ?_, fun n => emission_eq_inline_iff.trans (hbuiltin n)⟩
    rw [emission_of_not_spelledAs (not_spelledAs_of_proc hp hbuiltin) (by simp [hp])]
    exact (plainCall_iff hp).2 (hdirect p hp)

/-- `IMPORT Colour` of a module that declares `PROCEDURE SHIFT(c, n : CARDINAL) : CARDINAL`. -/
def colourNames : Names where
  lookup n := if n = "Colour" then some ⟨n, .module 0, .imported (some n) n⟩ else none
  member _ n := if n = "SHIFT" then some ⟨n, .proc none, .declared "Colour"⟩ else none
  moduleProc m n := if m = "Colour" ∧ n = "SHIFT" then some none else none
  lookup_name n sym h := by
    split at h <;> cases h
    rfl
  member_name _ n sym h := by
    split at h <;> cases h
    rfl
  intrinsic_link m _ n := by split <;> rfl

/-- `Colour.SHIFT(c, 1)` in an expression. -/
def colourShift : CallSite where
  form := .expr
  names := colourNames
  callee := ⟨"Colour", [.field "SHIFT"]⟩
  args := [⟨.designator, true, true, true, false, false, true⟩,
    ⟨.other, true, false, false, false, false, false⟩]
  methodTail := false
  transferable := false
  convertible := false

def colourProc : Proc := ⟨"Colour", "SHIFT", none, by decide⟩

theorem not_faithful_colourShift : ¬ colourShift.Faithful := by
  intro h
  have hentity : colourShift.entity = .proc colourProc := by decide +kernel
  have hinline : colourShift.emission = .inline "SHIFT" := by decide +kernel
  have hcall := h.proc colourProc hentity
  rw [hinline] at hcall
  cases hcall

end NewM2.Ir.Calls
