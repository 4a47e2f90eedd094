import Mathlib.Data.List.Nodup
import Mathlib.Data.List.Basic
import Mathlib.Tactic.Common
import NewM2.Syntax.Ident

/-! # Link names (`newm2-ir/src/lower.rs`, `newm2-llvm/src/codegen.rs`)

What a program emits under which name: `{Module}.{name}` for variables and procedures wherever they are
declared, `{Class}.{name}` for methods, with fixed names and suffixes for the rest. `linkNames_nodup_iff`
says when all of these are different. -/

namespace NewM2.Ir

/-- The end of a link name. -/
inductive Suffix
  | plain | protected_ | init
deriving Repr, DecidableEq

structure LinkName where
  owner : Ident
  simple : Ident
  suffix : Suffix
deriving DecidableEq

def Suffix.text : Suffix → String
  | plain => ""
  | protected_ => "$protected"
  | init => "$init"

/-- The symbol. -/
def LinkName.text (l : LinkName) : String := l.owner.name ++ "." ++ l.simple.name ++ l.suffix.text

/-! ## Declarations -/

/-- Which parts of a block have statements; the FINALLY part may be there without any. -/
structure BlockParts where
  stmts : Bool
  except : Bool
  finally_ : Option Bool
deriving Repr, DecidableEq

structure ClassDecl where
  name : Ident
  isInterface : Bool
  isAbstract : Bool
  /-- The methods with their bodies. -/
  methods : List (Ident × Option BlockParts)
deriving DecidableEq

/-- Declarations of a module or a procedure that emit something. A procedure without a block is a heading
(FORWARD or in a DEFINITION MODULE). -/
inductive Decl
  | var (names : List Ident)
  | proc (name : Ident) (block : Option BlockParts) (decls : List Decl)
  | asmProc (name : Ident)
  | localModule (name : Ident) (body : Option BlockParts) (decls : List Decl)
  | class_ (c : ClassDecl)

structure Module where
  name : Ident
  decls : List Decl
  /-- The variables of the DEFINITION MODULE, when there is an IMPLEMENTATION with the declarations. -/
  defVars : List Ident
  body : BlockParts

/-- The modules lowered together; `classes` is the class arena of sema, in its order. -/
structure Program where
  modules : List Module
  classes : List ClassDecl
  gcMode : Bool
  nodup : (modules.map Module.name).Nodup

/-! ## What is emitted -/

/-- Emitted under one name, and if `outlined` also the protected part of it. -/
structure Entry where
  owner : Ident
  simple : Ident
  outlined : Bool
deriving DecidableEq

namespace Entry

def names (e : Entry) : List LinkName :=
  ⟨e.owner, e.simple, .plain⟩ :: if e.outlined then [⟨e.owner, e.simple, .protected_⟩] else []

def key (e : Entry) : Ident × Ident := (e.owner, e.simple)

end Entry

/-- A block with an EXCEPT or FINALLY part is outlined. -/
def BlockParts.outlined (b : BlockParts) : Bool := b.except || b.finally_.isSome

/-- The block of a local module is lowered if any part is there. -/
def BlockParts.present (b : BlockParts) : Bool := b.stmts || b.except || b.finally_.isSome

mutual
/-- `emit_module_statics`: those of local modules are flattened into the module's. -/
def Decl.statics (owner : Ident) : Decl → List Entry
  | .var names => names.map (⟨owner, ·, false⟩)
  | .localModule _ _ decls => staticsOf owner decls
  | .proc .. | .asmProc _ | .class_ _ => []
def staticsOf (owner : Ident) : List Decl → List Entry
  | [] => []
  | d :: ds => d.statics owner ++ staticsOf owner ds
end

mutual
/-- `lower_proc_tree`: nested procedures and those of local modules are named like the others. -/
def Decl.procs (owner : Ident) : Decl → List Entry
  | .proc name (some block) decls => ⟨owner, name, block.outlined⟩ :: procsOf owner decls
  | .asmProc name => [⟨owner, name, false⟩]
  | .localModule _ _ decls => procsOf owner decls
  | .proc _ none _ | .var _ | .class_ _ => []
def procsOf (owner : Ident) : List Decl → List Entry
  | [] => []
  | d :: ds => d.procs owner ++ procsOf owner ds
end

mutual
/-- `lower_local_module_init_fns`: the names of the local modules with a body. -/
def Decl.localInits : Decl → List Ident
  | .localModule name body decls => localInitsOf decls ++ if body.any BlockParts.present then [name] else []
  | .proc .. | .asmProc _ | .var _ | .class_ _ => []
def localInitsOf : List Decl → List Ident
  | [] => []
  | d :: ds => d.localInits ++ localInitsOf ds
end

def bodyName : Ident := ⟨"body", valid_of_all (by decide)⟩
def finalName : Ident := ⟨"final", valid_of_all (by decide)⟩
def initRootsName : Ident := ⟨"init_roots", valid_of_all (by decide)⟩
def vtableName : Ident := ⟨"vtable", valid_of_all (by decide)⟩
def typeinfoName : Ident := ⟨"typeinfo", valid_of_all (by decide)⟩

namespace Module
variable (M : Module)

/-- The variables declared in the DEFINITION MODULE only. -/
def defStatics : List Entry :=
  (M.defVars.filter fun v => (⟨M.name, v, false⟩ : Entry) ∉ M.decls.flatMap fun
    | .var names => names.map fun n => ⟨M.name, n, false⟩
    | _ => []).map (⟨M.name, ·, false⟩)

/-- The initializer, the finalizer and the registration of roots. -/
def generated (gcMode : Bool) : List Entry :=
  (if M.body.stmts || M.body.except || !(localInitsOf M.decls).isEmpty then
    [⟨M.name, bodyName, M.body.except⟩] else []) ++
  (if M.body.finally_ = some true then [⟨M.name, finalName, false⟩] else []) ++
  if gcMode then [⟨M.name, initRootsName, false⟩] else []

/-- Everything but the initializers of local modules that is named after the module. -/
def entries (gcMode : Bool) : List Entry :=
  staticsOf M.name M.decls ++ M.defStatics ++ procsOf M.name M.decls ++ M.generated gcMode

def inits : List LinkName := (localInitsOf M.decls).map (⟨M.name, ·, .init⟩)

def classDecls : List ClassDecl :=
  M.decls.filterMap fun
    | .class_ c => some c
    | _ => none

end Module

namespace Program
variable (P : Program)

/-- `classes.lookup`: the class that was allocated last under the name. -/
def lookupClass (name : Ident) : Option ClassDecl := P.classes.reverse.find? (·.name = name)

/-- What a class declaration emits: method bodies, and by the class found under its name a vtable and a
typeinfo. -/
def classEntries (c : ClassDecl) : List Entry :=
  match P.lookupClass c.name with
  | none => []
  | some cls =>
    (c.methods.filterMap fun
      | (m, some body) => some ⟨c.name, m, body.outlined⟩
      | (_, none) => none) ++
    (if cls.isInterface || cls.isAbstract then [] else [⟨c.name, vtableName, false⟩]) ++
    if cls.isInterface then [] else [⟨c.name, typeinfoName, false⟩]

def memberEntries : List Entry := P.modules.flatMap fun M => M.classDecls.flatMap P.classEntries

def moduleEntries : List Entry := P.modules.flatMap (·.entries P.gcMode)

/-- The names of everything with storage or code. -/
def linkNames : List LinkName :=
  (P.moduleEntries ++ P.memberEntries).flatMap Entry.names ++ P.modules.flatMap Module.inits

end Program

/-! ## The text determines the name -/

theorem Suffix.dot_not_mem (s : Suffix) : '.' ∉ s.text.toList := by cases s <;> decide

/-- An identifier and a suffix are told apart by the dollar sign. -/
theorem append_suffix_inj {i j : Ident} {s t : Suffix}
    (h : i.name.toList ++ s.text.toList = j.name.toList ++ t.text.toList) : i = j ∧ s = t := by
  have hdollar : ∀ i : Ident, '$' ∉ i.name.toList := fun i => i.not_mem (by decide)
  have hsplit : ∀ {cs ds : List Char}, '$' ∉ cs →
      i.name.toList ++ '$' :: cs = j.name.toList ++ '$' :: ds → i = j ∧ cs = ds := fun hcs heq => by
    obtain ⟨hname, -, hrest⟩ := (List.append_cons_inj_of_notMem (hdollar i) hcs).1 heq
    exact ⟨Ident.ext (String.toList_inj.1 hname), hrest⟩
  have hplain : ∀ {i j : Ident} {cs : List Char}, i.name.toList ++ [] ≠ j.name.toList ++ '$' :: cs := by
    intro i j cs heq
    rw [List.append_nil] at heq
    exact hdollar i (heq ▸ List.mem_append_right _ List.mem_cons_self)
  cases s with
  | plain =>
    cases t with
    | plain => exact ⟨Ident.ext (String.toList_inj.1 (List.append_cancel_right h)), rfl⟩
    | protected_ => exact absurd h hplain
    | init => exact absurd h hplain
  | protected_ =>
    cases t with
    | plain => exact absurd h.symm hplain
    | protected_ => exact ⟨(hsplit (by decide) h).1, rfl⟩
    | init => exact absurd (hsplit (by decide) h).2 (by decide)
  | init =>
    cases t with
    | plain => exact absurd h.symm hplain
    | protected_ => exact absurd (hsplit (by decide) h).2 (by decide)
    | init => exact ⟨(hsplit (by decide) h).1, rfl⟩

/-- Identifiers have no dot and no dollar sign. -/
theorem LinkName.text_injective : Function.Injective LinkName.text := by
  have hdot : ∀ i : Ident, '.' ∉ i.name.toList := fun i => i.not_mem (by decide)
  rintro ⟨o, n, s⟩ ⟨o', n', s'⟩ h
  have hlist := congrArg String.toList h
  simp only [LinkName.text, String.toList_append, List.append_assoc] at hlist
  change o.name.toList ++ '.' :: (n.name.toList ++ s.text.toList) =
    o'.name.toList ++ '.' :: (n'.name.toList ++ s'.text.toList) at hlist
  have hrest : '.' ∉ n.name.toList ++ s.text.toList := fun hc =>
    (List.mem_append.1 hc).elim (hdot n) s.dot_not_mem
  obtain ⟨ho, -, hn⟩ := (List.append_cons_inj_of_notMem (hdot o) hrest).1 hlist
  obtain ⟨rfl, rfl⟩ := append_suffix_inj hn
  rw [Ident.ext (String.toList_inj.1 ho)]

/-! ## When all names are different -/

theorem Entry.owner_simple_of_mem {e : Entry} {l : LinkName} (h : l ∈ e.names) :
    (l.owner, l.simple) = e.key ∧ l.suffix ≠ .init := by
  unfold Entry.names at h
  rcases List.mem_cons.1 h with rfl | h
  · exact ⟨rfl, nofun⟩
  · split at h
    · rw [List.mem_singleton.1 h]
      exact ⟨rfl, nofun⟩
    · cases h

/-- The protected part of an entry has the entry's name with a suffix of its own. -/
theorem nodup_flatMap_names {es : List Entry} :
    (es.flatMap Entry.names).Nodup ↔ (es.map Entry.key).Nodup := by
  have hkey : ∀ {e e' : Entry}, e.key ≠ e'.key ↔ Function.onFun List.Disjoint Entry.names e e' := by
    intro e e'
    constructor
    · intro hne l hl hl'
      exact hne ((Entry.owner_simple_of_mem hl).1.symm.trans (Entry.owner_simple_of_mem hl').1)
    · intro hd heq
      have hl : (⟨e.owner, e.simple, .plain⟩ : LinkName) ∈ e'.names := by
        obtain ⟨howner, hsimple⟩ : e.owner = e'.owner ∧ e.simple = e'.simple := Prod.ext_iff.1 heq
        rw [howner, hsimple]
        exact List.mem_cons_self
      exact hd List.mem_cons_self hl
  have hnodup : (es.map Entry.key).Nodup ↔ es.Pairwise fun e e' => e.key ≠ e'.key := List.pairwise_map
  rw [List.nodup_flatMap, hnodup]
  constructor
  · rintro ⟨-, h⟩
    exact h.imp hkey.2
  · intro h
    refine ⟨fun e _ => ?_, h.imp hkey.1⟩
    unfold Entry.names
    split
    · simp
    · exact List.nodup_singleton _

/-! ### Owners -/

mutual
theorem owner_of_mem_statics {owner : Ident} {e : Entry} : ∀ (d : Decl), e ∈ d.statics owner →
    e.owner = owner
  | .var names, h => by
    obtain ⟨n, -, rfl⟩ := List.mem_map.1 h
    rfl
  | .localModule _ _ decls, h => owner_of_mem_staticsOf decls h
theorem owner_of_mem_staticsOf {owner : Ident} {e : Entry} : ∀ (ds : List Decl),
    e ∈ staticsOf owner ds → e.owner = owner
  | d :: ds, h => (List.mem_append.1 h).elim (owner_of_mem_statics d) (owner_of_mem_staticsOf ds)
end

mutual
theorem owner_of_mem_procs {owner : Ident} {e : Entry} : ∀ (d : Decl), e ∈ d.procs owner →
    e.owner = owner
  | .proc name (some block) decls, h => by
    rcases List.mem_cons.1 h with rfl | h
    · rfl
    · exact owner_of_mem_procsOf decls h
  | .asmProc name, h => by rw [List.mem_singleton.1 h]
  | .localModule _ _ decls, h => owner_of_mem_procsOf decls h
theorem owner_of_mem_procsOf {owner : Ident} {e : Entry} : ∀ (ds : List Decl),
    e ∈ procsOf owner ds → e.owner = owner
  | d :: ds, h => (List.mem_append.1 h).elim (owner_of_mem_procs d) (owner_of_mem_procsOf ds)
end

theorem Module.owner_of_mem_entries {M : Module} {gcMode : Bool} {e : Entry}
    (h : e ∈ M.entries gcMode) : e.owner = M.name := by
  unfold Module.entries at h
  simp only [List.mem_append] at h
  rcases h with ((h | h) | h) | h
  · exact owner_of_mem_staticsOf _ h
  · obtain ⟨v, -, rfl⟩ := List.mem_map.1 h
    rfl
  · exact owner_of_mem_procsOf _ h
  · unfold Module.generated at h
    simp only [List.mem_append] at h
    rcases h with (h | h) | h <;> split at h <;> cases h <;> first | rfl | contradiction

namespace Program
variable {P : Program}

/-- No two declarations of the program are emitted under one name. -/
structure DistinctNames (P : Program) : Prop where
  /-- The variables, procedures and generated functions of a module, at any depth, have different simple
  names. -/
  simple : ∀ M ∈ P.modules, ((M.entries P.gcMode).map (·.simple)).Nodup
  /-- So have its local modules with a body. -/
  inits : ∀ M ∈ P.modules, (localInitsOf M.decls).Nodup
  /-- Classes of one name have no member of one name, nor has a class a method called `vtable` or
  `typeinfo`. -/
  members : (P.memberEntries.map Entry.key).Nodup
  /-- A class with the name of a module has no member with the name of something in the module. -/
  owners : ∀ M ∈ P.modules, ∀ e ∈ M.entries P.gcMode, ∀ m ∈ P.memberEntries, m.owner = M.name →
    m.simple ≠ e.simple

/-- The keys of a module differ in their simple names only. -/
theorem nodup_entries_iff {M : Module} {gcMode : Bool} :
    ((M.entries gcMode).map Entry.key).Nodup ↔ ((M.entries gcMode).map (·.simple)).Nodup := by
  have h : (M.entries gcMode).map Entry.key =
      ((M.entries gcMode).map (·.simple)).map (M.name, ·) := by
    rw [List.map_map]
    exact List.map_congr_left fun e he => Prod.ext (Module.owner_of_mem_entries he) rfl
  rw [h, List.nodup_map_iff fun _ _ heq => (Prod.ext_iff.1 heq).2]

theorem nodup_moduleEntries_iff :
    (P.moduleEntries.map Entry.key).Nodup ↔
      ∀ M ∈ P.modules, ((M.entries P.gcMode).map (·.simple)).Nodup := by
  unfold moduleEntries
  rw [List.map_flatMap, List.nodup_flatMap]
  refine ⟨fun h M hM => nodup_entries_iff.1 (h.1 M hM), fun h => ⟨fun M hM => nodup_entries_iff.2 (h M hM), ?_⟩⟩
  have hnodup : P.modules.Pairwise fun M M' => M.name ≠ M'.name := List.pairwise_map.1 P.nodup
  refine hnodup.imp fun hne k hk hk' => ?_
  obtain ⟨e, he, rfl⟩ := List.mem_map.1 hk
  obtain ⟨e', he', heq⟩ := List.mem_map.1 hk'
  have howner := (Prod.ext_iff.1 heq).1
  exact hne ((Module.owner_of_mem_entries he).symm.trans
    (howner.symm.trans (Module.owner_of_mem_entries he')))

theorem nodup_inits_iff :
    (P.modules.flatMap Module.inits).Nodup ↔ ∀ M ∈ P.modules, (localInitsOf M.decls).Nodup := by
  have hinj : ∀ M : Module, Function.Injective fun l : Ident => (⟨M.name, l, .init⟩ : LinkName) :=
    fun M l l' h => congrArg LinkName.simple h
  rw [List.nodup_flatMap]
  refine ⟨fun h M hM => (List.nodup_map_iff (hinj M)).1 (h.1 M hM),
    fun h => ⟨fun M hM => (List.nodup_map_iff (hinj M)).2 (h M hM), ?_⟩⟩
  have hnodup : P.modules.Pairwise fun M M' => M.name ≠ M'.name := List.pairwise_map.1 P.nodup
  refine hnodup.imp fun hne l hl hl' => ?_
  obtain ⟨i, -, rfl⟩ := List.mem_map.1 hl
  obtain ⟨i', -, heq⟩ := List.mem_map.1 hl'
  exact hne (congrArg LinkName.owner heq).symm

/-- Everything is emitted under a name of its own exactly if no two declarations are named alike. -/
theorem linkNames_nodup_iff (P : Program) :
    (P.linkNames.map LinkName.text).Nodup ↔ P.DistinctNames := by
  have hinits : ((P.moduleEntries ++ P.memberEntries).flatMap Entry.names).Disjoint
      (P.modules.flatMap Module.inits) := by
    intro l hl hl'
    obtain ⟨e, -, he⟩ := List.mem_flatMap.1 hl
    obtain ⟨M, -, hM⟩ := List.mem_flatMap.1 hl'
    obtain ⟨i, -, rfl⟩ := List.mem_map.1 hM
    exact (Entry.owner_simple_of_mem he).2 rfl
  have howners : (P.moduleEntries.map Entry.key).Disjoint (P.memberEntries.map Entry.key) ↔
      ∀ M ∈ P.modules, ∀ e ∈ M.entries P.gcMode, ∀ m ∈ P.memberEntries, m.owner = M.name →
        m.simple ≠ e.simple := by
    constructor
    · intro hd M hM e he m hm howner hsimple
      refine hd (List.mem_map_of_mem (List.mem_flatMap.2 ⟨M, hM, he⟩)) (List.mem_map.2 ⟨m, hm, ?_⟩)
      exact Prod.ext (howner.trans (Module.owner_of_mem_entries he).symm) hsimple
    · intro h k hk hk'
      obtain ⟨e, he, rfl⟩ := List.mem_map.1 hk
      obtain ⟨m, hm, heq⟩ := List.mem_map.1 hk'
      obtain ⟨M, hM, heM⟩ := List.mem_flatMap.1 he
      obtain ⟨howner, hsimple⟩ := Prod.ext_iff.1 heq
      exact h M hM e heM m hm (howner.trans (Module.owner_of_mem_entries heM)) hsimple
  unfold linkNames
  rw [List.nodup_map_iff LinkName.text_injective, List.nodup_append', nodup_flatMap_names,
    List.map_append, List.nodup_append', nodup_moduleEntries_iff, nodup_inits_iff, howners]
  constructor
  · rintro ⟨⟨hsimple, hmembers, howners⟩, hlocal, -⟩
    exact ⟨hsimple, hlocal, hmembers, howners⟩
  · rintro ⟨hsimple, hlocal, hmembers, howners⟩
    exact ⟨⟨hsimple, hmembers, howners⟩, hlocal, hinits⟩

/-- Two procedures `Inner`, nested in `P` and in `Q`. -/
def nestedAlike : Program where
  modules := [⟨⟨"M", valid_of_all (by decide)⟩, [
    .proc ⟨"P", valid_of_all (by decide)⟩ (some ⟨true, false, none⟩)
      [.proc ⟨"Inner", valid_of_all (by decide)⟩ (some ⟨true, false, none⟩) []],
    .proc ⟨"Q", valid_of_all (by decide)⟩ (some ⟨true, false, none⟩)
      [.proc ⟨"Inner", valid_of_all (by decide)⟩ (some ⟨true, false, none⟩) []]], [], ⟨true, false, none⟩⟩]
  classes := []
  gcMode := false
  nodup := List.nodup_singleton _

/-- They are emitted under one name. -/
theorem nestedAlike_not_nodup : ¬ (nestedAlike.linkNames.map LinkName.text).Nodup := by
  decide +kernel

end Program

end NewM2.Ir
