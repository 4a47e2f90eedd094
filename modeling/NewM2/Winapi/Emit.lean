import NewM2.Sema.Class

/-! # INTERFACE declarations from metadata (`newm2-winapi-gen/src/emit.rs`, `db.rs`, `build.rs`)

The generator writes the absolute vtable slot of each method into a pragma: the methods of all bases,
counted along the base chain, and the slot among the interface's own methods. Types of parameters are
taken as resolved. The second half is what sema makes of the declarations (`resolve_class_decl`). -/

namespace NewM2.Winapi

open Sema

structure IfaceMethodRow where
  slotIndex : Nat
  name : String
  sig : ProcSig
deriving Repr, DecidableEq

/-- A row of the table of types that has an IID; `namespace_` numbers the generated namespaces. -/
structure InterfaceRow (m : Nat) where
  namespace_ : Fin m
  name : String
  qualifiedName : String
  baseQualifiedName : Option String
  methods : List IfaceMethodRow
deriving Repr, DecidableEq

/-- The module of a namespace. -/
def moduleNameFor (ns : String) : String :=
  (((ns.dropPrefix? "Windows.Win32.").map (·.toString)).getD ns).map fun c => if c = '.' then '_' else c

/-- The interfaces of the database. The query orders the methods of each by their slot, counted from
0; a qualified name names one interface, and a generated module declares a name once. -/
structure InterfaceIndex (n m : Nat) where
  row : Fin n → InterfaceRow m
  namespaces : Fin m → String
  qualifiedName_inj : Function.Injective fun i => (row i).qualifiedName
  moduleName_inj : Function.Injective fun k => moduleNameFor (namespaces k)
  name_inj : Function.Injective fun i => ((row i).namespace_, (row i).name)
  slots : ∀ i, (row i).methods.map (·.slotIndex) = List.range (row i).methods.length

namespace InterfaceIndex
variable {n m : Nat} (I : InterfaceIndex n m)

/-- `by_qname.get`. -/
def get (q : String) : Option (Fin n) :=
  (List.finRange n).find? fun i => (I.row i).qualifiedName = q

def ownMethodCount (i : Fin n) : Nat := (I.row i).methods.length

/-- The loop of `base_offset` with the names seen so far, for as many turns as there are names. -/
def baseOffsetFrom : Nat → List String → Option String → Nat
  | 0, _, _ => 0
  | _ + 1, _, none => 0
  | fuel + 1, seen, some baseQ =>
    if baseQ ∈ seen then 0
    else
      match I.get baseQ with
      | some base =>
        I.ownMethodCount base + baseOffsetFrom fuel (baseQ :: seen) (I.row base).baseQualifiedName
      | none => 0

def baseOffset (q : String) : Nat :=
  I.baseOffsetFrom (n + 1) [] ((I.get q).bind fun i => (I.row i).baseQualifiedName)

end InterfaceIndex

/-! ## Declarations -/

structure MethodDecl where
  name : String
  isAbstract : Bool
  isOverride : Bool
  sig : ProcSig
  /-- The bodies of the pragmas. -/
  pragmas : List (List Char)
deriving Repr, DecidableEq

structure ClassDecl where
  moduleName : String
  name : String
  isInterface : Bool
  isAbstract : Bool
  inherit : Option (List String)
  members : List MethodDecl
deriving Repr, DecidableEq

/-- `interface_method`. -/
def interfaceMethod (name : String) (sig : ProcSig) (ordinal : Nat) : MethodDecl where
  name := name
  isAbstract := true
  isOverride := false
  sig := sig
  pragmas := ['@' :: Nat.toDigits 10 ordinal]

namespace InterfaceIndex
variable {n m : Nat} (I : InterfaceIndex n m)

def moduleName (i : Fin n) : String := moduleNameFor (I.namespaces (I.row i).namespace_)

/-- The slot that the generator computes for a method. -/
def ordinal (i : Fin n) (mr : IfaceMethodRow) : Nat :=
  I.baseOffset (I.row i).qualifiedName + mr.slotIndex

/-- The INHERIT clause, qualified when the base is in another module. -/
def inheritClause (i : Fin n) : Option (List String) :=
  match (I.row i).baseQualifiedName with
  | none => none
  | some baseQ =>
    match I.get baseQ with
    | some base =>
      if I.moduleName base = I.moduleName i then some [(I.row base).name]
      else some [I.moduleName base, (I.row base).name]
    | none => none

def interfaceDecl (i : Fin n) : ClassDecl where
  moduleName := I.moduleName i
  name := (I.row i).name
  isInterface := true
  isAbstract := true
  inherit := I.inheritClause i
  members := (I.row i).methods.map fun mr => interfaceMethod mr.name mr.sig (I.ordinal i mr)

end InterfaceIndex

/-! ## What sema reads -/

def trim (cs : List Char) : List Char :=
  ((cs.dropWhile Char.isWhitespace).reverse.dropWhile Char.isWhitespace).reverse

/-- `str::parse::<usize>`. -/
def parseUsize (cs : List Char) : Option Nat :=
  let digits := if cs.head? = some '+' then cs.tail else cs
  if digits ≠ [] ∧ digits.all Char.isDigit ∧ Nat.ofDigitChars 10 digits 0 < 2 ^ 64 then
    some (Nat.ofDigitChars 10 digits 0)
  else none

/-- `parse_ordinal_pragma`: the first pragma that is an ordinal. -/
def parseOrdinalPragma (pragmas : List (List Char)) : Option Nat :=
  pragmas.findSome? fun body =>
    match trim body with
    | '@' :: rest => parseUsize (trim rest)
    | _ => none

section sema
variable {n : Nat} (decl : Fin n → ClassDecl)

def lookupClass (moduleName name : String) : Option (Fin n) :=
  (List.finRange n).find? fun i => (decl i).moduleName = moduleName ∧ (decl i).name = name

/-- The INHERIT clause as `resolve_class_decl` looks it up. -/
def resolveBase (i : Fin n) : Option (Fin n) :=
  match (decl i).inherit with
  | some [name] => lookupClass decl (decl i).moduleName name
  | some [moduleName, name] => lookupClass decl moduleName name
  | _ => none

def declareMethod (d : MethodDecl) (isInterface : Bool) : MethodSlot where
  name := d.name
  sig := d.sig
  isAbstract := d.isAbstract || isInterface
  isOverride := d.isOverride
  vtableIndex := 0
  declaredSlot := parseOrdinalPragma d.pragmas

/-- The arena when the first pass has entered every class. -/
def enterClasses : ClassArena n where
  classes := .ofFn fun i =>
    { name := (decl i).name
      isAbstract := (decl i).isAbstract
      isInterface := false
      base := none
      ownFields := []
      allFields := []
      ownMethods := []
      vtable := []
      span := ⟨0, 0⟩ }

/-- `resolve_class_decl`. -/
def resolveClassDecl (A : ClassArena n) (i : Fin n) : ClassArena n :=
  A.set i { A.get i with
    isInterface := (decl i).isInterface
    base := resolveBase decl i
    ownMethods := (decl i).members.map fun d => declareMethod d (decl i).isInterface }

end sema

/-- What `resolve_classes_in_scope` does with each class in turn; `types` are the procedure types that
it allocates. -/
def resolveClasses {n : Nat} (types : Fin n → Nat → TypeId) :
    List (Fin n) → ClassArena n → ClassArena n × List ClassError
  | [], A => (A, [])
  | id :: rest, A =>
    let A := ((A.resolveFields id).resolveVtable id).synthesizeVtableCallSigs id (types id)
    let errs := A.validate id
    match resolveClasses types rest A with
    | (A, later) => (A, errs ++ later)

/-- The second pass over one module after the other, each given by its classes in the order in which
`resolve_classes_in_scope` takes them. The classes of the modules to come are entered only. -/
def resolveModules {n : Nat} (decl : Fin n → ClassDecl) (types : Fin n → Nat → TypeId) :
    List (List (Fin n)) → ClassArena n → ClassArena n × List ClassError
  | [], A => (A, [])
  | classes :: rest, A =>
    match resolveClasses types classes (classes.foldl (resolveClassDecl decl) A) with
    | (A, errs) =>
      match resolveModules decl types rest A with
      | (A, later) => (A, errs ++ later)

end NewM2.Winapi
