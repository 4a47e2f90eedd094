import Mathlib.Data.Vector.Basic
import NewM2.Lib.OverrideTable

/-! # Class symbols and vtable layout (`newm2-sema/src/class.rs`)

`ClassArena.resolveVtable` and `resolveFields` as the arena computes them, and what a client of the
arena sees: a selector finds a slot by name in the vtable of the static class, and the slot at that
index of the dynamic class's vtable is called. `DispatchCorrect` says that this reaches the
most-derived declaration; `dispatchCorrect_iff` says for which class forests it does. -/

namespace NewM2.Sema

/-- Index of a class in an arena of `n` classes. -/
abbrev ClassSymbolId (n : Nat) := Fin n

abbrev TypeId := Nat

structure Span where
  start : Nat
  stop : Nat
deriving Repr, DecidableEq

inductive ParamMode
  | value | var | const
deriving Repr, DecidableEq

structure NamedParam where
  name : Option String
  mode : ParamMode
  ty : TypeId
deriving Repr, DecidableEq

structure ProcSig where
  params : List NamedParam
  returnTy : Option TypeId
deriving Repr, DecidableEq

structure FieldSlot where
  name : String
  ty : TypeId
deriving Repr, DecidableEq

structure MethodSlot where
  name : String
  sig : ProcSig
  isAbstract : Bool
  isOverride : Bool
  vtableIndex : Nat
  declaredSlot : Option Nat
deriving Repr, DecidableEq

structure VtableSlot (n : Nat) where
  name : String
  sig : ProcSig
  definingClass : ClassSymbolId n
  isAbstract : Bool
  callSig : Option TypeId
deriving Repr, DecidableEq

structure ClassSymbol (n : Nat) where
  name : String
  isAbstract : Bool
  isInterface : Bool
  base : Option (ClassSymbolId n)
  ownFields : List FieldSlot
  allFields : List FieldSlot
  ownMethods : List MethodSlot
  vtable : List (VtableSlot n)
  span : Span
deriving Repr, DecidableEq

/-- The arena once all its classes are allocated; every id in it is in range. -/
structure ClassArena (n : Nat) where
  classes : Vector (ClassSymbol n) n
deriving Repr, DecidableEq

structure ClassError where
  message : String
  span : Span
deriving Repr, DecidableEq

/-! ## Operations -/

/-- The slot a method gets when it is appended. -/
def MethodSlot.newSlot {n : Nat} (id : ClassSymbolId n) (m : MethodSlot) : VtableSlot n :=
  { name := m.name, sig := m.sig, definingClass := id, isAbstract := m.isAbstract, callSig := none }

/-- What an override does to the slot it finds. -/
def MethodSlot.replaceSlot {n : Nat} (id : ClassSymbolId n) (m : MethodSlot) (s : VtableSlot n) :
    VtableSlot n :=
  { s with definingClass := id, sig := m.sig, isAbstract := m.isAbstract }

/-- One turn of the loop of `resolve_vtable`: the vtable after `m` and the index of `m` in it. -/
def placeMethod {n : Nat} (id : ClassSymbolId n) (vtable : List (VtableSlot n)) (m : MethodSlot) :
    List (VtableSlot n) × Nat :=
  if m.isOverride then
    match updateFirst (·.name == m.name) (m.replaceSlot id) vtable with
    | some vtable => (vtable, (vtable.findIdx? (·.name == m.name)).getD 0)
    | none => (vtable ++ [m.newSlot id], vtable.length)
  else (vtable ++ [m.newSlot id], vtable.length)

/-- The loop of `resolve_vtable` over the class's own methods. -/
def placeMethods {n : Nat} (id : ClassSymbolId n) :
    List (VtableSlot n) → List MethodSlot → List (VtableSlot n) × List MethodSlot
  | vtable, [] => (vtable, [])
  | vtable, m :: ms =>
    let (vtable, index) := placeMethod id vtable m
    let (vtable, ms) := placeMethods id vtable ms
    (vtable, { m with vtableIndex := index } :: ms)

/-- The complaint about an interface that inherits from a class. -/
def ClassSymbol.inheritError {n : Nat} (cls : ClassSymbol n) : ClassError :=
  ⟨"interface '" ++ cls.name ++ "' may only INHERIT another interface", cls.span⟩

/-- The complaint about a method that is not in the annotated slot. -/
def ClassSymbol.ordinalError {n : Nat} (cls : ClassSymbol n) (m : MethodSlot) (declared : Nat) :
    ClassError :=
  ⟨"method '" ++ m.name ++ "' in '" ++ cls.name ++ "' is annotated slot @" ++
    toString declared ++ " but the compiler computed slot " ++ toString m.vtableIndex ++
    " — the INHERIT chain or method order disagrees with the declared ordinal", cls.span⟩

namespace ClassArena
variable {n : Nat}

def get (A : ClassArena n) (id : ClassSymbolId n) : ClassSymbol n := A.classes[id]

def set (A : ClassArena n) (id : ClassSymbolId n) (c : ClassSymbol n) : ClassArena n :=
  ⟨A.classes.set id c⟩

def baseVtable (A : ClassArena n) (id : ClassSymbolId n) : List (VtableSlot n) :=
  match (A.get id).base with
  | some b => (A.get b).vtable
  | none => []

def baseFields (A : ClassArena n) (id : ClassSymbolId n) : List FieldSlot :=
  match (A.get id).base with
  | some b => (A.get b).allFields
  | none => []

def resolveVtable (A : ClassArena n) (id : ClassSymbolId n) : ClassArena n :=
  let (vtable, ownMethods) := placeMethods id (A.baseVtable id) (A.get id).ownMethods
  A.set id { A.get id with vtable, ownMethods }

def resolveFields (A : ClassArena n) (id : ClassSymbolId n) : ClassArena n :=
  A.set id { A.get id with allFields := A.baseFields id ++ (A.get id).ownFields }

/-- `synthesize_vtable_call_sigs`: slot `i` gets the procedure type `types i`. -/
def synthesizeVtableCallSigs (A : ClassArena n) (id : ClassSymbolId n) (types : Nat → TypeId) :
    ClassArena n :=
  A.set id { A.get id with
    vtable := (A.get id).vtable.mapIdx fun i s => { s with callSig := some (types i) } }

/-- `validate`: unimplemented abstract methods, a class as the base of an interface, and annotated
slots that disagree with the computed ones. -/
def validate (A : ClassArena n) (id : ClassSymbolId n) : List ClassError :=
  let cls := A.get id
  let unimplemented :=
    if cls.isAbstract then []
    else (cls.vtable.filter (·.isAbstract)).map fun slot =>
      ⟨"concrete class '" ++ cls.name ++ "' has unimplemented abstract method '" ++ slot.name ++ "'",
        cls.span⟩
  let inherits :=
    match cls.base with
    | some b =>
      if cls.isInterface ∧ ¬ (A.get b).isInterface then [cls.inheritError] else []
    | none => []
  let ordinals := cls.ownMethods.filterMap fun m =>
    match m.declaredSlot with
    | some declared => if m.vtableIndex ≠ declared then some (cls.ordinalError m declared) else none
    | none => none
  unimplemented ++ inherits ++ ordinals

/-- `find_class_method_binding`: the index of the first slot with that name. -/
def findMethod (A : ClassArena n) (id : ClassSymbolId n) (name : String) : Option Nat :=
  (A.get id).vtable.findIdx? (·.name == name)

/-- The class whose implementation a virtual call at `index` on an object of class `id` runs. -/
def implementation (A : ClassArena n) (id : ClassSymbolId n) (index : Nat) :
    Option (ClassSymbolId n) :=
  ((A.get id).vtable[index]?).map (·.definingClass)

end ClassArena

/-! ## Runs -/

/-- One call into the arena while a scope's classes are resolved. -/
inductive ResolveCall (n : Nat)
  | fields (id : ClassSymbolId n)
  | vtable (id : ClassSymbolId n)
  | callSigs (id : ClassSymbolId n) (types : Nat → TypeId)

namespace ClassArena
variable {n : Nat}

def apply (A : ClassArena n) : ResolveCall n → ClassArena n
  | .fields id => A.resolveFields id
  | .vtable id => A.resolveVtable id
  | .callSigs id types => A.synthesizeVtableCallSigs id types

def run (A : ClassArena n) (calls : List (ResolveCall n)) : ClassArena n := calls.foldl apply A

/-- After the calls `past` the base is ready for `call`: `resolve_vtable` needs the base's vtable,
`resolve_fields` the base's fields. -/
def Ready (A : ClassArena n) (past : List (ResolveCall n)) : ResolveCall n → Prop
  | .fields id => ∀ b, (A.get id).base = some b → ResolveCall.fields b ∈ past
  | .vtable id => ∀ b, (A.get id).base = some b → ResolveCall.vtable b ∈ past
  | .callSigs _ _ => True

/-- Bases are resolved first, in whatever order otherwise; calls may be repeated. -/
def BasesFirst (A : ClassArena n) (calls : List (ResolveCall n)) : Prop :=
  ∀ past call rest, calls = past ++ call :: rest → A.Ready past call

end ClassArena
end NewM2.Sema
