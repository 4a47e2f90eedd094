import NewM2.Sema.Class

/-! # The type arena (`newm2-sema/src/types.rs`)

Every kind of type, the built-in catalog and the arena with its two mutating operations. A `TypeId` is
an index into the arena; classes are named by their index in an arena of `n` classes. -/

namespace NewM2.Types
open NewM2.Sema (TypeId ParamMode ClassSymbolId)

inductive Builtin
  | boolean | char | integer | cardinal | real | longInt | longCard | longReal | real32 | real16
  | bitset | proc | nil | complex | longComplex
  | integer8 | integer16 | integer32 | integer64
  | cardinal8 | cardinal16 | cardinal32 | cardinal64
  | byte | word | dword | qword | address | adrint | adrcard | achar | uchar
  | sysAddress | sysLoc | sysByte | sysWord | sysBitset
deriving Repr, DecidableEq

structure ProcParam where
  mode : ParamMode
  ty : TypeId
deriving Repr, DecidableEq

structure RecordFieldSlot where
  name : String
  ty : TypeId
deriving Repr, DecidableEq

inductive VariantLabel
  | single (v : Int)
  | range (lo hi : Int)
deriving Repr, DecidableEq

structure VariantArmLayout where
  labels : List VariantLabel
  fields : List RecordFieldSlot
deriving Repr, DecidableEq

structure VariantLayout where
  tagField : Option String
  tagType : TypeId
  arms : List VariantArmLayout
  elseFields : List RecordFieldSlot
deriving Repr, DecidableEq

structure RecordLayout where
  name : Option String
  fields : List RecordFieldSlot
  variantPart : Option VariantLayout
deriving Repr, DecidableEq

inductive TypeKind (n : Nat)
  | unresolved
  | builtin (b : Builtin)
  | enum (name : Option String) (names : List String) (values : List Int)
  | subrange (host : TypeId) (lo hi : Int)
  | array (indices : List TypeId) (base : TypeId)
  | openArray (base : TypeId)
  | pointer (base : TypeId)
  | record (layout : RecordLayout)
  | set (packed : Bool) (base : TypeId)
  | vector (lanes : Nat) (base : TypeId)
  | proc (params : List ProcParam) (returnTy : Option TypeId)
  | class (symbol : ClassSymbolId n)
deriving Repr, DecidableEq

namespace Builtin

def inCardinalFamily : Builtin → Bool
  | cardinal | cardinal8 | cardinal16 | cardinal32 | cardinal64 | longCard => true
  | _ => false

def inIntegerFamily : Builtin → Bool
  | integer | integer8 | integer16 | integer32 | integer64 | longInt => true
  | _ => false

def inRealFamily : Builtin → Bool
  | real | longReal => true
  | _ => false

def inComplexFamily : Builtin → Bool
  | complex | longComplex => true
  | _ => false

def inCharFamily : Builtin → Bool
  | char | achar | uchar => true
  | _ => false

def inAddressFamily : Builtin → Bool
  | address | adrint | adrcard | sysAddress => true
  | _ => false

/-- `is_same_family`; NIL goes with the ADDRESS family. -/
def isSameFamily (a b : Builtin) : Bool :=
  a == b || (a.inCardinalFamily && b.inCardinalFamily) || (a.inIntegerFamily && b.inIntegerFamily) ||
    (a.inRealFamily && b.inRealFamily) || (a.inComplexFamily && b.inComplexFamily) ||
    (a.inCharFamily && b.inCharFamily) || (a.inAddressFamily && b.inAddressFamily) ||
    (a == nil && b.inAddressFamily) || (a.inAddressFamily && b == nil)

/-- ADDRESS of the language and of SYSTEM. -/
def isAddress : Builtin → Bool
  | address | sysAddress => true
  | _ => false

/-- BITSET of the language and of SYSTEM. -/
def isBitset : Builtin → Bool
  | bitset | sysBitset => true
  | _ => false

/-- `builtin_ordinal_bounds`. -/
def ordinalBounds : Builtin → Option (Int × Int)
  | boolean => some (0, 1)
  | char | uchar => some (0, 0xFFFF)
  | achar | byte | sysByte | sysLoc | cardinal8 => some (0, 0xFF)
  | integer8 => some (-128, 127)
  | cardinal16 | word => some (0, 0xFFFF)
  | integer16 => some (-32768, 32767)
  | cardinal32 | dword => some (0, 0xFFFFFFFF)
  | integer32 => some (-2147483648, 2147483647)
  | cardinal | cardinal64 | qword | longCard | address | adrcard | sysAddress =>
    some (0, 18446744073709551615)
  | integer | integer64 | longInt | adrint => some (-9223372036854775808, 9223372036854775807)
  | bitset | sysBitset => some (0, 255)
  | _ => none

/-- The built-ins in the order in which `intern_builtins` allocates them. -/
def all : List Builtin :=
  [boolean, char, integer, cardinal, real, longInt, longCard, longReal, real32, real16, bitset, proc,
    nil, complex, longComplex, integer8, integer16, integer32, integer64, cardinal8, cardinal16,
    cardinal32, cardinal64, byte, word, dword, qword, address, adrint, adrcard, achar, uchar,
    sysAddress, sysLoc, sysByte, sysWord, sysBitset]

/-- `name`; SYSTEM calls four of its types as the language calls its own. -/
def name : Builtin → String
  | boolean => "BOOLEAN"
  | char => "CHAR"
  | integer => "INTEGER"
  | cardinal => "CARDINAL"
  | real => "REAL"
  | longInt => "LONGINT"
  | longCard => "LONGCARD"
  | longReal => "LONGREAL"
  | real32 => "REAL32"
  | real16 => "REAL16"
  | bitset => "BITSET"
  | proc => "PROC"
  | nil => "NIL"
  | complex => "COMPLEX"
  | longComplex => "LONGCOMPLEX"
  | integer8 => "INTEGER8"
  | integer16 => "INTEGER16"
  | integer32 => "INTEGER32"
  | integer64 => "INTEGER64"
  | cardinal8 => "CARDINAL8"
  | cardinal16 => "CARDINAL16"
  | cardinal32 => "CARDINAL32"
  | cardinal64 => "CARDINAL64"
  | byte => "BYTE"
  | word => "WORD"
  | dword => "DWORD"
  | qword => "QWORD"
  | address => "ADDRESS"
  | adrint => "ADRINT"
  | adrcard => "ADRCARD"
  | achar => "ACHAR"
  | uchar => "UCHAR"
  | sysAddress => "ADDRESS"
  | sysLoc => "LOC"
  | sysByte => "BYTE"
  | sysWord => "WORD"
  | sysBitset => "BITSET"

theorem mem_all (b : Builtin) : b ∈ all := by
  cases b <;> decide

end Builtin

structure TypeArena (n : Nat) where
  types : List (TypeKind n)
deriving Repr, DecidableEq

namespace TypeArena
variable {n : Nat}

def new : TypeArena n := ⟨Builtin.all.map .builtin⟩

/-- `alloc`: the arena with the new type, and its id. -/
def alloc (T : TypeArena n) (kind : TypeKind n) : TypeArena n × TypeId :=
  (⟨T.types ++ [kind]⟩, T.types.length)

def allocUnresolved (T : TypeArena n) : TypeArena n × TypeId := T.alloc .unresolved

def set (T : TypeArena n) (id : TypeId) (kind : TypeKind n) : TypeArena n := ⟨T.types.set id kind⟩

/-- `get`; every id sema holds comes from `alloc`, so it is in range. -/
def get (T : TypeArena n) (id : TypeId) : TypeKind n := T.types.getD id .unresolved

/-- The id of a built-in. -/
def builtin (b : Builtin) : TypeId := Builtin.all.idxOf b

theorem builtin_injective : Function.Injective builtin := fun b _ h =>
  (List.idxOf_inj (Builtin.mem_all b)).1 h

theorem get_new_builtin (b : Builtin) : (new : TypeArena n).get (builtin b) = .builtin b := by
  simp only [get, new, builtin, List.getD_eq_getElem?_getD, List.getElem?_map,
    List.getElem?_idxOf (Builtin.mem_all b)]
  rfl

end TypeArena
end NewM2.Types
