import Mathlib.Algebra.Order.Ring.Int
import Mathlib.Tactic.Common

/-! # Ordinal types (`newm2-sema/src/types.rs`, `analyze.rs`)

The built-in, enumeration and subrange types whose values are LLVM integers, with the facts the
lowering asks for: ordinal bounds, families, compatibility, the width of the representation and the
scalar class of a value conversion. The address family and SYSTEM.LOC are pointers and not among
them. -/

namespace NewM2.Sema

inductive Builtin
  | boolean | char | achar | uchar
  | integer | longInt | integer8 | integer16 | integer32 | integer64
  | cardinal | longCard | cardinal8 | cardinal16 | cardinal32 | cardinal64
  | byte | word | dword | qword | sysByte | sysWord
deriving Repr, DecidableEq

inductive Ty
  | builtin (b : Builtin)
  | enum (names : List String) (values : List Int)
  | subrange (host : Ty) (lo hi : Int)
deriving Repr, DecidableEq

namespace Builtin

/-- `builtin_ordinal_bounds`; SYSTEM.WORD has none. -/
def ordinalBounds : Builtin → Option (Int × Int)
  | boolean => some (0, 1)
  | char | uchar => some (0, 0xFFFF)
  | achar | byte | sysByte | cardinal8 => some (0, 0xFF)
  | integer8 => some (-128, 127)
  | cardinal16 | word => some (0, 0xFFFF)
  | integer16 => some (-32768, 32767)
  | cardinal32 | dword => some (0, 0xFFFFFFFF)
  | integer32 => some (-2147483648, 2147483647)
  | cardinal | cardinal64 | qword | longCard => some (0, 18446744073709551615)
  | integer | integer64 | longInt => some (-9223372036854775808, 9223372036854775807)
  | sysWord => none

def inCardinalFamily : Builtin → Bool
  | cardinal | cardinal8 | cardinal16 | cardinal32 | cardinal64 | longCard => true
  | _ => false

def inIntegerFamily : Builtin → Bool
  | integer | integer8 | integer16 | integer32 | integer64 | longInt => true
  | _ => false

def inCharFamily : Builtin → Bool
  | char | achar | uchar => true
  | _ => false

/-- `is_same_family`. -/
def isSameFamily (a b : Builtin) : Bool :=
  a == b || (a.inCardinalFamily && b.inCardinalFamily) || (a.inIntegerFamily && b.inIntegerFamily) ||
    (a.inCharFamily && b.inCharFamily)

/-- `builtin_type`: the width of the LLVM integer. -/
def width : Builtin → Nat
  | boolean => 1
  | char | uchar => 16
  | byte | sysByte | achar => 8
  | integer8 | cardinal8 => 8
  | integer16 | cardinal16 | word => 16
  | integer32 | cardinal32 | dword => 32
  | integer | cardinal | integer64 | cardinal64 | qword | longInt | longCard => 64
  | sysWord => 64

end Builtin

namespace Ty

/-- `ordinal_bounds`. -/
def ordinalBounds : Ty → Option (Int × Int)
  | builtin b => b.ordinalBounds
  | enum _ values =>
    match values.min?, values.max? with
    | some lo, some hi => some (lo, hi)
    | _, _ => none
  | subrange _ lo hi => some (lo, hi)

/-- `v` is a value of the type. -/
def Mem (ty : Ty) (v : Int) : Prop := ∃ b ∈ ty.ordinalBounds, b.1 ≤ v ∧ v ≤ b.2

instance (ty : Ty) (v : Int) : Decidable (ty.Mem v) :=
  inferInstanceAs (Decidable (∃ b ∈ ty.ordinalBounds, b.1 ≤ v ∧ v ≤ b.2))

/-- `llvm_type`: the width of the representation. -/
def width : Ty → Nat
  | builtin b => b.width
  | enum _ _ => 32
  | subrange host _ _ => host.width

/-- `types_compatible` with a left type that is not a subrange. -/
def compatibleHost (l : Ty) : Ty → Bool
  | subrange host _ _ => compatibleHost l host
  | r =>
    l == r ||
    match l, r with
    | builtin a, builtin b => a.isSameFamily b
    | enum a _, enum b _ => a == b
    | _, _ => false

/-- `types_compatible`. -/
def compatible (l r : Ty) : Bool :=
  l == r ||
  match l with
  | subrange host _ _ => host.compatible r
  | l => l.compatibleHost r

/-- `is_integer_family_type`. -/
def isIntegerFamily : Ty → Bool
  | builtin b =>
    match b with
    | .integer | .longInt | .integer8 | .integer16 | .integer32 | .integer64 | .cardinal | .longCard
    | .cardinal8 | .cardinal16 | .cardinal32 | .cardinal64 | .byte | .word | .dword | .qword
    | .sysWord | .sysByte => true
    | _ => false
  | enum _ _ | subrange _ _ _ => true

/-- `is_numeric_type`. -/
def isNumeric : Ty → Bool
  | builtin b =>
    match b with
    | .integer | .longInt | .integer8 | .integer16 | .integer32 | .integer64 | .cardinal | .longCard
    | .cardinal8 | .cardinal16 | .cardinal32 | .cardinal64 | .byte | .word | .dword | .qword => true
    | _ => false
  | enum _ _ | subrange _ _ _ => true

theorem width_pos : ∀ ty : Ty, 0 < ty.width
  | builtin b => by cases b <;> decide
  | enum _ _ => Nat.zero_lt_succ 31
  | subrange host _ _ => host.width_pos

theorem width_le : ∀ ty : Ty, ty.width ≤ 64
  | builtin b => by cases b <;> decide
  | enum _ _ => Nat.le_add_right 32 32
  | subrange host _ _ => host.width_le

end Ty
end NewM2.Sema
