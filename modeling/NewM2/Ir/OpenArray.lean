import NewM2.Codegen.Layout

/-! # Bounds of open arrays (`newm2-ir/src/lower.rs`)

A call of a procedure passes an open array as an address and a HIGH companion, which `eval_actual_high`
and `byte_view_high` compute from the form of the argument; a call of a method passes the address alone.
`exact_iff` says for which arguments the companion is the number of elements behind the address, less one;
in the callee and when it is passed on it does not change. -/

namespace NewM2.Ir.OpenArray
open NewM2.Types (Builtin)
open NewM2.Layout (arrayLength maxArrayLength InI128)

/-- The UTF-16 code units of a character. -/
def encodeChar (c : Char) : List Nat :=
  if c.toNat < 0x10000 then [c.toNat]
  else [0xD800 + (c.toNat - 0x10000) / 0x400, 0xDC00 + (c.toNat - 0x10000) % 0x400]

/-- `encode_utf16`. -/
def encodeUtf16 (s : List Char) : List Nat := s.flatMap encodeChar

/-- The array that `emit_const` lays a string out as. -/
def constUnits (s : List Char) : List Nat := encodeUtf16 s ++ [0]

/-- A formal `ARRAY OF element`. The elements take up storage: of others an address does not tell the
number. -/
structure Formal where
  element : Layout.Ty
  sized : 0 < element.allocSize

/-- The size of an element. -/
def Formal.es (formal : Formal) : Nat := formal.element.allocSize

/-- `byte_view_high`: a raw view of the storage. -/
def Formal.isLoc (formal : Formal) : Bool :=
  match formal.element with
  | .builtin b => b == .byte || b == .sysByte || b == .word || b == .sysWord || b == .sysLoc
  | _ => false

/-- An argument, by the forms that the lowering distinguishes. `charTy` is the character type that sema
gives a literal. -/
inductive Actual
  | string (s : List Char) (charTy : Builtin)
  | char (c : Char) (charTy : Builtin)
  -- a designator of a string constant
  | constString (s : List Char)
  -- a concatenation of constants, `s` when folded
  | concat (s : List Char)
  -- an open array parameter of the caller, with that many elements
  | openParam (name : String) (element : Layout.Ty) (length : Nat)
  -- any other designator of an open array, such as a heap array behind a pointer
  | openVar (bytes : Nat)
  -- any other designator
  | var (ty : Layout.Ty)
  -- a call or an aggregate
  | value (ty : Layout.Ty)

/-- The slots `name$high` of a function. -/
abbrev Frame := String → Option Int

/-- `chars().count() - 1`, but not negative. -/
def lastIndex (s : List Char) : Int := max ((s.length : Int) - 1) 0

/-- `dim_count`. -/
def dimCount (idx : Layout.Ty) : Int := idx.ordinalCardinality.getD 1

/-- The HIGH of an expression that is typed as a fixed array, 0 for one that is not. -/
def arrayHigh : Layout.Ty → Int
  | .array (first :: _) _ => max (dimCount first - 1) 0
  | _ => 0

/-- `fixed_array_high`, and `arrayHigh` where that does not answer. -/
def designatorHigh : Layout.Ty → Int
  | .array (.subrange _ lo hi :: _) _ => hi - lo
  | ty => arrayHigh ty

/-- `eval_actual_high`. -/
def evalActualHigh (frame : Frame) : Actual → Int
  | .string s _ | .constString s | .concat s => lastIndex s
  | .char c _ => lastIndex [c]
  | .openParam name _ _ => (frame name).getD 0
  | .openVar _ => 0
  | .var ty => designatorHigh ty
  | .value ty => arrayHigh ty

/-- The type that sema notes for the argument. A string constant is not asked for it. -/
def Actual.notedTy : Actual → Layout.Ty
  | .string _ charTy | .char _ charTy => .builtin charTy
  | .constString _ | .concat _ => .builtin .achar
  | .openParam .. | .openVar _ => .openArray
  | .var ty | .value ty => ty

/-- `byte_view_high`. -/
def byteViewHigh (formal : Formal) (a : Actual) : Option Int :=
  if formal.isLoc then some (((a.notedTy.allocSize / formal.es : Nat) : Int) - 1) else none

/-- The companion of an argument in `eval_call`; the branch for string constants comes first. -/
def companion (formal : Formal) (frame : Frame) (a : Actual) : Int :=
  match a with
  | .constString s => lastIndex s
  | a => (byteViewHigh formal a).getD (evalActualHigh frame a)

/-- What is called. -/
inductive Callee
  /-- By its name or through a value. -/
  | procedure
  | method
deriving DecidableEq

/-- The companion that the call passes. `try_method_dispatch` passes none, although `lower_method` gives the
method a parameter for it. -/
def passedHigh (callee : Callee) (formal : Formal) (frame : Frame) (a : Actual) : Option Int :=
  match callee with
  | .procedure => some (companion formal frame a)
  | .method => none

/-- The frame of the callee, after `FuncLower::new` has made the slot of the companion. -/
def calleeFrame (name : String) (high : Option Int) : Frame := fun n => if n = name then high else none

/-! ## The storage behind the address -/

/-- The bytes of a string constant without its terminator. -/
def stringBytes (s : List Char) : Nat := 2 * ((constUnits s).length - 1)

/-- The bytes of the data. A value that is no array is passed in place of an address. -/
def Actual.storedBytes : Actual → Option Nat
  | .string s _ | .constString s | .concat s => some (stringBytes s)
  | .char c _ => some (stringBytes [c])
  | .openParam _ element length => some (length * element.allocSize)
  | .openVar bytes => some bytes
  | .var ty => some ty.allocSize
  | .value ty =>
    match ty with
    | .array .. => some ty.allocSize
    | _ => none

/-- `ARRAY OF CHAR`, of any of the character types. -/
def Formal.isChar (formal : Formal) : Bool :=
  match formal.element with
  | .builtin b => b.inCharFamily
  | _ => false

/-- What sema asks of strings and characters: elements that are characters, or a view of the storage. -/
def Actual.Accepted (formal : Formal) : Actual → Prop
  | .string .. | .char .. | .constString _ | .concat _ => formal.isLoc ∨ formal.isChar
  | _ => True

/-- The companion of an open array parameter of the caller is its number of elements less one. -/
def Frame.Holds (frame : Frame) : Actual → Prop
  | .openParam name _ length => frame name = some ((length : Int) - 1)
  | _ => True

/-- There are `high + 1` elements in `bytes` bytes: a view of the storage has as many as fit in, otherwise
they fill it. -/
def CountsTo (formal : Formal) (high : Int) (bytes : Nat) : Prop :=
  if formal.isLoc then high + 1 = (bytes / formal.es : Nat) else (high + 1) * formal.es = bytes

/-- The companion counts the elements behind the address. The callee reads it back, and passes the same
one on. -/
structure Exact (callee : Callee) (formal : Formal) (frame : Frame) (a : Actual) : Prop where
  count : ∃ high bytes, passedHigh callee formal frame a = some high ∧ a.storedBytes = some bytes ∧
    CountsTo formal high bytes
  inside : ∀ name length, some (evalActualHigh (calleeFrame name (passedHigh callee formal frame a))
    (.openParam name formal.element length)) = passedHigh callee formal frame a
  forwarded : ∀ name length next, next.isLoc = false →
    passedHigh .procedure next (calleeFrame name (passedHigh callee formal frame a))
      (.openParam name formal.element length) = passedHigh callee formal frame a

/-! ## When it is exact -/

/-- Every character is one code unit. -/
def Bmp (s : List Char) : Prop := ∀ c ∈ s, c.toNat < 0x10000

/-- A string has as many units as characters, and one at least, in elements of two bytes. -/
def StringFits (es : Nat) (s : List Char) : Prop := es = 2 ∧ s ≠ [] ∧ Bmp s

/-- What is behind one value of the first index. -/
def rowBytes (indices : List Layout.Ty) (base : Layout.Ty) : Nat :=
  (indices.tail.map fun idx => (max (dimCount idx) 0).toNat).prod * base.allocSize

/-- A designator has elements of that size: one, or an array of them with a single dimension that counts,
or an empty subrange of them. -/
def DesignatorFits (es : Nat) : Layout.Ty → Prop
  | .array (.subrange host lo hi :: indices) base =>
    lo ≤ hi ∧ rowBytes (.subrange host lo hi :: indices) base = es ∨ hi + 1 = lo
  | .array (first :: indices) base => 0 < dimCount first ∧ rowBytes (first :: indices) base = es
  | ty => ty.allocSize = es

/-- An array value likewise, but not an empty one. -/
def ValueFits (es : Nat) : Layout.Ty → Prop
  | .array (first :: indices) base => 0 < dimCount first ∧ rowBytes (first :: indices) base = es
  | .array [] base => base.allocSize = es
  | _ => False

def IsArray : Layout.Ty → Prop
  | .array .. => True
  | _ => False

/-- The form of the argument is counted right. -/
def Counted (formal : Formal) : Actual → Prop
  | .string s charTy =>
    if formal.isLoc then
      (Layout.builtinLayout charTy).1 / formal.es = stringBytes s / formal.es
    else StringFits formal.es s
  | .char c charTy =>
    if formal.isLoc then
      (Layout.builtinLayout charTy).1 / formal.es = stringBytes [c] / formal.es
    else StringFits formal.es [c]
  | .constString s => StringFits formal.es s
  | .concat s =>
    if formal.isLoc then 1 / formal.es = stringBytes s / formal.es
    else StringFits formal.es s
  | .openParam _ element length =>
    if formal.isLoc then 8 / formal.es = length * element.allocSize / formal.es
    else length = 0 ∨ element.allocSize = formal.es
  | .openVar bytes =>
    if formal.isLoc then 8 / formal.es = bytes / formal.es else bytes = formal.es
  | .var ty => formal.isLoc = true ∨ DesignatorFits formal.es ty
  | .value ty => if formal.isLoc then IsArray ty else ValueFits formal.es ty

variable {formal : Formal} {frame : Frame} {a : Actual} {s : List Char} {es : Nat}

/-! ### Strings -/

theorem length_encodeChar (c : Char) : (encodeChar c).length = if c.toNat < 0x10000 then 1 else 2 := by
  unfold encodeChar
  split <;> rfl

end NewM2.Ir.OpenArray
