import Mathlib
import NewM2.Codegen.IntValue
import NewM2.Codegen.Layout
import NewM2.Sema.Constant
import NewM2.Sema.Ordinal

/-!
# Record and array constructors (`newm2-sema/src/analyze.rs`, `newm2-ir/src/lower.rs`,
`newm2-llvm/src/codegen.rs`)

A constructor T{...} of constants is encoded twice. As a constant it is folded by `eval_aggregate_const`
and turned into an LLVM constant member by member; at run time `lower_aggregate_constructor` stores each
member into a slot of the type. `constructor_correct_iff` says for which constructors the constant has the members
of the slot, in value and position.
-/

namespace NewM2.Codegen.Aggregate
open Sema

/-! ## LLVM values -/

/-- The LLVM types of records and arrays with ordinal and set members. -/
inductive LTy
  | int (w : Nat)
  | struct (fields : List LTy)
  | array (n : Nat) (elem : LTy)

inductive LValue
  | int (v : IntValue)
  | struct (fields : List LValue)
  | array (elem : LTy) (items : List LValue)

/-- The allocated bytes and the alignment of an integer, which is at most 16. -/
def intLayout (w : Nat) : Nat × Nat :=
  let bytes := (w + 7) / 8
  let align := min 16 (2 ^ Nat.clog 2 bytes)
  (Layout.roundUp bytes align, align)

mutual

def LTy.layout : LTy → Nat × Nat
  | .int w => intLayout w
  | .struct fields =>
    let (offset, align) := structLayout (0, 1) fields
    (Layout.roundUp offset align, align)
  | .array n elem => (n * elem.layout.1, elem.layout.2)

def structLayout (acc : Nat × Nat) : List LTy → Nat × Nat
  | [] => acc
  | field :: fields =>
    structLayout (Layout.roundUp acc.1 field.layout.2 + field.layout.1, max acc.2 field.layout.2) fields

end

mutual

def LValue.ty : LValue → LTy
  | .int v => .int v.width
  | .struct fields => .struct (tys fields)
  | .array elem items => .array items.length elem

def tys : List LValue → List LTy
  | [] => []
  | v :: vs => v.ty :: tys vs

end

mutual

/-- The integers in a value that lies at `off`, with their positions. -/
def LValue.members : LValue → Nat → List (Nat × IntValue)
  | .int v, off => [(off, v)]
  | .struct fields, off => fieldMembers fields off 0
  | .array elem items, off => itemMembers elem.layout.1 items off

/-- The fields of a struct at `off`, from its byte `pos` on. -/
def fieldMembers : List LValue → Nat → Nat → List (Nat × IntValue)
  | [], _, _ => []
  | v :: vs, off, pos =>
    let pos := Layout.roundUp pos v.ty.layout.2
    v.members (off + pos) ++ fieldMembers vs off (pos + v.ty.layout.1)

def itemMembers (stride : Nat) : List LValue → Nat → List (Nat × IntValue)
  | [], _ => []
  | v :: vs, off => v.members off ++ itemMembers stride vs (off + stride)

end

mutual

/-- The integers in a value. -/
def LValue.values : LValue → List IntValue
  | .int v => [v]
  | .struct fields => listValues fields
  | .array _ items => listValues items

def listValues : List LValue → List IntValue
  | [] => []
  | v :: vs => v.values ++ listValues vs

end

/-- `coerce_int`. -/
def coerce (v : LValue) (target : LTy) : LValue :=
  match v, target with
  | .int v, .int w => .int (v.coerceInt w)
  | v, _ => v

/-! ## Types and constructors -/

/-- The types of the members: ordinal types, sets, records with their flattened fields, and arrays with
the numbers of elements of their dimensions. -/
inductive Ty
  | ordinal (t : Sema.Ty)
  | set
  | record (fields : List Ty)
  | array (dims : List Nat) (base : Ty)

/-- A member of a constructor: a constant, or a constructor of its own for the type of the member. -/
inductive Elem
  | const (v : ConstValue)
  | agg (elems : List Elem)

mutual

/-- `llvm_type`. -/
def Ty.llvm : Ty → LTy
  | .ordinal t => .int t.width
  | .set => .int 256
  | .record fields => .struct (llvms fields)
  | .array dims base => .array dims.prod base.llvm

def llvms : List Ty → List LTy
  | [] => []
  | t :: ts => t.llvm :: llvms ts

end

namespace Ty

/-- `Builtin::Char | Builtin::Uchar`. -/
def isWideChar : Ty → Bool
  | ordinal (.builtin .char) | ordinal (.builtin .uchar) => true
  | _ => false

def isChar : Ty → Bool
  | ordinal (.builtin .achar) => true
  | ty => ty.isWideChar

/-- `array_char_count`. -/
def arrayCharCount : Ty → Option Nat
  | array [n] base => if base.isWideChar then some n else none
  | _ => none

end Ty

/-! ## The constant -/

mutual

/-- `eval_aggregate_const`; members that are no constructors are folded already. -/
def evalAggregate : Ty → Elem → Option ConstValue
  | _, .const v => some v
  | .record fields, .agg elems => (evalFields fields elems).map .aggregate
  | .array _ base, .agg elems => (evalItems base elems).map .aggregate
  | _, .agg _ => none

def evalFields : List Ty → List Elem → Option (List ConstValue)
  | t :: ts, e :: es => do return (← evalAggregate t e) :: (← evalFields ts es)
  | _, _ => some []

/-- A string is spread over the cells of an array of characters. -/
def evalItems (base : Ty) : List Elem → Option (List ConstValue)
  | [] => some []
  | e :: es => do
    let v ← evalAggregate base e
    let vs ← evalItems base es
    match v with
    | .str s => if base.isChar then return s.toList.map .char ++ vs else return v :: vs
    | v => return v :: vs

end

/-- The 256-bit word of a set constant: bit `m & 255` for each member. -/
def setWord (members : List Int) : BitVec 256 :=
  members.foldl (fun acc m => acc ||| 1#256 <<< (m % 256).toNat) 0

/-- `const_int(n as u64, true)` at width `w`. -/
def constInt (w : Nat) (n : Int) : IntValue := .ofInt w (n.bmod (2 ^ 64))

mutual

def hasType : LValue → LTy → Bool
  | .int v, .int w => v.width == w
  | .struct fields, .struct tys => haveTypes fields tys
  | .array _ items, .array n elem => items.length == n && allHaveType elem items
  | _, _ => false

def haveTypes : List LValue → List LTy → Bool
  | [], [] => true
  | v :: vs, t :: ts => hasType v t && haveTypes vs ts
  | _, _ => false

def allHaveType (elem : LTy) : List LValue → Bool
  | [] => true
  | v :: vs => hasType v elem && allHaveType elem vs

end

/-- `const_array_of`; items of another type are not accepted by LLVM. -/
def constArrayOf (elem : LTy) (items : List LValue) : Option LValue :=
  if allHaveType elem items then some (.array elem items) else none

mutual

/-- `const_val_to_llvm` and `const_aggregate_to_llvm`. -/
def constValToLlvm : ConstValue → Ty → Option LValue
  | .int n, ty =>
    match ty.llvm with
    | .int w => some (.int (constInt w n))
    | _ => none
  | .bool b, _ => some (.int (.ofInt 1 b.toInt))
  | .char c, _ => some (.int (.ofInt 8 c.toNat))
  | .set members, _ => some (.int ⟨256, setWord members⟩)
  | .aggregate items, .record fields => (constFields items fields).map .struct
  | .aggregate items, .array _ base => (constItems items base).bind (constArrayOf base.llvm)
  | _, _ => none

def constFields : List ConstValue → List Ty → Option (List LValue)
  | v :: vs, t :: ts => do return (← constValToLlvm v t) :: (← constFields vs ts)
  | _, _ => some []

def constItems : List ConstValue → Ty → Option (List LValue)
  | [], _ => some []
  | v :: vs, base => do return coerce (← constValToLlvm v base) base.llvm :: (← constItems vs base)

end

mutual

def zero : LTy → LValue
  | .int w => .int (.ofInt w 0)
  | .struct fields => .struct (zeros fields)
  | .array n elem => .array elem (List.replicate n (zero elem))

def zeros : List LTy → List LValue
  | [] => []
  | t :: ts => zero t :: zeros ts

end

/-- `emit_const` of an aggregate: zeros where there is no constant. -/
def emitAggregate (value : ConstValue) (ty : Ty) : LValue := (constValToLlvm value ty).getD (zero ty.llvm)

/-! ## The slot -/

/-- The UTF-16 units of a character. -/
def utf16 (c : Char) : List (BitVec 16) :=
  if c.toNat < 0x10000 then [BitVec.ofNat 16 c.toNat]
  else [BitVec.ofNat 16 (0xD800 + (c.toNat - 0x10000) / 0x400),
    BitVec.ofNat 16 (0xDC00 + (c.toNat - 0x10000) % 0x400)]

/-- `NM2Str.WCopy` to `cap` cells, which hold `old`: the units before the first NUL, and a NUL where
there is room. -/
def wcopy (s : String) (cap : Nat) (old : Nat → BitVec 16) : List (BitVec 16) :=
  let units := ((s.toList.flatMap utf16).takeWhile (· ≠ 0)).take cap
  (List.range cap).map fun i => if i = units.length then 0 else units.getD i (old i)

/-- The word that `emit_sema_const` builds for a set: `1 << m` for each member, a shift by 256 or more
having no value. -/
def setConst (acc : BitVec 256) : List Int → Option (BitVec 256)
  | [] => some acc
  | m :: ms =>
    let shift := BitVec.ofInt 64 m
    if shift.toNat < 256 then setConst (acc ||| 1#256 <<< shift.toNat) ms else none

/-- `emit_sema_const`, of the constants whose value is an integer. -/
def emitSemaConst : ConstValue → Option IntValue
  | .int n => some (.ofInt 64 n)
  | .bool b => some (.ofInt 1 b.toInt)
  | .char c => some (.ofInt 16 c.toNat)
  | .set members => (setConst 0 members).map (⟨256, ·⟩)
  | _ => none

/-- What a member of the type holds when a constant is stored in it. A stored aggregate of another type
leaves no value of the type. -/
def storeConst (old : Nat → BitVec 16) (ty : Ty) (v : ConstValue) : Option LValue :=
  match v, ty.arrayCharCount with
  | .str s, some cap => some (.array (.int 16) ((wcopy s cap old).map fun u => .int ⟨16, u⟩))
  | .aggregate _, _ => if hasType (emitAggregate v ty) ty.llvm then some (emitAggregate v ty) else none
  | v, _ =>
    match ty.llvm with
    | .int w => (emitSemaConst v).map fun v => .int (v.coerceInt w)
    | _ => none

mutual

/-- `lower_aggregate_constructor`: the slot behind the stores. The cells of string members hold `old`
before. -/
def lowerConstructor (old : Nat → BitVec 16) : Ty → Elem → Option LValue
  | ty, .const v => storeConst old ty v
  | .record fields, .agg elems => (lowerFields old fields elems).map .struct
  | .array _ base, .agg elems => (lowerItems old base elems).map (.array base.llvm)
  | _, .agg _ => none

def lowerFields (old : Nat → BitVec 16) : List Ty → List Elem → Option (List LValue)
  | t :: ts, e :: es => do return (← lowerConstructor old t e) :: (← lowerFields old ts es)
  | _, _ => some []

def lowerItems (old : Nat → BitVec 16) (base : Ty) : List Elem → Option (List LValue)
  | [] => some []
  | e :: es => do return (← lowerConstructor old base e) :: (← lowerItems old base es)

end

/-! ## Constructors that fill their type -/

mutual

/-- The constructor has a member for each of the type, of its kind. A string or a character may fill an
array of characters; a string that stands for elements of such an array has one for each character. A
member may be an aggregate constant. -/
def Fills : Ty → Elem → Prop
  | .ordinal _, .const v => (∃ n, v = .int n) ∨ (∃ b, v = .bool b) ∨ ∃ c, v = .char c
  | .set, .const v => ∃ members, v = .set members
  | .array _ base, .const v =>
      base.isChar ∧ ((∃ s, v = .str s) ∨ ∃ c, v = .char c) ∨ ∃ vs, v = .aggregate vs
  | .record _, .const v => ∃ vs, v = .aggregate vs
  | .record fields, .agg elems => FillFields fields elems
  | .array dims base, .agg elems => FillItems base dims.prod elems
  | _, _ => False

def FillFields : List Ty → List Elem → Prop
  | [], [] => True
  | t :: ts, e :: es => Fills t e ∧ FillFields ts es
  | _, _ => False

def FillItems (base : Ty) : Nat → List Elem → Prop
  | n, [] => n = 0
  | n, .const (.str s) :: es => (base.isChar ∧ s.length ≤ n ∧ FillItems base (n - s.length) es) ∨
      (Fills base (.const (.str s)) ∧ 0 < n ∧ FillItems base (n - 1) es)
  | n, e :: es => Fills base e ∧ 0 < n ∧ FillItems base (n - 1) es

end

/-- A constructor `T{...}` that fills its type. -/
structure Constructor where
  ty : Ty
  elems : List Elem
  fills : Fills ty (.agg elems)

/-- The constant is there, and its members are those of the slot, each at its position. -/
def Correct (k : Constructor) : Prop :=
  ∀ old, ∃ c slot, (evalAggregate k.ty (.agg k.elems)).bind (constValToLlvm · k.ty) = some c ∧
    lowerConstructor old k.ty (.agg k.elems) = some slot ∧ c.members 0 = slot.members 0

/-! ## When they agree -/

/-- A constant in a member of width `w`: a character must fit in a byte, and outside of an array the
member must be a byte; a truth value outside of an array must have a member of one bit; the members
of a set must be in the word. -/
def LeafOk (inArray : Bool) (w : Nat) : ConstValue → Prop
  | .int _ => True
  | .bool _ => inArray ∨ w = 1
  | .char c => w = 8 ∨ inArray ∧ (w = 1 ∨ c.toNat % 2 ^ 16 < 256)
  | .set members => ∀ m ∈ members, m % 2 ^ 64 < 256
  | _ => False

/-- A constant in an aggregate constant that has the width `w` of its type. -/
def TypedLeaf (inArray : Bool) (w : Nat) : ConstValue → Prop
  | .int _ => True
  | .bool _ => inArray ∨ w = 1
  | .char _ => inArray ∨ w = 8
  | .set _ => inArray ∨ w = 256
  | _ => False

mutual

/-- A named aggregate constant has its type: outside of its arrays, only with characters of eight bits
and truth values of one. -/
def Typed (inArray : Bool) : Ty → ConstValue → Prop
  | .ordinal t, v => TypedLeaf inArray t.width v
  | .set, v => TypedLeaf inArray 256 v
  | .record fields, .aggregate vs => TypedFields fields vs
  | .array dims base, .aggregate vs => vs.length = dims.prod ∧ TypedItems base vs
  | _, _ => False

def TypedFields : List Ty → List ConstValue → Prop
  | [], _ => True
  | t :: ts, v :: vs => Typed false t v ∧ TypedFields ts vs
  | _ :: _, [] => False

def TypedItems (base : Ty) : List ConstValue → Prop
  | [] => True
  | v :: vs => Typed true base v ∧ TypedItems base vs

end

mutual

/-- No string is a member of the constructor, no character is an array, the other constants are
`LeafOk`, and the aggregate constants are `Typed`. -/
def Ok (inArray : Bool) : Ty → Elem → Prop
  | .ordinal t, .const v => LeafOk inArray t.width v
  | .set, .const v => LeafOk inArray 256 v
  | ty, .const v => Typed inArray ty v
  | .record fields, .agg elems => OkFields fields elems
  | .array _ base, .agg elems => OkItems base elems
  | _, .agg _ => False

def OkFields : List Ty → List Elem → Prop
  | t :: ts, e :: es => Ok false t e ∧ OkFields ts es
  | _, _ => True

def OkItems (base : Ty) : List Elem → Prop
  | [] => True
  | e :: es => Ok true base e ∧ OkItems base es

end

/-! ## Constants in members -/

/-- What a constant becomes in a member: in an array it is brought to the width of the elements. -/
def adjust (inArray : Bool) (ty : Ty) (c : LValue) : LValue := if inArray then coerce c ty.llvm else c

theorem width_cases (t : Sema.Ty) :
    t.width = 1 ∨ t.width = 8 ∨ t.width = 16 ∨ t.width = 32 ∨ t.width = 64 := by
  induction t with
  | builtin b => cases b <;> simp [Sema.Ty.width, Builtin.width]
  | enum names values => simp [Sema.Ty.width]
  | subrange host lo hi ih => exact ih

theorem resize_self (v : IntValue) : v.resize v.width = v := by
  obtain ⟨w, b⟩ := v
  exact congrArg (IntValue.mk w) (BitVec.setWidth_eq b)

theorem constInt_eq {w : Nat} (hw : w ≤ 64) (n : Int) : constInt w n = (IntValue.ofInt 64 n).resize w := by
  rw [IntValue.resize_ofInt, constInt, IntValue.ofInt, IntValue.ofInt, IntValue.ofInt_eq_iff.2]
  have hdvd : (2 : Int) ^ w ∣ 2 ^ 64 := pow_dvd_pow 2 hw
  have hbmod : n.bmod (2 ^ 64) ≡ n [ZMOD 2 ^ 64] := Int.bmod_emod
  exact (hbmod.of_dvd hdvd).trans ((Int.mod_modEq n _).of_dvd hdvd).symm

theorem ofInt_inj {w : Nat} {a b : Int} :
    IntValue.ofInt w a = IntValue.ofInt w b ↔ a ≡ b [ZMOD 2 ^ w] := by
  rw [← IntValue.ofInt_eq_iff]
  exact ⟨fun h => eq_of_heq (IntValue.mk.inj h).2, fun h => congrArg (IntValue.mk w) h⟩

/-- The character constant of eight bits and the code unit of sixteen, brought to one width. -/
theorem resize_char_iff {w : Nat} (hw : w = 1 ∨ w = 8 ∨ w = 16 ∨ w = 32 ∨ w = 64) (c : Char) :
    (IntValue.ofInt 8 c.toNat).resize w = (IntValue.ofInt 16 c.toNat).resize w ↔
      w = 8 ∨ w = 1 ∨ c.toNat % 2 ^ 16 < 256 := by
  rw [IntValue.resize_ofInt, IntValue.resize_ofInt, ofInt_inj, Int.ModEq]
  rcases hw with rfl | rfl | rfl | rfl | rfl <;> omega

theorem setConst_eq (acc : BitVec 256) (members : List Int) :
    setConst acc members =
      if ∀ m ∈ members, m % 2 ^ 64 < 256 then
        some (members.foldl (fun acc m => acc ||| 1#256 <<< (m % 256).toNat) acc)
      else none := by
  induction members generalizing acc with
  | nil => simp [setConst]
  | cons m ms ih =>
    have hm : ((BitVec.ofInt 64 m).toNat : Int) = m % 2 ^ 64 := by
      rw [BitVec.toNat_ofInt]
      push_cast
      exact Int.toNat_of_nonneg (Int.emod_nonneg _ (by decide))
    have hnn : 0 ≤ m % 2 ^ 64 := Int.emod_nonneg _ (by decide)
    rw [setConst]
    by_cases h : m % 2 ^ 64 < 256
    · have hshift : (BitVec.ofInt 64 m).toNat = (m % 256).toNat := by omega
      rw [if_pos (by omega), ih, hshift]
      simp only [List.forall_mem_cons, h, true_and, List.foldl_cons]
    · rw [if_neg (by omega), if_neg fun hall => h (hall m List.mem_cons_self)]

/-! ## Aggregate constants in members -/

theorem hasType_adjust_int {ty : Ty} {w : Nat} (hty : ty.llvm = .int w) (inArray : Bool) (c : IntValue) :
    hasType (adjust inArray ty (.int c)) ty.llvm ↔ inArray ∨ w = c.width := by
  rw [adjust, hty]
  cases inArray with
  | true => exact iff_of_true (beq_self_eq_true w) (.inl rfl)
  | false =>
    rw [if_neg Bool.false_ne_true, hasType, beq_iff_eq]
    simp only [Bool.false_eq_true, false_or, eq_comm]

theorem hasType_adjust_struct (inArray : Bool) (fields : List Ty) (cs : List LValue) :
    hasType (adjust inArray (.record fields) (.struct cs)) (Ty.record fields).llvm =
      haveTypes cs (llvms fields) := by
  cases inArray <;> rfl

theorem hasType_adjust_array (inArray : Bool) (dims : List Nat) (base : Ty) (cs : List LValue) :
    hasType (adjust inArray (.array dims base) (.array base.llvm cs)) (Ty.array dims base).llvm =
      (cs.length == dims.prod && allHaveType base.llvm cs) := by
  cases inArray <;> rfl

theorem constItems_length {base : Ty} : ∀ {vs : List ConstValue} {cs : List LValue},
    constItems vs base = some cs → cs.length = vs.length
  | [], _, h => by
    cases h
    rfl
  | v :: vs, _, h => by
    rw [constItems] at h
    simp only [Option.bind_eq_bind, Option.bind_eq_some_iff, Option.pure_def, Option.some.injEq] at h
    obtain ⟨c, -, cs, hcs, rfl⟩ := h
    exact congrArg Nat.succ (constItems_length hcs)

theorem typedLeaf_iff (inArray : Bool) (ty : Ty) (w : Nat) (hty : ty.llvm = .int w) (v : ConstValue) :
    TypedLeaf inArray w v ↔ ∃ c, constValToLlvm v ty = some c ∧ hasType (adjust inArray ty c) ty.llvm := by
  cases v with
  | int n =>
    have hc : constValToLlvm (.int n) ty = some (.int (constInt w n)) := by rw [constValToLlvm, hty]
    exact iff_of_true trivial ⟨_, hc, (hasType_adjust_int hty _ _).2 (.inr rfl)⟩
  | bool b | char c =>
    rw [TypedLeaf, constValToLlvm]
    simp only [Option.some.injEq, exists_eq_left', hasType_adjust_int hty]
    exact Iff.rfl
  | set members =>
    rw [TypedLeaf, constValToLlvm]
    simp only [Option.some.injEq, exists_eq_left', hasType_adjust_int hty]
  | aggregate vs =>
    refine iff_of_false id ?_
    rintro ⟨c, hc, -⟩
    cases ty <;> first | cases hc | cases hty
  | real | str | nil | funcRef | complex =>
    refine iff_of_false id ?_
    rintro ⟨c, hc, -⟩
    cases hc

theorem typed_iff_of_ne {inArray : Bool} {ty : Ty} {v : ConstValue} (hv : ∀ vs, v ≠ .aggregate vs) :
    Typed inArray ty v ↔ ∃ c, constValToLlvm v ty = some c ∧ hasType (adjust inArray ty c) ty.llvm := by
  cases ty with
  | ordinal t =>
    rw [Typed]
    exact typedLeaf_iff inArray (.ordinal t) t.width rfl v
  | set =>
    rw [Typed]
    exact typedLeaf_iff inArray .set 256 rfl v
  | record _ | array _ _ =>
    cases v with
    | aggregate vs => exact absurd rfl (hv vs)
    | _ =>
      refine iff_of_false id ?_
      rintro ⟨c, ⟨⟩, hty⟩ <;> cases inArray <;> cases hty

mutual

theorem typed_iff (inArray : Bool) : ∀ (ty : Ty) (v : ConstValue),
    Typed inArray ty v ↔ ∃ c, constValToLlvm v ty = some c ∧ hasType (adjust inArray ty c) ty.llvm
  | .record fields, .aggregate vs => by
    rw [Typed, typedFields_iff fields vs, constValToLlvm]
    constructor
    · rintro ⟨cs, hcs, hty⟩
      exact ⟨.struct cs, by rw [hcs, Option.map_some], (hasType_adjust_struct inArray fields cs).trans hty⟩
    · rintro ⟨c, hc, hty⟩
      obtain ⟨cs, hcs, rfl⟩ := Option.map_eq_some_iff.1 hc
      exact ⟨cs, hcs, (hasType_adjust_struct inArray fields cs).symm.trans hty⟩
  | .array dims base, .aggregate vs => by
    rw [Typed, typedItems_iff base vs, constValToLlvm]
    constructor
    · rintro ⟨hlen, cs, hcs, htys⟩
      refine ⟨.array base.llvm cs, ?_, ?_⟩
      · rw [hcs, Option.bind_some, constArrayOf, if_pos htys]
      · rw [hasType_adjust_array, Bool.and_eq_true, beq_iff_eq]
        exact ⟨(constItems_length hcs).trans hlen, htys⟩
    · rintro ⟨c, hc, hty⟩
      obtain ⟨cs, hcs, hc⟩ := Option.bind_eq_some_iff.1 hc
      rw [constArrayOf, Option.ite_none_right_eq_some, Option.some.injEq] at hc
      obtain ⟨htys, rfl⟩ := hc
      rw [hasType_adjust_array, Bool.and_eq_true, beq_iff_eq] at hty
      exact ⟨(constItems_length hcs).symm.trans hty.1, cs, hcs, htys⟩
  | .ordinal t, .aggregate vs => by
    rw [Typed]
    exact typedLeaf_iff inArray (.ordinal t) t.width rfl (.aggregate vs)
  | .set, .aggregate vs => by
    rw [Typed]
    exact typedLeaf_iff inArray .set 256 rfl (.aggregate vs)
  | _, .int _ | _, .real _ | _, .bool _ | _, .char _ | _, .str _ | _, .set _ | _, .nil
  | _, .funcRef _ | _, .complex _ _ => typed_iff_of_ne nofun

theorem typedFields_iff : ∀ (fields : List Ty) (vs : List ConstValue),
    TypedFields fields vs ↔ ∃ cs, constFields vs fields = some cs ∧ haveTypes cs (llvms fields)
  | [], vs => by
    rw [TypedFields]
    exact iff_of_true trivial ⟨[], by cases vs <;> rfl, rfl⟩
  | t :: ts, v :: vs => by
    rw [TypedFields, typed_iff false t v, typedFields_iff ts vs, constFields]
    simp only [Option.bind_eq_bind, Option.bind_eq_some_iff, Option.pure_def, Option.some.injEq]
    constructor
    · rintro ⟨⟨c, hc, hty⟩, cs, hcs, htys⟩
      exact ⟨c :: cs, ⟨c, hc, cs, hcs, rfl⟩, Bool.and_eq_true_iff.2 ⟨hty, htys⟩⟩
    · rintro ⟨_, ⟨c, hc, cs, hcs, rfl⟩, htys⟩
      obtain ⟨hty, htys⟩ := Bool.and_eq_true_iff.1 htys
      exact ⟨⟨c, hc, hty⟩, cs, hcs, htys⟩
  | _ :: _, [] => by
    refine iff_of_false id ?_
    rintro ⟨cs, ⟨⟩, ⟨⟩⟩

theorem typedItems_iff (base : Ty) : ∀ vs : List ConstValue,
    TypedItems base vs ↔ ∃ cs, constItems vs base = some cs ∧ allHaveType base.llvm cs
  | [] => iff_of_true trivial ⟨[], rfl, rfl⟩
  | v :: vs => by
    rw [TypedItems, typed_iff true base v, typedItems_iff base vs, constItems]
    simp only [Option.bind_eq_bind, Option.bind_eq_some_iff, Option.pure_def, Option.some.injEq]
    constructor
    · rintro ⟨⟨c, hc, hty⟩, cs, hcs, htys⟩
      exact ⟨_, ⟨c, hc, cs, hcs, rfl⟩, Bool.and_eq_true_iff.2 ⟨hty, htys⟩⟩
    · rintro ⟨_, ⟨c, hc, cs, hcs, rfl⟩, htys⟩
      obtain ⟨hty, htys⟩ := Bool.and_eq_true_iff.1 htys
      exact ⟨⟨c, hc, hty⟩, cs, hcs, htys⟩

end

/-! ## Both encodings -/

section agree
variable {old : Nat → BitVec 16} {inArray : Bool} {ty : Ty} {e : Elem}

/-- The constant and the slot have the same value where the member is `Ok`, and nowhere else; and they
have equally many integers. -/
structure Agree (old : Nat → BitVec 16) (inArray : Bool) (ty : Ty) (e : Elem) : Prop where
  ok : Ok inArray ty e → ∃ v c, evalAggregate ty e = some v ∧
    constValToLlvm v ty = some c ∧ lowerConstructor old ty e = some (adjust inArray ty c) ∧
    hasType (adjust inArray ty c) ty.llvm = true
  length : ∀ v c r, evalAggregate ty e = some v → constValToLlvm v ty = some c →
    lowerConstructor old ty e = some r → (adjust inArray ty c).values.length = r.values.length
  only : ∀ v c r, evalAggregate ty e = some v → constValToLlvm v ty = some c →
    lowerConstructor old ty e = some r → (adjust inArray ty c).values = r.values → Ok inArray ty e

/-- A constant in a member that is an integer. -/
theorem Agree.of_int {v : ConstValue} {c : IntValue} {w : Nat} (hv : ∀ s, v ≠ .str s)
    (hc : constValToLlvm v ty = some (.int c)) (hty : ty.llvm = .int w)
    (hok : Ok inArray ty (.const v) ↔
      ∃ x, emitSemaConst v = some x ∧ (if inArray then c.resize w else c) = x.resize w) :
    Agree old inArray ty (.const v) := by
  have hadjust : adjust inArray ty (.int c) = .int (if inArray then c.resize w else c) := by
    rw [adjust, hty]
    cases inArray <;> rfl
  have hr : lowerConstructor old ty (.const v) = (emitSemaConst v).map fun x => .int (x.resize w) := by
    rw [lowerConstructor, storeConst, hty]
    · rfl
    · rintro vs rfl
      cases ty <;> first | cases hc | cases hty
    · rintro s cap rfl
      exact absurd rfl (hv s)
  refine ⟨fun h => ?_, ?_, ?_⟩
  · obtain ⟨x, hx, hcx⟩ := hok.1 h
    refine ⟨v, .int c, rfl, hc, ?_, ?_⟩
    · rw [hr, hx, hadjust, hcx]
      rfl
    · rw [hadjust, hcx, hty, hasType]
      exact beq_self_eq_true w
  · rintro _ c' r' ⟨⟩ hc' hr'
    obtain rfl := Option.some.inj (hc.symm.trans hc')
    rw [hr] at hr'
    obtain ⟨x, -, rfl⟩ := Option.map_eq_some_iff.1 hr'
    rw [hadjust]
    rfl
  · rintro _ c' r' ⟨⟩ hc' hr' hvalues
    obtain rfl := Option.some.inj (hc.symm.trans hc')
    rw [hr] at hr'
    obtain ⟨x, hx, rfl⟩ := Option.map_eq_some_iff.1 hr'
    rw [hadjust] at hvalues
    exact hok.2 ⟨x, hx, List.singleton_inj.1 hvalues⟩

theorem Agree.of_aggregate (hty : ∀ w, ty.llvm ≠ .int w) (vs : List ConstValue) :
    Agree old inArray ty (.const (.aggregate vs)) := by
  have hok : Ok inArray ty (.const (.aggregate vs)) ↔ Typed inArray ty (.aggregate vs) := by
    cases ty with
    | ordinal t => exact absurd rfl (hty t.width)
    | set => exact absurd rfl (hty 256)
    | record _ | array _ _ => exact Iff.rfl
  have hadjust : ∀ c, adjust inArray ty c = c := by
    intro c
    unfold adjust coerce
    split <;> try rfl
    split <;> try rfl
    exact absurd ‹_› (hty _)
  have hlower : ∀ c, constValToLlvm (.aggregate vs) ty = some c →
      lowerConstructor old ty (.const (.aggregate vs)) = if hasType c ty.llvm then some c else none := by
    intro c hc
    rw [lowerConstructor, storeConst, emitAggregate, hc]
    rfl
  refine ⟨fun h => ?_, ?_, ?_⟩
  · obtain ⟨c, hc, htyped⟩ := (typed_iff inArray ty _).1 (hok.1 h)
    refine ⟨.aggregate vs, c, rfl, hc, ?_, htyped⟩
    rw [hadjust] at htyped ⊢
    rw [hlower c hc, if_pos htyped]
  · rintro _ c r ⟨⟩ hc hr
    rw [hlower c hc, Option.ite_none_right_eq_some, Option.some.injEq] at hr
    rw [hadjust, hr.2]
  · rintro _ c r ⟨⟩ hc hr -
    rw [hlower c hc, Option.ite_none_right_eq_some] at hr
    exact hok.2 ((typed_iff inArray ty _).2 ⟨c, hc, by rw [hadjust, hr.1]⟩)

theorem agree_const {v : ConstValue} (h : Fills ty (.const v)) : Agree old inArray ty (.const v) := by
  cases ty with
  | ordinal t =>
    have hw := width_cases t
    rcases h with ⟨n, rfl⟩ | ⟨b, rfl⟩ | ⟨c, rfl⟩
    · refine .of_int nofun rfl rfl (iff_of_true trivial ⟨_, rfl, ?_⟩)
      have heq := constInt_eq (w := t.width) (by omega) n
      have hself : (constInt t.width n).resize t.width = constInt t.width n := resize_self _
      rw [hself, ite_self, heq]
    · refine .of_int nofun rfl rfl ?_
      show inArray = true ∨ t.width = 1 ↔ ∃ x, some _ = some x ∧ _
      simp only [Option.some.injEq, exists_eq_left']
      cases inArray with
      | true => simp
      | false =>
        simp only [Bool.false_eq_true, false_or, if_false]
        constructor
        · rintro hw
          rw [hw]
          exact (resize_self (.ofInt 1 _)).symm
        · exact fun heq => (congrArg IntValue.width heq).symm
    · refine .of_int nofun rfl rfl ?_
      show (t.width = 8 ∨ inArray = true ∧ (t.width = 1 ∨ c.toNat % 2 ^ 16 < 256)) ↔
        ∃ x, some _ = some x ∧ _
      simp only [Option.some.injEq, exists_eq_left']
      have hiff := resize_char_iff hw c
      cases inArray with
      | true =>
        rw [if_pos rfl, hiff]
        simp
      | false =>
        simp only [Bool.false_eq_true, false_and, or_false, if_false]
        constructor
        · intro hw8
          have hself : (IntValue.ofInt 8 c.toNat).resize t.width = IntValue.ofInt 8 c.toNat := by
            rw [hw8]
            exact resize_self (.ofInt 8 _)
          rw [← hself]
          exact hiff.2 (.inl hw8)
        · exact fun heq => (congrArg IntValue.width heq).symm
  | set =>
    obtain ⟨members, rfl⟩ := h
    refine .of_int nofun rfl rfl ?_
    show (∀ m ∈ members, m % 2 ^ 64 < 256) ↔ ∃ x, (setConst 0 members).map _ = some x ∧ _
    have hself : ∀ b : BitVec 256, IntValue.resize ⟨256, b⟩ 256 = ⟨256, b⟩ := fun b => resize_self ⟨256, b⟩
    rw [setConst_eq, hself, ite_self]
    by_cases hall : ∀ m ∈ members, m % 2 ^ 64 < 256
    · rw [if_pos hall]
      exact iff_of_true hall ⟨_, rfl, (hself _).symm⟩
    · rw [if_neg hall]
      refine iff_of_false hall ?_
      rintro ⟨x, ⟨⟩, -⟩
  | array dims base =>
    obtain ⟨-, ⟨s, rfl⟩ | ⟨c, rfl⟩⟩ | ⟨vs, rfl⟩ := h
    · refine ⟨fun hok => hok.elim, ?_, ?_⟩
      · rintro _ c r ⟨⟩ ⟨⟩
      · rintro _ c r ⟨⟩ ⟨⟩
    · refine ⟨fun hok => hok.elim, ?_, ?_⟩
      · rintro _ c r ⟨⟩ ⟨⟩ ⟨⟩
      · rintro _ c r ⟨⟩ ⟨⟩ ⟨⟩
    · exact .of_aggregate (by rintro _ ⟨⟩) vs
  | record fields =>
    obtain ⟨vs, rfl⟩ := h
    exact .of_aggregate (by rintro _ ⟨⟩) vs

/-- `Agree` for the fields of a record. -/
structure AgreeFields (old : Nat → BitVec 16) (fields : List Ty) (elems : List Elem) : Prop where
  ok : OkFields fields elems → ∃ vs cs, evalFields fields elems = some vs ∧
    constFields vs fields = some cs ∧ lowerFields old fields elems = some cs ∧
    haveTypes cs (llvms fields) = true
  length : ∀ vs cs rs, evalFields fields elems = some vs → constFields vs fields = some cs →
    lowerFields old fields elems = some rs → (listValues cs).length = (listValues rs).length
  only : ∀ vs cs rs, evalFields fields elems = some vs → constFields vs fields = some cs →
    lowerFields old fields elems = some rs → listValues cs = listValues rs → OkFields fields elems

/-- `Agree` for the `n` elements of an array. -/
structure AgreeItems (old : Nat → BitVec 16) (base : Ty) (n : Nat) (elems : List Elem) : Prop where
  ok : OkItems base elems → ∃ vs cs, evalItems base elems = some vs ∧ constItems vs base = some cs ∧
    lowerItems old base elems = some cs ∧ allHaveType base.llvm cs = true ∧ cs.length = n
  length : ∀ vs cs rs, evalItems base elems = some vs → constItems vs base = some cs →
    lowerItems old base elems = some rs → (listValues cs).length = (listValues rs).length
  only : ∀ vs cs rs, evalItems base elems = some vs → constItems vs base = some cs →
    lowerItems old base elems = some rs → listValues cs = listValues rs → OkItems base elems

theorem AgreeFields.nil : AgreeFields old [] [] where
  ok _ := ⟨[], [], rfl, rfl, rfl, rfl⟩
  length := by
    rintro _ _ _ ⟨⟩ ⟨⟩ ⟨⟩
    rfl
  only _ _ _ _ _ _ _ := trivial

theorem AgreeFields.cons {t : Ty} {ts : List Ty} {e : Elem} {es : List Elem}
    (h : Agree old false t e) (hs : AgreeFields old ts es) : AgreeFields old (t :: ts) (e :: es) := by
  have hparts : ∀ vs cs rs, evalFields (t :: ts) (e :: es) = some vs →
      constFields vs (t :: ts) = some cs → lowerFields old (t :: ts) (e :: es) = some rs →
      ∃ v vs' c cs' r rs', evalAggregate t e = some v ∧ evalFields ts es = some vs' ∧
        constValToLlvm v t = some c ∧ constFields vs' ts = some cs' ∧
        lowerConstructor old t e = some r ∧ lowerFields old ts es = some rs' ∧
        cs = c :: cs' ∧ rs = r :: rs' := by
    intro vs cs rs hv hc hr
    rw [evalFields] at hv
    simp only [Option.bind_eq_bind, Option.bind_eq_some_iff, Option.pure_def, Option.some.injEq] at hv
    obtain ⟨v, hv, vs', hvs, rfl⟩ := hv
    rw [constFields] at hc
    rw [lowerFields] at hr
    simp only [Option.bind_eq_bind, Option.bind_eq_some_iff, Option.pure_def, Option.some.injEq] at hc hr
    obtain ⟨c, hc, cs', hcs, rfl⟩ := hc
    obtain ⟨r, hr, rs', hrs, rfl⟩ := hr
    exact ⟨v, vs', c, cs', r, rs', hv, hvs, hc, hcs, hr, hrs, rfl, rfl⟩
  refine ⟨fun hok => ?_, ?_, ?_⟩
  · obtain ⟨v, c, hv, hc, hr, hty⟩ := h.ok hok.1
    obtain ⟨vs, cs, hvs, hcs, hrs, htys⟩ := hs.ok hok.2
    refine ⟨v :: vs, c :: cs, ?_, ?_, ?_, ?_⟩
    · rw [evalFields, hv, hvs]
      rfl
    · rw [constFields, hc, hcs]
      rfl
    · rw [lowerFields, hr, hrs]
      rfl
    · show (hasType c t.llvm && haveTypes cs (llvms ts)) = true
      rw [Bool.and_eq_true]
      exact ⟨hty, htys⟩
  · intro _ _ _ hv hc hr
    obtain ⟨v, vs, c, cs, r, rs, hv', hvs, hc', hcs, hr', hrs, rfl, rfl⟩ := hparts _ _ _ hv hc hr
    simp only [listValues, List.length_append]
    exact congrArg₂ (· + ·) (h.length v c r hv' hc' hr') (hs.length vs cs rs hvs hcs hrs)
  · intro _ _ _ hv hc hr heq
    obtain ⟨v, vs, c, cs, r, rs, hv', hvs, hc', hcs, hr', hrs, rfl, rfl⟩ := hparts _ _ _ hv hc hr
    obtain ⟨hhead, htail⟩ := List.append_inj heq (h.length v c r hv' hc' hr')
    exact ⟨h.only v c r hv' hc' hr' hhead, hs.only vs cs rs hvs hcs hrs htail⟩

theorem AgreeItems.nil {base : Ty} : AgreeItems old base 0 [] where
  ok _ := ⟨[], [], rfl, rfl, rfl, rfl, rfl⟩
  length := by
    rintro _ _ _ ⟨⟩ ⟨⟩ ⟨⟩
    rfl
  only _ _ _ _ _ _ _ := trivial

/-- A string that stands for characters of the array: no member can be stored. -/
theorem AgreeItems.str {base : Ty} {n : Nat} {s : String} {es : List Elem} (hbase : base.isChar) :
    AgreeItems old base n (.const (.str s) :: es) := by
  have hnone : lowerItems old base (.const (.str s) :: es) = none := by
    cases base with
    | ordinal t => rfl
    | set | record _ | array _ _ => cases hbase
  refine ⟨fun hok => ?_, ?_, ?_⟩
  · cases base <;> exact hok.1.elim
  · intro vs cs rs _ _ hr
    cases hnone.symm.trans hr
  · intro vs cs rs _ _ hr
    cases hnone.symm.trans hr

/-- A string that has an element of its own is not spread. -/
theorem evalItems_cons {base : Ty} {es : List Elem} (h : Fills base e) :
    evalItems base (e :: es) = do return (← evalAggregate base e) :: (← evalItems base es) := by
  rw [evalItems]
  cases hbase : base.isChar with
  | false =>
    refine bind_congr fun v => bind_congr fun vs => ?_
    cases v <;> rfl
  | true =>
    rcases base with t | _ | _ | _ <;> try cases hbase
    rcases e with v | _
    · rcases h with ⟨n, rfl⟩ | ⟨b, rfl⟩ | ⟨c, rfl⟩ <;> rfl
    · exact h.elim

theorem AgreeItems.cons {base : Ty} {n : Nat} {es : List Elem} (hfills : Fills base e) (hn : 0 < n)
    (h : Agree old true base e) (hs : AgreeItems old base (n - 1) es) :
    AgreeItems old base n (e :: es) := by
  have hparts : ∀ vs cs rs, evalItems base (e :: es) = some vs → constItems vs base = some cs →
      lowerItems old base (e :: es) = some rs →
      ∃ v vs' c cs' r rs', evalAggregate base e = some v ∧ evalItems base es = some vs' ∧
        constValToLlvm v base = some c ∧ constItems vs' base = some cs' ∧
        lowerConstructor old base e = some r ∧ lowerItems old base es = some rs' ∧
        cs = adjust true base c :: cs' ∧ rs = r :: rs' := by
    intro vs cs rs hv hc hr
    rw [evalItems_cons hfills] at hv
    simp only [Option.bind_eq_bind, Option.bind_eq_some_iff, Option.pure_def, Option.some.injEq] at hv
    obtain ⟨v, hv, vs', hvs, rfl⟩ := hv
    rw [constItems] at hc
    rw [lowerItems] at hr
    simp only [Option.bind_eq_bind, Option.bind_eq_some_iff, Option.pure_def, Option.some.injEq] at hc hr
    obtain ⟨c, hc, cs', hcs, rfl⟩ := hc
    obtain ⟨r, hr, rs', hrs, rfl⟩ := hr
    exact ⟨v, vs', c, cs', r, rs', hv, hvs, hc, hcs, hr, hrs, rfl, rfl⟩
  refine ⟨fun hok => ?_, ?_, ?_⟩
  · obtain ⟨v, c, hv, hc, hr, hty⟩ := h.ok hok.1
    obtain ⟨vs, cs, hvs, hcs, hrs, htys, hlen⟩ := hs.ok hok.2
    refine ⟨v :: vs, adjust true base c :: cs, ?_, ?_, ?_, ?_, ?_⟩
    · rw [evalItems_cons hfills, hv, hvs]
      rfl
    · rw [constItems, hc, hcs]
      rfl
    · rw [lowerItems, hr, hrs]
      rfl
    · rw [allHaveType, Bool.and_eq_true]
      exact ⟨hty, htys⟩
    · rw [List.length_cons, hlen]
      exact Nat.sub_add_cancel hn
  · intro _ _ _ hv hc hr
    obtain ⟨v, vs, c, cs, r, rs, hv', hvs, hc', hcs, hr', hrs, rfl, rfl⟩ := hparts _ _ _ hv hc hr
    simp only [listValues, List.length_append]
    exact congrArg₂ (· + ·) (h.length v c r hv' hc' hr') (hs.length vs cs rs hvs hcs hrs)
  · intro _ _ _ hv hc hr heq
    obtain ⟨v, vs, c, cs, r, rs, hv', hvs, hc', hcs, hr', hrs, rfl, rfl⟩ := hparts _ _ _ hv hc hr
    obtain ⟨hhead, htail⟩ := List.append_inj heq (h.length v c r hv' hc' hr')
    exact ⟨h.only v c r hv' hc' hr' hhead, hs.only vs cs rs hvs hcs hrs htail⟩

theorem Agree.record {fields : List Ty} {elems : List Elem} (h : AgreeFields old fields elems) :
    Agree old inArray (.record fields) (.agg elems) := by
  have hadjust : ∀ cs, adjust inArray (.record fields) (.struct cs) = .struct cs := by
    intro cs
    rw [adjust]
    cases inArray <;> rfl
  have hparts : ∀ v c r, evalAggregate (.record fields) (.agg elems) = some v →
      constValToLlvm v (.record fields) = some c → lowerConstructor old (.record fields) (.agg elems) = some r →
      ∃ vs cs rs, evalFields fields elems = some vs ∧ constFields vs fields = some cs ∧
        lowerFields old fields elems = some rs ∧ c = .struct cs ∧ r = .struct rs := by
    intro v c r hv hc hr
    obtain ⟨vs, hvs, rfl⟩ := Option.map_eq_some_iff.1 hv
    obtain ⟨cs, hcs, rfl⟩ := Option.map_eq_some_iff.1 hc
    obtain ⟨rs, hrs, rfl⟩ := Option.map_eq_some_iff.1 hr
    exact ⟨vs, cs, rs, hvs, hcs, hrs, rfl, rfl⟩
  refine ⟨fun hok => ?_, ?_, ?_⟩
  · obtain ⟨vs, cs, hvs, hcs, hrs, htys⟩ := h.ok hok
    refine ⟨.aggregate vs, .struct cs, ?_, ?_, ?_, ?_⟩
    · rw [evalAggregate, hvs]
      rfl
    · rw [constValToLlvm, hcs]
      rfl
    · rw [lowerConstructor, hrs, hadjust]
      rfl
    · rw [hadjust]
      exact htys
  · intro _ _ _ hv hc hr
    obtain ⟨vs, cs, rs, hvs, hcs, hrs, rfl, rfl⟩ := hparts _ _ _ hv hc hr
    rw [hadjust]
    exact h.length vs cs rs hvs hcs hrs
  · intro _ _ _ hv hc hr heq
    obtain ⟨vs, cs, rs, hvs, hcs, hrs, rfl, rfl⟩ := hparts _ _ _ hv hc hr
    rw [hadjust] at heq
    exact h.only vs cs rs hvs hcs hrs heq

theorem Agree.array {dims : List Nat} {base : Ty} {elems : List Elem}
    (h : AgreeItems old base dims.prod elems) : Agree old inArray (.array dims base) (.agg elems) := by
  have hadjust : ∀ cs, adjust inArray (.array dims base) (.array base.llvm cs) = .array base.llvm cs := by
    intro cs
    rw [adjust]
    cases inArray <;> rfl
  have hparts : ∀ v c r, evalAggregate (.array dims base) (.agg elems) = some v →
      constValToLlvm v (.array dims base) = some c →
      lowerConstructor old (.array dims base) (.agg elems) = some r →
      ∃ vs cs rs, evalItems base elems = some vs ∧ constItems vs base = some cs ∧
        lowerItems old base elems = some rs ∧ c = .array base.llvm cs ∧ r = .array base.llvm rs := by
    intro v c r hv hc hr
    obtain ⟨vs, hvs, rfl⟩ := Option.map_eq_some_iff.1 hv
    obtain ⟨cs, hcs, hc⟩ := Option.bind_eq_some_iff.1 hc
    obtain ⟨rs, hrs, rfl⟩ := Option.map_eq_some_iff.1 hr
    rw [constArrayOf, Option.ite_none_right_eq_some, Option.some.injEq] at hc
    exact ⟨vs, cs, rs, hvs, hcs, hrs, hc.2.symm, rfl⟩
  refine ⟨fun hok => ?_, ?_, ?_⟩
  · obtain ⟨vs, cs, hvs, hcs, hrs, htys, hlen⟩ := h.ok hok
    refine ⟨.aggregate vs, .array base.llvm cs, ?_, ?_, ?_, ?_⟩
    · rw [evalAggregate, hvs]
      rfl
    · rw [constValToLlvm, hcs, Option.bind_some, constArrayOf, if_pos htys]
    · rw [lowerConstructor, hrs, hadjust]
      rfl
    · rw [hadjust, Ty.llvm, hasType, Bool.and_eq_true, beq_iff_eq]
      exact ⟨hlen, htys⟩
  · intro _ _ _ hv hc hr
    obtain ⟨vs, cs, rs, hvs, hcs, hrs, rfl, rfl⟩ := hparts _ _ _ hv hc hr
    rw [hadjust]
    exact h.length vs cs rs hvs hcs hrs
  · intro _ _ _ hv hc hr heq
    obtain ⟨vs, cs, rs, hvs, hcs, hrs, rfl, rfl⟩ := hparts _ _ _ hv hc hr
    rw [hadjust] at heq
    exact h.only vs cs rs hvs hcs hrs heq

end agree

section correct
variable (old : Nat → BitVec 16)

mutual

theorem agree (inArray : Bool) : ∀ (ty : Ty) (e : Elem), Fills ty e → Agree old inArray ty e
  | _, .const _, h => agree_const h
  | .record fields, .agg elems, h => .record (agree_fields fields elems h)
  | .array dims base, .agg elems, h => .array (agree_items base dims.prod elems h)
  | .ordinal _, .agg _, h => h.elim
  | .set, .agg _, h => h.elim

theorem agree_fields : ∀ (fields : List Ty) (elems : List Elem), FillFields fields elems →
    AgreeFields old fields elems
  | [], [], _ => .nil
  | t :: ts, e :: es, h => .cons (agree false t e h.1) (agree_fields ts es h.2)
  | [], _ :: _, h => h.elim
  | _ :: _, [], h => h.elim

theorem agree_items (base : Ty) : ∀ (n : Nat) (elems : List Elem), FillItems base n elems →
    AgreeItems old base n elems
  | _, [], h => by
    obtain rfl := h
    exact .nil
  | n, e :: es, h => by
    have hcase : (∃ s, e = .const (.str s) ∧ base.isChar) ∨
        Fills base e ∧ 0 < n ∧ FillItems base (n - 1) es := by
      rcases e with (_ | _ | _ | _ | s | _ | _ | _ | _ | _) | elems
      all_goals try exact .inr h
      exact h.imp (fun h => ⟨s, rfl, h.1⟩) id
    rcases hcase with ⟨s, rfl, hbase⟩ | ⟨hfills, hn, hrest⟩
    · exact .str hbase
    · exact .cons hfills hn (agree true base e hfills) (agree_items base (n - 1) es hrest)

end

end correct

mutual

theorem members_values : ∀ (v : LValue) (off : Nat), (v.members off).map Prod.snd = v.values
  | .int _, _ => rfl
  | .struct fields, off => fieldMembers_values fields off 0
  | .array _ items, off => itemMembers_values _ items off

theorem fieldMembers_values : ∀ (fields : List LValue) (off pos : Nat),
    (fieldMembers fields off pos).map Prod.snd = listValues fields
  | [], _, _ => rfl
  | v :: vs, off, pos => by
    rw [fieldMembers, List.map_append, members_values v, fieldMembers_values vs, listValues]

theorem itemMembers_values (stride : Nat) : ∀ (items : List LValue) (off : Nat),
    (itemMembers stride items off).map Prod.snd = listValues items
  | [], _ => rfl
  | v :: vs, off => by
    rw [itemMembers, List.map_append, members_values v, itemMembers_values stride vs, listValues]

end

/-- `RECORD a, b: CHAR END` has fields of sixteen bits. -/
def pair : Constructor where
  ty := .record [.ordinal (.builtin .char), .ordinal (.builtin .char)]
  elems := [.const (.char 'x'), .const (.char 'y')]
  fills := ⟨.inr (.inr ⟨_, rfl⟩), .inr (.inr ⟨_, rfl⟩), trivial⟩

end NewM2.Codegen.Aggregate
