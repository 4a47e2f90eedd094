import Mathlib
import NewM2.Sema.Types

/-! # Folded sizes and the layout (`newm2-sema/src/analyze.rs`, `newm2-llvm/src/codegen.rs`)

`typeSizeBytes` is the size that SIZE and TSIZE fold to in a constant expression, `allocSize` the number
of bytes of the LLVM type that codegen maps the type to. The expression is folded while the declarations
are still being resolved, so `Becomes` relates the type as sema has it then to the finished one.
`sizeFolds_iff` says for which types the two sizes are the same. -/

namespace NewM2.Layout
open NewM2.Types

/-- The SIMD types of the pervasive scope, REAL64X2 and REAL32X4; there are no others. -/
inductive VectorTy
  | real64x2 | real32x4
deriving Repr, DecidableEq

def VectorTy.lanes : VectorTy → Nat
  | real64x2 => 2
  | real32x4 => 4

def VectorTy.base : VectorTy → Builtin
  | real64x2 => .real
  | real32x4 => .real32

/-- A type as its values are laid out: the arena unfolded as far as storage is by value. The fields of a
record are the flattened ones, with those of its variant part. -/
inductive Ty
  | unresolved
  | builtin (b : Builtin)
  | enum (values : List Int)
  | subrange (host : Ty) (lo hi : Int)
  | array (indices : List Ty) (base : Ty)
  | openArray
  | pointer
  | record (fields : List Ty)
  | set (base : Ty)
  | vector (v : VectorTy)
  | proc
  | «class»
deriving Repr

/-- What a type can become until all declarations are resolved. A type whose declaration comes later is
still unresolved, as is an alias of it. The host of a subrange is found with it; its bounds are formed
again when all interfaces are there (`reresolve_named_aliases`), and so index types may change. -/
inductive Ty.Becomes : Ty → Ty → Prop
  | resolved (ty : Ty) : Becomes unresolved ty
  | builtin (b : Builtin) : Becomes (builtin b) (builtin b)
  | enum (values : List Int) : Becomes (enum values) (enum values)
  | subrange {host host' : Ty} (lo hi lo' hi' : Int) : Becomes host host' →
      Becomes (subrange host lo hi) (subrange host' lo' hi')
  | array {base base' : Ty} (indices indices' : List Ty) : Becomes base base' →
      Becomes (array indices base) (array indices' base')
  | openArray : Becomes openArray openArray
  | pointer : Becomes pointer pointer
  | record (fields fields' : List Ty) : Becomes (record fields) (record fields')
  | set {base base' : Ty} : Becomes base base' → Becomes (set base) (set base')
  | vector (v : VectorTy) : Becomes (vector v) (vector v)
  | proc : Becomes proc proc
  | «class» : Becomes «class» «class»

/-! ## Arithmetic of `i128` -/

def InI128 (x : Int) : Prop := -2 ^ 127 ≤ x ∧ x < 2 ^ 127

instance (x : Int) : Decidable (InI128 x) := inferInstanceAs (Decidable (_ ∧ _))

/-- `checked_mul`. -/
def checkedMul (a b : Int) : Option Int := if InI128 (a * b) then some (a * b) else none

namespace Ty

/-- `ordinal_bounds`. -/
def ordinalBounds : Ty → Option (Int × Int)
  | subrange _ lo hi => some (lo, hi)
  | enum values =>
    match values.min?, values.max? with
    | some lo, some hi => some (lo, hi)
    | _, _ => none
  | set base => base.ordinalBounds
  | builtin b => b.ordinalBounds
  | _ => none

/-- `ordinal_cardinality`. -/
def ordinalCardinality (ty : Ty) : Option Int :=
  ty.ordinalBounds.bind fun b => if InI128 (b.2 - b.1 + 1) then some (b.2 - b.1 + 1) else none

end Ty

/-! ## Sema -/

/-- `builtin_size_bytes`. -/
def builtinSizeBytes : Builtin → Int
  | .boolean | .byte | .sysByte | .sysLoc | .achar | .integer8 | .cardinal8 => 1
  | .char | .uchar | .integer16 | .cardinal16 | .word | .real16 => 2
  | .integer32 | .cardinal32 | .dword | .real32 => 4
  | .integer | .cardinal | .integer64 | .cardinal64 | .qword | .longInt | .longCard | .real
  | .longReal | .sysWord | .address | .sysAddress | .adrint | .adrcard | .nil | .proc => 8
  | .complex | .longComplex => 16
  | .bitset | .sysBitset => 32

/-- The loop over the index types in `type_size_bytes`. -/
def elementCount (count : Int) : List Ty → Option Int
  | [] => some count
  | idx :: indices =>
    match idx.ordinalCardinality with
    | some c => (checkedMul count c).bind (elementCount · indices)
    | none => none

/-- `type_size_bytes`. -/
def Ty.typeSizeBytes : Ty → Option Int
  | builtin b => some (builtinSizeBytes b)
  | subrange host _ _ => host.typeSizeBytes
  | enum _ => some 4
  | pointer | proc => some 8
  | set _ => some 32
  | array indices base =>
    match base.typeSizeBytes with
    | some size => (elementCount 1 indices).bind (checkedMul · size)
    | none => none
  | vector v => checkedMul (builtinSizeBytes v.base) v.lanes
  | record _ | openArray | .class | unresolved => none

/-- SIZE and TSIZE in `eval_builtin_call`: the value that `prefill_type_builtins` has put in for the
type as it is at the moment, or else a placeholder. -/
def Ty.evalSize (ty : Ty) : Int := ty.typeSizeBytes.getD 0

/-- There was no value to put in. -/
def Ty.sizeIsPlaceholder (ty : Ty) : Bool := ty.typeSizeBytes.isNone

/-! ## Codegen -/

def roundUp (n a : Nat) : Nat := (n + a - 1) / a * a

/-- `builtin_type`: the allocated bytes and the alignment of the LLVM type. -/
def builtinLayout : Builtin → Nat × Nat
  | .boolean => (1, 1)
  | .char | .uchar => (2, 2)
  | .byte | .sysByte | .achar | .integer8 | .cardinal8 => (1, 1)
  | .integer16 | .cardinal16 | .word => (2, 2)
  | .integer32 | .cardinal32 | .dword => (4, 4)
  | .integer | .cardinal | .integer64 | .cardinal64 | .qword | .longInt | .longCard => (8, 8)
  -- i256 is aligned like the largest integer of the data layout
  | .bitset | .sysBitset => (32, 16)
  | .real | .longReal => (8, 8)
  | .real32 => (4, 4)
  | .real16 => (2, 2)
  | .address | .sysAddress | .sysLoc | .adrint | .adrcard | .nil | .proc => (8, 8)
  | .complex | .longComplex => (16, 8)
  | .sysWord => (8, 8)

def maxArrayLength : Nat := 2 ^ 32 - 1

/-- The length of the LLVM array type. -/
def arrayLength (indices : List Ty) : Nat :=
  min (indices.map fun idx => (max (idx.ordinalCardinality.getD 1) 0).toNat).prod maxArrayLength

mutual
/-- `llvm_type`, by its allocated bytes and its alignment. -/
def Ty.layout : Ty → Nat × Nat
  | .builtin b => builtinLayout b
  | .pointer | .proc => (8, 8)
  | .array indices base => (arrayLength indices * base.layout.1, base.layout.2)
  | .record fields =>
    let (offset, align) := structLayout (0, 1) fields
    (roundUp offset align, align)
  | .enum _ => (4, 4)
  | .subrange host _ _ => host.layout
  | .set _ => (32, 16)
  | .vector _ => (16, 16)
  | .openArray | .class | .unresolved => (8, 8)
/-- The end of the fields behind `acc.1` bytes, and the largest alignment. -/
def structLayout (acc : Nat × Nat) : List Ty → Nat × Nat
  | [] => acc
  | field :: fields =>
    structLayout (roundUp acc.1 field.layout.2 + field.layout.1, max acc.2 field.layout.2) fields
end

/-- The bytes that codegen allocates for a value. -/
def Ty.allocSize (ty : Ty) : Nat := ty.layout.1

/-- SIZE of a type that is `now` when it is folded, and finally `ty`, folds to the size of the layout,
not to a placeholder. -/
structure SizeFolds (now ty : Ty) : Prop where
  eq : now.evalSize = ty.allocSize
  real : now.sizeIsPlaceholder = false

/-! ## When they agree -/

namespace Ty

/-- The element type of an array in all its dimensions. -/
def elem : Ty → Ty
  | array _ base => base.elem
  | subrange host _ _ => host.elem
  | ty => ty

/-- The index types, one list for each ARRAY. -/
def dims : Ty → List (List Ty)
  | array indices base => indices :: base.dims
  | subrange host _ _ => host.dims
  | _ => []

/-- Sema has a size for the type, which is no array. -/
def isSized : Ty → Bool
  | builtin _ | enum _ | pointer | proc | set _ | vector _ => true
  | _ => false

def isLoc : Ty → Bool
  | builtin .sysLoc => true
  | _ => false

/-- The number of values of an index type, negative for bounds far out of order. -/
def cardinality (idx : Ty) : Int := idx.ordinalCardinality.getD 0

/-- The elements sema counts in one ARRAY. -/
def nodeCount (indices : List Ty) : Int := (indices.map cardinality).prod

/-- The elements sema counts. -/
def declaredCount (ty : Ty) : Int := (ty.dims.map nodeCount).prod

/-- The elements codegen makes room for. -/
def storedCount (ty : Ty) : Nat := (ty.dims.map arrayLength).prod

/-- The bytes sema counts for an element. -/
def elemBytes (ty : Ty) : Int := if ty.elem.isLoc then 1 else ty.elem.allocSize

/-- No product that sema computes on the way overflows. -/
def Fits : Ty → Prop
  | array indices base =>
    base.Fits ∧ (∀ k ≤ indices.length, InI128 (nodeCount (indices.take k))) ∧
      InI128 (nodeCount indices * (base.declaredCount * base.elemBytes))
  | subrange host _ _ => host.Fits
  | _ => True

/-- Sema already has an array over index types that are ordinal, of elements that have a size, with as
many elements as codegen makes room for in the finished type; for SYSTEM.LOC, a byte in sema and a
pointer in codegen, eight times as many. -/
structure Foldable (now ty : Ty) : Prop where
  sized : now.elem.isSized = true
  ordinal : ∀ indices ∈ now.dims, ∀ idx ∈ indices, idx.ordinalCardinality.isSome
  fits : now.Fits
  count : now.declaredCount = if now.elem.isLoc then 8 * ty.storedCount else ty.storedCount

end Ty

/-! ### Sema's size -/

section
open Ty
variable {ty idx : Ty} {indices : List Ty} {count c s t a b : Int}

theorem checkedMul_eq_some : checkedMul a b = some c ↔ InI128 (a * b) ∧ c = a * b := by
  unfold checkedMul
  split
  · next h => simp [h, eq_comm]
  · next h => simp [h]

@[simp] theorem nodeCount_nil : nodeCount [] = 1 := rfl

@[simp] theorem nodeCount_cons : nodeCount (idx :: indices) = idx.cardinality * nodeCount indices := by
  simp [nodeCount]

theorem elementCount_cons (h : idx.ordinalCardinality.isSome) :
    elementCount count (idx :: indices) =
      (checkedMul count idx.cardinality).bind (elementCount · indices) := by
  obtain ⟨c, hc⟩ := Option.isSome_iff_exists.1 h
  simp [elementCount, cardinality, hc]

/-- The loop multiplies the cardinalities up, as long as they are there and the product fits. -/
theorem elementCount_eq_some : elementCount count indices = some s ↔
    (∀ idx ∈ indices, idx.ordinalCardinality.isSome) ∧
      (∀ k ≤ indices.length, 0 < k → InI128 (count * nodeCount (indices.take k))) ∧
        s = count * nodeCount indices := by
  induction indices generalizing count with
  | nil =>
    simp only [elementCount, Option.some.injEq, List.length_nil, nodeCount_nil, mul_one]
    constructor
    · rintro rfl
      exact ⟨by simp, fun k hk hpos => absurd hk (by omega), rfl⟩
    · rintro ⟨-, -, rfl⟩
      rfl
  | cons idx indices ih =>
    by_cases hidx : idx.ordinalCardinality.isSome
    · rw [elementCount_cons hidx]
      simp only [Option.bind_eq_some_iff, checkedMul_eq_some, ih, List.forall_mem_cons, hidx, true_and,
        nodeCount_cons]
      constructor
      · rintro ⟨_, ⟨hfit, rfl⟩, hall, hfits, rfl⟩
        refine ⟨hall, fun k hk hpos => ?_, mul_assoc ..⟩
        rcases k with _ | _ | k
        · omega
        · simpa using hfit
        · have := hfits (k + 1) (by simpa using hk) (by omega)
          simpa [mul_assoc] using this
      · rintro ⟨hall, hfits, rfl⟩
        refine ⟨_, ⟨by simpa using hfits 1 (by simp) one_pos, rfl⟩, hall, fun k hk hpos => ?_,
          (mul_assoc ..).symm⟩
        simpa [mul_assoc] using hfits (k + 1) (by simpa using hk) (by omega)
    · have hnone : idx.ordinalCardinality = none := by simpa using hidx
      simp [elementCount, hnone]

theorem inI128_one : InI128 1 := by decide

/-- Where the running products start from one, the empty one fits too. -/
theorem elementCount_one_eq_some : elementCount 1 indices = some s ↔
    (∀ idx ∈ indices, idx.ordinalCardinality.isSome) ∧
      (∀ k ≤ indices.length, InI128 (nodeCount (indices.take k))) ∧ s = nodeCount indices := by
  rw [elementCount_eq_some]
  simp only [one_mul]
  refine and_congr_right fun _ => and_congr_left fun _ => ?_
  constructor
  · intro h k hk
    rcases k.eq_zero_or_pos with rfl | hpos
    · exact inI128_one
    · exact h k hk hpos
  · exact fun h k hk _ => h k hk

/-- The size sema finds, if it finds one. -/
def Ty.declaredSize (ty : Ty) : Int := ty.declaredCount * ty.elemBytes

theorem declaredSize_array {base : Ty} :
    (Ty.array indices base).declaredSize = nodeCount indices * base.declaredSize := by
  show ((nodeCount indices :: base.dims.map nodeCount).prod) * base.elemBytes = _
  rw [List.prod_cons, mul_assoc]
  rfl

theorem declaredSize_builtin (b : Builtin) : (Ty.builtin b).declaredSize = builtinSizeBytes b := by
  cases b <;> rfl

/-- What has to be so for sema to have a size. -/
structure Ty.HasSize (ty : Ty) : Prop where
  sized : ty.elem.isSized = true
  ordinal : ∀ indices ∈ ty.dims, ∀ idx ∈ indices, idx.ordinalCardinality.isSome
  fits : ty.Fits

theorem hasSize_array {base : Ty} : (Ty.array indices base).HasSize ↔
    base.HasSize ∧ (elementCount 1 indices = some (nodeCount indices)) ∧
      InI128 (nodeCount indices * base.declaredSize) := by
  rw [elementCount_one_eq_some]
  constructor
  · rintro ⟨hsized, hordinal, hbase, hfits, hsize⟩
    have hordinal : (∀ idx ∈ indices, idx.ordinalCardinality.isSome) ∧
        ∀ indices ∈ base.dims, ∀ idx ∈ indices, idx.ordinalCardinality.isSome :=
      List.forall_mem_cons.1 hordinal
    exact ⟨⟨hsized, hordinal.2, hbase⟩, ⟨hordinal.1, hfits, rfl⟩, hsize⟩
  · rintro ⟨⟨hsized, hordinal, hbase⟩, ⟨hidx, hfits, -⟩, hsize⟩
    exact ⟨hsized, List.forall_mem_cons.2 ⟨hidx, hordinal⟩, hbase, hfits, hsize⟩

theorem hasSize_of_dims_nil (ty : Ty) (hdims : ty.dims = []) (hfits : ty.Fits) :
    ty.HasSize ↔ ty.elem.isSized = true :=
  ⟨fun h => h.sized, fun h => ⟨h, by simp [hdims], hfits⟩⟩

theorem typeSizeBytes_array_eq_some {base : Ty}
    (ih : ∀ s, base.typeSizeBytes = some s ↔ base.HasSize ∧ s = base.declaredSize) :
    (array indices base).typeSizeBytes = some s ↔
      (array indices base).HasSize ∧ s = (array indices base).declaredSize := by
  have hbind : (array indices base).typeSizeBytes =
      base.typeSizeBytes.bind fun size => (elementCount 1 indices).bind (checkedMul · size) := by
    rw [typeSizeBytes]
    cases base.typeSizeBytes <;> rfl
  rw [hbind, hasSize_array, declaredSize_array]
  simp only [Option.bind_eq_some_iff, checkedMul_eq_some, ih]
  constructor
  · rintro ⟨_, ⟨hbase, rfl⟩, c, hcount, hsize, rfl⟩
    obtain rfl : c = nodeCount indices := (elementCount_one_eq_some.1 hcount).2.2
    exact ⟨⟨hbase, hcount, hsize⟩, rfl⟩
  · rintro ⟨⟨hbase, hcount, hsize⟩, rfl⟩
    exact ⟨_, ⟨hbase, rfl⟩, _, hcount, hsize, rfl⟩

theorem typeSizeBytes_scalar (ty : Ty) (size : Int) (hty : ty.typeSizeBytes = some size)
    (hdims : ty.dims = []) (hfits : ty.Fits) (hsized : ty.elem.isSized = true)
    (hsize : ty.declaredSize = size) :
    ty.typeSizeBytes = some s ↔ ty.HasSize ∧ s = ty.declaredSize := by
  rw [hty, hasSize_of_dims_nil ty hdims hfits, hsize]
  simp [hsized, eq_comm]

theorem typeSizeBytes_none (ty : Ty) (hty : ty.typeSizeBytes = none)
    (hsized : ty.elem.isSized = false) :
    ty.typeSizeBytes = some s ↔ ty.HasSize ∧ s = ty.declaredSize := by
  have hnot : ¬ ty.HasSize := fun h => by simpa [hsized] using h.sized
  simp [hty, hnot]

/-- `type_size_bytes` finds the declared size, or nothing. -/
theorem typeSizeBytes_eq_some : ty.typeSizeBytes = some s ↔ ty.HasSize ∧ s = ty.declaredSize := by
  induction ty using Ty.typeSizeBytes.induct generalizing s with
  | case1 b =>
    exact typeSizeBytes_scalar (.builtin b) _ rfl rfl trivial rfl (declaredSize_builtin b)
  | case2 host lo hi ih =>
    show host.typeSizeBytes = some s ↔ _
    exact ih.trans (and_congr_left fun _ => ⟨fun h => ⟨h.sized, h.ordinal, h.fits⟩,
      fun h => ⟨h.sized, h.ordinal, h.fits⟩⟩)
  | case3 values => exact typeSizeBytes_scalar (.enum values) 4 rfl rfl trivial rfl rfl
  | case4 => exact typeSizeBytes_scalar .pointer 8 rfl rfl trivial rfl rfl
  | case5 => exact typeSizeBytes_scalar .proc 8 rfl rfl trivial rfl rfl
  | case6 base => exact typeSizeBytes_scalar (.set base) 32 rfl rfl trivial rfl rfl
  | case7 indices base _ _ ih => exact typeSizeBytes_array_eq_some fun s => ih
  | case8 indices base _ ih => exact typeSizeBytes_array_eq_some fun s => ih
  | case9 v => exact typeSizeBytes_scalar (.vector v) 16 (by cases v <;> rfl) rfl trivial rfl rfl
  | case10 fields => exact typeSizeBytes_none (.record fields) rfl rfl
  | case11 => exact typeSizeBytes_none .openArray rfl rfl
  | case12 => exact typeSizeBytes_none .class rfl rfl
  | case13 => exact typeSizeBytes_none .unresolved rfl rfl

end

/-! ### The layout -/

section
open Ty
variable {ty : Ty}

/-- An array is laid out as its elements one after the other. -/
theorem allocSize_eq : ∀ ty : Ty, ty.allocSize = ty.storedCount * ty.elem.allocSize
  | .array indices base => by
    have ih := allocSize_eq base
    show arrayLength indices * base.allocSize = (arrayLength indices :: base.dims.map arrayLength).prod * _
    rw [ih, List.prod_cons, mul_assoc]
    rfl
  | .subrange host _ _ => allocSize_eq host
  | .builtin _ | .pointer | .proc | .record _ | .enum _ | .set _ | .vector _ | .openArray | .class
  | .unresolved => (one_mul _).symm

theorem allocSize_pos (h : ty.elem.isSized = true) : 0 < ty.elem.allocSize := by
  cases he : ty.elem with
  | builtin b => cases b <;> decide
  | enum _ | set _ | vector _ => exact Nat.zero_lt_succ _
  | pointer | proc => exact Nat.zero_lt_succ _
  | _ => simp [he, isSized] at h

/-- An element type that has a size is the finished one, as far as its layout goes. -/
theorem Ty.Becomes.elem {now : Ty} (h : now.Becomes ty) (hsized : now.elem.isSized = true) :
    ty.elem.allocSize = now.elem.allocSize := by
  induction h with
  | resolved ty => cases hsized
  | subrange _ _ _ _ _ ih => exact ih hsized
  | array _ _ _ ih => exact ih hsized
  | record => cases hsized
  | builtin | enum | openArray | pointer | set | vector | proc | «class» => rfl

theorem declaredSize_eq_allocSize {now : Ty} (hbecomes : now.Becomes ty)
    (h : now.elem.isSized = true) : now.declaredSize = ty.allocSize ↔
    now.declaredCount = if now.elem.isLoc then 8 * ty.storedCount else ty.storedCount := by
  have hpos : (0 : Int) < now.elem.allocSize := by exact_mod_cast allocSize_pos h
  rw [allocSize_eq, hbecomes.elem h, declaredSize, elemBytes]
  push_cast
  cases hloc : now.elem.isLoc with
  | true =>
    have hloc' : now.elem.allocSize = 8 := by
      unfold isLoc at hloc
      split at hloc
      · next he => rw [he]; rfl
      · cases hloc
    simp only [if_true, hloc', mul_one]
    rw [mul_comm]
    rfl
  | false =>
    simp only [Bool.false_eq_true, if_false]
    exact mul_left_inj' hpos.ne'

end

/-- SIZE and TSIZE of a type fold to the size of the layout exactly if the type is foldable at the
time. -/
theorem sizeFolds_iff {now ty : Ty} (hbecomes : now.Becomes ty) :
    SizeFolds now ty ↔ now.Foldable ty := by
  have hsize : SizeFolds now ty ↔ now.typeSizeBytes = some (ty.allocSize : Int) := by
    constructor
    · rintro ⟨heq, hreal⟩
      simp only [Ty.sizeIsPlaceholder, Option.isNone_eq_false_iff, Option.isSome_iff_exists] at hreal
      obtain ⟨s, hs⟩ := hreal
      rw [← heq, Ty.evalSize, hs, Option.getD_some]
    · intro h
      exact ⟨by simp [Ty.evalSize, h], by simp [Ty.sizeIsPlaceholder, h]⟩
  rw [hsize, typeSizeBytes_eq_some]
  constructor
  · rintro ⟨h, heq⟩
    exact ⟨h.sized, h.ordinal, h.fits, (declaredSize_eq_allocSize hbecomes h.sized).1 heq.symm⟩
  · intro h
    exact ⟨⟨h.sized, h.ordinal, h.fits⟩,
      ((declaredSize_eq_allocSize hbecomes h.sized).2 h.count).symm⟩

/-- `ARRAY [0..9] OF ARRAY [1..4] OF CHAR`. -/
def matrix : Ty :=
  .array [.subrange (.builtin .integer) 0 9] (.array [.subrange (.builtin .integer) 1 4] (.builtin .char))

/-- The SIZE of the matrix is that of its layout where the matrix is resolved, and only there. -/
theorem sizeFolds_iff_matrix : SizeFolds matrix matrix ∧ ¬ SizeFolds .unresolved matrix := by
  have fits : matrix.Fits := by
    refine ⟨⟨trivial, fun k hk => ?_, by decide⟩, fun k hk => ?_, by decide⟩ <;>
      · have hk : k ≤ 1 := hk
        interval_cases k <;> decide
  refine ⟨(sizeFolds_iff (.array _ _ (.array _ _ (.builtin _)))).2 ⟨rfl, by decide, fits, by decide⟩,
    fun h => ?_⟩
  exact Bool.false_ne_true ((sizeFolds_iff (.resolved _)).1 h).sized

/-- `RECORD c : CHAR; i : INTEGER END` takes 16 bytes, and its SIZE folds to 0. In
`TYPE A = ARRAY [0..SIZE(B)-1] OF CHAR; B = ARRAY [0..9] OF CHAR` the SIZE of `B` folds to 0 as well: `B` is
unresolved then. -/
theorem not_sizeFolds_record :
    ¬ SizeFolds (.record [.builtin .char, .builtin .integer]) (.record [.builtin .char, .builtin .integer]) ∧
      Ty.Becomes .unresolved (.array [.subrange (.builtin .integer) 0 9] (.builtin .char)) ∧
      ¬ SizeFolds .unresolved (.array [.subrange (.builtin .integer) 0 9] (.builtin .char)) := by
  refine ⟨fun h => ?_, .resolved _, fun h => ?_⟩
  · have heq := h.eq
    revert heq
    decide
  · exact absurd h.real (by decide)

/-- `ARRAY [0..9] OF SYSTEM.LOC` folds to 10 bytes, and codegen makes room for ten pointers. -/
example : Ty.evalSize (.array [.subrange (.builtin .integer) 0 9] (.builtin .sysLoc)) = 10 ∧
    Ty.allocSize (.array [.subrange (.builtin .integer) 0 9] (.builtin .sysLoc)) = 80 := by
  decide

end NewM2.Layout
