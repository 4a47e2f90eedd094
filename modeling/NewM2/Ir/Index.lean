import Mathlib
import NewM2.Codegen.IntValue
import NewM2.Sema.Ordinal
import NewM2.Lib.RowMajor

/-!
# Array indexing (`newm2-ir/src/lower.rs`, `newm2-sema/src/analyze.rs`)

Sema lets one index list cross array nodes. `apply_selector` flattens the list over the dimensions of
the first node only, and for a longer list or an open array takes the first index as it is. Every
operation before the address is made reads its operands unsigned; the address reads the flat index
signed. `addresses_iff` says for which index lists the result is the row-major offset of the declared
element, with an exception exactly for an index outside a fixed dimension.
-/

namespace NewM2.Ir.Index
open Codegen Sema RowMajor

/-! ## Array types -/

/-- An array type, the other types by their size. `n` is the number of elements of the actual
parameter an open array stands for. -/
inductive ArrayTy
  | array (indices : List Ty) (base : ArrayTy)
  | openArray (n : Nat) (base : ArrayTy)
  | other (size : Nat)

/-- `dim_lo`. -/
def dimLo (d : Ty) : Int := (d.ordinalBounds.map fun b => b.1).getD 0

/-- `dim_count`. -/
def dimCount (d : Ty) : Int := (d.ordinalBounds.map fun b => b.2 - b.1 + 1).getD 1

/-- The number of elements along a dimension: none if its bounds are reversed. -/
def extent (d : Ty) : Int := max (dimCount d) 0

def dimAxis (d : Ty) (stride : Int) : Axis := ⟨dimLo d, extent d, stride⟩

/-- The dimensions of one node, row-major. -/
def dimAxes : List Ty → Int → List Axis
  | [], _ => []
  | d :: ds, size => dimAxis d ((ds.map extent).prod * size) :: dimAxes ds size

namespace ArrayTy

/-- The declared size. -/
def size : ArrayTy → Int
  | array indices base => (indices.map extent).prod * base.size
  | openArray n base => n * base.size
  | other size => size

/-- The size of `llvm_type`: the arity of an array is a u32, and an open array is a pointer. -/
def llvmSize : ArrayTy → Int
  | array indices base => min (indices.map extent).prod 4294967295 * base.llvmSize
  | openArray _ _ => 8
  | other size => size

/-- The dimensions that an index list runs through, over all nodes. -/
def axes : ArrayTy → List Axis
  | array indices base => dimAxes indices base.size ++ base.axes
  | openArray n base => ⟨0, n, base.size⟩ :: base.axes
  | other _ => []

/-- Which of the `axes` are dimensions of a fixed array. -/
def fixed : ArrayTy → List Bool
  | array indices base => indices.map (fun _ => true) ++ base.fixed
  | openArray _ base => false :: base.fixed
  | other _ => []

/-- `analyse_selector_chain` on an index list of length `n`: the type it yields, where it accepts. -/
def indexedType : ArrayTy → Nat → Option ArrayTy
  | t, 0 => some t
  | array indices base, n + 1 =>
    if indices = [] then none
    else if n + 1 < indices.length then some (array (indices.drop (n + 1)) base)
    else base.indexedType (n + 1 - indices.length)
  | openArray _ base, n + 1 => base.indexedType n
  | other _, _ + 1 => none

end ArrayTy

/-! ## Lowering -/

/-- The value of an index expression, and the width of the LLVM integer it is. -/
structure Operand where
  width : Nat
  value : Int
  pos : 0 < width
  le : width ≤ 64
  low : -2 ^ (width - 1) ≤ value
  high : value < 2 ^ width

namespace Operand

def word (o : Operand) : IntValue := .ofInt o.width o.value

/-- The value that an unsigned operation reads. -/
def unsigned (o : Operand) : Int := o.value % 2 ^ o.width

end Operand

/-- Dimensions with a meaningful count are checked. -/
def Checked (d : Ty) : Bool := 0 < dimCount d && dimCount d ≤ 9223372036854775807

/-- `emit_index_bounds_check`: whether the index is out of bounds. -/
def emitIndexBoundsCheck (adj : IntValue) (count : Int) : Option Bool :=
  (emitBinary .uge adj (.ofInt 64 count)).map (·.bits != 0)

/-- The index less the lower bound. -/
def adjust (raw : IntValue) (lo : Int) : Option IntValue :=
  if lo ≠ 0 then emitBinary .sub raw (.ofInt 64 lo) else some raw

def scale (adj : IntValue) (stride : Int) : Option IntValue :=
  if stride ≠ 1 then emitBinary .mul adj (.ofInt 64 stride) else some adj

/-- The flat index with one more term. -/
def addTerm (flat : Option IntValue) (term : IntValue) : Option IntValue :=
  match flat with
  | none => some term
  | some f => emitBinary .add f term

/-- The loop over the indices, with the dimensions they go to. `none` inside is indexException. -/
def flatten (runtimeChecks : Bool) (flat : Option IntValue) :
    List Ty → List Operand → Option (Option IntValue)
  | _, [] => flat.map some
  | [], _ :: _ => none
  | d :: ds, o :: rest => do
    let adj ← adjust o.word (dimLo d)
    let count := dimCount d
    let oob ← emitIndexBoundsCheck adj count
    if runtimeChecks && Checked d && oob then return none
    let term ← scale adj (ds.map dimCount).prod
    let sum ← addTerm flat term
    flatten runtimeChecks (some sum) ds rest

/-- Where a designator leads: indexException, or the address at an offset from the base. -/
inductive Outcome
  | raised
  | address (offset : Int)
deriving Repr, DecidableEq

/-- `IndexPtr`: an inbounds GEP takes its index signed. -/
def indexPtr (index : IntValue) (elemSize : Int) : Outcome := .address (index.bits.toInt * elemSize)

/-- `apply_selector` of an index list. An empty list stops the compiler. -/
def applySelector (runtimeChecks : Bool) (t : ArrayTy) (indices : List Operand) : Option Outcome :=
  let first (elemSize : Int) := indices.head?.map fun o => indexPtr o.word elemSize
  match t with
  | .array dims base =>
    if dims ≠ [] ∧ indices.length ≤ dims.length then
      (flatten runtimeChecks none dims indices).map fun flat =>
        (flat.map (indexPtr · base.llvmSize)).getD .raised
    else first base.llvmSize
  | .openArray _ base => first base.llvmSize
  | .other _ => first 8

/-! ## The property -/

/-- Some index is outside a fixed dimension. -/
def FixedViolation : List Axis → List Bool → List Int → Prop
  | a :: axes, f :: fixed, v :: vs => f ∧ ¬ a.Mem v ∨ FixedViolation axes fixed vs
  | _, _, _ => False

abbrev values (indices : List Operand) : List Int := indices.map Operand.value

/-- The index list addresses the declared element. -/
structure Addresses (t : ArrayTy) (indices : List Operand) : Prop where
  raises : applySelector true t indices = some .raised ↔
    FixedViolation t.axes t.fixed (values indices)
  lands : ∀ runtimeChecks, InRange t.axes (values indices) →
    applySelector runtimeChecks t indices = some (.address (offset t.axes (values indices)))
  inside : InRange t.axes (values indices) → 0 ≤ offset t.axes (values indices) ∧
    offset t.axes (values indices) + pieceSize t.size t.axes indices.length ≤ t.size
  distinct : ∀ vs, InRange t.axes (values indices) → InRange t.axes vs → vs.length = indices.length →
    0 < pieceSize t.size t.axes indices.length →
    offset t.axes vs = offset t.axes (values indices) → vs = values indices

/-! ## When it holds -/

/-- The row-major number of an index tuple, with the strides of `apply_selector`. -/
def number : List Ty → List Int → Int
  | d :: ds, v :: vs => (v - dimLo d) * (ds.map dimCount).prod + number ds vs
  | _, _ => 0

/-- The width of the flat index: that of the indices as long as they are neither adjusted nor
scaled. -/
def flatWidth : List Ty → List Operand → Nat
  | d :: ds, o :: rest =>
    max (if dimLo d = 0 ∧ (ds.map dimCount).prod = 1 then o.width else 64) (flatWidth ds rest)
  | _, _ => 0

/-- The unsigned reading of some index is out of the count of a checked dimension. -/
def Caught : List Ty → List Operand → Prop
  | d :: ds, o :: rest =>
    Checked d ∧ dimCount d ≤ (o.unsigned - dimLo d) % 2 ^ 64 ∨ Caught ds rest
  | _, _ => False

/-- The element has its declared size in LLVM, and no dimension has its bounds more than reversed. -/
def Sized (dims : List Ty) (base : ArrayTy) : Prop :=
  base.llvmSize = base.size ∧ ∀ d ∈ dims, 0 ≤ dimCount d

instance (dims : List Ty) (base : ArrayTy) : Decidable (Sized dims base) :=
  inferInstanceAs (Decidable (_ ∧ _))

/-- What `Addresses` needs of a list flattened over one node: the unsigned readings are caught out of
bounds when the indices are, and have the row-major number of the indices, which the flat index can
hold as a signed number. -/
structure FlattenOk (dims : List Ty) (base : ArrayTy) (indices : List Operand) : Prop where
  nonempty : indices ≠ []
  caught : Caught dims indices ↔
    FixedViolation (ArrayTy.array dims base).axes (ArrayTy.array dims base).fixed (values indices)
  sameNumber : InRange (ArrayTy.array dims base).axes (values indices) →
    if Sized dims base then
      base.size = 0 ∨
        number dims (indices.map Operand.unsigned) ≡ number dims (values indices)
            [ZMOD 2 ^ flatWidth dims indices] ∧
          -2 ^ (flatWidth dims indices - 1) ≤ number dims (values indices) ∧
          number dims (values indices) < 2 ^ (flatWidth dims indices - 1)
    else
      (number dims (indices.map Operand.unsigned)).bmod (2 ^ flatWidth dims indices) * base.llvmSize =
        offset (ArrayTy.array dims base).axes (values indices)

/-- What it needs of a longer list, or an open array: no index is out of bounds, and the first index,
read signed, makes up the whole offset. -/
structure FirstOk (t base : ArrayTy) (indices : List Operand) : Prop where
  nonempty : indices ≠ []
  inBounds : ¬ FixedViolation t.axes t.fixed (values indices)
  first : InRange t.axes (values indices) → ∀ o ∈ indices.head?,
    o.value.bmod (2 ^ o.width) * base.llvmSize = offset t.axes (values indices)

def IndexOk (t : ArrayTy) (indices : List Operand) : Prop :=
  match t with
  | .array dims base =>
    if dims ≠ [] ∧ indices.length ≤ dims.length then FlattenOk dims base indices
    else FirstOk t base indices
  | .openArray _ base => FirstOk t base indices
  | .other _ => indices ≠ []

/-! ## Words -/

/-- The unsigned reading of a word. -/
def nat (x : IntValue) : Int := x.bits.toNat

theorem nat_nonneg (x : IntValue) : 0 ≤ nat x := Int.natCast_nonneg _

theorem nat_lt (x : IntValue) : nat x < 2 ^ x.width := by
  have := x.bits.isLt
  rw [nat]
  exact_mod_cast this

theorem nat_ofInt (w : Nat) (v : Int) : nat (.ofInt w v) = v % 2 ^ w := by
  rw [nat, IntValue.ofInt, BitVec.toNat_ofInt]
  push_cast
  exact Int.toNat_of_nonneg (Int.emod_nonneg _ (pow_ne_zero _ (by decide)))

theorem eq_ofInt_nat (x : IntValue) : x = .ofInt x.width (nat x) := by
  rw [nat, IntValue.ofInt, BitVec.ofInt_natCast, BitVec.ofNat_toNat, BitVec.setWidth_eq]

/-- The signed reading of a word, from its unsigned one. -/
theorem toInt_eq_bmod (x : IntValue) : x.bits.toInt = (nat x).bmod (2 ^ x.width) := by
  rw [BitVec.toInt_eq_toNat_bmod, nat]

theorem readAs_modEq (signed : Bool) {w wl : Nat} {x : Int} (h : 0 ≤ x) (hx : x < 2 ^ wl) :
    readAs signed w wl x ≡ x [ZMOD 2 ^ w] := by
  have hcast : ((2 ^ w : Nat) : Int) = 2 ^ w := by push_cast; rfl
  rw [readAs, Int.emod_eq_of_lt h hx]
  split
  · rw [← hcast]
    exact Int.bmod_emod
  · rfl

/-- Sums, differences and products of words are those of their unsigned readings. -/
theorem emitBinary_nat {op : BinOp} (hop : op = .add ∨ op = .sub ∨ op = .mul) (l r : IntValue)
    (hw : 0 < max l.width r.width) :
    ∃ x, emitBinary op l r = some x ∧ x.width = max l.width r.width ∧
      nat x = op.denote (nat l) (nat r) % 2 ^ max l.width r.width := by
  have harith : op.isArith := by rcases hop with rfl | rfl | rfl <;> rfl
  rw [eq_ofInt_nat l, eq_ofInt_nat r, emitBinary_ofInt harith hw]
  have hl := readAs_modEq op.signed (w := max l.width r.width) (nat_nonneg l) (nat_lt l)
  have hr := readAs_modEq op.signed (w := max l.width r.width) (nat_nonneg r) (nat_lt r)
  rw [← eq_ofInt_nat l, ← eq_ofInt_nat r]
  rcases hop with rfl | rfl | rfl
  · exact ⟨_, rfl, rfl, (nat_ofInt _ _).trans (hl.add hr)⟩
  · exact ⟨_, rfl, rfl, (nat_ofInt _ _).trans (hl.sub hr)⟩
  · exact ⟨_, rfl, rfl, (nat_ofInt _ _).trans (hl.mul hr)⟩

theorem adjust_spec (o : Operand) (lo : Int) :
    ∃ adj, adjust o.word lo = some adj ∧ adj.width = (if lo = 0 then o.width else 64) ∧
      nat adj = (o.unsigned - lo) % 2 ^ 64 := by
  have hz : nat o.word = o.unsigned := nat_ofInt _ _
  unfold adjust
  by_cases hlo : lo = 0
  · subst hlo
    refine ⟨o.word, if_neg (not_not.2 rfl), (if_pos rfl).symm, ?_⟩
    have hlt : o.unsigned < 2 ^ 64 :=
      lt_of_lt_of_le (Int.emod_lt_of_pos _ (by positivity)) (pow_le_pow_right₀ (by decide) o.le)
    rw [hz, sub_zero, Int.emod_eq_of_lt (hz ▸ nat_nonneg _) hlt]
  · rw [if_pos hlo, if_neg hlo]
    have hmax : max o.word.width 64 = 64 := max_eq_right o.le
    obtain ⟨x, hx, hwidth, hnat⟩ := @emitBinary_nat .sub (.inr (.inl rfl)) o.word (.ofInt 64 lo)
      (by show 0 < max _ 64; omega)
    refine ⟨x, hx, hwidth.trans hmax, ?_⟩
    rw [hnat]
    show (nat o.word - nat (.ofInt 64 lo)) % 2 ^ max o.word.width 64 = _
    rw [hmax, hz, nat_ofInt, Int.sub_emod_emod]

theorem scale_spec {adj : IntValue} (hle : adj.width ≤ 64) (stride : Int) :
    ∃ term, scale adj stride = some term ∧
      term.width = (if stride = 1 then adj.width else 64) ∧
      nat term = nat adj * stride % 2 ^ term.width := by
  unfold scale
  by_cases hs : stride = 1
  · subst hs
    refine ⟨adj, if_neg (not_not.2 rfl), (if_pos rfl).symm, ?_⟩
    rw [mul_one, Int.emod_eq_of_lt (nat_nonneg _) (nat_lt _)]
  · rw [if_pos hs, if_neg hs]
    have hmax : max adj.width 64 = 64 := max_eq_right hle
    obtain ⟨x, hx, hwidth, hnat⟩ := @emitBinary_nat .mul (.inr (.inr rfl)) adj (.ofInt 64 stride)
      (by show 0 < max _ 64; omega)
    have hwidth : x.width = 64 := hwidth.trans hmax
    refine ⟨x, hx, hwidth, ?_⟩
    rw [hnat, hwidth]
    show nat adj * nat (.ofInt 64 stride) % 2 ^ max adj.width 64 = _
    rw [hmax, nat_ofInt]
    exact (Int.mod_modEq _ _).mul_left _

theorem emitIndexBoundsCheck_eq {adj : IntValue} (hle : adj.width ≤ 64) (count : Int) :
    emitIndexBoundsCheck adj count = some (decide (count % 2 ^ 64 ≤ nat adj)) := by
  have hmax : max adj.width 64 = 64 := max_eq_right hle
  unfold emitIndexBoundsCheck
  rw [eq_ofInt_nat adj, emitBinary_ofInt rfl (by show 0 < max _ 64; omega), ← eq_ofInt_nat adj]
  have hread : readAs false (max adj.width 64) adj.width (nat adj) = nat adj :=
    readAs_unsigned (nat_nonneg _) (nat_lt _)
  simp only [BinOp.Undefined, BinOp.isDivision, BinOp.signed, BinOp.resultWidth, BinOp.isRelation,
    BinOp.denote, Bool.false_eq_true, false_and, if_false, if_true, hread, Option.map_some]
  show some ((BitVec.ofInt 1 (if nat adj ≥ count % 2 ^ 64 then 1 else 0)) != 0) = _
  by_cases h : count % 2 ^ 64 ≤ nat adj
  · rw [if_pos h, decide_eq_true h]; rfl
  · rw [if_neg h, decide_eq_false h]; rfl

/-- Adding a term to the flat index, which is the term itself at first. -/
theorem addTerm_spec (flat : Option IntValue) {term : IntValue} (hw : 0 < term.width) :
    ∃ sum, addTerm flat term = some sum ∧
      sum.width = max (flat.elim 0 IntValue.width) term.width ∧
      nat sum = (flat.elim 0 nat + nat term) % 2 ^ sum.width := by
  rcases flat with - | f
  · refine ⟨term, rfl, (Nat.zero_max _).symm, ?_⟩
    rw [Option.elim_none, zero_add, Int.emod_eq_of_lt (nat_nonneg _) (nat_lt _)]
  · obtain ⟨x, hx, hwidth, hnat⟩ := @emitBinary_nat .add (.inl rfl) f term (by omega)
    exact ⟨x, hx, hwidth, by rw [hwidth]; exact hnat⟩

/-! ## The flat index -/

section flatten
variable {runtimeChecks : Bool}

/-- One index: the check, the term, and what the loop goes on with. -/
theorem flatten_cons (flat : Option IntValue) (d : Ty) (ds : List Ty) (o : Operand)
    (rest : List Operand) :
    ∃ term sum, addTerm flat term = some sum ∧
      term.width = (if dimLo d = 0 ∧ (ds.map dimCount).prod = 1 then o.width else 64) ∧
      nat term = (o.unsigned - dimLo d) % 2 ^ 64 * (ds.map dimCount).prod % 2 ^ term.width ∧
      flatten runtimeChecks flat (d :: ds) (o :: rest) =
        if runtimeChecks ∧ Checked d ∧ dimCount d ≤ (o.unsigned - dimLo d) % 2 ^ 64 then some none
        else flatten runtimeChecks (some sum) ds rest := by
  obtain ⟨adj, hadj, hadjw, hadjn⟩ := adjust_spec o (dimLo d)
  have hle : adj.width ≤ 64 := by
    rw [hadjw]
    split
    exacts [o.le, le_rfl]
  obtain ⟨term, hterm, htermw, htermn⟩ := scale_spec hle (ds.map dimCount).prod
  have hwidth : term.width = if dimLo d = 0 ∧ (ds.map dimCount).prod = 1 then o.width else 64 := by
    rw [htermw, hadjw]
    by_cases hlo : dimLo d = 0 <;> by_cases hs : (ds.map dimCount).prod = 1 <;> simp [hlo, hs]
  have hpos : 0 < term.width := by
    rw [hwidth]
    split
    exacts [o.pos, by decide]
  obtain ⟨sum, hsum, -⟩ := addTerm_spec flat hpos
  refine ⟨term, sum, hsum, hwidth, by rw [htermn, hadjn], ?_⟩
  simp only [flatten, hadj, Option.bind_eq_bind, Option.bind_some, emitIndexBoundsCheck_eq hle, hterm,
    hsum, hadjn]
  by_cases hc : Checked d
  · have hcount : dimCount d % 2 ^ 64 = dimCount d := by
      simp only [Checked, Bool.and_eq_true, decide_eq_true_eq] at hc
      exact Int.emod_eq_of_lt hc.1.le (by omega)
    rw [hcount]
    by_cases hr : runtimeChecks <;> simp [hr, hc]
  · simp [hc]

/-- The loop raises exactly when an index is caught. -/
theorem flatten_eq_none_iff {flat : Option IntValue} {dims : List Ty} {indices : List Operand}
    (hlen : indices.length ≤ dims.length) (hsome : indices = [] → flat.isSome) :
    (flatten runtimeChecks flat dims indices = some none ↔ runtimeChecks ∧ Caught dims indices) ∧
      (flatten runtimeChecks flat dims indices).isSome := by
  induction indices generalizing flat dims with
  | nil =>
    obtain ⟨f, rfl⟩ := Option.isSome_iff_exists.1 (hsome rfl)
    rcases dims with - | ⟨d, ds⟩ <;> simp [flatten, Caught]
  | cons o rest ih =>
    rcases dims with - | ⟨d, ds⟩
    · simp at hlen
    obtain ⟨term, sum, -, -, -, hflat⟩ := @flatten_cons runtimeChecks flat d ds o rest
    rw [hflat, Caught]
    by_cases hc : runtimeChecks ∧ Checked d ∧ dimCount d ≤ (o.unsigned - dimLo d) % 2 ^ 64
    · rw [if_pos hc]
      exact ⟨⟨fun _ => ⟨hc.1, .inl hc.2⟩, fun _ => rfl⟩, rfl⟩
    · rw [if_neg hc]
      obtain ⟨hiff, hsome⟩ := @ih (some sum) ds (Nat.le_of_succ_le_succ hlen) fun _ => rfl
      refine ⟨hiff.trans ?_, hsome⟩
      constructor
      · rintro ⟨hr, hcaught⟩
        exact ⟨hr, .inr hcaught⟩
      · rintro ⟨hr, hcaught | hcaught⟩
        · exact absurd ⟨hr, hcaught⟩ hc
        · exact ⟨hr, hcaught⟩

/-- The flat index so far is the number `s`, exactly if it is narrow; then only a dimension with one
index can follow a term. -/
structure Holds (flat : Option IntValue) (s : Int) (dims : List Ty) : Prop where
  le : flat.elim 0 IntValue.width ≤ 64
  nat_eq : flat.elim 0 nat = s % 2 ^ flat.elim 0 IntValue.width
  narrow : flat.elim 0 IntValue.width < 64 →
    0 ≤ s ∧ s < 2 ^ flat.elim 0 IntValue.width ∧ (s = 0 ∨ (dims.map dimCount).prod = 1)

theorem Holds.modEq {flat : Option IntValue} {s : Int} {dims : List Ty} (h : Holds flat s dims) :
    flat.elim 0 nat ≡ s [ZMOD 2 ^ 64] := by
  rcases h.le.lt_or_eq with hlt | heq
  · obtain ⟨h0, hs, -⟩ := h.narrow hlt
    rw [h.nat_eq, Int.emod_eq_of_lt h0 hs]
  · have := h.nat_eq
    rw [heq] at this
    rw [this]
    exact Int.mod_modEq _ _

theorem Holds.step {flat : Option IntValue} {s : Int} {d : Ty} {ds : List Ty} {o : Operand}
    {term sum : IntValue} (h : Holds flat s (d :: ds)) (hmem : (dimAxis d 0).Mem o.value)
    (hsum : addTerm flat term = some sum)
    (hwidth : term.width = if dimLo d = 0 ∧ (ds.map dimCount).prod = 1 then o.width else 64)
    (hnat : nat term = (o.unsigned - dimLo d) % 2 ^ 64 * (ds.map dimCount).prod % 2 ^ term.width) :
    sum.width = max (flat.elim 0 IntValue.width) term.width ∧
      Holds (some sum) (s + (o.unsigned - dimLo d) * (ds.map dimCount).prod) ds := by
  have hpos : 0 < term.width := by
    rw [hwidth]
    split
    exacts [o.pos, by decide]
  obtain ⟨sum', hsum', hsumw, hsumn⟩ := addTerm_spec flat hpos
  obtain rfl : sum' = sum := Option.some.inj (hsum'.symm.trans hsum)
  have hle := h.le
  have htle : term.width ≤ 64 := by
    rw [hwidth]
    split
    exacts [o.le, le_rfl]
  have hz : 0 ≤ o.unsigned ∧ o.unsigned < 2 ^ o.width :=
    ⟨Int.emod_nonneg _ (by positivity), Int.emod_lt_of_pos _ (by positivity)⟩
  -- a narrow term is the index itself
  have hterm : term.width < 64 → dimLo d = 0 ∧ (ds.map dimCount).prod = 1 ∧
      nat term = o.unsigned ∧ o.unsigned < 2 ^ term.width := by
    intro hlt
    by_cases hn : dimLo d = 0 ∧ (ds.map dimCount).prod = 1
    · rw [if_pos hn] at hwidth
      have hlt64 : o.unsigned < 2 ^ 64 := hz.2.trans_le (pow_le_pow_right₀ (by decide) o.le)
      refine ⟨hn.1, hn.2, ?_, hwidth ▸ hz.2⟩
      rw [hnat, hn.1, hn.2, sub_zero, mul_one, Int.emod_eq_of_lt hz.1 hlt64, hwidth,
        Int.emod_eq_of_lt hz.1 hz.2]
    · rw [if_neg hn] at hwidth
      omega
  have htermMod : nat term ≡ (o.unsigned - dimLo d) * (ds.map dimCount).prod [ZMOD 2 ^ 64] := by
    rcases htle.lt_or_eq with hlt | heq
    · obtain ⟨hlo, hs, hn, -⟩ := hterm hlt
      rw [hn, hlo, hs, sub_zero, mul_one]
    · rw [hnat, heq]
      exact (Int.mod_modEq _ _).trans ((Int.mod_modEq _ _).mul_right _)
  have hnarrow : sum'.width < 64 → (o.unsigned - dimLo d) * (ds.map dimCount).prod = nat term ∧
      0 ≤ s + nat term ∧ s + nat term < 2 ^ sum'.width ∧ (ds.map dimCount).prod = 1 := by
    intro hlt
    obtain ⟨h0, hs, hone⟩ := h.narrow (by omega)
    obtain ⟨hlo, hstride, htn, htlt⟩ := hterm (by omega)
    have hle1 : (2 : Int) ^ flat.elim 0 IntValue.width ≤ 2 ^ sum'.width :=
      pow_le_pow_right₀ (by decide) (by omega)
    have hle2 : (2 : Int) ^ term.width ≤ 2 ^ sum'.width := pow_le_pow_right₀ (by decide) (by omega)
    refine ⟨by rw [hlo, hstride, htn, sub_zero, mul_one], by omega, ?_, hstride⟩
    rcases hone with rfl | hprod
    · omega
    · -- the dimension has one index, so the term adds nothing
      rw [List.map_cons, List.prod_cons, hstride, mul_one] at hprod
      simp only [Axis.Mem, dimAxis, extent, hlo, hprod] at hmem
      have hv : o.value = 0 := by omega
      have : nat term = 0 := by rw [htn, Operand.unsigned, hv, Int.zero_emod]
      omega
  refine ⟨hsumw, ⟨?_, ?_, ?_⟩⟩
  · show sum'.width ≤ 64
    omega
  · show nat sum' = _ % 2 ^ sum'.width
    by_cases hlt : sum'.width < 64
    · obtain ⟨heq, -⟩ := hnarrow hlt
      obtain ⟨h0, hs, -⟩ := h.narrow (by omega)
      rw [hsumn, heq, h.nat_eq, Int.emod_eq_of_lt h0 hs]
    · have h64 : sum'.width = 64 := by omega
      rw [hsumn, h64]
      exact h.modEq.add htermMod
  · intro hlt
    obtain ⟨heq, h0, hs, hone⟩ := hnarrow hlt
    rw [heq]
    exact ⟨h0, hs, .inr hone⟩

/-- For indices in range the flat index is the row-major number of their unsigned readings. -/
theorem flatten_value {flat : Option IntValue} {s : Int} {dims : List Ty} {indices : List Operand}
    {size : Int} {axes : List Axis} {F : IntValue} (h : Holds flat s dims)
    (hin : InRange (dimAxes dims size ++ axes) (values indices))
    (hlen : indices.length ≤ dims.length)
    (hF : flatten runtimeChecks flat dims indices = some (some F)) :
    F.width = max (flat.elim 0 IntValue.width) (flatWidth dims indices) ∧
      nat F = (s + number dims (indices.map Operand.unsigned)) % 2 ^ F.width := by
  induction indices generalizing flat s dims with
  | nil =>
    obtain ⟨f, rfl, hf⟩ : ∃ f, flat = some f ∧ f = F := by
      rcases flat with - | f
      · rcases dims with - | ⟨d, ds⟩ <;> cases hF
      · rcases dims with - | ⟨d, ds⟩ <;> exact ⟨f, rfl, by simpa [flatten] using hF⟩
    subst hf
    have hnat := h.nat_eq
    rcases dims with - | ⟨d, ds⟩ <;> simpa [flatWidth, number] using hnat
  | cons o rest ih =>
    rcases dims with - | ⟨d, ds⟩
    · simp at hlen
    obtain ⟨term, sum, hsum, hwidth, hnat, hflat⟩ :=
      @flatten_cons runtimeChecks flat d ds o rest
    rw [hflat] at hF
    split_ifs at hF
    · cases hF
    obtain ⟨hsumw, hnext⟩ := h.step hin.1 hsum hwidth hnat
    obtain ⟨hFw, hFn⟩ := ih hnext hin.2 (Nat.le_of_succ_le_succ hlen) hF
    refine ⟨?_, ?_⟩
    · rw [hFw, flatWidth, ← hwidth]
      show max sum.width _ = _
      rw [hsumw, max_assoc]
    · rw [hFn, List.map_cons, number, add_assoc]

end flatten

/-! ## The declared layout -/

theorem nested_dimAxes {size : Int} {axes : List Axis} (h : Nested size axes) (dims : List Ty) :
    Nested ((dims.map extent).prod * size) (dimAxes dims size ++ axes) := by
  induction dims with
  | nil => simpa [dimAxes] using h
  | cons d ds ih =>
    exact ⟨le_max_right _ _, by rw [List.map_cons, List.prod_cons, mul_assoc]; rfl, ih⟩

theorem ArrayTy.nested_axes : ∀ t : ArrayTy, Nested t.size t.axes
  | .array dims base => nested_dimAxes base.nested_axes dims
  | .openArray n base => ⟨Int.natCast_nonneg n, rfl, base.nested_axes⟩
  | .other size => Int.natCast_nonneg size

theorem not_fixedViolation : ∀ {axes : List Axis} {fixed : List Bool} {vs : List Int},
    InRange axes vs → ¬ FixedViolation axes fixed vs
  | _ :: _, _ :: _, _ :: _, ⟨hmem, _⟩, .inl hv => hv.2 hmem
  | _ :: _, _ :: _, _ :: _, ⟨_, h⟩, .inr hv => not_fixedViolation h hv

/-- With no reversed bounds the strides of `apply_selector` are those of the layout. -/
theorem offset_dimAxes {dims : List Ty} (hcount : ∀ d ∈ dims, 0 ≤ dimCount d) {size : Int}
    {axes : List Axis} {vs : List Int} (hlen : vs.length ≤ dims.length) :
    offset (dimAxes dims size ++ axes) vs = number dims vs * size := by
  induction dims generalizing vs with
  | nil =>
    obtain rfl := List.eq_nil_of_length_eq_zero (Nat.le_zero.1 hlen)
    rcases axes with - | ⟨a, axes⟩ <;> simp [dimAxes, offset, number]
  | cons d ds ih =>
    rcases vs with - | ⟨v, vs⟩
    · simp [dimAxes, offset, number]
    have hds : ∀ d ∈ ds, 0 ≤ dimCount d := fun d hd => hcount d (List.mem_cons_of_mem _ hd)
    have hext : ds.map extent = ds.map dimCount :=
      List.map_congr_left fun d hd => max_eq_left (hds d hd)
    have hrest := ih hds (Nat.le_of_succ_le_succ hlen)
    simp only [dimAxes, List.cons_append, offset, number, hrest, dimAxis, hext]
    ring

theorem flatWidth_pos {dims : List Ty} {indices : List Operand} (hne : indices ≠ [])
    (hlen : indices.length ≤ dims.length) : 0 < flatWidth dims indices := by
  rcases indices with - | ⟨o, rest⟩
  · exact absurd rfl hne
  rcases dims with - | ⟨d, ds⟩
  · simp at hlen
  refine lt_max_of_lt_left ?_
  split
  exacts [o.pos, by decide]

theorem bmod_eq_iff {w : Nat} (hw : 0 < w) {x y : Int} :
    x.bmod (2 ^ w) = y ↔ x ≡ y [ZMOD 2 ^ w] ∧ -2 ^ (w - 1) ≤ y ∧ y < 2 ^ (w - 1) := by
  have hpow : (2 : Int) ^ w = 2 * 2 ^ (w - 1) := by rw [← pow_succ', Nat.sub_add_cancel hw]
  have hcast : ((2 ^ w : Nat) : Int) = 2 ^ w := by push_cast; rfl
  constructor
  · rintro rfl
    have hlo := Int.le_bmod (x := x) (m := 2 ^ w) (by positivity)
    have hhi := Int.bmod_lt (x := x) (m := 2 ^ w) (by positivity)
    rw [hcast] at hlo hhi
    refine ⟨?_, by omega, by omega⟩
    rw [← hcast]
    exact (Int.bmod_emod).symm
  · rintro ⟨hmod, hlo, hhi⟩
    have : x.bmod (2 ^ w) = y.bmod (2 ^ w) := by
      rw [← Int.emod_bmod x, ← Int.emod_bmod y]
      congr 1
    rw [this]
    exact Int.bmod_eq_of_le_mul_two (by rw [hcast]; omega) (by rw [hcast]; omega)

/-! ## The theorem -/

section node
variable {dims : List Ty} {base : ArrayTy} {indices : List Operand} {runtimeChecks : Bool}

theorem applySelector_flatten (hd : dims ≠ [] ∧ indices.length ≤ dims.length) (hne : indices ≠ []) :
    (applySelector runtimeChecks (.array dims base) indices = some .raised ↔
      runtimeChecks ∧ Caught dims indices) ∧
    (InRange (ArrayTy.array dims base).axes (values indices) → ¬ (runtimeChecks ∧ Caught dims indices) →
      applySelector runtimeChecks (.array dims base) indices = some (.address
        ((number dims (indices.map Operand.unsigned)).bmod (2 ^ flatWidth dims indices) *
          base.llvmSize))) := by
  obtain ⟨hiff, hsome⟩ := @flatten_eq_none_iff runtimeChecks none dims indices hd.2
    fun h => absurd h hne
  have happ : applySelector runtimeChecks (.array dims base) indices =
      (flatten runtimeChecks none dims indices).map fun flat =>
        (flat.map (indexPtr · base.llvmSize)).getD .raised := by
    simp only [applySelector, if_pos hd]
  rw [happ, ← hiff]
  obtain ⟨flat, hflat⟩ := Option.isSome_iff_exists.1 hsome
  rw [hflat, Option.map_some]
  rcases flat with - | F
  · exact ⟨by simp, fun _ h => absurd rfl h⟩
  refine ⟨by simp [indexPtr], fun hin _ => ?_⟩
  have hstart : Holds none 0 dims := ⟨Nat.zero_le _, rfl, fun _ => ⟨le_rfl, one_pos, .inl rfl⟩⟩
  obtain ⟨hw, hn⟩ := flatten_value hstart hin hd.2 hflat
  have hw : F.width = flatWidth dims indices := hw.trans (Nat.zero_max _)
  have hcast : ((2 ^ flatWidth dims indices : Nat) : Int) = 2 ^ flatWidth dims indices := by
    push_cast; rfl
  rw [Option.map_some, Option.getD_some, indexPtr, toInt_eq_bmod, hn, zero_add, hw, ← hcast,
    Int.emod_bmod]

end node

namespace Addresses
variable {t : ArrayTy} {indices : List Operand}

/-- The layout has the other two parts: the element is inside the array, and no other element is at
its offset. -/
theorem of_lands (hraises : applySelector true t indices = some .raised ↔
      FixedViolation t.axes t.fixed (values indices))
    (hlands : ∀ runtimeChecks, InRange t.axes (values indices) →
      applySelector runtimeChecks t indices = some (.address (offset t.axes (values indices)))) :
    Addresses t indices where
  raises := hraises
  lands := hlands
  inside hin := by
    have hle := offset_add_pieceSize_le t.nested_axes hin
    rw [List.length_map] at hle
    exact ⟨offset_nonneg t.nested_axes hin, hle⟩
  distinct vs hin hvs hlen hpos heq := by
    rw [← hlen] at hpos
    exact offset_injective t.nested_axes hvs hin (by rw [hlen, List.length_map]) hpos heq

end Addresses

theorem word_toInt (o : Operand) : o.word.bits.toInt = o.value.bmod (2 ^ o.width) := by
  have hcast : ((2 ^ o.width : Nat) : Int) = 2 ^ o.width := by push_cast; rfl
  rw [toInt_eq_bmod, Operand.word, nat_ofInt]
  show (o.value % 2 ^ o.width).bmod (2 ^ o.width) = _
  rw [← hcast, Int.emod_bmod]

theorem addresses_iff_firstOk {t base : ArrayTy} {indices : List Operand}
    (happ : ∀ runtimeChecks, applySelector runtimeChecks t indices =
      indices.head?.map fun o => indexPtr o.word base.llvmSize) :
    Addresses t indices ↔ FirstOk t base indices := by
  have hraised : ∀ runtimeChecks, applySelector runtimeChecks t indices ≠ some .raised := by
    intro runtimeChecks h
    rw [happ] at h
    obtain ⟨o, -, ho⟩ := Option.map_eq_some_iff.1 h
    cases ho
  have haddr : ∀ runtimeChecks, ∀ o ∈ indices.head?, applySelector runtimeChecks t indices =
      some (.address (o.value.bmod (2 ^ o.width) * base.llvmSize)) := by
    intro runtimeChecks o ho
    rw [happ, Option.mem_def.1 ho, Option.map_some, indexPtr, word_toInt]
  constructor
  · intro h
    refine ⟨?_, fun hv => hraised true (h.raises.2 hv), fun hin o ho => ?_⟩
    · rintro rfl
      have := h.lands true (by rcases t.axes <;> trivial)
      rw [happ] at this
      cases this
    · have := h.lands true hin
      rw [haddr true o ho] at this
      exact Outcome.address.inj (Option.some.inj this)
  · intro h
    refine .of_lands ⟨fun hr => absurd hr (hraised true), fun hv => absurd hv h.inBounds⟩ ?_
    intro runtimeChecks hin
    obtain ⟨o, ho⟩ := Option.ne_none_iff_exists'.1 (List.head?_eq_none_iff.not.2 h.nonempty)
    rw [haddr runtimeChecks o ho, h.first hin o ho]

theorem addresses_iff_flattenOk {dims : List Ty} {base : ArrayTy} {indices : List Operand}
    (hd : dims ≠ [] ∧ indices.length ≤ dims.length) :
    Addresses (.array dims base) indices ↔ FlattenOk dims base indices := by
  set t := ArrayTy.array dims base
  by_cases hne : indices = []
  · subst hne
    refine ⟨fun h => ?_, fun h => absurd rfl h.nonempty⟩
    have := h.lands true (by rcases t.axes <;> trivial)
    rw [show applySelector true t [] = none by simp [t, applySelector, hd.1, flatten]] at this
    cases this
  have happ := fun rc => @applySelector_flatten dims base indices rc hd hne
  -- the flat index is the number of the indices exactly when the element is at its offset
  have hnumber : InRange t.axes (values indices) →
      ((number dims (indices.map Operand.unsigned)).bmod (2 ^ flatWidth dims indices) * base.llvmSize =
          offset t.axes (values indices) ↔
        if Sized dims base then
          base.size = 0 ∨
            number dims (indices.map Operand.unsigned) ≡ number dims (values indices)
                [ZMOD 2 ^ flatWidth dims indices] ∧
              -2 ^ (flatWidth dims indices - 1) ≤ number dims (values indices) ∧
              number dims (values indices) < 2 ^ (flatWidth dims indices - 1)
        else
          (number dims (indices.map Operand.unsigned)).bmod (2 ^ flatWidth dims indices) *
              base.llvmSize = offset t.axes (values indices)) := by
    intro hin
    split_ifs with hsized
    · have hoff : offset t.axes (values indices) = number dims (values indices) * base.size :=
        offset_dimAxes hsized.2 (by rw [List.length_map]; exact hd.2)
      rw [hoff, hsized.1, mul_eq_mul_right_iff, or_comm, bmod_eq_iff (flatWidth_pos hne hd.2)]
    · rfl
  have hcaught : InRange t.axes (values indices) → ¬ FixedViolation t.axes t.fixed (values indices) :=
    not_fixedViolation
  constructor
  · intro h
    refine ⟨hne, ?_, fun hin => (hnumber hin).1 ?_⟩
    · rw [← h.raises, (happ true).1]
      simp
    · have := h.lands false hin
      rw [(happ false).2 hin (by simp)] at this
      exact Outcome.address.inj (Option.some.inj this)
  · intro h
    have hraises : applySelector true t indices = some .raised ↔
        FixedViolation t.axes t.fixed (values indices) := by
      rw [(happ true).1, ← h.caught]
      simp
    refine .of_lands hraises fun runtimeChecks hin => ?_
    rw [(happ runtimeChecks).2 hin fun hc => hcaught hin (h.caught.1 hc.2),
      (hnumber hin).2 (h.sameNumber hin)]

/-- An index list addresses the declared element, and raises indexException just when an index is
outside a fixed dimension, if and only if it is `IndexOk`. -/
theorem addresses_iff (t : ArrayTy) (indices : List Operand) : Addresses t indices ↔ IndexOk t indices := by
  unfold IndexOk
  split
  · rename_i dims base
    split_ifs with hd
    · exact addresses_iff_flattenOk hd
    · exact addresses_iff_firstOk fun _ => by simp only [applySelector, if_neg hd]
  · exact addresses_iff_firstOk fun _ => rfl
  · rename_i size
    rcases indices with - | ⟨o, rest⟩
    · refine ⟨fun h => ?_, fun h => absurd rfl h⟩
      have := h.lands true trivial
      cases this
    · refine ⟨fun _ => List.cons_ne_nil _ _, fun _ => .of_lands ?_ fun _ hin => hin.elim⟩
      exact ⟨(fun h => by cases h), False.elim⟩

/-- `ARRAY [0..2] OF ARRAY [0..3] OF INTEGER`, which `a[1, 2]` may index. -/
def nested : ArrayTy :=
  .array [.subrange (.builtin .integer) 0 2]
    (.array [.subrange (.builtin .integer) 0 3] (.other 8))

def literal (v : Int) (h : 0 ≤ v ∧ v < 10) : Operand :=
  ⟨64, v, by decide, le_rfl, by omega, by omega⟩

/-- Sema takes `a[1, 2]` for the element at 48, and the lowering addresses the row `a[1]`, at 32. -/
theorem not_addresses_nested :
    (nested.indexedType 2).isSome ∧
      applySelector true nested [literal 1 (by decide), literal 2 (by decide)] = some (.address 32) ∧
      ¬ Addresses nested [literal 1 (by decide), literal 2 (by decide)] := by
  refine ⟨rfl, by decide, fun h => ?_⟩
  have := h.lands true (by decide)
  revert this
  decide

end NewM2.Ir.Index
