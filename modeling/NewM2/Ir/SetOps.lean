import Mathlib
import NewM2.Ir.Index
import NewM2.Lib.BitSet

/-!
# Run-time sets (`newm2-ir/src/lower.rs`, `newm2-llvm/src/codegen.rs`)

A set value is a word of 256 bits. An element is zero-extended from the width of its type and shifted
into place; a shift by 256 or more has no value. The operators of sets are bitwise where the lowering
knows an operand for a set, which it does not for SYSTEM.BITSET; `<=` and `>=` compare the words as
signed numbers. `application_correct_iff` says of each application of a set operation when the result is that of
the set algebra.
-/

namespace NewM2.Ir.SetOps
open Codegen Sema BitSet
open Index (Operand nat nat_ofInt)

/-! ## Lowering -/

/-- The set types. -/
inductive SetTy
  | set (base : Ty)
  | bitset
  | sysBitset
deriving Repr, DecidableEq

/-- `expr_is_set`. -/
def exprIsSet : SetTy → Bool
  | .set _ | .bitset => true
  | .sysBitset => false

abbrev Word := BitVec 256

/-- `Cast IntZeroExt` to the set type. -/
def widen (o : Operand) : Word := o.word.bits.setWidth 256

/-- LLVM `shl`, poison from the width on. -/
def shl (a b : Word) : Option Word := if b.toNat < 256 then some (a <<< b.toNat) else none

def lshr (a b : Word) : Option Word := if b.toNat < 256 then some (a >>> b.toNat) else none

/-- `1 << elem`. -/
def elemMask (o : Operand) : Option Word := shl 1 (widen o)

/-- `(~0 << lo) & (~0 >> (255-hi))`. -/
def rangeMask (lo hi : Operand) : Option Word := do
  let lowp ← shl (BitVec.allOnes 256) (widen lo)
  let highp ← lshr (BitVec.allOnes 256) (255 - widen hi)
  return lowp &&& highp

/-- `SetElem`, with the values of its expressions. -/
inductive SetElem
  | single (value : Operand)
  | range (lo hi : Operand)

def SetElem.mask : SetElem → Option Word
  | single value => elemMask value
  | range lo hi => rangeMask lo hi

/-- The set constructor, from the set so far. -/
def construct (acc : Word) : List SetElem → Option Word
  | [] => some acc
  | elem :: rest => do construct (acc ||| (← elem.mask)) rest

def incl (s : Word) (o : Operand) : Option Word := do return s ||| (← elemMask o)

/-- EXCL complements the mask by XOR with all ones. -/
def excl (s : Word) (o : Operand) : Option Word := do
  return s &&& ((← elemMask o) ^^^ BitVec.allOnes 256)

/-- `SetOp Member`. -/
def member (o : Operand) (s : Word) : Option Bool := do return (s &&& (← elemMask o)) != 0#256

/-- The arithmetic operators, which sets share. -/
inductive ArithOp
  | add | sub | mul | div
deriving Repr, DecidableEq

/-- `SetOp` Union, Difference, Intersection and SymDiff. -/
def setOp : ArithOp → Word → Word → Word
  | .add, l, r => l ||| r
  | .sub, l, r => l &&& ~~~r
  | .mul, l, r => l &&& r
  | .div, l, r => l ^^^ r

/-- The integer instructions the operators have otherwise. -/
def integerOp : ArithOp → Word → Word → Option Word
  | .add, l, r => some (l + r)
  | .sub, l, r => some (l - r)
  | .mul, l, r => some (l * r)
  | .div, l, r => udiv l r

/-- `eval_binary` on operands of two set types. -/
def evalBinary (op : ArithOp) (lhs rhs : SetTy) (l r : Word) : Option Word :=
  if exprIsSet lhs || exprIsSet rhs then some (setOp op l r) else integerOp op l r

inductive Relation
  | eq | ne | le | ge
deriving Repr, DecidableEq

/-- The comparisons are those of signed integers. -/
def evalRelation : Relation → Word → Word → Bool
  | .eq, l, r => l == r
  | .ne, l, r => l != r
  | .le, l, r => l.sle r
  | .ge, l, r => r.sle l

/-! ## Set algebra -/

/-- The ordinals in a set value. -/
def denote (s : Word) : Set Int := Nat.cast '' members s

/-- What an element of a constructor adds, its operands read by `read`. -/
def SetElem.added (read : Operand → Int) : SetElem → Set Int
  | single value => {read value}
  | range lo hi => Set.Icc (read lo) (read hi)

def added (read : Operand → Int) (elements : List SetElem) : Set Int :=
  {e | ∃ elem ∈ elements, e ∈ elem.added read}

def SetElem.operands : SetElem → List Operand
  | single value => [value]
  | range lo hi => [lo, hi]

def ArithOp.denote : ArithOp → Set Int → Set Int → Set Int
  | add, a, b => a ∪ b
  | sub, a, b => a \ b
  | mul, a, b => a ∩ b
  | div, a, b => symmDiff a b

def Relation.Holds : Relation → Set Int → Set Int → Prop
  | eq, a, b => a = b
  | ne, a, b => a ≠ b
  | le, a, b => a ⊆ b
  | ge, a, b => b ⊆ a

/-- One application of a set operation. -/
inductive Application
  | construct (elements : List SetElem)
  | incl (s : Word) (e : Operand)
  | excl (s : Word) (e : Operand)
  | member (e : Operand) (s : Word)
  | arith (op : ArithOp) (lhs rhs : SetTy) (l r : Word)
  | relation (op : Relation) (l r : Word)

namespace Application

/-- The result is that of the set algebra. -/
def Correct : Application → Prop
  | construct elements => ∃ s, SetOps.construct 0 elements = some s ∧
      denote s = added Operand.value elements
  | incl s e => ∃ s', SetOps.incl s e = some s' ∧ denote s' = insert e.value (denote s)
  | excl s e => ∃ s', SetOps.excl s e = some s' ∧ denote s' = denote s \ {e.value}
  | member e s => ∃ b, SetOps.member e s = some b ∧ (b = true ↔ e.value ∈ denote s)
  | arith op lhs rhs l r => ∃ s, evalBinary op lhs rhs l r = some s ∧
      denote s = op.denote (denote l) (denote r)
  | relation op l r => evalRelation op l r = true ↔ op.Holds (denote l) (denote r)

end Application

/-! ## When it holds -/

/-- `l <= r` is decided by the greatest element in only one of the sets, 255 counting the other way
round. -/
def LeOk (l r : Word) : Prop :=
  l = r ∨ ∃ m, IsTop l r m ∧
    (m ≠ 255 ∧ (m ∈ members l ∨ members l ⊆ members r) ∨
      m = 255 ∧ m ∈ members r ∧ ¬ members l ⊆ members r)

/-- The integer operations that agree with the set operations. -/
def IntegerOk : ArithOp → Word → Word → Prop
  | .add, l, r => Disjoint (members l) (members r)
  | .sub, l, r => members r ⊆ members l
  | .mul, l, r => l * r = l &&& r
  | .div, l, r => udiv l r = some (l ^^^ r)

namespace Application

/-- What `Correct` needs: ordinals that are at most 255 also when read unsigned, an operand known
for a set, and sets that the signed comparison orders as their inclusion does. -/
def Ok : Application → Prop
  | construct elements => (∀ elem ∈ elements, ∀ o ∈ elem.operands, o.unsigned < 256) ∧
      added Operand.unsigned elements = added Operand.value elements
  | incl _ e => 0 ≤ e.value ∧ e.value < 256
  | excl s e | member e s => e.unsigned < 256 ∧ (0 ≤ e.value ∨ e.unsigned ∉ denote s)
  | arith op lhs rhs l r => exprIsSet lhs ∨ exprIsSet rhs ∨ IntegerOk op l r
  | relation op l r =>
    match op with
    | .eq | .ne => True
    | .le => LeOk l r
    | .ge => LeOk r l

end Application

/-! ## Words -/

theorem denote_injective : Function.Injective denote :=
  Nat.cast_injective.image_injective.comp members_injective

theorem denote_or (s t : Word) : denote (s ||| t) = denote s ∪ denote t := by
  rw [denote, members_or, Set.image_union]; rfl

theorem denote_and_not (s t : Word) : denote (s &&& ~~~t) = denote s \ denote t := by
  rw [denote, members_and_not, Set.image_sdiff Nat.cast_injective]; rfl

theorem denote_subset_iff {s t : Word} : denote s ⊆ denote t ↔ members s ⊆ members t :=
  Set.image_subset_image_iff Nat.cast_injective

theorem disjoint_denote_iff {s t : Word} :
    Disjoint (denote s) (denote t) ↔ Disjoint (members s) (members t) :=
  Set.disjoint_image_iff Nat.cast_injective

theorem mem_denote_nonneg {s : Word} {e : Int} (h : e ∈ denote s) : 0 ≤ e ∧ e < 256 := by
  obtain ⟨k, hk, rfl⟩ := h
  have := lt_of_mem hk
  omega

/-- The bitwise operations are those of the set algebra. -/
theorem denote_setOp (op : ArithOp) (l r : Word) :
    denote (setOp op l r) = op.denote (denote l) (denote r) := by
  cases op with
  | add => exact denote_or l r
  | sub => exact denote_and_not l r
  | mul =>
    show Nat.cast '' members (l &&& r) = _
    rw [members_and, Set.image_inter Nat.cast_injective]; rfl
  | div =>
    show Nat.cast '' members (l ^^^ r) = _
    rw [members_xor, Set.image_symmDiff Nat.cast_injective]; rfl

theorem unsigned_nonneg (o : Operand) : 0 ≤ o.unsigned := Int.emod_nonneg _ (by positivity)

theorem unsigned_eq_value {o : Operand} (h : 0 ≤ o.value) : o.unsigned = o.value :=
  Int.emod_eq_of_lt h o.high

/-- Zero extension keeps the unsigned reading. -/
theorem toNat_widen (o : Operand) : (widen o).toNat = o.unsigned.toNat := by
  have hz : ((o.word.bits.toNat : Nat) : Int) = o.unsigned := nat_ofInt _ _
  have hle : o.word.width ≤ 256 := le_trans o.le (by decide)
  rw [widen, BitVec.toNat_setWidth_of_le hle]
  omega

theorem elemMask_eq (o : Operand) :
    elemMask o = if o.unsigned < 256 then some (1#256 <<< o.unsigned.toNat) else none := by
  have := unsigned_nonneg o
  rw [elemMask, shl, toNat_widen]
  exact if_congr (by omega) rfl rfl

theorem denote_elemMask {o : Operand} (h : o.unsigned < 256) :
    denote (1#256 <<< o.unsigned.toNat) = {o.unsigned} := by
  have := unsigned_nonneg o
  rw [denote, members_one_shiftLeft (by omega), Set.image_singleton]
  congr 1
  omega

/-- A range has a mask if both bounds are at most 255: that of the range as it is read. -/
theorem rangeMask_spec (lo hi : Operand) :
    (lo.unsigned < 256 ∧ hi.unsigned < 256 →
        ∃ m, rangeMask lo hi = some m ∧ denote m = Set.Icc lo.unsigned hi.unsigned) ∧
      ((rangeMask lo hi).isSome → lo.unsigned < 256 ∧ hi.unsigned < 256) := by
  have hlo := unsigned_nonneg lo
  have hhi := unsigned_nonneg hi
  have hw : hi.unsigned < 2 ^ 64 :=
    (Int.emod_lt_of_pos _ (by positivity)).trans_le (pow_le_pow_right₀ (by decide) hi.le)
  have hamount : (255 - widen hi).toNat =
      if hi.unsigned < 256 then 255 - hi.unsigned.toNat else 2 ^ 256 + 255 - hi.unsigned.toNat := by
    rw [BitVec.toNat_sub, toNat_widen]
    show (2 ^ 256 - hi.unsigned.toNat + 255) % 2 ^ 256 = _
    split_ifs <;> omega
  unfold rangeMask shl lshr
  rw [toNat_widen, hamount]
  constructor
  · rintro ⟨hl, hh⟩
    rw [if_pos (by omega), if_pos hh, if_pos (by omega)]
    refine ⟨_, rfl, ?_⟩
    have hset : members (BitVec.allOnes 256 <<< lo.unsigned.toNat &&&
        BitVec.allOnes 256 >>> (256 - 1 - hi.unsigned.toNat)) =
          Set.Icc lo.unsigned.toNat hi.unsigned.toNat := members_range (by omega)
    rw [denote, hset]
    ext e
    constructor
    · rintro ⟨k, ⟨h1, h2⟩, rfl⟩
      exact ⟨by omega, by omega⟩
    · rintro ⟨h1, h2⟩
      exact ⟨e.toNat, ⟨by omega, by omega⟩, by omega⟩
  · intro h
    by_cases hl : lo.unsigned < 256
    · by_cases hh : hi.unsigned < 256
      · exact ⟨hl, hh⟩
      · rw [if_pos (by omega), if_neg hh, if_neg (by omega)] at h
        cases h
    · rw [if_neg (by omega)] at h
      cases h

/-- An element's mask stands for what its operands, read unsigned, add. -/
theorem SetElem.mask_spec (elem : SetElem) :
    ((∀ o ∈ elem.operands, o.unsigned < 256) →
        ∃ m, elem.mask = some m ∧ denote m = elem.added Operand.unsigned) ∧
      (elem.mask.isSome → ∀ o ∈ elem.operands, o.unsigned < 256) := by
  cases elem with
  | single value =>
    simp only [SetElem.mask, SetElem.operands, List.mem_singleton, forall_eq, elemMask_eq]
    constructor
    · intro h
      exact ⟨_, if_pos h, denote_elemMask h⟩
    · intro h
      by_contra hv
      rw [if_neg hv] at h
      cases h
  | range lo hi =>
    obtain ⟨hsome, hof⟩ := rangeMask_spec lo hi
    constructor
    · intro h
      exact hsome ⟨h lo (List.mem_pair.2 (.inl rfl)), h hi (List.mem_pair.2 (.inr rfl))⟩
    · intro h o ho
      rcases List.mem_pair.1 ho with rfl | rfl
      exacts [(hof h).1, (hof h).2]

theorem construct_spec (acc : Word) (elements : List SetElem) :
    ((∀ elem ∈ elements, ∀ o ∈ elem.operands, o.unsigned < 256) →
        ∃ s, construct acc elements = some s ∧ denote s = denote acc ∪ added Operand.unsigned elements) ∧
      ((construct acc elements).isSome → ∀ elem ∈ elements, ∀ o ∈ elem.operands, o.unsigned < 256) := by
  induction elements generalizing acc with
  | nil => exact ⟨fun _ => ⟨acc, rfl, by simp [added]⟩, fun _ elem h => by cases h⟩
  | cons elem rest ih =>
    obtain ⟨hmask, hof⟩ := elem.mask_spec
    constructor
    · intro h
      obtain ⟨m, hm, hdm⟩ := hmask (h elem List.mem_cons_self)
      obtain ⟨s, hs, hds⟩ := (ih (acc ||| m)).1 fun x hx => h x (List.mem_cons_of_mem _ hx)
      refine ⟨s, by rw [construct, hm]; exact hs, ?_⟩
      rw [hds, denote_or, hdm, Set.union_assoc]
      congr 1
      ext e
      simp [added]
    · intro h
      rcases hm : elem.mask with - | m
      · rw [construct, hm] at h
        cases h
      · rw [construct, hm] at h
        intro x hx
        rcases List.mem_cons.1 hx with rfl | hx
        · exact hof (by rw [hm]; rfl)
        · exact (ih (acc ||| m)).2 h x hx

/-! ## The theorem -/

theorem construct_correct_iff (elements : List SetElem) :
    (Application.construct elements).Correct ↔ (Application.construct elements).Ok := by
  obtain ⟨hsome, hof⟩ := construct_spec 0 elements
  have hzero : denote (0 : Word) = ∅ := by
    show Nat.cast '' members (0#256) = ∅
    rw [members_zero, Set.image_empty]
  rw [hzero] at hsome
  simp only [Set.empty_union] at hsome
  constructor
  · rintro ⟨s, hs, hadded⟩
    have hlt := hof (by rw [hs]; rfl)
    obtain ⟨s', hs', hds⟩ := hsome hlt
    obtain rfl := Option.some.inj (hs.symm.trans hs')
    exact ⟨hlt, hds.symm.trans hadded⟩
  · rintro ⟨hlt, hadded⟩
    obtain ⟨s, hs, hds⟩ := hsome hlt
    exact ⟨s, hs, hds.trans hadded⟩

theorem incl_correct_iff (s : Word) (e : Operand) :
    (Application.incl s e).Correct ↔ (Application.incl s e).Ok := by
  show (∃ s', incl s e = some s' ∧ _) ↔ _
  rw [incl, elemMask_eq]
  constructor
  · rintro ⟨s', -, hd⟩
    have hmem : e.value ∈ denote s' := hd ▸ Set.mem_insert _ _
    exact mem_denote_nonneg hmem
  · rintro ⟨h0, hlt⟩
    have hu := unsigned_eq_value h0
    have hlt : e.unsigned < 256 := hu ▸ hlt
    rw [if_pos hlt]
    refine ⟨_, rfl, ?_⟩
    rw [denote_or, denote_elemMask hlt, hu, Set.union_singleton]

/-- Whether a negative value, read as another one, does any harm. -/
theorem diff_unsigned_iff {s : Word} {e : Operand} :
    denote s \ {e.unsigned} = denote s \ {e.value} ↔ 0 ≤ e.value ∨ e.unsigned ∉ denote s := by
  constructor
  · intro h
    by_contra hne
    obtain ⟨hneg, hmem⟩ := not_or.1 hne
    have hu := unsigned_nonneg e
    have : e.unsigned ∈ denote s \ {e.value} := ⟨not_not.1 hmem, fun h => hneg (h ▸ hu)⟩
    rw [← h] at this
    exact this.2 rfl
  · rintro (h0 | hnot)
    · rw [unsigned_eq_value h0]
    · by_cases h0 : 0 ≤ e.value
      · rw [unsigned_eq_value h0]
      · rw [Set.sdiff_singleton_eq_self hnot,
          Set.sdiff_singleton_eq_self fun h => h0 (mem_denote_nonneg h).1]

theorem excl_correct_iff (s : Word) (e : Operand) :
    (Application.excl s e).Correct ↔ (Application.excl s e).Ok := by
  show (∃ s', excl s e = some s' ∧ _) ↔ _ ∧ _
  rw [excl, elemMask_eq, ← diff_unsigned_iff]
  by_cases hlt : e.unsigned < 256
  · have hd : denote (s &&& ((1#256 <<< e.unsigned.toNat) ^^^ BitVec.allOnes 256)) =
        denote s \ {e.unsigned} := by
      rw [BitVec.xor_allOnes, denote_and_not, denote_elemMask hlt]
    rw [if_pos hlt]
    constructor
    · rintro ⟨s', hs', heq⟩
      obtain rfl := Option.some.inj hs'
      exact ⟨hlt, hd.symm.trans heq⟩
    · rintro ⟨-, heq⟩
      exact ⟨_, rfl, hd.trans heq⟩
  · rw [if_neg hlt]
    constructor
    · rintro ⟨s', hs', -⟩
      cases hs'
    · exact fun h => absurd h.1 hlt

theorem member_correct_iff (e : Operand) (s : Word) :
    (Application.member e s).Correct ↔ (Application.member e s).Ok := by
  show (∃ b, member e s = some b ∧ _) ↔ _ ∧ _
  rw [member, elemMask_eq]
  by_cases hlt : e.unsigned < 256
  · have hbit : (s &&& (1#256 <<< e.unsigned.toNat) != 0#256) = true ↔ e.unsigned ∈ denote s := by
      rw [bne_iff_ne, Ne, and_eq_zero_iff, ← disjoint_denote_iff, denote_elemMask hlt,
        Set.disjoint_singleton_right, not_not]
    rw [if_pos hlt]
    have hiff : (e.unsigned ∈ denote s ↔ e.value ∈ denote s) ↔ 0 ≤ e.value ∨ e.unsigned ∉ denote s := by
      by_cases h0 : 0 ≤ e.value
      · simp [unsigned_eq_value h0, h0]
      · have hnot : e.value ∉ denote s := fun h => h0 (mem_denote_nonneg h).1
        simp [h0, hnot]
    rw [← hiff, ← hbit]
    constructor
    · rintro ⟨b, hb, heq⟩
      obtain rfl := Option.some.inj hb
      exact ⟨hlt, heq⟩
    · rintro ⟨-, heq⟩
      exact ⟨_, rfl, heq⟩
  · rw [if_neg hlt]
    constructor
    · rintro ⟨b, hb, -⟩
      cases hb
    · exact fun h => absurd h.1 hlt

theorem arith_correct_iff (op : ArithOp) (lhs rhs : SetTy) (l r : Word) :
    (Application.arith op lhs rhs l r).Correct ↔ (Application.arith op lhs rhs l r).Ok := by
  have hcorrect : (Application.arith op lhs rhs l r).Correct ↔
      evalBinary op lhs rhs l r = some (setOp op l r) := by
    constructor
    · rintro ⟨s, hs, hd⟩
      rw [hs, denote_injective (hd.trans (denote_setOp op l r).symm)]
    · exact fun h => ⟨_, h, denote_setOp op l r⟩
  rw [hcorrect]
  show _ ↔ exprIsSet lhs = true ∨ exprIsSet rhs = true ∨ IntegerOk op l r
  unfold evalBinary
  by_cases hset : exprIsSet lhs || exprIsSet rhs
  · rw [if_pos hset]
    rw [Bool.or_eq_true] at hset
    exact iff_of_true rfl (hset.elim .inl fun h => .inr (.inl h))
  · rw [if_neg hset]
    rw [Bool.or_eq_true, not_or] at hset
    have hok : integerOp op l r = some (setOp op l r) ↔ IntegerOk op l r := by
      cases op with
      | add => exact Option.some_inj.trans add_eq_or_iff
      | sub => exact Option.some_inj.trans sub_eq_and_not_iff
      | mul => exact Option.some_inj
      | div => exact Iff.rfl
    rw [hok]
    simp [hset.1, hset.2]

theorem sle_iff_subset_iff (l r : Word) : (l.sle r = true ↔ members l ⊆ members r) ↔ LeOk l r := by
  by_cases heq : l = r
  · subst heq
    have hrefl : l.sle l = true := by simp [BitVec.sle_eq_decide]
    exact iff_of_true (iff_of_true hrefl subset_rfl) (.inl rfl)
  obtain ⟨m, hm⟩ := exists_isTop heq
  have hsle := sle_iff_of_isTop hm
  have huniq : ∀ m', IsTop l r m' → m' = m := by
    intro m' hm'
    rcases Nat.lt_trichotomy m' m with h | h | h
    · exact absurd (hm'.above m h) hm.differ
    · exact h
    · exact absurd (hm.above m' h) hm'.differ
  have hmem : m ∈ members l ↔ m ∉ members r := by
    have := hm.differ
    rw [mem_members, mem_members]
    cases hl : l.getLsbD m <;> cases hr : r.getLsbD m <;> simp_all
  have hok : LeOk l r ↔ (m ≠ 255 ∧ (m ∈ members l ∨ members l ⊆ members r) ∨
      m = 255 ∧ m ∈ members r ∧ ¬ members l ⊆ members r) := by
    constructor
    · rintro (h | ⟨m', hm', h⟩)
      · exact absurd h heq
      · obtain rfl := huniq m' hm'
        exact h
    · exact fun h => .inr ⟨m, hm, h⟩
  -- an element of `l` alone is not in `r`
  have hnot : m ∈ members l → ¬ members l ⊆ members r := fun h hsub => hmem.1 h (hsub h)
  rw [hsle, hok]
  by_cases h255 : m = 255
  · subst h255
    rw [if_pos (by omega)]
    change (255 ∈ members l ↔ _) ↔ _
    by_cases hl : 255 ∈ members l
    · have hr := hmem.1 hl
      simp [hl, hr, hnot hl]
    · have hr : 255 ∈ members r := not_not.1 fun h => hl (hmem.2 h)
      simp [hl, hr]
  · rw [if_neg (by omega)]
    change (m ∈ members r ↔ _) ↔ _
    by_cases hl : m ∈ members l
    · have hr := hmem.1 hl
      simp [h255, hl, hr, hnot hl]
    · have hr : m ∈ members r := not_not.1 fun h => hl (hmem.2 h)
      simp [h255, hl, hr]

theorem relation_correct_iff (op : Relation) (l r : Word) :
    (Application.relation op l r).Correct ↔ (Application.relation op l r).Ok := by
  cases op with
  | eq =>
    refine iff_of_true ?_ trivial
    show (l == r) = true ↔ denote l = denote r
    rw [beq_iff_eq, denote_injective.eq_iff]
  | ne =>
    refine iff_of_true ?_ trivial
    show (l != r) = true ↔ denote l ≠ denote r
    rw [bne_iff_ne, denote_injective.ne_iff]
  | le =>
    show (l.sle r = true ↔ denote l ⊆ denote r) ↔ LeOk l r
    rw [denote_subset_iff, sle_iff_subset_iff]
  | ge =>
    show (r.sle l = true ↔ denote r ⊆ denote l) ↔ LeOk r l
    rw [denote_subset_iff, sle_iff_subset_iff]

/-- A set operation has the result of the set algebra if and only if it is `Ok`. -/
theorem application_correct_iff (a : Application) : a.Correct ↔ a.Ok := by
  cases a with
  | construct elements => exact construct_correct_iff elements
  | incl s e => exact incl_correct_iff s e
  | excl s e => exact excl_correct_iff s e
  | member e s => exact member_correct_iff e s
  | arith op lhs rhs l r => exact arith_correct_iff op lhs rhs l r
  | relation op l r => exact relation_correct_iff op l r

/-- `BITSET{0} <= BITSET{1}` is TRUE: 1 is less than 2. -/
theorem not_correct_le : ¬ (Application.relation .le 1#256 2#256).Correct := by
  intro h
  have hsub : denote 1#256 ⊆ denote 2#256 := h.1 (by decide)
  have hmem : 0 ∈ members 2#256 := denote_subset_iff.1 hsub (by simp [members])
  simp [members] at hmem

end NewM2.Ir.SetOps
