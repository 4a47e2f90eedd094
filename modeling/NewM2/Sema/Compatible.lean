import NewM2.Lib.Walk
import NewM2.Sema.Types

/-! # Type compatibility and class walks (`analyze.rs`, `lower.rs`)

`types_compatible` calls itself on the components of its two types, and the class walks follow
INHERIT; none of them keeps a set of what it has visited. The loops are computed with fuel, and
`walksReturn_iff` says for which arenas all of them return: those in which no type is a component of itself
are among them (`NoComponentCycle.comparisonsEnd`). -/

namespace NewM2.Sema
open Relation Walk

variable {n : Nat}

namespace ClassArena
variable (C : ClassArena n)

def base (id : ClassSymbolId n) : Option (ClassSymbolId n) := (C.get id).base

/-- Follow the base classes of `cur` until `sup` is met. -/
def walkTo (sup : ClassSymbolId n) : Nat → ClassSymbolId n → Option Bool
  | 0, _ => none
  | fuel + 1, cur =>
    if cur = sup then some true
    else
      match C.base cur with
      | some b => walkTo sup fuel b
      | none => some false

/-- `class_is_subclass` of sema. -/
def classIsSubclass (fuel : Nat) (sub sup : ClassSymbolId n) : Option Bool := C.walkTo sup fuel sub

/-- `class_is_subclass_or_eq` of sema. -/
def classIsSubclassOrEq (fuel : Nat) (a b : ClassSymbolId n) : Option Bool := C.walkTo b fuel a

/-- `class_is_a` of the lowering. -/
def classIsA (fuel : Nat) (a b : ClassSymbolId n) : Option Bool := C.walkTo b fuel a

/-- The length of the base chain. -/
def baseDepth : Nat → ClassSymbolId n → Option Nat
  | 0, _ => none
  | fuel + 1, id =>
    match C.base id with
    | some b => (baseDepth fuel b).map (· + 1)
    | none => some 0

/-- The depth `lower_module` writes into a class's typeinfo; an interface has no typeinfo. -/
def typeinfoDepth (fuel : Nat) (id : ClassSymbolId n) : Option (Option Nat) :=
  if (C.get id).isInterface then some none else (C.baseDepth fuel id).map some

/-- `depth_of` of `resolve_classes_in_scope`, the one walk that remembers what it has seen. -/
def depthOf (inScope seen : Finset (ClassSymbolId n)) (cur : Option (ClassSymbolId n))
    (depth : Nat) : Nat :=
  match cur with
  | none => depth
  | some b =>
    if h : b ∈ inScope ∧ b ∉ seen then depthOf inScope (insert b seen) (C.base b) (depth + 1)
    else depth
termination_by (inScope \ seen).card
decreasing_by
  refine Finset.card_lt_card ⟨?_, fun hsub => ?_⟩
  · exact Finset.sdiff_subset_sdiff subset_rfl (Finset.subset_insert _ _)
  · have := hsub (Finset.mem_sdiff.2 h)
    simp at this

/-- No class inherits from itself; or all classes are interfaces on one INHERIT cycle, which a walk
from one class to another meets before it comes round. -/
def InheritEnds : Prop :=
  (∀ id, ¬ OnCycle C.base id) ∨
    ((∀ id, (C.get id).isInterface = true) ∧ ∀ a b, LeadsTo C.base a b)

/-- The walk of `walkTo`. -/
def nextUnless (sup id : ClassSymbolId n) : Option (ClassSymbolId n) :=
  if id = sup then none else C.base id

variable {C} {sup id : ClassSymbolId n}

theorem nextUnless_cases (sup id : ClassSymbolId n) :
    C.nextUnless sup id = none ∨ C.nextUnless sup id = C.base id := by
  unfold nextUnless
  split
  · exact .inl rfl
  · exact .inr rfl

theorem walkTo_succ (fuel : Nat) {b : ClassSymbolId n} (h : C.nextUnless sup id = some b) :
    C.walkTo sup (fuel + 1) id = C.walkTo sup fuel b := by
  unfold nextUnless at h
  split at h
  · cases h
  · next hne => simp [walkTo, hne, h]

theorem walkTo_last (h : C.nextUnless sup id = none) : (C.walkTo sup 1 id).isSome := by
  unfold nextUnless at h
  split at h
  · next he => simp [walkTo, he]
  · next hne => simp [walkTo, hne, h]

theorem baseDepth_succ (fuel : Nat) {b : ClassSymbolId n} (h : C.base id = some b) :
    (C.baseDepth (fuel + 1) id).isSome = (C.baseDepth fuel b).isSome := by
  simp [baseDepth, h]

theorem walkTo_terminates (he : Ends (C.nextUnless sup) id) :
    Terminates fun fuel => C.walkTo sup fuel id :=
  he.terminates (fun fuel _ _ h => by rw [walkTo_succ fuel h]) fun _ h => ⟨1, walkTo_last h⟩

/-- A class on a cycle is compared with a class off the cycle without end. -/
theorem walkTo_not_terminates (hcyc : OnCycle C.base id) (hsup : ¬ LeadsTo C.base id sup) :
    ¬ Terminates fun fuel => C.walkTo sup fuel id := by
  have hcyc' : OnCycle (C.nextUnless sup) id := by
    refine hcyc.congr fun d hd => if_neg ?_
    rintro rfl
    exact hsup hd
  exact hcyc'.not_terminates (fun fuel _ _ h => by rw [walkTo_succ fuel h]) fun _ => rfl

theorem baseDepth_terminates (he : Ends C.base id) : Terminates fun fuel => C.baseDepth fuel id :=
  he.terminates (fun fuel _ _ h => baseDepth_succ fuel h) fun _ h => ⟨1, by simp [baseDepth, h]⟩

theorem baseDepth_not_terminates (h : OnCycle C.base id) :
    ¬ Terminates fun fuel => C.baseDepth fuel id :=
  h.not_terminates (fun fuel _ _ h => baseDepth_succ fuel h) fun _ => rfl

theorem inheritEnds_iff : C.InheritEnds ↔
    (∀ sub sup, Terminates fun fuel => C.walkTo sup fuel sub) ∧
      ∀ id, Terminates fun fuel => C.typeinfoDepth fuel id := by
  constructor
  · rintro (hacyc | ⟨hinterface, hreach⟩)
    · have hends : ∀ id, Ends C.base id := fun id =>
        ends_of_acyclic Set.finite_univ (fun _ _ _ _ => trivial) hacyc (Set.mem_univ id)
      refine ⟨fun sub sup => walkTo_terminates ((hends sub).mono (nextUnless_cases sup)), ?_⟩
      intro id
      obtain ⟨fuel, h⟩ := baseDepth_terminates (hends id)
      refine ⟨fuel, ?_⟩
      unfold typeinfoDepth
      split <;> simp [h]
    · refine ⟨fun sub sup => walkTo_terminates ?_, fun id => ⟨0, by simp [typeinfoDepth, hinterface]⟩⟩
      exact .of_leadsTo (hreach sub sup) (if_pos rfl) (nextUnless_cases sup)
  · rintro ⟨hwalk, hdepth⟩
    by_cases hacyc : ∀ id, ¬ OnCycle C.base id
    · exact .inl hacyc
    push Not at hacyc
    obtain ⟨c, hcyc⟩ := hacyc
    -- every class is met on the way round
    have hmeet : ∀ d, LeadsTo C.base c d := by
      intro d
      by_contra hd
      exact walkTo_not_terminates hcyc hd (hwalk c d)
    refine .inr ⟨fun d => ?_, fun a b => (hcyc.leadsTo_back (hmeet a)).trans (hmeet b)⟩
    by_contra hd
    refine baseDepth_not_terminates (hcyc.of_leadsTo (hmeet d)) ?_
    obtain ⟨fuel, h⟩ := hdepth d
    exact ⟨fuel, by simpa [typeinfoDepth, hd] using h⟩

end ClassArena
end NewM2.Sema

namespace NewM2.Types
open Relation Walk
open NewM2.Sema (TypeId ClassSymbolId ClassArena)

variable {n : Nat}

/-- What one call of `types_compatible` comes to: a verdict, or one more call. -/
inductive Comparison (n : Nat)
  | known (b : Bool)
  | types (l r : TypeId)
  | classes (sub sup : ClassSymbolId n)
deriving Repr, DecidableEq

/-- The type that `types_compatible` takes out of a type. -/
def TypeKind.component : TypeKind n → Option TypeId
  | .subrange host _ _ => some host
  | .array _ base | .openArray base | .pointer base | .set _ base => some base
  | _ => none

namespace TypeArena
variable (T : TypeArena n)

/-- The body of `types_compatible`. -/
def compare (l r : TypeId) : Comparison n :=
  if l = r then .known true
  else
    match T.get l, T.get r with
    | .builtin a, .builtin b => .known (a.isSameFamily b)
    | .set _ a, .set _ b => .types a b
    | .builtin b, .set _ _ | .set _ _, .builtin b => .known b.isBitset
    | .enum _ a _, .enum _ b _ => .known (a == b)
    | .pointer _, .builtin b | .builtin b, .pointer _ => .known (b == .nil || b.isAddress)
    | .pointer a, .pointer b => .types a b
    -- the parameters in order, each by mode and type
    | .proc aParams aRet, .proc bParams bRet => .known (aRet == bRet && aParams == bParams)
    | .proc _ _, .builtin b | .builtin b, .proc _ _ => .known (b == .proc)
    | .openArray e, .openArray a | .openArray e, .array _ a => .types e a
    | .class l, .class r => .classes r l
    | .class _, .builtin b | .builtin b, .class _ => .known (b == .nil || b.isAddress)
    | .subrange host _ _, _ => .types host r
    | _, .subrange host _ _ => .types l host
    | _, _ => .known false

/-- `types_compatible`. -/
def typesCompatible (C : ClassArena n) : Nat → TypeId → TypeId → Option Bool
  | 0, _, _ => none
  | fuel + 1, l, r =>
    match T.compare l r with
    | .known b => some b
    | .types a b => typesCompatible C fuel a b
    | .classes sub sup => C.classIsSubclass fuel sub sup

/-- The pair of types `types_compatible` goes on with. -/
def nextPair (p : TypeId × TypeId) : Option (TypeId × TypeId) :=
  match T.compare p.1 p.2 with
  | .types a b => some (a, b)
  | _ => none

/-- No two types are compared by comparing the same two types again. -/
def ComparisonsEnd : Prop := ∀ p, ¬ OnCycle T.nextPair p

def nextComponent (id : TypeId) : Option TypeId := (T.get id).component

/-- No type leads back to itself through pointers, sets, arrays and hosts; records stop the way. -/
def NoComponentCycle : Prop := ∀ id, ¬ OnCycle T.nextComponent id

variable {T} {l r a b : TypeId} {p q : TypeId × TypeId}

theorem compare_eq_types (h : T.compare l r = .types a b) :
    (T.get l).component = some a ∧ (T.get r).component = some b ∨
      (T.get l).component = some a ∧ b = r ∨ a = l ∧ (T.get r).component = some b := by
  unfold compare at h
  split at h
  · cases h
  · split at h <;> cases h <;> simp_all [TypeKind.component]

theorem nextPair_eq_some (h : T.nextPair p = some q) : T.compare p.1 p.2 = .types q.1 q.2 := by
  unfold nextPair at h
  split at h
  · next hc => cases h; exact hc
  · cases h

/-- The types a comparison can come to: `l` and the components of the arena. -/
theorem finite_components (l : TypeId) :
    {id | id = l ∨ ∃ i, (T.get i).component = some id}.Finite := by
  refine (Set.finite_singleton l).union ?_
  refine (T.types.filterMap TypeKind.component).toFinset.finite_toSet.subset ?_
  rintro id ⟨i, hi⟩
  simp only [List.coe_toFinset, List.mem_filterMap, Set.mem_ofPred_eq]
  unfold get at hi
  by_cases hlt : i < T.types.length
  · rw [List.getD_eq_getElem _ _ hlt] at hi
    exact ⟨_, List.getElem_mem hlt, hi⟩
  · rw [List.getD_eq_default _ _ (Nat.le_of_not_lt hlt)] at hi
    cases hi

theorem ends_nextPair (h : T.ComparisonsEnd) (l r : TypeId) : Ends T.nextPair (l, r) := by
  refine ends_of_acyclic ((finite_components (T := T) l).prod (finite_components (T := T) r))
    ?_ h ⟨.inl rfl, .inl rfl⟩
  rintro ⟨a, b⟩ ⟨ha, hb⟩ ⟨a', b'⟩ hnext
  rcases compare_eq_types (nextPair_eq_some hnext) with ⟨hl, hr⟩ | ⟨hl, hr⟩ | ⟨hl, hr⟩
  · exact ⟨.inr ⟨_, hl⟩, .inr ⟨_, hr⟩⟩
  · exact ⟨.inr ⟨_, hl⟩, by rw [hr]; exact hb⟩
  · exact ⟨by rw [hl]; exact ha, .inr ⟨_, hr⟩⟩

theorem typesCompatible_succ (C : ClassArena n) (fuel : Nat) (h : T.nextPair p = some q) :
    T.typesCompatible C (fuel + 1) p.1 p.2 = T.typesCompatible C fuel q.1 q.2 := by
  simp [typesCompatible, nextPair_eq_some h]

theorem typesCompatible_last {C : ClassArena n}
    (hC : ∀ sub sup, Terminates fun fuel => C.walkTo sup fuel sub) (h : T.nextPair p = none) :
    Terminates fun fuel => T.typesCompatible C fuel p.1 p.2 := by
  cases hc : T.compare p.1 p.2 with
  | known b => exact ⟨1, by simp [typesCompatible, hc]⟩
  | types a b => simp [nextPair, hc] at h
  | classes sub sup =>
    obtain ⟨fuel, hf⟩ := hC sub sup
    exact ⟨fuel + 1, by simpa [typesCompatible, hc, ClassArena.classIsSubclass] using hf⟩

theorem typesCompatible_terminates {C : ClassArena n} (h : T.ComparisonsEnd)
    (hC : ∀ sub sup, Terminates fun fuel => C.walkTo sup fuel sub) (l r : TypeId) :
    Terminates fun fuel => T.typesCompatible C fuel l r :=
  (ends_nextPair h l r).terminates
    (f := fun fuel p => T.typesCompatible C fuel p.1 p.2)
    (fun fuel _ _ hp => by rw [typesCompatible_succ C fuel hp]) fun _ hp => typesCompatible_last hC hp

theorem typesCompatible_not_terminates (C : ClassArena n) (h : OnCycle T.nextPair p) :
    ¬ Terminates fun fuel => T.typesCompatible C fuel p.1 p.2 :=
  h.not_terminates (f := fun fuel p => T.typesCompatible C fuel p.1 p.2)
    (fun fuel _ _ hp => by rw [typesCompatible_succ C fuel hp]) fun _ => rfl

/-- Along the pairs both types only move on to components, and one of them does. -/
theorem moves_of_transGen (h : TransGen (Step T.nextPair) p q) :
    LeadsTo T.nextComponent p.1 q.1 ∧ LeadsTo T.nextComponent p.2 q.2 ∧
      (TransGen (Step T.nextComponent) p.1 q.1 ∨ TransGen (Step T.nextComponent) p.2 q.2) := by
  induction h using TransGen.trans_induction_on with
  | @single p q hstep =>
    rcases compare_eq_types (nextPair_eq_some hstep) with ⟨hl, hr⟩ | ⟨hl, hr⟩ | ⟨hl, hr⟩
    · exact ⟨.single hl, .single hr, .inl (.single hl)⟩
    · exact ⟨.single hl, by rw [hr], .inl (.single hl)⟩
    · exact ⟨by rw [hl], .single hr, .inr (.single hr)⟩
  | trans _ _ ih ih' =>
    obtain ⟨hl, hr, hone⟩ := ih
    obtain ⟨hl', hr', -⟩ := ih'
    exact ⟨hl.trans hl', hr.trans hr', hone.imp (·.trans_left hl') (·.trans_left hr')⟩

/-- Recursion through records only, as in linked lists and trees, is harmless. -/
theorem NoComponentCycle.comparisonsEnd (h : T.NoComponentCycle) : T.ComparisonsEnd := by
  intro p hcyc
  rcases (moves_of_transGen hcyc).2.2 with hl | hr
  · exact h _ hl
  · exact h _ hr

/-- The walks of sema and of the lowering over the arenas return, whatever they are called with. -/
structure WalksReturn (T : TypeArena n) (C : ClassArena n) : Prop where
  typesCompatible : ∀ l r, Terminates fun fuel => T.typesCompatible C fuel l r
  classIsSubclass : ∀ sub sup, Terminates fun fuel => C.classIsSubclass fuel sub sup
  classIsSubclassOrEq : ∀ a b, Terminates fun fuel => C.classIsSubclassOrEq fuel a b
  classIsA : ∀ a b, Terminates fun fuel => C.classIsA fuel a b
  typeinfoDepth : ∀ id, Terminates fun fuel => C.typeinfoDepth fuel id

theorem walksReturn_iff (T : TypeArena n) (C : ClassArena n) :
    WalksReturn T C ↔ T.ComparisonsEnd ∧ C.InheritEnds := by
  rw [ClassArena.inheritEnds_iff]
  constructor
  · intro h
    refine ⟨fun p hp => ?_, h.classIsSubclass, h.typeinfoDepth⟩
    exact typesCompatible_not_terminates C hp (h.typesCompatible p.1 p.2)
  · rintro ⟨hT, hwalk, hdepth⟩
    exact ⟨typesCompatible_terminates hT hwalk, hwalk, hwalk, hwalk, hdepth⟩

/-- `TYPE name = POINTER TO target`: the declaration passes allocate a pointer type and copy its
kind to the id of the name. -/
def declarePointer (T : TypeArena n) (name target : TypeId) : TypeArena n :=
  let (T, pointer) := T.allocUnresolved
  let T := T.set pointer (.pointer target)
  T.set name (T.get pointer)

/-- `TYPE A = POINTER TO A; B = POINTER TO B;`, and no class. -/
def selfPointers : TypeArena 0 :=
  let (T, a) := new.allocUnresolved
  let (T, b) := T.allocUnresolved
  (T.declarePointer a a).declarePointer b b

def selfPointersA : TypeId := 37
def selfPointersB : TypeId := 38

def noClasses : ClassArena 0 := ⟨#v[]⟩

theorem selfPointers_compare :
    selfPointers.compare selfPointersA selfPointersB = .types selfPointersA selfPointersB := by
  decide +kernel

theorem not_walksReturn_selfPointers : ¬ WalksReturn selfPointers noClasses := by
  intro h
  have hcyc : OnCycle selfPointers.nextPair (selfPointersA, selfPointersB) := by
    refine .single ?_
    show selfPointers.nextPair _ = _
    simp [nextPair, selfPointers_compare]
  exact typesCompatible_not_terminates noClasses hcyc (h.typesCompatible _ _)

end TypeArena
end NewM2.Types
