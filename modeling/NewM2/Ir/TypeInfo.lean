import NewM2.Runtime.Rtti
import NewM2.Sema.ResolveOrder

/-! # Type-info records of classes (`lower.rs`, `codegen.rs`, `rtti.rs`)

The lowering writes a record for every class but the interfaces, with the name of the base and the length
of the base chain; the linker puts the address of the base's record for its name. The records are a forest
as the run-time test needs it, and the test on them gives what ISMEMBER of two class names is folded to
(`nm2RttiIsa_eq_classIsA`). -/

namespace NewM2.Sema
open Walk

namespace ClassArena
variable {n : Nat} (C : ClassArena n)

/-- The class whose record is `{name}.typeinfo`. -/
def nativeNamed (name : String) : Option (ClassSymbolId n) :=
  (List.finRange n).find? fun id => !(C.get id).isInterface && (C.get id).name == name

/-- `{name}.typeinfo`, with names for the addresses of records. -/
def typeInfoNamed (fuel : Nat) (name : String) : Rtti.TypeInfo String :=
  match C.nativeNamed name with
  | some id => ⟨(C.base id).map fun b => (C.get b).name, (C.baseDepth fuel id).getD 0⟩
  | none => ⟨none, 0⟩

/-- The lowering has returned with every depth, native classes inherit from native ones, and no two of
them have one name. -/
structure Linkable (fuel : Nat) : Prop where
  returns : ∀ id, (C.get id).isInterface = false → (C.baseDepth fuel id).isSome
  native : ∀ id b, (C.get id).isInterface = false → C.base id = some b → (C.get b).isInterface = false
  names : ∀ a b, (C.get a).isInterface = false → (C.get b).isInterface = false →
    (C.get a).name = (C.get b).name → a = b

variable {C} {fuel d : Nat} {a b id : ClassSymbolId n}

/-! ## Walks and ancestry -/

theorem onChain_iff_of_ne (hne : a ≠ b) : C.OnChain a b ↔ ∃ c, C.base a = some c ∧ C.OnChain c b := by
  rw [OnChain, Relation.ReflTransGen.cases_head_iff]
  exact or_iff_right hne

/-- A walk that returns has decided ancestry. -/
theorem walkTo_eq_some {v : Bool} (h : C.walkTo b fuel a = some v) : v = true ↔ C.OnChain a b := by
  induction fuel generalizing a with
  | zero => cases h
  | succ fuel ih =>
    rw [walkTo] at h
    split at h
    · next heq =>
      cases h
      exact ⟨fun _ => heq ▸ .refl, fun _ => rfl⟩
    · next hne =>
      rw [onChain_iff_of_ne hne]
      split at h
      · next c hc => simp [ih h, hc]
      · next hc =>
        cases h
        simp [hc]

theorem baseDepth_mono (h : C.baseDepth fuel id = some d) : C.baseDepth (fuel + 1) id = some d := by
  induction fuel generalizing id d with
  | zero => cases h
  | succ fuel ih =>
    rw [baseDepth] at h ⊢
    split at h
    · next b hb =>
      obtain ⟨e, he, rfl⟩ := Option.map_eq_some_iff.1 h
      rw [ih he, Option.map_some]
    · exact h

theorem baseDepth_of_base (hid : (C.baseDepth fuel id).isSome) (hb : C.base id = some b) :
    ∃ d, C.baseDepth fuel b = some d ∧ C.baseDepth fuel id = some (d + 1) := by
  cases fuel with
  | zero => cases hid
  | succ fuel =>
    obtain ⟨e, he⟩ := Option.isSome_iff_exists.1 hid
    have heq := he
    rw [baseDepth, hb] at heq
    obtain ⟨d, hd, rfl⟩ := Option.map_eq_some_iff.1 heq
    exact ⟨d, baseDepth_mono hd, he⟩

/-! ## The records -/

namespace Linkable

theorem nativeNamed_eq (h : C.Linkable fuel) (hid : (C.get id).isInterface = false) :
    C.nativeNamed (C.get id).name = some id := by
  have hsome : (C.nativeNamed (C.get id).name).isSome := by
    rw [nativeNamed, List.find?_isSome]
    exact ⟨id, List.mem_finRange id, by simp [hid]⟩
  obtain ⟨c, hc⟩ := Option.isSome_iff_exists.1 hsome
  have hpred := List.find?_some hc
  simp only [Bool.and_eq_true, Bool.not_eq_true', beq_iff_eq] at hpred
  rw [hc, h.names c id hpred.1 hid hpred.2]

theorem typeInfoNamed_eq (h : C.Linkable fuel) (hid : (C.get id).isInterface = false) :
    C.typeInfoNamed fuel (C.get id).name =
      ⟨(C.base id).map fun b => (C.get b).name, (C.baseDepth fuel id).getD 0⟩ := by
  rw [typeInfoNamed, h.nativeNamed_eq hid]

/-- A record with a parent is that of a class with a base, the parent that of the base. -/
theorem parent_eq_some {p q : String} (hq : (C.typeInfoNamed fuel p).parent = some q) :
    ∃ id b, C.nativeNamed p = some id ∧ C.base id = some b ∧ (C.get b).name = q := by
  rw [typeInfoNamed] at hq
  split at hq
  · next id hid =>
    obtain ⟨b, hb, hname⟩ := Option.map_eq_some_iff.1 hq
    exact ⟨id, b, hid, hb, hname⟩
  · cases hq

theorem native_of_nativeNamed {p : String} (hid : C.nativeNamed p = some id) :
    (C.get id).isInterface = false ∧ (C.get id).name = p := by
  have hpred := List.find?_some hid
  simpa only [Bool.and_eq_true, Bool.not_eq_true', beq_iff_eq] using hpred

theorem depth_parent (h : C.Linkable fuel) (p q : String) (hq : (C.typeInfoNamed fuel p).parent = some q) :
    (C.typeInfoNamed fuel p).depth = (C.typeInfoNamed fuel q).depth + 1 := by
  obtain ⟨id, b, hid, hb, rfl⟩ := parent_eq_some hq
  obtain ⟨hnative, rfl⟩ := native_of_nativeNamed hid
  obtain ⟨d, hd, hd'⟩ := baseDepth_of_base (h.returns id hnative) hb
  rw [h.typeInfoNamed_eq hnative, h.typeInfoNamed_eq (h.native id b hnative hb), hd, hd']
  rfl

/-- The records of a linked program. -/
def forest (h : C.Linkable fuel) : Rtti.Forest String := ⟨C.typeInfoNamed fuel, h.depth_parent⟩

theorem parent_iff (h : C.Linkable fuel) (ha : (C.get a).isInterface = false) (q : String) :
    (h.forest.info (C.get a).name).parent = some q ↔ ∃ c, C.base a = some c ∧ (C.get c).name = q := by
  show (C.typeInfoNamed fuel (C.get a).name).parent = some q ↔ _
  rw [h.typeInfoNamed_eq ha]
  exact Option.map_eq_some_iff

/-- The ancestors of a record are those of its class. -/
theorem ancestry_iff (h : C.Linkable fuel) (ha : (C.get a).isInterface = false)
    (hb : (C.get b).isInterface = false) :
    h.forest.Ancestry (C.get a).name (C.get b).name ↔ C.OnChain a b := by
  constructor
  · intro hanc
    generalize hp : (C.get a).name = p at hanc
    induction hanc using Relation.ReflTransGen.head_induction_on generalizing a with
    | refl => exact h.names a b ha hb hp ▸ .refl
    | head hstep _ ih =>
      subst hp
      obtain ⟨c, hc, rfl⟩ := (h.parent_iff ha _).1 hstep
      exact .head hc (ih (h.native a c ha hc) rfl)
  · intro hchain
    induction hchain using Relation.ReflTransGen.head_induction_on with
    | refl => exact .refl
    | head hstep _ ih =>
      exact .head ((h.parent_iff ha _).2 ⟨_, hstep, rfl⟩) (ih (h.native _ _ ha hstep))

/-- At run time ISMEMBER gives for an object what it gives for the object's class when it is folded. -/
theorem nm2RttiIsa_eq_classIsA {v : Bool} {k : Nat} (h : C.Linkable fuel)
    (ha : (C.get a).isInterface = false) (hb : (C.get b).isInterface = false)
    (hv : C.classIsA k a b = some v) :
    h.forest.nm2RttiIsa (some (C.get a).name) (some (C.get b).name) = v := by
  rw [Bool.eq_iff_iff, Rtti.Forest.nm2RttiIsa_iff, walkTo_eq_some hv, ← h.ancestry_iff ha hb]
  simp

end Linkable
end ClassArena

theorem twoClasses_linkable (isOverride : Bool) : (twoClasses isOverride).Linkable 2 where
  returns := by decide +revert
  native := by decide +revert
  names := by decide +revert

/-- An object of class `Dog` is an `Animal`. -/
theorem nm2RttiIsa_eq_classIsA_twoClasses :
    (twoClasses_linkable true).forest.nm2RttiIsa (some "Dog") (some "Animal") = true :=
  (twoClasses_linkable true).nm2RttiIsa_eq_classIsA (a := 1) (b := 0) rfl rfl (k := 2) rfl

end NewM2.Sema
