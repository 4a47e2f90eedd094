import Mathlib.Logic.Relation
import Mathlib.Data.List.Induction
import NewM2.Sema.Class

/-! # Virtual dispatch over inheritance chains

A resolved vtable, read as names with their defining classes, is the inherited table extended by the
class's own declarations (`Resolved`). Lookups along a chain then follow from `lookup_extend`: a name
that a class does not declare is provided as in its base, and a class provides a name it declares
exactly when it overrides it or introduces it. The second case is what `resolve_vtable` and `validate`
leave unchecked: a method that redeclares an inherited name without `OVERRIDE` is appended behind the
slot that every lookup finds. -/

namespace NewM2.Sema

/-- The names of a vtable with their defining classes. -/
def tableOf {n : Nat} (vtable : List (VtableSlot n)) : OverrideTable String (ClassSymbolId n) :=
  vtable.map fun s => (s.name, s.definingClass)

theorem tableOf_placeMethod {n : Nat} (id : ClassSymbolId n) (vtable : List (VtableSlot n))
    (m : MethodSlot) :
    tableOf (placeMethod id vtable m).1 =
      OverrideTable.declare id (tableOf vtable) (m.name, m.isOverride) := by
  have update : updateFirst (·.1 == m.name) (fun e => (e.1, id)) (tableOf vtable) =
      (updateFirst (·.name == m.name) (m.replaceSlot id) vtable).map tableOf :=
    updateFirst_map _ (fun _ => rfl) (fun _ => rfl)
  unfold placeMethod OverrideTable.declare
  cases hov : m.isOverride with
  | false => simp [tableOf, MethodSlot.newSlot]
  | true =>
    simp only [if_true, update]
    cases updateFirst (·.name == m.name) (m.replaceSlot id) vtable with
    | none => simp [tableOf, MethodSlot.newSlot]
    | some _ => rfl

theorem tableOf_placeMethods {n : Nat} (id : ClassSymbolId n) (vtable : List (VtableSlot n))
    (ms : List MethodSlot) :
    tableOf (placeMethods id vtable ms).1 =
      OverrideTable.extend id (tableOf vtable) (ms.map fun m => (m.name, m.isOverride)) := by
  induction ms generalizing vtable with
  | nil => rfl
  | cons m ms ih =>
    simp only [placeMethods, List.map_cons, OverrideTable.extend_cons]
    rw [ih, tableOf_placeMethod]

theorem decls_placeMethods {n : Nat} (id : ClassSymbolId n) (vtable : List (VtableSlot n))
    (ms : List MethodSlot) :
    (placeMethods id vtable ms).2.map (fun m => (m.name, m.isOverride)) =
      ms.map fun m => (m.name, m.isOverride) := by
  induction ms generalizing vtable with
  | nil => rfl
  | cons m ms ih => simp [placeMethods, ih]

theorem tableOf_callSigs {n : Nat} (vtable : List (VtableSlot n)) (types : Nat → TypeId) :
    tableOf (vtable.mapIdx fun i s => { s with callSig := some (types i) }) = tableOf vtable := by
  apply List.ext_getElem?
  intro i
  simp [tableOf, List.getElem?_mapIdx, Function.comp_def]

namespace ClassArena
variable {n : Nat} {A A' : ClassArena n} {b c d e id : ClassSymbolId n} {name : String}

@[simp] theorem get_set (A : ClassArena n) (id id' : ClassSymbolId n) (c : ClassSymbol n) :
    (A.set id c).get id' = if id' = id then c else A.get id' := by
  simp only [get, set, Fin.getElem_fin, Vector.getElem_set]
  by_cases h : id' = id
  · simp [h]
  · rw [if_neg (fun h' => h (Fin.ext h'.symm)), if_neg h]

/-! ## Chains -/

def decls (A : ClassArena n) (id : ClassSymbolId n) : List (String × Bool) :=
  (A.get id).ownMethods.map fun m => (m.name, m.isOverride)

def table (A : ClassArena n) (id : ClassSymbolId n) : OverrideTable String (ClassSymbolId n) :=
  tableOf (A.get id).vtable

/-- `b` is the base of `c`. -/
def Inherits (A : ClassArena n) (c b : ClassSymbolId n) : Prop := (A.get c).base = some b

/-- `b` is `c` or one of the classes above it. -/
def OnChain (A : ClassArena n) : ClassSymbolId n → ClassSymbolId n → Prop :=
  Relation.ReflTransGen A.Inherits

def Declares (A : ClassArena n) (c : ClassSymbolId n) (name : String) : Prop :=
  ∃ m ∈ (A.get c).ownMethods, m.name = name

instance (A : ClassArena n) (c : ClassSymbolId n) (name : String) : Decidable (A.Declares c name) :=
  inferInstanceAs (Decidable (∃ m ∈ _, _))

/-- `d` is the first class from `c` upwards that declares `name`. -/
inductive MostDerived (A : ClassArena n) (name : String) : ClassSymbolId n → ClassSymbolId n → Prop
  | here {c : ClassSymbolId n} : A.Declares c name → MostDerived A name c c
  | up {c b d : ClassSymbolId n} : ¬ A.Declares c name → A.Inherits c b → MostDerived A name b d →
      MostDerived A name c d

/-- `d` introduces `name`, or declares it with `OVERRIDE`. -/
def OverridesOrIntroduces (A : ClassArena n) (d : ClassSymbolId n) (name : String) : Prop :=
  (∃ m ∈ (A.get d).ownMethods, m.name = name ∧ m.isOverride) ∨
    ∀ b e, A.Inherits d b → ¬ A.MostDerived name b e

/-- A class whose vtable and fields are laid out over its base's, with every call by name reaching the
most-derived declaration, also through the index that any class above it finds. -/
structure DispatchCorrect (A : ClassArena n) (c : ClassSymbolId n) : Prop where
  vtable_prefix : ∀ b, A.Inherits c b →
    (A.get b).vtable.map (·.name) <+: (A.get c).vtable.map (·.name)
  fields_prefix : ∀ b, A.Inherits c b → (A.get b).allFields <+: (A.get c).allFields
  slot : ∀ name d, A.MostDerived name c d →
    ∃ i, A.findMethod c name = some i ∧ A.implementation c i = some d
  dispatch : ∀ b, A.OnChain c b → ∀ name i, A.findMethod b name = some i →
    ∃ d, A.MostDerived name c d ∧ A.implementation c i = some d

namespace MostDerived

theorem onChain (h : A.MostDerived name c d) : A.OnChain c d := by
  induction h with
  | here => exact .refl
  | up _ hb _ ih => exact .head hb ih

theorem declares (h : A.MostDerived name c d) : A.Declares d name := by
  induction h with
  | here hd => exact hd
  | up _ _ _ ih => exact ih

end MostDerived

theorem declares_iff : A.Declares c name ↔ name ∈ (A.decls c).map Prod.fst := by
  simp [Declares, decls]

theorem mem_decls_override :
    (name, true) ∈ A.decls c ↔ ∃ m ∈ (A.get c).ownMethods, m.name = name ∧ m.isOverride := by
  simp [decls]

theorem findMethod_eq (A : ClassArena n) (id : ClassSymbolId n) (name : String) :
    A.findMethod id name = (A.table id).findIdx? (·.1 == name) := by
  simp [findMethod, table, tableOf, List.findIdx?_map, Function.comp_def]

theorem implementation_eq (A : ClassArena n) (id : ClassSymbolId n) (i : Nat) :
    A.implementation id i = ((A.table id)[i]?).map Prod.snd := by
  simp [implementation, table, tableOf, Function.comp_def]

/-- What no call into the arena changes. -/
structure SameDecls (A A' : ClassArena n) : Prop where
  base : ∀ id, (A'.get id).base = (A.get id).base
  decls : ∀ id, A'.decls id = A.decls id
  ownFields : ∀ id, (A'.get id).ownFields = (A.get id).ownFields

namespace SameDecls

theorem refl (A : ClassArena n) : SameDecls A A := ⟨fun _ => rfl, fun _ => rfl, fun _ => rfl⟩

theorem trans {A'' : ClassArena n} (h : SameDecls A A') (h' : SameDecls A' A'') :
    SameDecls A A'' :=
  ⟨fun id => (h'.base id).trans (h.base id), fun id => (h'.decls id).trans (h.decls id),
    fun id => (h'.ownFields id).trans (h.ownFields id)⟩

theorem set {c : ClassSymbol n} (hb : c.base = (A.get id).base)
    (hd : c.ownMethods.map (fun m => (m.name, m.isOverride)) = A.decls id)
    (hf : c.ownFields = (A.get id).ownFields) : SameDecls A (A.set id c) := by
  refine ⟨fun id' => ?_, fun id' => ?_, fun id' => ?_⟩
  · rw [get_set]; split
    · next h => rw [h, hb]
    · rfl
  · rw [ClassArena.decls, get_set]; split
    · next h => rw [h, hd]
    · rfl
  · rw [get_set]; split
    · next h => rw [h, hf]
    · rfl

theorem apply (A : ClassArena n) (call : ResolveCall n) : SameDecls A (A.apply call) := by
  cases call with
  | fields id => exact .set rfl rfl rfl
  | vtable id => exact .set rfl (decls_placeMethods ..) rfl
  | callSigs id types => exact .set rfl rfl rfl

theorem run (A : ClassArena n) (calls : List (ResolveCall n)) : SameDecls A (A.run calls) := by
  induction calls generalizing A with
  | nil => exact .refl A
  | cons call calls ih => exact (SameDecls.apply A call).trans (ih _)

variable (h : SameDecls A A')
include h

theorem inherits_iff : A'.Inherits c b ↔ A.Inherits c b := by rw [Inherits, Inherits, h.base]

theorem declares_iff : A'.Declares c name ↔ A.Declares c name := by
  rw [ClassArena.declares_iff, ClassArena.declares_iff, h.decls]

theorem ready {past : List (ResolveCall n)} {call : ResolveCall n} (hc : A.Ready past call) :
    A'.Ready past call := by
  cases call with
  | fields id => exact fun b hb => hc b ((h.base id).symm.trans hb)
  | vtable id => exact fun b hb => hc b ((h.base id).symm.trans hb)
  | callSigs => trivial

theorem mostDerived (hm : A'.MostDerived name c d) : A.MostDerived name c d := by
  induction hm with
  | here hd => exact .here (h.declares_iff.1 hd)
  | up hd hb _ ih => exact .up (h.declares_iff.not.1 hd) (h.inherits_iff.1 hb) ih

theorem symm : SameDecls A' A :=
  ⟨fun id => (h.base id).symm, fun id => (h.decls id).symm, fun id => (h.ownFields id).symm⟩

theorem mostDerived_iff : A'.MostDerived name c d ↔ A.MostDerived name c d :=
  ⟨h.mostDerived, h.symm.mostDerived⟩

theorem overridesOrIntroduces_iff :
    A'.OverridesOrIntroduces d name ↔ A.OverridesOrIntroduces d name := by
  unfold OverridesOrIntroduces
  simp only [← mem_decls_override, h.decls, h.inherits_iff, h.mostDerived_iff]

end SameDecls

/-! ## The layout invariant of a run -/

def baseTable (A : ClassArena n) (id : ClassSymbolId n) : OverrideTable String (ClassSymbolId n) :=
  tableOf (A.baseVtable id)

/-- After the calls `past`: every class with a resolved vtable has the extension of its base's, every
class with resolved fields has its base's and then its own, and bases of resolved classes are resolved. -/
structure Resolved (A : ClassArena n) (past : List (ResolveCall n)) : Prop where
  vtable : ∀ id, ResolveCall.vtable id ∈ past →
    A.table id = OverrideTable.extend id (A.baseTable id) (A.decls id)
  vtable_base : ∀ id b, ResolveCall.vtable id ∈ past → A.Inherits id b →
    ResolveCall.vtable b ∈ past
  fields : ∀ id, ResolveCall.fields id ∈ past →
    (A.get id).allFields = A.baseFields id ++ (A.get id).ownFields
  fields_base : ∀ id b, ResolveCall.fields id ∈ past → A.Inherits id b →
    ResolveCall.fields b ∈ past
  vtable_acc : ∀ id, ResolveCall.vtable id ∈ past → Acc (fun b c => A.Inherits c b) id
  fields_acc : ∀ id, ResolveCall.fields id ∈ past → Acc (fun b c => A.Inherits c b) id

theorem Resolved.nil (A : ClassArena n) : Resolved A [] := by
  constructor <;> simp

/-- A call that changes neither tables nor fields of the classes resolved before, and lays `id` out. -/
theorem Resolved.of_frame {past past' : List (ResolveCall n)} (h : Resolved A past)
    (same : SameDecls A A')
    (table : ∀ id, ResolveCall.vtable id ∈ past → A'.table id = A.table id)
    (fields : ∀ id, ResolveCall.fields id ∈ past → (A'.get id).allFields = (A.get id).allFields)
    (hv : ∀ id, ResolveCall.vtable id ∈ past' → ResolveCall.vtable id ∈ past ∨
      (∀ b, A.Inherits id b → ResolveCall.vtable b ∈ past) ∧
        A'.table id = OverrideTable.extend id (A.baseTable id) (A.decls id))
    (hf : ∀ id, ResolveCall.fields id ∈ past' → ResolveCall.fields id ∈ past ∨
      (∀ b, A.Inherits id b → ResolveCall.fields b ∈ past) ∧
        (A'.get id).allFields = A.baseFields id ++ (A.get id).ownFields)
    (mono : ∀ call ∈ past, call ∈ past') : Resolved A' past' := by
  have hvb : ∀ id b, ResolveCall.vtable id ∈ past' → A.Inherits id b → ResolveCall.vtable b ∈ past :=
    fun id b hid hb => (hv id hid).elim (fun h' => h.vtable_base id b h' hb) fun h' => h'.1 b hb
  have hfb : ∀ id b, ResolveCall.fields id ∈ past' → A.Inherits id b → ResolveCall.fields b ∈ past :=
    fun id b hid hb => (hf id hid).elim (fun h' => h.fields_base id b h' hb) fun h' => h'.1 b hb
  have hinh : (fun b c => A'.Inherits c b) = fun b c => A.Inherits c b := by
    funext b c; exact propext same.inherits_iff
  refine ⟨fun id hid => ?_, fun id b hid hb => ?_, fun id hid => ?_, fun id b hid hb => ?_,
    fun id hid => ?_, fun id hid => ?_⟩
  · have hbase : A'.baseTable id = A.baseTable id := by
      simp only [baseTable, baseVtable, same.base]
      cases hb : (A.get id).base with
      | none => rfl
      | some b => exact table b (hvb id b hid hb)
    rw [hbase, same.decls]
    rcases hv id hid with h' | h'
    · rw [table id h', h.vtable id h']
    · exact h'.2
  · exact mono _ (hvb id b hid (same.inherits_iff.1 hb))
  · have hbase : A'.baseFields id = A.baseFields id := by
      simp only [baseFields, same.base]
      cases hb : (A.get id).base with
      | none => rfl
      | some b => exact fields b (hfb id b hid hb)
    rw [hbase, same.ownFields]
    rcases hf id hid with h' | h'
    · rw [fields id h', h.fields id h']
    · exact h'.2
  · exact mono _ (hfb id b hid (same.inherits_iff.1 hb))
  · rw [hinh]
    exact ⟨_, fun b hb => h.vtable_acc b (hvb id b hid hb)⟩
  · rw [hinh]
    exact ⟨_, fun b hb => h.fields_acc b (hfb id b hid hb)⟩

/-- One call keeps the layout invariant when the base has been resolved. -/
theorem Resolved.apply {past : List (ResolveCall n)} (h : Resolved A past) (call : ResolveCall n)
    (hcall : A.Ready past call) : Resolved (A.apply call) (past ++ [call]) := by
  have mono : ∀ call' ∈ past, call' ∈ past ++ [call] := fun _ hc => List.mem_append_left _ hc
  cases call with
  | fields id =>
    have hnew : ((A.apply (.fields id)).get id).allFields = A.baseFields id ++ (A.get id).ownFields := by
      simp [ClassArena.apply, resolveFields]
    refine h.of_frame (.apply ..) (fun id' hid' => ?_) (fun id' hid' => ?_) (fun id' hid' => ?_)
      (fun id' hid' => ?_) mono
    · by_cases hi : id' = id
      · subst hi; simp [ClassArena.apply, resolveFields, table]
      · simp [ClassArena.apply, resolveFields, table, hi]
    · by_cases hi : id' = id
      · subst hi; rw [hnew, h.fields _ hid']
      · simp [ClassArena.apply, resolveFields, hi]
    · exact .inl (by simpa using hid')
    · rcases List.mem_append.1 hid' with h' | h'
      · exact .inl h'
      · have hi : id' = id := by simpa using h'
        subst hi
        exact .inr ⟨hcall, hnew⟩
  | vtable id =>
    have hnew : (A.apply (.vtable id)).table id =
        OverrideTable.extend id (A.baseTable id) (A.decls id) := by
      simp [ClassArena.apply, resolveVtable, table, tableOf_placeMethods, baseTable, decls]
    refine h.of_frame (.apply ..) (fun id' hid' => ?_) (fun id' hid' => ?_) (fun id' hid' => ?_)
      (fun id' hid' => ?_) mono
    · by_cases hi : id' = id
      · subst hi; rw [hnew, h.vtable _ hid']
      · simp [ClassArena.apply, resolveVtable, table, hi]
    · by_cases hi : id' = id
      · subst hi; simp [ClassArena.apply, resolveVtable]
      · simp [ClassArena.apply, resolveVtable, hi]
    · rcases List.mem_append.1 hid' with h' | h'
      · exact .inl h'
      · have hi : id' = id := by simpa using h'
        subst hi
        exact .inr ⟨hcall, hnew⟩
    · exact .inl (by simpa using hid')
  | callSigs id types =>
    refine h.of_frame (.apply ..) (fun id' hid' => ?_) (fun id' hid' => ?_) (fun id' hid' => ?_)
      (fun id' hid' => ?_) mono
    · by_cases hi : id' = id
      · subst hi
        rw [table, ClassArena.apply, synthesizeVtableCallSigs, get_set, if_pos rfl,
          tableOf_callSigs, table]
      · simp [ClassArena.apply, synthesizeVtableCallSigs, table, hi]
    · by_cases hi : id' = id
      · subst hi; simp [ClassArena.apply, synthesizeVtableCallSigs]
      · simp [ClassArena.apply, synthesizeVtableCallSigs, hi]
    · exact .inl (by simpa using hid')
    · exact .inl (by simpa using hid')

theorem basesFirst_nil (A : ClassArena n) : A.BasesFirst [] := by
  intro past call rest h
  simp at h

theorem basesFirst_concat {calls : List (ResolveCall n)} {call : ResolveCall n} :
    A.BasesFirst (calls ++ [call]) ↔ A.BasesFirst calls ∧ A.Ready calls call := by
  constructor
  · intro h
    refine ⟨fun past call' rest heq => ?_, h calls call [] rfl⟩
    exact h past call' (rest ++ [call]) (by rw [heq]; simp)
  · rintro ⟨h, hcall⟩ past call' rest heq
    cases rest using List.reverseRecOn with
    | nil =>
      have hinj := List.append_inj' heq rfl
      rw [← hinj.1, ← List.singleton_inj.1 hinj.2]
      exact hcall
    | append_singleton rest last =>
      have heq' : calls ++ [call] = (past ++ call' :: rest) ++ [last] := by simpa using heq
      exact h past call' rest (List.append_inj' heq' rfl).1

/-- The layout invariant holds after every run that resolves bases first. -/
theorem Resolved.run {calls : List (ResolveCall n)} (h : A.BasesFirst calls) :
    Resolved (A.run calls) calls := by
  induction calls using List.reverseRecOn with
  | nil => exact .nil A
  | append_singleton calls call ih =>
    have hrun : A.run (calls ++ [call]) = (A.run calls).apply call := by
      simp [ClassArena.run, List.foldl_append]
    rw [hrun]
    obtain ⟨hcalls, hcall⟩ := basesFirst_concat.1 h
    exact (ih hcalls).apply call ((SameDecls.run A calls).ready hcall)

/-! ## Lookups along a chain -/

theorem baseTable_of_inherits (hb : A.Inherits c b) : A.baseTable c = A.table b := by
  have hb : (A.get c).base = some b := hb
  simp [baseTable, baseVtable, hb, table]

theorem baseTable_of_root (hc : (A.get c).base = none) : A.baseTable c = [] := by
  simp [baseTable, baseVtable, hc, tableOf]

theorem not_rel_self {α : Type*} {r : α → α → Prop} {x : α} (h : Acc r x) : ¬ r x x := by
  induction h with
  | intro x _ ih => exact fun hx => ih x hx hx

theorem OnChain.ne_of_inherits (hacc : Acc (fun b c => A.Inherits c b) d) (hb : A.Inherits d b)
    (he : A.OnChain b e) : e ≠ d := by
  have key : ∀ x, A.OnChain b x → Relation.TransGen (fun b c => A.Inherits c b) x d := by
    intro x hx
    induction hx with
    | refl => exact .single hb
    | tail _ hstep ih => exact .head hstep ih
  rintro rfl
  exact not_rel_self hacc.transGen (key _ he)

namespace Resolved
variable {past : List (ResolveCall n)} (h : Resolved A past)
include h

theorem vtable_of_onChain (hc : ResolveCall.vtable c ∈ past) (hb : A.OnChain c b) :
    ResolveCall.vtable b ∈ past := by
  induction hb with
  | refl => exact hc
  | tail _ hstep ih => exact h.vtable_base _ _ ih hstep

theorem lookup (hc : ResolveCall.vtable c ∈ past) (name : String) :
    (A.table c).lookup name =
      if A.Declares c name ∧ ((name, true) ∈ A.decls c ∨ (A.baseTable c).lookup name = none)
      then some c else (A.baseTable c).lookup name := by
  rw [h.vtable c hc, OverrideTable.lookup_extend]
  simp only [declares_iff]

/-- Below its most-derived declaration a name is provided as there. -/
theorem lookup_eq_of_mostDerived (hc : ResolveCall.vtable c ∈ past) (hm : A.MostDerived name c d) :
    (A.table c).lookup name = (A.table d).lookup name := by
  induction hm with
  | here => rfl
  | up hd hb _ ih =>
    rw [h.lookup hc, if_neg (not_and_of_not_left _ hd), baseTable_of_inherits hb]
    exact ih (h.vtable_base _ _ hc hb)

/-- A provided name has a most-derived declaration, and its provider is on the chain. -/
theorem onChain_of_lookup (hc : ResolveCall.vtable c ∈ past) (hl : (A.table c).lookup name = some e) :
    A.OnChain c e ∧ ∃ d, A.MostDerived name c d := by
  induction h.vtable_acc c hc with
  | intro c _ ih =>
    by_cases hd : A.Declares c name
    · refine ⟨?_, c, .here hd⟩
      rw [h.lookup hc] at hl
      split at hl
      · cases hl; exact .refl
      · cases hb : (A.get c).base with
        | none => simp [baseTable_of_root hb] at hl
        | some b =>
          rw [baseTable_of_inherits hb] at hl
          exact .head hb (ih b hb (h.vtable_base _ _ hc hb) hl).1
    · rw [h.lookup hc, if_neg (not_and_of_not_left _ hd)] at hl
      cases hb : (A.get c).base with
      | none => simp [baseTable_of_root hb] at hl
      | some b =>
        rw [baseTable_of_inherits hb] at hl
        obtain ⟨hon, d, hm⟩ := ih b hb (h.vtable_base _ _ hc hb) hl
        exact ⟨.head hb hon, d, .up hd hb hm⟩

theorem lookup_isSome (hc : ResolveCall.vtable c ∈ past) (hm : A.MostDerived name c d) :
    ∃ e, (A.table c).lookup name = some e := by
  rw [h.lookup_eq_of_mostDerived hc hm]
  have hd : ResolveCall.vtable d ∈ past := h.vtable_of_onChain hc hm.onChain
  rw [h.lookup hd]
  split
  · exact ⟨_, rfl⟩
  · next hn =>
    simp only [hm.declares, true_and, not_or] at hn
    exact Option.ne_none_iff_exists'.1 hn.2

/-- The class that declares a name last provides it exactly when it overrides or introduces it. -/
theorem lookup_self_iff (hd : ResolveCall.vtable d ∈ past) (hdecl : A.Declares d name) :
    (A.table d).lookup name = some d ↔ A.OverridesOrIntroduces d name := by
  rw [h.lookup hd]
  unfold OverridesOrIntroduces
  rw [← mem_decls_override]
  cases hb : (A.get d).base with
  | none =>
    have hroot : ∀ b e, A.Inherits d b → ¬ A.MostDerived name b e := by
      intro b e hb'
      rw [Inherits, hb] at hb'
      cases hb'
    simp [baseTable_of_root hb, hdecl, eq_true hroot]
  | some b =>
    have hinh : A.Inherits d b := hb
    have hbmem := h.vtable_base _ _ hd hinh
    rw [baseTable_of_inherits hinh]
    have hiff : (∀ b e, A.Inherits d b → ¬ A.MostDerived name b e) ↔
        (A.table b).lookup name = none := by
      constructor
      · intro hno
        by_contra hsome
        obtain ⟨e, he⟩ := Option.ne_none_iff_exists'.1 hsome
        obtain ⟨_, d', hd'⟩ := h.onChain_of_lookup hbmem he
        exact hno b d' hinh hd'
      · intro hnone b' e hb' hm
        have : b' = b := Option.some.inj (hb'.symm.trans hb)
        subst this
        obtain ⟨e', he'⟩ := h.lookup_isSome hbmem hm
        rw [hnone] at he'
        cases he'
    rw [hiff]
    constructor
    · intro hl
      split at hl
      · next hc => exact hc.2
      · exact absurd rfl (OnChain.ne_of_inherits (h.vtable_acc d hd) hinh
          (h.onChain_of_lookup hbmem hl).1)
    · intro hc
      rw [if_pos ⟨hdecl, hc⟩]

theorem names_prefix (hc : ResolveCall.vtable c ∈ past) (hb : A.OnChain c b) :
    (A.table b).names <+: (A.table c).names := by
  induction hb with
  | refl => exact List.prefix_rfl
  | @tail b b' hon hstep ih =>
    refine List.IsPrefix.trans ?_ ih
    rw [h.vtable b (h.vtable_of_onChain hc hon), baseTable_of_inherits hstep]
    exact OverrideTable.names_prefix_extend ..

end Resolved

theorem slotNames_eq (A : ClassArena n) (id : ClassSymbolId n) :
    (A.get id).vtable.map (·.name) = (A.table id).names := by
  simp [table, tableOf, OverrideTable.names, Function.comp_def]

/-- The slot found by name, seen through its index. -/
theorem slot_iff :
    (∃ i, A.findMethod c name = some i ∧ A.implementation c i = some d) ↔
      (A.table c).lookup name = some d := by
  constructor
  · rintro ⟨i, hi, hd⟩
    rw [findMethod_eq] at hi
    rw [← OverrideTable.getElem?_of_findIdx? hi, ← implementation_eq, hd]
  · intro hl
    cases hi : (A.table c).findIdx? (·.1 == name) with
    | none =>
      have hno : (A.table c).lookup name = none := by
        rw [OverrideTable.lookup_eq_none_iff]
        intro hmem
        obtain ⟨e, he, hen⟩ := List.mem_map.1 hmem
        simpa [hen] using List.findIdx?_eq_none_iff.1 hi e he
      rw [hno] at hl
      cases hl
    | some i =>
      refine ⟨i, by rw [findMethod_eq, hi], ?_⟩
      rw [implementation_eq, OverrideTable.getElem?_of_findIdx? hi, hl]

/-- Dispatch is correct exactly for the classes in whose chain every most-derived declaration of a name
overrides or introduces it. -/
theorem dispatchCorrect_iff (A : ClassArena n) (calls : List (ResolveCall n))
    (hbases : A.BasesFirst calls) (c : ClassSymbolId n) (hv : ResolveCall.vtable c ∈ calls)
    (hf : ResolveCall.fields c ∈ calls) :
    (A.run calls).DispatchCorrect c ↔
      ∀ name d, A.MostDerived name c d → A.OverridesOrIntroduces d name := by
  have h := Resolved.run hbases
  have same := SameDecls.run A calls
  have cond : (∀ name d, A.MostDerived name c d → A.OverridesOrIntroduces d name) ↔
      ∀ name d, (A.run calls).MostDerived name c d →
        ((A.run calls).table c).lookup name = some d := by
    refine forall_congr' fun name => forall_congr' fun d => ?_
    rw [same.mostDerived_iff]
    refine imp_congr_right fun hm => ?_
    have hm' := same.mostDerived_iff.2 hm
    have hd := h.vtable_of_onChain hv hm'.onChain
    rw [h.lookup_eq_of_mostDerived hv hm', h.lookup_self_iff hd hm'.declares,
      same.overridesOrIntroduces_iff]
  rw [cond]
  constructor
  · intro hdc name d hm
    exact slot_iff.1 (hdc.slot name d hm)
  · intro hslot
    refine ⟨fun b hb => ?_, fun b hb => ?_, fun name d hm => ?_, fun b hb name i hi => ?_⟩
    · rw [slotNames_eq, slotNames_eq]
      exact h.names_prefix hv (.single hb)
    · rw [h.fields c hf]
      have hb : ((A.run calls).get c).base = some b := hb
      simp [baseFields, hb]
    · exact slot_iff.2 (hslot name d hm)
    · rw [findMethod_eq] at hi
      have hi' := OverrideTable.findIdx?_of_prefix (h.names_prefix hv hb) hi
      have hl := OverrideTable.getElem?_of_findIdx? hi'
      have hlt : i < ((A.run calls).table c).length := by
        have := (List.findIdx?_eq_some_iff_getElem.1 hi').1
        exact this
      rw [List.getElem?_eq_getElem hlt] at hl
      obtain ⟨_, d, hm⟩ := h.onChain_of_lookup hv hl.symm
      refine ⟨d, hm, ?_⟩
      rw [implementation_eq, OverrideTable.getElem?_of_findIdx? hi']
      exact hslot name d hm

end ClassArena

/-! ## Two classes -/

/-- A root class with one method `P` and a class that inherits it and declares `P` again. -/
def twoClasses (isOverride : Bool) : ClassArena 2 :=
  let method (isOverride : Bool) : MethodSlot :=
    { name := "P", sig := ⟨[], none⟩, isAbstract := false, isOverride, vtableIndex := 0,
      declaredSlot := none }
  let cls (name : String) (base : Option (ClassSymbolId 2)) (isOverride : Bool) : ClassSymbol 2 :=
    { name, isAbstract := false, isInterface := false, base, ownFields := [], allFields := [],
      ownMethods := [method isOverride], vtable := [], span := ⟨0, 0⟩ }
  ⟨#v[cls "Animal" none false, cls "Dog" (some 0) isOverride]⟩

/-- The calls `resolve_classes_in_scope` makes for both. -/
def twoCalls : List (ResolveCall 2) := [.fields 0, .vtable 0, .fields 1, .vtable 1]

theorem twoClasses_basesFirst (isOverride : Bool) :
    (twoClasses isOverride).BasesFirst twoCalls := by
  have h0 : ((twoClasses isOverride).get 0).base = none := rfl
  have h1 : ((twoClasses isOverride).get 1).base = some 0 := rfl
  rw [show twoCalls = ((([] ++ [.fields 0]) ++ [.vtable 0]) ++ [.fields 1]) ++ [.vtable 1] from rfl]
  simp only [ClassArena.basesFirst_concat, ClassArena.Ready, h0, h1]
  simp [ClassArena.basesFirst_nil]

theorem dispatchCorrect_iff_twoClasses :
    ((twoClasses true).run twoCalls).DispatchCorrect 1 ↔
      ∀ name d, (twoClasses true).MostDerived name 1 d →
        (twoClasses true).OverridesOrIntroduces d name :=
  ClassArena.dispatchCorrect_iff _ _ (twoClasses_basesFirst true) 1 (by simp [twoCalls])
    (by simp [twoCalls])

/-- Redeclared without `OVERRIDE`, `P` is accepted, but a call of it on the derived class runs the
inherited method. -/
theorem dispatch_redeclared :
    (twoClasses false).BasesFirst twoCalls ∧
      (∀ id, ((twoClasses false).run twoCalls).validate id = []) ∧
      ¬ ((twoClasses false).run twoCalls).DispatchCorrect 1 := by
  refine ⟨twoClasses_basesFirst false, by decide, fun h => ?_⟩
  have hm : ((twoClasses false).run twoCalls).MostDerived "P" 1 1 := .here (by decide)
  obtain ⟨i, hi, hd⟩ := h.slot "P" 1 hm
  have h0 : ((twoClasses false).run twoCalls).findMethod 1 "P" = some 0 := by decide
  rw [h0] at hi
  cases hi
  revert hd
  decide

end NewM2.Sema
