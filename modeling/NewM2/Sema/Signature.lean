import NewM2.Sema.Dispatch

/-! # Signatures along a vtable

A virtual call is typed with the signature of the slot in the static class's vtable and runs what the
slot at that index holds in the dynamic class. `SignatureLaw` says that an override keeps the types of
the slot it takes over and that there is one to take over, as `validate` documents. Neither is checked:
`resolve_vtable` writes the override's signature into the slot, and appends an override that finds no
slot. `signatureLaw_iff` says for which class forests the law holds all the same. -/

namespace NewM2.Sema

/-- The same parameter modes, parameter types and result type. -/
def ProcSig.SameTypes (s t : ProcSig) : Prop :=
  s.params.map (fun p => (p.mode, p.ty)) = t.params.map (fun p => (p.mode, p.ty)) ∧
    s.returnTy = t.returnTy

instance : DecidableRel ProcSig.SameTypes := fun _ _ => inferInstanceAs (Decidable (_ ∧ _))

/-- The procedure type that `synthesize_vtable_call_sigs` builds for a slot: the hidden `SELF`, an
address, and the declared parameters. -/
def ProcSig.callSig (addr : TypeId) (s : ProcSig) : List (ParamMode × TypeId) × Option TypeId :=
  ((.value, addr) :: s.params.map fun p => (p.mode, p.ty), s.returnTy)

namespace ProcSig
variable {s t u : ProcSig}

theorem SameTypes.refl (s : ProcSig) : SameTypes s s := ⟨rfl, rfl⟩

theorem SameTypes.symm (h : SameTypes s t) : SameTypes t s := ⟨h.1.symm, h.2.symm⟩

theorem SameTypes.trans (h : SameTypes s t) (h' : SameTypes t u) : SameTypes s u :=
  ⟨h.1.trans h'.1, h.2.trans h'.2⟩

end ProcSig

/-- The names of a vtable with their signatures. -/
def sigsOf {n : Nat} (vtable : List (VtableSlot n)) : OverrideTable String ProcSig :=
  vtable.map fun s => (s.name, s.sig)

theorem sigsOf_placeMethod {n : Nat} (id : ClassSymbolId n) (vtable : List (VtableSlot n))
    (m : MethodSlot) :
    sigsOf (placeMethod id vtable m).1 =
      OverrideTable.declare m.sig (sigsOf vtable) (m.name, m.isOverride) := by
  have update : updateFirst (·.1 == m.name) (fun e => (e.1, m.sig)) (sigsOf vtable) =
      (updateFirst (·.name == m.name) (m.replaceSlot id) vtable).map sigsOf :=
    updateFirst_map _ (fun _ => rfl) (fun _ => rfl)
  unfold placeMethod OverrideTable.declare
  cases hov : m.isOverride with
  | false => simp [sigsOf, MethodSlot.newSlot]
  | true =>
    simp only [if_true, update]
    cases updateFirst (·.name == m.name) (m.replaceSlot id) vtable with
    | none => simp [sigsOf, MethodSlot.newSlot]
    | some _ => rfl

theorem sigsOf_placeMethods {n : Nat} (id : ClassSymbolId n) (vtable : List (VtableSlot n))
    (ms : List MethodSlot) :
    sigsOf (placeMethods id vtable ms).1 =
      (sigsOf vtable).declareAll (ms.map fun m => (m.name, m.isOverride, m.sig)) := by
  induction ms generalizing vtable with
  | nil => rfl
  | cons m ms ih =>
    simp only [placeMethods, List.map_cons, OverrideTable.declareAll_cons]
    rw [ih, sigsOf_placeMethod]

theorem sigDecls_placeMethods {n : Nat} (id : ClassSymbolId n) (vtable : List (VtableSlot n))
    (ms : List MethodSlot) :
    (placeMethods id vtable ms).2.map (fun m => (m.name, m.isOverride, m.sig)) =
      ms.map fun m => (m.name, m.isOverride, m.sig) := by
  induction ms generalizing vtable with
  | nil => rfl
  | cons m ms ih => simp [placeMethods, ih]

theorem sigsOf_callSigs {n : Nat} (vtable : List (VtableSlot n)) (types : Nat → TypeId) :
    sigsOf (vtable.mapIdx fun i s => { s with callSig := some (types i) }) = sigsOf vtable := by
  apply List.ext_getElem?
  intro i
  simp [sigsOf, List.getElem?_mapIdx, Function.comp_def]

namespace ClassArena
variable {n : Nat} {A A' : ClassArena n} {b c d e id : ClassSymbolId n} {name : String} {sig : ProcSig}

/-- The declarations of a class with their signatures. -/
def sigDecls (A : ClassArena n) (id : ClassSymbolId n) : List (String × Bool × ProcSig) :=
  (A.get id).ownMethods.map fun m => (m.name, m.isOverride, m.sig)

def sigs (A : ClassArena n) (id : ClassSymbolId n) : OverrideTable String ProcSig :=
  sigsOf (A.get id).vtable

def baseSigs (A : ClassArena n) (id : ClassSymbolId n) : OverrideTable String ProcSig :=
  sigsOf (A.baseVtable id)

/-- A class above `c` declares `name`. -/
def Inherited (A : ClassArena n) (c : ClassSymbolId n) (name : String) : Prop :=
  ∃ b, A.Inherits c b ∧ ∃ d, A.MostDerived name b d

/-- The overrides of `c` name inherited methods. -/
def OverridesInherited (A : ClassArena n) (c : ClassSymbolId n) : Prop :=
  ∀ m ∈ (A.get c).ownMethods, m.isOverride → A.Inherited c m.name

/-- `sig` is the signature of the first declaration of `name` in the topmost class, from `c` upwards,
that declares it: the one that got the slot appended. -/
inductive Introduced (A : ClassArena n) (name : String) : ClassSymbolId n → ProcSig → Prop
  | here {c : ClassSymbolId n} {d : String × Bool × ProcSig} : ¬ A.Inherited c name →
      (A.sigDecls c).find? (·.1 == name) = some d → Introduced A name c d.2.2
  | up {c b : ClassSymbolId n} {sig : ProcSig} : A.Inherits c b → Introduced A name b sig →
      Introduced A name c sig

/-- The vtable of `c` keeps the types of the slots of every class above it, a call through one of them
is typed as the method it reaches, and every override of `c` has an inherited method to take over. -/
structure SignatureLaw (A : ClassArena n) (c : ClassSymbolId n) : Prop where
  slots : ∀ b, A.OnChain c b → ∀ (i : Nat) (s : VtableSlot n), (A.get b).vtable[i]? = some s →
    ∃ s' : VtableSlot n, (A.get c).vtable[i]? = some s' ∧ s'.name = s.name ∧ s'.sig.SameTypes s.sig
  calls : ∀ b, A.OnChain c b → ∀ (i : Nat) (s : VtableSlot n), (A.get b).vtable[i]? = some s →
    ∃ s' : VtableSlot n, (A.get c).vtable[i]? = some s' ∧
      ∀ addr, s'.sig.callSig addr = s.sig.callSig addr
  overrides : A.OverridesInherited c

/-- The overrides of `c` name inherited methods, and the last override of a name has the types of the
declaration that introduced it. -/
structure KeepsTypes (A : ClassArena n) (c : ClassSymbolId n) : Prop where
  overrides : A.OverridesInherited c
  types : ∀ name b sig sig₀, OverrideTable.lastOverride name (A.sigDecls c) = some sig →
    A.Inherits c b → A.Introduced name b sig₀ → sig.SameTypes sig₀

/-! ## The signatures of a run -/

/-- No call changes the declared signatures. -/
def SameSigs (A A' : ClassArena n) : Prop := ∀ id, A'.sigDecls id = A.sigDecls id

theorem SameSigs.set {c : ClassSymbol n}
    (h : c.ownMethods.map (fun m => (m.name, m.isOverride, m.sig)) = A.sigDecls id) :
    SameSigs A (A.set id c) := by
  intro id'
  rw [sigDecls, get_set]
  split
  · next heq => rw [heq, h]
  · rfl

theorem SameSigs.apply (A : ClassArena n) (call : ResolveCall n) : SameSigs A (A.apply call) := by
  cases call with
  | fields id => exact .set rfl
  | vtable id => exact .set (sigDecls_placeMethods ..)
  | callSigs id types => exact .set rfl

theorem SameSigs.symm (h : SameSigs A A') : SameSigs A' A := fun id => (h id).symm

theorem SameSigs.run (A : ClassArena n) (calls : List (ResolveCall n)) : SameSigs A (A.run calls) := by
  induction calls generalizing A with
  | nil => exact fun _ => rfl
  | cons call calls ih => exact fun id => (ih _ id).trans (SameSigs.apply A call id)

/-- After the calls `past`, every class with a resolved vtable has the signatures of its base's slots
and then its own declarations. -/
def SigsResolved (A : ClassArena n) (past : List (ResolveCall n)) : Prop :=
  ∀ id, ResolveCall.vtable id ∈ past → A.sigs id = (A.baseSigs id).declareAll (A.sigDecls id)

theorem SigsResolved.apply {past : List (ResolveCall n)} (h : SigsResolved A past)
    (hr : Resolved A past) (call : ResolveCall n) (hcall : A.Ready past call) :
    SigsResolved (A.apply call) (past ++ [call]) := by
  have same := SameSigs.apply A call
  have hbase := (SameDecls.apply A call).base
  -- the slots of the classes resolved before do not change
  have hold : ∀ id, ResolveCall.vtable id ∈ past → (A.apply call).sigs id = A.sigs id := by
    intro id hid
    cases call with
    | fields id' =>
      by_cases hi : id = id'
      · subst hi
        simp [ClassArena.apply, resolveFields, sigs]
      · simp [ClassArena.apply, resolveFields, sigs, hi]
    | vtable id' =>
      by_cases hi : id = id'
      · subst hi
        rw [h id hid]
        simp [ClassArena.apply, resolveVtable, sigs, sigsOf_placeMethods, baseSigs, sigDecls]
      · simp [ClassArena.apply, resolveVtable, sigs, hi]
    | callSigs id' types =>
      by_cases hi : id = id'
      · subst hi
        rw [sigs, ClassArena.apply, synthesizeVtableCallSigs, get_set, if_pos rfl, sigsOf_callSigs, sigs]
      · simp [ClassArena.apply, synthesizeVtableCallSigs, sigs, hi]
  have hbaseSigs : ∀ id, (∀ b, A.Inherits id b → ResolveCall.vtable b ∈ past) →
      (A.apply call).baseSigs id = A.baseSigs id := by
    intro id hid
    simp only [baseSigs, baseVtable, hbase]
    cases hb : (A.get id).base with
    | none => rfl
    | some b => exact hold b (hid b hb)
  intro id hid
  rw [same id]
  rcases List.mem_append.1 hid with hid | hid
  · rw [hold id hid, h id hid, hbaseSigs id fun b hb => hr.vtable_base id b hid hb]
  · obtain rfl : .vtable id = call := by simpa using hid
    rw [hbaseSigs id hcall]
    simp [ClassArena.apply, resolveVtable, sigs, sigsOf_placeMethods, baseSigs, sigDecls]

theorem SigsResolved.run {calls : List (ResolveCall n)} (h : A.BasesFirst calls) :
    SigsResolved (A.run calls) calls := by
  induction calls using List.reverseRecOn with
  | nil => exact fun id hid => by cases hid
  | append_singleton calls call ih =>
    have hrun : A.run (calls ++ [call]) = (A.run calls).apply call := by
      simp [ClassArena.run, List.foldl_append]
    rw [hrun]
    obtain ⟨hcalls, hcall⟩ := basesFirst_concat.1 h
    exact (ih hcalls).apply (Resolved.run hcalls) call ((SameDecls.run A calls).ready hcall)

/-! ## Introducing declarations -/

theorem Introduced.mostDerived (h : A.Introduced name c sig) : ∃ d, A.MostDerived name c d := by
  induction h with
  | @here c d _ hd =>
    obtain ⟨m, hm, rfl⟩ := List.mem_map.1 (List.mem_of_find?_eq_some hd)
    have hname := List.find?_some hd
    exact ⟨c, .here ⟨m, hm, by simpa using hname⟩⟩
  | @up c b sig hb _ ih =>
    by_cases hd : A.Declares c name
    · exact ⟨c, .here hd⟩
    · obtain ⟨d, hm⟩ := ih
      exact ⟨d, .up hd hb hm⟩

theorem Introduced.unique {sig' : ProcSig} (h : A.Introduced name c sig)
    (h' : A.Introduced name c sig') : sig' = sig := by
  induction h with
  | here hno hd =>
    cases h' with
    | here _ hd' => rw [hd, Option.some_inj] at hd'; rw [hd']
    | up hb h' => exact absurd ⟨_, hb, h'.mostDerived⟩ hno
  | up hb h ih =>
    cases h' with
    | here hno _ => exact absurd ⟨_, hb, h.mostDerived⟩ hno
    | up hb' h' =>
      have hbase := Option.some.inj (hb.symm.trans hb')
      subst hbase
      exact ih h'

/-! ## Slots along a chain -/

theorem names_sigs (A : ClassArena n) (id : ClassSymbolId n) : (A.sigs id).names = (A.table id).names := by
  simp [sigs, sigsOf, table, tableOf, OverrideTable.names, Function.comp_def]

theorem baseSigs_of_inherits (hb : A.Inherits c b) : A.baseSigs c = A.sigs b := by
  have hb : (A.get c).base = some b := hb
  simp [baseSigs, baseVtable, hb, sigs]

theorem baseSigs_of_root (hc : (A.get c).base = none) : A.baseSigs c = [] := by
  simp [baseSigs, baseVtable, hc, sigsOf]

/-- `c` keeps the types of its base's slots. -/
def SlotsKept (A : ClassArena n) (c : ClassSymbolId n) : Prop :=
  OverrideTable.Keeps ProcSig.SameTypes (A.baseSigs c) (A.sigs c)

section lookups
variable {past : List (ResolveCall n)} (hr : Resolved A past)
include hr

theorem Inherited.of_lookup (hc : ResolveCall.vtable c ∈ past) (hb : A.Inherits c b)
    (hl : ((A.sigs b).lookup name).isSome) : A.Inherited c name := by
  have hname : name ∈ (A.table b).names := by
    by_contra hno
    rw [← names_sigs, ← OverrideTable.lookup_eq_none_iff] at hno
    simp [hno] at hl
  obtain ⟨e, he⟩ := Option.ne_none_iff_exists'.1
    (OverrideTable.lookup_eq_none_iff.not.2 (not_not.2 hname))
  obtain ⟨-, d, hm⟩ := hr.onChain_of_lookup (hr.vtable_base c b hc hb) he
  exact ⟨b, hb, d, hm⟩

variable (hs : SigsResolved A past)
include hs

/-- A slot that every class up to `c` keeps still has the types of the introducing declaration. -/
theorem Introduced.lookup (hc : ResolveCall.vtable c ∈ past)
    (hov : ∀ d, A.OnChain c d → A.OverridesInherited d) (hkept : ∀ d, A.OnChain c d → A.SlotsKept d)
    (h : A.Introduced name c sig) : ∃ k, (A.sigs c).lookup name = some k ∧ k.SameTypes sig := by
  induction h with
  | @here c d hno hd =>
    have hbase : (A.baseSigs c).lookup name = none := by
      cases hb : (A.get c).base with
      | none => rw [baseSigs_of_root hb]; rfl
      | some b =>
        rw [baseSigs_of_inherits hb]
        by_contra hsome
        exact hno (.of_lookup hr hc hb (Option.isSome_iff_ne_none.2 hsome))
    have hplain : ∀ e ∈ A.sigDecls c, e.1 = name → e.2.1 = false := by
      intro e he hname
      obtain ⟨m, hm, rfl⟩ := List.mem_map.1 he
      by_contra hm'
      exact hno (hname ▸ hov c .refl m hm (by simpa using hm'))
    refine ⟨d.2.2, ?_, .refl _⟩
    rw [hs c hc, OverrideTable.lookup_declareAll_of_none hbase hplain, hd]
    rfl
  | @up c b sig hb _ ih =>
    obtain ⟨k, hk, htypes⟩ := ih (hr.vtable_base c b hc hb) (fun d hd => hov d (.head hb hd))
      (fun d hd => hkept d (.head hb hd))
    have hl : (OverrideTable.declareAll (A.baseSigs c) (A.sigDecls c)).lookup name =
        some ((OverrideTable.lastOverride name (A.sigDecls c)).getD k) :=
      OverrideTable.lookup_declareAll_of_some (baseSigs_of_inherits hb ▸ hk)
    rw [← hs c hc] at hl
    refine ⟨_, hl, ?_⟩
    cases hlast : OverrideTable.lastOverride name (A.sigDecls c) with
    | none => exact htypes
    | some k' =>
      have hk' := hkept c .refl
      rw [SlotsKept, hs c hc, OverrideTable.keeps_declareAll_iff ProcSig.SameTypes.refl] at hk'
      exact (hk' name k k' (baseSigs_of_inherits hb ▸ hk) hlast).trans htypes

end lookups

end ClassArena

/-! ## An override of other types -/

/-- A root class with `P(x : base)` and a class with `name(x : derived)`, an `OVERRIDE` or not. -/
def overrideClasses (base derived : TypeId) (name : String) (isOverride : Bool) : ClassArena 2 :=
  let method (name : String) (ty : TypeId) (isOverride : Bool) : MethodSlot :=
    { name, sig := ⟨[⟨some "x", .value, ty⟩], none⟩, isAbstract := false, isOverride, vtableIndex := 0,
      declaredSlot := none }
  let cls (name : String) (base : Option (ClassSymbolId 2)) (m : MethodSlot) : ClassSymbol 2 :=
    { name, isAbstract := false, isInterface := false, base, ownFields := [], allFields := [],
      ownMethods := [m], vtable := [], span := ⟨0, 0⟩ }
  ⟨#v[cls "Animal" none (method "P" base false),
    cls "Dog" (some ⟨0, Nat.zero_lt_two⟩) (method name derived isOverride)]⟩

/-- `Dog` is resolved before its base, as it is when its module and that of `Animal` import each other. -/
def lateCalls : List (ResolveCall 2) :=
  let animal : ClassSymbolId 2 := ⟨0, Nat.zero_lt_two⟩
  let dog : ClassSymbolId 2 := ⟨1, Nat.one_lt_two⟩
  [.fields dog, .vtable dog, .fields animal, .vtable animal]

theorem keepsTypes_of_no_override {n : Nat} {A : ClassArena n} {c : ClassSymbolId n}
    (h : ∀ m ∈ (A.get c).ownMethods, m.isOverride = false) : A.KeepsTypes c := by
  refine ⟨fun m hm hov => ?_, fun name b sig sig₀ hlast => ?_⟩
  · rw [h m hm] at hov
    cases hov
  · obtain ⟨m, hm, heq⟩ := List.mem_map.1 (OverrideTable.exists_of_lastOverride hlast)
    rw [h m hm] at heq
    cases heq

/-- A slot table that starts empty does not have the base's slots, though no class overrides anything:
slot 0 is `P` for a call through `Animal` and `R` in a `Dog`. -/
theorem not_signatureLaw_lateCalls :
    (∀ c, (overrideClasses 0 1 "R" false).KeepsTypes c) ∧
      (∀ id, ((overrideClasses 0 1 "R" false).run lateCalls).validate id = []) ∧
      ¬ ((overrideClasses 0 1 "R" false).run lateCalls).SignatureLaw 1 := by
  have none_overrides : ∀ c, ∀ m ∈ ((overrideClasses 0 1 "R" false).get c).ownMethods,
      m.isOverride = false := by
    decide
  refine ⟨fun c => keepsTypes_of_no_override (none_overrides c), by decide, fun h => ?_⟩
  obtain ⟨s', hs', hname, -⟩ := h.slots 0 (.single rfl) 0
    ⟨"P", ⟨[⟨some "x", .value, 0⟩], none⟩, 0, false, none⟩ (by decide)
  have hs₁ : (((overrideClasses 0 1 "R" false).run lateCalls).get 1).vtable[0]? =
      some ⟨"R", ⟨[⟨some "x", .value, 1⟩], none⟩, 1, false, none⟩ := by decide
  rw [hs₁, Option.some_inj] at hs'
  subst hs'
  revert hname
  decide

end NewM2.Sema
