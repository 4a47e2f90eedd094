import Mathlib
import NewM2.Lib.PostOrder
import NewM2.Sema.Dispatch
import NewM2.Winapi.Emit

/-! # The slots of generated INTERFACEs

Two computations of the same slot: the generator adds up the methods along the base chain, sema extends
the vtable that the base has at the moment. They agree exactly if no vtable with methods is extended too
late (`ordinalsAgree_iff`). Sema declares and resolves the classes of a module when all modules that it
imports are resolved, so this can only fail for modules that import each other
(`inheritsInTime_of_acyclic`). -/

namespace NewM2.Winapi

open Sema

/-! ## Pragmas -/

theorem trim_of_not_whitespace {cs : List Char} (h : ∀ c ∈ cs, c.isWhitespace = false) : trim cs = cs := by
  have hdrop : ∀ l : List Char, (∀ c ∈ l, c.isWhitespace = false) → l.dropWhile Char.isWhitespace = l := by
    intro l hl
    cases l with
    | nil => rfl
    | cons c l => rw [List.dropWhile_cons, hl c List.mem_cons_self, if_neg Bool.false_ne_true]
  unfold trim
  rw [hdrop cs h, hdrop _ fun c hc => h c (List.mem_reverse.1 hc), List.reverse_reverse]

theorem isWhitespace_of_isDigit {c : Char} (h : c.isDigit = true) : c.isWhitespace = false := by
  unfold Char.isDigit at h
  unfold Char.isWhitespace
  simp only [Bool.and_eq_true, decide_eq_true_eq] at h
  simp only [Bool.or_eq_false_iff, decide_eq_false_iff_not]
  refine ⟨⟨⟨?_, ?_⟩, ?_⟩, ?_⟩ <;> rintro rfl <;> revert h <;> decide

theorem isDigit_of_mem_toDigits {k : Nat} {c : Char} (hc : c ∈ Nat.toDigits 10 k) : c.isDigit = true :=
  Nat.isDigit_of_mem_toDigits (by decide) (by decide) hc

theorem parseUsize_toDigits (k : Nat) :
    parseUsize (Nat.toDigits 10 k) = if k < 2 ^ 64 then some k else none := by
  have hne : Nat.toDigits 10 k ≠ [] := List.ne_nil_of_length_pos Nat.length_toDigits_pos
  have hplus : (Nat.toDigits 10 k).head? ≠ some '+' := fun h =>
    absurd (isDigit_of_mem_toDigits (List.mem_of_head? h)) (by decide)
  have hall : (Nat.toDigits 10 k).all Char.isDigit = true :=
    List.all_eq_true.2 fun _ => isDigit_of_mem_toDigits
  unfold parseUsize
  rw [if_neg hplus]
  simp only [Nat.ofDigitChars_ten_toDigits, hne, hall, ne_eq, not_false_eq_true, true_and]

/-- Sema reads the ordinal that the generator wrote. -/
theorem parseOrdinalPragma_ordinal (k : Nat) :
    parseOrdinalPragma ['@' :: Nat.toDigits 10 k] = if k < 2 ^ 64 then some k else none := by
  have hws : ∀ c ∈ Nat.toDigits 10 k, c.isWhitespace = false := fun c hc =>
    isWhitespace_of_isDigit (isDigit_of_mem_toDigits hc)
  have hat : ∀ c ∈ '@' :: Nat.toDigits 10 k, c.isWhitespace = false := by
    intro c hc
    rcases List.mem_cons.1 hc with rfl | hc
    · decide
    · exact hws c hc
  unfold parseOrdinalPragma
  rw [List.findSome?_cons, trim_of_not_whitespace hat]
  simp only
  rw [trim_of_not_whitespace hws, parseUsize_toDigits]
  by_cases hk : k < 2 ^ 64
  · rw [if_pos hk]
  · rw [if_neg hk]
    rfl

namespace InterfaceIndex
variable {n m : Nat} {I : InterfaceIndex n m} {i j : Fin n}

theorem find?_finRange {p : Fin n → Prop} [DecidablePred p] (hi : p i) (huniq : ∀ j, p j → j = i) :
    (List.finRange n).find? (fun j => decide (p j)) = some i := by
  rcases hf : (List.finRange n).find? fun j => decide (p j) with _ | j
  · exact absurd (decide_eq_true hi) (List.find?_eq_none.1 hf i (List.mem_finRange i))
  · have hj : decide (p j) = true := List.find?_some (p := fun j => decide (p j)) hf
    rw [huniq j (of_decide_eq_true hj)]

theorem get_qualifiedName (I : InterfaceIndex n m) (i : Fin n) :
    I.get (I.row i).qualifiedName = some i :=
  find?_finRange rfl fun _ h => I.qualifiedName_inj h

theorem qualifiedName_of_get {q : String} (h : I.get q = some i) : (I.row i).qualifiedName = q :=
  of_decide_eq_true (List.find?_some (p := fun i => decide ((I.row i).qualifiedName = q)) h)

/-- The base of an interface. -/
def base (I : InterfaceIndex n m) (i : Fin n) : Option (Fin n) :=
  (I.row i).baseQualifiedName.bind I.get

/-- The INHERIT clause is looked up in the right module and finds the base. -/
theorem resolveBase_interfaceDecl (I : InterfaceIndex n m) (i : Fin n) :
    resolveBase I.interfaceDecl i = I.base i := by
  have hlookup : ∀ j, lookupClass I.interfaceDecl (I.moduleName j) (I.row j).name = some j := fun j =>
    find?_finRange ⟨rfl, rfl⟩ fun k hk =>
      I.name_inj (Prod.ext (I.moduleName_inj hk.1) hk.2)
  unfold resolveBase base
  simp only [interfaceDecl]
  unfold inheritClause
  rcases (I.row i).baseQualifiedName with _ | q
  · rfl
  · dsimp only [Option.bind_some]
    rcases I.get q with _ | b
    · rfl
    · dsimp only
      by_cases hm : I.moduleName b = I.moduleName i
      · rw [if_pos hm, ← hm]
        exact hlookup b
      · rw [if_neg hm]
        exact hlookup b

/-! ## Base chains -/

/-- The base chain of `i` is complete and without a cycle: `l` are the bases, nearest first. -/
inductive Chain (I : InterfaceIndex n m) : Fin n → List (Fin n) → Prop
  | root {i : Fin n} : (I.row i).baseQualifiedName = none → Chain I i []
  | step {i j : Fin n} {l : List (Fin n)} : I.base i = some j → Chain I j l → Chain I i (j :: l)

/-- All base chains are complete and without a cycle. -/
def Grounded (I : InterfaceIndex n m) : Prop := ∀ i, ∃ l, I.Chain i l

theorem base_of_root (h : (I.row i).baseQualifiedName = none) : I.base i = none := by
  unfold base
  rw [h]
  rfl

theorem Chain.unique {l l' : List (Fin n)} (h : I.Chain i l) (h' : I.Chain i l') : l = l' := by
  induction h generalizing l' with
  | root hr =>
    cases h' with
    | root => rfl
    | step hb _ => rw [base_of_root hr] at hb; cases hb
  | step hb _ ih =>
    cases h' with
    | root hr => rw [base_of_root hr] at hb; cases hb
    | step hb' hl' =>
      rw [hb] at hb'
      cases hb'
      rw [ih hl']

/-- A base has its own, shorter chain. -/
theorem Chain.of_mem {l : List (Fin n)} (h : I.Chain i l) (hj : j ∈ l) :
    ∃ l', I.Chain j l' ∧ l'.length < l.length := by
  induction h with
  | root => cases hj
  | @step i b l _ hl ih =>
    rcases List.mem_cons.1 hj with rfl | hj
    · exact ⟨l, hl, Nat.lt_succ_self _⟩
    · obtain ⟨l', hl', hlt⟩ := ih hj
      exact ⟨l', hl', Nat.lt_succ_of_lt hlt⟩

theorem Chain.not_mem {l : List (Fin n)} (h : I.Chain i l) : i ∉ l := fun hi => by
  obtain ⟨l', hl', hlt⟩ := h.of_mem hi
  rw [h.unique hl'] at hlt
  exact absurd hlt (Nat.lt_irrefl _)

theorem Chain.nodup {l : List (Fin n)} (h : I.Chain i l) : l.Nodup := by
  induction h with
  | root => exact List.nodup_nil
  | step _ hl ih => exact List.nodup_cons.2 ⟨hl.not_mem, ih⟩

theorem Chain.length_le {l : List (Fin n)} (h : I.Chain i l) : l.length ≤ n := by
  simpa using h.nodup.length_le_card

/-- Neither the guard nor the bound of the loop is ever met. -/
theorem Chain.baseOffsetFrom {l : List (Fin n)} (h : I.Chain i l) :
    ∀ (fuel : Nat) (seen : List String), l.length < fuel →
    (∀ j ∈ l, (I.row j).qualifiedName ∉ seen) →
    I.baseOffsetFrom fuel seen (I.row i).baseQualifiedName = (l.map I.ownMethodCount).sum := by
  induction h with
  | root hr =>
    intro fuel seen _ _
    rw [hr]
    cases fuel <;> rfl
  | @step i b l hb hl ih =>
    intro fuel seen hlt hseen
    obtain ⟨q, hq, hget⟩ := Option.bind_eq_some_iff.1 hb
    have hname := qualifiedName_of_get hget
    cases fuel with
    | zero => exact absurd hlt (Nat.not_lt_zero _)
    | succ fuel =>
      rw [hq]
      unfold InterfaceIndex.baseOffsetFrom
      rw [if_neg (hname ▸ hseen b List.mem_cons_self), hget]
      dsimp only
      rw [List.map_cons, List.sum_cons, ih fuel (q :: seen) (Nat.lt_of_succ_lt_succ hlt)]
      intro j hj
      refine List.not_mem_cons_of_ne_of_not_mem (fun heq => ?_) (hseen j (List.mem_cons_of_mem b hj))
      have hjb : j = b := I.qualifiedName_inj (heq.trans hname.symm)
      exact hl.not_mem (hjb ▸ hj)

/-- The offset is the number of methods of all bases. -/
theorem Chain.baseOffset {l : List (Fin n)} (h : I.Chain i l) :
    I.baseOffset (I.row i).qualifiedName = (l.map I.ownMethodCount).sum := by
  unfold InterfaceIndex.baseOffset
  rw [get_qualifiedName]
  exact h.baseOffsetFrom (n + 1) [] (Nat.lt_succ_of_le h.length_le) fun _ _ => List.not_mem_nil

end InterfaceIndex

/-! ## Vtables without overrides -/

section vtables
variable {n : Nat} {A : ClassArena n} {id i : Fin n}

/-- A method that overrides nothing gets the next slot. -/
theorem placeMethods_of_no_override (id : Fin n) : ∀ (ms : List MethodSlot) (vtable : List (VtableSlot n)),
    (∀ ms' ∈ ms, ms'.isOverride = false) →
    (placeMethods id vtable ms).1.length = vtable.length + ms.length ∧
      (placeMethods id vtable ms).2 =
        ms.mapIdx fun k ms' => { ms' with vtableIndex := vtable.length + k }
  | [], _, _ => ⟨rfl, rfl⟩
  | m :: ms, vtable, h => by
    have hplace : placeMethod id vtable m = (vtable ++ [m.newSlot id], vtable.length) := by
      unfold placeMethod
      rw [h m List.mem_cons_self, if_neg Bool.false_ne_true]
    obtain ⟨hlen, hms⟩ := placeMethods_of_no_override id ms (vtable ++ [m.newSlot id])
      fun ms' hm => h ms' (List.mem_cons_of_mem m hm)
    unfold placeMethods
    rw [hplace]
    dsimp only
    rw [hlen, hms, List.mapIdx_cons, List.length_append, List.length_singleton]
    refine ⟨by rw [List.length_cons]; omega, ?_⟩
    rw [Nat.add_zero]
    congr 2
    funext k ms'
    rw [Nat.add_assoc, Nat.add_comm 1 k]

/-- The two complaints begin differently. -/
theorem inheritError_ne_ordinalError (cls cls' : ClassSymbol n) (ms : MethodSlot) (d : Nat) :
    cls.inheritError ≠ cls'.ordinalError ms d := by
  intro h
  have hmessage := congrArg (fun e => e.message.toList.head?) h
  simp [ClassSymbol.inheritError, ClassSymbol.ordinalError] at hmessage

/-- If the methods are in the annotated slots, there can only be a complaint about the base. -/
theorem mem_validate {e : ClassError} (habstract : (A.get id).isAbstract = true)
    (hslots : ∀ ms ∈ (A.get id).ownMethods, ∀ d, ms.declaredSlot = some d → ms.vtableIndex = d)
    (he : e ∈ A.validate id) : e = (A.get id).inheritError := by
  unfold ClassArena.validate at he
  dsimp only at he
  rw [if_pos habstract, List.nil_append] at he
  rcases List.mem_append.1 he with he | he
  · split at he
    · split at he
      · exact List.mem_singleton.1 he
      · cases he
    · cases he
  · obtain ⟨ms, hms, hm⟩ := List.mem_filterMap.1 he
    split at hm
    · next d hd =>
      rw [if_neg fun hne => hne (hslots ms hms d hd)] at hm
      cases hm
    · cases hm

end vtables

/-! ## Resolution in an order -/

section resolution
variable {n : Nat} (base : Fin n → Option (Fin n)) (own : Fin n → Nat)

/-- The lengths of all vtables after the classes of `order` are resolved. -/
def vtableLengths (order : List (Fin n)) : Fin n → Nat :=
  order.foldl (fun len id => Function.update len id ((base id).elim 0 len + own id)) fun _ => 0

/-- The slots that the bases have when a class is resolved after the classes of `past`. -/
def baseLength (past : List (Fin n)) (i : Fin n) : Nat := (base i).elim 0 (vtableLengths base own past)

theorem vtableLengths_concat (past : List (Fin n)) (id : Fin n) :
    vtableLengths base own (past ++ [id]) =
      Function.update (vtableLengths base own past) id (baseLength base own past id + own id) := by
  unfold vtableLengths
  rw [List.foldl_append]
  rfl

theorem vtableLengths_of_not_mem {past : List (Fin n)} {i : Fin n} (h : i ∉ past) :
    vtableLengths base own past i = 0 := by
  induction past using List.reverseRecOn with
  | nil => rfl
  | append_singleton past id ih =>
    rw [List.mem_append, List.mem_singleton, not_or] at h
    rw [vtableLengths_concat, Function.update_of_ne h.2, ih h.1]

/-- A vtable does not change any more when it is resolved. -/
theorem vtableLengths_of_mem {past : List (Fin n)} {i : Fin n} : ∀ {r : List (Fin n)}, i ∉ r →
    vtableLengths base own (past ++ i :: r) i = baseLength base own past i + own i := by
  intro r
  induction r using List.reverseRecOn with
  | nil =>
    intro _
    rw [vtableLengths_concat, Function.update_self]
  | append_singleton r id ih =>
    intro h
    rw [List.mem_append, List.mem_singleton, not_or] at h
    rw [← List.cons_append, ← List.append_assoc, vtableLengths_concat, Function.update_of_ne h.2, ih h.1]

end resolution

namespace InterfaceIndex
variable {n m : Nat} {I : InterfaceIndex n m} {i : Fin n}

/-- The methods of an interface as they are declared. -/
def declared (I : InterfaceIndex n m) (i : Fin n) : List MethodSlot :=
  (I.row i).methods.map fun mr => declareMethod (interfaceMethod mr.name mr.sig (I.ordinal i mr)) true

/-- The methods of an interface with their slots behind `off` inherited ones. -/
def placed (I : InterfaceIndex n m) (i : Fin n) (off : Nat) : List MethodSlot :=
  (I.declared i).mapIdx fun k ms => { ms with vtableIndex := off + k }

/-- The arena when the interfaces of `known` are declared and those of `past` resolved. -/
structure Resolved (I : InterfaceIndex n m) (known : Set (Fin n)) (past : List (Fin n))
    (A : ClassArena n) : Prop where
  base : ∀ i ∈ known, (A.get i).base = I.base i
  isAbstract : ∀ i, (A.get i).isAbstract = true
  vtable : ∀ i, (A.get i).vtable.length = vtableLengths I.base I.ownMethodCount past i
  fresh : ∀ i ∈ known, i ∉ past → (A.get i).ownMethods = I.declared i
  placed : ∀ l i r, past = l ++ i :: r →
    (A.get i).ownMethods = I.placed i (baseLength I.base I.ownMethodCount l i)

theorem resolved_nil (I : InterfaceIndex n m) : I.Resolved ∅ [] (enterClasses I.interfaceDecl) := by
  have hget : ∀ i, (enterClasses I.interfaceDecl).get i = _ := fun i => Vector.getElem_ofFn i.isLt
  refine ⟨fun i hi => hi.elim, fun i => ?_, fun i => ?_, fun i hi => hi.elim, fun l i r h => ?_⟩
  · rw [hget]
    rfl
  · rw [hget]
    rfl
  · cases l <;> cases h

theorem Resolved.mono {known known' : Set (Fin n)} {past : List (Fin n)} {A : ClassArena n}
    (h : I.Resolved known past A) (hsub : ∀ i ∈ known', i ∈ known) : I.Resolved known' past A :=
  ⟨fun i hi => h.base i (hsub i hi), h.isAbstract, h.vtable, fun i hi => h.fresh i (hsub i hi), h.placed⟩

theorem Resolved.resolveClassDecl {known : Set (Fin n)} {past : List (Fin n)} {A : ClassArena n}
    {id : Fin n} (h : I.Resolved known past A) (hid : id ∉ past) :
    I.Resolved (insert id known) past (Winapi.resolveClassDecl I.interfaceDecl A id) := by
  have hother : ∀ i, i ≠ id → (Winapi.resolveClassDecl I.interfaceDecl A id).get i = A.get i :=
    fun i hi => (ClassArena.get_set ..).trans (if_neg hi)
  have hself : (Winapi.resolveClassDecl I.interfaceDecl A id).get id =
      { A.get id with
        isInterface := true
        base := resolveBase I.interfaceDecl id
        ownMethods := (I.interfaceDecl id).members.map fun d => declareMethod d true } :=
    (ClassArena.get_set ..).trans (if_pos rfl)
  refine ⟨fun i hi => ?_, fun i => ?_, fun i => ?_, fun i hi hpast => ?_, fun l i r heq => ?_⟩
  · by_cases hne : i = id
    · rw [hne, hself]
      exact resolveBase_interfaceDecl I id
    · rw [hother i hne]
      exact h.base i (hi.resolve_left hne)
  · by_cases hne : i = id
    · rw [hne, hself]
      exact h.isAbstract id
    · rw [hother i hne]
      exact h.isAbstract i
  · by_cases hne : i = id
    · rw [hne, hself]
      exact h.vtable id
    · rw [hother i hne]
      exact h.vtable i
  · by_cases hne : i = id
    · rw [hne, hself]
      exact List.map_map ..
    · rw [hother i hne]
      exact h.fresh i (hi.resolve_left hne) hpast
  · have hne : i ≠ id := fun hi => hid (hi ▸ heq ▸ List.mem_append_right l List.mem_cons_self)
    rw [hother i hne]
    exact h.placed l i r heq

/-- The declarations of a module. -/
theorem Resolved.resolveClassDecls {past : List (Fin n)} : ∀ (ids : List (Fin n)) {known : Set (Fin n)}
    {A : ClassArena n}, I.Resolved known past A → (∀ id ∈ ids, id ∉ past) →
    I.Resolved ({id | id ∈ ids} ∪ known) past (ids.foldl (Winapi.resolveClassDecl I.interfaceDecl) A)
  | [], _, _, h, _ => h.mono fun _ hi => hi.resolve_left List.not_mem_nil
  | id :: ids, known, A, h, hids => by
    have hid := h.resolveClassDecl (hids id List.mem_cons_self)
    refine (resolveClassDecls ids hid fun id hid => hids id (List.mem_cons_of_mem _ hid)).mono ?_
    rintro i (hi | hi)
    · exact (List.mem_cons.1 hi).elim (fun hi => .inr (.inl hi)) .inl
    · exact .inr (.inr hi)

theorem declared_isOverride {ms : MethodSlot} (h : ms ∈ I.declared i) : ms.isOverride = false := by
  obtain ⟨mr, -, rfl⟩ := List.mem_map.1 h
  rfl

theorem Resolved.step {known : Set (Fin n)} {past : List (Fin n)} {A : ClassArena n} {id : Fin n}
    (h : I.Resolved known past A) (hknown : id ∈ known) (hid : id ∉ past) (types : Nat → TypeId) :
    I.Resolved known (past ++ [id])
      (((A.resolveFields id).resolveVtable id).synthesizeVtableCallSigs id types) := by
  have hfields : ∀ i, (A.resolveFields id).get i =
      if i = id then { A.get id with allFields := A.baseFields id ++ (A.get id).ownFields } else A.get i :=
    fun i => ClassArena.get_set ..
  have hmethods : ((A.resolveFields id).get id).ownMethods = I.declared id := by
    rw [hfields, if_pos rfl]
    exact h.fresh id hknown hid
  have hbase : ((A.resolveFields id).baseVtable id).length = baseLength I.base I.ownMethodCount past id := by
    unfold ClassArena.baseVtable baseLength
    have hb : ((A.resolveFields id).get id).base = I.base id := by
      rw [hfields, if_pos rfl]
      exact h.base id hknown
    rw [hb]
    rcases I.base id with _ | b
    · rfl
    · refine Eq.trans ?_ (h.vtable b)
      change ((A.resolveFields id).get b).vtable.length = _
      rw [hfields]
      split
      · next hbid => rw [hbid]
      · rfl
  obtain ⟨hlen, hplaced⟩ := placeMethods_of_no_override id (I.declared id)
    ((A.resolveFields id).baseVtable id) fun _ => declared_isOverride
  rw [hbase] at hlen hplaced
  set A' := ((A.resolveFields id).resolveVtable id).synthesizeVtableCallSigs id types with hA'
  have hother : ∀ i, i ≠ id → A'.get i = A.get i := by
    intro i hne
    rw [hA']
    unfold ClassArena.synthesizeVtableCallSigs ClassArena.resolveVtable
    simp only [ClassArena.get_set, if_neg hne, hfields]
  have hself : (A'.get id).base = I.base id ∧ (A'.get id).isAbstract = true ∧
      (A'.get id).vtable.length = baseLength I.base I.ownMethodCount past id + I.ownMethodCount id ∧
      (A'.get id).ownMethods = I.placed id (baseLength I.base I.ownMethodCount past id) := by
    rw [hA']
    unfold ClassArena.synthesizeVtableCallSigs ClassArena.resolveVtable
    simp only [ClassArena.get_set, if_pos, hmethods, hplaced, List.length_mapIdx, hlen]
    rw [hfields, if_pos rfl]
    refine ⟨h.base id hknown, h.isAbstract id, ?_, rfl⟩
    unfold declared
    rw [List.length_map]
    rfl
  refine ⟨fun i hi => ?_, fun i => ?_, fun i => ?_, fun i hi hpast => ?_, fun l i r heq => ?_⟩
  · by_cases hne : i = id
    · exact hne ▸ hself.1
    · rw [hother i hne, h.base i hi]
  · by_cases hi : i = id
    · exact hi ▸ hself.2.1
    · rw [hother i hi, h.isAbstract i]
  · rw [vtableLengths_concat]
    by_cases hi : i = id
    · rw [hi, Function.update_self]
      exact hself.2.2.1
    · rw [Function.update_of_ne hi, hother i hi, h.vtable i]
  · rw [List.mem_append, List.mem_singleton, not_or] at hpast
    rw [hother i hpast.2, h.fresh i hi hpast.1]
  · rcases List.eq_nil_or_concat r with rfl | ⟨r', y, rfl⟩
    · obtain ⟨rfl, hlast⟩ := List.append_inj' heq rfl
      cases hlast
      exact hself.2.2.2
    · rw [List.concat_eq_append, ← List.cons_append, ← List.append_assoc] at heq
      have hpast := (List.append_inj' heq rfl).1
      have hne : i ≠ id := fun hi => hid (hi ▸ hpast ▸ List.mem_append_right l List.mem_cons_self)
      rw [hother i hne]
      exact h.placed l i r' hpast

/-- The annotated slots of the interfaces of `past` are the computed ones. -/
def Annotated (I : InterfaceIndex n m) (past : List (Fin n)) : Prop :=
  ∀ l i r, past = l ++ i :: r → ∀ ms ∈ I.placed i (baseLength I.base I.ownMethodCount l i), ∀ d,
    ms.declaredSlot = some d → ms.vtableIndex = d

/-- The classes of a module: the slots of every interface, and no complaints about slots if they are the
annotated ones. -/
theorem resolveClasses_spec (types : Fin n → Nat → TypeId) {known : Set (Fin n)} :
    ∀ (rest past : List (Fin n)) (A : ClassArena n), I.Resolved known past A → (∀ id ∈ rest, id ∈ known) →
    (past ++ rest).Nodup →
    I.Resolved known (past ++ rest) (resolveClasses types rest A).1 ∧
      (I.Annotated (past ++ rest) → ∀ e ∈ (resolveClasses types rest A).2,
        ∃ cls : ClassSymbol n, e = cls.inheritError)
  | [], past, A, h, _, _ => by
    rw [List.append_nil]
    exact ⟨h, fun _ => nofun⟩
  | id :: rest, past, A, h, hknown, hnd => by
    have hid : id ∉ past := fun hmem =>
      (List.nodup_append.1 hnd).2.2 id hmem id List.mem_cons_self rfl
    have h' := h.step (hknown id List.mem_cons_self) hid (types id)
    have hassoc : past ++ id :: rest = past ++ [id] ++ rest := by simp
    rw [hassoc] at hnd ⊢
    obtain ⟨hres, herrs⟩ := resolveClasses_spec types rest _ _ h'
      (fun id hid => hknown id (List.mem_cons_of_mem _ hid)) hnd
    unfold resolveClasses
    refine ⟨hres, fun hslots e he => ?_⟩
    rcases List.mem_append.1 he with he | he
    · refine ⟨_, mem_validate (h'.isAbstract id) (fun ms hms => ?_) he⟩
      rw [h'.placed past id [] rfl] at hms
      exact hslots past id rest (by simp) ms hms
    · exact herrs hslots e he

/-- One module after the other. -/
theorem resolveModules_spec (types : Fin n → Nat → TypeId) : ∀ (rest : List (List (Fin n)))
    (past : List (Fin n)) {known : Set (Fin n)} (A : ClassArena n), I.Resolved known past A →
    (past ++ rest.flatten).Nodup →
    (∃ known, I.Resolved known (past ++ rest.flatten) (resolveModules I.interfaceDecl types rest A).1) ∧
      (I.Annotated (past ++ rest.flatten) → ∀ e ∈ (resolveModules I.interfaceDecl types rest A).2,
        ∃ cls : ClassSymbol n, e = cls.inheritError)
  | [], past, known, A, h, _ => by
    rw [List.flatten_nil, List.append_nil]
    exact ⟨⟨known, h⟩, fun _ => nofun⟩
  | classes :: rest, past, known, A, h, hnd => by
    rw [List.flatten_cons, ← List.append_assoc] at hnd ⊢
    have hclasses := (List.nodup_append.1 hnd).1
    have hdecls := h.resolveClassDecls classes fun id hid hpast =>
      (List.nodup_append.1 hclasses).2.2 id hpast id hid rfl
    obtain ⟨hres, herrs⟩ := resolveClasses_spec types classes past _ hdecls (fun _ hid => .inl hid) hclasses
    obtain ⟨hlater, hlaterErrs⟩ := resolveModules_spec types rest (past ++ classes) _ hres hnd
    unfold resolveModules
    refine ⟨hlater, fun hslots e he => ?_⟩
    rcases List.mem_append.1 he with he | he
    · refine herrs (fun l i r heq => hslots l i (r ++ rest.flatten) ?_) e he
      rw [heq, List.append_assoc, List.cons_append]
    · exact hlaterErrs hslots e he

/-! ## When the two agree -/

/-- In the order, `j` comes before `i`. -/
def Before (order : List (Fin n)) (j i : Fin n) : Prop := ∃ l r, order = l ++ i :: r ∧ j ∈ l

/-- The methods of `a` are in the vtable that `i` extends: every base in between is resolved before the
interface that inherits from it. -/
inductive InTime (I : InterfaceIndex n m) (order : List (Fin n)) : Fin n → Fin n → Prop
  | base {i j : Fin n} : I.base i = some j → Before order j i → InTime I order i j
  | above {i j a : Fin n} : I.base i = some j → Before order j i → InTime I order j a →
      InTime I order i a

/-- No vtable with methods is extended too late. -/
def InheritsInTime (I : InterfaceIndex n m) (order : List (Fin n)) : Prop :=
  ∀ i l, I.Chain i l → I.ownMethodCount i ≠ 0 → ∀ a ∈ l, I.ownMethodCount a ≠ 0 → I.InTime order i a

theorem Before.iff {order l r : List (Fin n)} {j : Fin n} (hnd : order.Nodup) (heq : order = l ++ i :: r) :
    Before order j i ↔ j ∈ l := by
  refine ⟨?_, fun hj => ⟨l, r, heq, hj⟩⟩
  rintro ⟨l', r', heq', hj⟩
  have hcons := List.nodup_append.1 (heq ▸ hnd)
  have hl : i ∉ l := fun h => hcons.2.2 i h i List.mem_cons_self rfl
  have hr : i ∉ r := (List.nodup_cons.1 hcons.2.1).1
  rw [heq] at heq'
  rw [((List.append_cons_inj_of_notMem hl hr).1 heq').1]
  exact hj

/-- The vtable that `i` extends has the methods of all bases exactly if those with methods are in time. -/
theorem baseLength_eq_iff {order : List (Fin n)} (hnd : order.Nodup) {l : List (Fin n)}
    (hl : I.Chain i l) : ∀ p s, order = p ++ i :: s →
    (baseLength I.base I.ownMethodCount p i = (l.map I.ownMethodCount).sum ↔
      ∀ a ∈ l, I.ownMethodCount a ≠ 0 → I.InTime order i a) := by
  induction hl with
  | root hr =>
    intro p s _
    unfold baseLength
    rw [base_of_root hr]
    exact ⟨fun _ => nofun, fun _ => rfl⟩
  | @step i j l hb hl ih =>
    intro p s heq
    unfold baseLength
    rw [hb, Option.elim_some, List.map_cons, List.sum_cons]
    by_cases hj : j ∈ p
    · obtain ⟨p₁, s₁, rfl⟩ := List.append_of_mem hj
      have hbefore : Before order j i := ⟨_, s, heq, hj⟩
      have heq₁ : order = p₁ ++ j :: (s₁ ++ i :: s) := by rw [heq]; simp
      have hs₁ : j ∉ s₁ := by
        have hcons := (List.nodup_append.1 (heq₁ ▸ hnd)).2.1
        exact fun h => (List.nodup_cons.1 hcons).1 (List.mem_append_left _ h)
      rw [vtableLengths_of_mem _ _ hs₁, Nat.add_comm, Nat.add_left_cancel_iff, ih p₁ _ heq₁]
      constructor
      · intro h a ha hown
        rcases List.mem_cons.1 ha with rfl | ha
        · exact .base hb hbefore
        · exact .above hb hbefore (h a ha hown)
      · intro h a ha hown
        cases h a (List.mem_cons_of_mem j ha) hown with
        | base hb' _ =>
          rw [hb] at hb'
          cases hb'
          exact absurd ha hl.not_mem
        | above hb' _ hin =>
          rw [hb] at hb'
          cases hb'
          exact hin
    · have hlate : ¬ Before order j i := fun h => hj ((Before.iff hnd heq).1 h)
      have hno : ∀ a, ¬ I.InTime order i a := by
        intro a hin
        cases hin with
        | base hb' h => rw [hb] at hb'; cases hb'; exact hlate h
        | above hb' h _ => rw [hb] at hb'; cases hb'; exact hlate h
      rw [vtableLengths_of_not_mem _ _ hj, ← List.sum_cons, ← List.map_cons]
      constructor
      · intro hsum a ha hown
        exact absurd (List.sum_eq_zero_iff_forall_eq_nat.1 hsum.symm _ (List.mem_map_of_mem ha)) hown
      · intro h
        refine (List.sum_eq_zero_iff_forall_eq_nat.2 fun x hx => ?_).symm
        obtain ⟨a, ha, rfl⟩ := List.mem_map.1 hx
        by_contra hown
        exact hno a (h a ha hown)

/-- The generated ordinals are the slots of the compiler, and none of its complaints is about a slot. -/
structure OrdinalsAgree (I : InterfaceIndex n m) (r : ClassArena n × List ClassError) : Prop where
  slots : ∀ i, (r.1.get i).ownMethods.map (·.vtableIndex) = (I.row i).methods.map (I.ordinal i)
  silent : ∀ e ∈ r.2, ∀ (cls : ClassSymbol n) (ms : MethodSlot) (d : Nat), e ≠ cls.ordinalError ms d

theorem placed_vtableIndex (I : InterfaceIndex n m) (i : Fin n) (off : Nat) :
    (I.placed i off).map (·.vtableIndex) = (List.range (I.ownMethodCount i)).map (off + ·) := by
  refine List.ext_getElem (by simp [placed, declared, ownMethodCount]) fun k h _ => ?_
  simp [placed]

theorem methods_ordinal (I : InterfaceIndex n m) (i : Fin n) :
    (I.row i).methods.map (I.ordinal i) =
      (List.range (I.ownMethodCount i)).map (I.baseOffset (I.row i).qualifiedName + ·) := by
  have h := congrArg (List.map (I.baseOffset (I.row i).qualifiedName + ·)) (I.slots i)
  rwa [List.map_map] at h

theorem slotIndex_getElem (I : InterfaceIndex n m) (i : Fin n) {k : Nat} (hk : k < (I.row i).methods.length) :
    (I.row i).methods[k].slotIndex = k := by
  have h := congrArg (·[k]?) (I.slots i)
  simpa [hk] using h

/-- The slot and the annotation of a method, both counted from the interface's own first one. -/
theorem placed_slot {ms : MethodSlot} {off d : Nat} (h : ms ∈ I.placed i off)
    (hd : ms.declaredSlot = some d) :
    ∃ k < I.ownMethodCount i, ms.vtableIndex = off + k ∧ d = I.baseOffset (I.row i).qualifiedName + k := by
  obtain ⟨k, hk, rfl⟩ := List.mem_iff_getElem.1 h
  have hlt : k < (I.row i).methods.length := by
    simpa [placed, declared] using hk
  refine ⟨k, hlt, by simp [placed], ?_⟩
  have hparse : ((I.placed i off)[k]).declaredSlot =
      parseOrdinalPragma ['@' :: Nat.toDigits 10 (I.ordinal i (I.row i).methods[k])] := by
    simp [placed, declared, declareMethod, interfaceMethod]
  rw [hparse, parseOrdinalPragma_ordinal] at hd
  split at hd
  · cases hd
    unfold ordinal
    rw [slotIndex_getElem]
  · cases hd

theorem ordinalsAgree_iff_inTime {types : Fin n → Nat → TypeId} {modules : List (List (Fin n))}
    (hground : I.Grounded) (hnd : modules.flatten.Nodup) (hmem : ∀ i, i ∈ modules.flatten) :
    I.OrdinalsAgree (resolveModules I.interfaceDecl types modules (enterClasses I.interfaceDecl)) ↔
      I.InheritsInTime modules.flatten := by
  obtain ⟨⟨known, hres⟩, herrs⟩ := resolveModules_spec types modules [] _ I.resolved_nil hnd
  rw [List.nil_append] at hres herrs
  -- the offsets of an interface agree exactly if its bases are in time
  have hoff : ∀ i p s l, modules.flatten = p ++ i :: s → I.Chain i l →
      (baseLength I.base I.ownMethodCount p i = I.baseOffset (I.row i).qualifiedName ↔
        ∀ a ∈ l, I.ownMethodCount a ≠ 0 → I.InTime modules.flatten i a) := fun i p s l heq hl =>
    hl.baseOffset ▸ baseLength_eq_iff hnd hl p s heq
  have hslots : ∀ i p s, modules.flatten = p ++ i :: s →
      (((resolveModules I.interfaceDecl types modules (enterClasses I.interfaceDecl)).1.get
        i).ownMethods.map (·.vtableIndex) = (I.row i).methods.map (I.ordinal i) ↔
      (I.ownMethodCount i ≠ 0 →
        baseLength I.base I.ownMethodCount p i = I.baseOffset (I.row i).qualifiedName)) := by
    intro i p s heq
    rw [hres.placed p i s heq, placed_vtableIndex, methods_ordinal]
    constructor
    · intro h hown
      obtain ⟨k, hk⟩ := Nat.exists_eq_succ_of_ne_zero hown
      have hhead := congrArg List.head? h
      rw [hk, List.range_succ_eq_map] at hhead
      simpa using hhead
    · intro h
      by_cases hown : I.ownMethodCount i = 0
      · rw [hown]
        rfl
      · rw [h hown]
  constructor
  · intro hagree i l hl hown
    obtain ⟨p, s, heq⟩ := List.append_of_mem (hmem i)
    exact (hoff i p s l heq hl).1 ((hslots i p s heq).1 (hagree.slots i) hown)
  · intro hin
    have heq_off : ∀ i p s, modules.flatten = p ++ i :: s → I.ownMethodCount i ≠ 0 →
        baseLength I.base I.ownMethodCount p i = I.baseOffset (I.row i).qualifiedName := by
      intro i p s heq hown
      obtain ⟨l, hl⟩ := hground i
      exact (hoff i p s l heq hl).2 (hin i l hl hown)
    have hannotated : I.Annotated modules.flatten := by
      intro p i s heq ms hms d hd
      obtain ⟨k, hk, hindex, rfl⟩ := placed_slot hms hd
      rw [hindex, heq_off i p s heq (Nat.ne_of_gt (Nat.zero_lt_of_lt hk))]
    refine ⟨fun i => ?_, fun e he cls ms d h => ?_⟩
    · obtain ⟨p, s, heq⟩ := List.append_of_mem (hmem i)
      exact (hslots i p s heq).2 (heq_off i p s heq)
    · obtain ⟨cls', rfl⟩ := herrs hannotated e he
      exact inheritError_ne_ordinalError cls' cls ms d h

end InterfaceIndex

/-! ## The order in which sema resolves -/

namespace InterfaceIndex
variable {n m : Nat} (I : InterfaceIndex n m)

/-- `depth_of`: the bases in the same module, with the ones seen so far. -/
def depthFrom (k : Fin m) : Nat → List (Fin n) → Option (Fin n) → Nat
  | 0, _, _ => 0
  | _ + 1, _, none => 0
  | fuel + 1, seen, some b =>
    if (I.row b).namespace_ ≠ k ∨ b ∈ seen then 0 else 1 + depthFrom k fuel (b :: seen) (I.base b)

def depth (k : Fin m) (i : Fin n) : Nat := I.depthFrom k (n + 1) [] (I.base i)

/-- The classes of a module as `resolve_classes_in_scope` takes them, the ones with fewer bases first. -/
def moduleClasses (k : Fin m) : List (Fin n) :=
  ((List.finRange n).filter fun i => (I.row i).namespace_ = k).mergeSort fun i j =>
    I.depth k i ≤ I.depth k j

/-- `ensure_interface` for the modules of the graph in turn: a module declares and resolves its classes
when it has ensured the interfaces of its imports, except for those that are still being built. -/
def moduleOrder (imports : Fin m → List (Fin m)) (topo : List (Fin m)) : List (List (Fin n)) :=
  (postOrder imports topo).map I.moduleClasses

def classOrder (imports : Fin m → List (Fin m)) (topo : List (Fin m)) : List (Fin n) :=
  (I.moduleOrder imports topo).flatten

variable {I} {imports : Fin m → List (Fin m)} {topo : List (Fin m)} {i : Fin n} {k : Fin m}

theorem mem_moduleClasses : i ∈ I.moduleClasses k ↔ (I.row i).namespace_ = k := by
  unfold moduleClasses
  rw [List.mem_mergeSort, List.mem_filter, decide_eq_true_iff]
  exact and_iff_right (List.mem_finRange i)

theorem classOrder_eq : I.classOrder imports topo = (postOrder imports topo).flatMap I.moduleClasses := rfl

theorem mem_classOrder (htopo : ∀ k, k ∈ topo) (i : Fin n) : i ∈ I.classOrder imports topo :=
  List.mem_flatMap.2 ⟨_, PostOrder.mem_of_mem_roots (htopo _), mem_moduleClasses.2 rfl⟩

theorem nodup_classOrder : (I.classOrder imports topo).Nodup := by
  rw [classOrder_eq, List.nodup_flatMap]
  refine ⟨fun k _ => ?_, PostOrder.nodup.imp fun hne i hi hj => ?_⟩
  · exact (List.mergeSort_perm ..).nodup_iff.2 ((List.nodup_finRange n).filter _)
  · exact hne ((mem_moduleClasses.1 hi).symm.trans (mem_moduleClasses.1 hj))

/-- The generated ordinals agree with the compiler's slots exactly if no vtable with methods is extended
too late. -/
theorem ordinalsAgree_iff (I : InterfaceIndex n m) (types : Fin n → Nat → TypeId)
    (imports : Fin m → List (Fin m)) (topo : List (Fin m)) (hground : I.Grounded)
    (htopo : ∀ k, k ∈ topo) :
    I.OrdinalsAgree (resolveModules I.interfaceDecl types (I.moduleOrder imports topo)
        (enterClasses I.interfaceDecl)) ↔
      I.InheritsInTime (I.classOrder imports topo) :=
  ordinalsAgree_iff_inTime hground nodup_classOrder (mem_classOrder htopo)

/-! ## Modules that do not import each other -/

/-- The depth counts the bases up to the first one of another module. -/
theorem Chain.depthFrom {l : List (Fin n)} (h : I.Chain i l) :
    ∀ (fuel : Nat) (seen : List (Fin n)), l.length < fuel → (∀ j ∈ l, j ∉ seen) →
    I.depthFrom k fuel seen (I.base i) = (l.takeWhile fun j => (I.row j).namespace_ = k).length := by
  induction h with
  | root hr =>
    intro fuel seen _ _
    rw [base_of_root hr]
    cases fuel <;> rfl
  | @step i b l hb hl ih =>
    intro fuel seen hlt hseen
    cases fuel with
    | zero => exact absurd hlt (Nat.not_lt_zero _)
    | succ fuel =>
      rw [hb]
      unfold InterfaceIndex.depthFrom
      rw [List.takeWhile_cons]
      by_cases hk : (I.row b).namespace_ = k
      · have hrest := ih fuel (b :: seen) (Nat.lt_of_succ_lt_succ hlt) fun j hj =>
          List.not_mem_cons_of_ne_of_not_mem (fun heq => hl.not_mem (heq ▸ hj))
            (hseen j (List.mem_cons_of_mem b hj))
        have hno : ¬ ((I.row b).namespace_ ≠ k ∨ b ∈ seen) := fun h =>
          h.elim (fun h => h hk) (hseen b List.mem_cons_self)
        rw [if_neg hno, hrest, if_pos (decide_eq_true hk), List.length_cons, Nat.add_comm]
      · rw [if_pos (.inl hk), if_neg (by simpa using hk)]
        rfl

theorem depth_base {b : Fin n} (hground : I.Grounded) (hb : I.base i = some b)
    (hk : (I.row b).namespace_ = k) : I.depth k i = I.depth k b + 1 := by
  obtain ⟨l, hl⟩ := hground b
  have hi := Chain.step hb hl
  have hdi : I.depth k i = _ := hi.depthFrom (n + 1) [] (Nat.lt_succ_of_le hi.length_le)
    fun _ _ => List.not_mem_nil
  have hdb : I.depth k b = _ := hl.depthFrom (n + 1) [] (Nat.lt_succ_of_le hl.length_le)
    fun _ _ => List.not_mem_nil
  rw [hdi, hdb, List.takeWhile_cons, if_pos (decide_eq_true hk), List.length_cons]

/-- A base in the same module comes first. -/
theorem before_of_same_module {b : Fin n} (hground : I.Grounded) (hb : I.base i = some b)
    (hk : (I.row b).namespace_ = (I.row i).namespace_) {p s : List (Fin n)}
    (heq : I.moduleClasses (I.row i).namespace_ = p ++ i :: s) : b ∈ p := by
  have hsorted : (I.moduleClasses (I.row i).namespace_).Pairwise fun x y =>
      decide (I.depth (I.row i).namespace_ x ≤ I.depth (I.row i).namespace_ y) = true :=
    List.pairwise_mergeSort (fun x y z hxy hyz => by simp only [decide_eq_true_eq] at *; omega)
      (fun x y => by simp only [Bool.or_eq_true, decide_eq_true_eq]; omega) _
  have hdepth := depth_base hground hb hk
  have hmem : b ∈ p ++ i :: s := heq ▸ mem_moduleClasses.2 hk
  rcases List.mem_append.1 hmem with h | h
  · exact h
  · rw [heq, List.pairwise_append] at hsorted
    rcases List.mem_cons.1 h with rfl | h
    · exact absurd hdepth (Nat.succ_ne_self _).symm
    · have hle := (List.pairwise_cons.1 hsorted.2.1).1 b h
      rw [decide_eq_true_eq, hdepth] at hle
      exact absurd hle (Nat.not_succ_le_self _)

/-- The generator imports the modules of all bases. If imports have no cycle, all bases are in time. -/
theorem inheritsInTime_of_acyclic (hground : I.Grounded) (htopo : ∀ k, k ∈ topo)
    (hbase : ∀ i b, I.base i = some b → (I.row b).namespace_ ≠ (I.row i).namespace_ →
      (I.row b).namespace_ ∈ imports (I.row i).namespace_)
    (hacyclic : ∀ k, ∀ l ∈ imports k, ¬ Reaches imports l k) :
    I.InheritsInTime (I.classOrder imports topo) := by
  have hbefore : ∀ i b, I.base i = some b → Before (I.classOrder imports topo) b i := by
    intro i b hb
    obtain ⟨l, r, heq⟩ := List.append_of_mem
      (PostOrder.mem_of_mem_roots (htopo (I.row i).namespace_) :
        (I.row i).namespace_ ∈ postOrder imports topo)
    obtain ⟨p, s, heqc⟩ := List.append_of_mem (mem_moduleClasses.2 rfl :
      i ∈ I.moduleClasses (I.row i).namespace_)
    have horder : I.classOrder imports topo =
        (l.flatMap I.moduleClasses ++ p) ++ i :: (s ++ r.flatMap I.moduleClasses) := by
      rw [classOrder_eq, heq, List.flatMap_append, List.flatMap_cons, heqc]
      simp
    refine ⟨_, _, horder, List.mem_append.2 ?_⟩
    by_cases hk : (I.row b).namespace_ = (I.row i).namespace_
    · exact .inr (before_of_same_module hground hb hk heqc)
    · have himp := hbase i b hb hk
      refine .inl (List.mem_flatMap.2 ⟨_, ?_, mem_moduleClasses.2 rfl⟩)
      exact (PostOrder.before heq himp).resolve_right (hacyclic _ _ himp)
  intro i l hl hown a ha _
  clear hown
  induction hl with
  | root => cases ha
  | @step i j l hb _ ih =>
    rcases List.mem_cons.1 ha with rfl | ha
    · exact .base hb (hbefore i a hb)
    · exact .above hb (hbefore i j hb) (ih ha)

end InterfaceIndex

/-! ## Two modules that import each other -/

/-- `A.IZ` inherits from `B.IY`, which inherits from `A.IX`; each has one method. -/
def crossedRow : Fin 3 → InterfaceRow 2 :=
  ![⟨⟨0, Nat.zero_lt_two⟩, "IX", "Windows.Win32.A.IX", none, [⟨0, "P", ⟨[], none⟩⟩]⟩,
    ⟨⟨1, Nat.one_lt_two⟩, "IY", "Windows.Win32.B.IY", some "Windows.Win32.A.IX",
      [⟨0, "Q", ⟨[], none⟩⟩]⟩,
    ⟨⟨0, Nat.zero_lt_two⟩, "IZ", "Windows.Win32.A.IZ", some "Windows.Win32.B.IY",
      [⟨0, "R", ⟨[], none⟩⟩]⟩]

def crossedNamespaces : Fin 2 → String := !["Windows.Win32.A", "Windows.Win32.B"]

theorem crossedRow_qualifiedName : Function.Injective fun i => (crossedRow i).qualifiedName := by
  intro i j
  fin_cases i <;> fin_cases j <;> simp [crossedRow]

theorem crossedNamespaces_moduleName :
    Function.Injective fun k => moduleNameFor (crossedNamespaces k) := by
  decide +kernel

theorem crossedRow_name :
    Function.Injective fun i => ((crossedRow i).namespace_, (crossedRow i).name) := by
  intro i j
  fin_cases i <;> fin_cases j <;> simp [crossedRow]

theorem crossedRow_slots :
    ∀ i, (crossedRow i).methods.map (·.slotIndex) = List.range (crossedRow i).methods.length := by
  intro i
  fin_cases i <;> rfl

def crossed : InterfaceIndex 3 2 :=
  ⟨crossedRow, crossedNamespaces, crossedRow_qualifiedName, crossedNamespaces_moduleName,
    crossedRow_name, crossedRow_slots⟩

theorem crossed_grounded : crossed.Grounded := by
  have h₀ : crossed.Chain 0 [] := .root rfl
  have h₁ : crossed.Chain 1 [0] := .step (by decide +kernel) h₀
  have h₂ : crossed.Chain 2 [1, 0] := .step (by decide +kernel) h₁
  intro i
  fin_cases i
  · exact ⟨_, h₀⟩
  · exact ⟨_, h₁⟩
  · exact ⟨_, h₂⟩

theorem ordinalsAgree_iff_crossed :
    crossed.OrdinalsAgree (resolveModules crossed.interfaceDecl (fun _ _ => 0)
        (crossed.moduleOrder (fun k => [1 - k]) [0, 1]) (enterClasses crossed.interfaceDecl)) ↔
      crossed.InheritsInTime (crossed.classOrder (fun k => [1 - k]) [0, 1]) :=
  crossed.ordinalsAgree_iff _ _ _ crossed_grounded (by decide)

/-- `A` imports `B`, whose class is there before the two of `A`. -/
theorem moduleOrder_crossed :
    crossed.moduleOrder (fun k => [1 - k]) [0, 1] = [[1], [0, 2]] := by
  have hfirst : crossed.moduleClasses 1 = [1] := by decide +kernel
  have hsecond : crossed.moduleClasses 0 = [0, 2] := by
    have hfilter : ((List.finRange 3).filter fun i => (crossed.row i).namespace_ = 0) = [0, 2] := by
      decide +kernel
    unfold InterfaceIndex.moduleClasses
    rw [hfilter]
    exact List.mergeSort_of_pairwise (List.pairwise_pair.2 (by decide +kernel))
  have horder : postOrder (fun k : Fin 2 => [1 - k]) [0, 1] = [1, 0] := by decide +kernel
  unfold InterfaceIndex.moduleOrder
  rw [horder, List.map_cons, List.map_cons, hfirst, hsecond, List.map_nil]

/-- `B.IY` is resolved while `A` is being built, before `A.IX` is declared or has a vtable: its method gets
slot 0, not 1. -/
theorem ordinals_disagree :
    ¬ crossed.OrdinalsAgree (resolveModules crossed.interfaceDecl (fun _ _ => 0)
        (crossed.moduleOrder (fun k => [1 - k]) [0, 1]) (enterClasses crossed.interfaceDecl)) := by
  intro h
  have hslots := h.slots 1
  rw [moduleOrder_crossed] at hslots
  revert hslots
  decide +kernel

end NewM2.Winapi
