import NewM2.Loader.TopoSort
import NewM2.Sema.Compatible
import NewM2.Sema.Dispatch

/-! # The order of class resolution (`analyze.rs`)

`resolve_classes_in_scope` sorts the classes of a scope by `depth_of` before it lays them out. Where no
class inherits from itself, a base in the scope sorts before the classes that inherit it, so the calls
into the arena resolve bases first (`basesFirst_resolveClassesInScope`). -/

namespace NewM2.Sema
open Walk

namespace ClassArena

variable {n : Nat} (C : ClassArena n)

/-- The key of the sort. -/
def depthIn (classIds : List (ClassSymbolId n)) (id : ClassSymbolId n) : Nat :=
  C.depthOf classIds.toFinset ∅ (C.base id) 0

/-- The calls for one class; `types` are the procedure types of its slots. -/
def resolveClass (types : ClassSymbolId n → Nat → TypeId) (id : ClassSymbolId n) :
    List (ResolveCall n) :=
  [.fields id, .vtable id, .callSigs id (types id)]

/-- `resolve_classes_in_scope`. -/
def resolveClassesInScope (bodyResolved : ClassSymbolId n → Bool)
    (types : ClassSymbolId n → Nat → TypeId) (classIds : List (ClassSymbolId n)) :
    List (ResolveCall n) :=
  ((classIds.mergeSort fun a b => C.depthIn classIds a ≤ C.depthIn classIds b).filter
    bodyResolved).flatMap (resolveClass types)

variable {C} {inScope : Finset (ClassSymbolId n)} {classIds : List (ClassSymbolId n)}
  {a b id x : ClassSymbolId n}

/-! ## The walk of `depth_of` -/

theorem depthOf_succ (inScope seen : Finset (ClassSymbolId n)) (cur : Option (ClassSymbolId n))
    (depth : Nat) : C.depthOf inScope seen cur (depth + 1) = C.depthOf inScope seen cur depth + 1 := by
  induction seen, cur, depth using depthOf.induct C inScope with
  | case1 seen depth => simp only [depthOf]
  | case2 seen depth b h ih =>
    rw [depthOf, dif_pos h, ih, depthOf, dif_pos h]
  | case3 seen depth b h =>
    rw [depthOf, dif_neg h, depthOf, dif_neg h]

/-- To have seen a class that the walk does not meet makes no difference. -/
theorem depthOf_insert (seen : Finset (ClassSymbolId n)) (cur : Option (ClassSymbolId n)) (depth : Nat)
    (hx : ∀ b, cur = some b → ¬ LeadsTo C.base b x) :
    C.depthOf inScope (insert x seen) cur depth = C.depthOf inScope seen cur depth := by
  induction seen, cur, depth using depthOf.induct C inScope with
  | case1 seen depth => simp only [depthOf]
  | case2 seen depth b h ih =>
    have hne : b ≠ x := by
      rintro rfl
      exact hx b rfl .refl
    have h' : b ∈ inScope ∧ b ∉ insert x seen := ⟨h.1, by simp [hne, h.2]⟩
    rw [depthOf, dif_pos h', depthOf, dif_pos h, Finset.insert_comm]
    exact ih fun c hc hlead => hx b rfl (.head hc hlead)
  | case3 seen depth b h =>
    have h' : ¬ (b ∈ inScope ∧ b ∉ insert x seen) := by
      rintro ⟨hin, hseen⟩
      exact h ⟨hin, fun hmem => hseen (Finset.mem_insert_of_mem hmem)⟩
    rw [depthOf, dif_neg h', depthOf, dif_neg h]

/-- A class sorts right below its base. -/
theorem depthIn_of_base (hcyc : ¬ OnCycle C.base b) (hb : C.base id = some b) (hmem : b ∈ classIds) :
    C.depthIn classIds id = C.depthIn classIds b + 1 := by
  have hnot : ∀ c, C.base b = some c → ¬ LeadsTo C.base c b := fun c hc hlead => hcyc (.head' hc hlead)
  have hin : b ∈ classIds.toFinset ∧ b ∉ (∅ : Finset (ClassSymbolId n)) := by simpa using hmem
  rw [depthIn, hb, depthOf, dif_pos hin, depthOf_succ, depthOf_insert ∅ (C.base b) 0 hnot, depthIn]

/-! ## The sorted scope -/

theorem pairwise_depthIn (classIds : List (ClassSymbolId n)) :
    (classIds.mergeSort fun a b => C.depthIn classIds a ≤ C.depthIn classIds b).Pairwise
      fun a b => C.depthIn classIds a ≤ C.depthIn classIds b := by
  have h : (classIds.mergeSort fun a b => C.depthIn classIds a ≤ C.depthIn classIds b).Pairwise
      fun a b => decide (C.depthIn classIds a ≤ C.depthIn classIds b) = true := by
    apply List.pairwise_mergeSort
    · intro a b c hab hbc
      exact decide_eq_true (le_trans (of_decide_eq_true hab) (of_decide_eq_true hbc))
    · intro a b
      simpa using le_total (C.depthIn classIds a) (C.depthIn classIds b)
  simpa using h

/-- A base in the scope comes before the class. -/
theorem base_before {ids l r : List (ClassSymbolId n)} (hcyc : ¬ OnCycle C.base b)
    (hsorted : ids.Pairwise fun a b => C.depthIn classIds a ≤ C.depthIn classIds b)
    (heq : ids = l ++ id :: r) (hb : C.base id = some b) (hin : b ∈ classIds) (hmem : b ∈ ids) :
    b ∈ l := by
  have hdepth := depthIn_of_base hcyc hb hin
  rw [heq, List.pairwise_append, List.pairwise_cons] at hsorted
  obtain ⟨-, ⟨hafter, -⟩, -⟩ := hsorted
  rw [heq, List.mem_append, List.mem_cons] at hmem
  rcases hmem with hl | rfl | hr
  · exact hl
  · omega
  · have hle := hafter b hr
    omega

/-! ## The calls -/

variable {bodyResolved : ClassSymbolId n → Bool} {types : ClassSymbolId n → Nat → TypeId}
  {earlier : List (ResolveCall n)}

theorem mem_flatMap_resolveClass (types : ClassSymbolId n → Nat → TypeId)
    {ids : List (ClassSymbolId n)} (h : b ∈ ids) :
    ResolveCall.fields b ∈ ids.flatMap (resolveClass types) ∧
      ResolveCall.vtable b ∈ ids.flatMap (resolveClass types) :=
  ⟨List.mem_flatMap.2 ⟨b, h, by simp [resolveClass]⟩, List.mem_flatMap.2 ⟨b, h, by simp [resolveClass]⟩⟩

theorem basesFirst_flatMap {ids : List (ClassSymbolId n)} (hearlier : C.BasesFirst earlier)
    (hbase : ∀ l id r, ids = l ++ id :: r → ∀ b, C.base id = some b →
      b ∈ l ∨ ResolveCall.fields b ∈ earlier ∧ ResolveCall.vtable b ∈ earlier) :
    C.BasesFirst (earlier ++ ids.flatMap (resolveClass types)) := by
  induction ids using List.reverseRecOn with
  | nil => simpa using hearlier
  | append_singleton ids id ih =>
    have hcalls : earlier ++ (ids ++ [id]).flatMap (resolveClass types) =
        (((earlier ++ ids.flatMap (resolveClass types)) ++ [.fields id]) ++ [.vtable id]) ++
          [.callSigs id (types id)] := by
      simp [resolveClass]
    have hready : ∀ b, C.base id = some b →
        ResolveCall.fields b ∈ earlier ++ ids.flatMap (resolveClass types) ∧
          ResolveCall.vtable b ∈ earlier ++ ids.flatMap (resolveClass types) := by
      intro b hb
      rcases hbase ids id [] rfl b hb with hmem | ⟨hf, hv⟩
      · obtain ⟨hf, hv⟩ := mem_flatMap_resolveClass types hmem
        exact ⟨List.mem_append_right _ hf, List.mem_append_right _ hv⟩
      · exact ⟨List.mem_append_left _ hf, List.mem_append_left _ hv⟩
    rw [hcalls]
    simp only [basesFirst_concat]
    refine ⟨⟨⟨ih ?_, fun b hb => (hready b hb).1⟩, fun b hb => ?_⟩, trivial⟩
    · intro l c r heq
      exact hbase l c (r ++ [id]) (by simp [heq])
    · exact List.mem_append_left _ (hready b hb).2

/-- A scope whose classes have their bases in it or resolved before. -/
theorem basesFirst_resolveClassesInScope (hcyc : ∀ id, ¬ OnCycle C.base id)
    (hearlier : C.BasesFirst earlier)
    (hbase : ∀ id ∈ classIds, bodyResolved id → ∀ b, C.base id = some b →
      b ∈ classIds ∧ bodyResolved b ∨ ResolveCall.fields b ∈ earlier ∧ ResolveCall.vtable b ∈ earlier) :
    C.BasesFirst (earlier ++ C.resolveClassesInScope bodyResolved types classIds) := by
  refine basesFirst_flatMap hearlier fun l id r heq b hb => ?_
  have hid : id ∈ l ++ id :: r := by simp
  rw [← heq, List.mem_filter, List.mem_mergeSort] at hid
  refine (hbase id hid.1 hid.2 b hb).imp_left ?_
  rintro ⟨hin, hres⟩
  exact base_before (hcyc b) ((pairwise_depthIn classIds).filter _) heq hb hin
    (List.mem_filter.2 ⟨List.mem_mergeSort.2 hin, hres⟩)

theorem mem_resolveClassesInScope (C : ClassArena n) (types : ClassSymbolId n → Nat → TypeId)
    (h : b ∈ classIds) (hres : bodyResolved b) :
    ResolveCall.fields b ∈ C.resolveClassesInScope bodyResolved types classIds ∧
      ResolveCall.vtable b ∈ C.resolveClassesInScope bodyResolved types classIds :=
  mem_flatMap_resolveClass types (List.mem_filter.2 ⟨List.mem_mergeSort.2 h, hres⟩)

/-- The scopes one after another. -/
theorem basesFirst_resolveScopes {scopes : List (List (ClassSymbolId n))}
    (hcyc : ∀ id, ¬ OnCycle C.base id)
    (hbase : ∀ past classIds rest, scopes = past ++ classIds :: rest → ∀ id ∈ classIds, bodyResolved id →
      ∀ b, C.base id = some b → bodyResolved b ∧ (b ∈ classIds ∨ ∃ s ∈ past, b ∈ s)) :
    C.BasesFirst (scopes.flatMap (C.resolveClassesInScope bodyResolved types)) := by
  induction scopes using List.reverseRecOn with
  | nil => exact basesFirst_nil C
  | append_singleton scopes classIds ih =>
    rw [List.flatMap_append, List.flatMap_singleton]
    refine basesFirst_resolveClassesInScope hcyc (ih ?_) fun id hid hres b hb => ?_
    · intro past s rest heq
      exact hbase past s (rest ++ [classIds]) (by simp [heq])
    · obtain ⟨hresb, hin | ⟨s, hs, hin⟩⟩ := hbase scopes classIds [] rfl id hid hres b hb
      · exact .inl ⟨hin, hresb⟩
      · obtain ⟨hf, hv⟩ := mem_resolveClassesInScope C types hin hresb
        exact .inr ⟨List.mem_flatMap.2 ⟨s, hs, hf⟩, List.mem_flatMap.2 ⟨s, hs, hv⟩⟩

/-! ## The modules of a program -/

variable {Ast : Type} {m : Nat} {modules : Fin m → Loader.ModuleNode Ast m} {order : List (Fin m)}
  {classes : Fin m → List (ClassSymbolId n)}

/-- Without import cycles all modules that a module needs come before it. -/
theorem before_of_reaches {l r : List (Fin m)} {k u : Fin m}
    (hacyclic : ∀ k, ∀ l ∈ (modules k).imports, ¬ Reaches (fun i => (modules i).imports) l k)
    (heq : postOrder (fun i => (modules i).imports) (List.finRange m) = l ++ k :: r)
    (hreach : Reaches (fun i => (modules i).imports) k u) : u = k ∨ u ∈ l := by
  induction hreach with
  | refl => exact .inl rfl
  | @tail v u _ hu ih =>
    rcases ih with rfl | hv
    · exact .inr ((PostOrder.before heq hu).resolve_right (hacyclic _ u hu))
    · obtain ⟨l₁, l₂, rfl⟩ := List.append_of_mem hv
      have heq' : postOrder (fun i => (modules i).imports) (List.finRange m) =
          l₁ ++ v :: (l₂ ++ k :: r) := by
        rw [heq]
        simp
      have hmem := (PostOrder.before heq' hu).resolve_right (hacyclic _ u hu)
      exact .inr (List.mem_append_left _ hmem)

/-- Sema takes the modules in the order of the loader. Where neither imports nor classes go round and the
bases of a class are in modules that its module needs, the arena lays out every base before the classes
that inherit it. -/
theorem basesFirst_of_imports (horder : Loader.topoSort modules = some order)
    (hacyclic : ∀ k, ∀ l ∈ (modules k).imports, ¬ Reaches (fun i => (modules i).imports) l k)
    (hcyc : ∀ id, ¬ OnCycle C.base id)
    (hbase : ∀ k, ∀ id ∈ classes k, bodyResolved id → ∀ b, C.base id = some b →
      bodyResolved b ∧ ∃ l, Reaches (fun i => (modules i).imports) k l ∧ b ∈ classes l) :
    C.BasesFirst (order.flatMap fun k => C.resolveClassesInScope bodyResolved types (classes k)) := by
  rw [Loader.topoSort_eq, Option.some_inj] at horder
  have hflat : order.flatMap (fun k => C.resolveClassesInScope bodyResolved types (classes k)) =
      (order.map classes).flatMap (C.resolveClassesInScope bodyResolved types) := by
    rw [List.flatMap_map]
  rw [hflat]
  refine basesFirst_resolveScopes hcyc fun past s rest heq id hid hres b hb => ?_
  obtain ⟨l, r', hlr, rfl, hr'⟩ := List.map_eq_append_iff.1 heq
  obtain ⟨k, r, rfl, rfl, rfl⟩ := List.map_eq_cons_iff.1 hr'
  obtain ⟨hresb, u, hreach, hu⟩ := hbase k id hid hres b hb
  refine ⟨hresb, ?_⟩
  rcases before_of_reaches hacyclic (horder.trans hlr) hreach with rfl | hmem
  · exact .inl hu
  · exact .inr ⟨classes u, List.mem_map_of_mem hmem, hu⟩

end ClassArena

/-! ## Two modules -/

theorem twoClasses_not_onCycle (isOverride : Bool) (id : ClassSymbolId 2) :
    ¬ OnCycle (twoClasses isOverride).base id := by
  have h0 : Ends (twoClasses isOverride).base 0 := .last rfl
  have h1 : Ends (twoClasses isOverride).base 1 := .step rfl h0
  fin_cases id
  · exact h0.not_onCycle
  · exact h1.not_onCycle

/-- `Dogs`, with the class `Dog`, imports `Animals`, with the class `Animal`. -/
def twoModules (k : Fin 2) : Loader.ModuleNode Unit 2 :=
  if k.val = 0 then ⟨⟨"Dogs", valid_of_all (by decide)⟩, none, none, none, [Fin.last 1], false⟩
  else ⟨⟨"Animals", valid_of_all (by decide)⟩, none, none, none, [], false⟩

theorem basesFirst_of_imports_twoModules : (twoClasses true).BasesFirst ([1, 0].flatMap fun k =>
    (twoClasses true).resolveClassesInScope (fun _ => true) (fun _ _ => 0) [Fin.rev k]) := by
  have horder : Loader.topoSort twoModules = some [1, 0] := by decide
  refine ClassArena.basesFirst_of_imports horder ?_ (twoClasses_not_onCycle true) ?_
  · intro k l hl hreach
    fin_cases k <;> fin_cases l <;> simp [twoModules] at hl
    rcases Relation.ReflTransGen.cases_head hreach with h | ⟨c, hc, -⟩
    · cases h
    · simp [twoModules] at hc
  · intro k id hid _ b hb
    refine ⟨rfl, Fin.rev b, ?_, by simp⟩
    rw [List.mem_singleton] at hid
    subst hid
    fin_cases k
    · obtain rfl : 0 = b := Option.some.inj hb
      exact .single (by simp [twoModules])
    · cases hb

end NewM2.Sema
