import Mathlib.Data.Fintype.Card
import Mathlib.Logic.Relation
import Mathlib.Tactic.Common

/-!
# Depth-first post-order

A node is put behind its successors, except for those that are on the way to it: an edge that closes a
cycle is ignored. `PostOrder.before` says what is left of the order then: a successor comes first unless
it leads back to the node. -/

namespace NewM2

section postOrder
variable {α : Type}

/-- The nodes seen so far, and the finished ones in the order in which they were finished. -/
structure Visit (α : Type) where
  seen : List α
  order : List α

/-- `b` is reached from `a`. -/
abbrev Reaches (succ : α → List α) : α → α → Prop := Relation.ReflTransGen fun a b => b ∈ succ a

namespace Visit
variable {s s' s'' : Visit α}

/-- Seen and not finished. -/
def Open (s : Visit α) (x : α) : Prop := x ∈ s.seen ∧ x ∉ s.order

/-- What visiting some nodes adds: each new node is seen and finished. -/
structure Adds (s s' : Visit α) : Prop where
  order : s.order <+: s'.order
  open_ : ∀ x, s'.Open x ↔ s.Open x
  seen : ∀ x ∈ s.seen, x ∈ s'.seen

theorem Adds.refl (s : Visit α) : Adds s s := ⟨List.prefix_rfl, fun _ => Iff.rfl, fun _ h => h⟩

theorem Adds.trans (h : Adds s s') (h' : Adds s' s'') : Adds s s'' :=
  ⟨h.order.trans h'.order, fun x => (h'.open_ x).trans (h.open_ x), fun x hx => h'.seen x (h.seen x hx)⟩

end Visit

variable [DecidableEq α]

namespace Visit
variable (succ : α → List α)

/-- Visit `v`; at most `fuel` nodes deep. -/
def node : Nat → α → Visit α → Visit α
  | 0, _, s => s
  | fuel + 1, v, s =>
    if v ∈ s.seen then s
    else
      let s := (succ v).foldl (fun s w => node fuel w s) { s with seen := v :: s.seen }
      { s with order := s.order ++ [v] }

def nodes (fuel : Nat) (vs : List α) (s : Visit α) : Visit α :=
  vs.foldl (fun s w => node succ fuel w s) s

variable {succ}

theorem seen_subset_nodes {fuel : Nat}
    (hnode : ∀ v s, s.seen ⊆ (node succ fuel v s).seen) (vs : List α) (s : Visit α) :
    s.seen ⊆ (nodes succ fuel vs s).seen := by
  induction vs generalizing s with
  | nil => exact fun _ => id
  | cons v vs ih => exact List.Subset.trans (hnode v s) (ih (node succ fuel v s))

theorem seen_subset_node (fuel : Nat) (v : α) (s : Visit α) : s.seen ⊆ (node succ fuel v s).seen := by
  induction fuel generalizing v s with
  | zero => exact fun _ => id
  | succ fuel ih =>
    unfold node
    split
    · exact fun _ => id
    · exact List.Subset.trans (List.subset_cons_self v s.seen)
        (seen_subset_nodes ih (succ v) { s with seen := v :: s.seen })

end Visit

variable [Fintype α]

/-- The post-order of everything that is reached from `roots`. -/
def postOrder (succ : α → List α) (roots : List α) : List α :=
  (Visit.nodes succ (Fintype.card α + 1) roots ⟨[], []⟩).order

namespace Visit
variable {succ : α → List α} {s s' s'' : Visit α} {v w : α} {fuel : Nat}

def unseen (s : Visit α) : Nat := (Finset.univ \ s.seen.toFinset).card

/-- Every finished node has its successors before it, or they lead back to it. -/
structure Sorted (succ : α → List α) (s : Visit α) : Prop where
  seen : ∀ x ∈ s.order, x ∈ s.seen
  nodup : s.order.Nodup
  before : ∀ l u r, s.order = l ++ u :: r → ∀ w ∈ succ u, w ∈ l ∨ Reaches succ w u

theorem Adds.unseen_le (h : Adds s s') : s'.unseen ≤ s.unseen := by
  refine Finset.card_le_card (Finset.sdiff_subset_sdiff (Finset.Subset.refl _) fun x hx => ?_)
  exact List.mem_toFinset.2 (h.seen x (List.mem_toFinset.1 hx))

theorem unseen_cons (hv : v ∉ s.seen) :
    ({ s with seen := v :: s.seen } : Visit α).unseen + 1 = s.unseen := by
  have hmem : v ∈ Finset.univ \ s.seen.toFinset := by simpa using hv
  unfold unseen
  rw [← Finset.card_erase_add_one hmem]
  congr 2
  ext x
  simp

theorem unseen_node_le (fuel : Nat) (v : α) (s : Visit α) : (node succ fuel v s).unseen ≤ s.unseen := by
  refine Finset.card_le_card (Finset.sdiff_subset_sdiff (Finset.Subset.refl _) fun x hx => ?_)
  exact List.mem_toFinset.2 (seen_subset_node fuel v s (List.mem_toFinset.1 hx))

/-- Visiting a list of nodes, given what visiting one does. -/
theorem nodes_spec (hnode : ∀ v s, Sorted succ s → (∀ x, s.Open x → Reaches succ x v) →
      s.unseen < fuel → Sorted succ (node succ fuel v s) ∧ Adds s (node succ fuel v s) ∧
        v ∈ (node succ fuel v s).seen) :
    ∀ (vs : List α) (s : Visit α), Sorted succ s →
    (∀ v ∈ vs, ∀ x, s.Open x → Reaches succ x v) → s.unseen < fuel →
    Sorted succ (nodes succ fuel vs s) ∧ Adds s (nodes succ fuel vs s) ∧
      ∀ v ∈ vs, v ∈ (nodes succ fuel vs s).seen := by
  intro vs
  induction vs with
  | nil => exact fun s hs _ _ => ⟨hs, .refl s, nofun⟩
  | cons v vs ih =>
    intro s hs hopen hlt
    obtain ⟨hs₁, hadds₁, hv⟩ := hnode v s hs (hopen v List.mem_cons_self) hlt
    obtain ⟨hs₂, hadds₂, hvs⟩ := ih (node succ fuel v s) hs₁
      (fun w hw x hx => hopen w (List.mem_cons_of_mem v hw) x ((hadds₁.open_ x).1 hx))
      (hadds₁.unseen_le.trans_lt hlt)
    refine ⟨hs₂, hadds₁.trans hadds₂, fun w hw => ?_⟩
    rcases List.mem_cons.1 hw with rfl | hw
    · exact hadds₂.seen w hv
    · exact hvs w hw

/-- Visiting a node that the open nodes lead to. -/
theorem node_spec : ∀ (fuel : Nat) (v : α) (s : Visit α), Sorted succ s →
    (∀ x, s.Open x → Reaches succ x v) → s.unseen < fuel →
    Sorted succ (node succ fuel v s) ∧ Adds s (node succ fuel v s) ∧
      v ∈ (node succ fuel v s).seen := by
  intro fuel
  induction fuel with
  | zero => exact fun v s _ _ hlt => absurd hlt (Nat.not_lt_zero _)
  | succ fuel ih =>
    intro v s hs hopen hlt
    unfold node
    split
    · next hv => exact ⟨hs, .refl s, hv⟩
    · next hv =>
      have hv' : v ∉ s.order := fun h => hv (hs.seen v h)
      have hunseen := unseen_cons hv
      set s₁ : Visit α := { s with seen := v :: s.seen } with hs₁
      have hopen₁ : ∀ x, s₁.Open x ↔ x = v ∨ s.Open x := by
        intro x
        unfold Open
        rw [hs₁, List.mem_cons]
        refine ⟨fun ⟨hx, hxo⟩ => hx.imp id fun hx => ⟨hx, hxo⟩, ?_⟩
        rintro (rfl | ⟨hx, hxo⟩)
        · exact ⟨.inl rfl, hv'⟩
        · exact ⟨.inr hx, hxo⟩
      have hsorted₁ : Sorted succ s₁ :=
        ⟨fun x hx => List.mem_cons_of_mem v (hs.seen x hx), hs.nodup, hs.before⟩
      have hreach : ∀ x, s₁.Open x → Reaches succ x v := fun x hx =>
        ((hopen₁ x).1 hx).elim (fun h => h ▸ .refl) (hopen x)
      obtain ⟨hs₂, hadds, hsucc⟩ := nodes_spec ih (succ v) s₁ hsorted₁
        (fun w hw x hx => (hreach x hx).tail hw) (by omega)
      change Sorted succ { nodes succ fuel (succ v) s₁ with
          order := (nodes succ fuel (succ v) s₁).order ++ [v] } ∧
        Adds s { nodes succ fuel (succ v) s₁ with
          order := (nodes succ fuel (succ v) s₁).order ++ [v] } ∧ v ∈ (nodes succ fuel (succ v) s₁).seen
      have hvopen := (hadds.open_ v).2 ((hopen₁ v).2 (.inl rfl))
      refine ⟨⟨fun x hx => ?_, ?_, fun l u r heq w hw => ?_⟩, ⟨?_, fun x => ?_, fun x hx => ?_⟩,
        hvopen.1⟩
      · rcases List.mem_append.1 hx with hx | hx
        · exact hs₂.seen x hx
        · exact List.mem_singleton.1 hx ▸ hvopen.1
      · refine List.nodup_append.2 ⟨hs₂.nodup, List.nodup_singleton v, fun x hx y hy hxy => ?_⟩
        rw [hxy, List.mem_singleton.1 hy] at hx
        exact hvopen.2 hx
      · rcases List.eq_nil_or_concat r with rfl | ⟨r', y, rfl⟩
        · -- the node that is finished last
          obtain ⟨rfl, hu⟩ := List.append_inj' heq rfl
          cases hu
          by_cases hwo : w ∈ (nodes succ fuel (succ v) s₁).order
          · exact .inl hwo
          · exact .inr (hreach w ((hadds.open_ w).1 ⟨hsucc w hw, hwo⟩))
        · change (nodes succ fuel (succ v) s₁).order ++ [v] = l ++ u :: r'.concat y at heq
          rw [List.concat_eq_append, ← List.cons_append, ← List.append_assoc] at heq
          exact hs₂.before l u r' (List.append_inj' heq rfl).1 w hw
      · exact hadds.order.trans (List.prefix_append ..)
      · have hx : (nodes succ fuel (succ v) s₁).Open x ↔ x = v ∨ s.Open x :=
          (hadds.open_ x).trans (hopen₁ x)
        unfold Open at hx ⊢
        rw [List.mem_append, List.mem_singleton]
        constructor
        · rintro ⟨hseen, hno⟩
          exact (hx.1 ⟨hseen, fun h => hno (.inl h)⟩).resolve_left fun h => hno (.inr h)
        · intro ho
          obtain ⟨hseen, hno⟩ := hx.2 (.inr ho)
          exact ⟨hseen, fun h => h.elim hno fun h => hv (h ▸ ho.1)⟩
      · exact hadds.seen x (List.mem_cons_of_mem v hx)

end Visit

namespace PostOrder
variable {succ : α → List α} {roots : List α} {v w : α}

theorem spec (succ : α → List α) (roots : List α) :
    Visit.Sorted succ (Visit.nodes succ (Fintype.card α + 1) roots ⟨[], []⟩) ∧
      Visit.Adds ⟨[], []⟩ (Visit.nodes succ (Fintype.card α + 1) roots ⟨[], []⟩) ∧
        ∀ v ∈ roots, v ∈ (Visit.nodes succ (Fintype.card α + 1) roots ⟨[], []⟩).seen := by
  refine Visit.nodes_spec (Visit.node_spec _) roots _ ⟨nofun, .nil, fun l u r h => ?_⟩ ?_ ?_
  · cases l <;> cases h
  · exact fun _ _ x hx => absurd hx.1 List.not_mem_nil
  · exact Nat.lt_succ_of_le (Finset.card_le_univ _)

theorem nodup : (postOrder succ roots).Nodup := (spec succ roots).1.nodup

theorem mem_of_mem_roots (hv : v ∈ roots) : v ∈ postOrder succ roots := by
  obtain ⟨-, hadds, hseen⟩ := spec succ roots
  by_contra hno
  exact List.not_mem_nil ((hadds.open_ v).1 ⟨hseen v hv, hno⟩).1

/-- A successor comes first unless it leads back. -/
theorem before {l r : List α} {u : α} (heq : postOrder succ roots = l ++ u :: r) (hw : w ∈ succ u) :
    w ∈ l ∨ Reaches succ w u := (spec succ roots).1.before l u r heq w hw

end PostOrder
end postOrder

end NewM2
