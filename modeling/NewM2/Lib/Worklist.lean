import Mathlib.Algebra.BigOperators.Group.Finset.Basic
import NewM2.Lib.PostOrder

/-!
# A worklist that takes each node once

`stack` holds the nodes still to be looked at, the top first. A node that was seen before is dropped;
a new one is put among the seen ones and its successors are pushed. -/

namespace NewM2

section worklist
variable {α : Type} {succ : α → List α}

/-- The successors of the seen nodes are seen or on the stack. -/
def Pending (succ : α → List α) (stack seen : List α) : Prop :=
  ∀ v ∈ seen, ∀ w ∈ succ v, w ∈ seen ∨ w ∈ stack

theorem Pending.skip {v : α} {stack seen : List α} (h : Pending succ (v :: stack) seen)
    (hv : v ∈ seen) : Pending succ stack seen := by
  intro x hx w hw
  rcases h x hx w hw with hw | hw
  · exact .inl hw
  · rcases List.mem_cons.1 hw with rfl | hw
    · exact .inl hv
    · exact .inr hw

theorem Pending.take {v : α} {stack seen : List α} (h : Pending succ (v :: stack) seen) :
    Pending succ ((succ v).reverse ++ stack) (v :: seen) := by
  intro x hx w hw
  rcases List.mem_cons.1 hx with rfl | hx
  · exact .inr (List.mem_append_left _ (List.mem_reverse.2 hw))
  · rcases h x hx w hw with hw | hw
    · exact .inl (List.mem_cons_of_mem _ hw)
    · rcases List.mem_cons.1 hw with rfl | hw
      · exact .inl List.mem_cons_self
      · exact .inr (List.mem_append_right _ hw)

variable [DecidableEq α] (succ)

/-- At most `fuel` nodes are popped. -/
def worklist : Nat → List α → List α → List α
  | 0, _, seen => seen
  | _ + 1, [], seen => seen
  | fuel + 1, v :: stack, seen =>
    if v ∈ seen then worklist fuel stack seen
    else worklist fuel ((succ v).reverse ++ stack) (v :: seen)

variable {succ}

theorem worklist_nil (fuel : Nat) (seen : List α) : worklist succ fuel [] seen = seen := by
  cases fuel <;> rfl

/-- Whatever the seen nodes and those on the stack have in common with their successors, the result has. -/
theorem worklist_subset {P : α → Prop} (hstep : ∀ v, P v → ∀ w ∈ succ v, P w) :
    ∀ (fuel : Nat) (stack seen : List α), (∀ v ∈ stack, P v) → (∀ v ∈ seen, P v) →
    ∀ v ∈ worklist succ fuel stack seen, P v := by
  intro fuel
  induction fuel with
  | zero => exact fun _ _ _ hseen => hseen
  | succ fuel ih =>
    intro stack seen hstack hseen
    rcases stack with _ | ⟨v, stack⟩
    · exact hseen
    · have hv := hstack v List.mem_cons_self
      have hrest := fun x hx => hstack x (List.mem_cons_of_mem v hx)
      unfold worklist
      split
      · exact ih stack seen hrest hseen
      · refine ih _ _ (fun x hx => ?_) (fun x hx => ?_)
        · rcases List.mem_append.1 hx with hx | hx
          · exact hstep v hv x (List.mem_reverse.1 hx)
          · exact hrest x hx
        · rcases List.mem_cons.1 hx with rfl | hx
          · exact hv
          · exact hseen x hx

variable [Fintype α] (succ)

/-- Every node is popped once for each edge to it, and once for each time it is a root. -/
def closure (roots : List α) : List α :=
  worklist succ (roots.length + ∑ v, (succ v).length) roots.reverse []

variable {succ}

/-- The edges out of the nodes that were not seen. -/
def pendingEdges (succ : α → List α) (seen : List α) : Nat :=
  ∑ v ∈ Finset.univ \ seen.toFinset, (succ v).length

theorem pendingEdges_cons {seen : List α} {v : α} (hv : v ∉ seen) :
    pendingEdges succ (v :: seen) + (succ v).length = pendingEdges succ seen := by
  have hmem : v ∈ Finset.univ \ seen.toFinset := by simpa using hv
  have herase : Finset.univ \ (v :: seen).toFinset = (Finset.univ \ seen.toFinset).erase v := by
    ext x
    simp
  unfold pendingEdges
  rw [herase, Finset.sum_erase_add _ _ hmem]

/-- The result holds what was seen and what was on the stack, and is closed under successors. -/
theorem worklist_closed : ∀ (fuel : Nat) (stack seen : List α), Pending succ stack seen →
    stack.length + pendingEdges succ seen ≤ fuel →
    (∀ v, v ∈ seen ∨ v ∈ stack → v ∈ worklist succ fuel stack seen) ∧
      Pending succ [] (worklist succ fuel stack seen) := by
  intro fuel
  induction fuel with
  | zero =>
    intro stack seen hpending hfuel
    obtain rfl : stack = [] := List.eq_nil_of_length_eq_zero (by omega)
    exact ⟨fun v hv => by simpa [worklist_nil] using hv, by rwa [worklist_nil]⟩
  | succ fuel ih =>
    intro stack seen hpending hfuel
    rcases stack with _ | ⟨v, stack⟩
    · exact ⟨fun v hv => by simpa [worklist_nil] using hv, by rwa [worklist_nil]⟩
    · rw [List.length_cons] at hfuel
      unfold worklist
      split
      next hv =>
        obtain ⟨hmem, hclosed⟩ := ih stack seen (hpending.skip hv) (by omega)
        refine ⟨fun x hx => hmem x ?_, hclosed⟩
        rcases hx with hx | hx
        · exact .inl hx
        · rcases List.mem_cons.1 hx with rfl | hx
          · exact .inl hv
          · exact .inr hx
      next hv =>
        have hedges : pendingEdges succ (v :: seen) + (succ v).length = pendingEdges succ seen :=
          pendingEdges_cons hv
        obtain ⟨hmem, hclosed⟩ := ih ((succ v).reverse ++ stack) (v :: seen) hpending.take
          (by rw [List.length_append, List.length_reverse]; omega)
        refine ⟨fun x hx => hmem x ?_, hclosed⟩
        rcases hx with hx | hx
        · exact .inl (List.mem_cons_of_mem _ hx)
        · rcases List.mem_cons.1 hx with rfl | hx
          · exact .inl List.mem_cons_self
          · exact .inr (List.mem_append_right _ hx)

/-- The closure is what the roots reach. -/
theorem mem_closure {roots : List α} {v : α} :
    v ∈ closure succ roots ↔ ∃ r ∈ roots, Reaches succ r v := by
  constructor
  · refine worklist_subset (P := fun v => ∃ r ∈ roots, Reaches succ r v) ?_ _ _ _ ?_
      (fun _ hv => absurd hv List.not_mem_nil) v
    · rintro v ⟨r, hr, hreach⟩ w hw
      exact ⟨r, hr, hreach.tail hw⟩
    · intro r hr
      exact ⟨r, List.mem_reverse.1 hr, .refl⟩
  · rintro ⟨r, hr, hreach⟩
    have hpending : Pending succ roots.reverse [] := fun _ hv => absurd hv List.not_mem_nil
    obtain ⟨hmem, hclosed⟩ := worklist_closed (roots.length + ∑ v, (succ v).length) roots.reverse []
      hpending (by simp [pendingEdges])
    induction hreach with
    | refl => exact hmem r (.inr (List.mem_reverse.2 hr))
    | tail _ hw ih => exact (hclosed _ ih _ hw).resolve_right List.not_mem_nil

end worklist

end NewM2
