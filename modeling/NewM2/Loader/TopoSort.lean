import NewM2.Lib.PostOrder
import NewM2.Loader.Graph

/-! # The order of initialisation (`topo_sort`, `newm2-loader/src/loader.rs`)

`topoSort` always comes to an end, lists every module once and puts a module behind what it imports unless
the import leads back to it: its run is the depth-first post-order of `Lib/PostOrder.lean`, with marks for
the nodes seen. -/

namespace NewM2.Loader
open Lexer

inductive Mark
  | new | visiting | done
deriving Repr, DecidableEq

structure TopoState (n : Nat) where
  marks : Fin n → Mark
  order : List (Fin n)
  /-- The names on the way to the module; nothing reads them. -/
  stack : List Ident

/-- `id` is being visited. -/
def TopoState.enter {n : Nat} (s : TopoState n) (id : Fin n) (name : Ident) : TopoState n :=
  { s with marks := Function.update s.marks id .visiting, stack := name :: s.stack }

/-- `id` is done. -/
def TopoState.leave {n : Nat} (s : TopoState n) (id : Fin n) : TopoState n where
  marks := Function.update s.marks id .done
  order := s.order ++ [id]
  stack := s.stack.tail

section topoSort
variable {Ast : Type} {n : Nat} (modules : Fin n → ModuleNode Ast n)

/-- Visit a module, at most `fuel` modules deep. An import that is being visited closes a cycle and is
skipped. -/
def visit : Nat → Fin n → TopoState n → Option (TopoState n)
  | 0, _, _ => none
  | fuel + 1, id, s =>
    match s.marks id with
    | .done => some s
    | .visiting => some s
    | .new => do
      let s ← (modules id).imports.foldlM (fun s child => visit fuel child s) (s.enter id (modules id).name)
      return s.leave id

def topoSort : Option (List (Fin n)) := do
  let s ← (List.finRange n).foldlM (fun s i => visit modules (n + 1) i s) ⟨fun _ => .new, [], []⟩
  return s.order

/-- The same run on the nodes seen. -/
structure TopoState.Shows (s : TopoState n) (v : Visit (Fin n)) : Prop where
  order : s.order = v.order
  seen : ∀ x, s.marks x ≠ .new ↔ x ∈ v.seen

variable {modules} {s : TopoState n} {v : Visit (Fin n)} {fuel : Nat} {id : Fin n}

namespace TopoState.Shows

theorem enter (h : s.Shows v) (id : Fin n) (name : Ident) :
    (s.enter id name).Shows { v with seen := id :: v.seen } where
  order := h.order
  seen x := by
    rw [List.mem_cons, ← h.seen x]
    by_cases hx : x = id
    · subst hx
      simp [TopoState.enter]
    · simp [TopoState.enter, hx]

theorem leave (h : s.Shows v) (hid : id ∈ v.seen) :
    (s.leave id).Shows { v with order := v.order ++ [id] } where
  order := by rw [TopoState.leave, h.order]
  seen x := by
    by_cases hx : x = id
    · subst hx
      simpa [TopoState.leave] using hid
    · simpa [TopoState.leave, hx] using h.seen x

end TopoState.Shows

/-- Visiting a list of modules, given what visiting one does. -/
theorem foldlM_visit (hvisit : ∀ id s v, TopoState.Shows s v → v.unseen < fuel →
      ∃ s', visit modules fuel id s = some s' ∧
        s'.Shows (Visit.node (fun i => (modules i).imports) fuel id v))
    (ids : List (Fin n)) (h : s.Shows v) (hlt : v.unseen < fuel) :
    ∃ s', ids.foldlM (fun s child => visit modules fuel child s) s = some s' ∧
      s'.Shows (Visit.nodes (fun i => (modules i).imports) fuel ids v) := by
  induction ids generalizing s v with
  | nil => exact ⟨s, rfl, h⟩
  | cons id ids ih =>
    obtain ⟨s₁, hs₁, h₁⟩ := hvisit id s v h hlt
    obtain ⟨s₂, hs₂, h₂⟩ := ih h₁ ((Visit.unseen_node_le ..).trans_lt hlt)
    refine ⟨s₂, ?_, h₂⟩
    rw [List.foldlM_cons, hs₁]
    exact hs₂

theorem visit_spec (fuel : Nat) : ∀ id s v, TopoState.Shows s v → v.unseen < fuel →
    ∃ s', visit modules fuel id s = some s' ∧
      s'.Shows (Visit.node (fun i => (modules i).imports) fuel id v) := by
  induction fuel with
  | zero => exact fun id s v _ hlt => absurd hlt (Nat.not_lt_zero _)
  | succ fuel ih =>
    intro id s v h hlt
    by_cases hmark : s.marks id = .new
    · have hid : id ∉ v.seen := fun hmem => (h.seen id).2 hmem hmark
      have hunseen := Visit.unseen_cons hid
      obtain ⟨s', hs', h'⟩ := foldlM_visit ih (modules id).imports (h.enter id (modules id).name) (by omega)
      refine ⟨s'.leave id, ?_, ?_⟩
      · simp only [visit, hmark, hs', bind, Option.bind]
        rfl
      · unfold Visit.node
        rw [if_neg hid]
        exact h'.leave (Visit.seen_subset_nodes (Visit.seen_subset_node _) _ _ (List.mem_cons_self ..))
    · have hid : id ∈ v.seen := (h.seen id).1 hmark
      refine ⟨s, ?_, ?_⟩
      · unfold visit
        cases hm : s.marks id with
        | new => exact absurd hm hmark
        | visiting => rfl
        | done => rfl
      · unfold Visit.node
        rwa [if_pos hid]

theorem topoSort_eq : topoSort modules =
    some (postOrder (fun i => (modules i).imports) (List.finRange n)) := by
  have hstart : TopoState.Shows (⟨fun _ => .new, [], []⟩ : TopoState n) ⟨[], []⟩ :=
    ⟨rfl, fun x => by simp⟩
  have hlt : (⟨[], []⟩ : Visit (Fin n)).unseen < n + 1 := by
    refine Nat.lt_succ_of_le ((Finset.card_le_univ _).trans ?_)
    rw [Fintype.card_fin]
  obtain ⟨s, hs, h⟩ := foldlM_visit (visit_spec (n + 1)) (List.finRange n) hstart hlt
  rw [topoSort, hs, postOrder, Fintype.card_fin, ← h.order]
  rfl

/-- Every module comes once, and behind each module it imports that does not reach it. -/
theorem topoSort_sorted (modules : Fin n → ModuleNode Ast n) :
    ∃ order, topoSort modules = some order ∧ order.Perm (List.finRange n) ∧
      ∀ a, ∀ b ∈ (modules a).imports, ¬ Reaches (fun i => (modules i).imports) b a →
        order.idxOf b < order.idxOf a := by
  refine ⟨_, topoSort_eq, ?_, fun a b hb hreach => ?_⟩
  · refine (List.perm_ext_iff_of_nodup PostOrder.nodup (List.nodup_finRange n)).2 fun x => ?_
    have hx := List.mem_finRange x
    exact ⟨fun _ => hx, fun _ => PostOrder.mem_of_mem_roots hx⟩
  · have ha : a ∈ postOrder (fun i => (modules i).imports) (List.finRange n) :=
      PostOrder.mem_of_mem_roots (List.mem_finRange a)
    obtain ⟨l, r, heq⟩ := List.append_of_mem ha
    have hnodup : (l ++ a :: r).Nodup := heq ▸ PostOrder.nodup
    have hal : a ∉ l := fun hmem => List.disjoint_of_nodup_append hnodup hmem (List.mem_cons_self ..)
    have hbl := (PostOrder.before heq hb).resolve_right hreach
    have ha : (l ++ a :: r).idxOf a = l.length := by
      rw [List.idxOf_append_of_notMem hal, List.idxOf_cons_self, Nat.add_zero]
    rw [heq, ha, List.idxOf_append_of_mem hbl]
    exact List.idxOf_lt_length_of_mem hbl

end topoSort

end NewM2.Loader
