import Mathlib.Data.List.Basic
import Mathlib.Tactic.Common

/-!
# Singly linked chains

`Chain next h l`: following `next` from `h` visits exactly the nodes of `l`, in order, and then the
null link `0`. The nodes determine the list (`Chain.unique`); an edit is one of `cons` (push a node
in front), `congr` (links off the chain changed) and `unlink` (bypass one node).
-/

namespace NewM2

/-- The nodes visited from `h` along `next` up to the null link. -/
def Chain (next : Nat → Nat) (h : Nat) : List Nat → Prop
  | [] => h = 0
  | x :: xs => h = x ∧ x ≠ 0 ∧ Chain next (next x) xs

namespace Chain
variable {next next' : Nat → Nat} {h p x : Nat} {l l' l₁ l₂ : List Nat}

@[simp] theorem nil_iff : Chain next h [] ↔ h = 0 := Iff.rfl

@[simp] theorem cons_iff : Chain next h (x :: l) ↔ h = x ∧ x ≠ 0 ∧ Chain next (next x) l := Iff.rfl

theorem ne_zero (hc : Chain next h l) : ∀ y ∈ l, y ≠ 0 := by
  induction l generalizing h with
  | nil => intro y hy; cases hy
  | cons z l ih =>
    intro y hy
    rcases List.mem_cons.1 hy with rfl | hy
    · exact hc.2.1
    · exact ih hc.2.2 y hy

theorem unique (hc : Chain next h l) (hc' : Chain next h l') : l = l' := by
  induction l generalizing h l' with
  | nil =>
    cases l' with
    | nil => rfl
    | cons y l' => exact absurd (hc'.1.symm.trans hc) hc'.2.1
  | cons x l ih =>
    cases l' with
    | nil => exact absurd (hc.1.symm.trans hc') hc.2.1
    | cons y l' =>
      obtain rfl : x = y := hc.1.symm.trans hc'.1
      rw [ih hc.2.2 hc'.2.2]

theorem congr (hn : ∀ y ∈ l, next' y = next y) (hc : Chain next h l) : Chain next' h l := by
  induction l generalizing h with
  | nil => exact hc
  | cons x l ih =>
    refine ⟨hc.1, hc.2.1, ?_⟩
    rw [hn x (List.mem_cons_self ..)]
    exact ih (fun y hy => hn y (List.mem_cons_of_mem _ hy)) hc.2.2

/-- Bypassing the node `x` behind `p`. -/
theorem unlink (hp : next' p = next x) (hn : ∀ y ∈ l₁ ++ l₂, next' y = next y)
    (hc : Chain next h (l₁ ++ p :: x :: l₂)) : Chain next' h (l₁ ++ p :: l₂) := by
  induction l₁ generalizing h with
  | nil =>
    refine ⟨hc.1, hc.2.1, ?_⟩
    rw [hp]
    exact congr (fun y hy => hn y (by simpa using hy)) hc.2.2.2.2
  | cons z l₁ ih =>
    refine ⟨hc.1, hc.2.1, ?_⟩
    rw [hn z (by simp)]
    exact ih (fun y hy => hn y (by simp at hy ⊢; tauto)) hc.2.2

end Chain

end NewM2
