import Mathlib

/-!
# Walks of a partial successor

`next` gives the node after a node, or none at the end of the walk. The walk from a node ends unless
it comes round (`Ends.not_onCycle`, `ends_of_acyclic`). `Terminates f` says that a function computed
with fuel returns; a loop that follows `next` terminates on the nodes whose walk ends
(`Ends.terminates`, `OnCycle.not_terminates`).
-/

namespace NewM2.Walk
open Relation

variable {α β : Type*} {next next' : α → Option α} {a b c : α}

/-- `b` comes right after `a`. -/
def Step (next : α → Option α) (a b : α) : Prop := next a = some b

/-- `b` is on the walk from `a`. -/
abbrev LeadsTo (next : α → Option α) : α → α → Prop := ReflTransGen (Step next)

/-- The walk from `a` comes back to `a`. -/
def OnCycle (next : α → Option α) (a : α) : Prop := TransGen (Step next) a a

/-- The walk from `a` comes to an end. -/
inductive Ends (next : α → Option α) : α → Prop
  | last {a : α} (h : next a = none) : Ends next a
  | step {a b : α} (h : next a = some b) (hb : Ends next b) : Ends next a

/-- With some fuel there is a result. -/
def Terminates (f : Nat → Option β) : Prop := ∃ fuel, (f fuel).isSome

theorem step_rightUnique : Relator.RightUnique (Step next) := by
  intro a b c hb hc
  exact Option.some.inj (hb.symm.trans hc)

namespace OnCycle

theorem exists_next (h : OnCycle next a) : ∃ b, next a = some b ∧ OnCycle next b := by
  obtain ⟨b, hab, hba⟩ := TransGen.head'_iff.1 h
  exact ⟨b, hab, TransGen.tail' hba hab⟩

theorem of_leadsTo (h : OnCycle next a) (hb : LeadsTo next a b) : OnCycle next b := by
  induction hb with
  | refl => exact h
  | tail _ hstep ih =>
    obtain ⟨d, hd, hcyc⟩ := ih.exists_next
    obtain rfl := step_rightUnique hstep hd
    exact hcyc

/-- A walk on a cycle comes back to every node it has passed. -/
theorem leadsTo_back (h : OnCycle next a) (hb : LeadsTo next a b) : LeadsTo next b a := by
  induction hb with
  | refl => exact .refl
  | @tail b d hab hstep ih =>
    have hb : OnCycle next b := h.of_leadsTo hab
    obtain ⟨d', hd', hback⟩ := TransGen.head'_iff.1 hb
    obtain rfl := step_rightUnique hstep hd'
    exact hback.trans ih

/-- A walk that agrees with `next` on the nodes of a cycle goes round too. -/
theorem congr (h : OnCycle next a) (hn : ∀ b, LeadsTo next a b → next' b = next b) :
    OnCycle next' a := by
  suffices ∀ b, TransGen (Step next) a b → TransGen (Step next') a b from this a h
  intro b hb
  induction hb with
  | single hstep => exact .single ((hn a .refl).trans hstep)
  | tail hab hstep ih => exact ih.tail ((hn _ hab.to_reflTransGen).trans hstep)

end OnCycle

namespace Ends

theorem not_onCycle (he : Ends next a) : ¬ OnCycle next a := by
  intro h
  induction he with
  | last hlast =>
    obtain ⟨b, hb, -⟩ := h.exists_next
    rw [hb] at hlast
    cases hlast
  | step hstep _ ih => exact ih (h.of_leadsTo (.single hstep))

/-- A walk that may also stop earlier ends where the longer one does. -/
theorem mono (he : Ends next a) (hn : ∀ b, next' b = none ∨ next' b = next b) : Ends next' a := by
  induction he with
  | last h => exact .last ((hn _).elim id fun hb => hb.trans h)
  | step h _ ih =>
    rcases hn _ with hb | hb
    · exact .last hb
    · exact .step (hb.trans h) ih

/-- The walk ends if it meets a node where it stops. -/
theorem of_leadsTo (hab : LeadsTo next a b) (hb : next' b = none)
    (hn : ∀ d, next' d = none ∨ next' d = next d) : Ends next' a := by
  induction hab using ReflTransGen.head_induction_on with
  | refl => exact .last hb
  | head hstep _ ih =>
    rcases hn _ with hd | hd
    · exact .last hd
    · exact .step (hd.trans hstep) ih

end Ends

/-- On finitely many nodes a walk that meets no cycle ends. -/
theorem ends_of_acyclic {S : Set α} (hfin : S.Finite) (hS : ∀ a ∈ S, ∀ b, next a = some b → b ∈ S)
    (hcyc : ∀ a, ¬ OnCycle next a) (ha : a ∈ S) : Ends next a := by
  by_contra hne
  -- a walk without an end stays in `S`, step after step
  have hnext : ∀ b : {b // b ∈ S ∧ ¬ Ends next b},
      ∃ d : {b // b ∈ S ∧ ¬ Ends next b}, next b = some d.1 := by
    rintro ⟨b, hb, hnb⟩
    cases hd : next b with
    | none => exact absurd (.last hd) hnb
    | some d => exact ⟨⟨d, hS b hb d hd, fun he => hnb (.step hd he)⟩, rfl⟩
  choose f hf using hnext
  let x : Nat → α := fun k => (f^[k] ⟨a, ha, hne⟩).1
  have hstep : ∀ k, next (x k) = some (x (k + 1)) := by
    intro k
    show _ = some (f^[k + 1] ⟨a, ha, hne⟩).1
    rw [Function.iterate_succ_apply']
    exact hf _
  have hwalk : ∀ i j, i < j → TransGen (Step next) (x i) (x j) := by
    intro i j hij
    induction j, hij using Nat.le_induction with
    | base => exact .single (hstep i)
    | succ j _ ih => exact ih.tail (hstep j)
  have hmem : ∀ k, x k ∈ S := fun k => (f^[k] ⟨a, ha, hne⟩).2.1
  have : Finite S := hfin.to_subtype
  obtain ⟨i, j, hij, he'⟩ := Finite.exists_ne_map_eq_of_infinite fun k => (⟨x k, hmem k⟩ : S)
  have he : x i = x j := Subtype.mk.inj he'
  rcases lt_or_gt_of_ne hij with h | h
  · exact hcyc (x i) (by simpa [OnCycle, ← he] using hwalk i j h)
  · exact hcyc (x j) (by simpa [OnCycle, he] using hwalk j i h)

section Loop
variable {f : Nat → α → Option β}
  (hstep : ∀ fuel a b, next a = some b → (f (fuel + 1) a).isSome = (f fuel b).isSome)
include hstep

/-- A loop that follows `next` does not return on a cycle. -/
theorem OnCycle.not_terminates (hzero : ∀ a, f 0 a = none) (h : OnCycle next a) :
    ¬ Terminates fun fuel => f fuel a := by
  rintro ⟨fuel, hf⟩
  induction fuel generalizing a with
  | zero => simp [hzero] at hf
  | succ fuel ih =>
    obtain ⟨b, hab, hb⟩ := h.exists_next
    exact ih hb (by simpa only [hstep fuel a b hab] using hf)

/-- It returns where the walk ends, if it returns at the last node. -/
theorem Ends.terminates (he : Ends next a)
    (hlast : ∀ a, next a = none → Terminates fun fuel => f fuel a) :
    Terminates fun fuel => f fuel a := by
  induction he with
  | last h => exact hlast _ h
  | step h _ ih =>
    obtain ⟨fuel, hf⟩ := ih
    exact ⟨fuel + 1, by simpa only [hstep fuel _ _ h] using hf⟩

end Loop
end NewM2.Walk
