import Mathlib.Data.List.Infix
import Mathlib.Tactic.Common

/-!
# Behaviours

What one sees of a program that may run forever: after each number of steps the events so far and, once
it has ended, how. Two programs have the `SameBehaviour` if every sequence of events that one of them
reaches is the beginning of one that the other reaches, and they end in the same way with the same
events. For a machine that never takes events back, `SameBehaviour.of_simulation` asks for a simulation
in one direction only, provided that a run that goes on takes more and more of its steps.
-/

namespace NewM2

/-- The events after some steps, and the result when the program has ended. -/
abbrev Obs (ε ρ : Type) := Nat → List ε × Option ρ

namespace Obs
variable {ε ρ : Type} {a b : Obs ε ρ}

/-- Events are not taken back, and nothing happens after the end. -/
structure Monotone (b : Obs ε ρ) : Prop where
  prefix_of_le : ∀ {n m}, n ≤ m → (b n).1 <+: (b m).1
  ended : ∀ {n m}, n ≤ m → (b n).2.isSome → b m = b n

/-- Everything seen of `a` is seen of `b`. -/
def Covers (a b : Obs ε ρ) : Prop := ∀ n, ∃ m, (a n).1 <+: (b m).1 ∧ ((a n).2.isSome → b m = a n)

def SameBehaviour (a b : Obs ε ρ) : Prop := Covers a b ∧ Covers b a

theorem SameBehaviour.of_simulation (hb : Monotone b)
    (hsim : ∀ fuel, ∃ n, b n = a fuel ∧ ((a fuel).2 = none → fuel ≤ n)) : SameBehaviour a b := by
  refine ⟨fun fuel => ?_, fun n => ?_⟩
  · obtain ⟨n, heq, -⟩ := hsim fuel
    exact ⟨n, heq ▸ List.prefix_rfl, fun _ => heq⟩
  · obtain ⟨m, heq, hgoes⟩ := hsim n
    have hended : n ≤ m ∨ b n = a n := by
      rcases hr : (a n).2 with _ | r
      · exact .inl (hgoes hr)
      · refine (Nat.le_total n m).imp id fun hle => ?_
        rw [hb.ended hle (by rw [heq, hr]; rfl), heq]
    refine ⟨n, ?_, fun hsome => ?_⟩
    · rcases hended with hle | heq'
      · exact heq ▸ hb.prefix_of_le hle
      · exact heq' ▸ List.prefix_rfl
    · rcases hended with hle | heq'
      · rw [← heq, hb.ended hle hsome]
      · exact heq'.symm

theorem SameBehaviour.refl (a : Obs ε ρ) : SameBehaviour a a :=
  ⟨fun n => ⟨n, List.prefix_rfl, fun _ => rfl⟩, fun n => ⟨n, List.prefix_rfl, fun _ => rfl⟩⟩

end Obs

end NewM2
