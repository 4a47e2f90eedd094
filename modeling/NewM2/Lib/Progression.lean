import Mathlib.Algebra.Order.Ring.Int
import Mathlib.Data.List.Range
import Mathlib.Tactic.Common

/-! # Arithmetic progressions up to a limit

`progression limit step x` lists `x`, `x + step`, `x + 2 * step`, … as far as they do not pass `limit`
in the direction of `step`. It unfolds one element at a time (`progression_eq`), and
`Within.induction` is the induction along it. -/

namespace NewM2.Lib

/-- `x` has not passed `limit` going in the direction of `step`. -/
def Within (limit step x : Int) : Prop := if 0 < step then x ≤ limit else limit ≤ x

instance (limit step x : Int) : Decidable (Within limit step x) := by
  unfold Within; infer_instance

def progression (limit step x : Int) : List Int :=
  if Within limit step x then
    (List.range ((limit - x).natAbs / step.natAbs + 1)).map fun k : Nat => x + k * step
  else []

variable {limit step x y : Int}

theorem Within.natAbs_sub (h : Within limit step x) :
    (Within limit step (x + step) ↔ step.natAbs ≤ (limit - x).natAbs) ∧
      (Within limit step (x + step) →
        (limit - (x + step)).natAbs = (limit - x).natAbs - step.natAbs) := by
  unfold Within at *
  split at h <;> simp only [*, if_true, if_false] <;> omega

@[simp] theorem progression_of_not_within (h : ¬ Within limit step x) :
    progression limit step x = [] := if_neg h

theorem progression_of_within (hstep : step ≠ 0) (h : Within limit step x) :
    progression limit step x = x :: progression limit step (x + step) := by
  have hpos : 0 < step.natAbs := Int.natAbs_pos.2 hstep
  obtain ⟨hiff, hsub⟩ := h.natAbs_sub
  unfold progression
  rw [if_pos h, List.range_succ_eq_map, List.map_cons, List.map_map]
  congr 1
  · simp
  split
  · next hnext =>
    rw [hsub hnext, Nat.div_eq_sub_div hpos (hiff.1 hnext)]
    refine List.map_congr_left fun k _ => ?_
    show x + ((k + 1 : Nat) : Int) * step = x + step + k * step
    rw [Nat.cast_succ, Int.add_mul, Int.one_mul]
    omega
  · next hnext =>
    rw [Nat.div_eq_of_lt (Nat.lt_of_not_le fun hle => hnext (hiff.2 hle))]
    rfl

theorem progression_eq (hstep : step ≠ 0) :
    progression limit step x =
      if Within limit step x then x :: progression limit step (x + step) else [] := by
  split
  · next h => exact progression_of_within hstep h
  · next h => exact progression_of_not_within h

/-- Induction along the progression: the distance to the limit shrinks. -/
theorem Within.induction (limit : Int) {motive : Int → Prop} (hstep : step ≠ 0)
    (past : ∀ x, ¬ Within limit step x → motive x)
    (next : ∀ x, Within limit step x → motive (x + step) → motive x) (x : Int) : motive x := by
  have hpos : 0 < step.natAbs := Int.natAbs_pos.2 hstep
  generalize hn : (limit - x).natAbs = n
  induction n using Nat.strong_induction_on generalizing x with
  | _ n ih =>
    by_cases h : Within limit step x
    · refine next x h ?_
      by_cases hnext : Within limit step (x + step)
      · obtain ⟨hiff, hsub⟩ := h.natAbs_sub
        have hle := hiff.1 hnext
        exact ih _ (hn ▸ Nat.sub_lt (by omega) hpos) (x + step) (hsub hnext)
      · exact past _ hnext
    · exact past x h

theorem Within.of_mem (hstep : step ≠ 0) :
    ∀ x, y ∈ progression limit step x → Within limit step y := by
  refine Within.induction limit hstep (fun x h hy => ?_) fun x h ih hy => ?_
  · simp [h] at hy
  · rw [progression_of_within hstep h, List.mem_cons] at hy
    rcases hy with rfl | hy
    · exact h
    · exact ih hy

/-- The last member, or `x` if there is none. -/
def lastOf (limit step x : Int) : Int := (progression limit step x).getLast?.getD x

theorem lastOf_of_not_within (h : ¬ Within limit step x) : lastOf limit step x = x := by
  simp [lastOf, h]

theorem lastOf_of_within (hstep : step ≠ 0) (h : Within limit step x) :
    lastOf limit step x =
      if Within limit step (x + step) then lastOf limit step (x + step) else x := by
  unfold lastOf
  rw [progression_of_within hstep h]
  split
  · next hnext => rw [progression_of_within hstep hnext, List.getLast?_cons_cons,
      List.getLast?_cons]; rfl
  · next hnext => simp [hnext]

end NewM2.Lib
