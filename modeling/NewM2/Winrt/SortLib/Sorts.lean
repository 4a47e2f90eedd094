import Mathlib
import NewM2.Winrt.SortLib.Insertion
import NewM2.Winrt.SortLib.Merge

/-!
# The sorts (`library/winrtmod/SortLib.mod`)

`SortsExact` is what the five sorts are for. They sort what has fewer than `2 ^ 63` elements; with more,
twice an index wraps around, and `HeapSort` takes 0 for a child. -/

namespace NewM2.Winrt.SortLib
open Sequence

/-- It ends, and the elements are sorted then. -/
def Sorts {α : Type} (le : α → α → Bool) (n : Nat) (sort : Nat → (Nat → α) → Except Stop (Nat → α))
    (rearranged : List α → List α → Prop) : Prop :=
  ∀ a, ∃ fuel a', sort fuel a = .ok a' ∧ (segment a' 1 n).Pairwise (fun x y => le x y) ∧
    rearranged (segment a 1 n) (segment a' 1 n)

def SortsExact (numItems : BitVec 64) : Prop :=
  ∀ (α : Type) (le : α → α → Bool), Preordered le →
    Sorts le numItems.toNat (quickSort le numItems.toNat) (fun l l' => l'.Perm l) ∧
    Sorts le numItems.toNat (heapSort le numItems.toNat) (fun l l' => l'.Perm l) ∧
    Sorts le numItems.toNat (shellSort le numItems.toNat) (fun l l' => l'.Perm l) ∧
    Sorts le numItems.toNat (binaryInsertSort le numItems.toNat) (Stable le) ∧
    Sorts le numItems.toNat (mergeSort le numItems.toNat) (Stable le)

section sorts
variable {α : Type} {le : α → α → Bool} {n numItems : Nat}

theorem Sorts.of_runs {sort : Nat → (Nat → α) → Except Stop (Nat → α)} {rearranged : List α → List α → Prop}
    (fuel : Nat) (h : ∀ a, Runs (fun _ => False) (sort fuel a) fun a' =>
      rearranged (segment a 1 n) (segment a' 1 n) ∧ SortedOn le 1 n a') : Sorts le n sort rearranged := by
  intro a
  obtain ⟨a', hrun, hrearranged, hsorted⟩ := (h a).succeeds
  exact ⟨fuel, a', hrun, sortedOn_iff.1 hsorted, hrearranged⟩

/-! ## Too many elements -/

/-- The order of the truth values. -/
def boolLe (x y : Bool) : Bool := !x || y

theorem preordered_boolLe : Preordered boolLe := ⟨by decide, by decide⟩

/-- The greatest element is at `2 ^ 63`. -/
def spike : Nat → Bool := fun k => k = 2 ^ 63

/-- No element that has children is greater than they are. -/
theorem restore_spike {i : Nat} (fuel : Nat) (hnum : numItems < 2 ^ 64) (hi : 2 ^ 62 < i) (hi' : i ≤ numItems / 2) :
    Runs (fun _ => True) (restore boolLe numItems numItems fuel i spike) (· = spike) := by
  have hfalse : ∀ k, k ≠ 2 ^ 63 → spike k = false := fun k hk => decide_eq_false hk
  cases fuel with
  | zero => exact Runs.error trivial
  | succ fuel =>
    rw [restore, wrap_of_lt (by omega)]
    dsimp only
    rw [if_neg (by omega)]
    have hright : Runs (fun _ => True) (if 2 * i < numItems then
        lessEq boolLe 1 numItems (2 * i) (wrap (2 * i + 1)) false spike else .ok false) (· = false) := by
      split_ifs with hboth
      · rw [wrap_of_lt (by omega), lessEq, if_pos ⟨⟨by omega, by omega⟩, by omega, by omega⟩,
          hfalse _ (by omega), hfalse _ (by omega)]
        exact Runs.ok rfl
      · exact Runs.ok rfl
    refine hright.bind ?_
    rintro _ rfl
    rw [if_neg Bool.false_ne_true]
    refine lessEq_bind ⟨by omega, by omega⟩ ⟨by omega, by omega⟩ ?_
    rw [if_neg Bool.false_ne_true, hfalse (2 * i) (by omega), hfalse i (by omega)]
    exact Runs.ok rfl

/-- The parent of the greatest element is exchanged with it; the first child after that is 0. -/
theorem restore_wraps (fuel : Nat) (hnum : 2 ^ 63 ≤ numItems) (hnum' : numItems < 2 ^ 64) :
    Runs (fun _ => True) (restore boolLe numItems numItems fuel (2 ^ 62) spike) fun _ => False := by
  have hspike : spike (2 ^ 63) = true := rfl
  have hfalse : ∀ k, k ≠ 2 ^ 63 → spike k = false := fun k hk => decide_eq_false hk
  rcases fuel with - | fuel
  · exact Runs.error trivial
  rw [restore, show wrap (2 * 2 ^ 62) = 2 ^ 63 from rfl]
  dsimp only
  rw [if_neg (by omega)]
  have hright : Runs (fun _ => True) (if 2 ^ 63 < numItems then
      lessEq boolLe 1 numItems (2 ^ 63) (wrap (2 ^ 63 + 1)) false spike else .ok false) (· = false) := by
    split_ifs with hboth
    · rw [wrap_of_lt (by omega), lessEq, if_pos ⟨⟨by omega, by omega⟩, by omega, by omega⟩, hspike,
        hfalse _ (by omega)]
      exact Runs.ok rfl
    · exact Runs.ok rfl
  refine hright.bind ?_
  rintro _ rfl
  rw [if_neg Bool.false_ne_true]
  refine lessEq_bind ⟨by omega, by omega⟩ ⟨by omega, by omega⟩ ?_
  rw [if_neg Bool.false_ne_true, hspike, hfalse (2 ^ 62) (by omega), if_pos (show (!boolLe true false) = true from rfl)]
  refine swap_bind ⟨by omega, by omega⟩ ⟨by omega, by omega⟩ ?_
  rcases fuel with - | fuel
  · exact Runs.error trivial
  -- the child of `2 ^ 63`
  rw [restore, show wrap (2 * 2 ^ 63) = 0 from rfl]
  dsimp only
  rw [if_neg (by omega), if_pos (by omega), lessEq, if_neg (by omega)]
  exact Runs.error trivial

theorem buildHeap_wraps (fuel : Nat) (hnum : 2 ^ 63 ≤ numItems) (hnum' : numItems < 2 ^ 64) {i : Nat}
    (hi : 2 ^ 62 ≤ i) (hi' : i ≤ numItems / 2) :
    Runs (fun _ => True) (buildHeap boolLe numItems fuel i spike) fun _ => False := by
  induction i, hi using Nat.le_induction with
  | base =>
    have hbuild : buildHeap boolLe numItems fuel (2 ^ 62) spike = (do
        let a ← restore boolLe numItems numItems fuel (2 ^ 62) spike
        buildHeap boolLe numItems fuel (2 ^ 62 - 1) a) := rfl
    rw [hbuild]
    exact (restore_wraps fuel hnum hnum').bind fun a h => h.elim
  | succ i hi ih =>
    rw [buildHeap]
    refine (restore_spike fuel hnum' (Nat.lt_succ_of_le hi) hi').bind ?_
    rintro _ rfl
    exact ih (by omega)

theorem heapSort_wraps (fuel : Nat) (hnum : 2 ^ 63 ≤ numItems) (hnum' : numItems < 2 ^ 64) (a' : Nat → Bool) :
    heapSort boolLe numItems fuel spike ≠ .ok a' := by
  intro h
  have hrun : Runs (fun _ => True) (heapSort boolLe numItems fuel spike) fun _ => False := by
    rw [heapSort, if_neg (by omega)]
    exact (buildHeap_wraps fuel hnum hnum' (by omega) le_rfl).bind fun a h => h.elim
  rw [h] at hrun
  exact hrun

theorem not_sortsExact {numItems : BitVec 64} (hnum : 2 ^ 63 ≤ numItems.toNat) : ¬ SortsExact numItems := by
  intro h
  obtain ⟨fuel, a', hrun, -, -⟩ := (h Bool boolLe preordered_boolLe).2.1 spike
  exact heapSort_wraps fuel hnum numItems.isLt a' hrun

theorem sortsExact_iff (numItems : BitVec 64) : SortsExact numItems ↔ numItems.toNat < 2 ^ 63 := by
  constructor
  · intro h
    by_contra hnum
    exact not_sortsExact (not_lt.1 hnum) h
  · intro hnum α le hle
    exact ⟨.of_runs _ fun a => (quickSort_runs hle hnum a).mono fun a' ha' => ⟨ha'.1.perm, ha'.2⟩,
      .of_runs _ fun a => (heapSort_runs hle hnum a).mono fun a' ha' => ⟨ha'.1.perm, ha'.2⟩,
      .of_runs _ (shellSort_runs hle hnum), .of_runs _ (binaryInsertSort_runs hle hnum),
      .of_runs _ (mergeSort_runs hle hnum)⟩

/-- With `2 ^ 63` elements `HeapSort` does not end well. -/
theorem heapSort_spike : (∀ fuel a', heapSort boolLe (2 ^ 63) fuel spike ≠ .ok a') ∧
    ¬ SortsExact (BitVec.ofNat 64 (2 ^ 63)) :=
  ⟨fun fuel a' => heapSort_wraps fuel le_rfl (by decide) a', not_sortsExact (by decide)⟩

end sorts
end NewM2.Winrt.SortLib
