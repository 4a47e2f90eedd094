import Mathlib
import NewM2.Lib.Chars
import NewM2.Lib.Sequence

/-!
# QuickSort and HeapSort (`library/winrtmod/SortLib.mod`)

The sequence is known by its callbacks only, which compare, exchange and copy the elements at two indices;
`first .. last` are the indices that they are to be called with. A loop that may not end has a parameter
`fuel`. -/

namespace NewM2.Winrt.SortLib
open Sequence

inductive Stop
  /-- A callback is called with another index. -/
  | index
  | fuel
deriving DecidableEq

section callbacks
variable {α : Type} (le : α → α → Bool) (first last : Nat)

/-- `LessEqProc`: less, or less or equal if `eqAlso`. -/
def lessEq (left right : Nat) (eqAlso : Bool) (a : Nat → α) : Except Stop Bool :=
  if (first ≤ left ∧ left ≤ last) ∧ (first ≤ right ∧ right ≤ last) then
    .ok (if eqAlso then le (a left) (a right) else !le (a right) (a left))
  else .error .index

/-- `SwapProc` -/
def swap (left right : Nat) (a : Nat → α) : Except Stop (Nat → α) :=
  if (first ≤ left ∧ left ≤ last) ∧ (first ≤ right ∧ right ≤ last) then .ok (a ∘ Equiv.swap left right)
  else .error .index

/-- `AssignProc`: the element at `right` is copied to `left`. -/
def assign (left right : Nat) (a : Nat → α) : Except Stop (Nat → α) :=
  if (first ≤ left ∧ left ≤ last) ∧ (first ≤ right ∧ right ≤ last) then .ok (Function.update a left (a right))
  else .error .index

end callbacks

/-! ## QuickSort -/

section quick
variable {α : Type} (le : α → α → Bool) (numItems : Nat)

/-- The scan: the last `i`. -/
def partition (hi i j : Nat) (a : Nat → α) : Except Stop (Nat × (Nat → α)) :=
  if j < hi then do
    let less ← lessEq le 1 numItems j hi false a
    if less then do
      let a ← (if i ≠ j then swap 1 numItems i j a else .ok a)
      partition hi (wrap (i + 1)) (j + 1) a
    else partition hi i (j + 1) a
  else .ok (i, a)
termination_by hi - j

/-- `Sort` -/
def quick : Nat → Nat → Nat → (Nat → α) → Except Stop (Nat → α)
  | 0, _, _, _ => .error .fuel
  | fuel + 1, lo, hi, a =>
    if hi ≤ lo then .ok a
    else do
      let mid := lo + (hi - lo) / 2
      let a ← swap 1 numItems mid hi a
      let (p, a) ← partition le numItems hi lo lo a
      let a ← (if p ≠ hi then swap 1 numItems p hi a else .ok a)
      let a ← (if lo < p then quick fuel lo (p - 1) a else .ok a)
      quick fuel (wrap (p + 1)) hi a

def quickSort (fuel : Nat) (a : Nat → α) : Except Stop (Nat → α) :=
  if 1 < numItems then quick le numItems fuel 1 numItems a else .ok a

end quick

/-! ## HeapSort -/

section heap
variable {α : Type} (le : α → α → Bool) (numItems : Nat)

/-- `Restore` -/
def restore (last : Nat) : Nat → Nat → (Nat → α) → Except Stop (Nat → α)
  | 0, _, _ => .error .fuel
  | fuel + 1, idx, a =>
    let child := wrap (2 * idx)
    if last < child then .ok a
    else do
      let right ← (if child < last then lessEq le 1 numItems child (wrap (child + 1)) false a else .ok false)
      let child := if right then wrap (child + 1) else child
      let less ← lessEq le 1 numItems idx child false a
      if less then do
        let a ← swap 1 numItems idx child a
        restore last fuel child a
      else .ok a

/-- `WHILE i >= 1 DO Restore(i, numItems); DEC(i) END` -/
def buildHeap (fuel : Nat) : Nat → (Nat → α) → Except Stop (Nat → α)
  | 0, a => .ok a
  | i + 1, a => do
    let a ← restore le numItems numItems fuel (i + 1) a
    buildHeap fuel i a

/-- `WHILE i >= 2 DO swap(1, i); Restore(1, i - 1); DEC(i) END` -/
def takeHeap (fuel : Nat) : Nat → (Nat → α) → Except Stop (Nat → α)
  | i + 2, a => do
    let a ← swap 1 numItems 1 (i + 2) a
    let a ← restore le numItems (i + 1) fuel 1 a
    takeHeap fuel (i + 1) a
  | _, a => .ok a

def heapSort (fuel : Nat) (a : Nat → α) : Except Stop (Nat → α) :=
  if numItems < 2 then .ok a
  else do
    let a ← buildHeap le numItems fuel (numItems / 2) a
    takeHeap le numItems fuel numItems a

end heap

/-! ## The callbacks -/

section callbacks
variable {α β : Type} {le : α → α → Bool} {first last i j : Nat} {a : Nat → α} {allowed : Stop → Prop}
  {Q : β → Prop}

theorem lessEq_bind {eqAlso : Bool} {f : Bool → Except Stop β} (hi : first ≤ i ∧ i ≤ last)
    (hj : first ≤ j ∧ j ≤ last)
    (h : Runs allowed (f (if eqAlso then le (a i) (a j) else !le (a j) (a i))) Q) :
    Runs allowed (lessEq le first last i j eqAlso a >>= f) Q := by
  rw [lessEq, if_pos ⟨hi, hj⟩]
  exact h

theorem swap_bind {f : (Nat → α) → Except Stop β} (hi : first ≤ i ∧ i ≤ last) (hj : first ≤ j ∧ j ≤ last)
    (h : Runs allowed (f (a ∘ Equiv.swap i j)) Q) : Runs allowed (swap first last i j a >>= f) Q := by
  rw [swap, if_pos ⟨hi, hj⟩]
  exact h

/-- An exchange that is left out if the indices are the same. -/
theorem swap_if_bind {f : (Nat → α) → Except Stop β} (hi : first ≤ i ∧ i ≤ last)
    (hj : first ≤ j ∧ j ≤ last) (h : Runs allowed (f (a ∘ Equiv.swap i j)) Q) :
    Runs allowed ((if i ≠ j then swap first last i j a else .ok a) >>= f) Q := by
  by_cases hij : i = j
  · rw [if_neg (not_not.2 hij)]
    rw [hij, Equiv.swap_self, Equiv.coe_refl, Function.comp_id] at h
    exact h
  · rw [if_pos hij]
    exact swap_bind hi hj h

theorem assign_bind {f : (Nat → α) → Except Stop β} (hi : first ≤ i ∧ i ≤ last)
    (hj : first ≤ j ∧ j ≤ last) (h : Runs allowed (f (Function.update a i (a j))) Q) :
    Runs allowed (assign first last i j a >>= f) Q := by
  rw [assign, if_pos ⟨hi, hj⟩]
  exact h

end callbacks

/-! ## QuickSort sorts -/

section quick
variable {α : Type} {le : α → α → Bool} {numItems lo hi i j : Nat} {a : Nat → α} {allowed : Stop → Prop}

/-- The elements before `i` are less than the pivot at `hi`, those from `i` to before `j` are not. -/
structure Scanned (le : α → α → Bool) (lo hi i j : Nat) (a : Nat → α) : Prop where
  low : lo ≤ i
  mid : i ≤ j
  high : j ≤ hi
  less : ∀ k, lo ≤ k → k < i → le (a hi) (a k) = false
  rest : ∀ k, i ≤ k → k < j → le (a hi) (a k)

theorem comp_swap_apply (a : Nat → α) (i j k : Nat) :
    (a ∘ Equiv.swap i j) k = if k = i then a j else if k = j then a i else a k := by
  rw [Function.comp_apply, Equiv.swap_apply_def]
  split_ifs <;> rfl

theorem Scanned.less_step (h : Scanned le lo hi i j a) (hj : j < hi) (hless : le (a hi) (a j) = false) :
    Scanned le lo hi (i + 1) (j + 1) (a ∘ Equiv.swap i j) := by
  have hlow := h.low
  have hmid := h.mid
  have hpivot : (a ∘ Equiv.swap i j) hi = a hi := by
    rw [comp_swap_apply, if_neg (by omega), if_neg (by omega)]
  refine ⟨by omega, by omega, by omega, fun k hk hk' => ?_, fun k hk hk' => ?_⟩
  · rw [hpivot, comp_swap_apply]
    split_ifs with h₁ h₂
    · exact hless
    · omega
    · exact h.less k hk (by omega)
  · rw [hpivot, comp_swap_apply]
    split_ifs with h₁ h₂
    · omega
    · exact h.rest i le_rfl (by omega)
    · exact h.rest k (by omega) (by omega)

theorem Scanned.rest_step (h : Scanned le lo hi i j a) (hj : j < hi) (hle : le (a hi) (a j)) :
    Scanned le lo hi i (j + 1) a := by
  refine ⟨h.low, h.mid.trans (Nat.le_succ j), hj, h.less, fun k hk hk' => ?_⟩
  rcases Nat.lt_or_eq_of_le (Nat.le_of_lt_succ hk') with hlt | rfl
  · exact h.rest k hk hlt
  · exact hle

theorem partition_runs {i j : Nat} {a : Nat → α} (hnum : numItems < 2 ^ 63) (hlo : 1 ≤ lo)
    (hhi : hi ≤ numItems) (h : Scanned le lo hi i j a) :
    Runs allowed (partition le numItems hi i j a) fun r =>
      Permutes lo hi a r.2 ∧ Scanned le lo hi r.1 hi r.2 := by
  have hlow := h.low
  have hmid := h.mid
  rw [partition]
  by_cases hj : j < hi
  · rw [if_pos hj]
    refine lessEq_bind ⟨by omega, by omega⟩ ⟨by omega, hhi⟩ ?_
    rw [if_neg Bool.false_ne_true]
    by_cases hless : le (a hi) (a j) = true
    · rw [hless, if_neg (by decide)]
      exact partition_runs hnum hlo hhi (h.rest_step hj hless)
    · have hless' : le (a hi) (a j) = false := by simpa using hless
      rw [hless', if_pos (show (!false) = true from rfl)]
      refine swap_if_bind ⟨by omega, by omega⟩ ⟨by omega, by omega⟩ ?_
      rw [wrap_of_lt (by omega)]
      refine (partition_runs hnum hlo hhi (h.less_step hj hless')).mono fun r hr => ⟨?_, hr.2⟩
      exact (Permutes.swap a (by omega) (by omega) (by omega) (by omega)).trans hr.1
  · obtain rfl : j = hi := Nat.le_antisymm h.high (not_lt.1 hj)
    rw [if_neg hj]
    exact Runs.ok ⟨Permutes.refl _ _ _, h⟩
termination_by hi - j

/-- The pivot is put between the two parts. -/
theorem Scanned.placed (hle : Preordered le) {p : Nat} (h : Scanned le lo hi p hi a) :
    (∀ k, lo ≤ k → k < p → le ((a ∘ Equiv.swap p hi) k) ((a ∘ Equiv.swap p hi) p)) ∧
      ∀ k, p < k → k ≤ hi → le ((a ∘ Equiv.swap p hi) p) ((a ∘ Equiv.swap p hi) k) := by
  have hmid := h.mid
  refine ⟨fun k hk hk' => ?_, fun k hk hk' => ?_⟩
  · rw [comp_swap_apply, comp_swap_apply, if_pos rfl, if_neg (by omega), if_neg (by omega)]
    exact hle.of_not (h.less k hk hk')
  · rw [comp_swap_apply, comp_swap_apply, if_pos rfl, if_neg (by omega)]
    split_ifs with hk
    · exact h.rest p le_rfl (by omega)
    · exact h.rest k (by omega) (by omega)

/-- Two sorted parts, with the pivot between them. -/
theorem sortedOn_pivot (hle : Preordered le) {p : Nat} (hlow : ∀ k, lo ≤ k → k < p → le (a k) (a p))
    (hhigh : ∀ k, p < k → k ≤ hi → le (a p) (a k)) (hleft : SortedOn le lo (p - 1) a)
    (hright : SortedOn le (p + 1) hi a) : SortedOn le lo hi a := by
  intro i j hi hij hj
  rcases Nat.lt_trichotomy i p with hip | rfl | hip
  · rcases Nat.lt_trichotomy j p with hjp | rfl | hjp
    · exact hleft i j hi hij (by omega)
    · exact hlow i hi hip
    · exact hle.trans _ _ _ (hlow i hi hip) (hhigh j hjp hj)
  · exact hhigh j hij hj
  · exact hright i j hip hij hj

theorem quick_runs {fuel lo hi : Nat} {a : Nat → α} (hle : Preordered le) (hnum : numItems < 2 ^ 63)
    (hlo : 1 ≤ lo) (hhi : hi ≤ numItems) (hfuel : hi + 1 - lo < fuel) :
    Runs allowed (quick le numItems fuel lo hi a) fun a' => Permutes lo hi a a' ∧ SortedOn le lo hi a' := by
  induction fuel generalizing lo hi a with
  | zero => omega
  | succ fuel ih =>
    rw [quick]
    by_cases hsmall : hi ≤ lo
    · rw [if_pos hsmall]
      exact Runs.ok ⟨Permutes.refl _ _ _, fun i j hi hij hj => by omega⟩
    rw [if_neg hsmall]
    refine swap_bind ⟨by omega, by omega⟩ ⟨by omega, hhi⟩ ?_
    have hparked : Permutes lo hi a (a ∘ Equiv.swap (lo + (hi - lo) / 2) hi) :=
      Permutes.swap a (by omega) (by omega) (by omega) le_rfl
    generalize a ∘ Equiv.swap (lo + (hi - lo) / 2) hi = a₁ at hparked ⊢
    have hstart : Scanned le lo hi lo lo a₁ :=
      ⟨le_rfl, le_rfl, by omega, fun k hk hk' => by omega, fun k hk hk' => by omega⟩
    refine (partition_runs hnum hlo hhi hstart).bind ?_
    rintro ⟨p, a₂⟩ ⟨hperm, hscan⟩
    dsimp only at hperm hscan ⊢
    have hplow := hscan.low
    have hphigh := hscan.mid
    refine swap_if_bind ⟨by omega, by omega⟩ ⟨by omega, hhi⟩ ?_
    obtain ⟨hless, hrest⟩ := hscan.placed hle
    have hmoved : Permutes lo hi a (a₂ ∘ Equiv.swap p hi) :=
      (hparked.trans hperm).trans (Permutes.swap a₂ hplow hphigh (by omega) le_rfl)
    generalize a₂ ∘ Equiv.swap p hi = a₃ at hless hrest hmoved ⊢
    have hleft : Runs allowed (if lo < p then quick le numItems fuel lo (p - 1) a₃ else .ok a₃) fun a' =>
        Permutes lo (p - 1) a₃ a' ∧ SortedOn le lo (p - 1) a' := by
      split_ifs with hp
      · exact ih hlo (by omega) (by omega)
      · exact Runs.ok ⟨Permutes.refl _ _ _, fun i j hi hij hj => by omega⟩
    refine hleft.bind fun a₄ ⟨hperm₄, hsorted₄⟩ => ?_
    rw [wrap_of_lt (by omega)]
    refine (ih (by omega) hhi (by omega)).mono fun a₅ ⟨hperm₅, hsorted₅⟩ => ?_
    refine ⟨(hmoved.trans (hperm₄.mono le_rfl (by omega))).trans (hperm₅.mono (by omega) le_rfl), ?_⟩
    have hpivot : a₅ p = a₃ p := by rw [hperm₅.outside (by omega), hperm₄.outside (by omega)]
    refine sortedOn_pivot (p := p) hle (fun k hk hk' => ?_) (fun k hk hk' => ?_) (fun i j hi hij hj => ?_) hsorted₅
    · rw [hpivot, hperm₅.outside (by omega)]
      exact hperm₄.forall (P := fun x => le x (a₃ p)) (fun k hk hk' => hless k hk (by omega)) hk (by omega)
    · rw [hpivot]
      refine hperm₅.forall (P := fun x => le (a₃ p) x) (fun k hk hk' => ?_) hk hk'
      rw [hperm₄.outside (by omega)]
      exact hrest k hk hk'
    · rw [hperm₅.outside (by omega), hperm₅.outside (by omega)]
      exact hsorted₄ i j hi hij hj

theorem quickSort_runs (hle : Preordered le) (hnum : numItems < 2 ^ 63) (a : Nat → α) :
    Runs allowed (quickSort le numItems (numItems + 1) a) fun a' =>
      Permutes 1 numItems a a' ∧ SortedOn le 1 numItems a' := by
  rw [quickSort]
  split_ifs
  · exact quick_runs hle hnum le_rfl le_rfl (by omega)
  · exact Runs.ok ⟨Permutes.refl _ _ _, fun i j hi hij hj => by omega⟩

end quick

/-! ## HeapSort sorts -/

section heap
variable {α : Type} {le : α → α → Bool} {numItems first last idx : Nat} {a : Nat → α} {allowed : Stop → Prop}

/-- `k` is a child of `j`. -/
def Child (j k : Nat) : Prop := k = 2 * j ∨ k = 2 * j + 1

/-- From the index `first` on no child is greater than its parent; the parent `idx` is left out, and its own
parent stands in for it. -/
structure Sifting (le : α → α → Bool) (first last idx : Nat) (a : Nat → α) : Prop where
  others : ∀ j k, first ≤ j → j ≠ idx → Child j k → k ≤ last → le (a k) (a j)
  around : ∀ j k, first ≤ j → Child j idx → Child idx k → k ≤ last → le (a k) (a j)

/-- From the index `first` on no child is greater than its parent. -/
def HeapFrom (le : α → α → Bool) (first last : Nat) (a : Nat → α) : Prop :=
  ∀ j k, first ≤ j → Child j k → k ≤ last → le (a k) (a j)

/-- The parent is exchanged with its greater child `c`. -/
theorem Sifting.step (h : Sifting le first last idx a) (hfirst : first ≤ idx) {c : Nat}
    (hpos : 1 ≤ idx) (hc : Child idx c) (hlast : c ≤ last)
    (hgreat : ∀ k, Child idx k → k ≤ last → le (a k) (a c)) (hless : le (a idx) (a c)) :
    Sifting le first last c (a ∘ Equiv.swap idx c) := by
  have hne : idx < c := by
    rcases hc with rfl | rfl <;> omega
  constructor
  · intro j k hj hjc hjk hk
    have hkj : j < k ∨ j = 0 := by rcases hjk with rfl | rfl <;> omega
    rw [comp_swap_apply, comp_swap_apply]
    by_cases hji : j = idx
    · subst hji
      rw [if_pos rfl, if_neg (by omega)]
      split_ifs with hkc
      · exact hless
      · exact hgreat k hjk hk
    · rw [if_neg hji, if_neg hjc]
      have hkc : k ≠ c := by
        rintro rfl
        rcases hjk with rfl | rfl <;> rcases hc with hc | hc <;> omega
      split_ifs with hki
      · subst hki
        exact h.around j c hj hjk hc hlast
      · exact h.others j k hj hji hjk hk
  · intro j k hj hjc hck hk
    have hji : j = idx := by
      rcases hjc with hjc | hjc <;> rcases hc with hc | hc <;> omega
    have hkc : c < k := by rcases hck with rfl | rfl <;> omega
    subst hji
    rw [comp_swap_apply, comp_swap_apply, if_pos rfl, if_neg (by omega), if_neg (by omega)]
    exact h.others c k (by omega) (by omega) hck hk

/-- The choice between the children. -/
theorem greater_child (hle : Preordered le) (hnum : numItems < 2 ^ 63) (hpos : 1 ≤ idx) (hlast : last ≤ numItems)
    (hchild : 2 * idx ≤ last) :
    Runs allowed (if 2 * idx < last then lessEq le 1 numItems (2 * idx) (wrap (2 * idx + 1)) false a
      else .ok false) fun right =>
      let c := if right then wrap (2 * idx + 1) else 2 * idx
      Child idx c ∧ c ≤ last ∧ ∀ k, Child idx k → k ≤ last → le (a k) (a c) := by
  rw [wrap_of_lt (by omega)]
  split_ifs with hboth
  · rw [lessEq, if_pos ⟨⟨by omega, by omega⟩, by omega, by omega⟩, if_neg Bool.false_ne_true]
    refine Runs.ok ?_
    by_cases hright : le (a (2 * idx + 1)) (a (2 * idx)) = true
    · rw [hright]
      dsimp only
      rw [if_neg (show ¬ (!true) = true by decide)]
      refine ⟨.inl rfl, by omega, ?_⟩
      rintro k (rfl | rfl) hk
      · exact hle.refl _
      · exact hright
    · have hright' : le (a (2 * idx + 1)) (a (2 * idx)) = false := by simpa using hright
      rw [hright']
      dsimp only
      rw [if_pos (show (!false) = true from rfl)]
      refine ⟨.inr rfl, hboth, ?_⟩
      rintro k (rfl | rfl) hk
      · exact hle.of_not hright'
      · exact hle.refl _
  · refine Runs.ok ⟨.inl rfl, hchild, ?_⟩
    rintro k (rfl | rfl) hk
    · exact hle.refl _
    · omega

theorem restore_runs {fuel idx : Nat} {a : Nat → α} (hle : Preordered le) (hnum : numItems < 2 ^ 63)
    (hfirst : 1 ≤ first) (hidx : first ≤ idx) (hidx' : idx ≤ numItems) (hlast : last ≤ numItems)
    (h : Sifting le first last idx a) (hfuel : last + 1 - idx < fuel) :
    Runs allowed (restore le numItems last fuel idx a) fun a' =>
      Permutes first last a a' ∧ HeapFrom le first last a' := by
  induction fuel generalizing idx a with
  | zero => omega
  | succ fuel ih =>
    rw [restore, wrap_of_lt (by omega)]
    dsimp only
    by_cases hend : last < 2 * idx
    · rw [if_pos hend]
      refine Runs.ok ⟨Permutes.refl _ _ _, fun j k hj hjk hk => h.others j k hj ?_ hjk hk⟩
      rintro rfl
      rcases hjk with rfl | rfl <;> omega
    rw [if_neg hend]
    refine (greater_child hle hnum (by omega) hlast (by omega)).bind fun right hc => ?_
    dsimp only at hc
    generalize (if right = true then wrap (2 * idx + 1) else 2 * idx) = c at hc ⊢
    obtain ⟨hchild, hclast, hgreat⟩ := hc
    have hlt : idx < c := by rcases hchild with rfl | rfl <;> omega
    refine lessEq_bind ⟨by omega, hidx'⟩ ⟨by omega, by omega⟩ ?_
    rw [if_neg Bool.false_ne_true]
    by_cases hless : le (a c) (a idx) = true
    · rw [hless, if_neg (by decide)]
      refine Runs.ok ⟨Permutes.refl _ _ _, fun j k hj hjk hk => ?_⟩
      by_cases hj' : j = idx
      · subst hj'
        exact hle.trans _ _ _ (hgreat k hjk hk) hless
      · exact h.others j k hj hj' hjk hk
    · have hless' : le (a c) (a idx) = false := by simpa using hless
      rw [hless', if_pos (show (!false) = true from rfl)]
      refine swap_bind ⟨by omega, hidx'⟩ ⟨by omega, by omega⟩ ?_
      have hstep := h.step hidx (by omega) hchild hclast hgreat (hle.of_not hless')
      refine (ih (by omega) (by omega) hstep (by omega)).mono fun a' ha' => ⟨?_, ha'.2⟩
      exact (Permutes.swap a hidx (by omega) (by omega) hclast).trans ha'.1

theorem buildHeap_runs {fuel i : Nat} {a : Nat → α} (hle : Preordered le) (hnum : numItems < 2 ^ 63)
    (hfuel : numItems < fuel) (hi : i ≤ numItems) (h : HeapFrom le (i + 1) numItems a) :
    Runs allowed (buildHeap le numItems fuel i a) fun a' =>
      Permutes 1 numItems a a' ∧ HeapFrom le 1 numItems a' := by
  induction i generalizing a with
  | zero => exact Runs.ok ⟨Permutes.refl _ _ _, h⟩
  | succ i ih =>
    have hsift : Sifting le (i + 1) numItems (i + 1) a := by
      refine ⟨fun j k hj hne hjk hk => h j k (by omega) hjk hk, fun j k hj hji _ _ => ?_⟩
      rcases hji with hji | hji <;> omega
    rw [buildHeap]
    refine (restore_runs hle hnum (by omega) le_rfl hi le_rfl hsift (by omega)).bind fun a₁ ⟨hperm, hheap⟩ => ?_
    refine (ih (by omega) hheap).mono fun a' ha' => ⟨?_, ha'.2⟩
    exact (hperm.mono (by omega) le_rfl).trans ha'.1

/-- The root is the greatest element. -/
theorem HeapFrom.root (hle : Preordered le) (h : HeapFrom le 1 last a) {k : Nat} (hk : 1 ≤ k) (hlast : k ≤ last) :
    le (a k) (a 1) := by
  induction k using Nat.strong_induction_on with
  | h k ih =>
    rcases Nat.lt_or_ge 1 k with hlt | hge
    · have hchild : Child (k / 2) k := by
        rw [Child]
        omega
      exact hle.trans _ _ _ (h (k / 2) k (by omega) hchild hlast) (ih (k / 2) (by omega) (by omega) (by omega))
    · obtain rfl : k = 1 := by omega
      exact hle.refl _

/-- What is taken off the heap is sorted, and not less than what is left. -/
theorem takeHeap_runs {fuel i : Nat} {a : Nat → α} (hle : Preordered le) (hnum : numItems < 2 ^ 63)
    (hfuel : numItems < fuel) (hi : i ≤ numItems) (hheap : HeapFrom le 1 i a)
    (hsorted : SortedOn le (i + 1) numItems a)
    (hgreat : ∀ j k, 1 ≤ j → j ≤ i → i < k → k ≤ numItems → le (a j) (a k)) :
    Runs allowed (takeHeap le numItems fuel i a) fun a' =>
      Permutes 1 numItems a a' ∧ SortedOn le 1 numItems a' := by
  induction i generalizing a with
  | zero => exact Runs.ok ⟨Permutes.refl _ _ _, hsorted⟩
  | succ i ih =>
    rcases i with - | i
    · refine Runs.ok ⟨Permutes.refl _ _ _, fun j k hj hjk hk => ?_⟩
      rcases Nat.lt_or_eq_of_le hj with hj | rfl
      · exact hsorted j k hj hjk hk
      · exact hgreat 1 k le_rfl le_rfl hjk hk
    rw [takeHeap]
    refine swap_bind ⟨le_rfl, by omega⟩ ⟨by omega, by omega⟩ ?_
    have hswap : Permutes 1 (i + 2) a (a ∘ Equiv.swap 1 (i + 2)) :=
      Permutes.swap a le_rfl (by omega) (by omega) le_rfl
    have hlast : (a ∘ Equiv.swap 1 (i + 2)) (i + 2) = a 1 := by
      rw [comp_swap_apply, if_neg (by omega), if_pos rfl]
    have hsift : Sifting le 1 (i + 1) 1 (a ∘ Equiv.swap 1 (i + 2)) := by
      refine ⟨fun j k hj hne hjk hk => ?_, fun j k hj hji _ _ => ?_⟩
      · have hjk' : j < k := by rcases hjk with rfl | rfl <;> omega
        rw [comp_swap_apply, comp_swap_apply, if_neg (by omega), if_neg (by omega), if_neg hne, if_neg (by omega)]
        exact hheap j k hj hjk (by omega)
      · rcases hji with hji | hji <;> omega
    generalize a ∘ Equiv.swap 1 (i + 2) = a₁ at hswap hlast hsift ⊢
    refine (restore_runs hle hnum le_rfl le_rfl (by omega) (by omega) hsift (by omega)).bind
      fun a₂ ⟨hperm, hheap₂⟩ => ?_
    have hall : Permutes 1 (i + 2) a a₂ := hswap.trans (hperm.mono le_rfl (by omega))
    have hroot : ∀ j, 1 ≤ j → j ≤ i + 2 → le (a₂ j) (a₂ (i + 2)) := fun j hj hj' => by
      rw [hperm.outside (k := i + 2) (by omega), hlast]
      exact hall.forall (P := fun x => le x (a 1)) (fun k hk hk' => hheap.root hle hk hk') hj hj'
    refine (ih (by omega) hheap₂ (fun j k hj hjk hk => ?_) (fun j k hj hj' hk hk' => ?_)).mono
      fun a' ha' => ⟨(hall.mono le_rfl hi).trans ha'.1, ha'.2⟩
    · rw [hall.outside (k := k) (by omega)]
      rcases Nat.lt_or_eq_of_le hj with hj | rfl
      · rw [hall.outside (by omega)]
        exact hsorted j k (by omega) hjk hk
      · exact hall.forall (P := fun x => le x (a k)) (fun l hl hl' => hgreat l k hl hl' (by omega) hk)
          (by omega) le_rfl
    · rcases Nat.lt_or_eq_of_le hk with hk | rfl
      · rw [hall.outside (k := k) (by omega)]
        exact hall.forall (P := fun x => le x (a k)) (fun l hl hl' => hgreat l k hl hl' hk hk') hj (by omega)
      · exact hroot j hj (by omega)

theorem heapSort_runs (hle : Preordered le) (hnum : numItems < 2 ^ 63) (a : Nat → α) :
    Runs allowed (heapSort le numItems (numItems + 1) a) fun a' =>
      Permutes 1 numItems a a' ∧ SortedOn le 1 numItems a' := by
  rw [heapSort]
  split_ifs with hsmall
  · exact Runs.ok ⟨Permutes.refl _ _ _, fun i j hi hij hj => by omega⟩
  · have hleaves : HeapFrom le (numItems / 2 + 1) numItems a := by
      rintro j k hj (rfl | rfl) hk <;> omega
    refine (buildHeap_runs hle hnum (Nat.lt_succ_self _) (by omega) hleaves).bind fun a₁ ⟨hperm, hheap⟩ => ?_
    refine (takeHeap_runs hle hnum (Nat.lt_succ_self _) le_rfl hheap (fun i j hi hij hj => by omega)
      fun j k _ _ hk hk' => by omega).mono fun a' ha' => ⟨hperm.trans ha'.1, ha'.2⟩

end heap
end NewM2.Winrt.SortLib
