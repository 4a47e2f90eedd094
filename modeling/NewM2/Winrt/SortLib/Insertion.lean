import Mathlib
import NewM2.Winrt.SortLib.Swapping

/-!
# ShellSort and BinaryInsertSort (`library/winrtmod/SortLib.mod`)

The element that is inserted is stashed in slot 0. With the stash put back where the hole is, each step of
`ShellSort` is an exchange. -/

namespace NewM2.Winrt.SortLib
open Sequence

/-! ## ShellSort -/

section shell
variable {α : Type} (le : α → α → Bool) (numItems : Nat)

/-- `WHILE h < numItems DO h := 3 * h + 1 END` -/
def firstGap : Nat → Nat → Except Stop Nat
  | 0, _ => .error .fuel
  | fuel + 1, h => if h < numItems then firstGap fuel (wrap (3 * h + 1)) else .ok h

/-- `WHILE (j > h) AND lessEq(0, j - h, FALSE) DO assign(j, j - h); j := j - h END`: the last `j`. -/
def shiftGap (h : Nat) : Nat → Nat → (Nat → α) → Except Stop (Nat × (Nat → α))
  | 0, _, _ => .error .fuel
  | fuel + 1, j, a => do
    let less ← (if h < j then lessEq le 0 numItems 0 (j - h) false a else .ok false)
    if less then do
      let a ← assign 0 numItems j (j - h) a
      shiftGap h fuel (j - h) a
    else .ok (j, a)

/-- The loop over `i`. -/
def insertGap (fuel h : Nat) : Nat → Nat → (Nat → α) → Except Stop (Nat → α)
  | 0, _, _ => .error .fuel
  | n + 1, i, a =>
    if i ≤ numItems then do
      let a ← assign 0 numItems 0 i a
      let (j, a) ← shiftGap le numItems h fuel i a
      let a ← assign 0 numItems j 0 a
      insertGap fuel h n (wrap (i + 1)) a
    else .ok a

/-- The REPEAT loop. -/
def gapLoop (fuel h : Nat) (a : Nat → α) : Except Stop (Nat → α) := do
  let a ← insertGap le numItems fuel (h / 3) fuel (wrap (h / 3 + 1)) a
  if h / 3 ≤ 1 then .ok a else gapLoop fuel (h / 3) a
termination_by h

def shellSort (fuel : Nat) (a : Nat → α) : Except Stop (Nat → α) :=
  if numItems < 2 then .ok a
  else do
    let h ← firstGap numItems fuel 1
    gapLoop le numItems fuel h a

end shell

/-! ## BinaryInsertSort -/

section binary
variable {α : Type} (le : α → α → Bool) (numItems : Nat)

/-- The binary search: the last `left`. -/
def search : Nat → Nat → Nat → (Nat → α) → Except Stop Nat
  | 0, _, _, _ => .error .fuel
  | fuel + 1, left, right, a =>
    if left < right then do
      let mid := wrap (left + right) / 2
      let below ← lessEq le 0 numItems mid 0 true a
      if below then search fuel (wrap (mid + 1)) right a else search fuel left mid a
    else .ok left

/-- `WHILE j > left DO assign(j, j - 1); DEC(j) END` -/
def shiftUp (left : Nat) : Nat → (Nat → α) → Except Stop (Nat → α)
  | 0, a => .ok a
  | j + 1, a =>
    if left < j + 1 then do
      let a ← assign 0 numItems (j + 1) j a
      shiftUp left j a
    else .ok a

/-- The loop over `i`. -/
def insertBinary (fuel : Nat) : Nat → Nat → (Nat → α) → Except Stop (Nat → α)
  | 0, _, _ => .error .fuel
  | n + 1, i, a =>
    if i ≤ numItems then do
      let a ← assign 0 numItems 0 i a
      let left ← search le numItems fuel 1 i a
      let a ← shiftUp numItems left i a
      let a ← assign 0 numItems left 0 a
      insertBinary fuel n (wrap (i + 1)) a
    else .ok a

def binaryInsertSort (fuel : Nat) (a : Nat → α) : Except Stop (Nat → α) :=
  insertBinary le numItems fuel fuel 2 a

end binary

/-! ## The gaps -/

section gaps
variable {numItems : Nat} {allowed : Stop → Prop}

/-- The gaps are the numbers `(3 ^ k - 1) / 2`; they do not wrap around. -/
theorem gap_lt {h k : Nat} (hk : 2 * h + 1 = 3 ^ k) (hlt : h < 2 ^ 63) : 3 * h + 1 < 2 ^ 64 := by
  have hpow : (3 : Nat) ^ k < 3 ^ 41 := by
    have h41 : (2 : Nat) ^ 64 < 3 ^ 41 := by norm_num
    omega
  have hle : (3 : Nat) ^ (k + 1) ≤ 3 ^ 41 :=
    Nat.pow_le_pow_right (by decide) ((Nat.pow_lt_pow_iff_right (by decide)).1 hpow)
  have h41 : (3 : Nat) ^ 41 = 36472996377170786403 := by norm_num
  rw [pow_succ] at hle
  omega

theorem firstGap_runs {fuel h k : Nat} (hnum : numItems < 2 ^ 63) (hk : 2 * h + 1 = 3 ^ k) (hpos : 1 ≤ h)
    (hlast : h / 3 < numItems) (hfuel : numItems - h < fuel) :
    Runs allowed (firstGap numItems fuel h) fun h' =>
      numItems ≤ h' ∧ h' / 3 < numItems ∧ ∃ k, 2 * h' + 1 = 3 ^ k := by
  induction fuel generalizing h k with
  | zero => omega
  | succ fuel ih =>
    rw [firstGap]
    split_ifs with hlt
    · have hsmall := gap_lt hk (by omega)
      rw [wrap_of_lt hsmall]
      refine ih (k := k + 1) ?_ (by omega) (by omega) (by omega)
      rw [pow_succ, ← hk]
      ring
    · exact Runs.ok ⟨not_lt.1 hlt, hlast, k, hk⟩

end gaps

/-! ## Insertion with a gap -/

section shell
variable {α : Type} {le : α → α → Bool} {numItems h i j : Nat} {a b : Nat → α} {allowed : Stop → Prop}

/-- Each element is not greater than the one that is `h` further on. -/
def GapSorted (le : α → α → Bool) (h n : Nat) (a : Nat → α) : Prop :=
  ∀ x, 1 ≤ x → x + h ≤ n → le (a x) (a (x + h))

/-- That is so but for the element at `j`, which is to be moved down. -/
structure Inserting (le : α → α → Bool) (h i j : Nat) (b : Nat → α) : Prop where
  others : ∀ x, 1 ≤ x → x + h ≤ i → x ≠ j → x + h ≠ j → le (b x) (b (x + h))
  above : j + h ≤ i → le (b j) (b (j + h))
  around : j + h ≤ i → h < j → le (b (j - h)) (b (j + h))

/-- The element is exchanged with a greater one. -/
theorem Inserting.step (hle : Preordered le) (hb : Inserting le h i j b) (hpos : 1 ≤ h) (hj : h < j)
    (hless : le (b (j - h)) (b j) = false) : Inserting le h i (j - h) (b ∘ Equiv.swap (j - h) j) := by
  have hback : j - h + h = j := Nat.sub_add_cancel hj.le
  constructor
  · intro x hx hxi hxj hxj'
    rw [comp_swap_apply, comp_swap_apply, if_neg hxj, if_neg hxj', if_neg (show x + h ≠ j by omega)]
    split_ifs with hx'
    · subst hx'
      exact hb.around hxi hj
    · exact hb.others x hx hxi hx' (by omega)
  · intro _
    rw [hback, comp_swap_apply, comp_swap_apply, if_pos rfl, if_neg (by omega), if_pos rfl]
    exact hle.of_not hless
  · intro hji hj'
    rw [hback, comp_swap_apply, comp_swap_apply, if_neg (by omega), if_neg (by omega), if_neg (by omega), if_pos rfl]
    have hnext := hb.others (j - h - h) (by omega) (by omega) (by omega) (by omega)
    rwa [Nat.sub_add_cancel hj'.le] at hnext

/-- The sequence with the stash in the hole. -/
def filled (j : Nat) (a : Nat → α) : Nat → α := Function.update a j (a 0)

theorem filled_apply (j : Nat) (a : Nat → α) (k : Nat) : filled j a k = if k = j then a 0 else a k := by
  rw [filled, Function.update_apply]

theorem filled_assign (hpos : 1 ≤ h) (hj : h < j) :
    filled (j - h) (Function.update a j (a (j - h))) = filled j a ∘ Equiv.swap (j - h) j := by
  funext k
  rw [comp_swap_apply, filled_apply, filled_apply, filled_apply, filled_apply, Function.update_apply,
    Function.update_apply, if_neg (show 0 ≠ j by omega), if_pos rfl, if_neg (show j - h ≠ j by omega)]
  split_ifs <;> rfl

theorem shiftGap_runs {fuel j : Nat} {a : Nat → α} (hle : Preordered le) (hpos : 1 ≤ h) (hj : 1 ≤ j)
    (hji : j ≤ i) (hi : i ≤ numItems) (hb : Inserting le h i j (filled j a)) (hfuel : j < fuel) :
    Runs allowed (shiftGap le numItems h fuel j a) fun r => (1 ≤ r.1 ∧ r.1 ≤ i) ∧
      Permutes 1 i (filled j a) (filled r.1 r.2) ∧ GapSorted le h i (filled r.1 r.2) := by
  induction fuel generalizing j a with
  | zero => omega
  | succ fuel ih =>
    have hless : Runs allowed (if h < j then lessEq le 0 numItems 0 (j - h) false a else .ok false) fun less =>
        less = true ↔ h < j ∧ le (a (j - h)) (a 0) = false := by
      split_ifs with hj'
      · rw [lessEq, if_pos ⟨⟨le_rfl, Nat.zero_le _⟩, Nat.zero_le _, by omega⟩, if_neg Bool.false_ne_true]
        exact Runs.ok (by simp [hj'])
      · exact Runs.ok (by simp [hj'])
    rw [shiftGap]
    refine hless.bind fun less hless => ?_
    by_cases hgo : less = true
    · obtain ⟨hj', hgreater⟩ := hless.1 hgo
      rw [if_pos hgo]
      refine assign_bind ⟨Nat.zero_le _, by omega⟩ ⟨Nat.zero_le _, by omega⟩ ?_
      have hstep := hb.step hle hpos hj' (by
        rwa [filled_apply, filled_apply, if_neg (by omega), if_pos rfl])
      rw [← filled_assign hpos hj'] at hstep
      refine (ih (by omega) (by omega) hstep (by omega)).mono fun r hr => ⟨hr.1, ?_, hr.2.2⟩
      rw [filled_assign hpos hj'] at hr
      exact (Permutes.swap _ (by omega) (by omega) (by omega) hji).trans hr.2.1
    · rw [if_neg hgo]
      refine Runs.ok ⟨⟨hj, hji⟩, Permutes.refl _ _ _, fun x hx hxi => ?_⟩
      by_cases hxj : x = j
      · subst hxj
        exact hb.above hxi
      by_cases hxj' : x + h = j
      · have hstop : le (a (j - h)) (a 0) = true := by
          by_contra hne
          exact hgo (hless.2 ⟨by omega, by simpa using hne⟩)
        rw [filled_apply, filled_apply, if_neg hxj, if_pos hxj', show x = j - h by omega]
        exact hstop
      · exact hb.others x hx hxi hxj hxj'

theorem insertGap_runs {fuel n i : Nat} {a : Nat → α} (hle : Preordered le) (hnum : numItems < 2 ^ 63)
    (hpos : 1 ≤ h) (hi : 1 ≤ i) (hfuel : numItems < fuel) (hn : numItems + 1 - i < n)
    (hsorted : GapSorted le h (i - 1) a) :
    Runs allowed (insertGap le numItems fuel h n i a) fun a' =>
      (segment a' 1 numItems).Perm (segment a 1 numItems) ∧ GapSorted le h numItems a' := by
  induction n generalizing i a with
  | zero => omega
  | succ n ih =>
    rw [insertGap]
    by_cases hmore : i ≤ numItems
    · rw [if_pos hmore]
      refine assign_bind ⟨le_rfl, Nat.zero_le _⟩ ⟨Nat.zero_le _, hmore⟩ ?_
      have hkeep : ∀ k, 1 ≤ k → Function.update a 0 (a i) k = a k := fun k hk =>
        Function.update_of_ne (by omega) _ _
      have hstash : filled i (Function.update a 0 (a i)) = Function.update a 0 (a i) := by
        funext k
        rw [filled_apply, Function.update_self]
        split_ifs with hk
        · rw [hk, hkeep i hi]
        · rfl
      have hins : Inserting le h i i (filled i (Function.update a 0 (a i))) := by
        rw [hstash]
        refine ⟨fun x hx hxi _ hne => ?_, fun hii => by omega, fun hii => by omega⟩
        rw [hkeep x hx, hkeep _ (by omega)]
        exact hsorted x hx (by omega)
      refine (shiftGap_runs hle hpos hi le_rfl hmore hins (by omega)).bind ?_
      rintro ⟨j, a₁⟩ ⟨⟨hj, hji⟩, hperm, hgap⟩
      dsimp only at hj hji hperm hgap ⊢
      refine assign_bind ⟨Nat.zero_le _, by omega⟩ ⟨le_rfl, Nat.zero_le _⟩ ?_
      rw [wrap_of_lt (by omega)]
      rw [hstash] at hperm
      refine (ih (i := i + 1) (by omega) (by omega) hgap).mono fun a' ha' => ⟨?_, ha'.2⟩
      refine ha'.1.trans ((hperm.mono le_rfl hmore).perm.trans ?_)
      rw [segment_congr fun k hk _ => hkeep k hk]
    · rw [if_neg hmore]
      refine Runs.ok ⟨.refl _, fun x hx hxn => hsorted x hx (by omega)⟩

/-- The last pass has the gap 1. -/
theorem sortedOn_of_gapSorted (hle : Preordered le) {n : Nat} (h : GapSorted le 1 n a) : SortedOn le 1 n a := by
  intro i j hi hij hj
  induction j, hij using Nat.le_induction with
  | base => exact h i hi hj
  | succ j hij ih => exact hle.trans _ _ _ (ih (by omega)) (h j (by omega) hj)

theorem gapLoop_runs {fuel h k : Nat} {a : Nat → α} (hle : Preordered le) (hnum : numItems < 2 ^ 63)
    (hfuel : numItems + 1 < fuel) (hk : 2 * h + 1 = 3 ^ k) (hh : 2 ≤ h) (hh' : h / 3 < numItems) :
    Runs allowed (gapLoop le numItems fuel h a) fun a' =>
      (segment a' 1 numItems).Perm (segment a 1 numItems) ∧ SortedOn le 1 numItems a' := by
  obtain ⟨k, rfl⟩ : ∃ k', k = k' + 2 := by
    rcases k with - | - | k
    · omega
    · omega
    · exact ⟨k, rfl⟩
  have hpow : 1 ≤ 3 ^ k := Nat.one_le_pow _ _ (by decide)
  have hnext : 2 * (h / 3) + 1 = 3 ^ (k + 1) := by
    rw [pow_succ, pow_succ] at hk
    rw [pow_succ]
    omega
  rw [pow_succ] at hnext
  rw [gapLoop, wrap_of_lt (by omega)]
  refine (insertGap_runs hle hnum (by omega) (by omega) (by omega) (by omega)
    (fun x hx hxh => by omega)).bind fun a₁ ⟨hperm, hgap⟩ => ?_
  by_cases hone : h / 3 ≤ 1
  · rw [if_pos hone]
    rw [show h / 3 = 1 by omega] at hgap
    exact Runs.ok ⟨hperm, sortedOn_of_gapSorted hle hgap⟩
  · rw [if_neg hone]
    rw [← pow_succ] at hnext
    exact (gapLoop_runs hle hnum hfuel hnext (by omega) (by omega)).mono fun a' ha' =>
      ⟨ha'.1.trans hperm, ha'.2⟩
termination_by h

theorem shellSort_runs (hle : Preordered le) (hnum : numItems < 2 ^ 63) (a : Nat → α) :
    Runs allowed (shellSort le numItems (numItems + 2) a) fun a' =>
      (segment a' 1 numItems).Perm (segment a 1 numItems) ∧ SortedOn le 1 numItems a' := by
  rw [shellSort]
  split_ifs with hsmall
  · exact Runs.ok ⟨.refl _, fun i j hi hij hj => by omega⟩
  · refine (firstGap_runs (k := 1) hnum (by norm_num) le_rfl (by omega) (by omega)).bind
      fun h ⟨hge, hlast, k, hk⟩ => ?_
    exact gapLoop_runs hle hnum (by omega) hk (by omega) hlast

end shell

/-! ## Binary insertion -/

section binary
variable {α : Type} {le : α → α → Bool} {numItems i left right : Nat} {a : Nat → α} {allowed : Stop → Prop}

/-- The elements before `left` are not greater than the stash, those from `right` on are. -/
structure Searched (le : α → α → Bool) (i left right : Nat) (a : Nat → α) : Prop where
  low : 1 ≤ left
  mid : left ≤ right
  high : right ≤ i
  below : ∀ k, 1 ≤ k → k < left → le (a k) (a 0)
  above : ∀ k, right ≤ k → k < i → le (a k) (a 0) = false

theorem search_runs {fuel left right : Nat} (hle : Preordered le) (hnum : numItems < 2 ^ 63) (hi : i ≤ numItems)
    (hsorted : SortedOn le 1 (i - 1) a) (h : Searched le i left right a) (hfuel : right - left < fuel) :
    Runs allowed (search le numItems fuel left right a) fun p => Searched le i p p a := by
  have hlow := h.low
  have hhigh := h.high
  induction fuel generalizing left right with
  | zero => omega
  | succ fuel ih =>
    rw [search]
    by_cases hmore : left < right
    · have hmid : left ≤ (left + right) / 2 ∧ (left + right) / 2 < right := by omega
      rw [if_pos hmore, wrap_of_lt (by omega)]
      dsimp only
      generalize (left + right) / 2 = mid at hmid ⊢
      obtain ⟨hleft, hright⟩ := hmid
      refine lessEq_bind ⟨Nat.zero_le _, by omega⟩ ⟨le_rfl, Nat.zero_le _⟩ ?_
      rw [if_pos rfl]
      have hmono : ∀ j k, 1 ≤ j → j ≤ k → k < i → le (a j) (a k) := fun j k hj hjk hk => by
        rcases Nat.lt_or_eq_of_le hjk with hlt | rfl
        · exact hsorted j k hj hlt (by omega)
        · exact hle.refl _
      by_cases hbelow : le (a mid) (a 0) = true
      · rw [if_pos hbelow, wrap_of_lt (by omega)]
        refine ih ⟨by omega, hright, hhigh, fun k hk hk' => ?_, h.above⟩ (by omega) (by omega) hhigh
        exact hle.trans _ _ _ (hmono k mid hk (by omega) (by omega)) hbelow
      · have hbelow' : le (a mid) (a 0) = false := by simpa using hbelow
        rw [if_neg hbelow]
        refine ih ⟨hlow, hleft, by omega, h.below, fun k hk hk' => ?_⟩ (by omega) hlow (by omega)
        exact hle.not_left hbelow' (hmono mid k (by omega) hk hk')
    · obtain rfl : left = right := Nat.le_antisymm h.mid (not_lt.1 hmore)
      rw [if_neg hmore]
      exact Runs.ok h

theorem shiftUp_runs {j : Nat} {a : Nat → α} (hj : j ≤ numItems) :
    Runs allowed (shiftUp numItems left j a) fun a' =>
      ∀ k, a' k = if left < k ∧ k ≤ j then a (k - 1) else a k := by
  induction j generalizing a with
  | zero => exact Runs.ok fun k => by rw [if_neg (by omega)]
  | succ j ih =>
    rw [shiftUp]
    split_ifs with hmore
    · refine assign_bind ⟨Nat.zero_le _, hj⟩ ⟨Nat.zero_le _, by omega⟩ ?_
      refine (ih (by omega)).mono fun a' ha' k => ?_
      rw [ha', Function.update_apply, Function.update_apply]
      split_ifs <;> first | rfl | omega | (congr 1; omega)
    · exact Runs.ok fun k => by rw [if_neg (by omega)]

/-- The elements `1 .. n` are sorted, in a list. -/
theorem sortedOn_iff {n : Nat} : SortedOn le 1 n a ↔ (segment a 1 n).Pairwise fun x y => le x y := by
  refine ⟨fun h => pairwise_segment fun i j hi hij hj => h i j hi hij (by omega), fun h i j hi hij hj => ?_⟩
  exact of_pairwise_segment h hi hij (by omega)

/-- The element at `i` is put in front of the greater ones. -/
theorem inserted (hle : Preordered le) {a' : Nat → α} (hi : 1 ≤ left) (hleft : left ≤ i) (hnum : i ≤ numItems)
    (hcells : ∀ k, 1 ≤ k → a' k = if k = left then a i else if left < k ∧ k ≤ i then a (k - 1) else a k)
    (hsorted : SortedOn le 1 (i - 1) a) (hbelow : ∀ k, 1 ≤ k → k < left → le (a k) (a i))
    (habove : ∀ k, left ≤ k → k < i → le (a k) (a i) = false) :
    Stable le (segment a 1 numItems) (segment a' 1 numItems) ∧ SortedOn le 1 i a' := by
  have hone : 1 + (left - 1) = left := by omega
  have hsum : left + (i - left) = i := by omega
  have hlen : i - 1 = left - 1 + (i - left) := by omega
  have hold : segment a 1 (left - 1 + (i - left) + 1) =
      segment a 1 (left - 1) ++ segment a left (i - left) ++ [a i] := by
    rw [segment_concat, segment_append, hone, ← Nat.add_assoc, hone, hsum]
  have hnew : segment a' 1 (left - 1 + (i - left) + 1) =
      segment a 1 (left - 1) ++ a i :: segment a left (i - left) := by
    have hfront : segment a' 1 (left - 1) = segment a 1 (left - 1) := segment_congr fun k hk hk' => by
      rw [hcells k hk, if_neg (by omega), if_neg (by omega)]
    have hshift : segment a' (left + 1) (i - left) = segment a left (i - left) := segment_move fun k hk => by
      rw [hcells _ (by omega), if_neg (by omega), if_pos (by omega)]
      congr 1
      omega
    rw [Nat.add_assoc, segment_append, hone, segment_succ, hfront, hshift, hcells left hi, if_pos rfl]
  have hlast : left - 1 + (i - left) + 1 = i := by omega
  rw [hlast] at hold hnew
  have hmem : ∀ y ∈ segment a left (i - left), le y (a i) = false := by
    intro y hy
    obtain ⟨k, hk, rfl⟩ := List.mem_map.1 hy
    rw [List.mem_range'_1] at hk
    exact habove k hk.1 (by omega)
  constructor
  · have hrest : segment a' (1 + i) (numItems - i) = segment a (1 + i) (numItems - i) :=
      segment_congr fun k hk hk' => by rw [hcells k (by omega), if_neg (by omega), if_neg (by omega)]
    have hsplit : ∀ b : Nat → α, segment b 1 numItems = segment b 1 i ++ segment b (1 + i) (numItems - i) :=
      fun b => by rw [← segment_append, Nat.add_sub_cancel' hnum]
    rw [hsplit, hsplit, hold, hnew, hrest]
    exact (Stable.move hle hmem).append (Stable.refl le _)
  · rw [sortedOn_iff, hnew]
    rw [sortedOn_iff, hlen, segment_append, hone, List.pairwise_append] at hsorted
    obtain ⟨hl, hr, hlr⟩ := hsorted
    have hfront : ∀ x ∈ segment a 1 (left - 1), le x (a i) := by
      intro x hx
      obtain ⟨k, hk, rfl⟩ := List.mem_map.1 hx
      rw [List.mem_range'_1] at hk
      exact hbelow k hk.1 (by omega)
    rw [List.pairwise_append, List.pairwise_cons]
    refine ⟨hl, ⟨fun y hy => hle.of_not (hmem y hy), hr⟩, fun x hx y hy => ?_⟩
    rcases List.mem_cons.1 hy with rfl | hy
    · exact hfront x hx
    · exact hlr x hx y hy

theorem insertBinary_runs {fuel n i : Nat} {a : Nat → α} (hle : Preordered le) (hnum : numItems < 2 ^ 63)
    (hi : 1 ≤ i) (hfuel : numItems < fuel) (hn : numItems + 1 - i < n) (hsorted : SortedOn le 1 (i - 1) a) :
    Runs allowed (insertBinary le numItems fuel n i a) fun a' =>
      Stable le (segment a 1 numItems) (segment a' 1 numItems) ∧ SortedOn le 1 numItems a' := by
  induction n generalizing i a with
  | zero => omega
  | succ n ih =>
    rw [insertBinary]
    by_cases hmore : i ≤ numItems
    · rw [if_pos hmore]
      refine assign_bind ⟨le_rfl, Nat.zero_le _⟩ ⟨Nat.zero_le _, hmore⟩ ?_
      have hkeep : ∀ k, 1 ≤ k → Function.update a 0 (a i) k = a k := fun k hk =>
        Function.update_of_ne (by omega) _ _
      have hstash : Function.update a 0 (a i) 0 = a i := Function.update_self ..
      generalize Function.update a 0 (a i) = a₁ at hkeep hstash ⊢
      have hsorted₁ : SortedOn le 1 (i - 1) a₁ := fun x y hx hxy hy => by
        rw [hkeep x hx, hkeep y (by omega)]
        exact hsorted x y hx hxy hy
      refine (search_runs hle hnum hmore hsorted₁ ⟨le_rfl, hi, le_rfl, fun k hk hk' => by omega,
        fun k hk hk' => by omega⟩ (by omega)).bind fun left hleft => ?_
      have hlow := hleft.low
      have hhigh := hleft.high
      refine (shiftUp_runs hmore).bind fun a₂ ha₂ => ?_
      refine assign_bind ⟨Nat.zero_le _, by omega⟩ ⟨le_rfl, Nat.zero_le _⟩ ?_
      rw [wrap_of_lt (by omega)]
      have hzero : a₂ 0 = a i := by rw [ha₂, if_neg (by omega), hstash]
      -- the sequence with the element in its place
      have hcells : ∀ k, 1 ≤ k → Function.update a₂ left (a₂ 0) k =
          if k = left then a i else if left < k ∧ k ≤ i then a (k - 1) else a k := fun k hk => by
        rw [Function.update_apply, hzero, ha₂]
        split_ifs
        · rfl
        · exact hkeep _ (by omega)
        · exact hkeep k hk
      generalize Function.update a₂ left (a₂ 0) = a₃ at hcells ⊢
      obtain ⟨hstable, hnext⟩ := inserted hle hlow hhigh hmore hcells hsorted
        (fun k hk hk' => by
          rw [← hkeep k hk, ← hstash]
          exact hleft.below k hk hk')
        (fun k hk hk' => by
          rw [← hkeep k (by omega), ← hstash]
          exact hleft.above k hk hk')
      exact (ih (i := i + 1) (by omega) (by omega) hnext).mono fun a' ha' => ⟨hstable.trans ha'.1, ha'.2⟩
    · rw [if_neg hmore]
      exact Runs.ok ⟨Stable.refl _ _, fun x y hx hxy hy => hsorted x y hx hxy (by omega)⟩

theorem binaryInsertSort_runs (hle : Preordered le) (hnum : numItems < 2 ^ 63) (a : Nat → α) :
    Runs allowed (binaryInsertSort le numItems (numItems + 1) a) fun a' =>
      Stable le (segment a 1 numItems) (segment a' 1 numItems) ∧ SortedOn le 1 numItems a' :=
  insertBinary_runs hle hnum (by decide) (Nat.lt_succ_self _) (by omega) fun i j hi hij hj => by omega

end binary
end NewM2.Winrt.SortLib
