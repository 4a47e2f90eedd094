import Mathlib
import NewM2.Winrt.SortLib.Swapping

/-!
# MergeSort (`library/winrtmod/SortLib.mod`)

The data and the scratch are regions of the sequence: element `k` of the region with the base `b` is at the
index `b + k`. A pass merges runs of length `p` from one region into the other, where the runs have the length
`2 * p` then. -/

namespace NewM2.Winrt.SortLib
open Sequence

section merge
variable {α : Type} (le : α → α → Bool) (numItems : Nat)

/-- `WHILE x < stop DO assign(db + k, sb + x); INC(x); INC(k) END`: the last `k`. -/
def copyRun (sb db stop x k : Nat) (a : Nat → α) : Except Stop (Nat × (Nat → α)) :=
  if x < stop then do
    let a ← assign 1 (2 * numItems) (wrap (db + k)) (wrap (sb + x)) a
    copyRun sb db stop (x + 1) (wrap (k + 1)) a
  else .ok (k, a)
termination_by stop - x

/-- `Merge` from its first loop on; `x` and `y` are the variables `a` and `b`. -/
def mergeFrom (sb db mid hi x y k : Nat) (a : Nat → α) : Except Stop (Nat → α) :=
  if x < mid ∧ y < hi then do
    let first ← lessEq le 1 (2 * numItems) (wrap (sb + x)) (wrap (sb + y)) true a
    if first then do
      let a ← assign 1 (2 * numItems) (wrap (db + k)) (wrap (sb + x)) a
      mergeFrom sb db mid hi (x + 1) y (wrap (k + 1)) a
    else do
      let a ← assign 1 (2 * numItems) (wrap (db + k)) (wrap (sb + y)) a
      mergeFrom sb db mid hi x (y + 1) (wrap (k + 1)) a
  else do
    let (k, a) ← copyRun numItems sb db mid x k a
    let (_, a) ← copyRun numItems sb db hi y k a
    .ok a
termination_by (mid - x) + (hi - y)

/-- `IF e > numItems + 1 THEN e := numItems + 1 END` -/
def clamp (e : Nat) : Nat := if wrap (numItems + 1) < e then wrap (numItems + 1) else e

/-- The loop over `i`. -/
def mergePass (sb db p : Nat) : Nat → Nat → (Nat → α) → Except Stop (Nat → α)
  | 0, _, _ => .error .fuel
  | n + 1, i, a =>
    if i ≤ numItems then do
      let mid := clamp numItems (wrap (i + p))
      let hi := clamp numItems (wrap (i + 2 * p))
      let a ← mergeFrom le numItems sb db mid hi i mid i a
      mergePass sb db p n (wrap (i + 2 * p)) a
    else .ok a

/-- The loop over `p`: the last `srcBase`. -/
def mergePasses (fuel : Nat) : Nat → Nat → Nat → Nat → (Nat → α) → Except Stop (Nat × (Nat → α))
  | 0, _, _, _, _ => .error .fuel
  | n + 1, srcBase, dstBase, p, a =>
    if p < numItems then do
      let a ← mergePass le numItems srcBase dstBase p fuel 1 a
      mergePasses fuel n dstBase srcBase (wrap (p * 2)) a
    else .ok (srcBase, a)

/-- `WHILE i <= numItems DO assign(i, srcBase + i); INC(i) END` -/
def copyBack (srcBase : Nat) : Nat → Nat → (Nat → α) → Except Stop (Nat → α)
  | 0, _, _ => .error .fuel
  | n + 1, i, a =>
    if i ≤ numItems then do
      let a ← assign 1 (2 * numItems) i (wrap (srcBase + i)) a
      copyBack srcBase n (wrap (i + 1)) a
    else .ok a

def mergeSort (fuel : Nat) (a : Nat → α) : Except Stop (Nat → α) :=
  if numItems < 2 then .ok a
  else do
    let (srcBase, a) ← mergePasses le numItems fuel fuel 0 numItems 1 a
    if srcBase ≠ 0 then copyBack numItems srcBase fuel 1 a else .ok a

end merge

/-! ## Merging two runs -/

section merge
variable {α : Type} {le : α → α → Bool} {numItems sb db mid hi p : Nat} {a : Nat → α} {allowed : Stop → Prop}

/-- The bases of the two regions. -/
def Bases (numItems sb db : Nat) : Prop := sb = 0 ∧ db = numItems ∨ sb = numItems ∧ db = 0

theorem Bases.symm_bases (h : Bases numItems sb db) : Bases numItems db sb :=
  h.symm.imp And.symm And.symm

theorem Bases.bounds (h : Bases numItems sb db) : sb ≤ numItems ∧ db ≤ numItems := by
  rw [Bases] at h
  omega

theorem copyRun_runs {stop x k : Nat} {a : Nat → α} (hnum : numItems < 2 ^ 63) (hbases : Bases numItems sb db)
    (hx : 1 ≤ x) (hstop : stop ≤ numItems + 1) (hk : 1 ≤ k) (hk' : k + (stop - x) ≤ numItems + 1) :
    Runs allowed (copyRun numItems sb db stop x k a) fun r => r.1 = k + (stop - x) ∧
      ∀ m, r.2 m = if db + k ≤ m ∧ m < db + k + (stop - x) then a (sb + x + (m - (db + k))) else a m := by
  rw [Bases] at hbases
  rw [copyRun]
  by_cases hmore : x < stop
  · rw [if_pos hmore, wrap_of_lt (n := db + k) (by omega), wrap_of_lt (n := sb + x) (by omega)]
    refine assign_bind ⟨by omega, by omega⟩ ⟨by omega, by omega⟩ ?_
    rw [wrap_of_lt (by omega)]
    refine (copyRun_runs hnum hbases (by omega) hstop (by omega) (by omega)).mono ?_
    rintro ⟨k', a'⟩ ⟨hk', ha'⟩
    dsimp only at hk' ha' ⊢
    refine ⟨by omega, fun m => ?_⟩
    rw [ha', Function.update_apply, Function.update_apply]
    rcases Nat.lt_trichotomy m (db + k) with hm | rfl | hm
    · rw [if_neg (by omega), if_neg (by omega), if_neg (by omega)]
    · rw [if_neg (by omega), if_pos rfl, if_pos (by omega), Nat.sub_self, Nat.add_zero]
    · by_cases hin : m < db + k + (stop - x)
      · rw [if_pos (by omega), if_neg (by omega), if_pos (by omega)]
        congr 1
        omega
      · rw [if_neg (by omega), if_neg (by omega), if_neg (by omega)]
  · rw [if_neg hmore]
    refine Runs.ok ⟨by dsimp only; omega, fun m => ?_⟩
    rw [if_neg (by omega)]
termination_by stop - x

/-- What is left of the two runs is merged into what is left of the other region. -/
structure Merged (le : α → α → Bool) (sb db mid hi x y k : Nat) (a a' : Nat → α) : Prop where
  outside : ∀ m, m < db + k ∨ db + hi ≤ m → a' m = a m
  merged : segment a' (db + k) (hi - k) =
    (segment a (sb + x) (mid - x)).merge (segment a (sb + y) (hi - y)) le

theorem mergeFrom_runs {x y k : Nat} {a : Nat → α} (hnum : numItems < 2 ^ 63)
    (hbases : Bases numItems sb db) (hx : 1 ≤ x) (hxm : x ≤ mid) (hmy : mid ≤ y) (hyh : y ≤ hi)
    (hhi : hi ≤ numItems + 1) (hk : 1 ≤ k) (hsum : k + (mid - x) + (hi - y) = hi) :
    Runs allowed (mergeFrom le numItems sb db mid hi x y k a) (Merged le sb db mid hi x y k a) := by
  obtain ⟨hsb, hdb⟩ := hbases.bounds
  have hplace : k + mid = x + y := by omega
  clear hsum
  rw [mergeFrom]
  by_cases hmore : x < mid ∧ y < hi
  · obtain ⟨hmx, hmy'⟩ := hmore
    rw [if_pos ⟨hmx, hmy'⟩, wrap_of_lt (n := sb + x) (by omega), wrap_of_lt (n := sb + y) (by omega),
      wrap_of_lt (n := db + k) (by omega), wrap_of_lt (n := k + 1) (by omega)]
    refine lessEq_bind ⟨by omega, by omega⟩ ⟨by omega, by omega⟩ ?_
    rw [if_pos rfl]
    -- the source is not written to
    have hkeep : ∀ (v : α) (s n : Nat), sb + 1 ≤ s → s + n ≤ sb + hi →
        segment (Function.update a (db + k) v) s n = segment a s n := fun v s n hs hn =>
      segment_congr fun m hm hm' => Function.update_of_ne (by rw [Bases] at hbases; omega) _ _
    have hsplit : ∀ (b : Nat → α) (s e : Nat), s < e → segment b (sb + s) (e - s) =
        b (sb + s) :: segment b (sb + (s + 1)) (e - (s + 1)) := fun b s e hs => by
      rw [show e - s = e - (s + 1) + 1 by omega, segment_succ, Nat.add_assoc]
    have hdst : ∀ b : Nat → α, segment b (db + k) (hi - k) =
        b (db + k) :: segment b (db + (k + 1)) (hi - (k + 1)) := fun b => by
      rw [show hi - k = hi - (k + 1) + 1 by omega, segment_succ, Nat.add_assoc]
    by_cases hfirst : le (a (sb + x)) (a (sb + y)) = true
    · rw [if_pos hfirst]
      refine assign_bind ⟨by omega, by omega⟩ ⟨by omega, by omega⟩ ?_
      refine (mergeFrom_runs hnum hbases (by omega) hmx hmy hyh hhi (by omega) (by omega)).mono fun a' ha' => ?_
      have hmerged := ha'.merged
      rw [hkeep _ _ _ (by omega) (by omega), hkeep _ _ _ (by omega) (by omega)] at hmerged
      refine ⟨fun m hm => ?_, ?_⟩
      · rw [ha'.outside m (by omega), Function.update_of_ne (by omega)]
      · rw [hdst, hmerged, ha'.outside _ (by omega), Function.update_self, hsplit a x mid hmx, hsplit a y hi hmy',
          List.cons_merge_cons_pos _ _ _ hfirst]
    · rw [if_neg hfirst]
      refine assign_bind ⟨by omega, by omega⟩ ⟨by omega, by omega⟩ ?_
      refine (mergeFrom_runs hnum hbases hx hxm (by omega) hmy' hhi (by omega) (by omega)).mono fun a' ha' => ?_
      have hmerged := ha'.merged
      rw [hkeep _ _ _ (by omega) (by omega), hkeep _ _ _ (by omega) (by omega)] at hmerged
      refine ⟨fun m hm => ?_, ?_⟩
      · rw [ha'.outside m (by omega), Function.update_of_ne (by omega)]
      · rw [hdst, hmerged, ha'.outside _ (by omega), Function.update_self, hsplit a x mid hmx, hsplit a y hi hmy',
          List.cons_merge_cons_neg _ _ _ hfirst]
  · rw [if_neg hmore]
    refine (copyRun_runs hnum hbases hx (by omega) hk (by omega)).bind ?_
    rintro ⟨k₁, a₁⟩ ⟨hk₁, ha₁⟩
    dsimp only at hk₁ ha₁ ⊢
    refine (copyRun_runs hnum hbases (by omega) (by omega) (by omega) (by omega)).bind ?_
    rintro ⟨k₂, a₂⟩ ⟨hk₂, ha₂⟩
    dsimp only at hk₂ ha₂ ⊢
    rw [Bases] at hbases
    clear hsb hdb
    refine Runs.ok ⟨fun m hm => ?_, ?_⟩
    · rw [ha₂, if_neg (by omega), ha₁, if_neg (by omega)]
    · -- one of the runs is empty
      rcases not_and_or.1 hmore with hend | hend
      · rw [show mid - x = 0 by omega, segment_zero, List.nil_merge, show hi - k = hi - y by omega]
        refine segment_move fun m hm => ?_
        rw [ha₂, if_pos (by omega), ha₁, if_neg (by omega)]
        congr 1
        omega
      · rw [show hi - y = 0 by omega, segment_zero, List.merge_right, show hi - k = mid - x by omega]
        refine segment_move fun m hm => ?_
        rw [ha₂, if_neg (by omega), ha₁, if_pos (by omega)]
        congr 1
        omega
termination_by (mid - x) + (hi - y)

/-! ## A pass -/

/-- The runs of length `p` in the region are sorted. -/
def RunsSorted (le : α → α → Bool) (numItems p base : Nat) (a : Nat → α) : Prop :=
  ∀ x y, 1 ≤ x → x < y → y ≤ numItems → (x - 1) / p = (y - 1) / p → le (a (base + x)) (a (base + y))

theorem RunsSorted.pairwise {s n c : Nat} (h : RunsSorted le numItems p sb a) (hs : s = 1 + p * c) (hn : n ≤ p)
    (hlast : s + n ≤ numItems + 1) : (segment a (sb + s) n).Pairwise fun x y => le x y := by
  refine pairwise_segment fun i j hi hij hj => ?_
  have hquot : ∀ m, sb + s ≤ m → m < sb + s + n → (m - sb - 1) / p = c := fun m hm hm' =>
    Nat.div_eq_of_lt_le (by rw [Nat.mul_comm]; omega) (by rw [Nat.add_mul, Nat.mul_comm c p]; omega)
  have hle := h (i - sb) (j - sb) (by omega) (by omega) (by omega)
    ((hquot i hi (by omega)).trans (hquot j (by omega) hj).symm)
  rwa [Nat.add_sub_cancel' (by omega), Nat.add_sub_cancel' (by omega)] at hle

/-- The rest of a pass, from the element `i` on. -/
structure Passed (le : α → α → Bool) (numItems sb db p i : Nat) (a a' : Nat → α) : Prop where
  outside : ∀ m, m < db + i ∨ db + numItems < m → a' m = a m
  stable : Stable le (segment a (sb + i) (numItems + 1 - i)) (segment a' (db + i) (numItems + 1 - i))
  sorted : ∀ x y, i ≤ x → x < y → y ≤ numItems → (x - 1) / (2 * p) = (y - 1) / (2 * p) →
    le (a' (db + x)) (a' (db + y))

/-- The source is as it was. -/
theorem Merged.source {i : Nat} {a₁ : Nat → α} (h : Merged le sb db mid hi i mid i a a₁)
    (hbases : Bases numItems sb db) (hpos : 1 ≤ i) (hhi : hi ≤ numItems + 1) {m : Nat} (hm : 1 ≤ m)
    (hm' : m ≤ numItems) : a₁ (sb + m) = a (sb + m) := by
  rw [Bases] at hbases
  exact h.outside _ (by omega)

theorem Merged.runsSorted {i : Nat} {a₁ : Nat → α} (h : Merged le sb db mid hi i mid i a a₁)
    (hbases : Bases numItems sb db) (hpos : 1 ≤ i) (hhi : hi ≤ numItems + 1)
    (hsorted : RunsSorted le numItems p sb a) : RunsSorted le numItems p sb a₁ := by
  intro x y hx hxy hy hquot
  rw [h.source hbases hpos hhi hx (by omega), h.source hbases hpos hhi (by omega) hy]
  exact hsorted x y hx hxy hy hquot

/-- Two runs are merged, and then the rest of the pass is made. -/
theorem Passed.step (hle : Preordered le) (hbases : Bases numItems sb db) (hp : 1 ≤ p) {i c : Nat}
    {a₁ a' : Nat → α} (his : i = 1 + 2 * p * c) (hmore : i ≤ numItems)
    (hmid : mid = min (i + p) (numItems + 1)) (hhi : hi = min (i + 2 * p) (numItems + 1))
    (hmerged : Merged le sb db mid hi i mid i a a₁) (hsorted : RunsSorted le numItems p sb a)
    (h : Passed le numItems sb db p (i + 2 * p) a₁ a') : Passed le numItems sb db p i a a' := by
  have hpos : 1 ≤ i := by omega
  have hends : i ≤ mid ∧ mid ≤ i + p ∧ mid ≤ hi ∧ hi ≤ mid + p ∧ hi ≤ numItems + 1 := by omega
  obtain ⟨him, hmp, hmh, hhp, hhn⟩ := hends
  have hfull : numItems < hi ∨ hi = i + 2 * p := by omega
  have hbegin : mid = hi ∨ mid = i + p := by omega
  clear hmid hhi
  have hfront : ∀ m, m < db + hi → a' m = a₁ m := fun m hm => h.outside m (.inl (by omega))
  have hleft : (segment a (sb + i) (mid - i)).Pairwise fun x y => le x y :=
    hsorted.pairwise (c := 2 * c) (by rw [his]; ring) (by omega) (by omega)
  have hsecond : i + p = 1 + p * (2 * c + 1) := by
    rw [his]
    ring
  generalize hq : 2 * p * c = q at his
  constructor
  · intro m hm
    rw [h.outside m (by omega), hmerged.outside m (by omega)]
  · have hsrc : segment a (sb + i) (numItems + 1 - i) = segment a (sb + i) (mid - i) ++
        segment a (sb + mid) (hi - mid) ++ segment a (sb + hi) (numItems + 1 - hi) := by
      rw [show numItems + 1 - i = mid - i + (hi - mid) + (numItems + 1 - hi) by omega, segment_append,
        segment_append, show sb + i + (mid - i) = sb + mid by omega,
        show sb + i + (mid - i + (hi - mid)) = sb + hi by omega]
    have hdst : segment a' (db + i) (numItems + 1 - i) =
        (segment a (sb + i) (mid - i)).merge (segment a (sb + mid) (hi - mid)) le ++
          segment a' (db + hi) (numItems + 1 - hi) := by
      rw [show numItems + 1 - i = hi - i + (numItems + 1 - hi) by omega, segment_append,
        show db + i + (hi - i) = db + hi by omega, ← hmerged.merged]
      congr 1
      exact segment_congr fun m _ hm => hfront m (by omega)
    rw [hsrc, hdst]
    refine (Stable.merge hle hleft).append ?_
    by_cases hmore' : i + 2 * p ≤ numItems
    · have hstable := h.stable
      rw [show i + 2 * p = hi by omega] at hstable
      have hsource : segment a₁ (sb + hi) (numItems + 1 - hi) = segment a (sb + hi) (numItems + 1 - hi) :=
        segment_congr fun m hm hm' => by
          have hback : m = sb + (m - sb) := by omega
          rw [hback]
          exact hmerged.source hbases hpos (by omega) (by omega) (by omega)
      rwa [hsource] at hstable
    · rw [show numItems + 1 - hi = 0 by omega, segment_zero, segment_zero]
      exact Stable.refl le []
  · intro x y hx hxy hy hquot
    by_cases hyh : y < hi
    · rw [hfront _ (by omega), hfront _ (by omega)]
      have hright : (segment a (sb + mid) (hi - mid)).Pairwise fun x y => le x y := by
        by_cases hempty : hi = mid
        · rw [hempty, Nat.sub_self, segment_zero]
          exact .nil
        · have hstart : mid = 1 + p * (2 * c + 1) :=
            (hbegin.resolve_left (Ne.symm hempty)).trans hsecond
          clear hsecond
          exact hsorted.pairwise hstart (by omega) (by omega)
      have hall := @List.pairwise_merge _ le hle.trans (fun x y => by simpa using hle.total x y) _ _
        hleft hright
      rw [← hmerged.merged] at hall
      exact of_pairwise_segment hall (by omega) (by omega) (by omega)
    · have hend : hi = i + 2 * p := by omega
      rcases Nat.lt_or_ge x (i + 2 * p) with hx' | hx'
      · exfalso
        have hlow : (x - 1) / (2 * p) < c + 1 := by
          rw [Nat.div_lt_iff_lt_mul (by omega), Nat.mul_comm, Nat.mul_succ, hq]
          omega
        have hhigh : c + 1 ≤ (y - 1) / (2 * p) := by
          rw [Nat.le_div_iff_mul_le (by omega), Nat.mul_comm, Nat.mul_succ, hq]
          omega
        omega
      · exact h.sorted x y hx' hxy hy hquot

theorem clamp_eq (hnum : numItems < 2 ^ 63) (e : Nat) : clamp numItems e = min e (numItems + 1) := by
  rw [clamp, wrap_of_lt (by omega)]
  split_ifs <;> omega

theorem mergePass_runs {n i c : Nat} {a : Nat → α} (hle : Preordered le) (hnum : numItems < 2 ^ 63)
    (hbases : Bases numItems sb db) (hp : 1 ≤ p) (hp' : p ≤ 2 ^ 62) (his : i = 1 + 2 * p * c)
    (hn : numItems + 1 - i < n) (hsorted : RunsSorted le numItems p sb a) :
    Runs allowed (mergePass le numItems sb db p n i a) (Passed le numItems sb db p i a) := by
  induction n generalizing i c a with
  | zero => omega
  | succ n ih =>
    rw [mergePass]
    by_cases hmore : i ≤ numItems
    · have hbases' := hbases
      rw [Bases] at hbases'
      rw [if_pos hmore, wrap_of_lt (n := i + p) (by omega), wrap_of_lt (n := i + 2 * p) (by omega),
        clamp_eq hnum, clamp_eq hnum]
      dsimp only
      obtain ⟨mid, hmid⟩ : ∃ mid, mid = min (i + p) (numItems + 1) := ⟨_, rfl⟩
      obtain ⟨hi, hhi⟩ : ∃ hi, hi = min (i + 2 * p) (numItems + 1) := ⟨_, rfl⟩
      rw [← hmid, ← hhi]
      have hpos : 1 ≤ i := his ▸ Nat.le_add_right ..
      obtain ⟨him, hmh, hhn⟩ : i ≤ mid ∧ mid ≤ hi ∧ hi ≤ numItems + 1 := by
        clear his
        omega
      refine (mergeFrom_runs hnum hbases hpos him le_rfl hmh hhn hpos
        (by clear hmid hhi his; omega)).bind fun a₁ ha₁ => ?_
      exact (ih (c := c + 1) (by rw [his, Nat.mul_succ]; omega) (by clear hmid hhi his; omega)
        (ha₁.runsSorted hbases hpos hhn hsorted)).mono fun a' ha' =>
          ha'.step hle hbases hp his hmore hmid hhi ha₁ hsorted
    · rw [if_neg hmore]
      refine Runs.ok ⟨fun _ _ => rfl, ?_, fun x y hx hxy hy => by omega⟩
      rw [show numItems + 1 - i = 0 by omega, segment_zero, segment_zero]
      exact Stable.refl le []

/-! ## MergeSort sorts -/

/-- The region at `base` is sorted. -/
def RegionSorted (le : α → α → Bool) (numItems base : Nat) (a : Nat → α) : Prop :=
  ∀ x y, 1 ≤ x → x < y → y ≤ numItems → le (a (base + x)) (a (base + y))

theorem mergePasses_runs {fuel n sb db e : Nat} {a : Nat → α} (hle : Preordered le) (hnum : numItems < 2 ^ 63)
    (hbases : Bases numItems sb db) (hp : p = 2 ^ e) (hfuel : numItems < fuel) (hn : numItems - p < n)
    (hsorted : RunsSorted le numItems p sb a) :
    Runs allowed (mergePasses le numItems fuel n sb db p a) fun r => (r.1 = 0 ∨ r.1 = numItems) ∧
      Stable le (segment a (sb + 1) numItems) (segment r.2 (r.1 + 1) numItems) ∧
      RegionSorted le numItems r.1 r.2 := by
  induction n generalizing sb db p e a with
  | zero => omega
  | succ n ih =>
    have hpos : 1 ≤ p := hp ▸ Nat.one_le_two_pow
    rw [mergePasses]
    by_cases hmore : p < numItems
    · have hexp : p ≤ 2 ^ 62 := by
        have hlt : 2 ^ e < 2 ^ 63 := by omega
        rw [hp]
        exact Nat.pow_le_pow_right (by decide) (Nat.le_of_lt_succ ((Nat.pow_lt_pow_iff_right (by decide)).1 hlt))
      rw [if_pos hmore, wrap_of_lt (by omega)]
      refine (mergePass_runs (c := 0) hle hnum hbases hpos hexp (by omega) (by omega) hsorted).bind
        fun a₁ ha₁ => ?_
      have hstable := ha₁.stable
      rw [Nat.add_sub_cancel] at hstable
      have hsorted₁ : RunsSorted le numItems (p * 2) db a₁ := by
        rw [Nat.mul_comm]
        exact ha₁.sorted
      refine (ih hbases.symm_bases (e := e + 1) (by rw [hp, pow_succ]) (by omega) hsorted₁).mono fun r hr => ?_
      exact ⟨hr.1, hstable.trans hr.2.1, hr.2.2⟩
    · rw [if_neg hmore]
      refine Runs.ok ⟨hbases.imp And.left And.left, Stable.refl le _, fun x y hx hxy hy => ?_⟩
      exact hsorted x y hx hxy hy (by rw [Nat.div_eq_of_lt (by omega), Nat.div_eq_of_lt (by omega)])

theorem copyBack_runs {n i : Nat} {a : Nat → α} (hnum : numItems < 2 ^ 63) (hi : 1 ≤ i)
    (hn : numItems + 1 - i < n) : Runs allowed (copyBack numItems numItems n i a) fun a' =>
      ∀ m, a' m = if i ≤ m ∧ m ≤ numItems then a (numItems + m) else a m := by
  induction n generalizing i a with
  | zero => omega
  | succ n ih =>
    rw [copyBack]
    by_cases hmore : i ≤ numItems
    · rw [if_pos hmore, wrap_of_lt (n := numItems + i) (by omega), wrap_of_lt (by omega)]
      refine assign_bind ⟨hi, by omega⟩ ⟨by omega, by omega⟩ ?_
      refine (ih (by omega) (by omega)).mono fun a' ha' m => ?_
      rw [ha']
      by_cases hin : i + 1 ≤ m ∧ m ≤ numItems
      · rw [if_pos hin, Function.update_of_ne (by omega), if_pos (by omega)]
      · rw [if_neg hin, Function.update_apply]
        by_cases hmi : m = i
        · rw [if_pos hmi, if_pos (by omega), hmi]
        · rw [if_neg hmi, if_neg (by omega)]
    · rw [if_neg hmore]
      exact Runs.ok fun m => by rw [if_neg (by omega)]

theorem mergeSort_runs (hle : Preordered le) (hnum : numItems < 2 ^ 63) (a : Nat → α) :
    Runs allowed (mergeSort le numItems (numItems + 1) a) fun a' =>
      Stable le (segment a 1 numItems) (segment a' 1 numItems) ∧ SortedOn le 1 numItems a' := by
  rw [mergeSort]
  by_cases hsmall : numItems < 2
  · rw [if_pos hsmall]
    exact Runs.ok ⟨Stable.refl le _, fun i j hi hij hj => by omega⟩
  rw [if_neg hsmall]
  have hruns : RunsSorted le numItems 1 0 a := fun x y hx hxy hy hquot => by
    rw [Nat.div_one, Nat.div_one] at hquot
    omega
  refine (mergePasses_runs (e := 0) hle hnum (.inl ⟨rfl, rfl⟩) rfl (Nat.lt_succ_self _) (by omega) hruns).bind ?_
  rintro ⟨base, a₁⟩ ⟨hbase, hstable, hsorted⟩
  dsimp only at hbase hstable hsorted ⊢
  rw [Nat.zero_add] at hstable
  rcases hbase with rfl | rfl
  · rw [if_neg (not_not.2 rfl)]
    rw [Nat.zero_add] at hstable
    refine Runs.ok ⟨hstable, fun i j hi hij hj => ?_⟩
    have hle := hsorted i j hi hij hj
    rwa [Nat.zero_add, Nat.zero_add] at hle
  · rw [if_pos (by omega)]
    refine (copyBack_runs hnum le_rfl (by omega)).mono fun a' ha' => ⟨?_, fun i j hi hij hj => ?_⟩
    · have hcopy : segment a' 1 base = segment a₁ (base + 1) base := segment_move fun k hk => by
        rw [ha', if_pos (by omega), Nat.add_assoc]
      rwa [hcopy]
    · rw [ha', ha', if_pos (by omega), if_pos (by omega)]
      exact hsorted i j hi hij hj

end merge
end NewM2.Winrt.SortLib
