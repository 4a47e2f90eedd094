import NewM2.Ir.Transfer
import NewM2.Lib.Progression

/-! # FOR loops (`newm2-ir/src/lower.rs`, `lower_for`)

The blocks of the lowered loop are the functions `header`, `fits` and `advance` on the word in the
control variable's slot, and `run` follows the branches between them. All tests are signed operations
on zero-extended words. `headTest` and `fitsTest` are these tests on numbers (`run_succ`), and
`executes_iff` compares them with the range that the loop should run through. -/

namespace NewM2.Ir
open Sema Codegen Lib

/-- A FOR loop with the words that its start, end and step expressions evaluate to. -/
structure ForLoop where
  controlType : Ty
  /-- The control variable is in the locals map. Otherwise the loop allocates a slot of its own. -/
  isLocal : Bool
  start : IntValue
  endVal : IntValue
  step : IntValue
  start_pos : 0 < start.width
  end_pos : 0 < endVal.width
  step_pos : 0 < step.width

namespace ForLoop

/-- The slot of the control variable, or the fresh slot of type INTEGER. -/
def slotWidth (f : ForLoop) : Nat := if f.isLocal then f.controlType.width else 64

def stepNonneg (f : ForLoop) : Option IntValue := emitBinary .ge f.step (.ofInt 64 0)

/-- `for_cond`: the condition of the loop. -/
def header (f : ForLoop) (cur : IntValue) : Option IntValue := do
  let le ← emitBinary .le cur f.endVal
  let ge ← emitBinary .ge cur f.endVal
  let stepNonneg ← f.stepNonneg
  let stepNeg := emitUnary .not stepNonneg
  let asc ← emitBinary .and stepNonneg le
  let desc ← emitBinary .and stepNeg ge
  emitBinary .or asc desc

/-- `for_step`: whether another whole step fits. -/
def fits (f : ForLoop) (cur : IntValue) : Option IntValue := do
  let roomAsc ← emitBinary .sub f.endVal cur
  let roomDesc ← emitBinary .sub cur f.endVal
  let negStep ← emitBinary .sub (.ofInt 64 0) f.step
  let stepNonneg ← f.stepNonneg
  let stepNeg := emitUnary .not stepNonneg
  let fitsAsc0 ← emitBinary .ge roomAsc f.step
  let fitsAsc ← emitBinary .and stepNonneg fitsAsc0
  let fitsDesc0 ← emitBinary .ge roomDesc negStep
  let fitsDesc ← emitBinary .and stepNeg fitsDesc0
  emitBinary .or fitsAsc fitsDesc

/-- `for_advance`. -/
def advance (f : ForLoop) (cur : IntValue) : Option IntValue := do
  let next ← emitBinary .add cur f.step
  some (next.coerceInt f.slotWidth)

/-- The slot's words at the executions of the body, and the word left in it. -/
def run (f : ForLoop) : Nat → IntValue → Option (List IntValue × IntValue)
  | 0, _ => none
  | fuel + 1, cur => do
    if (← f.header cur) = .ofInt 1 1 then
      if (← f.fits cur) = .ofInt 1 1 then
        let (rest, last) ← f.run fuel (← f.advance cur)
        some (cur :: rest, last)
      else some ([cur], cur)
    else some ([], cur)

/-- What occurrences of the control variable read after the loop: the slot, and outside this procedure
the storage of a variable that is not local, which still holds `old`. -/
def control (f : ForLoop) (old last : IntValue) : List IntValue :=
  if f.isLocal then [last] else [last, old]

/-- The loop ends, its body was executed for the numbers from `s` by `st` up to `e`, and the control
variable is left at the last of them. -/
def Executes (f : ForLoop) (old : IntValue) (s e st : Int) : Prop :=
  ∃ fuel values last, f.run fuel (f.start.coerceInt f.slotWidth) = some (values, last) ∧
    List.Forall₂ IntValue.Represents values (progression e st s) ∧
    ∀ v ∈ f.control old last, v.Represents (lastOf e st s)

/-! ## The tests on numbers -/

variable (f : ForLoop) (e st c : Int)

/-- The common width of the control variable and the end value. -/
def testWidth : Nat := max f.slotWidth f.endVal.width

def upTest : Prop := 0 ≤ readAs true (max f.step.width 64) f.step.width st

instance : Decidable (f.upTest st) := inferInstanceAs (Decidable (_ ≤ _))

/-- The loop's condition on the readings of its operands. -/
def headTest : Prop :=
  let cur := readAs true f.testWidth f.slotWidth c
  let last := readAs true f.testWidth f.endVal.width e
  if f.upTest st then cur ≤ last else last ≤ cur

instance : Decidable (f.headTest e st c) := by
  unfold headTest; infer_instance

/-- The distance to the end against the step, on the readings. -/
def fitsTest : Prop :=
  let cur := readAs true f.testWidth f.slotWidth c
  let last := readAs true f.testWidth f.endVal.width e
  let negWidth := max 64 f.step.width
  if f.upTest st then
    let w := max f.testWidth f.step.width
    readAs true w f.step.width st ≤ readAs true w f.testWidth (last - cur)
  else
    let w := max f.testWidth negWidth
    readAs true w negWidth (0 - readAs true negWidth f.step.width st) ≤
      readAs true w f.testWidth (cur - last)

instance : Decidable (f.fitsTest e st c) := by
  unfold fitsTest; infer_instance

/-- At the value `c` of the range both tests give what they give on numbers, and the advanced value
reaches the slot. -/
def StepOk : Prop :=
  f.headTest e st c ∧ (f.fitsTest e st c ↔ Within e st (c + st)) ∧
    (Within e st (c + st) → Fits f.slotWidth (c + st) ∧ (f.slotWidth ≤ f.step.width ∨ 0 ≤ st))

/-- The start value reaches the slot. -/
def StartOk (s : Int) : Prop := Fits f.slotWidth s ∧ (f.slotWidth ≤ f.start.width ∨ 0 ≤ s)

end ForLoop

/-! ## Truth values -/

/-- The word of a truth value. -/
def truth (p : Prop) [Decidable p] : IntValue := .ofInt 1 (if p then 1 else 0)

section truth
variable {p q : Prop} [Decidable p] [Decidable q]

@[simp] theorem emitUnary_not_truth : emitUnary .not (truth p) = truth (¬ p) := by
  by_cases p <;> simp only [truth, *] <;> decide

@[simp] theorem emitBinary_and_truth : emitBinary .and (truth p) (truth q) = some (truth (p ∧ q)) := by
  by_cases p <;> by_cases q <;> simp only [truth, *] <;> decide

@[simp] theorem emitBinary_or_truth : emitBinary .or (truth p) (truth q) = some (truth (p ∨ q)) := by
  by_cases p <;> by_cases q <;> simp only [truth, *] <;> decide

@[simp] theorem truth_eq_one : truth p = .ofInt 1 1 ↔ p := by
  by_cases p <;> simp only [truth, *] <;> decide

theorem emitBinary_le {wl wr : Nat} (hw : 0 < max wl wr) (a b : Int) :
    emitBinary .le (.ofInt wl a) (.ofInt wr b) =
      some (truth (readAs true (max wl wr) wl a ≤ readAs true (max wl wr) wr b)) :=
  emitBinary_ofInt rfl hw a b

theorem emitBinary_ge {wl wr : Nat} (hw : 0 < max wl wr) (a b : Int) :
    emitBinary .ge (.ofInt wl a) (.ofInt wr b) =
      some (truth (readAs true (max wl wr) wr b ≤ readAs true (max wl wr) wl a)) :=
  emitBinary_ofInt rfl hw a b

theorem emitBinary_sub {wl wr : Nat} (hw : 0 < max wl wr) (a b : Int) :
    emitBinary .sub (.ofInt wl a) (.ofInt wr b) =
      some (.ofInt (max wl wr) (readAs true (max wl wr) wl a - readAs true (max wl wr) wr b)) :=
  emitBinary_ofInt rfl hw a b

theorem emitBinary_add {wl wr : Nat} (hw : 0 < max wl wr) (a b : Int) :
    emitBinary .add (.ofInt wl a) (.ofInt wr b) =
      some (.ofInt (max wl wr) (readAs true (max wl wr) wl a + readAs true (max wl wr) wr b)) :=
  emitBinary_ofInt rfl hw a b

end truth

@[simp] theorem readAs_zero (signed : Bool) (w wl : Nat) : readAs signed w wl 0 = 0 := by
  cases signed <;> simp [readAs]

/-- A reading is the word's number up to a multiple of two to the width. -/
theorem readAs_modEq (signed : Bool) (w wl : Nat) (x : Int) :
    readAs signed w wl x ≡ x % 2 ^ wl [ZMOD 2 ^ w] := by
  have hcast : ((2 ^ w : Nat) : Int) = 2 ^ w := by push_cast; rfl
  cases signed with
  | false => exact Int.ModEq.refl _
  | true =>
    show (x % 2 ^ wl).bmod (2 ^ w) ≡ x % 2 ^ wl [ZMOD 2 ^ w]
    rw [← hcast]
    exact Int.bmod_emod

/-! ## The blocks of the loop on numbers -/

namespace ForLoop

variable {f : ForLoop} {e st c s : Int}

theorem slotWidth_pos (f : ForLoop) : 0 < f.slotWidth := by
  unfold slotWidth
  split
  · exact f.controlType.width_pos
  · decide

theorem stepNonneg_eq (hstep : f.step.Represents st) : f.stepNonneg = some (truth (f.upTest st)) := by
  unfold stepNonneg
  rw [hstep.eq_ofInt, emitBinary_ge (lt_max_of_lt_left f.step_pos)]
  simp only [readAs_zero]
  rfl

theorem header_eq (hend : f.endVal.Represents e) (hstep : f.step.Represents st) (c : Int) :
    f.header (.ofInt f.slotWidth c) = some (truth (f.headTest e st c)) := by
  have hw : 0 < max f.slotWidth f.endVal.width := lt_max_of_lt_left f.slotWidth_pos
  unfold header
  rw [stepNonneg_eq hstep, hend.eq_ofInt, emitBinary_le hw, emitBinary_ge hw]
  simp only [Option.bind_eq_bind, Option.bind_some, emitUnary_not_truth, emitBinary_and_truth,
    emitBinary_or_truth]
  congr 2
  unfold headTest testWidth
  by_cases hup : f.upTest st <;> simp [hup]

theorem fits_eq (hend : f.endVal.Represents e) (hstep : f.step.Represents st) (c : Int) :
    f.fits (.ofInt f.slotWidth c) = some (truth (f.fitsTest e st c)) := by
  have hw : 0 < max f.slotWidth f.endVal.width := lt_max_of_lt_left f.slotWidth_pos
  have hstep64 : 0 < max 64 f.step.width := lt_max_of_lt_left (by decide)
  unfold fits
  rw [stepNonneg_eq hstep, hend.eq_ofInt, hstep.eq_ofInt, emitBinary_sub hw,
    emitBinary_sub (by rwa [max_comm]), emitBinary_sub hstep64]
  simp only [Option.bind_eq_bind, Option.bind_some]
  rw [emitBinary_ge (lt_max_of_lt_right f.step_pos), emitBinary_ge (lt_max_of_lt_right hstep64)]
  simp only [Option.bind_some, emitUnary_not_truth, emitBinary_and_truth, emitBinary_or_truth,
    readAs_zero, max_comm f.endVal.width]
  congr 2
  unfold fitsTest testWidth
  by_cases hup : f.upTest st <;> simp [hup]

theorem advance_eq (hstep : f.step.Represents st) (c : Int) :
    f.advance (.ofInt f.slotWidth c) = some (.ofInt f.slotWidth (c + st % 2 ^ f.step.width)) := by
  unfold advance
  rw [hstep.eq_ofInt, emitBinary_add (lt_max_of_lt_left f.slotWidth_pos)]
  simp only [Option.bind_eq_bind, Option.bind_some, IntValue.coerceInt, IntValue.resize_ofInt]
  refine congrArg (fun b => some (IntValue.mk f.slotWidth b)) (IntValue.ofInt_eq_iff.2 ?_)
  have hdvd : (2 : Int) ^ f.slotWidth ∣ 2 ^ max f.slotWidth f.step.width :=
    pow_dvd_pow 2 (le_max_left ..)
  calc _ ≡ readAs true (max f.slotWidth f.step.width) f.slotWidth c +
        readAs true (max f.slotWidth f.step.width) f.step.width st [ZMOD 2 ^ f.slotWidth] :=
        (Int.mod_modEq _ _).of_dvd hdvd
    _ ≡ c % 2 ^ f.slotWidth + st % 2 ^ f.step.width [ZMOD 2 ^ f.slotWidth] :=
        ((readAs_modEq ..).of_dvd hdvd).add ((readAs_modEq ..).of_dvd hdvd)
    _ ≡ c + st % 2 ^ f.step.width [ZMOD 2 ^ f.slotWidth] := (Int.mod_modEq _ _).add_right _

theorem run_succ (hend : f.endVal.Represents e) (hstep : f.step.Represents st) (fuel : Nat) (c : Int) :
    f.run (fuel + 1) (.ofInt f.slotWidth c) =
      if f.headTest e st c then
        if f.fitsTest e st c then
          (f.run fuel (.ofInt f.slotWidth (c + st % 2 ^ f.step.width))).map fun r =>
            (.ofInt f.slotWidth c :: r.1, r.2)
        else some ([.ofInt f.slotWidth c], .ofInt f.slotWidth c)
      else some ([], .ofInt f.slotWidth c) := by
  simp only [run, header_eq hend hstep, fits_eq hend hstep, advance_eq hstep, Option.bind_eq_bind,
    Option.bind_some, truth_eq_one]
  split
  · split
    · cases f.run fuel (.ofInt f.slotWidth (c + st % 2 ^ f.step.width)) <;> rfl
    · rfl
  · rfl

/-! ## The loop -/

/-- The run from a slot that holds the word of `c` is the run over the range from `c`. -/
def RunsFrom (f : ForLoop) (e st c : Int) : Prop :=
  ∃ fuel r, f.run fuel (.ofInt f.slotWidth c) = some r ∧
    List.Forall₂ IntValue.Represents r.1 (progression e st c) ∧ r.2.Represents (lastOf e st c)

theorem represents_slot {x y : Int} :
    (IntValue.ofInt f.slotWidth x).Represents y ↔
      x ≡ y [ZMOD 2 ^ f.slotWidth] ∧ Fits f.slotWidth y := IntValue.represents_ofInt

theorem RunsFrom.congr {c' : Int} (h : c ≡ c' [ZMOD 2 ^ f.slotWidth])
    (hrun : ∃ fuel r, f.run fuel (.ofInt f.slotWidth c) = some r ∧
      List.Forall₂ IntValue.Represents r.1 (progression e st c') ∧ r.2.Represents (lastOf e st c')) :
    f.RunsFrom e st c' := by
  rwa [RunsFrom, show IntValue.ofInt f.slotWidth c' = .ofInt f.slotWidth c from
    congrArg (IntValue.mk _) (IntValue.ofInt_eq_iff.2 h.symm)]

/-- A run from a word whose number is in the range executes the body first with that word. -/
theorem first_of_run (hend : f.endVal.Represents e) (hstep : f.step.Represents st) {fuel : Nat}
    {r : List IntValue × IntValue} (h : f.run fuel (.ofInt f.slotWidth c) = some r) :
    if f.headTest e st c then r.1.head? = some (.ofInt f.slotWidth c)
    else r = ([], .ofInt f.slotWidth c) := by
  obtain _ | fuel := fuel
  · cases h
  rw [run_succ hend hstep] at h
  split at h
  · next hhead =>
    rw [if_pos hhead]
    split at h
    · obtain ⟨_, _, rfl⟩ := Option.map_eq_some_iff.1 h
      rfl
    · cases h
      rfl
  · next hhead =>
    rw [if_neg hhead]
    exact (Option.some.inj h).symm

/-- Whether the loop runs from `c` depends on the word of `c` alone. -/
theorem headTest_congr {c' : Int} (h : c ≡ c' [ZMOD 2 ^ f.slotWidth]) :
    f.headTest e st c ↔ f.headTest e st c' := by
  have hread : readAs true f.testWidth f.slotWidth c = readAs true f.testWidth f.slotWidth c' := by
    unfold readAs
    rw [h]
  unfold headTest
  rw [hread]

/-- Past the range the loop must not run. -/
theorem runsFrom_past (hend : f.endVal.Represents e) (hstep : f.step.Represents st)
    (hfits : Fits f.slotWidth c) (hpast : ¬ Within e st c) :
    f.RunsFrom e st c ↔ ¬ f.headTest e st c := by
  unfold RunsFrom
  rw [progression_of_not_within hpast, lastOf_of_not_within hpast]
  constructor
  · rintro ⟨fuel, r, hrun, htrace, -⟩ hhead
    have hfirst := first_of_run hend hstep hrun
    rw [if_pos hhead, List.forall₂_nil_right_iff.1 htrace] at hfirst
    cases hfirst
  · intro hhead
    refine ⟨1, ([], .ofInt f.slotWidth c), ?_, .nil, represents_slot.2 ⟨.rfl, hfits⟩⟩
    rw [run_succ hend hstep, if_neg hhead]

/-- In the range: the body is executed for `c`, and the rest is the run from `c + st`, if that is in
the range. -/
theorem runsFrom_within (hst : st ≠ 0) (hend : f.endVal.Represents e) (hstep : f.step.Represents st)
    (hfits : Fits f.slotWidth c) (hin : Within e st c) :
    f.RunsFrom e st c ↔
      f.StepOk e st c ∧ (Within e st (c + st) → f.RunsFrom e st (c + st)) := by
  have hcur : (IntValue.ofInt f.slotWidth c).Represents c := represents_slot.2 ⟨.rfl, hfits⟩
  have hsum : c + st % 2 ^ f.step.width ≡ c + st [ZMOD 2 ^ f.slotWidth] ↔
      f.slotWidth ≤ f.step.width ∨ 0 ≤ st := by
    have hst : st % 2 ^ f.step.width ≡ st [ZMOD 2 ^ f.slotWidth] ↔ _ :=
      Fits.emod_modEq_iff f.step_pos hstep.2
    rw [← hst]
    exact ⟨Int.ModEq.add_left_cancel' c, fun h => h.add_left c⟩
  constructor
  · rintro ⟨fuel, r, hrun, htrace, hlast⟩
    rw [progression_of_within hst hin] at htrace
    rw [lastOf_of_within hst hin] at hlast
    have hfirst := first_of_run hend hstep hrun
    have hhead : f.headTest e st c := by
      by_contra hno
      rw [if_neg hno] at hfirst
      subst hfirst
      cases htrace
    obtain _ | fuel := fuel
    · cases hrun
    rw [run_succ hend hstep, if_pos hhead] at hrun
    split at hrun
    · next hfit =>
      obtain ⟨r', hrun', rfl⟩ := Option.map_eq_some_iff.1 hrun
      have htrace' := (List.forall₂_cons.1 htrace).2
      have hfirst' := first_of_run hend hstep hrun'
      by_cases hnext : Within e st (c + st)
      · rw [if_pos hnext] at hlast
        rw [progression_of_within hst hnext] at htrace'
        have hhead' : f.headTest e st (c + st % 2 ^ f.step.width) := by
          by_contra hno
          rw [if_neg hno] at hfirst'
          subst hfirst'
          cases htrace'
        rw [if_pos hhead'] at hfirst'
        -- the first value after the advance represents `c + st`
        obtain ⟨v, vs, hv, -, hvs⟩ := List.forall₂_cons_right_iff.1 htrace'
        rw [hvs] at hfirst'
        obtain rfl := Option.some.inj hfirst'
        obtain ⟨hmod, hfits'⟩ := represents_slot.1 hv
        refine ⟨⟨hhead, iff_of_true hfit hnext, fun _ => ⟨hfits', hsum.1 hmod⟩⟩, fun _ => ?_⟩
        rw [← progression_of_within hst hnext] at htrace'
        exact .congr hmod ⟨fuel, r', hrun', htrace', hlast⟩
      · -- one advance too many: the loop stops on the same word or runs again
        rw [if_neg hnext] at hlast
        rw [progression_of_not_within hnext, List.forall₂_nil_right_iff] at htrace'
        have hhead' : ¬ f.headTest e st (c + st % 2 ^ f.step.width) := by
          intro hno
          rw [if_pos hno, htrace'] at hfirst'
          cases hfirst'
        rw [if_neg hhead'] at hfirst'
        subst hfirst'
        exact absurd hhead (mt (headTest_congr (represents_slot.1 hlast).1).2 hhead')
    · next hfit =>
      cases hrun
      have hnext : ¬ Within e st (c + st) := by
        intro hno
        rw [progression_of_within hst hno] at htrace
        cases (List.forall₂_cons.1 htrace).2
      exact ⟨⟨hhead, iff_of_false hfit hnext, fun h => absurd h hnext⟩, fun h => absurd h hnext⟩
  · rintro ⟨⟨hhead, hfit, hadv⟩, hrest⟩
    unfold RunsFrom
    rw [progression_of_within hst hin, lastOf_of_within hst hin]
    by_cases hnext : Within e st (c + st)
    · obtain ⟨fuel, r, hrun, htrace, hlast⟩ := hrest hnext
      have hword : IntValue.ofInt f.slotWidth (c + st % 2 ^ f.step.width) =
          .ofInt f.slotWidth (c + st) :=
        congrArg (IntValue.mk _) (IntValue.ofInt_eq_iff.2 (hsum.2 (hadv hnext).2))
      refine ⟨fuel + 1, (.ofInt f.slotWidth c :: r.1, r.2), ?_, .cons hcur htrace, ?_⟩
      · rw [run_succ hend hstep, if_pos hhead, if_pos (hfit.2 hnext), hword, hrun]
        rfl
      · rwa [if_pos hnext]
    · refine ⟨1, ([.ofInt f.slotWidth c], .ofInt f.slotWidth c), ?_, ?_, ?_⟩
      · rw [run_succ hend hstep, if_pos hhead, if_neg (mt hfit.1 hnext)]
      · rw [progression_of_not_within hnext]
        exact .cons hcur .nil
      · rwa [if_neg hnext]

theorem runsFrom_iff (hst : st ≠ 0) (hend : f.endVal.Represents e) (hstep : f.step.Represents st) :
    ∀ c, Fits f.slotWidth c → (f.RunsFrom e st c ↔
      (f.headTest e st c ↔ Within e st c) ∧ ∀ c' ∈ progression e st c, f.StepOk e st c') := by
  refine Within.induction e hst (fun c hpast hfits => ?_) fun c hin ih hfits => ?_
  · rw [runsFrom_past hend hstep hfits hpast, progression_of_not_within hpast]
    simp [hpast]
  · rw [runsFrom_within hst hend hstep hfits hin, progression_of_within hst hin]
    simp only [List.forall_mem_cons, iff_true_right hin]
    constructor
    · rintro ⟨hok, hrest⟩
      refine ⟨hok.1, hok, ?_⟩
      by_cases hnext : Within e st (c + st)
      · exact ((ih (hok.2.2 hnext).1).1 (hrest hnext)).2
      · simp [hnext]
    · rintro ⟨-, hok, hrest⟩
      refine ⟨hok, fun hnext => (ih (hok.2.2 hnext).1).2 ⟨iff_of_true ?_ hnext, hrest⟩⟩
      exact (hrest _ (by rw [progression_of_within hst hnext]; exact List.mem_cons_self)).1

/-- The word the loop starts with. -/
theorem start_coerce (hstart : f.start.Represents s) :
    f.start.coerceInt f.slotWidth = .ofInt f.slotWidth (s % 2 ^ f.start.width) := by
  rw [hstart.eq_ofInt]
  exact IntValue.resize_ofInt ..

theorem start_modEq_iff (hstart : f.start.Represents s) :
    s % 2 ^ f.start.width ≡ s [ZMOD 2 ^ f.slotWidth] ↔ f.slotWidth ≤ f.start.width ∨ 0 ≤ s :=
  Fits.emod_modEq_iff f.start_pos hstart.2

theorem Executes.ok {old : IntValue} (hst : st ≠ 0) (hstart : f.start.Represents s)
    (hend : f.endVal.Represents e) (hstep : f.step.Represents st) (h : f.Executes old s e st) :
    f.StartOk s ∧ (f.headTest e st s ↔ Within e st s) ∧
      (∀ c ∈ progression e st s, f.StepOk e st c) ∧
      (f.isLocal ∨ old.Represents (lastOf e st s)) := by
  obtain ⟨fuel, values, last, hrun, htrace, hcontrol⟩ := h
  rw [start_coerce hstart] at hrun
  have hlast : last.Represents (lastOf e st s) := hcontrol last (by
    unfold control
    split <;> exact List.mem_cons_self)
  have hlocal : f.isLocal ∨ old.Represents (lastOf e st s) := by
    by_cases hlocal : f.isLocal
    · exact .inl hlocal
    · exact .inr (hcontrol old (by simp [control, hlocal]))
  -- the first word, of the body or left in the slot, represents the start value
  have hfirst := first_of_run hend hstep hrun
  have hslot : (IntValue.ofInt f.slotWidth (s % 2 ^ f.start.width)).Represents s := by
    by_cases hin : Within e st s
    · rw [progression_of_within hst hin] at htrace
      obtain ⟨v, vs, hv, -, rfl⟩ := List.forall₂_cons_right_iff.1 htrace
      split at hfirst
      · obtain rfl := Option.some.inj hfirst
        exact hv
      · cases hfirst
    · rw [progression_of_not_within hin, List.forall₂_nil_right_iff] at htrace
      subst htrace
      split at hfirst
      · cases hfirst
      · cases hfirst
        rwa [lastOf_of_not_within hin] at hlast
  obtain ⟨hmod, hfits⟩ := represents_slot.1 hslot
  have hruns := (runsFrom_iff hst hend hstep s hfits).1
    (.congr hmod ⟨fuel, (values, last), hrun, htrace, hlast⟩)
  exact ⟨⟨hfits, (start_modEq_iff hstart).1 hmod⟩, hruns.1, hruns.2, hlocal⟩

/-- A loop over a local variable whose start and end words have the width of its type, by a constant
step of 64 bits. -/
def typed (ty : Ty) (s e st : Int) : ForLoop where
  controlType := ty
  isLocal := true
  start := .ofInt ty.width s
  endVal := .ofInt ty.width e
  step := .ofInt 64 st
  start_pos := ty.width_pos
  end_pos := ty.width_pos
  step_pos := Nat.zero_lt_succ 63

end ForLoop
end NewM2.Ir
