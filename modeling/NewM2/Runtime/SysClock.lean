import Mathlib

/-!
# The system clock (`newm2-runtime/src/sysclock.rs`)

`unixToUtc` takes the seconds since 1970 apart: it walks from 1970 to the year, forwards or backwards,
then from January to the month. The walks conserve the day they stand for, counted from the first of
January of the year 0 (`forward_spec`, `backward_spec`, `monthLoop_spec`). An i64 that the source does
not overflow is an `Int` here, a u64 a `Nat`; only the year can run below 0. -/

namespace NewM2.SysClock

/-! ## The calendar -/

def isLeap (y : Nat) : Bool := (y % 4 == 0 && y % 100 != 0) || y % 400 == 0

def daysPerMonth : List Nat := [0, 31, 28, 31, 30, 31, 30, 31, 31, 30, 31, 30, 31]

/-- The days of a year. -/
def yearDays (y : Nat) : Nat := if isLeap y then 366 else 365

/-- The loop over the years, from a year on. -/
def forward (days : Int) (year : Nat) : Int × Nat :=
  if days < yearDays year then (days, year) else forward (days - yearDays year) (year + 1)
termination_by days.toNat
decreasing_by
  have h : 365 ≤ yearDays year := by
    unfold yearDays
    split <;> decide
  omega

/-- The loop back over the years; `year - 1` overflows at the year 0. -/
def backward (days : Int) (year : Nat) : Option (Int × Nat) :=
  if 0 ≤ days then some (days, year)
  else
    match year with
    | 0 => none
    | y + 1 => backward (days + yearDays y) y

/-- The days of a month from 1 to 12. -/
def monthDays (year month : Nat) : Nat :=
  if month = 2 ∧ isLeap year then 29 else daysPerMonth.getD month 0

/-- The loop over the months; the index 13 is outside the table. -/
def monthLoop (year month daysLeft : Nat) : Option (Nat × Nat) :=
  if month < 13 then
    if daysLeft < monthDays year month then some (month, daysLeft)
    else monthLoop year (month + 1) (daysLeft - monthDays year month)
  else none
termination_by 13 - month

/-- The tuple that `unix_to_utc` returns. -/
structure Utc where
  year : Nat
  month : Nat
  day : Nat
  hour : Nat
  minute : Nat
  second : Nat
deriving Repr, DecidableEq

def unixToUtc (secs : Int) : Option Utc := do
  -- Euclidean quotient and remainder
  let days := secs / 86400
  let secs := secs % 86400
  let (days, year) := forward days 1970
  let (days, year) ← backward days year
  let (month, daysLeft) ← monthLoop year 1 days.toNat
  some ⟨year, month, daysLeft + 1, (secs / 3600).toNat, (secs / 60 % 60).toNat, (secs % 60).toNat⟩

/-! ## Days and seconds counted -/

/-- The days of the years before `y`, from the year 0 on, in the proleptic Gregorian calendar: every
fourth year is a leap year, but of the centuries only every fourth. -/
def daysBeforeYear (y : Nat) : Int := 365 * y + ((y + 3) / 4 - (y + 99) / 100 + (y + 399) / 400 : Int)

/-- The days of a year before a month. -/
def daysBeforeMonth (year month : Nat) : Nat :=
  ((List.range' 1 (month - 1)).map (monthDays year)).sum

/-- Days since the first of January 1970. -/
def daysFromCivil (year month day : Nat) : Int :=
  daysBeforeYear year - daysBeforeYear 1970 + daysBeforeMonth year month + (day - 1)

namespace Utc

/-- A date of the calendar and a time of the day. -/
structure Valid (t : Utc) : Prop where
  month : 1 ≤ t.month ∧ t.month ≤ 12
  day : 1 ≤ t.day ∧ t.day ≤ monthDays t.year t.month
  hour : t.hour ≤ 23
  minute : t.minute ≤ 59
  second : t.second ≤ 59

def toUnix (t : Utc) : Int :=
  daysFromCivil t.year t.month t.day * 86400 + (t.hour * 3600 + t.minute * 60 + t.second)

end Utc

theorem isLeap_iff (y : Nat) : isLeap y = true ↔ y % 4 = 0 ∧ y % 100 ≠ 0 ∨ y % 400 = 0 := by
  simp [isLeap]

theorem daysBeforeYear_succ (y : Nat) : daysBeforeYear (y + 1) = daysBeforeYear y + yearDays y := by
  unfold daysBeforeYear yearDays
  push_cast
  split_ifs with h
  · rw [isLeap_iff] at h
    omega
  · rw [isLeap_iff] at h
    omega

theorem daysBeforeMonth_succ (year : Nat) {month : Nat} (hpos : 1 ≤ month) :
    daysBeforeMonth year (month + 1) = daysBeforeMonth year month + monthDays year month := by
  obtain ⟨k, rfl⟩ := Nat.exists_eq_add_of_le hpos
  rw [daysBeforeMonth, daysBeforeMonth, show 1 + k + 1 - 1 = k + 1 by omega,
    show 1 + k - 1 = k by omega, List.range'_concat, List.map_append, List.sum_append]
  simp

theorem daysBeforeMonth_year (year : Nat) : daysBeforeMonth year 13 = yearDays year := by
  simp only [daysBeforeMonth, List.range', List.map_cons, List.map_nil, monthDays, yearDays]
  cases isLeap year <;> rfl

/-! ## The walks -/

/-- The walk forwards ends in a year that the remaining days do not go beyond. -/
theorem forward_spec (days : Int) (year : Nat) :
    (forward days year).1 + daysBeforeYear (forward days year).2 = days + daysBeforeYear year ∧
      (forward days year).1 < yearDays (forward days year).2 := by
  induction days, year using forward.induct with
  | case1 days year hlt =>
    rw [forward, if_pos hlt]
    exact ⟨rfl, hlt⟩
  | case2 days year hge ih =>
    rw [forward, if_neg hge]
    refine ⟨ih.1.trans ?_, ih.2⟩
    rw [daysBeforeYear_succ]
    omega

/-- The walk backwards ends in a year unless the day is before the year 0. -/
theorem backward_spec (days : Int) (year : Nat) (hlt : days < yearDays year)
    (h : 0 ≤ days + daysBeforeYear year) :
    ∃ d y, backward days year = some (d, y) ∧ d + daysBeforeYear y = days + daysBeforeYear year ∧
      0 ≤ d ∧ d < yearDays y := by
  induction year generalizing days with
  | zero =>
    have hzero : daysBeforeYear 0 = 0 := by decide
    exact ⟨days, 0, by rw [backward, if_pos (by omega)], rfl, by omega, hlt⟩
  | succ y ih =>
    by_cases hnonneg : 0 ≤ days
    · exact ⟨days, y + 1, by rw [backward, if_pos hnonneg], rfl, hnonneg, hlt⟩
    · rw [daysBeforeYear_succ] at h
      obtain ⟨d, y', hback, hsum, hd⟩ := ih (days + yearDays y) (by omega) (by omega)
      refine ⟨d, y', by rw [backward, if_neg hnonneg, hback], hsum.trans ?_, hd⟩
      rw [daysBeforeYear_succ]
      omega

/-- The walk over the months ends in the month of the day. -/
theorem monthLoop_spec (year month daysLeft : Nat) (hpos : 1 ≤ month) (hle : month ≤ 13)
    (h : daysBeforeMonth year month + daysLeft < yearDays year) :
    ∃ m d, monthLoop year month daysLeft = some (m, d) ∧ month ≤ m ∧ m ≤ 12 ∧
      daysBeforeMonth year m + d = daysBeforeMonth year month + daysLeft ∧ d < monthDays year m := by
  have hmonth : month < 13 := by
    rcases Nat.lt_or_ge month 13 with hlt | hge
    · exact hlt
    · obtain rfl : month = 13 := Nat.le_antisymm hle hge
      rw [daysBeforeMonth_year] at h
      omega
  rw [monthLoop, if_pos hmonth]
  by_cases hlt : daysLeft < monthDays year month
  · exact ⟨month, daysLeft, if_pos hlt, le_rfl, by omega, rfl, hlt⟩
  · have hsucc := daysBeforeMonth_succ year hpos
    obtain ⟨m, d, hm, hle', h12, hsum, hd⟩ :=
      monthLoop_spec year (month + 1) (daysLeft - monthDays year month) (by omega) (by omega)
        (by omega)
    exact ⟨m, d, by rw [if_neg hlt, hm], by omega, h12, by omega, hd⟩
termination_by 13 - month

/-! ## The conversion -/

/-- From the first second of the year 0 on the result is a valid date and time of the same second. -/
theorem unixToUtc_exact (secs : Int) (h : -62167219200 ≤ secs) :
    ∃ t, unixToUtc secs = some t ∧ t.Valid ∧ t.toUnix = secs := by
  have h1970 : daysBeforeYear 1970 = 719528 := by decide
  obtain ⟨hsum, hlt⟩ := forward_spec (secs / 86400) 1970
  obtain ⟨d, y, hback, hsum', hnonneg, hlt'⟩ := backward_spec _ _ hlt (by rw [hsum]; omega)
  obtain ⟨m, dl, hloop, hm1, hm12, hmonth, hdl⟩ :=
    monthLoop_spec y 1 d.toNat le_rfl (by decide) (by
      have hzero : daysBeforeMonth y 1 = 0 := rfl
      omega)
  have hzero : daysBeforeMonth y 1 = 0 := rfl
  refine ⟨⟨y, m, dl + 1, (secs % 86400 / 3600).toNat, (secs % 86400 / 60 % 60).toNat,
    (secs % 86400 % 60).toNat⟩, ?_, ?_, ?_⟩
  · simp only [unixToUtc, hback, hloop, Option.bind_eq_bind, Option.bind_some]
  · refine ⟨⟨hm1, hm12⟩, ⟨?_, ?_⟩, ?_, ?_, ?_⟩ <;> dsimp only <;> omega
  · have hdays : daysFromCivil y m (dl + 1 : Nat) = secs / 86400 := by
      rw [daysFromCivil]
      push_cast
      omega
    rw [Utc.toUnix, hdays]
    dsimp only
    omega

theorem unixToUtc_exact_1969 : unixToUtc (-1) = some ⟨1969, 12, 31, 23, 59, 59⟩ ∧
    ∃ t, unixToUtc (-1) = some t ∧ t.Valid ∧ t.toUnix = -1 := by
  refine ⟨?_, unixToUtc_exact (-1) (by decide)⟩
  simp [unixToUtc, forward, backward, monthLoop, monthDays, daysPerMonth, yearDays, isLeap]

end NewM2.SysClock
