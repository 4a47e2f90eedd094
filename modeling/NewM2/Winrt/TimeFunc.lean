import Mathlib
import NewM2.Lib.Chars
import NewM2.Runtime.SysClock

/-!
# The calendar (`library/winrtmod/TimeFunc.mod`)

`dmyToJulian` counts the days from the first of January 1600, in years that begin in March; `cToDateTime` goes
back from the days to a date by eras of four centuries. Both are tied to the count of the days in
`daysFromCivil` by the one formula of the years that begin in March (`daysFromCivil_march`). -/

namespace NewM2.Winrt.TimeFunc
open SysClock

/-- The difference of two CARDINALs. -/
def minus (a b : Nat) : Nat := wrap (a + 2 ^ 64 - b)

/-- SysClock.DateTime -/
@[ext] structure DateTime where
  year : Nat
  month : Nat
  day : Nat
  hour : Nat
  minute : Nat
  second : Nat
  fractions : Nat
  zone : Int
  summerTimeFlag : Bool
deriving Repr, DecidableEq

/-- `DMYtoJulian` -/
def dmyToJulian (d mo y : Nat) : Nat :=
  if y = 1600 ∧ mo < 3 then if mo = 1 then minus d 1 else d + 30
  else
    let (month, year) := if 2 < mo then (mo - 3, y) else (mo + 9, minus y 1)
    let year := minus year 1600
    wrap (wrap (year / 100 * 146097) / 4 + year % 100 * 1461 / 4 + (153 * month + 2) / 5 + d + 59)

/-- `ORD` of the result: 0 is Sunday. -/
def getDayOfWeek (dt : DateTime) : Nat := wrap (dmyToJulian dt.day dt.month dt.year + 6) % 7

/-- `DMYtoJulian(1, 1, 1970)` -/
def epoch1970 : Nat := 135140

def dateTimeToC (dt : DateTime) : Nat :=
  let days := minus (dmyToJulian dt.day dt.month dt.year) epoch1970
  wrap (days * 86400 + dt.hour * 3600 + dt.minute * 60 + dt.second) &&& 0xFFFFFFFF

def cToDateTime (cdt : Nat) : DateTime :=
  let cdt := cdt &&& 0xFFFFFFFF
  let days := cdt / 86400
  let sod := cdt % 86400
  let z := days + 719468
  let era := z / 146097
  let doe := minus z (era * 146097)
  let yoe := minus (minus doe (doe / 1460) + doe / 36524) (doe / 146096) / 365
  let y := yoe + era * 400
  let doy := minus doe (minus (365 * yoe + yoe / 4) (yoe / 100))
  let mp := (5 * doy + 2) / 153
  let d := minus doy ((153 * mp + 2) / 5) + 1
  let m := if mp < 10 then mp + 3 else minus mp 9
  let y := if m ≤ 2 then y + 1 else y
  ⟨y, m, d, sod / 3600, sod % 3600 / 60, sod % 60, 0, 0, false⟩

/-! ## Dates -/

/-- A date of the calendar. -/
structure IsDate (y m d : Nat) : Prop where
  month : 1 ≤ m ∧ m ≤ 12
  day : 1 ≤ d ∧ d ≤ monthDays y m

def DateTime.utc (dt : DateTime) : Utc := ⟨dt.year, dt.month, dt.day, dt.hour, dt.minute, dt.second⟩

/-- The day after a date. -/
def tomorrow (y m d : Nat) : Nat × Nat × Nat :=
  if d < monthDays y m then (y, m, d + 1) else if m < 12 then (y, m + 1, 1) else (y + 1, 1, 1)

/-- Days since the first of January 1600. -/
def dayNumber (y m d : Nat) : Int := daysFromCivil y m d - daysFromCivil 1600 1 1

/-- The first of January 1970 was a Thursday. -/
def weekday (y m d : Nat) : Int := (daysFromCivil y m d + 4) % 7

/-- Of the years that begin in March, the one of a date, counted from 1600 on. -/
def marchYear (y m : Nat) : Nat := (if 2 < m then y else y - 1) - 1600

variable {y m d a b n : Nat}

theorem minus_eq (h : b ≤ a) (ha : a < 2 ^ 64) : minus a b = a - b := by
  rw [minus, wrap]
  omega

theorem daysFromCivil_tomorrow (h : IsDate y m d) :
    daysFromCivil (tomorrow y m d).1 (tomorrow y m d).2.1 (tomorrow y m d).2.2 = daysFromCivil y m d + 1 := by
  obtain ⟨⟨hm, hm'⟩, hd, hd'⟩ := h
  rw [tomorrow]
  split_ifs with hday hmonth
  · simp only [daysFromCivil]
    push_cast
    ring
  · have hsucc := daysBeforeMonth_succ y hm
    simp only [daysFromCivil]
    omega
  · obtain rfl : m = 12 := by omega
    have hmonth : daysBeforeMonth y 13 = daysBeforeMonth y 12 + monthDays y 12 := daysBeforeMonth_succ y (by decide)
    have hyear := daysBeforeMonth_year y
    have hnext := daysBeforeYear_succ y
    have hzero : daysBeforeMonth (y + 1) 1 = 0 := rfl
    simp only [daysFromCivil]
    omega

/-- The days before a month, from March on. -/
theorem daysBeforeMonth_march (y : Nat) (hm : 3 ≤ m) (hm' : m ≤ 12) :
    daysBeforeMonth y m = (153 * (m - 3) + 2) / 5 + 59 + (if isLeap y then 1 else 0) := by
  interval_cases m <;> simp only [daysBeforeMonth, List.range', List.map_cons, List.map_nil, monthDays] <;>
    cases isLeap y <;> rfl

theorem leap_or (y : Nat) :
    isLeap y = true ∧ (y % 4 = 0 ∧ y % 100 ≠ 0 ∨ y % 400 = 0) ∨
      isLeap y = false ∧ ¬ (y % 4 = 0 ∧ y % 100 ≠ 0 ∨ y % 400 = 0) := by
  rw [← isLeap_iff]
  cases isLeap y <;> simp

/-- The days since 1970 by the year that begins in March, its month and the day. -/
theorem daysFromCivil_march {Y mp : Nat} (h : m = mp + 3 ∧ mp ≤ 9 ∧ y = Y ∨ m + 9 = mp ∧ 10 ≤ mp ∧ mp ≤ 11 ∧ y = Y + 1)
    (d : Nat) :
    daysFromCivil y m d = 365 * Y + (Y / 4 : Nat) - (Y / 100 : Nat) + (Y / 400 : Nat) + ((153 * mp + 2) / 5 : Nat) + d -
      719469 := by
  have h1970 : daysBeforeYear 1970 = 719528 := by decide
  rw [daysFromCivil, h1970, daysBeforeYear]
  rcases h with ⟨rfl, hmp, rfl⟩ | ⟨hm, hmp, hmp', rfl⟩
  · rw [daysBeforeMonth_march y (by omega) (by omega), Nat.add_sub_cancel]
    rcases leap_or y with ⟨hleap, hy⟩ | ⟨hleap, hy⟩
    · rw [hleap, if_pos rfl]
      omega
    · rw [hleap, if_neg Bool.false_ne_true]
      omega
  · obtain rfl | rfl : m = 1 ∨ m = 2 := by omega
    · have hzero : daysBeforeMonth (Y + 1) 1 = 0 := rfl
      obtain rfl : mp = 10 := by omega
      rw [hzero]
      omega
    · have hjanuary : daysBeforeMonth (Y + 1) 2 = 31 := rfl
      obtain rfl : mp = 11 := by omega
      rw [hjanuary]
      omega

theorem monthDays_le (y m : Nat) : monthDays y m ≤ 31 := by
  rw [monthDays]
  split_ifs
  · decide
  · by_cases hm : m < 13
    · interval_cases m <;> decide
    · rw [List.getD_eq_default _ _ (by simp [daysPerMonth]; omega)]
      decide

theorem daysFromCivil_1600 : daysFromCivil 1600 1 1 = -135140 := by decide

/-- What the day number has besides the century. -/
def withinCentury (k mp d : Nat) : Nat := k % 100 * 1461 / 4 + (153 * mp + 2) / 5 + d + 59

theorem withinCentury_lt {k mp : Nat} (hmp : mp ≤ 11) (hd : d ≤ 31) : withinCentury k mp d < 2 ^ 32 := by
  unfold withinCentury
  omega

theorem dayNumber_march {mp k : Nat}
    (h : m = mp + 3 ∧ mp ≤ 9 ∧ y = k + 1600 ∨ m + 9 = mp ∧ 10 ≤ mp ∧ mp ≤ 11 ∧ y = k + 1600 + 1) (d : Nat) :
    dayNumber y m d = (k / 100 * 146097 / 4 + withinCentury k mp d : Nat) := by
  obtain ⟨u, v, r, rfl, hv, hr⟩ : ∃ u v r, k = 400 * u + 100 * v + r ∧ v < 4 ∧ r < 100 :=
    ⟨k / 400, k / 100 % 4, k % 100, by omega, by omega, by omega⟩
  have h4 : (400 * u + 100 * v + r + 1600) / 4 = 100 * u + 25 * v + 400 + r / 4 := by omega
  have h100 : (400 * u + 100 * v + r + 1600) / 100 = 4 * u + v + 16 := by omega
  have h400 : (400 * u + 100 * v + r + 1600) / 400 = u + 4 := by omega
  have hcentury : (400 * u + 100 * v + r) / 100 = 4 * u + v := by omega
  have hyears : (400 * u + 100 * v + r) % 100 = r := by omega
  have hdays : (4 * u + v) * 146097 / 4 = 146097 * u + 36524 * v := by omega
  rw [dayNumber, daysFromCivil_march h, daysFromCivil_1600, withinCentury, h4, h100, h400, hcentury, hyears, hdays]
  push_cast
  omega

/-- The sum that is the result, but for the product with the century, which may wrap around. -/
theorem wrap_withinCentury {k mp : Nat} (hmp : mp ≤ 11) (hd : d ≤ 31) :
    wrap (wrap (k / 100 * 146097) / 4 + k % 100 * 1461 / 4 + (153 * mp + 2) / 5 + d + 59) =
      wrap (k / 100 * 146097) / 4 + withinCentury k mp d := by
  have hwrap : wrap (k / 100 * 146097) < 2 ^ 64 := Nat.mod_lt _ (by decide)
  have hrest := withinCentury_lt (k := k) hmp hd
  generalize wrap (k / 100 * 146097) = w at hwrap ⊢
  unfold withinCentury at hrest ⊢
  rw [wrap_of_lt (by omega)]
  omega

theorem dmyToJulian_eq (hy : 1600 ≤ y) (hy' : y < 2 ^ 64) (hdate : IsDate y m d) :
    ∃ rest, rest < 2 ^ 32 ∧ dmyToJulian d m y = wrap (marchYear y m / 100 * 146097) / 4 + rest ∧
      dayNumber y m d = (marchYear y m / 100 * 146097 / 4 + rest : Nat) := by
  obtain ⟨⟨hm, hm'⟩, hd, hd'⟩ := hdate
  have h31 := hd'.trans (monthDays_le y m)
  have hd64 : d < 2 ^ 64 := h31.trans_lt (by decide)
  rw [dmyToJulian]
  by_cases hfirst : y = 1600 ∧ m < 3
  · have hmarch : marchYear y m = 0 := by
      unfold marchYear
      split_ifs <;> omega
    have hzero : wrap (0 / 100 * 146097) / 4 = 0 := by decide
    have hjanuary : daysBeforeMonth 1600 1 = 0 := rfl
    have hfebruary : daysBeforeMonth 1600 2 = 31 := rfl
    rw [if_pos hfirst, hmarch, hzero, dayNumber, daysFromCivil_1600, daysFromCivil, hfirst.1]
    have h1600 : daysBeforeYear 1600 - daysBeforeYear 1970 = -135140 := by decide
    rw [h1600]
    obtain rfl | rfl : m = 1 ∨ m = 2 := by omega
    · rw [if_pos rfl, minus_eq hd hd64, hjanuary]
      exact ⟨d - 1, by omega, by omega, by omega⟩
    · rw [if_neg (by decide), hfebruary]
      exact ⟨d + 30, by omega, by omega, by omega⟩
  · rw [if_neg hfirst]
    by_cases hmarch : 2 < m
    · have hk : marchYear y m = y - 1600 := by
        unfold marchYear
        split_ifs
        rfl
      have hnum := dayNumber_march (y := y) (m := m) (k := y - 1600)
        (.inl ⟨(Nat.sub_add_cancel hmarch).symm, by omega, by omega⟩) d
      rw [if_pos hmarch, hk]
      dsimp only
      rw [minus_eq hy hy', wrap_withinCentury (by omega) h31]
      exact ⟨_, withinCentury_lt (by omega) h31, rfl, hnum⟩
    · have hk : marchYear y m = y - 1 - 1600 := by
        unfold marchYear
        split_ifs
        rfl
      have hnum := dayNumber_march (y := y) (m := m) (k := y - 1 - 1600) (.inr ⟨rfl, by omega, by omega, by omega⟩) d
      rw [if_neg hmarch, hk]
      dsimp only
      rw [minus_eq (show 1 ≤ y by omega) hy', minus_eq (by omega) (by omega), wrap_withinCentury (by omega) h31]
      exact ⟨_, withinCentury_lt (by omega) h31, rfl, hnum⟩

/-- The first March-based year, counted from 1600 on, whose century is too large for the product. -/
def yearLimit : Nat := 12626367463883300

/-- The day number is exact just if the product with the centuries does not wrap around. -/
theorem dmyToJulian_iff (hy : 1600 ≤ y) (hy' : y < 2 ^ 64) (hdate : IsDate y m d) :
    (dmyToJulian d m y : Int) = dayNumber y m d ↔ marchYear y m < yearLimit := by
  obtain ⟨rest, -, heq, hnum⟩ := dmyToJulian_eq hy hy' hdate
  have hlimit : marchYear y m < yearLimit ↔ marchYear y m / 100 * 146097 < 2 ^ 64 := by
    unfold yearLimit
    omega
  rw [heq, hnum, hlimit]
  by_cases hfits : marchYear y m / 100 * 146097 < 2 ^ 64
  · rw [wrap_of_lt hfits]
    exact ⟨fun _ => hfits, fun _ => rfl⟩
  · refine ⟨fun h => absurd h ?_, fun h => absurd h hfits⟩
    have hwrap : wrap (marchYear y m / 100 * 146097) < 2 ^ 64 := Nat.mod_lt _ (by decide)
    omega

theorem getDayOfWeek_eq {dt : DateTime} (hy : 1600 ≤ dt.year) (hy' : dt.year < 2 ^ 64)
    (hdate : IsDate dt.year dt.month dt.day)
    (hexact : (dmyToJulian dt.day dt.month dt.year : Int) = dayNumber dt.year dt.month dt.day) :
    (getDayOfWeek dt : Int) = weekday dt.year dt.month dt.day := by
  obtain ⟨rest, hrest, heq, -⟩ := dmyToJulian_eq hy hy' hdate
  have hwrap : wrap (marchYear dt.year dt.month / 100 * 146097) < 2 ^ 64 := Nat.mod_lt _ (by decide)
  have hlt : dmyToJulian dt.day dt.month dt.year + 6 < 2 ^ 64 := by omega
  rw [dayNumber, daysFromCivil_1600] at hexact
  rw [getDayOfWeek, wrap_of_lt hlt, weekday]
  omega

/-! ## Eras of four centuries -/

/-- A day of an era is in a century, four years and a year. -/
theorem era_day (doe : Nat) (h : doe < 146097) : ∃ c q s t, doe = 36524 * c + 1461 * q + 365 * s + t ∧
    c ≤ 3 ∧ q ≤ 24 ∧ s ≤ 3 ∧ t ≤ 365 ∧ (t = 365 → s = 3 ∧ (q = 24 → c = 3)) := by
  obtain ⟨c, r, hr, hc, hr'⟩ : ∃ c r, doe = 36524 * c + r ∧ c ≤ 3 ∧ (r ≤ 36523 ∨ c = 3 ∧ r = 36524) :=
    ⟨min 3 (doe / 36524), doe - 36524 * min 3 (doe / 36524), by omega, by omega, by omega⟩
  obtain ⟨q, r₂, hr₂, hq, hr₂'⟩ : ∃ q r₂, r = 1461 * q + r₂ ∧ q ≤ 24 ∧ r₂ ≤ 1460 ∧ (r₂ = 1460 → q = 24 → c = 3) :=
    ⟨r / 1461, r % 1461, by omega, by omega, by omega, by omega⟩
  obtain ⟨s, t, ht, hs, ht'⟩ : ∃ s t, r₂ = 365 * s + t ∧ s ≤ 3 ∧ (t ≤ 364 ∨ s = 3 ∧ t = 365) :=
    ⟨min 3 (r₂ / 365), r₂ - 365 * min 3 (r₂ / 365), by omega, by omega, by omega⟩
  exact ⟨c, q, s, t, by omega, hc, hq, hs, by omega, by omega⟩

/-- The year of the era comes out by the divisions. -/
theorem yoe_eq {doe c q s t : Nat} (h : doe = 36524 * c + 1461 * q + 365 * s + t) (hc : c ≤ 3) (hq : q ≤ 24)
    (hs : s ≤ 3) (ht : t ≤ 365) (hlast : t = 365 → s = 3 ∧ (q = 24 → c = 3)) :
    (doe - doe / 1460 + doe / 36524 - doe / 146096) / 365 = 100 * c + 4 * q + s := by
  -- the leap days are counted by 1460, a day less than four years have
  have hg : doe / 1460 = 25 * c + q ∨ doe / 1460 = 25 * c + q + 1 ∧ 1460 ≤ 24 * c + q + 365 * s + t := by omega
  have he : doe / 36524 = c ∧ doe / 146096 = 0 ∨ doe = 146096 := by omega
  rcases he with ⟨he, he'⟩ | rfl
  · rw [he, he']
    rcases hg with hg | ⟨hg, hbig⟩
    · rw [hg]
      omega
    · rw [hg]
      omega
  · omega

/-- The lengths of the months from March to January. -/
theorem month_length {mp : Nat} (h : m = mp + 3 ∧ mp ≤ 9 ∨ m = 1 ∧ mp = 10) :
    daysPerMonth.getD m 0 + (153 * mp + 2) / 5 = (153 * (mp + 1) + 2) / 5 := by
  rcases h with ⟨rfl, hmp⟩ | ⟨rfl, rfl⟩
  · interval_cases mp <;> rfl
  · rfl

/-- The date of a day that is `t` days into a year that begins in March. -/
theorem civil_spec (era : Nat) {c q s t mp : Nat} (hc : c ≤ 3) (hq : q ≤ 24) (hs : s ≤ 3) (ht : t ≤ 365)
    (hlast : t = 365 → s = 3 ∧ (q = 24 → c = 3)) (hmp : mp = (5 * t + 2) / 153)
    (h : m = mp + 3 ∧ mp ≤ 9 ∧ y = 100 * c + 4 * q + s + era * 400 ∨
      m + 9 = mp ∧ 10 ≤ mp ∧ mp ≤ 11 ∧ y = 100 * c + 4 * q + s + era * 400 + 1) :
    IsDate y m (t - (153 * mp + 2) / 5 + 1) ∧
      daysFromCivil y m (t - (153 * mp + 2) / 5 + 1) =
        (era * 146097 + (36524 * c + 1461 * q + 365 * s + t) : Nat) - 719468 := by
  constructor
  · have hday : t - (153 * mp + 2) / 5 + 1 ≤ monthDays y m := by
      by_cases hfeb : m = 2
      · subst hfeb
        obtain rfl : mp = 11 := by omega
        rw [monthDays]
        by_cases hleap : t = 365
        · obtain ⟨rfl, hq'⟩ := hlast hleap
          have hy : isLeap y = true := by
            rw [isLeap_iff]
            omega
          rw [if_pos ⟨rfl, hy⟩]
          omega
        · split_ifs
          · omega
          · change _ ≤ 28
            omega
      · have hlength : daysPerMonth.getD m 0 + (153 * mp + 2) / 5 = (153 * (mp + 1) + 2) / 5 :=
          month_length (by omega)
        rw [monthDays, if_neg fun hboth => hfeb hboth.1]
        omega
    exact ⟨by omega, by omega, hday⟩
  · rw [daysFromCivil_march h]
    have h4 : (100 * c + 4 * q + s + era * 400) / 4 = 25 * c + q + era * 100 := by omega
    have h100 : (100 * c + 4 * q + s + era * 400) / 100 = c + era * 4 := by omega
    have h400 : (100 * c + 4 * q + s + era * 400) / 400 = era := by omega
    rw [h4, h100, h400]
    push_cast
    omega

theorem and_32 (c : Nat) : c &&& 0xFFFFFFFF = c % 2 ^ 32 := Nat.and_two_pow_sub_one_eq_mod c 32

/-- The year of the era, the day of the year and the month that `cToDateTime` computes. -/
theorem civil_steps {doe c q s t : Nat} (hdoe : doe = 36524 * c + 1461 * q + 365 * s + t) (hc : c ≤ 3) (hq : q ≤ 24)
    (hs : s ≤ 3) (ht : t ≤ 365) (hlast : t = 365 → s = 3 ∧ (q = 24 → c = 3)) :
    minus (minus doe (doe / 1460) + doe / 36524) (doe / 146096) / 365 = 100 * c + 4 * q + s ∧
      minus doe (minus (365 * (100 * c + 4 * q + s) + (100 * c + 4 * q + s) / 4) ((100 * c + 4 * q + s) / 100)) = t ∧
      minus t ((153 * ((5 * t + 2) / 153) + 2) / 5) = t - (153 * ((5 * t + 2) / 153) + 2) / 5 := by
  refine ⟨?_, ?_, minus_eq (by omega) (by omega)⟩
  · rw [minus_eq (show doe / 1460 ≤ doe by omega) (by omega), minus_eq (by omega) (by omega)]
    exact yoe_eq hdoe hc hq hs ht hlast
  · have h4 : (100 * c + 4 * q + s) / 4 = 25 * c + q := by omega
    have h100 : (100 * c + 4 * q + s) / 100 = c := by omega
    rw [h4, h100, minus_eq (show c ≤ _ by omega) (by omega), minus_eq (by omega) (by omega)]
    omega

/-- The result is the date and the time of the seconds. -/
theorem cToDateTime_spec {c : Nat} (hc : c < 2 ^ 32) :
    ∃ y m d, cToDateTime c = ⟨y, m, d, c % 86400 / 3600, c % 86400 % 3600 / 60, c % 86400 % 60, 0, 0, false⟩ ∧
      IsDate y m d ∧ daysFromCivil y m d = (c / 86400 : Nat) ∧ y < 4000 := by
  have hmask : c &&& 0xFFFFFFFF = c := by rw [and_32, Nat.mod_eq_of_lt hc]
  have hdays : c / 86400 ≤ 49710 := by omega
  unfold cToDateTime
  dsimp only
  rw [hmask]
  generalize hz : c / 86400 + 719468 = z
  obtain ⟨cc, q, s, t, hdoe, hcc, hq, hs, ht, hlast⟩ := era_day (z % 146097) (Nat.mod_lt _ (by decide))
  have hdiv := Nat.div_add_mod' z 146097
  have hdoe' : minus z (z / 146097 * 146097) = z % 146097 := by
    rw [minus_eq (by omega) (by omega)]
    omega
  obtain ⟨hyoe, hdoy, hd⟩ := civil_steps hdoe hcc hq hs ht hlast
  rw [hdoe', hyoe, hdoy, hd]
  generalize hmp : (5 * t + 2) / 153 = mp
  have hmp' : mp ≤ 11 := by omega
  by_cases hspring : mp < 10
  · rw [if_pos hspring, if_neg (by omega)]
    obtain ⟨hdate, hnum⟩ := civil_spec (z / 146097) hcc hq hs ht hlast hmp.symm (.inl ⟨rfl, by omega, rfl⟩)
    refine ⟨_, _, _, rfl, hdate, ?_, by omega⟩
    rw [hnum]
    omega
  · have hm : minus mp 9 = mp - 9 := minus_eq (by omega) (by omega)
    rw [if_neg hspring, hm, if_pos (by omega)]
    obtain ⟨hdate, hnum⟩ := civil_spec (m := mp - 9) (z / 146097) hcc hq hs ht hlast hmp.symm
      (.inr ⟨by omega, by omega, hmp', rfl⟩)
    refine ⟨_, _, _, rfl, hdate, ?_, by omega⟩
    rw [hnum]
    omega

/-! ## A day has one date -/

theorem daysBeforeYear_mono {y' : Nat} (h : y ≤ y') : daysBeforeYear y ≤ daysBeforeYear y' := by
  induction y', h using Nat.le_induction with
  | base => exact le_rfl
  | succ k hk ih =>
    rw [daysBeforeYear_succ]
    omega

theorem daysBeforeMonth_mono (y : Nat) {m' : Nat} (hm : 1 ≤ m) (h : m ≤ m') :
    daysBeforeMonth y m ≤ daysBeforeMonth y m' := by
  induction m', h using Nat.le_induction with
  | base => exact le_rfl
  | succ k hk ih =>
    rw [daysBeforeMonth_succ y (hm.trans hk)]
    omega

/-- The days of a date are in its month and in its year. -/
theorem daysFromCivil_lt (h : IsDate y m d) :
    daysBeforeMonth y m + (d - 1) < daysBeforeMonth y (m + 1) ∧ daysBeforeMonth y (m + 1) ≤ yearDays y := by
  obtain ⟨⟨hm, hm'⟩, hd, hd'⟩ := h
  refine ⟨?_, ?_⟩
  · rw [daysBeforeMonth_succ y hm]
    omega
  · rw [← daysBeforeMonth_year]
    exact daysBeforeMonth_mono y (by omega) (by omega)

/-- A later year, or a later month of the year, has later days. -/
theorem daysFromCivil_lt_of_lt {y' m' d' : Nat} (h : IsDate y m d) (h' : IsDate y' m' d')
    (hlt : y < y' ∨ y = y' ∧ m < m') : daysFromCivil y m d < daysFromCivil y' m' d' := by
  obtain ⟨hmonth, hyear⟩ := daysFromCivil_lt h
  have hd := h.day.1
  have hd' := h'.day.1
  rw [daysFromCivil, daysFromCivil]
  rcases hlt with hlt | ⟨rfl, hlt⟩
  · have hmono := daysBeforeYear_mono (Nat.succ_le_of_lt hlt)
    rw [daysBeforeYear_succ] at hmono
    omega
  · have hmono := daysBeforeMonth_mono y (Nat.succ_pos m) (Nat.succ_le_of_lt hlt)
    rw [Nat.succ_eq_add_one] at hmono
    omega

theorem daysFromCivil_inj {y' m' d' : Nat} (h : IsDate y m d) (h' : IsDate y' m' d')
    (heq : daysFromCivil y m d = daysFromCivil y' m' d') : y = y' ∧ m = m' ∧ d = d' := by
  have hle : ¬ (y < y' ∨ y = y' ∧ m < m') := fun hlt => (daysFromCivil_lt_of_lt h h' hlt).ne heq
  have hge : ¬ (y' < y ∨ y' = y ∧ m' < m) := fun hlt => (daysFromCivil_lt_of_lt h' h hlt).ne' heq
  obtain rfl : y = y' := by omega
  obtain rfl : m = m' := by omega
  rw [daysFromCivil, daysFromCivil] at heq
  exact ⟨rfl, rfl, by omega⟩

/-! ## There and back -/

theorem isDate_1970 : IsDate 1970 1 1 := ⟨by decide, by decide⟩

theorem daysFromCivil_1970 : daysFromCivil 1970 1 1 = 0 := by decide

theorem daysFromCivil_1970_le (hdate : IsDate y m d) (hy : 1970 ≤ y) : 0 ≤ daysFromCivil y m d := by
  have hmono := daysBeforeYear_mono hy
  have hd := hdate.day.1
  rw [daysFromCivil]
  omega

/-- The seconds of a date from 1970 to 2106. -/
theorem dateTimeToC_eq {dt : DateTime} (h : dt.utc.Valid) (hy : 1970 ≤ dt.year) (hy' : dt.year < 4000)
    (hlt : dt.utc.toUnix < 2 ^ 32) : (dateTimeToC dt : Int) = dt.utc.toUnix := by
  have hdate : IsDate dt.year dt.month dt.day := ⟨h.month, h.day⟩
  have hhour : dt.hour ≤ 23 := h.hour
  have hminute : dt.minute ≤ 59 := h.minute
  have hsecond : dt.second ≤ 59 := h.second
  have hexact := (dmyToJulian_iff (by omega) (by omega) hdate).2 (by unfold marchYear yearLimit; split_ifs <;> omega)
  have h1970 := daysFromCivil_1970_le hdate hy
  rw [dayNumber, daysFromCivil_1600] at hexact
  have hunix : dt.utc.toUnix = daysFromCivil dt.year dt.month dt.day * 86400 +
      (dt.hour * 3600 + dt.minute * 60 + dt.second) := rfl
  rw [hunix] at hlt ⊢
  have hminus : minus (dmyToJulian dt.day dt.month dt.year) epoch1970 =
      dmyToJulian dt.day dt.month dt.year - epoch1970 :=
    minus_eq (by unfold epoch1970; omega) (by omega)
  unfold dateTimeToC
  dsimp only
  rw [hminus, and_32, wrap, epoch1970]
  omega

/-- A valid date and time with a year of 64 bits. -/
structure DateTime.Valid (dt : DateTime) : Prop where
  utc : dt.utc.Valid
  year : dt.year < 2 ^ 64

/-- The calendar is exact but for years whose century does not go into the product, and the seconds and the dates
of the 32 bits are each other's inverses. -/
theorem calendar_exact {dt : DateTime} (h : dt.Valid) (hy : 1600 ≤ dt.year) :
    ((dmyToJulian dt.day dt.month dt.year : Int) = dayNumber dt.year dt.month dt.day ∧
        (getDayOfWeek dt : Int) = weekday dt.year dt.month dt.day ↔ marchYear dt.year dt.month < yearLimit) ∧
      dayNumber (tomorrow dt.year dt.month dt.day).1 (tomorrow dt.year dt.month dt.day).2.1
        (tomorrow dt.year dt.month dt.day).2.2 = dayNumber dt.year dt.month dt.day + 1 ∧
      (∀ c, c < 2 ^ 32 → dateTimeToC (cToDateTime c) = c) ∧
      (1970 ≤ dt.year → dt.utc.toUnix < 2 ^ 32 →
        cToDateTime (dateTimeToC dt) = { dt with fractions := 0, zone := 0, summerTimeFlag := false }) := by
  have hdate : IsDate dt.year dt.month dt.day := ⟨h.utc.month, h.utc.day⟩
  have hiff := dmyToJulian_iff hy h.year hdate
  refine ⟨⟨fun hboth => hiff.1 hboth.1, fun hlt => ⟨hiff.2 hlt, getDayOfWeek_eq hy h.year hdate (hiff.2 hlt)⟩⟩, ?_,
    fun c hc => ?_, fun h1970 hlt => ?_⟩
  · rw [dayNumber, daysFromCivil_tomorrow hdate, dayNumber]
    ring
  · obtain ⟨y, m, d, hrun, hdate', hdays, hy'⟩ := cToDateTime_spec hc
    have h1970 : 1970 ≤ y := by
      by_contra hlt
      have hbefore := daysFromCivil_lt_of_lt hdate' isDate_1970 (.inl (Nat.not_le.1 hlt))
      rw [daysFromCivil_1970] at hbefore
      omega
    have hunix : (cToDateTime c).utc.toUnix = c := by
      rw [hrun, DateTime.utc, Utc.toUnix]
      dsimp only
      rw [hdays]
      omega
    have hvalid : (cToDateTime c).utc.Valid := by
      rw [hrun]
      exact ⟨hdate'.month, hdate'.day, by dsimp only [DateTime.utc]; omega, by dsimp only [DateTime.utc]; omega,
        by dsimp only [DateTime.utc]; omega⟩
    have hyear : (cToDateTime c).year = y := by rw [hrun]
    have heq := dateTimeToC_eq hvalid (by omega) (by omega) (by omega)
    omega
  · have hdays := daysFromCivil_1970_le hdate h1970
    have hunix : dt.utc.toUnix = daysFromCivil dt.year dt.month dt.day * 86400 +
        (dt.hour * 3600 + dt.minute * 60 + dt.second) := rfl
    have hhour : dt.hour ≤ 23 := h.utc.hour
    have hminute : dt.minute ≤ 59 := h.utc.minute
    have hsecond : dt.second ≤ 59 := h.utc.second
    have hyear : dt.year < 4000 := by
      by_contra hge
      have hmono := daysBeforeYear_mono (Nat.not_lt.1 hge)
      have h4000 : daysBeforeYear 4000 = daysBeforeYear 1970 + 741442 := by decide
      have hd := hdate.day.1
      rw [hunix, daysFromCivil] at hlt
      omega
    have heq := dateTimeToC_eq h.utc h1970 hyear hlt
    generalize dateTimeToC dt = c at heq
    obtain ⟨y, m, d, hrun, hdate', hnum, -⟩ := cToDateTime_spec (c := c) (by omega)
    obtain ⟨rfl, rfl, rfl⟩ := daysFromCivil_inj hdate' hdate (by omega)
    rw [hrun]
    refine DateTime.ext rfl rfl rfl ?_ ?_ ?_ rfl rfl rfl
    · dsimp only
      omega
    · dsimp only
      omega
    · dsimp only
      omega

/-- The first of March of the first year that is too large. -/
def farMarch : DateTime := ⟨12626367463884900, 3, 1, 0, 0, 0, 0, 0, false⟩

/-- The number of the last of February is exact, and that of the next day begins anew. -/
theorem dmyToJulian_far :
    farMarch.Valid ∧ dayNumber 12626367463884900 3 1 = 4611686018427396260 ∧
      dmyToJulian 28 2 12626367463884900 = 4611686018427396259 ∧ dmyToJulian 1 3 12626367463884900 = 8356 ∧
      (dmyToJulian 1 3 12626367463884900 : Int) ≠ dayNumber 12626367463884900 3 1 :=
  ⟨⟨⟨by decide, by decide, by decide, by decide, by decide⟩, by decide⟩, by decide, by decide, by decide, by decide⟩

theorem calendar_exact_leap :
    let dt : DateTime := ⟨2000, 2, 29, 12, 0, 0, 0, 0, false⟩
    dt.Valid ∧ 1600 ≤ dt.year ∧
      ((dmyToJulian 29 2 2000 : Int) = dayNumber 2000 2 29 ∧ (getDayOfWeek dt : Int) = weekday 2000 2 29 ↔
        marchYear 2000 2 < yearLimit) :=
  have hvalid : DateTime.Valid ⟨2000, 2, 29, 12, 0, 0, 0, 0, false⟩ :=
    ⟨⟨by decide, by decide, by decide, by decide, by decide⟩, by decide⟩
  ⟨hvalid, by decide, (calendar_exact hvalid (by decide)).1⟩

end NewM2.Winrt.TimeFunc
