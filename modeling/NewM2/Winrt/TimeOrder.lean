import NewM2.Winrt.TimeFunc

/-!
# Comparing and packing times (`library/winrtmod/TimeFunc.mod`)

`compareTime` goes through the fields from the year on; on valid times that is the order of the seconds since
1970 (`compareTime_chronological`). The two words of DOS hold a time of the years 1980 to 2107 but for its odd
seconds (`dos_roundTrip`). -/

namespace NewM2.Winrt.TimeFunc
open SysClock

def cmp (l r : Nat) : Int := if l < r then -1 else if r < l then 1 else 0

/-- `IF c # 0 THEN RETURN c END`, and what follows. -/
def orElse (c d : Int) : Int := if c ≠ 0 then c else d

def compareTime (left right : DateTime) : Int :=
  orElse (cmp left.year right.year) <| orElse (cmp left.month right.month) <|
    orElse (cmp left.day right.day) <| orElse (cmp left.hour right.hour) <|
      orElse (cmp left.minute right.minute) <| orElse (cmp left.second right.second) <|
        cmp left.fractions right.fractions

def dateTimeEqual (left right : DateTime) : Bool := compareTime left right = 0

def dateTimeGreater (left right : DateTime) : Bool := 0 < compareTime left right

/-- The words of the date and of the time. -/
def dateTimeToDos (dt : DateTime) : Nat × Nat :=
  (((minus dt.year 1980 &&& 0x7F) <<< 9 ||| dt.month <<< 5 ||| dt.day) &&& 0xFFFF,
    (dt.hour <<< 11 ||| dt.minute <<< 5 ||| dt.second / 2) &&& 0xFFFF)

def dosToDateTime (date time : Nat) : DateTime where
  year := (date >>> 9 &&& 0x7F) + 1980
  month := date >>> 5 &&& 0x0F
  day := date &&& 0x1F
  hour := time >>> 11 &&& 0x1F
  minute := time >>> 5 &&& 0x3F
  second := (time &&& 0x1F) * 2
  fractions := 0
  zone := 0
  summerTimeFlag := false

/-! ## The order -/

/-- The sign `c` says which of three cases holds. -/
def Signs (c : Int) (lt eq gt : Prop) : Prop := c = -1 ∧ lt ∨ c = 0 ∧ eq ∨ c = 1 ∧ gt

variable {c d : Int} {lt eq gt lt' eq' gt' : Prop} {l r : DateTime}

theorem cmp_signs (a b : Nat) : Signs (cmp a b) (a < b) (a = b) (b < a) := by
  unfold cmp Signs
  split_ifs <;> omega

/-- A later field counts where the earlier ones are the same. -/
theorem Signs.orElse (h : Signs c lt eq gt) (h' : Signs d lt' eq' gt') :
    Signs (orElse c d) (lt ∨ eq ∧ lt') (eq ∧ eq') (gt ∨ eq ∧ gt') := by
  rcases h with ⟨rfl, h⟩ | ⟨rfl, h⟩ | ⟨rfl, h⟩
  · exact .inl ⟨rfl, .inl h⟩
  · rcases h' with ⟨rfl, h'⟩ | ⟨rfl, h'⟩ | ⟨rfl, h'⟩
    · exact .inl ⟨rfl, .inr ⟨h, h'⟩⟩
    · exact .inr (.inl ⟨rfl, h, h'⟩)
    · exact .inr (.inr ⟨rfl, .inr ⟨h, h'⟩⟩)
  · exact .inr (.inr ⟨rfl, .inl h⟩)

/-- The fields in their order. -/
def Earlier (l r : DateTime) : Prop :=
  l.year < r.year ∨ l.year = r.year ∧ (l.month < r.month ∨ l.month = r.month ∧ (l.day < r.day ∨
    l.day = r.day ∧ (l.hour < r.hour ∨ l.hour = r.hour ∧ (l.minute < r.minute ∨ l.minute = r.minute ∧
      (l.second < r.second ∨ l.second = r.second ∧ l.fractions < r.fractions)))))

theorem compareTime_signs (l r : DateTime) : Signs (compareTime l r) (Earlier l r)
    (l.utc = r.utc ∧ l.fractions = r.fractions) (Earlier r l) := by
  have h := (cmp_signs l.year r.year).orElse <| (cmp_signs l.month r.month).orElse <|
    (cmp_signs l.day r.day).orElse <| (cmp_signs l.hour r.hour).orElse <|
      (cmp_signs l.minute r.minute).orElse <| (cmp_signs l.second r.second).orElse <|
        cmp_signs l.fractions r.fractions
  rcases h with ⟨hc, h⟩ | ⟨hc, h⟩ | ⟨hc, h⟩
  · exact .inl ⟨hc, h⟩
  · obtain ⟨hy, hm, hd, hh, hmin, hs, hf⟩ := h
    refine .inr (.inl ⟨hc, ?_, hf⟩)
    rw [DateTime.utc, DateTime.utc, hy, hm, hd, hh, hmin, hs]
  · refine .inr (.inr ⟨hc, ?_⟩)
    simpa only [Earlier, eq_comm] using h

theorem fields_le {dt : DateTime} (h : dt.utc.Valid) :
    dt.month ≤ 12 ∧ dt.day ≤ 31 ∧ dt.hour ≤ 23 ∧ dt.minute ≤ 59 ∧ dt.second ≤ 59 :=
  ⟨h.month.2, h.day.2.trans (monthDays_le _ _), h.hour, h.minute, h.second⟩

/-- Of two valid times the earlier one has fewer seconds, or as many and fewer parts of a second. -/
theorem Earlier.unix (h : Earlier l r) (hl : l.utc.Valid) (hr : r.utc.Valid) :
    l.utc.toUnix < r.utc.toUnix ∨ l.utc.toUnix = r.utc.toUnix ∧ l.fractions < r.fractions := by
  have hdate : IsDate l.year l.month l.day := ⟨hl.month, hl.day⟩
  have hdate' : IsDate r.year r.month r.day := ⟨hr.month, hr.day⟩
  have hlunix : l.utc.toUnix = daysFromCivil l.year l.month l.day * 86400 +
      (l.hour * 3600 + l.minute * 60 + l.second) := rfl
  have hrunix : r.utc.toUnix = daysFromCivil r.year r.month r.day * 86400 +
      (r.hour * 3600 + r.minute * 60 + r.second) := rfl
  obtain ⟨-, -, hhour, hminute, hsecond⟩ := fields_le hl
  -- within one day
  have hday : ∀ {a b : Int}, a < b → l.utc.toUnix = a * 86400 + (l.hour * 3600 + l.minute * 60 + l.second) →
      r.utc.toUnix = b * 86400 + (r.hour * 3600 + r.minute * 60 + r.second) →
      l.utc.toUnix < r.utc.toUnix := by
    intro a b hab hla hrb
    omega
  rcases h with h | ⟨hyear, h | ⟨hmonth, h⟩⟩
  · exact .inl (hday (daysFromCivil_lt_of_lt hdate hdate' (.inl h)) hlunix hrunix)
  · exact .inl (hday (daysFromCivil_lt_of_lt hdate hdate' (.inr ⟨hyear, h⟩)) hlunix hrunix)
  · have hd := hdate.day.1
    have hd' := hdate'.day.1
    rw [hyear, hmonth, daysFromCivil] at hlunix
    rw [daysFromCivil] at hrunix
    omega

/-- The order of CompareTime is that of time. -/
theorem compareTime_chronological (hl : l.utc.Valid) (hr : r.utc.Valid) :
    (compareTime l r < 0 ↔
        l.utc.toUnix < r.utc.toUnix ∨ l.utc.toUnix = r.utc.toUnix ∧ l.fractions < r.fractions) ∧
      (dateTimeEqual l r = true ↔ l.utc.toUnix = r.utc.toUnix ∧ l.fractions = r.fractions) ∧
      (dateTimeGreater l r = true ↔
        r.utc.toUnix < l.utc.toUnix ∨ l.utc.toUnix = r.utc.toUnix ∧ r.fractions < l.fractions) := by
  rw [dateTimeEqual, dateTimeGreater, decide_eq_true_iff, decide_eq_true_iff]
  rcases compareTime_signs l r with ⟨hc, h⟩ | ⟨hc, hutc, hf⟩ | ⟨hc, h⟩
  · have hunix := h.unix hl hr
    rw [hc]
    omega
  · rw [hc, hutc]
    omega
  · have hunix := h.unix hr hl
    rw [hc]
    omega

/-- Noon comes before the second after it. -/
theorem compareTime_chronological_noon :
    compareTime ⟨2000, 2, 29, 12, 0, 0, 0, 0, false⟩ ⟨2000, 2, 29, 12, 0, 1, 0, 0, false⟩ < 0 ↔
      (Utc.mk 2000 2 29 12 0 0).toUnix < (Utc.mk 2000 2 29 12 0 1).toUnix ∨
        (Utc.mk 2000 2 29 12 0 0).toUnix = (Utc.mk 2000 2 29 12 0 1).toUnix ∧ 0 < 0 :=
  (compareTime_chronological (l := ⟨2000, 2, 29, 12, 0, 0, 0, 0, false⟩)
    (r := ⟨2000, 2, 29, 12, 0, 1, 0, 0, false⟩) ⟨by decide, by decide, by decide, by decide, by decide⟩
    ⟨by decide, by decide, by decide, by decide, by decide⟩).1

/-! ## The words of DOS -/

/-- Three fields of a word of 16 bits. -/
theorem packed {a b c i j : Nat} (hb : b < 2 ^ i) (hc : c < 2 ^ j)
    (ha : a * 2 ^ (i + j) + b * 2 ^ j + c < 2 ^ 16) :
    (a <<< (i + j) ||| b <<< j ||| c) &&& 0xFFFF = a * 2 ^ (i + j) + b * 2 ^ j + c := by
  have hhigh : a <<< (i + j) ||| b <<< j = (a * 2 ^ i + b) <<< j := by
    rw [Nat.shiftLeft_add, ← Nat.shiftLeft_or_distrib, ← Nat.shiftLeft_add_eq_or_of_lt hb,
      Nat.shiftLeft_eq a]
  have hword : (a * 2 ^ i + b) * 2 ^ j + c = a * 2 ^ (i + j) + b * 2 ^ j + c := by ring
  rw [hhigh, ← Nat.shiftLeft_add_eq_or_of_lt hc, Nat.shiftLeft_eq, hword]
  exact (Nat.and_two_pow_sub_one_eq_mod _ 16).trans (Nat.mod_eq_of_lt ha)

theorem dateTimeToDos_eq {dt : DateTime} (h : dt.utc.Valid) (hy : 1980 ≤ dt.year) (hy' : dt.year < 2108) :
    dateTimeToDos dt = ((dt.year - 1980) * 512 + dt.month * 32 + dt.day,
      dt.hour * 2048 + dt.minute * 32 + dt.second / 2) := by
  obtain ⟨hmonth, hday, hhour, hminute, hsecond⟩ := fields_le h
  have hyear : minus dt.year 1980 &&& 0x7F = dt.year - 1980 := by
    rw [minus_eq hy (by omega)]
    exact (Nat.and_two_pow_sub_one_eq_mod _ 7).trans (Nat.mod_eq_of_lt (by omega))
  rw [dateTimeToDos, hyear, packed (i := 4) (j := 5) (by omega) (by omega) (by omega),
    packed (i := 6) (j := 5) (by omega) (by omega) (by omega)]
  rfl

theorem dosToDateTime_eq (date time : Nat) : dosToDateTime date time =
    ⟨date / 512 % 128 + 1980, date / 32 % 16, date % 32, time / 2048 % 32, time / 32 % 64, time % 32 * 2,
      0, 0, false⟩ := by
  have hmask : ∀ x k, x &&& (2 ^ k - 1) = x % 2 ^ k := fun x k => Nat.and_two_pow_sub_one_eq_mod x k
  refine DateTime.ext (congrArg (· + 1980) ?_) ?_ ?_ ?_ ?_ (congrArg (· * 2) ?_) rfl rfl rfl
  · exact (hmask _ 7).trans (by rw [Nat.shiftRight_eq_div_pow]; rfl)
  · exact (hmask _ 4).trans (by rw [Nat.shiftRight_eq_div_pow]; rfl)
  · exact hmask date 5
  · exact (hmask _ 5).trans (by rw [Nat.shiftRight_eq_div_pow]; rfl)
  · exact (hmask _ 6).trans (by rw [Nat.shiftRight_eq_div_pow]; rfl)
  · exact hmask time 5

/-- A time goes through the words of DOS but for its odd second, and the words of a valid time go through it. -/
theorem dos_roundTrip :
    (∀ dt : DateTime, dt.utc.Valid → 1980 ≤ dt.year → dt.year < 2108 →
      dosToDateTime (dateTimeToDos dt).1 (dateTimeToDos dt).2 =
        { dt with second := dt.second / 2 * 2, fractions := 0, zone := 0, summerTimeFlag := false }) ∧
      ∀ date time, date < 2 ^ 16 → time < 2 ^ 16 → (dosToDateTime date time).utc.Valid →
        dateTimeToDos (dosToDateTime date time) = (date, time) := by
  constructor
  · intro dt h hy hy'
    obtain ⟨hmonth, hday, hhour, hminute, hsecond⟩ := fields_le h
    rw [dateTimeToDos_eq h hy hy', dosToDateTime_eq]
    refine DateTime.ext ?_ ?_ ?_ ?_ ?_ ?_ rfl rfl rfl <;> dsimp only <;> omega
  · intro date time hdate htime hvalid
    rw [dosToDateTime_eq] at hvalid ⊢
    rw [dateTimeToDos_eq hvalid (by dsimp only; omega) (by dsimp only; omega)]
    refine Prod.ext ?_ ?_ <;> dsimp only <;> omega

/-- The packed words of half past noon on 29 February 2024. -/
theorem dos_roundTrip_noon :
    (dosToDateTime ((2024 - 1980) * 512 + 2 * 32 + 29) (12 * 2048 + 30 * 32)).utc.Valid ∧
      dateTimeToDos (dosToDateTime ((2024 - 1980) * 512 + 2 * 32 + 29) (12 * 2048 + 30 * 32)) =
        ((2024 - 1980) * 512 + 2 * 32 + 29, 12 * 2048 + 30 * 32) := by
  have hvalid : (dosToDateTime ((2024 - 1980) * 512 + 2 * 32 + 29) (12 * 2048 + 30 * 32)).utc.Valid :=
    ⟨by decide, by decide, by decide, by decide, by decide⟩
  exact ⟨hvalid, dos_roundTrip.2 _ _ (by decide) (by decide) hvalid⟩

end NewM2.Winrt.TimeFunc
