import Mathlib
import NewM2.Lib.Digits
import NewM2.Lib.Output
import NewM2.Winrt.Money

/-!
# Texts of amounts (`library/winrtmod/Money.mod`)

`MoneyToString` and `StringToMoney`. A position in an array that is only read is the list of the characters
from there on. -/

namespace NewM2.Winrt.Money
open Chars Digits Output Rounding

def bias : List Word := [5000, 500, 50, 5, 0]

def chop : List Nat := [1, 1000, 100, 10, 1]

/-- The characters that are put, one after the other; `mag` is the magnitude with the bias. -/
def putMoney (neg : Bool) (mag places : Nat) (str : Chars) : Except Fault (Bool × Nat × Chars) :=
  let whole := mag / 10000
  let frac := mag % 10000
  andThen (if neg ∧ (whole ≠ 0 ∨ frac ≠ 0) then putC (code '-') 0 str else .ok (true, 0, str)) fun pos str =>
  andThen (putAll (decimal whole) pos str) fun pos str =>
  if 0 < places then
    andThen (putC (code '.') pos str) fun pos str => putAll (padded places (frac / chop.getD places 1)) pos str
  else .ok (true, pos, str)

/-- The result, and `str`. -/
def moneyToString (num places : Word) (str : Chars) : Except Fault (Bool × Chars) := do
  let places := if 4 < places.toNat then 4 else places.toNat
  let mag := magU num + bias.getD places 0
  let (ok, pos, str) ← putMoney (num.toInt < 0) mag.toNat places str
  if ok then
    let str ← (if pos ≤ str.high then str.put pos nul else .ok str)
    .ok (true, str)
  else .ok (false, str)

def blank : Code := code ' '

/-- The sign, and what is behind it. -/
def readSign : List Code → Bool × List Code
  | [] => (false, [])
  | c :: s => if c = code '-' then (true, s) else if c = code '+' then (false, s) else (false, c :: s)

/-- The digits of the whole part: `wholeMag`, `anyDigit`, and what is behind them. -/
def readWhole (wholeMag : Word) (anyDigit : Bool) : List Code → Word × Bool × List Code
  | [] => (wholeMag, anyDigit, [])
  | c :: s =>
    if isDigit c then readWhole (wholeMag * 10 + BitVec.ofNat 64 (digitVal c)) true s
    else (wholeMag, anyDigit, c :: s)

/-- The digits of the fraction: `frac`, `anyDigit`, and what is behind them. -/
def readFrac (frac place : Word) (nd : Nat) (anyDigit : Bool) : List Code → Word × Bool × List Code
  | [] => (frac, anyDigit, [])
  | c :: s =>
    if isDigit c then
      let d := BitVec.ofNat 64 (digitVal c)
      if nd < 4 then readFrac (frac + d * place) (place / 10) (nd + 1) true s
      else if nd = 4 then readFrac (if 5 ≤ d then frac + 1 else frac) place (nd + 1) true s
      else readFrac frac place (nd + 1) true s
    else (frac, anyDigit, c :: s)

/-- From the point on: `wholeMag`, `frac`, `anyDigit`, and what is behind. -/
def readPoint (wholeMag : Word) (anyDigit : Bool) : List Code → Word × Word × Bool × List Code
  | [] => (wholeMag, 0, anyDigit, [])
  | c :: s =>
    if c = code '.' then
      let (frac, anyDigit, s) := readFrac 0 1000 0 anyDigit s
      if scale ≤ frac then (wholeMag + 1, frac - scale, anyDigit, s) else (wholeMag, frac, anyDigit, s)
    else (wholeMag, 0, anyDigit, c :: s)

/-- The result, and `num`. -/
def stringToMoney (str : Chars) (num : Word) : Bool × Word :=
  let (neg, s) := readSign (str.cells.dropWhile (· = blank))
  let (wholeMag, anyDigit, s) := readWhole 0 false s
  let (wholeMag, frac, anyDigit, s) := readPoint wholeMag anyDigit s
  if !anyDigit then (false, num)
  else
    match s.dropWhile (· = blank) with
    | [] => (true, signed (wholeMag * scale + frac) neg)
    | c :: _ => if c = nul then (true, signed (wholeMag * scale + frac) neg) else (false, num)

/-! ## Texts -/

/-- A decimal number, with blanks around it. -/
def Denotes (t : List Code) (x : ℚ) : Prop :=
  ∃ front sign ip point fp back, t = front ++ sign ++ ip ++ point ++ fp ++ back ∧
    (∀ c ∈ front ++ back, c = blank) ∧ sign ∈ [[], [code '-'], [code '+']] ∧ (∀ c ∈ ip ++ fp, isDigit c) ∧
    (point = [code '.'] ∨ point = [] ∧ fp = []) ∧ ip ++ fp ≠ [] ∧
    x = (if sign = [code '-'] then -1 else 1) * (digitsValue (ip ++ fp) / 10 ^ fp.length)

/-! ## Reading -/

variable {c : Code} {p s t w : List Code} {k m : Nat}

theorem readWhole_eq (p s : List Code) (a : Bool) : readWhole (BitVec.ofNat 64 (digitsValue p)) a s =
    (BitVec.ofNat 64 (digitsValue (p ++ s.takeWhile isDigit)), a || decide (s.takeWhile isDigit ≠ []),
      s.dropWhile isDigit) := by
  induction s generalizing p a with
  | nil => simp [readWhole]
  | cons c s ih =>
    rw [readWhole, List.takeWhile_cons, List.dropWhile_cons]
    by_cases hc : isDigit c
    · have hword : BitVec.ofNat 64 (digitsValue p) * 10 + BitVec.ofNat 64 (digitVal c) =
          BitVec.ofNat 64 (digitsValue (p ++ [c])) := by
        rw [digitsValue_concat, BitVec.ofNat_add, BitVec.ofNat_mul]
        rfl
      rw [if_pos hc, if_pos hc, if_pos hc, hword, ih, List.append_assoc]
      simp
    · rw [if_neg hc, if_neg hc, if_neg hc]
      simp

/-- The fraction of these digits in ten-thousandths, to nearest. -/
def tenThousandths (p : List Code) : Nat :=
  (2 * (digitsValue p * 10000) + 10 ^ p.length) / (2 * 10 ^ p.length)

theorem tenThousandths_of_le (h : p.length + k = 4) : tenThousandths p = digitsValue p * 10 ^ k := by
  have hsplit : (10000 : Nat) = 10 ^ p.length * 10 ^ k := by
    rw [← pow_add, h]
    rfl
  have hpos : 0 < 10 ^ p.length := by positivity
  rw [tenThousandths, hsplit, show 2 * (digitsValue p * (10 ^ p.length * 10 ^ k)) =
    2 * 10 ^ p.length * (digitsValue p * 10 ^ k) by ring, Nat.mul_add_div (by omega),
    Nat.div_eq_of_lt (by omega), Nat.add_zero]

theorem tenThousandths_of_length (h : p.length = m + 5) :
    tenThousandths p = (digitsValue p + 5 * 10 ^ m) / 10 ^ (m + 1) := by
  rw [tenThousandths, h, show 2 * (digitsValue p * 10000) + 10 ^ (m + 5) =
    20000 * (digitsValue p + 5 * 10 ^ m) by ring, show 2 * 10 ^ (m + 5) = 20000 * 10 ^ (m + 1) by ring,
    Nat.mul_div_mul_left _ _ (by decide)]

/-- Digits behind the fifth one do not count. -/
theorem tenThousandths_concat (hc : isDigit c) (h : 5 ≤ p.length) :
    tenThousandths (p ++ [c]) = tenThousandths p := by
  obtain ⟨m, hm⟩ := Nat.exists_eq_add_of_le' h
  have hlen : (p ++ [c]).length = m + 1 + 5 := by rw [List.length_append, List.length_singleton, hm]
  have hval := digitVal_le hc
  have hsum : (digitsValue p * 10 + digitVal c + 5 * 10 ^ (m + 1)) / 10 = digitsValue p + 5 * 10 ^ m := by
    rw [pow_succ]
    omega
  rw [tenThousandths_of_length hm, tenThousandths_of_length hlen, digitsValue_concat, ← hsum,
    Nat.div_div_eq_div_mul, ← pow_succ']

/-- The fifth digit rounds. -/
theorem tenThousandths_five (h : p.length = 4) :
    tenThousandths (p ++ [c]) = digitsValue p + (digitVal c + 5) / 10 := by
  have hlen : (p ++ [c]).length = 0 + 5 := by rw [List.length_append, List.length_singleton, h]
  rw [tenThousandths_of_length hlen, digitsValue_concat]
  omega

/-- The place of the next digit, after `nd` of them. -/
def placeOf (nd : Nat) : Word := [1000, 100, 10, 1].getD nd 0

theorem readFrac_eq (p s : List Code) (a : Bool) :
    readFrac (BitVec.ofNat 64 (tenThousandths p)) (placeOf p.length) p.length a s =
      (BitVec.ofNat 64 (tenThousandths (p ++ s.takeWhile isDigit)),
        a || decide (s.takeWhile isDigit ≠ []), s.dropWhile isDigit) := by
  induction s generalizing p a with
  | nil => simp [readFrac]
  | cons c s ih =>
    rw [readFrac, List.takeWhile_cons, List.dropWhile_cons]
    by_cases hc : isDigit c
    · have hlen : (p ++ [c]).length = p.length + 1 := by rw [List.length_append, List.length_singleton]
      have hnext := ih (p ++ [c]) true
      rw [hlen] at hnext
      have hval := digitVal_le hc
      have hconcat : p ++ c :: s.takeWhile isDigit = p ++ [c] ++ s.takeWhile isDigit := by simp
      rw [if_pos hc, if_pos hc, if_pos hc, hconcat]
      simp only [ne_eq, reduceCtorEq, not_false_eq_true, decide_true, Bool.or_true]
      rw [Bool.true_or] at hnext
      rw [← hnext]
      by_cases h4 : p.length < 4
      · obtain ⟨k, hk⟩ : ∃ k, p.length + (k + 1) = 4 := ⟨3 - p.length, by omega⟩
        have hplace : placeOf p.length = BitVec.ofNat 64 (10 ^ k) ∧
            placeOf p.length / 10 = placeOf (p.length + 1) := by
          obtain rfl : k = 3 - p.length := by omega
          generalize p.length = n at h4
          interval_cases n <;> decide
        rw [if_pos h4, hplace.2, tenThousandths_of_le hk, tenThousandths_of_le (p := p ++ [c]) (k := k) (by omega),
          hplace.1, ← BitVec.ofNat_mul, ← BitVec.ofNat_add, digitsValue_concat]
        congr 2
        ring
      · have hplace : placeOf (p.length + 1) = placeOf p.length := by
          rw [placeOf, placeOf, List.getD_eq_default _ _ (by simp; omega), List.getD_eq_default _ _ (by simp; omega)]
        rw [if_neg h4, hplace]
        by_cases h5 : p.length = 4
        · have hword : (5 ≤ BitVec.ofNat 64 (digitVal c)) ↔ 5 ≤ digitVal c := by
            rw [BitVec.le_def, BitVec.toNat_ofNat, Nat.mod_eq_of_lt (by omega)]
            rfl
          rw [if_pos h5, tenThousandths_five h5, tenThousandths_of_le (k := 0) (by omega), pow_zero, Nat.mul_one]
          by_cases hup : 5 ≤ digitVal c
          · rw [if_pos (hword.2 hup), show (digitVal c + 5) / 10 = 1 by omega, BitVec.ofNat_add]
            rfl
          · have hdown : digitsValue p + (digitVal c + 5) / 10 = digitsValue p := by omega
            rw [if_neg (mt hword.1 hup), hdown]
        · rw [if_neg h5, tenThousandths_concat hc (by omega)]
    · rw [if_neg hc, if_neg hc, if_neg hc]
      simp

def isBlank (c : Code) : Bool := c = blank

def isSign (c : Code) : Bool := c = code '-' ∨ c = code '+'

/-- A string, cut where the loops of `StringToMoney` stop. -/
structure Parts (s front sign ip point fp back rest : List Code) : Prop where
  cut : s = front ++ (sign ++ (ip ++ (point ++ (fp ++ (back ++ rest)))))
  front_blank : ∀ c ∈ front, isBlank c
  front_stops : Stops isBlank (sign ++ (ip ++ (point ++ (fp ++ (back ++ rest)))))
  sign_mem : sign ∈ [[], [code '-'], [code '+']]
  sign_stops : sign = [] → Stops isSign (ip ++ (point ++ (fp ++ (back ++ rest))))
  ip_digits : ∀ c ∈ ip, isDigit c
  ip_stops : Stops isDigit (point ++ (fp ++ (back ++ rest)))
  point_or : point = [code '.'] ∨ point = [] ∧ fp = [] ∧ Stops (· = code '.') (back ++ rest)
  fp_digits : ∀ c ∈ fp, isDigit c
  fp_stops : Stops isDigit (back ++ rest)
  back_blank : ∀ c ∈ back, isBlank c
  back_stops : Stops isBlank rest

theorem readSign_eq (s : List Code) : ∃ sign, s = sign ++ (readSign s).2 ∧
    sign ∈ [[], [code '-'], [code '+']] ∧ (sign = [] → Stops isSign (readSign s).2) ∧
    (readSign s).1 = decide (sign = [code '-']) := by
  rcases s with - | ⟨c, s⟩
  · exact ⟨[], rfl, by simp, fun _ => by simp [Stops, readSign], by simp [readSign]⟩
  rw [readSign]
  by_cases hminus : c = code '-'
  · rw [if_pos hminus, hminus]
    exact ⟨[code '-'], rfl, by simp, by simp, by simp⟩
  rw [if_neg hminus]
  by_cases hplus : c = code '+'
  · rw [if_pos hplus, hplus]
    exact ⟨[code '+'], rfl, by simp, by simp, rfl⟩
  · rw [if_neg hplus]
    exact ⟨[], rfl, by simp, fun _ => stops_cons.2 (by simp [isSign, hminus, hplus]), by simp⟩

theorem signed_parts {front sign ip point fp back rest : List Code}
    (h : Parts s front sign ip point fp back rest) :
    readSign (s.dropWhile isBlank) =
      (decide (sign = [code '-']), ip ++ (point ++ (fp ++ (back ++ rest)))) := by
  have hsign := h.sign_mem
  rw [h.cut, dropWhile_append h.front_blank h.front_stops]
  simp only [List.mem_cons, List.not_mem_nil, or_false] at hsign
  rcases hsign with rfl | rfl | rfl
  · have hstops := h.sign_stops rfl
    rw [List.nil_append]
    generalize ip ++ (point ++ (fp ++ (back ++ rest))) = t at hstops
    rcases t with - | ⟨c, t⟩
    · simp [readSign]
    · have hc := stops_cons.1 hstops
      simp only [isSign, decide_eq_false_iff_not, not_or] at hc
      rw [readSign, if_neg hc.1, if_neg hc.2]
      simp
  · rw [List.singleton_append, readSign, if_pos rfl]
    simp
  · rw [List.singleton_append, readSign, if_neg (by decide), if_pos rfl]
    rfl

/-- The whole part and the fraction, with the carry between them. -/
theorem readPoint_parts {front sign ip point fp back rest : List Code}
    (h : Parts s front sign ip point fp back rest) (wholeMag : Word) (a : Bool) :
    ∃ w f, readPoint wholeMag a (point ++ (fp ++ (back ++ rest))) =
        (w, f, a || decide (fp ≠ []), back ++ rest) ∧
      w * scale + f = wholeMag * scale + BitVec.ofNat 64 (tenThousandths fp) := by
  rcases h.point_or with rfl | ⟨rfl, rfl, hstops⟩
  · have hfrac := readFrac_eq [] (fp ++ (back ++ rest)) a
    rw [List.nil_append, takeWhile_append h.fp_digits h.fp_stops,
      dropWhile_append h.fp_digits h.fp_stops] at hfrac
    rw [List.singleton_append, readPoint, if_pos rfl,
      show readFrac 0 1000 0 a (fp ++ (back ++ rest)) = _ from hfrac]
    dsimp only
    split_ifs with hcarry
    · refine ⟨_, _, rfl, ?_⟩
      ring
    · exact ⟨_, _, rfl, rfl⟩
  · rw [List.nil_append, List.nil_append]
    refine ⟨wholeMag, 0, ?_, ?_⟩
    · generalize back ++ rest = t at hstops
      rcases t with - | ⟨c, t⟩
      · simp [readPoint]
      · have hc : c ≠ code '.' := by simpa using stops_cons.1 hstops
        rw [readPoint, if_neg hc]
        simp
    · rw [show tenThousandths [] = 0 from rfl]
      rfl

/-- The magnitude that `StringToMoney` is to compute. -/
def magnitude (ip fp : List Code) : Nat := digitsValue ip * 10000 + tenThousandths fp

theorem stringToMoney_parts {str : Chars} {front sign ip point fp back rest : List Code} (num : Word)
    (h : Parts str.cells front sign ip point fp back rest) :
    stringToMoney str num =
      if ip ++ fp ≠ [] ∧ Stops (· ≠ nul) rest then
        (true, signed (BitVec.ofNat 64 (magnitude ip fp)) (decide (sign = [code '-'])))
      else (false, num) := by
  have hwhole := readWhole_eq [] (ip ++ (point ++ (fp ++ (back ++ rest)))) false
  rw [List.nil_append, takeWhile_append h.ip_digits h.ip_stops,
    dropWhile_append h.ip_digits h.ip_stops] at hwhole
  obtain ⟨w, f, hpoint, hsum⟩ := readPoint_parts h (BitVec.ofNat 64 (digitsValue ip)) (decide (ip ≠ []))
  have hmag : w * scale + f = BitVec.ofNat 64 (magnitude ip fp) := by
    rw [hsum, magnitude, BitVec.ofNat_add, BitVec.ofNat_mul]
    rfl
  have hany : (decide (ip ≠ []) || decide (fp ≠ [])) = decide (ip ++ fp ≠ []) := by
    cases ip <;> cases fp <;> rfl
  rw [stringToMoney, show str.cells.dropWhile (· = blank) = str.cells.dropWhile isBlank from rfl, signed_parts h]
  dsimp only
  rw [show readWhole 0 false _ = _ from hwhole]
  dsimp only
  rw [Bool.false_or, hpoint]
  dsimp only
  rw [hany, show (back ++ rest).dropWhile (· = blank) = rest from dropWhile_append h.back_blank h.back_stops, hmag]
  by_cases hempty : ip ++ fp = []
  · rw [if_pos (by simp [hempty]), if_neg (by simp [hempty])]
  rw [if_neg (by simpa using hempty)]
  rcases rest with - | ⟨c, rest⟩
  · rw [if_pos ⟨hempty, by simp [Stops]⟩]
  · dsimp only
    by_cases hc : c = nul
    · rw [if_pos hc, if_pos ⟨hempty, stops_cons.2 (by simp [hc])⟩]
    · rw [if_neg hc, if_neg fun h' => hc (by simpa using stops_cons.1 h'.2)]

theorem exists_parts (s : List Code) : ∃ front sign ip point fp back rest,
    Parts s front sign ip point fp back rest := by
  obtain ⟨sign, hsign, hmem, hstops, -⟩ := readSign_eq (s.dropWhile isBlank)
  generalize (readSign (s.dropWhile isBlank)).2 = s₁ at hsign hstops
  have hcut : s = s.takeWhile isBlank ++ (sign ++ s₁) := by
    rw [← hsign, List.takeWhile_append_dropWhile]
  have hmemWhile : ∀ {f : Code → Bool} {t : List Code}, ∀ c ∈ t.takeWhile f, f c := fun _ hc =>
    List.mem_takeWhile_imp hc
  have hblank : Stops isBlank (sign ++ s₁) := hsign ▸ stops_dropWhile isBlank s
  have hip : s₁ = s₁.takeWhile isDigit ++ s₁.dropWhile isDigit := List.takeWhile_append_dropWhile.symm
  have hipStops := stops_dropWhile isDigit s₁
  generalize s₁.dropWhile isDigit = s₂ at hip hipStops
  obtain ⟨point, s₃, rfl, hpoint⟩ : ∃ point s₃, s₂ = point ++ s₃ ∧
      (point = [code '.'] ∨ point = [] ∧ Stops (· = code '.') s₃ ∧ Stops isDigit s₃) := by
    rcases s₂ with - | ⟨c, s₂⟩
    · exact ⟨[], [], rfl, .inr ⟨rfl, by simp [Stops], hipStops⟩⟩
    · by_cases hc : c = code '.'
      · exact ⟨[code '.'], s₂, by rw [hc]; rfl, .inl rfl⟩
      · exact ⟨[], c :: s₂, rfl, .inr ⟨rfl, stops_cons.2 (by simpa using hc), hipStops⟩⟩
  have hfp : s₃ = s₃.takeWhile isDigit ++ s₃.dropWhile isDigit := List.takeWhile_append_dropWhile.symm
  have hback : s₃.dropWhile isDigit = (s₃.dropWhile isDigit).takeWhile isBlank ++
      (s₃.dropWhile isDigit).dropWhile isBlank := List.takeWhile_append_dropWhile.symm
  refine ⟨s.takeWhile isBlank, sign, s₁.takeWhile isDigit, point, s₃.takeWhile isDigit,
    (s₃.dropWhile isDigit).takeWhile isBlank, (s₃.dropWhile isDigit).dropWhile isBlank, ?_⟩
  constructor
  case cut => rwa [← hback, ← hfp, ← hip]
  case front_blank => exact hmemWhile
  case front_stops => rwa [← hback, ← hfp, ← hip]
  case sign_mem => exact hmem
  case sign_stops => rwa [← hback, ← hfp, ← hip]
  case ip_digits => exact hmemWhile
  case ip_stops => rwa [← hback, ← hfp]
  case point_or =>
    rw [← hback]
    refine hpoint.imp_right ?_
    rintro ⟨hnil, hdot, hdigit⟩
    refine ⟨hnil, takeWhile_append (v := []) (by simp) hdigit, ?_⟩
    rwa [show s₃.dropWhile isDigit = s₃ from dropWhile_append (v := []) (by simp) hdigit]
  case fp_digits => exact hmemWhile
  case fp_stops =>
    rw [← hback]
    exact stops_dropWhile isDigit s₃
  case back_blank => exact hmemWhile
  case back_stops => exact stops_dropWhile isBlank _

theorem ne_nul_of_isDigit (h : isDigit c) : c ≠ nul := by
  rintro rfl
  exact absurd h (by decide)

theorem roundAway_magnitude (ip fp : List Code) :
    roundAway ((digitsValue (ip ++ fp) : ℚ) / 10 ^ fp.length * 10000) = magnitude ip fp := by
  have hpow : 0 < 10 ^ fp.length := by positivity
  have hquot : (digitsValue (ip ++ fp) : ℚ) / 10 ^ fp.length * 10000 =
      ((digitsValue (ip ++ fp) * 10000 : Nat) : ℚ) / (10 ^ fp.length : Nat) := by
    push_cast
    ring
  have hsum : 2 * (digitsValue (ip ++ fp) * 10000) + 10 ^ fp.length =
      2 * 10 ^ fp.length * (digitsValue ip * 10000) + (2 * (digitsValue fp * 10000) + 10 ^ fp.length) := by
    rw [digitsValue_append]
    ring
  rw [hquot, roundAway_div _ hpow, hsum, Nat.mul_add_div (by omega), magnitude, tenThousandths]

/-- A text that is a number is cut into its parts. -/
theorem Denotes.parts {x : ℚ} {rest : List Code} (h : Denotes t x) (hrest : Stops (· ≠ nul) rest) :
    ∃ front sign ip point fp back, Parts (t ++ rest) front sign ip point fp back rest ∧ ip ++ fp ≠ [] ∧
      x = (if sign = [code '-'] then -1 else 1) * (digitsValue (ip ++ fp) / 10 ^ fp.length) := by
  obtain ⟨front, sign, ip, point, fp, back, rfl, hblank, hsign, hdigits, hpoint, hne, hx⟩ := h
  refine ⟨front, sign, ip, point, fp, back, ?_, hne, hx⟩
  have hfront : ∀ c ∈ front, isBlank c := fun c hc => by simp [isBlank, hblank c (List.mem_append_left _ hc)]
  have hback : ∀ c ∈ back, isBlank c := fun c hc => by simp [isBlank, hblank c (List.mem_append_right _ hc)]
  have hip : ∀ c ∈ ip, isDigit c := fun c hc => hdigits c (List.mem_append_left _ hc)
  have hfp : ∀ c ∈ fp, isDigit c := fun c hc => hdigits c (List.mem_append_right _ hc)
  -- what may follow the number
  have hend : ∀ f : Code → Bool, f blank = false → f nul = false → Stops f (back ++ rest) := by
    intro f hf hf'
    rcases back with - | ⟨c, back⟩
    · intro c hc
      have hnul : c = nul := by simpa using hrest c hc
      rwa [hnul]
    · have hc : c = blank := hblank c (by simp)
      rw [List.cons_append, stops_cons, hc, hf]
  -- what the number may begin with
  have hbegin : ∀ f : Code → Bool, (∀ c, isDigit c → f c = false) → f (code '.') = false →
      Stops f (ip ++ (point ++ (fp ++ (back ++ rest)))) := by
    intro f hf hf'
    rcases ip with - | ⟨c, ip⟩
    · rcases hpoint with rfl | ⟨rfl, rfl⟩
      · exact stops_cons.2 hf'
      · exact absurd rfl hne
    · exact stops_cons.2 (hf c (hip c (List.mem_cons_self ..)))
  have hno : ∀ {d : Code}, isDigit d = false → ∀ c, isDigit c → c ≠ d := by
    rintro d hd c hc rfl
    rw [hc] at hd
    exact absurd hd (by decide)
  constructor
  case cut => simp only [List.append_assoc]
  case front_blank => exact hfront
  case front_stops =>
    simp only [List.mem_cons, List.not_mem_nil, or_false] at hsign
    rcases hsign with rfl | rfl | rfl
    · exact hbegin isBlank (fun c hc => by simpa [isBlank] using hno (d := blank) rfl c hc) rfl
    · exact stops_cons.2 rfl
    · exact stops_cons.2 rfl
  case sign_mem => exact hsign
  case sign_stops =>
    refine fun _ => hbegin isSign (fun c hc => ?_) rfl
    have hminus := hno (d := code '-') rfl c hc
    have hplus := hno (d := code '+') rfl c hc
    simp [isSign, hminus, hplus]
  case ip_digits => exact hip
  case ip_stops =>
    rcases hpoint with rfl | ⟨rfl, rfl⟩
    · exact stops_cons.2 rfl
    · exact hend isDigit rfl rfl
  case point_or => exact hpoint.imp_right fun ⟨h₁, h₂⟩ => ⟨h₁, h₂, hend _ rfl rfl⟩
  case fp_digits => exact hfp
  case fp_stops => exact hend isDigit rfl rfl
  case back_blank => exact hback
  case back_stops =>
    intro c hc
    have hnul : c = nul := by simpa using hrest c hc
    rw [hnul]
    rfl

/-- What is cut into its parts and has digits is a number, up to the rest. -/
theorem Parts.denotes {front sign ip point fp back rest : List Code}
    (h : Parts s front sign ip point fp back rest) (hne : ip ++ fp ≠ []) :
    Denotes (front ++ sign ++ ip ++ point ++ fp ++ back)
      ((if sign = [code '-'] then -1 else 1) * (digitsValue (ip ++ fp) / 10 ^ fp.length)) := by
  refine ⟨front, sign, ip, point, fp, back, rfl, ?_, h.sign_mem, ?_,
    h.point_or.imp_right fun h' => ⟨h'.1, h'.2.1⟩, hne, rfl⟩
  · intro c hc
    have hc := (List.mem_append.1 hc).elim (h.front_blank c) (h.back_blank c)
    simpa [isBlank] using hc
  · exact fun c hc => (List.mem_append.1 hc).elim (h.ip_digits c) (h.fp_digits c)

theorem Denotes.nul_notMem {x : ℚ} (h : Denotes t x) : nul ∉ t := by
  obtain ⟨front, sign, ip, point, fp, back, rfl, hblank, hsign, hdigits, hpoint, -, -⟩ := h
  have hsign : nul ∉ sign := by
    simp only [List.mem_cons, List.not_mem_nil, or_false] at hsign
    rcases hsign with rfl | rfl | rfl <;> decide
  have hpoint : nul ∉ point := by
    rcases hpoint with rfl | ⟨rfl, -⟩ <;> decide
  have hb : nul ∉ front ++ back := fun hc => absurd (hblank nul hc) (by decide)
  have hd : nul ∉ ip ++ fp := fun hc => absurd (hdigits nul hc) (by decide)
  simp only [List.mem_append, not_or] at hb hd ⊢
  exact ⟨⟨⟨⟨⟨hb.1, hsign⟩, hd.1⟩, hpoint⟩, hd.2⟩, hb.2⟩

/-- A string with TRUE is a number. -/
theorem stringToMoney_denotes {str : Chars} {num : Word} (h : (stringToMoney str num).1 = true) :
    ∃ x, Denotes str.text x := by
  obtain ⟨front, sign, ip, point, fp, back, rest, hparts⟩ := exists_parts str.cells
  rw [stringToMoney_parts num hparts] at h
  split_ifs at h with hends
  · obtain ⟨hne, hrest⟩ := hends
    have hdenotes := hparts.denotes hne
    have htext : str.text = front ++ sign ++ ip ++ point ++ fp ++ back := by
      have hcut : front ++ (sign ++ (ip ++ (point ++ (fp ++ (back ++ rest))))) =
          front ++ sign ++ ip ++ point ++ fp ++ back ++ rest := by simp only [List.append_assoc]
      rw [Chars.text, hparts.cut, hcut]
      exact takeWhile_append (fun c hc => by
        simpa using fun hnul : c = nul => hdenotes.nul_notMem (hnul ▸ hc)) hrest
    exact ⟨_, htext ▸ hdenotes⟩

/-- A number is read, by its magnitude. -/
theorem stringToMoney_number {str : Chars} {x : ℚ} (h : Denotes str.text x) (num : Word) :
    ∃ (n : Nat) (neg : Bool), stringToMoney str num = (true, signed (BitVec.ofNat 64 n) neg) ∧
      roundAway (x * 10000) = if neg then -(n : Int) else n := by
  obtain ⟨rest, hcells, hrest⟩ := exists_rest str
  obtain ⟨front, sign, ip, point, fp, back, hparts, hne, rfl⟩ := h.parts hrest
  rw [← hcells] at hparts
  refine ⟨magnitude ip fp, decide (sign = [code '-']), ?_, ?_⟩
  · rw [stringToMoney_parts num hparts, if_pos ⟨hne, hrest⟩]
  · simp only [decide_eq_true_eq]
    split_ifs
    · rw [neg_one_mul, neg_mul, roundAway_neg, roundAway_magnitude]
    · rw [one_mul, roundAway_magnitude]

/-- A number that Money has is read. -/
theorem stringToMoney_of_denotes {str : Chars} {x : ℚ} (h : Denotes str.text x)
    (hmoney : IsMoney (roundAway (x * 10000))) (num : Word) :
    ∃ m, stringToMoney str num = (true, m) ∧ m.toInt = roundAway (x * 10000) := by
  obtain ⟨n, neg, hread, hround⟩ := stringToMoney_number h num
  rw [hround] at hmoney ⊢
  obtain ⟨hlow, hhigh⟩ := hmoney
  have hlt : n < 2 ^ 64 := by split_ifs at hlow hhigh <;> omega
  have hword : (BitVec.ofNat 64 n).toNat = n := by rw [BitVec.toNat_ofNat, Nat.mod_eq_of_lt hlt]
  exact ⟨_, hread, signed_toInt (by rw [hword]) hlow hhigh⟩

/-! ## Writing -/

/-- The text of an amount with the magnitude `mag`. -/
def moneyText (neg : Bool) (mag places : Nat) : List Code :=
  (if neg ∧ (mag / 10000 ≠ 0 ∨ mag % 10000 ≠ 0) then [code '-'] else []) ++ (decimal (mag / 10000) ++
    if 0 < places then code '.' :: padded places (mag % 10000 / chop.getD places 1) else [])

section writing
variable {str : Chars} {allowed : Fault → Prop}

theorem putMoney_runs (neg : Bool) (mag places : Nat) (str : Chars) :
    Runs allowed (putMoney neg mag places str) (Puts [] (moneyText neg mag places) str.size) := by
  have hstart : Wrote [] str.size 0 str := ⟨rfl, Nat.zero_le _, rfl, fun j hj => absurd hj (Nat.not_lt_zero j)⟩
  rw [putMoney, moneyText]
  refine Puts.andThen ?_ fun k out h => Puts.andThen (putAll_runs h _) fun k out h => ?_
  · split_ifs
    · exact putC_runs hstart _
    · exact Runs.ok (Puts.nil hstart)
  · by_cases hp : 0 < places
    · rw [if_pos hp, if_pos hp]
      exact Puts.andThen (putC_runs h _) fun k out h => putAll_runs h _
    · rw [if_neg hp, if_neg hp]
      exact Runs.ok (Puts.nil h)

theorem moneyText_nul (neg : Bool) (mag places : Nat) : nul ∉ moneyText neg mag places := by
  have hdigits : ∀ {ds : List Code}, (∀ c ∈ ds, isDigit c) → nul ∉ ds := fun h hc =>
    ne_nul_of_isDigit (h nul hc) rfl
  rw [moneyText, List.mem_append, List.mem_append, not_or, not_or]
  refine ⟨?_, hdigits (decimal_isDigit _), ?_⟩
  · split_ifs <;> decide
  · split_ifs
    · rw [List.mem_cons, not_or]
      exact ⟨by decide, hdigits (padded_isDigit _ _)⟩
    · exact List.not_mem_nil

/-- With room for the text, the array has it; otherwise the result is FALSE. -/
theorem moneyToString_runs (num places : Word) (str : Chars) {p mag : Nat} {text : List Code}
    (hp : (if 4 < places.toNat then 4 else places.toNat) = p)
    (hmag : (magU num + bias.getD p 0).toNat = mag) (htext : moneyText (num.toInt < 0) mag p = text) :
    Runs allowed (moneyToString num places str) fun r =>
      if text.length ≤ str.size then r.1 = true ∧ r.2.text = text else r.1 = false := by
  rw [moneyToString]
  dsimp only
  rw [hp, hmag]
  have hput : Runs allowed (putMoney (num.toInt < 0) mag p str) _ := putMoney_runs _ _ _ _
  rw [htext] at hput
  refine hput.bind ?_
  rintro ⟨ok, pos, out⟩ hputs
  rw [Puts, List.nil_append] at hputs
  split_ifs at hputs with hfits
  · obtain ⟨rfl, hwrote⟩ := hputs
    dsimp only at hwrote ⊢
    have hnul := htext ▸ moneyText_nul (num.toInt < 0) mag p
    refine Runs.bind (terminate_runs (v := text) hwrote.size (by rw [hwrote.count])
      fun j _ hj => hwrote.cells j (by rwa [hwrote.count])) fun out' hassigned => Runs.ok ?_
    rw [if_pos hfits]
    refine ⟨rfl, ?_⟩
    rw [hassigned.text hnul, List.take_of_length_le hfits]
  · obtain rfl : ok = false := hputs
    refine Runs.ok ?_
    rw [if_neg hfits]

end writing

/-! ## Amounts as texts -/

/-- The multiple of `10 ^ -places` nearest to the amount, ties away from zero. -/
def shown (num : Word) (places : Nat) : ℚ :=
  roundAway ((num.toInt / 10000 : ℚ) * 10 ^ places) / 10 ^ places

/-- The texts of the amount `num` and the amount of the text `s`; a result with FALSE promises nothing, but
21 characters are enough. -/
structure TextExact (num places : Word) (s : Chars) (old : Word) : Prop where
  roundTrip : ∀ str, ∃ ok str', moneyToString num 4 str = .ok (ok, str') ∧ (21 ≤ str.size → ok = true) ∧
    (ok = true → stringToMoney str' old = (true, num))
  text : places.toNat ≤ 4 → ∀ str, ∃ ok str', moneyToString num places str = .ok (ok, str') ∧
    (21 ≤ str.size → ok = true) ∧ (ok = true → Denotes str'.text (shown num places.toNat) ∧
      (str'.text.head? = some (code '-') ↔ shown num places.toNat < 0))
  number : (stringToMoney s old).1 = true → (∃ x, Denotes s.text x) ∧ ∀ x, Denotes s.text x →
    IsMoney (roundAway (x * 10000)) ∧ (stringToMoney s old).2.toInt = roundAway (x * 10000)

section exact
variable {num places : Word} {p : Nat}

/-- The magnitude with the bias. -/
theorem biased (num : Word) (hp : p ≤ 4) :
    (magU num + bias.getD p 0).toNat = num.toInt.natAbs + 10 ^ (4 - p) / 2 := by
  have hbias : (bias.getD p 0).toNat = 10 ^ (4 - p) / 2 := by interval_cases p <;> rfl
  have hle := magU_le num
  have hpow : 10 ^ (4 - p) / 2 ≤ 5000 := by
    interval_cases p <;> decide
  rw [BitVec.toNat_add, hbias, Nat.mod_eq_of_lt (by omega), magU_toNat]

/-- The digits that are shown. -/
theorem digits_shown {mag : Nat} (hp : p ≤ 4) :
    digitsValue (decimal (mag / 10000) ++ padded p (mag % 10000 / 10 ^ (4 - p))) = mag / 10 ^ (4 - p) := by
  have hlt : mag % 10000 / 10 ^ (4 - p) < 10 ^ p := by
    interval_cases p <;> norm_num <;> omega
  rw [digitsValue_append, digitsValue_decimal, digitsValue_padded hlt, length_padded]
  interval_cases p <;> norm_num <;> omega

theorem shown_eq (num : Word) (hp : p ≤ 4) : shown num p =
    (if num.toInt < 0 then -1 else 1) *
      (((num.toInt.natAbs + 10 ^ (4 - p) / 2) / 10 ^ (4 - p) : Nat) / 10 ^ p) := by
  have hround : roundAway ((num.toInt.natAbs / 10000 : ℚ) * 10 ^ p) =
      ((num.toInt.natAbs + 10 ^ (4 - p) / 2) / 10 ^ (4 - p) : Nat) := by
    have hsplit : (10000 : ℚ) = 10 ^ (4 - p) * 10 ^ p := by
      rw [← pow_add, Nat.sub_add_cancel hp]
      norm_num
    have hquot : (num.toInt.natAbs / 10000 : ℚ) * 10 ^ p = num.toInt.natAbs / (10 ^ (4 - p) : Nat) := by
      rw [hsplit]
      push_cast
      field_simp
    rw [hquot, roundAway_div _ (by positivity)]
    congr 1
    interval_cases p <;> norm_num <;> omega
  rw [shown, cast_toInt]
  split_ifs
  · rw [neg_div, neg_mul, roundAway_neg, hround, Int.cast_neg, Int.cast_natCast]
    ring
  · rw [hround, Int.cast_natCast]
    ring

/-- The text that is written for the amount. -/
def amountText (num : Word) (p : Nat) : List Code :=
  moneyText (num.toInt < 0) (num.toInt.natAbs + 10 ^ (4 - p) / 2) p

theorem amountText_eq (num : Word) (hp : p ≤ 4) : amountText num p =
    (if num.toInt < 0 then [code '-'] else []) ++
      (decimal ((num.toInt.natAbs + 10 ^ (4 - p) / 2) / 10000) ++
      if 0 < p then
        code '.' :: padded p ((num.toInt.natAbs + 10 ^ (4 - p) / 2) % 10000 / 10 ^ (4 - p))
      else []) := by
  have hsign : (decide (num.toInt < 0) = true ∧ ((num.toInt.natAbs + 10 ^ (4 - p) / 2) / 10000 ≠ 0 ∨
      (num.toInt.natAbs + 10 ^ (4 - p) / 2) % 10000 ≠ 0)) ↔ num.toInt < 0 := by
    rw [decide_eq_true_eq]
    generalize 10 ^ (4 - p) / 2 = b
    omega
  have hchop : 0 < p → chop.getD p 1 = 10 ^ (4 - p) := by interval_cases p <;> decide
  rw [amountText, moneyText]
  simp only [hsign]
  by_cases h0 : 0 < p
  · rw [hchop h0]
  · rw [if_neg h0, if_neg h0]

theorem amountText_denotes (num : Word) (hp : p ≤ 4) : Denotes (amountText num p) (shown num p) := by
  have hdigits := @digits_shown p (num.toInt.natAbs + 10 ^ (4 - p) / 2) hp
  have hmem : (if num.toInt < 0 then [code '-'] else []) ∈ [[], [code '-'], [code '+']] := by
    split_ifs <;> decide
  have hsign : (if (if num.toInt < 0 then [code '-'] else []) = [code '-'] then -1 else (1 : ℚ)) =
      if num.toInt < 0 then -1 else 1 := by
    split_ifs <;> first | rfl | contradiction
  have hne : ∀ n ds, decimal n ++ ds ≠ [] := fun n ds h => decimal_ne_nil n (List.append_eq_nil_iff.1 h).1
  rw [amountText_eq num hp, shown_eq num hp]
  generalize num.toInt.natAbs + 10 ^ (4 - p) / 2 = mag at hdigits
  by_cases h0 : 0 < p
  · rw [if_pos h0]
    refine ⟨[], _, decimal (mag / 10000), [code '.'], padded p (mag % 10000 / 10 ^ (4 - p)), [], ?_,
      by simp, hmem, ?_, .inl rfl, hne _ _, ?_⟩
    · simp only [List.nil_append, List.append_nil, List.append_assoc, List.singleton_append]
    · rw [List.forall_mem_append]
      exact ⟨decimal_isDigit _, padded_isDigit _ _⟩
    · rw [hdigits, hsign, length_padded]
  · obtain rfl : p = 0 := by omega
    rw [if_neg h0]
    refine ⟨[], _, decimal (mag / 10000), [], [], [], ?_, by simp, hmem, ?_, .inr ⟨rfl, rfl⟩, hne _ _, ?_⟩
    · simp only [List.nil_append, List.append_nil]
    · rw [List.append_nil]
      exact decimal_isDigit _
    · rw [hsign, List.append_nil, digitsValue_decimal]
      rfl

theorem length_amountText (num : Word) (hp : p ≤ 4) : (amountText num p).length ≤ 21 := by
  have hle := magU_le num
  have hpow : 10 ^ (4 - p) / 2 ≤ 5000 := by interval_cases p <;> decide
  rw [magU_toNat] at hle
  have hdec := length_decimal_le (k := 15) (n := (num.toInt.natAbs + 10 ^ (4 - p) / 2) / 10000)
    (by decide) (by omega)
  have hsign : (if num.toInt < 0 then [code '-'] else []).length ≤ 1 := by split_ifs <;> decide
  have hfrac : (if 0 < p then
      code '.' :: padded p ((num.toInt.natAbs + 10 ^ (4 - p) / 2) % 10000 / 10 ^ (4 - p)) else []).length ≤ 5 := by
    split_ifs
    · rw [List.length_cons, length_padded]
      omega
    · exact Nat.zero_le _
  rw [amountText_eq num hp, List.length_append, List.length_append]
  omega

theorem head_amountText (num : Word) (hp : p ≤ 4) :
    (amountText num p).head? = some (code '-') ↔ num.toInt < 0 := by
  rw [amountText_eq num hp]
  by_cases hneg : num.toInt < 0
  · rw [if_pos hneg]
    exact iff_of_true rfl hneg
  · rw [if_neg hneg, List.nil_append, List.head?_append_of_ne_nil _ (decimal_ne_nil _)]
    refine iff_of_false (fun h => ?_) hneg
    exact absurd (decimal_isDigit _ _ (List.mem_of_mem_head? h)) (by decide)

theorem shown_neg_iff (num : Word) (hp : p ≤ 4) :
    shown num p < 0 ↔ num.toInt < 0 ∧ 10 ^ (4 - p) ≤ 2 * num.toInt.natAbs := by
  have hquot : (num.toInt.natAbs + 10 ^ (4 - p) / 2) / 10 ^ (4 - p) ≠ 0 ↔
      num.toInt.natAbs ≠ 0 ∧ 10 ^ (4 - p) ≤ 2 * num.toInt.natAbs := by
    interval_cases p <;> norm_num <;> omega
  have hpow : (0 : ℚ) < 10 ^ p := by positivity
  rw [shown_eq num hp]
  generalize (num.toInt.natAbs + 10 ^ (4 - p) / 2) / 10 ^ (4 - p) = m at hquot
  have hnonneg : (0 : ℚ) ≤ m / 10 ^ p := by positivity
  split_ifs with hneg
  · rw [neg_one_mul, neg_lt_zero, div_pos_iff_of_pos_right hpow, Nat.cast_pos, Nat.pos_iff_ne_zero, hquot]
    exact and_congr_left fun _ => ⟨fun _ => hneg, fun _ => by omega⟩
  · rw [one_mul]
    exact iff_of_false (not_lt.2 hnonneg) fun h => hneg h.1

/-- Writing with `p` places, where `21` characters are enough. -/
theorem moneyToString_amount (num places : Word) (str : Chars)
    (hp : (if 4 < places.toNat then 4 else places.toNat) = p) :
    ∃ ok str', moneyToString num places str = .ok (ok, str') ∧ (21 ≤ str.size → ok = true) ∧
      (ok = true → str'.text = amountText num p) := by
  have hle : p ≤ 4 := by
    split_ifs at hp <;> omega
  obtain ⟨⟨ok, str'⟩, hrun, hres⟩ := (moneyToString_runs num places str hp (biased num hle)
    (show _ = amountText num p from rfl)).succeeds
  refine ⟨ok, str', hrun, fun hroom => ?_, fun hok => ?_⟩
  · rw [if_pos ((length_amountText num hle).trans hroom)] at hres
    exact hres.1
  · split_ifs at hres with hfits
    · exact hres.2
    · exact absurd (hok.symm.trans hres) (by decide)

theorem roundTrip (num old : Word) (str : Chars) : ∃ ok str', moneyToString num 4 str = .ok (ok, str') ∧
    (21 ≤ str.size → ok = true) ∧ (ok = true → stringToMoney str' old = (true, num)) := by
  obtain ⟨ok, str', hrun, hroom, htext⟩ := moneyToString_amount num 4 str (p := 4) rfl
  refine ⟨ok, str', hrun, hroom, fun hok => ?_⟩
  have hdenotes := amountText_denotes num (p := 4) le_rfl
  rw [← htext hok] at hdenotes
  have hround : roundAway (shown num 4 * 10000) = num.toInt := by
    have hint : ∀ z : Int, roundAway (z : ℚ) = z := fun z => by
      have h := (abs_sub_roundAway (z : ℚ) z).1
      rw [sub_self, abs_zero, abs_nonpos_iff, sub_eq_zero] at h
      exact_mod_cast h.symm
    have hexact : (num.toInt / 10000 : ℚ) * 10 ^ 4 = num.toInt := by
      norm_num
    rw [shown, hexact, hint, show ((num.toInt : ℚ) / 10 ^ 4) * 10000 = num.toInt by norm_num, hint]
  have hmoney : IsMoney (roundAway (shown num 4 * 10000)) := by
    rw [hround]
    exact ⟨BitVec.le_toInt num, BitVec.toInt_lt⟩
  obtain ⟨m, hread, hm⟩ := stringToMoney_of_denotes hdenotes hmoney old
  rw [hread, BitVec.eq_of_toInt_eq (hm.trans hround)]

/-- A negative amount is not shown as zero. -/
theorem TextExact.shown_bound {s : Chars} {old : Word} (h : TextExact num places s old)
    (hp : places.toNat ≤ 4) (hneg : num.toInt < 0) : 10 ^ (4 - places.toNat) ≤ 2 * num.toInt.natAbs := by
  obtain ⟨ok, str', hrun, hroom, htext⟩ := h.text hp ⟨List.replicate 21 nul, by decide, by decide⟩
  have hplaces : (if 4 < places.toNat then 4 else places.toNat) = places.toNat := if_neg (by omega)
  obtain ⟨_, _, hrun', -, htext'⟩ := moneyToString_amount num places _ hplaces
  obtain ⟨rfl, rfl⟩ := Prod.mk.inj (Except.ok.inj (hrun.symm.trans hrun'))
  have hok := hroom le_rfl
  have hsign := (htext hok).2
  rw [htext' hok, head_amountText num hp, shown_neg_iff num hp] at hsign
  exact (hsign.1 hneg).2

/-- What goes wrong are the texts of negative amounts that are shown as zero, and numbers that are not
amounts. -/
theorem textExact_iff (num places : Word) (s : Chars) (old : Word) : TextExact num places s old ↔
    (places.toNat ≤ 4 → num.toInt < 0 → 10 ^ (4 - places.toNat) ≤ 2 * num.toInt.natAbs) ∧
      ∀ x, Denotes s.text x → IsMoney (roundAway (x * 10000)) := by
  constructor
  · intro h
    refine ⟨h.shown_bound, fun x hx => ?_⟩
    obtain ⟨n, neg, hread, -⟩ := stringToMoney_number hx old
    exact ((h.number (by rw [hread])).2 x hx).1
  · rintro ⟨hsign, hmoney⟩
    refine ⟨roundTrip num old, fun hp str => ?_, fun hread => ?_⟩
    · have hplaces : (if 4 < places.toNat then 4 else places.toNat) = places.toNat := if_neg (by omega)
      obtain ⟨ok, str', hrun, hroom, htext⟩ := moneyToString_amount num places str hplaces
      refine ⟨ok, str', hrun, hroom, fun hok => ?_⟩
      rw [htext hok, head_amountText num hp, shown_neg_iff num hp]
      exact ⟨amountText_denotes num hp, fun hneg => ⟨hneg, hsign hp hneg⟩, fun h => h.1⟩
    · refine ⟨stringToMoney_denotes hread, fun x hx => ⟨hmoney x hx, ?_⟩⟩
      obtain ⟨m, hm, hvalue⟩ := stringToMoney_of_denotes hx (hmoney x hx) old
      rw [hm]
      exact hvalue

/-- `-0.0001` without places. -/
theorem moneyToString_minus_zero :
    moneyToString (-1) 0 ⟨[nul, nul], by decide, by decide⟩ =
      .ok (true, ⟨[code '-', code '0'], by decide, by decide⟩) ∧
    ¬ TextExact (-1) 0 ⟨[nul, nul], by decide, by decide⟩ 0 := by
  refine ⟨by decide +kernel, fun h => ?_⟩
  exact absurd (h.shown_bound (by decide) (by decide)) (by decide)

end exact

end NewM2.Winrt.Money
