import Mathlib
import NewM2.Lib.Scan
import NewM2.Winrt.Conversions

/-!
# Numbers from texts (`library/winrtmod/Conversions.mod`)

The parsers, and that they undo the formatters. A position in an array that is only read is the list of the
characters from there on. -/

namespace NewM2.Winrt.Conversions
open Chars Digits Output Money Scan

def blank : Code := code ' '

def maxCard : Nat := 2 ^ 64 - 1

def maxInt : Nat := 2 ^ 63 - 1

/-- MIN(INTEGER) -/
def minInt : Word := BitVec.intMin 64

/-- CAP -/
def cap (c : Code) : Code := if code 'a' ≤ c ∧ c ≤ code 'z' then c - 32 else c

def digitVal (ch : Code) : Nat :=
  let c := cap ch
  if code '0' ≤ c ∧ c ≤ code '9' then c.toNat - '0'.toNat
  else if code 'A' ≤ c ∧ c ≤ code 'F' then c.toNat - 'A'.toNat + 10
  else 100

/-- The digit of the decimal loops. -/
def decimalDigit (ch : Code) : Option Nat :=
  if ch < code '0' ∨ code '9' < ch then none else some (ch.toNat - '0'.toNat)

/-- The digit of the loop in `StrBaseToCard`. -/
def baseDigit (base : Nat) (ch : Code) : Option Nat :=
  let d := digitVal ch
  if base ≤ d then none else some d

/-- `neg`, and what is behind the sign; a minus is admitted by `StringToInt` only. -/
def sign (minus : Bool) : List Code → Bool × List Code
  | [] => (false, [])
  | c :: s => if minus ∧ c = code '-' then (true, s) else if c = code '+' then (false, s) else (false, c :: s)

/-- `num`, `done` and what is behind the digits. -/
def stringToCard (str : List Code) : Word × Bool × List Code :=
  let (_, s) := sign false (str.dropWhile (· = blank))
  let r := scan decimalDigit 10 (maxCard / 10) (maxCard % 10) 0 true s
  (BitVec.ofNat 64 r.num, r.done && !r.first, r.rest)

/-- `(pos > HIGH(buf)) OR (buf[pos] = NUL)` -/
def atEnd : List Code → Bool
  | [] => true
  | c :: _ => c = nul

/-- The result, and `num`. -/
def strToCard (buf : Chars) : Bool × Word :=
  let (num, done, s) := stringToCard buf.cells
  (done && atEnd s, num)

def stringToInt (str : List Code) : Word × Bool × List Code :=
  let (neg, s) := sign true (str.dropWhile (· = blank))
  let limit := if neg then (magU minInt).toNat else maxInt
  let r := scan decimalDigit 10 (limit / 10) (limit % 10) 0 true s
  let num :=
    if neg then if r.num = (magU minInt).toNat then minInt else -BitVec.ofNat 64 r.num
    else BitVec.ofNat 64 r.num
  (num, r.done && !r.first, r.rest)

def strToInt (buf : Chars) : Bool × Word :=
  let (num, done, s) := stringToInt buf.cells
  (done && atEnd s, num)

def strBaseToCard (str : Chars) (base num : Word) : Bool × Word :=
  if base.toNat < 2 ∨ 16 < base.toNat then (false, num)
  else
    let r := scan (baseDigit base.toNat) base.toNat (maxCard / base.toNat) (maxCard % base.toNat) 0 true
      (str.cells.dropWhile (· = blank))
    if !r.done || r.first then (false, num) else (true, BitVec.ofNat 64 r.num)

/-- The text of a number: blanks, a sign and decimal digits. -/
def Reads (minus : Bool) (t : List Code) (neg : Bool) (n : Nat) : Prop :=
  ∃ k front ds, t = List.replicate k blank ++ front ++ ds ∧
    (neg = false ∧ front ∈ [[], [code '+']] ∨ neg = true ∧ minus = true ∧ front = [code '-']) ∧
    ds ≠ [] ∧ (∀ c ∈ ds, isDigit c) ∧ n = digitsValue ds

/-! ## Digits -/

section digits
variable {c : Code} {cs s : List Code} {b d n : Nat}

theorem isSome_decimalDigit (c : Code) : (decimalDigit c).isSome = isDigit c := by
  rw [decimalDigit, isDigit, Bool.eq_iff_iff, decide_eq_true_eq, ← BitVec.not_lt, ← BitVec.not_lt, ← not_or]
  split_ifs with h
  · simp [h]
  · simp [h]

theorem decimalDigit_lt (c : Code) : ∀ d ∈ decimalDigit c, d < 10 := by
  intro d hd
  have hc : isDigit c = true := by rw [← isSome_decimalDigit, Option.mem_def.1 hd, Option.isSome_some]
  have hle := digitVal_le hc
  rw [decimalDigit] at hd
  split_ifs at hd
  · exact absurd hd (by simp)
  · obtain rfl := Option.some.inj hd
    exact Nat.lt_succ_of_le hle

theorem baseDigit_lt (b : Nat) (c : Code) : ∀ d ∈ baseDigit b c, d < b := by
  intro d hd
  rw [baseDigit] at hd
  split_ifs at hd with h
  · exact absurd hd (by simp)
  · obtain rfl := Option.some.inj hd
    exact Nat.not_le.1 h

theorem digitsOf_decimal (s : List Code) : digitsOf decimalDigit s = s.takeWhile isDigit := by
  rw [digitsOf]
  congr 1
  exact funext isSome_decimalDigit

theorem behind_decimal (s : List Code) : behind decimalDigit s = s.dropWhile isDigit := by
  rw [behind]
  congr 1
  exact funext isSome_decimalDigit

theorem valueFrom_decimal (h : ∀ c ∈ cs, isDigit c) : valueFrom decimalDigit 10 0 cs = digitsValue cs := by
  induction cs using List.reverseRecOn with
  | nil => rfl
  | append_singleton cs c ih =>
    have hc : isDigit c = true := h c (by simp)
    have hdigit : decimalDigit c = some (Digits.digitVal c) := by
      rw [isDigit, decide_eq_true_eq] at hc
      rw [decimalDigit, if_neg (by rw [not_or, BitVec.not_lt, BitVec.not_lt]; exact hc)]
      rfl
    rw [valueFrom_concat, digitsValue_concat, ih fun c hc => h c (List.mem_append_left _ hc), hdigit,
      Option.getD_some]

theorem digitVal_digitChar (h : d < 16) : digitVal (digitChar d) = d := by
  interval_cases d <;> decide

theorem numeral_eq (hb : 2 ≤ b) (n : Nat) :
    numeral b n = (if n / b = 0 then [] else numeral b (n / b)) ++ [digitChar (n % b)] := by
  rw [numeral, lowDigits]
  by_cases h : n / b = 0
  · rw [if_pos (.inl h), if_pos h]
    rfl
  · rw [if_neg (by omega), if_neg h, List.reverse_cons, List.map_append]
    rfl

theorem baseDigit_digitChar (hb : b ≤ 16) (h : d < b) : baseDigit b (digitChar d) = some d := by
  rw [baseDigit, digitVal_digitChar (h.trans_le hb), if_neg (Nat.not_le.2 h)]

/-- The number is read back from its digits. -/
theorem valueFrom_numeral (hb : 2 ≤ b) (hb' : b ≤ 16) (n : Nat) :
    valueFrom (baseDigit b) b 0 (numeral b n) = n := by
  have hlast := baseDigit_digitChar hb' (Nat.mod_lt n (by omega : 0 < b))
  have hdiv := Nat.div_add_mod' n b
  rw [numeral_eq hb]
  split_ifs with h
  · rw [h, Nat.zero_mul] at hdiv
    rw [List.nil_append, ← List.nil_append [_], valueFrom_concat, hlast, valueFrom, List.foldl_nil, Nat.zero_mul]
    exact hdiv
  · have ih := valueFrom_numeral hb hb' (n / b)
    rw [valueFrom_concat, hlast, ih]
    exact hdiv
termination_by n
decreasing_by exact Nat.div_lt_self (Nat.pos_of_ne_zero (by rintro rfl; simp at h)) (by omega)

end digits

/-! ## The text that is read -/

section reading
variable {minus neg : Bool} {n : Nat} {c : Code} {s ds rest : List Code} {buf : Chars}

theorem sign_eq (minus : Bool) (s : List Code) :
    ∃ front, s = front ++ (sign minus s).2 ∧
      ((sign minus s).1 = false ∧ front ∈ [[], [code '+']] ∨
        (sign minus s).1 = true ∧ minus = true ∧ front = [code '-']) := by
  cases s with
  | nil => exact ⟨[], rfl, .inl ⟨rfl, by simp⟩⟩
  | cons c s =>
    rw [sign]
    split_ifs with hminus hplus
    · exact ⟨[code '-'], by rw [hminus.2]; rfl, .inr ⟨rfl, hminus.1, rfl⟩⟩
    · exact ⟨[code '+'], by rw [hplus]; rfl, .inl ⟨rfl, by simp⟩⟩
    · exact ⟨[], rfl, .inl ⟨rfl, by simp⟩⟩

theorem isDigit_ne (h : isDigit c) {x : Char} (hx : isDigit (code x) = false) : c ≠ code x := by
  rintro rfl
  rw [hx] at h
  exact Bool.false_ne_true h

/-- The sign is read before digits. -/
theorem sign_append {front : List Code} (hds : ds ≠ []) (hdigits : ∀ c ∈ ds, isDigit c)
    (hfront : neg = false ∧ front ∈ [[], [code '+']] ∨ neg = true ∧ minus = true ∧ front = [code '-']) :
    sign minus (front ++ (ds ++ rest)) = (neg, ds ++ rest) := by
  rcases hfront with ⟨rfl, hfront⟩ | ⟨rfl, rfl, rfl⟩
  · rcases List.mem_pair.1 hfront with rfl | rfl
    · obtain ⟨d, ds, rfl⟩ := List.exists_cons_of_ne_nil hds
      have hd := hdigits d List.mem_cons_self
      have hminus : ¬ (minus = true ∧ d = code '-') := fun h => isDigit_ne hd (by decide) h.2
      rw [List.nil_append, List.cons_append, sign, if_neg hminus, if_neg (isDigit_ne hd (by decide))]
    · have hminus : ¬ (minus = true ∧ code '+' = code '-') := fun h => absurd h.2 (by decide)
      rw [List.singleton_append, sign, if_neg hminus, if_pos rfl]
  · rw [List.singleton_append, sign, if_pos ⟨rfl, rfl⟩]

theorem stops_blank {front : List Code} (hds : ds ≠ []) (hdigits : ∀ c ∈ ds, isDigit c)
    (hfront : neg = false ∧ front ∈ [[], [code '+']] ∨ neg = true ∧ minus = true ∧ front = [code '-']) :
    Stops (fun c => decide (c = blank)) (front ++ (ds ++ rest)) := by
  rcases hfront with ⟨-, hfront⟩ | ⟨-, -, rfl⟩
  · rcases List.mem_pair.1 hfront with rfl | rfl
    · obtain ⟨d, ds, rfl⟩ := List.exists_cons_of_ne_nil hds
      have hd := hdigits d List.mem_cons_self
      exact stops_cons.2 (decide_eq_false (isDigit_ne hd (by decide)))
    · exact stops_cons.2 (by decide)
  · exact stops_cons.2 (by decide)

theorem atEnd_iff : atEnd s = true ↔ Stops (· ≠ nul) s := by
  cases s with
  | nil => simp [atEnd, Stops]
  | cons c s => simp [atEnd, stops_cons]

theorem reads_nul {t : List Code} (h : Reads minus t neg n) : nul ∉ t := by
  obtain ⟨k, front, ds, rfl, hfront, -, hdigits, -⟩ := h
  rw [List.mem_append, List.mem_append, not_or, not_or]
  refine ⟨⟨?_, ?_⟩, fun hmem => absurd (hdigits nul hmem) (by decide)⟩
  · exact fun hmem => absurd (List.eq_of_mem_replicate hmem) (by decide)
  · rcases hfront with ⟨-, hfront⟩ | ⟨-, -, rfl⟩
    · rcases List.mem_pair.1 hfront with rfl | rfl <;> decide
    · decide

/-- The text of the array is that of a number, or the loops find out. -/
theorem reads_iff {p : Bool × List Code} (hp : sign minus (buf.cells.dropWhile (· = blank)) = p) (neg : Bool)
    (n : Nat) :
    Reads minus buf.text neg n ↔
      p.1 = neg ∧ p.2.takeWhile isDigit ≠ [] ∧ digitsValue (p.2.takeWhile isDigit) = n ∧
        atEnd (p.2.dropWhile isDigit) = true := by
  constructor
  · rintro ⟨k, front, ds, htext, hfront, hds, hdigits, rfl⟩
    obtain ⟨rest, hcells, hstops⟩ := buf.exists_rest
    have hdrop : buf.cells.dropWhile (· = blank) = front ++ (ds ++ rest) := by
      rw [hcells, htext, List.append_assoc, List.append_assoc]
      exact dropWhile_append (fun c hc => decide_eq_true (List.eq_of_mem_replicate hc))
        (stops_blank hds hdigits hfront)
    have hrest : Stops isDigit rest := by
      intro c hc
      have hnul : c = nul := by simpa using hstops c hc
      rw [hnul]
      decide
    rw [hdrop, sign_append hds hdigits hfront] at hp
    rw [← hp, takeWhile_append hdigits hrest, dropWhile_append hdigits hrest, atEnd_iff]
    exact ⟨rfl, hds, rfl, hstops⟩
  · rintro ⟨hneg, hds, rfl, hend⟩
    obtain ⟨front, hfront, hsign⟩ := sign_eq minus (buf.cells.dropWhile (· = blank))
    rw [hp] at hfront hsign
    have hblanks : buf.cells.takeWhile (· = blank) =
        List.replicate (buf.cells.takeWhile (· = blank)).length blank :=
      List.eq_replicate_of_mem fun c hc => by simpa using List.mem_takeWhile_imp hc
    have hdigits : ∀ c ∈ p.2.takeWhile isDigit, isDigit c := fun c hc => List.mem_takeWhile_imp hc
    have hreads : Reads minus (List.replicate (buf.cells.takeWhile (· = blank)).length blank ++ front ++
        p.2.takeWhile isDigit) neg (digitsValue (p.2.takeWhile isDigit)) :=
      ⟨_, front, _, rfl, hneg ▸ hsign, hds, hdigits, rfl⟩
    have htext := text_of_rest (s := buf) (w := p.2.dropWhile isDigit) ?_ (reads_nul hreads) (atEnd_iff.1 hend)
    · rw [htext]
      exact hreads
    · rw [List.append_assoc, List.takeWhile_append_dropWhile, ← hblanks, List.append_assoc, ← hfront,
        List.takeWhile_append_dropWhile]

/-! ## The parsers -/

theorem sign_false (s : List Code) : (sign false s).1 = false := by
  cases s with
  | nil => rfl
  | cons c s =>
    rw [sign, if_neg fun h => absurd h.1 Bool.false_ne_true]
    split_ifs <;> rfl

theorem decimal_scan {limit : Nat} (hlimit : limit < 2 ^ 64) {r : Scanned}
    (hr : scan decimalDigit 10 (limit / 10) (limit % 10) 0 true s = r) :
    ((r.done && !r.first) = true ↔ s.takeWhile isDigit ≠ [] ∧ digitsValue (s.takeWhile isDigit) ≤ limit) ∧
      (r.done = true → r.num = digitsValue (s.takeWhile isDigit) ∧ r.rest = s.dropWhile isDigit) := by
  have hdigits : ∀ c ∈ s.takeWhile isDigit, isDigit c := fun c hc => List.mem_takeWhile_imp hc
  have h := scan_iff decimalDigit_lt hlimit hr
  rw [digitsOf_decimal, behind_decimal, valueFrom_decimal hdigits] at h
  rwa [Bool.and_eq_true, Bool.not_eq_true']

/-- The result is TRUE with `v` just if the text is that of `v`. -/
theorem strToCard_iff (buf : Chars) (v : Nat) :
    (strToCard buf).1 = true ∧ (strToCard buf).2.toNat = v ↔ Reads false buf.text false v ∧ v < 2 ^ 64 := by
  rw [strToCard, stringToCard]
  cases hp : sign false (buf.cells.dropWhile (· = blank)) with | mk neg s =>
  have hneg : neg = false := by
    rw [← sign_false, hp]
  rw [reads_iff hp]
  dsimp only
  generalize hr : scan decimalDigit 10 (maxCard / 10) (maxCard % 10) 0 true s = r
  obtain ⟨hiff, hscan⟩ := decimal_scan (by decide) hr
  have hmax : maxCard = 2 ^ 64 - 1 := rfl
  rw [Bool.and_eq_true, hiff, BitVec.toNat_ofNat]
  have hdone : s.takeWhile isDigit ≠ [] ∧ digitsValue (s.takeWhile isDigit) ≤ maxCard → r.done = true :=
    fun h => (Bool.and_eq_true_iff.1 (hiff.2 h)).1
  constructor
  · rintro ⟨⟨⟨hds, hle⟩, hend⟩, rfl⟩
    obtain ⟨hnum, hrest⟩ := hscan (hdone ⟨hds, hle⟩)
    rw [hrest] at hend
    rw [hnum, Nat.mod_eq_of_lt (by omega)]
    exact ⟨⟨hneg, hds, rfl, hend⟩, by omega⟩
  · rintro ⟨⟨-, hds, rfl, hend⟩, hlt⟩
    have hle : digitsValue (s.takeWhile isDigit) ≤ maxCard := by omega
    obtain ⟨hnum, hrest⟩ := hscan (hdone ⟨hds, hle⟩)
    rw [hrest, hnum, Nat.mod_eq_of_lt hlt]
    exact ⟨⟨⟨hds, hle⟩, hend⟩, rfl⟩

/-- The signed number. -/
def signedValue (neg : Bool) (n : Nat) : Int := if neg then -n else n

/-- The limit of a magnitude. -/
def limitOf (neg : Bool) : Nat := if neg then 2 ^ 63 else 2 ^ 63 - 1

theorem limit_eq (neg : Bool) : (if neg then (magU minInt).toNat else maxInt) = limitOf neg := by
  cases neg <;> rfl

theorem inRange_iff (neg : Bool) (n : Nat) :
    -2 ^ 63 ≤ signedValue neg n ∧ signedValue neg n < 2 ^ 63 ↔ n ≤ limitOf neg := by
  rw [signedValue, limitOf]
  cases neg with
  | false => simp; omega
  | true => simp; omega

theorem toInt_signed {neg : Bool} (h : n ≤ limitOf neg) :
    (if neg then if n = (magU minInt).toNat then minInt else -BitVec.ofNat 64 n else BitVec.ofNat 64 n).toInt =
      signedValue neg n := by
  rw [limitOf] at h
  have hmin : (magU minInt).toNat = 2 ^ 63 := by decide
  rw [signedValue, hmin]
  cases neg with
  | false =>
    simp only [Bool.false_eq_true, if_false] at h ⊢
    rw [BitVec.toInt_ofNat']
    exact Int.bmod_eq_of_le (by omega) (by omega)
  | true =>
    simp only [if_true] at h ⊢
    split_ifs with hn
    · rw [hn]
      decide
    · rw [BitVec.toInt_neg, BitVec.toInt_ofNat', Int.bmod_neg_bmod]
      exact Int.bmod_eq_of_le (by omega) (by omega)

/-- The result is TRUE with `x` just if the text is that of `x`. -/
theorem strToInt_iff (buf : Chars) (x : Int) :
    (strToInt buf).1 = true ∧ (strToInt buf).2.toInt = x ↔
      ∃ neg n, Reads true buf.text neg n ∧ x = signedValue neg n ∧ -2 ^ 63 ≤ x ∧ x < 2 ^ 63 := by
  rw [strToInt, stringToInt]
  cases hp : sign true (buf.cells.dropWhile (· = blank)) with | mk neg s =>
  simp only [reads_iff hp]
  rw [limit_eq]
  generalize hr : scan decimalDigit 10 (limitOf neg / 10) (limitOf neg % 10) 0 true s = r
  obtain ⟨hiff, hscan⟩ := decimal_scan (by rw [limitOf]; split_ifs <;> decide) hr
  rw [Bool.and_eq_true, hiff]
  have hdone : s.takeWhile isDigit ≠ [] ∧ digitsValue (s.takeWhile isDigit) ≤ limitOf neg → r.done = true :=
    fun h => (Bool.and_eq_true_iff.1 (hiff.2 h)).1
  constructor
  · rintro ⟨⟨⟨hds, hle⟩, hend⟩, rfl⟩
    obtain ⟨hnum, hrest⟩ := hscan (hdone ⟨hds, hle⟩)
    rw [hrest] at hend
    rw [hnum, toInt_signed hle]
    exact ⟨neg, _, ⟨rfl, hds, rfl, hend⟩, rfl, (inRange_iff _ _).2 hle⟩
  · rintro ⟨neg', n, ⟨rfl, hds, rfl, hend⟩, rfl, hrange⟩
    have hle := (inRange_iff _ _).1 hrange
    obtain ⟨hnum, hrest⟩ := hscan (hdone ⟨hds, hle⟩)
    rw [hrest, hnum, toInt_signed hle]
    exact ⟨⟨⟨hds, hle⟩, hend⟩, rfl⟩

/-- The digits of the base behind the blanks. -/
def baseDigits (base : Nat) (str : Chars) : List Code :=
  digitsOf (baseDigit base) (str.cells.dropWhile (· = blank))

/-- The number of such digits. -/
def baseValue (base : Nat) (cs : List Code) : Nat := valueFrom (baseDigit base) base 0 cs

theorem strBaseToCard_iff {base : Word} (hbase : 2 ≤ base.toNat ∧ base.toNat ≤ 16) (str : Chars) (num : Word) :
    ((strBaseToCard str base num).1 = false ↔
      baseDigits base.toNat str = [] ∨ 2 ^ 64 ≤ baseValue base.toNat (baseDigits base.toNat str)) ∧
    ((strBaseToCard str base num).1 = true →
      (strBaseToCard str base num).2.toNat = baseValue base.toNat (baseDigits base.toNat str)) := by
  rw [strBaseToCard, if_neg (by omega)]
  generalize hr : scan (baseDigit base.toNat) base.toNat (maxCard / base.toNat) (maxCard % base.toNat) 0 true
    (str.cells.dropWhile (· = blank)) = r
  obtain ⟨hiff, hscan⟩ := scan_iff (baseDigit_lt base.toNat) (by decide) hr
  rw [baseDigits, baseValue]
  have hmax : maxCard = 2 ^ 64 - 1 := rfl
  dsimp only
  by_cases hfine : r.done = true ∧ r.first = false
  · obtain ⟨hds, hle⟩ := hiff.1 hfine
    rw [hfine.1, hfine.2, (hscan hfine.1).1]
    refine ⟨⟨fun h => absurd h Bool.true_eq_false.mp, ?_⟩, fun _ => ?_⟩
    · rintro (h | h)
      · exact absurd h hds
      · omega
    · exact (BitVec.toNat_ofNat _ _).trans (Nat.mod_eq_of_lt (by omega))
  · have hcond : (!r.done || r.first) = true := by
      rw [Bool.or_eq_true, Bool.not_eq_true']
      by_contra hnot
      rw [not_or, Bool.not_eq_false, Bool.not_eq_true] at hnot
      exact hfine hnot
    rw [if_pos hcond]
    refine ⟨⟨fun _ => ?_, fun _ => rfl⟩, fun h => absurd h Bool.false_ne_true⟩
    by_contra hnot
    rw [not_or] at hnot
    exact hfine (hiff.2 ⟨hnot.1, by omega⟩)

end reading

/-! ## There and back -/

section inverse
variable {base v : Word} {str : Chars}

theorem signedText_nul_eq (b n : Nat) : signedText nul b n = numeral b n := by
  rw [signedText, if_neg (by simp), List.nil_append]

theorem reads_decimal (minus : Bool) (n : Nat) : Reads minus (decimal n) false n :=
  ⟨0, [], decimal n, rfl, .inl ⟨rfl, by simp⟩, decimal_ne_nil n, decimal_isDigit n, (digitsValue_decimal n).symm⟩

theorem cardToStr_back (v : Word) (str : Chars) :
    ∃ ok str', cardToStr v str = .ok (ok, str') ∧ (ok = true ↔ (numeral 10 v.toNat).length ≤ str.size) ∧
      (ok = true → strToCard str' = (true, v)) := by
  obtain ⟨q, hrun, hok, -, htext⟩ := (emitNumber_text (b := 10) (by decide) (by decide) v.toNat nul str).succeeds
  rw [signedText_nul_eq] at hok htext
  refine ⟨q.ok, q.out, by rw [cardToStr, hrun]; rfl, by rw [hok, decide_eq_true_eq], fun h => ?_⟩
  rw [hok, decide_eq_true_eq] at h
  have hreads : Reads false q.out.text false v.toNat := by
    rw [htext h, numeral_ten]
    exact reads_decimal false _
  obtain ⟨hres, hnum⟩ := (strToCard_iff q.out v.toNat).2 ⟨hreads, v.isLt⟩
  exact Prod.ext hres (BitVec.eq_of_toNat_eq hnum)

/-- The sign of a number that is written. -/
def signOf (v : Word) : Code := if v.toInt < 0 then code '-' else nul

theorem intToStr_back (v : Word) (str : Chars) :
    ∃ ok str', intToStr v str = .ok (ok, str') ∧
      (ok = true ↔ (signedText (signOf v) 10 v.toInt.natAbs).length ≤ str.size) ∧
      (ok = true → strToInt str' = (true, v)) := by
  obtain ⟨q, hrun, hok, -, htext⟩ :=
    (emitNumber_text (b := 10) (by decide) (by decide) (magU v).toNat (signOf v) str).succeeds
  rw [magU_toNat] at hok htext
  refine ⟨q.ok, q.out, by rw [intToStr, ← signOf, hrun]; rfl, by rw [hok, decide_eq_true_eq], fun h => ?_⟩
  rw [hok, decide_eq_true_eq] at h
  have hrange := v.toInt_lt
  have hrange' := v.le_toInt
  have hreads : Reads true q.out.text (decide (v.toInt < 0)) v.toInt.natAbs := by
    rw [htext h, signedText, numeral_ten, signOf]
    by_cases hneg : v.toInt < 0
    · rw [if_pos hneg, if_pos (by decide), decide_eq_true hneg]
      exact ⟨0, [code '-'], _, rfl, .inr ⟨rfl, rfl, rfl⟩, decimal_ne_nil _, decimal_isDigit _,
        (digitsValue_decimal _).symm⟩
    · rw [if_neg hneg, if_neg (by simp), decide_eq_false hneg]
      exact reads_decimal true _
  have hvalue : v.toInt = signedValue (decide (v.toInt < 0)) v.toInt.natAbs := by
    rw [signedValue]
    split_ifs with hneg
    · rw [decide_eq_true_eq] at hneg
      omega
    · rw [decide_eq_true_eq] at hneg
      omega
  obtain ⟨hres, hnum⟩ := (strToInt_iff q.out v.toInt).2 ⟨_, _, hreads, hvalue, hrange', hrange⟩
  exact Prod.ext hres (BitVec.eq_of_toInt_eq hnum)

theorem numeral_ne_nil {b : Nat} (hb : 2 ≤ b) (n : Nat) : numeral b n ≠ [] := by
  rw [numeral_eq hb]
  exact List.concat_ne_nil _ _

theorem numeral_isSome {b : Nat} (hb : 0 < b) (hb' : b ≤ 16) (n : Nat) :
    ∀ c ∈ numeral b n, (baseDigit b c).isSome = true := by
  intro c hc
  obtain ⟨d, hd, rfl⟩ := List.mem_map.1 hc
  rw [baseDigit_digitChar hb' (lowDigits_lt hb n d (List.mem_reverse.1 hd)), Option.isSome_some]

theorem baseDigit_blank {b : Nat} (hb : b ≤ 16) {c : Code} (h : c = blank ∨ c = nul) :
    (baseDigit b c).isSome = false := by
  have hval : digitVal c = 100 := by rcases h with rfl | rfl <;> decide
  rw [baseDigit, hval, if_pos (by omega), Option.isSome_none]

theorem baseDigits_numeral {b n : Nat} (hb : 2 ≤ b) (hb' : b ≤ 16) (h : str.text = numeral b n) :
    baseDigits b str = numeral b n := by
  obtain ⟨rest, hcells, hstops⟩ := str.exists_rest
  have hdigits := numeral_isSome (by omega) hb' n
  have hblank : Stops (fun c => decide (c = blank)) (numeral b n ++ rest) := by
    obtain ⟨c, cs, hc⟩ := List.exists_cons_of_ne_nil (numeral_ne_nil hb n)
    rw [hc, List.cons_append, stops_cons, decide_eq_false_iff_not]
    intro hblank
    have hsome := hdigits c (hc ▸ List.mem_cons_self)
    rw [baseDigit_blank hb' (.inl hblank)] at hsome
    exact Bool.false_ne_true hsome
  have hrest : Stops (fun c => (baseDigit b c).isSome) rest := by
    intro c hc
    exact baseDigit_blank hb' (.inr (by simpa using hstops c hc))
  have hdrop := dropWhile_append (v := []) (by simp) hblank
  rw [List.nil_append] at hdrop
  rw [baseDigits, hcells, h, hdrop, digitsOf, takeWhile_append hdigits hrest]

theorem cardBaseToStr_back (hbase : 2 ≤ base.toNat ∧ base.toNat ≤ 16) (v : Word) (str : Chars) :
    ∃ ok str', cardBaseToStr v base str = .ok (ok, str') ∧
      (ok = true ↔ (numeral base.toNat v.toNat).length ≤ str.size) ∧
      (ok = true → ∀ num, strBaseToCard str' base num = (true, v)) := by
  obtain ⟨q, hrun, hok, -, htext⟩ := (emitNumber_text hbase.1 hbase.2 v.toNat nul str).succeeds
  rw [signedText_nul_eq] at hok htext
  refine ⟨q.ok, q.out, by rw [cardBaseToStr, if_neg (by omega), hrun]; rfl, by rw [hok, decide_eq_true_eq],
    fun h num => ?_⟩
  rw [hok, decide_eq_true_eq] at h
  obtain ⟨hfalse, hvalue⟩ := strBaseToCard_iff hbase q.out num
  rw [baseDigits_numeral hbase.1 hbase.2 (htext h), baseValue, valueFrom_numeral hbase.1 hbase.2] at hfalse hvalue
  have hres : (strBaseToCard q.out base num).1 = true := by
    rw [← Bool.not_eq_false, hfalse, not_or, Nat.not_le]
    exact ⟨numeral_ne_nil hbase.1 _, v.isLt⟩
  exact Prod.ext hres (BitVec.eq_of_toNat_eq (hvalue hres))

/-- Every number that is written comes back, and what is read is the number of the text. -/
theorem conversions_exact (hbase : 2 ≤ base.toNat ∧ base.toNat ≤ 16) (v num : Word) (str : Chars) :
    (∃ ok str', intToStr v str = .ok (ok, str') ∧
        (ok = true ↔ (signedText (signOf v) 10 v.toInt.natAbs).length ≤ str.size) ∧
        (ok = true → strToInt str' = (true, v))) ∧
      (∃ ok str', cardToStr v str = .ok (ok, str') ∧ (ok = true ↔ (numeral 10 v.toNat).length ≤ str.size) ∧
        (ok = true → strToCard str' = (true, v))) ∧
      (∃ ok str', cardBaseToStr v base str = .ok (ok, str') ∧
        (ok = true ↔ (numeral base.toNat v.toNat).length ≤ str.size) ∧
        (ok = true → ∀ num, strBaseToCard str' base num = (true, v))) ∧
      (∀ x : Int, (strToInt str).1 = true ∧ (strToInt str).2.toInt = x ↔
        ∃ neg n, Reads true str.text neg n ∧ x = signedValue neg n ∧ -2 ^ 63 ≤ x ∧ x < 2 ^ 63) ∧
      (∀ n : Nat, (strToCard str).1 = true ∧ (strToCard str).2.toNat = n ↔
        Reads false str.text false n ∧ n < 2 ^ 64) ∧
      ((strBaseToCard str base num).1 = false ↔
        baseDigits base.toNat str = [] ∨ 2 ^ 64 ≤ baseValue base.toNat (baseDigits base.toNat str)) ∧
      ((strBaseToCard str base num).1 = true →
        (strBaseToCard str base num).2.toNat = baseValue base.toNat (baseDigits base.toNat str)) :=
  ⟨intToStr_back v str, cardToStr_back v str, cardBaseToStr_back hbase v str, strToInt_iff str, strToCard_iff str,
    strBaseToCard_iff hbase str num⟩

/-- The hexadecimal form of 255 fills an array of two characters. -/
theorem conversions_exact_hex :
    (2 ≤ (16 : Word).toNat ∧ (16 : Word).toNat ≤ 16) ∧
      ∃ ok str', cardBaseToStr 255 16 ⟨[nul, nul], List.cons_ne_nil _ _, by decide⟩ = .ok (ok, str') ∧
        (ok = true ↔ (numeral 16 255).length ≤ 2) ∧ (ok = true → ∀ num, strBaseToCard str' 16 num = (true, 255)) :=
  ⟨by decide, (@conversions_exact 16 (by decide) 255 0
    ⟨[nul, nul], List.cons_ne_nil _ _, by decide⟩).2.2.1⟩

end inverse

end NewM2.Winrt.Conversions
