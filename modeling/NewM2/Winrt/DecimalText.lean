import Mathlib
import NewM2.Winrt.BigInt.Text
import NewM2.Winrt.Decimal

/-!
# Texts of decimals (`library/winrtmod/Decimal.mod`)

`FromStr` and `ToStr`, with the coefficient as it is stored. Each has a buffer of `bufferLen` characters
that nothing clears, so it is a parameter. A loop that ends with RETURN FALSE leaves its procedure by
`Exit.returned`. -/

namespace NewM2.Winrt.Decimal
open BigInt Segment

structure Stored where
  coeff : Rep
  exp : Word

def Stored.toRec (d : Stored) : Rec := ⟨d.coeff.toInt, d.exp⟩

/-- `digits` and `mag` -/
def bufferLen : Nat := 1024

def isDigit (c : Char) : Bool := '0' ≤ c ∧ c ≤ '9'

/-! ## FromStr -/

structure Scan where
  digits : List Char
  k : Nat
  fracLen : Nat
  seenDot : Bool
  anyDigit : Bool

/-- One character; none to return FALSE. -/
def scanChar (c : Char) (S : Scan) : Except BigInt.Fault (Option Scan) :=
  if c = '.' then .ok (if S.seenDot then none else some { S with seenDot := true })
  else if isDigit c then
    if high S.digits ≤ S.k then .ok none
    else do
      let digits ← putChar S.digits S.k c
      .ok (some { S with
        digits := digits, k := S.k + 1, anyDigit := true
        fracLen := if S.seenDot then S.fracLen + 1 else S.fracLen })
  else .ok none

def scanText : List Char → Scan → Except BigInt.Fault (Option Scan)
  | [], S => .ok (some S)
  | c :: s, S =>
    if c = BigInt.nul then .ok (some S)
    else do
      match ← scanChar c S with
      | none => .ok none
      | some S => scanText s S

section storage
variable (M : Storage)

/-- `d := Create(); RETURN FALSE` -/
def malformed : Except BigInt.Fault (Bool × Stored) := do
  let coeff ← BigInt.fromCard M 0
  .ok (false, ⟨coeff, 0⟩)

/-- The result, and `d`. -/
def fromStr (s digits : List Char) : Except BigInt.Fault (Bool × Stored) := do
  let (neg, s) := scanSign (s.dropWhile isBlank)
  match ← scanText s ⟨digits, 0, 0, false, false⟩ with
  | none => malformed M
  | some S =>
    if !S.anyDigit then malformed M
    else
      let digits ← putChar S.digits S.k BigInt.nul
      let (ok, coeff) ← BigInt.fromStr M digits 10
      if !ok then malformed M
      else
        let coeff ← (if neg ∧ 0 < coeff.sign then BigInt.neg M coeff else .ok coeff)
        .ok (true, ⟨coeff, -BitVec.ofNat 64 S.fracLen⟩)

end storage

/-! ## ToStr -/

/-- How `ToStr` is left before its end. -/
inductive Exit
  | fault (e : BigInt.Fault)
  /-- RETURN FALSE, with the array as it is then. -/
  | returned (s : List Char)

def checked {α : Type} (x : Except BigInt.Fault α) : Except Exit α := x.mapError .fault

/-- `IF NOT Put(c) THEN RETURN FALSE END`, on `k` and the array. -/
def put (c : Char) (q : Nat × List Char) : Except Exit (Nat × List Char) :=
  if high q.2 < q.1 then .error (.returned q.2)
  else do
    let s ← checked (putChar q.2 q.1 c)
    .ok (q.1 + 1, s)

/-- The next `n` characters of `mag`, from the index `i` on. -/
def putMag (mag : List Char) : Nat → Nat → Nat × List Char → Except Exit (Nat × List Char)
  | 0, _, q => .ok q
  | n + 1, i, q => do
    let c ← checked (getChar mag i)
    let q ← put c q
    putMag mag n (i + 1) q

def putZeros : Nat → Nat × List Char → Except Exit (Nat × List Char)
  | 0, q => .ok q
  | n + 1, q => do
    let q ← put '0' q
    putZeros n q

/-- `len := 0; WHILE mag[len] # 0C DO INC(len) END` -/
def textLength : List Char → Except BigInt.Fault Nat
  | [] => .error .textIndex
  | c :: mag =>
    if c = BigInt.nul then .ok 0
    else do
      let len ← textLength mag
      .ok (len + 1)

/-- `ToStr` from `k := 0` on. -/
def putText (neg : Bool) (exp : Word) (mag : List Char) (len : Nat) (s : List Char) :
    Except Exit (List Char) := do
  let q ← (if neg then put '-' (0, s) else .ok (0, s))
  let q ← (if 0 ≤ exp.toInt then do
      let q ← putMag mag len 0 q
      putZeros exp.toNat q
    else
      let nfrac := (-exp).toNat
      if nfrac < len then do
        let intLen := len - nfrac
        let q ← putMag mag intLen 0 q
        let q ← put '.' q
        putMag mag (len - intLen) intLen q
      else do
        let q ← put '0' q
        let q ← put '.' q
        let q ← putZeros (nfrac - len) q
        putMag mag len 0 q)
  if high q.2 < q.1 then .error (.returned q.2)
  else checked (putChar q.2 q.1 BigInt.nul)

/-- The result, and `s`. -/
def toStr (M : Storage) (d : Stored) (mag s : List Char) : Except BigInt.Fault (Bool × List Char) := do
  let neg := decide (d.coeff.sign < 0)
  let absd ← BigInt.abs M d.coeff
  let (ok, mag) ← BigInt.toStr M absd 10 mag
  if !ok then .ok (false, s)
  else
    let len ← textLength mag
    match putText neg d.exp mag len s with
    | .ok s => .ok (true, s)
    | .error (.returned s) => .ok (false, s)
    | .error (.fault e) => .error e

/-! ## Texts -/

/-- The text is a sign or none, digits and, if there are any more, a point and those, and is read as
`x`. -/
def Denotes (text : List Char) (x : ℚ) : Prop :=
  ∃ sign ip fp, text = sign ++ (ip ++ if fp = [] then [] else '.' :: fp) ∧ sign ∈ [[], ['-']] ∧ ip ≠ [] ∧
    (∀ c ∈ ip ++ fp, isDigit c) ∧
    x = (if sign = ['-'] then -1 else 1) * (digitsValue 10 (ip ++ fp) / 10 ^ fp.length)

def digitCount (text : List Char) : Nat := text.countP isDigit

section text
variable {c : Char} {ds : List Char} {m n : Nat}

theorem digitVal_lt_ten (h : isDigit c) : digitVal c < 10 := by
  have hc : '0' ≤ c ∧ c ≤ '9' := by simpa [isDigit] using h
  have hlow : '0'.toNat ≤ c.toNat := hc.1
  have hhigh : c.toNat ≤ '9'.toNat := hc.2
  have hdiff : c.toNat - '0'.toNat < 10 := by
    have h0 : '0'.toNat = 48 := rfl
    have h9 : '9'.toNat = 57 := rfl
    omega
  rw [digitVal, if_pos hc, BitVec.lt_def, BitVec.toNat_ofNat, Nat.mod_eq_of_lt (by omega)]
  exact hdiff

theorem ne_of_isDigit {x : Char} (h : isDigit c) (hx : isDigit x = false) : c ≠ x := by
  rintro rfl
  rw [h] at hx
  exact absurd hx (by decide)

theorem isDigit_digitChar {d : Nat} (hd : d < 10) : isDigit (digitChar (BitVec.ofNat 64 d)) := by
  interval_cases d <;> decide

theorem isDigit_numeral (n : Nat) (hc : c ∈ numeral 10 (n : Int)) : isDigit c := by
  have hneg : ¬ (n : Int) < 0 := by omega
  rw [numeral, if_neg hneg, List.nil_append] at hc
  split_ifs at hc with h0
  · rw [List.mem_singleton.1 hc]
    decide
  · obtain ⟨d, hd, rfl⟩ := List.mem_map.1 (List.mem_reverse.1 hc)
    exact isDigit_digitChar (digit_lt (show (2 : Word) ≤ 10 by decide) hd)

theorem digitsValue_numeral (n : Nat) : digitsValue 10 (numeral 10 (n : Int)) = n := by
  have hneg : ¬ (n : Int) < 0 := by omega
  rw [numeral, if_neg hneg, List.nil_append]
  split_ifs with h0
  · have hn : n = 0 := by exact_mod_cast h0
    rw [hn]
    rfl
  · rw [Int.natAbs_natCast]
    exact digitsValue_lowDigits (by decide) (by decide) n

theorem digitsValue_append (xs ys : List Char) :
    digitsValue 10 (xs ++ ys) = digitsValue 10 xs * 10 ^ ys.length + digitsValue 10 ys := by
  have hfold : ∀ v, ys.foldl (fun v c => v * (10 : Word).toNat + (digitVal c).toNat) v =
      v * 10 ^ ys.length + digitsValue 10 ys := by
    intro v
    rw [digitsValue]
    induction ys using List.reverseRecOn generalizing v with
    | nil => simp
    | append_singleton ys c ih =>
      have hten : (10 : Word).toNat = 10 := rfl
      rw [List.foldl_append, List.foldl_append, ih, List.length_append, pow_add, hten]
      simp only [List.foldl_cons, List.foldl_nil, List.length_singleton, pow_one]
      ring
  rw [digitsValue, List.foldl_append, ← digitsValue, hfold]

theorem digitsValue_zeros (n : Nat) : digitsValue 10 (List.replicate n '0') = 0 := by
  induction n with
  | zero => rfl
  | succ n ih =>
    rw [List.replicate_succ', digitsValue_append, ih, Nat.zero_mul]
    rfl

theorem digitsValue_lt (hds : ∀ c ∈ ds, isDigit c) : digitsValue 10 ds < 10 ^ ds.length := by
  induction ds using List.reverseRecOn with
  | nil => exact Nat.one_pos
  | append_singleton ds c ih =>
    have hc := digitVal_lt_ten (hds c (by simp))
    have hone : digitsValue 10 [c] = (digitVal c).toNat := by
      rw [digitsValue, List.foldl_cons, List.foldl_nil, Nat.zero_mul, Nat.zero_add]
    have hlt : (digitVal c).toNat < 10 := hc
    have hrec := ih fun c hc => hds c (by simp [hc])
    rw [digitsValue_append, hone, List.length_append, List.length_singleton, pow_one, pow_succ]
    omega

theorem length_numeral_pos (n : Nat) : 0 < (numeral 10 (n : Int)).length := by
  refine List.length_pos_of_ne_nil fun h => ?_
  have hneg : ¬ (n : Int) < 0 := by omega
  rw [numeral, if_neg hneg, List.nil_append] at h
  split_ifs at h with h0
  rw [lowDigits_of_pos (by decide) (Int.natAbs_pos.2 h0)] at h
  simp at h

end text

/-! ## Writing -/

section writing
variable {q : Nat × List Char} {w mag num rest s : List Char} {c : Char} {i m n : Nat}

/-- What has been put is `w`, in an array of `n` characters. -/
structure Wrote (n : Nat) (w : List Char) (q : Nat × List Char) : Prop where
  length : q.2.length = n
  count : q.1 = w.length
  text : q.2.take q.1 = w

/-- Nothing else stops the writing. -/
def Stops : Exit → Prop
  | .returned _ => True
  | .fault _ => False

theorem Wrote.start (s : List Char) : Wrote s.length [] (0, s) := ⟨rfl, rfl, List.take_zero⟩

theorem Wrote.le (h : Wrote n w q) : q.1 ≤ n := by
  have hlen := congrArg List.length h.text
  rw [List.length_take, h.length, ← h.count] at hlen
  omega

theorem put_runs (hn : 0 < n) (h : Wrote n w q) : Runs Stops (put c q) (Wrote n (w ++ [c])) := by
  have hlen := h.length
  rw [put, high, hlen]
  by_cases hfull : n - 1 < q.1
  · rw [if_pos hfull]
    exact Runs.error trivial
  · have hlt : q.1 < q.2.length := by omega
    rw [if_neg hfull, putChar, if_pos hlt]
    refine Runs.ok ⟨List.length_set.trans hlen, ?_, ?_⟩
    · rw [List.length_append, List.length_singleton, h.count]
    · rw [take_succ (by rw [List.length_set]; exact hlt), take_set_of_le le_rfl, List.getElem_set_self, h.text]

theorem putMag_runs (hn : 0 < n) (hi : i + m ≤ mag.length) (h : Wrote n w q) :
    Runs Stops (putMag mag m i q) (Wrote n (w ++ slice mag i m)) := by
  induction m generalizing i w q with
  | zero =>
    rw [slice_zero, List.append_nil]
    exact Runs.ok h
  | succ m ih =>
    have hget : getChar mag i = .ok mag[i] := by rw [getChar, List.getElem?_eq_getElem (by omega)]
    rw [putMag, hget]
    refine (put_runs hn h).bind ?_
    intro q' hq'
    refine (ih (by omega) hq').mono fun q'' hq'' => ?_
    rwa [List.append_assoc, List.singleton_append, ← slice_succ] at hq''

theorem putZeros_runs (hn : 0 < n) (m : Nat) (h : Wrote n w q) :
    Runs Stops (putZeros m q) (Wrote n (w ++ List.replicate m '0')) := by
  induction m generalizing w q with
  | zero =>
    rw [List.replicate_zero, List.append_nil]
    exact Runs.ok h
  | succ m ih =>
    rw [putZeros]
    refine (put_runs hn h).bind ?_
    intro q' hq'
    refine (ih hq').mono fun q'' hq'' => ?_
    rwa [List.append_assoc, List.singleton_append, ← List.replicate_succ] at hq''

/-- What `ToStr` writes behind the sign, for the digits `num`. -/
def plain (exp : Word) (num : List Char) : List Char :=
  if 0 ≤ exp.toInt then num ++ List.replicate exp.toNat '0'
  else
    let nfrac := (-exp).toNat
    if nfrac < num.length then num.take (num.length - nfrac) ++ '.' :: num.drop (num.length - nfrac)
    else '0' :: '.' :: (List.replicate (nfrac - num.length) '0' ++ num)

theorem putText_runs (hs : s ≠ []) (hmag : mag = num ++ rest) (neg : Bool) (exp : Word) :
    Runs Stops (putText neg exp mag num.length s) fun s' =>
      ∃ rest, s' = (if neg then ['-'] else []) ++ plain exp num ++ BigInt.nul :: rest := by
  have hn := List.length_pos_of_ne_nil hs
  have hlen : num.length ≤ mag.length := by
    rw [hmag, List.length_append]
    exact Nat.le_add_right _ _
  have hall : slice mag 0 num.length = num := by rw [slice_of_zero, hmag, List.take_left]
  have hsign : Runs Stops (if neg then put '-' (0, s) else .ok (0, s))
      (Wrote s.length (if neg then ['-'] else [])) := by
    cases neg with
    | false => exact Runs.ok (Wrote.start s)
    | true => exact put_runs hn (Wrote.start s)
  rw [putText]
  refine hsign.bind ?_
  intro q hq
  generalize (if neg then ['-'] else []) = w at hq ⊢
  have hbody : Runs Stops (if 0 ≤ exp.toInt then do
        let q ← putMag mag num.length 0 q
        putZeros exp.toNat q
      else
        let nfrac := (-exp).toNat
        if nfrac < num.length then do
          let intLen := num.length - nfrac
          let q ← putMag mag intLen 0 q
          let q ← put '.' q
          putMag mag (num.length - intLen) intLen q
        else do
          let q ← put '0' q
          let q ← put '.' q
          let q ← putZeros (nfrac - num.length) q
          putMag mag num.length 0 q) (Wrote s.length (w ++ plain exp num)) := by
    rw [plain]
    by_cases hexp : 0 ≤ exp.toInt
    · rw [if_pos hexp, if_pos hexp]
      refine (putMag_runs hn (by omega) hq).bind ?_
      intro q₁ hq₁
      rw [hall] at hq₁
      rw [← List.append_assoc]
      exact putZeros_runs hn _ hq₁
    rw [if_neg hexp, if_neg hexp]
    dsimp only
    by_cases hfrac : (-exp).toNat < num.length
    · rw [if_pos hfrac, if_pos hfrac]
      refine (putMag_runs hn (by omega) hq).bind ?_
      intro q₁ hq₁
      refine (put_runs hn hq₁).bind ?_
      intro q₂ hq₂
      refine (putMag_runs hn (by omega) hq₂).mono fun q₃ hq₃ => ?_
      have hint : slice mag 0 (num.length - (-exp).toNat) = num.take (num.length - (-exp).toNat) := by
        rw [slice_of_zero, hmag, List.take_append_of_le_length (Nat.sub_le _ _)]
      have hfp : slice mag (num.length - (-exp).toNat) (num.length - (num.length - (-exp).toNat)) =
          num.drop (num.length - (-exp).toNat) := by
        rw [slice, hmag, List.drop_append_of_le_length (Nat.sub_le _ _), ← List.length_drop, List.take_left]
      rw [hint, hfp] at hq₃
      simpa using hq₃
    · rw [if_neg hfrac, if_neg hfrac]
      refine (put_runs hn hq).bind ?_
      intro q₁ hq₁
      refine (put_runs hn hq₁).bind ?_
      intro q₂ hq₂
      refine (putZeros_runs hn _ hq₂).bind ?_
      intro q₃ hq₃
      refine (putMag_runs hn (by omega) hq₃).mono fun q₄ hq₄ => ?_
      rw [hall] at hq₄
      simpa using hq₄
  refine hbody.bind ?_
  rintro ⟨k, s'⟩ hq'
  have hlen' := hq'.length
  have htext := hq'.text
  dsimp only at hlen' htext ⊢
  rw [high, hlen']
  by_cases hfull : s.length - 1 < k
  · rw [if_pos hfull]
    exact Runs.error trivial
  · have hlt : k < s'.length := by omega
    rw [if_neg hfull, putChar, if_pos hlt]
    refine Runs.ok ⟨s'.drop (k + 1), ?_⟩
    rw [← htext, List.set_eq_take_append_cons_drop, if_pos hlt]

/-- Zeros in front, a point within or zeros behind: the number is the same. -/
theorem plain_denotes (z : Int) (exp : Word) :
    Denotes ((if z < 0 then ['-'] else []) ++ plain exp (numeral 10 (z.natAbs : Int)))
      (Rec.mk z exp).value := by
  have hdigits : ∀ c ∈ numeral 10 (z.natAbs : Int), isDigit c := fun c => isDigit_numeral z.natAbs
  have hvalue := digitsValue_numeral z.natAbs
  have hpos := length_numeral_pos z.natAbs
  have hsign : (Rec.mk z exp).value =
      (if (if z < 0 then ['-'] else []) = ['-'] then -1 else 1) * ((z.natAbs : ℚ) * 10 ^ exp.toInt) := by
    rw [Rec.value]
    by_cases hz : z < 0
    · have habs : (z.natAbs : Int) = -z := by omega
      have hcast : (z : ℚ) = -(z.natAbs : ℚ) := by rw [← Int.cast_natCast, habs, Int.cast_neg, neg_neg]
      rw [if_pos hz, if_pos rfl, hcast]
      ring
    · have habs : (z.natAbs : Int) = z := by omega
      have hcast : (z : ℚ) = (z.natAbs : ℚ) := by rw [← Int.cast_natCast, habs]
      rw [if_neg hz, if_neg (by simp), hcast, one_mul]
  generalize numeral 10 (z.natAbs : Int) = num at hdigits hvalue hpos ⊢
  have hmem : (if z < 0 then ['-'] else []) ∈ [[], ['-']] := by split_ifs <;> simp
  rw [plain]
  by_cases hexp : 0 ≤ exp.toInt
  · rw [if_pos hexp]
    have hpow : (10 : ℚ) ^ exp.toInt = 10 ^ exp.toNat := by
      rw [← zpow_natCast]
      congr 1
      rw [BitVec.toInt_eq_toNat_cond] at hexp ⊢
      split_ifs at hexp ⊢ <;> omega
    refine ⟨_, num ++ List.replicate exp.toNat '0', [], by simp, hmem, ?_, ?_, ?_⟩
    · exact List.append_ne_nil_of_left_ne_nil (List.ne_nil_of_length_pos hpos) _
    · intro c hc
      rw [List.append_nil, List.mem_append] at hc
      rcases hc with hc | hc
      · exact hdigits c hc
      · rw [List.eq_of_mem_replicate hc]
        decide
    · rw [hsign, List.append_nil, digitsValue_append, hvalue, digitsValue_zeros, List.length_replicate,
        Nat.add_zero, hpow, List.length_nil, pow_zero, div_one]
      push_cast
      rfl
  rw [if_neg hexp]
  dsimp only
  have hneg : (((-exp).toNat : Nat) : Int) = -exp.toInt := by
    have hlt := exp.isLt
    rw [BitVec.toNat_neg]
    rw [BitVec.toInt_eq_toNat_cond] at hexp ⊢
    split_ifs at hexp ⊢ <;> omega
  have hpow : (10 : ℚ) ^ exp.toInt = (10 ^ (-exp).toNat)⁻¹ := by
    rw [← zpow_natCast, hneg, zpow_neg, inv_inv]
  have hfrac : 0 < (-exp).toNat := by omega
  rw [hsign, hpow, ← div_eq_mul_inv]
  generalize (-exp).toNat = nfrac at hfrac ⊢
  by_cases hlt : nfrac < num.length
  · rw [if_pos hlt]
    have hlen : (num.drop (num.length - nfrac)).length = nfrac := by
      rw [List.length_drop]
      omega
    refine ⟨_, num.take (num.length - nfrac), num.drop (num.length - nfrac), ?_, hmem, ?_, ?_, ?_⟩
    · rw [if_neg (List.ne_nil_of_length_pos (by omega))]
    · refine List.ne_nil_of_length_pos ?_
      rw [List.length_take]
      omega
    · rwa [List.take_append_drop]
    · rw [List.take_append_drop, hvalue, hlen]
  · rw [if_neg hlt]
    have hlen : (List.replicate (nfrac - num.length) '0' ++ num).length = nfrac := by
      rw [List.length_append, List.length_replicate]
      omega
    refine ⟨_, ['0'], List.replicate (nfrac - num.length) '0' ++ num, ?_, hmem, List.cons_ne_nil _ _, ?_, ?_⟩
    · rw [if_neg (List.ne_nil_of_length_pos (by omega))]
      rfl
    · intro c hc
      simp only [List.mem_append, List.mem_singleton] at hc
      rcases hc with rfl | hc | hc
      · decide
      · rw [List.eq_of_mem_replicate hc]
        decide
      · exact hdigits c hc
    · have hzero : digitsValue 10 ['0'] = 0 := rfl
      rw [digitsValue_append, hzero, Nat.zero_mul, Nat.zero_add, digitsValue_append, digitsValue_zeros,
        Nat.zero_mul, Nat.zero_add, hvalue, hlen]

end writing

/-! ## Reading -/

section reading
variable {S : Scan} {ds es ip fp s : List Char} {c : Char}

/-- The digits that are read are `ds`. -/
structure Scanned (ds : List Char) (S : Scan) : Prop where
  length : S.digits.length = bufferLen
  count : S.k = ds.length
  text : S.digits.take S.k = ds
  any : S.anyDigit = !ds.isEmpty

theorem scanText_digit (hc : isDigit c) (h : Scanned ds S) (hlen : ds.length + 1 < bufferLen) :
    ∃ S', scanText (c :: s) S = scanText s S' ∧ Scanned (ds ++ [c]) S' ∧ S'.seenDot = S.seenDot ∧
      S'.fracLen = if S.seenDot then S.fracLen + 1 else S.fracLen := by
  have hk : S.k < S.digits.length := by
    rw [h.length, h.count]
    omega
  have hhigh : ¬ high S.digits ≤ S.k := by
    rw [high, h.length, h.count]
    omega
  have hrun : scanChar c S = .ok (some { S with
      digits := S.digits.set S.k c, k := S.k + 1, anyDigit := true
      fracLen := if S.seenDot then S.fracLen + 1 else S.fracLen }) := by
    rw [scanChar, if_neg (ne_of_isDigit hc rfl), if_pos hc, if_neg hhigh, putChar, if_pos hk]
    rfl
  rw [scanText, if_neg (ne_of_isDigit hc rfl), hrun]
  refine ⟨_, rfl, ⟨List.length_set.trans h.length, ?_, ?_, ?_⟩, rfl, rfl⟩
  · rw [List.length_append, List.length_singleton, h.count]
  · dsimp only
    rw [take_succ (by rw [List.length_set]; exact hk), take_set_of_le le_rfl, List.getElem_set_self, h.text]
  · simp

theorem scanText_digits (hes : ∀ c ∈ es, isDigit c) (h : Scanned ds S)
    (hlen : (ds ++ es).length < bufferLen) :
    ∃ S', scanText (es ++ s) S = scanText s S' ∧ Scanned (ds ++ es) S' ∧ S'.seenDot = S.seenDot ∧
      S'.fracLen = if S.seenDot then S.fracLen + es.length else S.fracLen := by
  induction es generalizing ds S with
  | nil => exact ⟨S, rfl, by rwa [List.append_nil], rfl, by split_ifs <;> rfl⟩
  | cons c es ih =>
    rw [List.length_append, List.length_cons] at hlen
    obtain ⟨S₁, hrun₁, hscan₁, hdot₁, hfrac₁⟩ :=
      scanText_digit (s := es ++ s) (hes c (List.mem_cons_self ..)) h (by omega)
    obtain ⟨S₂, hrun₂, hscan₂, hdot₂, hfrac₂⟩ := ih (fun c hc => hes c (List.mem_cons_of_mem _ hc)) hscan₁
      (by rw [List.length_append, List.length_append, List.length_singleton]; omega)
    rw [List.append_assoc, List.singleton_append] at hscan₂
    refine ⟨S₂, hrun₁.trans hrun₂, hscan₂, hdot₂.trans hdot₁, hfrac₂.trans ?_⟩
    rw [hdot₁, hfrac₁, List.length_cons]
    split_ifs <;> omega

/-- The digits before and behind the point, up to the first NUL. -/
theorem scanText_point (hdigits : ∀ c ∈ ip ++ fp, isDigit c) (hlen : (ip ++ fp).length < bufferLen)
    (hS : Scanned [] S) (hdot : S.seenDot = false) (hfrac : S.fracLen = 0) (rest : List Char) :
    ∃ S', scanText (ip ++ (if fp = [] then [] else '.' :: fp) ++ BigInt.nul :: rest) S = .ok (some S') ∧
      Scanned (ip ++ fp) S' ∧ S'.fracLen = fp.length := by
  have hend : ∀ S', scanText (BigInt.nul :: rest) S' = .ok (some S') := fun S' => by rw [scanText, if_pos rfl]
  have hip : ∀ c ∈ ip, isDigit c := fun c hc => hdigits c (List.mem_append_left _ hc)
  rw [List.length_append] at hlen
  rw [List.append_assoc]
  by_cases hfp : fp = []
  · obtain ⟨S₁, hrun₁, hscan₁, -, hfrac₁⟩ := scanText_digits (s := BigInt.nul :: rest) hip hS
      (by rw [List.nil_append]; omega)
    rw [if_pos hfp, List.nil_append, hrun₁, hend, hfp, List.append_nil]
    rw [hdot, hfrac] at hfrac₁
    exact ⟨S₁, rfl, hscan₁, hfrac₁⟩
  · obtain ⟨S₁, hrun₁, hscan₁, hdot₁, hfrac₁⟩ := scanText_digits (s := '.' :: (fp ++ BigInt.nul :: rest)) hip hS
      (by rw [List.nil_append]; omega)
    have hpoint : scanText ('.' :: (fp ++ BigInt.nul :: rest)) S₁ =
        scanText (fp ++ BigInt.nul :: rest) { S₁ with seenDot := true } := by
      rw [scanText, if_neg (by decide), scanChar, if_pos rfl, hdot₁, hdot]
      rfl
    have hscan₁' : Scanned ip { S₁ with seenDot := true } :=
      ⟨hscan₁.length, hscan₁.count, hscan₁.text, hscan₁.any⟩
    have hfp' : ∀ c ∈ fp, isDigit c := fun c hc => hdigits c (List.mem_append_right _ hc)
    obtain ⟨S₂, hrun₂, hscan₂, -, hfrac₂⟩ := scanText_digits (s := BigInt.nul :: rest) hfp' hscan₁' (by rw [List.length_append]; omega)
    rw [if_neg hfp, List.cons_append, hrun₁, hpoint, hrun₂, hend]
    rw [if_pos rfl] at hfrac₂
    refine ⟨S₂, rfl, hscan₂, hfrac₂.trans ?_⟩
    rw [hdot, hfrac] at hfrac₁
    dsimp only
    rw [hfrac₁]
    exact Nat.zero_add _

theorem digitCount_eq {sign : List Char} (hsign : sign ∈ [[], ['-']]) (hdigits : ∀ c ∈ ip ++ fp, isDigit c) :
    digitCount (sign ++ (ip ++ if fp = [] then [] else '.' :: fp)) = (ip ++ fp).length := by
  have hnone : sign.countP isDigit = 0 := by
    simp only [List.mem_cons, List.not_mem_nil, or_false] at hsign
    rcases hsign with rfl | rfl <;> rfl
  have hfrac : (if fp = [] then [] else '.' :: fp).countP isDigit = fp.countP isDigit := by
    by_cases hfp : fp = []
    · rw [if_pos hfp, hfp]
    · rw [if_neg hfp, List.countP_cons_of_neg (by decide)]
  rw [digitCount, List.countP_append, hnone, Nat.zero_add, List.countP_append, hfrac, ← List.countP_append,
    List.countP_eq_length.2 hdigits]

variable (M : Storage)

/-- What is in the buffer is a numeral that the limbs can hold. -/
theorem buffer_numeral (hne : ds ≠ []) (hds : ∀ c ∈ ds, isDigit c) (hlen : ds.length ≤ 1023)
    (rest : List Char) : ∃ p, BigInt.fromStr M (ds ++ BigInt.nul :: rest) 10 = .ok (true, p) ∧
      p.Is (digitsValue 10 ds : Int) ∧ p.len ≤ maxIdx + 1 := by
  have hnumeral : Numeral 10 (ds ++ BigInt.nul :: rest) (digitsValue 10 ds : Int) :=
    ⟨[], [], ds, BigInt.nul :: rest, rfl, fun c hc => absurd hc List.not_mem_nil, by simp, hne,
      fun c hc => digitVal_lt_ten (hds c hc), fun c hc => (Option.some.inj hc).symm, rfl⟩
  have hlimit : (digitsValue 10 ds : Int).natAbs < limit := by
    rw [Int.natAbs_natCast]
    calc digitsValue 10 ds < 10 ^ ds.length := digitsValue_lt hds
      _ ≤ (2 ^ 64) ^ ds.length := Nat.pow_le_pow_left (by norm_num) _
      _ ≤ limit := base_pow_le (hlen.trans (by decide))
  obtain ⟨p, hp, his⟩ := BigInt.fromStr_numeral M (by decide) (by decide) hnumeral hlimit
  exact ⟨p, hp, his, his.mag.len_le hlimit⟩

theorem neg_or_not {p : Rep} {v : Nat} (hp : p.Is (v : Int)) (hlen : p.len ≤ maxIdx + 1) (neg : Bool) :
    ∃ p', (if neg ∧ 0 < p.sign then BigInt.neg M p else .ok p) = .ok p' ∧
      p'.Is (if neg then -(v : Int) else v) := by
  cases neg with
  | false => exact ⟨p, if_neg fun h => absurd h.1 (by decide), hp⟩
  | true =>
    by_cases hpos : 0 < p.sign
    · rw [if_pos ⟨rfl, hpos⟩, if_pos rfl]
      exact (neg_runs M hp fun h => absurd hlen (not_le.2 h)).succeeds
    · have h0 : v = 0 := by
        rw [hp.sign, Int.sign_pos_iff] at hpos
        omega
      rw [if_neg fun h => hpos h.2, if_pos rfl]
      rw [h0] at hp ⊢
      exact ⟨p, rfl, hp⟩

/-- No blank is in front, and the sign is what is scanned. -/
theorem scan_start {sign : List Char} (hsign : sign ∈ [[], ['-']]) (hip : ip ≠ [])
    (hdigits : ∀ c ∈ ip, isDigit c) (t : List Char) :
    scanSign ((sign ++ (ip ++ t)).dropWhile isBlank) = (decide (sign = ['-']), ip ++ t) := by
  obtain ⟨d, ip, rfl⟩ := List.exists_cons_of_ne_nil hip
  have hd : isDigit d := hdigits d (List.mem_cons_self ..)
  have hblank : isBlank d = false := by
    simp [isBlank, ne_of_isDigit hd (x := ' ') rfl, ne_of_isDigit hd (x := Char.ofNat 9) rfl]
  have hstart : (sign ++ (d :: ip ++ t)).dropWhile isBlank = sign ++ (d :: ip ++ t) := by
    simp only [List.mem_cons, List.not_mem_nil, or_false] at hsign
    rcases hsign with rfl | rfl
    · exact List.dropWhile_cons_of_neg (by rw [hblank]; decide)
    · exact List.dropWhile_cons_of_neg (by decide)
  rw [hstart]
  refine scanSign_append ?_ fun c hc => ?_
  · simp only [List.mem_cons, List.not_mem_nil, or_false] at hsign ⊢
    exact hsign.imp id .inr
  · obtain rfl : d = c := Option.some.inj hc
    exact ⟨ne_of_isDigit hd rfl, ne_of_isDigit hd rfl⟩

/-- A text with its end is read as the number that it denotes, as long as its digits fit the buffer. -/
theorem fromStr_denotes {text digits : List Char} {x : ℚ} (h : Denotes text x)
    (hcount : digitCount text ≤ 1023) (hdigits : digits.length = bufferLen) (rest : List Char) :
    ∃ p, fromStr M (text ++ BigInt.nul :: rest) digits = .ok (true, p) ∧ p.coeff.Inv ∧ p.toRec.value = x := by
  obtain ⟨sign, ip, fp, rfl, hsign, hne, hall, hx⟩ := h
  rw [digitCount_eq hsign hall] at hcount
  have hbuffer : (1023 : Nat) < bufferLen := by decide
  have hstart := scan_start hsign hne (fun c hc => hall c (List.mem_append_left _ hc))
    ((if fp = [] then [] else '.' :: fp) ++ BigInt.nul :: rest)
  obtain ⟨S, hrun, hscan, hfrac⟩ := scanText_point (S := ⟨digits, 0, 0, false, false⟩) hall (by omega)
    ⟨hdigits, rfl, List.take_zero, rfl⟩ rfl rfl rest
  have hall_ne : ip ++ fp ≠ [] := List.append_ne_nil_of_left_ne_nil hne _
  have hany : S.anyDigit = true := by
    rw [hscan.any, List.isEmpty_eq_false_iff.2 hall_ne]
    rfl
  have hk : S.k < S.digits.length := by
    rw [hscan.length, hscan.count]
    omega
  have hput : putChar S.digits S.k BigInt.nul = .ok ((ip ++ fp) ++ BigInt.nul :: S.digits.drop (S.k + 1)) := by
    rw [putChar, if_pos hk, List.set_eq_take_append_cons_drop, if_pos hk, hscan.text]
  obtain ⟨p, hp, his, hlen⟩ := buffer_numeral M hall_ne hall hcount (S.digits.drop (S.k + 1))
  obtain ⟨p', hp', his'⟩ := neg_or_not M his hlen (decide (sign = ['-']))
  refine ⟨⟨p', -BitVec.ofNat 64 S.fracLen⟩, ?_, (Rep.is_iff.1 his').1, ?_⟩
  · rw [fromStr, List.append_assoc, List.append_assoc, hstart]
    dsimp only
    rw [← List.append_assoc, hrun]
    simp only [bind, Except.bind, hany, hput, hp, hp', Bool.not_true, Bool.false_eq_true, if_false]
  · have hexp : (-BitVec.ofNat 64 S.fracLen : Word).toInt = -(fp.length : Int) := by
      have hfp : fp.length ≤ 1023 := by
        rw [List.length_append] at hcount
        omega
      have htoNat : (BitVec.ofNat 64 S.fracLen).toNat = fp.length := by
        rw [hfrac, BitVec.toNat_ofNat, Nat.mod_eq_of_lt (by omega)]
      rw [neg_toInt (by omega), htoNat]
    rw [Stored.toRec, Rec.value, hexp, his'.toInt_eq, zpow_neg, zpow_natCast, ← div_eq_mul_inv, hx]
    by_cases hneg : sign = ['-']
    · rw [if_pos (decide_eq_true hneg), if_pos hneg]
      push_cast
      ring
    · rw [if_neg (by rw [decide_eq_false hneg]; decide), if_neg hneg]
      push_cast
      ring

end reading

/-! ## There and back -/

/-- `ToStr` stays within its buffer and the array, and where it returns TRUE the text denotes the decimal
and is read back, if its digits fit, as one that is equal. -/
def TextExact (M : Storage) (d : Stored) (mag s : List Char) : Prop :=
  toStr M d mag s ≠ .error .textIndex ∧
    ∀ s', toStr M d mag s = .ok (true, s') → ∃ text rest, s' = text ++ BigInt.nul :: rest ∧
      Denotes text d.toRec.value ∧
      (digitCount text ≤ 1023 → ∀ digits : List Char, digits.length = bufferLen →
        ∃ p, fromStr M s' digits = .ok (true, p) ∧ p.coeff.Inv ∧ compare p.toRec d.toRec = 0)

section text
variable {allowed : BigInt.Fault → Prop} {d : Stored} {ds mag s : List Char}

theorem textLength_append (hds : ∀ c ∈ ds, c ≠ BigInt.nul) (rest : List Char) :
    textLength (ds ++ BigInt.nul :: rest) = .ok ds.length := by
  induction ds with
  | nil => rfl
  | cons c ds ih =>
    rw [List.cons_append, textLength, if_neg (hds c (List.mem_cons_self ..)),
      ih fun c hc => hds c (List.mem_cons_of_mem _ hc)]
    rfl

theorem textLength_full (hds : ∀ c ∈ ds, c ≠ BigInt.nul) : textLength ds = .error .textIndex := by
  induction ds with
  | nil => rfl
  | cons c ds ih =>
    rw [textLength, if_neg (hds c (List.mem_cons_self ..)), ih fun c hc => hds c (List.mem_cons_of_mem _ hc)]
    rfl

theorem numeral_ne_nul (n : Nat) : ∀ c ∈ numeral 10 (n : Int), c ≠ BigInt.nul := fun _ hc =>
  ne_of_isDigit (isDigit_numeral n hc) rfl

variable (M : Storage)

theorem magnitude_runs {z : Int} {absd : Rep} (ha : absd.Is |z|)
    (hmag : mag.length = bufferLen) (hidx : maxIdx + 1 < absd.len → allowed .indexException) :
    Runs allowed (BigInt.toStr M absd 10 mag) fun q =>
      (q.1 = true ↔ (numeral 10 (z.natAbs : Int)).length ≤ bufferLen) ∧
        (q.1 = true → Written 10 (z.natAbs : Int) mag q.2) := by
  rw [Int.abs_eq_natAbs] at ha
  have htwo : 2 ≤ mag.length := hmag ▸ (by decide)
  have hrun := toStr_runs_two (show (2 : Word) ≤ 10 by decide) (by decide) ha htwo hidx M
  rwa [hmag] at hrun

/-- A magnitude that does not fill the buffer has its end there. -/
theorem toStr_text (hd : d.coeff.Inv) (hmag : mag.length = bufferLen) (hs : s ≠ [])
    (hlen : (numeral 10 (d.coeff.toInt.natAbs : Int)).length ≠ bufferLen) (hidx : allowed .indexException) :
    Runs allowed (toStr M d mag s) fun q => q.1 = true → ∃ rest,
      q.2 = (if d.coeff.toInt < 0 then ['-'] else []) ++
        plain d.exp (numeral 10 (d.coeff.toInt.natAbs : Int)) ++ BigInt.nul :: rest := by
  have his : d.coeff.Is d.coeff.toInt := Rep.is_iff.2 ⟨hd, rfl⟩
  have hneg : decide (d.coeff.sign < 0) = decide (d.coeff.toInt < 0) :=
    decide_eq_decide.2 (his.sign ▸ Int.sign_neg_iff)
  rw [toStr, hneg]
  refine (abs_runs M his fun _ => hidx).bind ?_
  intro absd habsd
  refine (magnitude_runs M habsd hmag fun _ => hidx).bind ?_
  rintro ⟨ok, mag'⟩ ⟨hok, hwritten⟩
  cases ok with
  | false => exact Runs.ok fun h => absurd h Bool.false_ne_true
  | true =>
    obtain ⟨rest, hrest, rfl⟩ := hwritten rfl
    dsimp only
    rw [hmag] at hrest
    cases rest with
    | nil => exact absurd hrest hlen
    | cons c rest =>
      rw [if_neg (by decide), endText, textLength_append (numeral_ne_nul _)]
      have hput : Runs Stops (putText _ _ (numeral 10 (d.coeff.toInt.natAbs : Int) ++ BigInt.nul :: rest) _ s) _ :=
        putText_runs hs rfl (decide (d.coeff.toInt < 0)) d.exp
      simp only [decide_eq_true_eq] at hput
      refine (show Runs allowed (.ok _) (· = _) from rfl).bind ?_
      rintro _ rfl
      revert hput
      generalize putText (decide (d.coeff.toInt < 0)) d.exp _ _ s = r
      intro hput
      rcases r with (e | s') | s'
      · exact hput.elim
      · exact fun h => absurd h Bool.false_ne_true
      · exact fun _ => hput

/-- One that fills it is read beyond it. -/
theorem toStr_full (hd : d.coeff.Inv) (hmag : mag.length = bufferLen)
    (hlen : (numeral 10 (d.coeff.toInt.natAbs : Int)).length = bufferLen) (s : List Char) :
    toStr M d mag s = .error .textIndex := by
  have his : d.coeff.Is d.coeff.toInt := Rep.is_iff.2 ⟨hd, rfl⟩
  have hlt : d.coeff.toInt.natAbs < limit := by
    have hvalue := digitsValue_numeral d.coeff.toInt.natAbs
    rw [← hvalue]
    calc digitsValue 10 (numeral 10 (d.coeff.toInt.natAbs : Int))
        < 10 ^ (numeral 10 (d.coeff.toInt.natAbs : Int)).length := digitsValue_lt fun _ => isDigit_numeral _
      _ ≤ (2 ^ 64) ^ (numeral 10 (d.coeff.toInt.natAbs : Int)).length := Nat.pow_le_pow_left (by norm_num) _
      _ ≤ limit := base_pow_le (hlen.le.trans (by decide))
  have hfits : ∀ {p : Rep} {z : Int}, p.Is z → z.natAbs = d.coeff.toInt.natAbs → ¬ maxIdx + 1 < p.len :=
    fun hp hz => not_lt.2 (hp.mag.len_le (hz ▸ hlt))
  obtain ⟨absd, hrun, habsd⟩ := (abs_runs M his fun h => hfits his rfl h).succeeds
  obtain ⟨⟨ok, mag'⟩, hrun', hok, hwritten⟩ := (magnitude_runs M habsd hmag
    fun h => hfits habsd (Int.natAbs_abs _) h).succeeds
  have htrue : ok = true := hok.2 hlen.le
  subst htrue
  obtain ⟨rest, hrest, hmag'⟩ := hwritten rfl
  have hnil : rest = [] := List.length_eq_zero_iff.1 (by omega)
  dsimp only at hmag'
  rw [hnil, endText, List.append_nil] at hmag'
  simp only [toStr, hrun, bind, Except.bind, hrun', hmag', textLength_full (numeral_ne_nul _)]
  rfl

theorem length_numeral (n : Nat) :
    (numeral 10 (n : Int)).length = bufferLen ↔ ((10 : Nat).digits n).length = bufferLen := by
  have hneg : ¬ (n : Int) < 0 := by omega
  rw [numeral, if_neg hneg, List.nil_append]
  by_cases h0 : (n : Int) = 0
  · have hn : n = 0 := by exact_mod_cast h0
    rw [if_pos h0, hn, Nat.digits_zero]
    exact iff_of_false (by decide) (by decide)
  · rw [if_neg h0, List.length_reverse, lowDigits, List.length_map, Int.natAbs_natCast]
    rfl

/-- Exactly the coefficients whose digits fill the working buffer go wrong. -/
theorem toStr_exact_iff (hd : d.coeff.Inv) (hmag : mag.length = bufferLen) (hs : s ≠ []) :
    TextExact M d mag s ↔ ((10 : Nat).digits d.coeff.toInt.natAbs).length ≠ bufferLen := by
  rw [Ne, ← length_numeral]
  constructor
  · rintro ⟨hin, -⟩ hlen
    exact hin (toStr_full M hd hmag hlen s)
  · intro hlen
    have hrun : Runs (· = .indexException) (toStr M d mag s) _ := toStr_text M hd hmag hs hlen rfl
    refine ⟨fun h => ?_, fun s' h => ?_⟩
    · rw [h] at hrun
      exact absurd (show BigInt.Fault.textIndex = .indexException from hrun) (by decide)
    · rw [h] at hrun
      obtain ⟨rest, hs'⟩ := (show true = true → _ from hrun) rfl
      have hdenotes := plain_denotes d.coeff.toInt d.exp
      refine ⟨_, rest, hs', hdenotes, fun hcount digits hdigits => ?_⟩
      obtain ⟨p, hp, hinv, hvalue⟩ := fromStr_denotes M hdenotes hcount hdigits rest
      dsimp only at hs'
      refine ⟨p, hs' ▸ hp, hinv, ?_⟩
      have heq : p.toRec.value = d.toRec.value := hvalue
      rw [compare_eq, heq, if_neg (lt_irrefl _), if_pos rfl]

end text

/-- A number of 1024 digits. -/
def full : Stored := ⟨{ sign := 1, len := 54, limbs := List.replicate 53 0 ++ [100] }, 0⟩

theorem full_inv : full.coeff.Inv := ⟨by decide, by decide, by decide, by decide⟩

theorem full_digits : ((10 : Nat).digits full.coeff.toInt.natAbs).length = bufferLen := by
  have hbound : ¬ full.coeff.toInt.natAbs < 10 ^ 1023 ∧ full.coeff.toInt.natAbs < 10 ^ 1024 := by
    decide +kernel
  have hlow := mt (Nat.digits_length_le_iff (by norm_num) full.coeff.toInt.natAbs).1 hbound.1
  have hhigh := (Nat.digits_length_le_iff (by norm_num) full.coeff.toInt.natAbs).2 hbound.2
  rw [bufferLen]
  omega

theorem toStr_of_full :
    toStr cleared full (List.replicate bufferLen '?') ['?'] = .error .textIndex ∧
      ¬ TextExact cleared full (List.replicate bufferLen '?') ['?'] := by
  have hrun := toStr_full cleared full_inv (List.length_replicate (n := bufferLen) (a := '?'))
    ((length_numeral _).2 full_digits) ['?']
  exact ⟨hrun, fun h => h.1 hrun⟩

theorem toStr_exact_iff_five :
    five.Inv ∧ (List.replicate bufferLen '?').length = bufferLen ∧ ['?', '?'] ≠ [] ∧
    (TextExact cleared ⟨five, -1⟩ (List.replicate bufferLen '?') ['?', '?'] ↔
      ((10 : Nat).digits five.toInt.natAbs).length ≠ bufferLen) :=
  ⟨five_inv, List.length_replicate, by decide,
    toStr_exact_iff cleared (d := ⟨five, -1⟩) five_inv List.length_replicate (by decide)⟩

end NewM2.Winrt.Decimal
