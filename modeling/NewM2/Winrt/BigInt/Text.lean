import Mathlib
import NewM2.Winrt.BigInt.Handles

/-!
# Numerals of numbers (`library/winrtmod/BigInt.mod`)

An ARRAY OF CHAR is the list of its characters, at least one; a text in it ends at the first NUL or with
the array. `numeral` is the text of a number in a radix, `Numeral` what a text must be to be read as one. -/

namespace NewM2.Winrt.BigInt
open Limbs Segment

/-- `0C` -/
def nul : Char := Char.ofNat 0

def isBlank (c : Char) : Bool := c = ' ' ∨ c = Char.ofNat 9

def digitVal (c : Char) : Word :=
  if '0' ≤ c ∧ c ≤ '9' then BitVec.ofNat 64 (c.toNat - '0'.toNat)
  else if 'a' ≤ c ∧ c ≤ 'f' then BitVec.ofNat 64 (c.toNat - 'a'.toNat + 10)
  else if 'A' ≤ c ∧ c ≤ 'F' then BitVec.ofNat 64 (c.toNat - 'A'.toNat + 10)
  else 99

def digitChar (d : Word) : Char :=
  if d < 10 then Char.ofNat ('0'.toNat + d.toNat) else Char.ofNat ('A'.toNat + d.toNat - 10)

/-- HIGH -/
def high (s : List Char) : Nat := s.length - 1

def getChar (s : List Char) (i : Nat) : Except Fault Char :=
  match s[i]? with
  | some c => .ok c
  | none => .error .textIndex

def putChar (s : List Char) (i : Nat) (c : Char) : Except Fault (List Char) :=
  if i < s.length then .ok (s.set i c) else .error .textIndex

/-- The sign, and the text behind it. -/
def scanSign : List Char → Bool × List Char
  | [] => (false, [])
  | c :: s => if c = '-' ∨ c = '+' then (decide (c = '-'), s) else (false, c :: s)

section storage
variable (M : Storage)

/-- `MulSmall(p, radix); AddSmall(p, dv)` -/
def addDigit (p : Rep) (radix dv : Word) : Except Fault Rep := do
  let p ← mulSmall M p radix
  addSmall M p dv

/-- The digits of `FromStr`: whether all are digits, `any`, and `p`. -/
def fromStrLoop (radix : Word) : List Char → Bool → Rep → Except Fault (Bool × Bool × Rep)
  | [], any, p => .ok (true, any, p)
  | c :: s, any, p =>
    if c = nul then .ok (true, any, p)
    else
      let dv := digitVal c
      if radix ≤ dv then .ok (false, any, p)
      else do
        let p ← addDigit M p radix dv
        fromStrLoop radix s true p

/-- The result, and `a`. -/
def fromStr (s : List Char) (radix : Word) : Except Fault (Bool × Rep) := do
  let p := newRep M 2
  if radix < 2 ∨ 16 < radix then .ok (false, p)
  else
    let (neg, s) := scanSign (s.dropWhile isBlank)
    let (ok, any, p) ← fromStrLoop M radix s false p
    if !ok || !any then .ok (false, p)
    else if neg ∧ p.sign ≠ 0 then .ok (true, { p with sign := -1 })
    else .ok (true, p)

/-- The digits of `ToStr` from the index `i` on, lowest first, where the array has `n` characters left:
their number, or none if they do not fit, and the array. -/
def toStrLoop (radix : Word) : Nat → Nat → Rep → List Char → Except Fault (Option Nat × List Char)
  | 0, i, tmp, s => .ok (if tmp.len = 0 then some i else none, s)
  | n + 1, i, tmp, s =>
    if tmp.len = 0 then .ok (some i, s)
    else do
      let (l, rem) ← divmod1 tmp.limbs none tmp.len radix
      let tmp ← norm { tmp with limbs := l }
      let s ← putChar s i (digitChar rem)
      toStrLoop radix n (i + 1) tmp s

/-- The reversal of the first `i` characters, from the index `j` on. -/
def reverseLoop (i j : Nat) (s : List Char) : Except Fault (List Char) :=
  if j * 2 < i then do
    let t ← getChar s j
    let u ← getChar s (i - 1 - j)
    let s ← putChar s j u
    let s ← putChar s (i - 1 - j) t
    reverseLoop i (j + 1) s
  else .ok s
termination_by i - j

/-- The end of `ToStr`, when `i` characters are written. -/
def toStrFinish (i : Nat) (s : List Char) : Except Fault (Bool × List Char) := do
  let s ← reverseLoop i 0 s
  let s ← (if i ≤ high s then putChar s i nul else .ok s)
  .ok (true, s)

/-- The result, and `s`. -/
def toStr (a : Rep) (radix : Word) (s : List Char) : Except Fault (Bool × List Char) := do
  if radix < 2 ∨ 16 < radix then .ok (false, s)
  else if a.sign = 0 then
    if high s < 1 then .ok (false, s)
    else
      let s ← putChar s 0 '0'
      let s ← putChar s 1 nul
      .ok (true, s)
  else
    let tmp ← copy M a
    match ← toStrLoop radix s.length 0 { tmp with sign := 1 } s with
    | (none, s) => .ok (false, s)
    | (some i, s) =>
      if a.sign < 0 then
        if high s < i then .ok (false, s)
        else
          let s ← putChar s i '-'
          toStrFinish (i + 1) s
      else toStrFinish i s

end storage

/-! ## Numerals -/

/-- The number of a row of digits, the highest first. -/
def digitsValue (radix : Word) (ds : List Char) : Nat :=
  ds.foldl (fun v c => v * radix.toNat + (digitVal c).toNat) 0

/-- The text ends at the first NUL. -/
def untilNul (s : List Char) : List Char := s.takeWhile (· ≠ nul)

/-- The digits of a number, the lowest first; none for 0. -/
def lowDigits (radix : Word) (n : Nat) : List Char :=
  (Nat.digits radix.toNat n).map fun d => digitChar (BitVec.ofNat 64 d)

/-- The canonical numeral. -/
def numeral (radix : Word) (z : Int) : List Char :=
  (if z < 0 then ['-'] else []) ++ if z = 0 then ['0'] else (lowDigits radix z.natAbs).reverse

/-- The text up to its first NUL is blanks or tabs, a sign or none, and digits, and is read as `z`. -/
def Numeral (radix : Word) (s : List Char) (z : Int) : Prop :=
  ∃ blanks sign digits rest, s = blanks ++ (sign ++ (digits ++ rest)) ∧ (∀ c ∈ blanks, isBlank c) ∧
    sign ∈ [[], ['+'], ['-']] ∧ digits ≠ [] ∧ (∀ c ∈ digits, digitVal c < radix) ∧
    (∀ c ∈ rest.head?, c = nul) ∧
    z = if sign = ['-'] then -(digitsValue radix digits : Int) else digitsValue radix digits

/-! ## Reading -/

section reading
variable {allowed : Fault → Prop} {radix : Word} {s : List Char} {p : Rep} {v : Nat}

theorem le_foldl (hradix : 0 < radix.toNat) (ds : List Char) (v : Nat) :
    v ≤ ds.foldl (fun v c => v * radix.toNat + (digitVal c).toNat) v := by
  induction ds generalizing v with
  | nil => exact le_rfl
  | cons c ds ih =>
    calc v ≤ v * radix.toNat := Nat.le_mul_of_pos_right v hradix
      _ ≤ v * radix.toNat + (digitVal c).toNat := Nat.le_add_right _ _
      _ ≤ _ := ih _

theorem untilNul_cons {c : Char} (h : c ≠ nul) : untilNul (c :: s) = c :: untilNul s := by
  rw [untilNul, List.takeWhile_cons_of_pos (by simpa using h), untilNul]

theorem untilNul_nul : untilNul (nul :: s) = [] := by
  rw [untilNul, List.takeWhile_cons_of_neg (by simp)]

theorem Rep.Is.sign_nat (h : p.Is (v : Int)) : p.sign = if v = 0 then 0 else 1 := by
  rw [h.sign]
  split_ifs with h0
  · rw [h0]
    rfl
  · exact Int.sign_natCast_of_ne_zero h0

variable (M : Storage)

theorem addDigit_runs (hp : p.Is (v : Int)) (hlen : p.len ≤ maxIdx + 1) (dv : Word)
    (hidx : limit ≤ v * radix.toNat + dv.toNat → allowed .indexException) :
    Runs allowed (addDigit M p radix dv) fun q =>
      q.Is ((v * radix.toNat + dv.toNat : Nat) : Int) ∧ q.len ≤ maxIdx + 1 := by
  refine (mulSmall_runs M hp.mag radix fun h => hidx (h.trans (Nat.le_add_right _ _))).bind ?_
  rintro q ⟨hq, hqsign, hqlen⟩
  rw [Int.natAbs_natCast] at hq hqsign
  have hqis : q.Is ((v * radix.toNat : Nat) : Int) := by
    refine hq.is_nat (hqsign.trans ?_)
    by_cases h0 : v * radix.toNat = 0
    · rw [if_pos h0, if_pos h0]
    · have hv : v ≠ 0 := fun h => h0 (by rw [h, Nat.zero_mul])
      rw [if_neg h0, if_neg h0, hp.sign_nat, if_neg hv, if_neg (by decide)]
  refine (addSmall_runs M hq dv hidx).mono ?_
  rintro r ⟨hr, hrsign, hrlen⟩
  refine ⟨hr.is_nat (hrsign.trans ?_), hrlen (hqlen hlen)⟩
  rw [hqis.sign_nat]
  by_cases hdv : dv = 0
  · have hzero : dv.toNat = 0 := by
      rw [hdv]
      rfl
    rw [if_pos hdv, hzero, Nat.add_zero]
  · have hpos := toNat_pos hdv
    have hsum : v * radix.toNat + dv.toNat ≠ 0 := (Nat.lt_of_lt_of_le hpos (Nat.le_add_left _ _)).ne'
    rw [if_neg hdv, if_neg hsum]
    by_cases h0 : v * radix.toNat = 0
    · rw [if_pos h0, if_pos rfl]
    · rw [if_neg h0, if_neg (by decide)]

theorem fromStrLoop_runs (hradix : 0 < radix.toNat) (any : Bool) (hp : p.Is (v : Int))
    (hlen : p.len ≤ maxIdx + 1)
    (hidx : limit ≤ (untilNul s).foldl (fun v c => v * radix.toNat + (digitVal c).toNat) v →
      allowed .indexException) :
    Runs allowed (fromStrLoop M radix s any p) fun q =>
      (q.1 = true ↔ ∀ c ∈ untilNul s, digitVal c < radix) ∧
      (q.1 = true → q.2.1 = (any || !(untilNul s).isEmpty) ∧ q.2.2.len ≤ maxIdx + 1 ∧
        q.2.2.Is ((untilNul s).foldl (fun v c => v * radix.toNat + (digitVal c).toNat) v : Nat)) := by
  induction s generalizing any p v with
  | nil => exact Runs.ok ⟨by simp [untilNul], fun _ => ⟨by simp [untilNul], hlen, hp⟩⟩
  | cons c s ih =>
    rw [fromStrLoop]
    by_cases hc : c = nul
    · rw [if_pos hc, hc, untilNul_nul]
      exact Runs.ok ⟨by simp, fun _ => ⟨by simp, hlen, hp⟩⟩
    rw [if_neg hc]
    rw [untilNul_cons hc] at hidx ⊢
    by_cases hdv : radix ≤ digitVal c
    · have hnot : ¬ ∀ c' ∈ c :: untilNul s, digitVal c' < radix := fun h =>
        absurd (h c (List.mem_cons_self ..)) (BitVec.not_lt.2 hdv)
      simp only [if_pos hdv]
      exact Runs.ok ⟨iff_of_false (by simp) hnot, fun h => absurd h (by simp)⟩
    · simp only [if_neg hdv]
      refine (addDigit_runs M hp hlen (digitVal c) fun h => hidx (h.trans (le_foldl hradix _ _))).bind ?_
      rintro q ⟨hq, hqlen⟩
      refine (ih true hq hqlen hidx).mono ?_
      rintro r ⟨hok, hval⟩
      refine ⟨hok.trans ?_, fun h => ⟨(hval h).1.trans (by simp), (hval h).2⟩⟩
      rw [List.forall_mem_cons]
      exact (and_iff_right (BitVec.not_le.1 hdv)).symm

/-- A digit is no other character that is looked for. -/
theorem ne_of_digit (hradix : radix ≤ 16) {c x : Char} (hc : digitVal c < radix) (hx : digitVal x = 99) :
    c ≠ x := by
  rintro rfl
  rw [hx] at hc
  have hle : radix.toNat ≤ 16 := hradix
  have hlt : 99 < radix.toNat := hc
  omega

theorem untilNul_append {ds rest : List Char} (hds : ∀ c ∈ ds, c ≠ nul) (hrest : ∀ c ∈ rest.head?, c = nul) :
    untilNul (ds ++ rest) = ds := by
  have htail : untilNul rest = [] := by
    cases rest with
    | nil => rfl
    | cons c rest => rw [hrest c rfl, untilNul_nul]
  rw [untilNul, List.takeWhile_append_of_pos (by simpa using hds)]
  exact (congrArg (ds ++ ·) htail).trans (List.append_nil ds)

theorem scanSign_append {sign ds : List Char} (hsign : sign ∈ [[], ['+'], ['-']])
    (hds : ∀ c ∈ ds.head?, c ≠ '-' ∧ c ≠ '+') : scanSign (sign ++ ds) = (decide (sign = ['-']), ds) := by
  simp only [List.mem_cons, List.not_mem_nil, or_false] at hsign
  rcases hsign with rfl | rfl | rfl
  · cases ds with
    | nil => rfl
    | cons c ds =>
      obtain ⟨h₁, h₂⟩ := hds c rfl
      simp [scanSign, h₁, h₂]
  · rfl
  · rfl

theorem scanSign_eq (s : List Char) : ∃ sign ∈ [[], ['+'], ['-']],
    s = sign ++ (scanSign s).2 ∧ (scanSign s).1 = decide (sign = ['-']) := by
  cases s with
  | nil => exact ⟨[], by simp, rfl, rfl⟩
  | cons c s =>
    rw [scanSign]
    split_ifs with h
    · rcases h with rfl | rfl
      · exact ⟨['-'], by simp, rfl, rfl⟩
      · exact ⟨['+'], by simp, rfl, rfl⟩
    · exact ⟨[], by simp, rfl, rfl⟩

/-- What `FromStr` looks at: the characters behind the blanks and the sign, up to the first NUL. -/
def scanDigits (s : List Char) : List Char := untilNul (scanSign (s.dropWhile isBlank)).2

theorem numeral_iff (hradix : radix ≤ 16) {z : Int} : Numeral radix s z ↔
    (scanDigits s ≠ [] ∧ ∀ c ∈ scanDigits s, digitVal c < radix) ∧
      z = if (scanSign (s.dropWhile isBlank)).1 then -(digitsValue radix (scanDigits s) : Int)
        else digitsValue radix (scanDigits s) := by
  constructor
  · rintro ⟨blanks, sign, digits, rest, rfl, hblanks, hsign, hne, hdigits, hrest, rfl⟩
    have hhead : ∀ c ∈ (digits ++ rest).head?, digitVal c < radix := by
      intro c hc
      rw [List.head?_append_of_ne_nil _ hne] at hc
      exact hdigits c (List.mem_of_mem_head? hc)
    have hbody : (blanks ++ (sign ++ (digits ++ rest))).dropWhile isBlank = sign ++ (digits ++ rest) := by
      rw [List.dropWhile_append_of_pos hblanks]
      obtain ⟨d, ds, rfl⟩ := List.exists_cons_of_ne_nil hne
      have hd := hdigits d (List.mem_cons_self ..)
      simp only [List.mem_cons, List.not_mem_nil, or_false] at hsign
      rcases hsign with rfl | rfl | rfl
      · refine List.dropWhile_cons_of_neg ?_
        simp [isBlank, ne_of_digit hradix hd (x := ' ') (by decide),
          ne_of_digit hradix hd (x := Char.ofNat 9) (by decide)]
      · rfl
      · rfl
    have hscan := scanSign_append hsign fun c hc =>
      ⟨ne_of_digit hradix (hhead c hc) (by decide), ne_of_digit hradix (hhead c hc) (by decide)⟩
    have huntil : untilNul (digits ++ rest) = digits :=
      untilNul_append (fun c hc => ne_of_digit hradix (hdigits c hc) (by decide)) hrest
    rw [scanDigits, hbody, hscan, huntil]
    exact ⟨⟨hne, hdigits⟩, by simp⟩
  · rintro ⟨⟨hne, hdigits⟩, rfl⟩
    obtain ⟨sign, hsign, hbody, hneg⟩ := scanSign_eq (s.dropWhile isBlank)
    refine ⟨s.takeWhile isBlank, sign, scanDigits s, (scanSign (s.dropWhile isBlank)).2.dropWhile (· ≠ nul),
      ?_, fun c hc => List.mem_takeWhile_imp hc, hsign, hne, hdigits, ?_, by rw [hneg]; simp⟩
    · rw [scanDigits, untilNul, List.takeWhile_append_dropWhile, ← hbody, List.takeWhile_append_dropWhile]
    · intro c hc
      have hstop := List.head?_dropWhile_not (· ≠ nul) (scanSign (s.dropWhile isBlank)).2
      rw [hc] at hstop
      simpa using hstop

theorem fromStr_runs (hlow : 2 ≤ radix) (hradix : radix ≤ 16)
    (hidx : limit ≤ digitsValue radix (scanDigits s) → allowed .indexException) :
    Runs allowed (fromStr M s radix) fun q =>
      (q.1 = true ↔ scanDigits s ≠ [] ∧ ∀ c ∈ scanDigits s, digitVal c < radix) ∧
      (q.1 = true → q.2.len ≤ maxIdx + 1 ∧
        q.2.Is (if (scanSign (s.dropWhile isBlank)).1 then -(digitsValue radix (scanDigits s) : Int)
          else digitsValue radix (scanDigits s))) := by
  have hpos : 0 < radix.toNat := by
    have hle : 2 ≤ radix.toNat := hlow
    omega
  have hrange : ¬ (radix < 2 ∨ 16 < radix) := by
    rw [not_or, BitVec.not_lt, BitVec.not_lt]
    exact ⟨hlow, hradix⟩
  rw [fromStr, if_neg hrange]
  dsimp only
  have hzero : (newRep M 2).Is ((0 : Nat) : Int) := ⟨Rep.mag_zero rfl, rfl⟩
  refine (fromStrLoop_runs M hpos false hzero (Nat.zero_le _) hidx).bind ?_
  rintro ⟨ok, any, p⟩ ⟨hok, hval⟩
  dsimp only at hok hval
  rw [← scanDigits] at hok hval
  cases ok with
  | false =>
    exact Runs.ok ⟨iff_of_false (by simp) fun h => absurd (hok.2 h.2) (by simp), fun h => absurd h (by simp)⟩
  | true =>
    obtain ⟨hany, hlen, hp⟩ := hval rfl
    rw [← digitsValue] at hp
    by_cases hne : scanDigits s = []
    · rw [hne] at hany
      subst hany
      exact Runs.ok ⟨iff_of_false (by simp) fun h => h.1 hne, fun h => absurd h (by simp)⟩
    · have hany' : any = true := by
        rw [hany]
        cases hs : scanDigits s with
        | nil => exact absurd hs hne
        | cons c ds => rfl
      subst hany'
      have hcond : (scanDigits s ≠ [] ∧ ∀ c ∈ scanDigits s, digitVal c < radix) := ⟨hne, hok.1 rfl⟩
      rw [if_neg (by simp)]
      generalize (scanSign (s.dropWhile isBlank)).1 = neg
      cases neg with
      | false => exact Runs.ok ⟨iff_of_true rfl hcond, fun _ => ⟨hlen, hp⟩⟩
      | true =>
        by_cases h0 : p.sign = 0
        · have hn : (digitsValue radix (scanDigits s) : Int) = 0 := hp.sign_eq_zero.1 h0
          rw [if_neg (fun h => h.2 h0), if_pos rfl, hn, neg_zero]
          rw [hn] at hp
          exact Runs.ok ⟨iff_of_true rfl hcond, fun _ => ⟨hlen, hp⟩⟩
        · have hn : (digitsValue radix (scanDigits s) : Int) ≠ 0 := mt hp.sign_eq_zero.2 h0
          rw [if_pos ⟨rfl, h0⟩, if_pos rfl]
          refine Runs.ok ⟨iff_of_true rfl hcond, fun _ => ⟨hlen, ?_,
            (Int.sign_eq_neg_one_of_neg (by omega)).symm⟩⟩
          rw [Int.natAbs_neg]
          exact hp.mag.congr rfl hp.mag.fits rfl

/-- `FromStr` reads a numeral as its number and nothing else. -/
def FromStrExact (radix : Word) (s : List Char) : Prop :=
  (∀ p, fromStr M s radix = .ok (true, p) → p.Inv ∧ Numeral radix s p.toInt) ∧
    ∀ z, Numeral radix s z → ∃ p, fromStr M s radix = .ok (true, p) ∧ p.Inv ∧ p.toInt = z

theorem numeral_natAbs (hradix : radix ≤ 16) {z : Int} (hz : Numeral radix s z) :
    z.natAbs = digitsValue radix (scanDigits s) := by
  obtain ⟨-, rfl⟩ := (numeral_iff hradix).1 hz
  split_ifs
  · rw [Int.natAbs_neg, Int.natAbs_natCast]
  · rw [Int.natAbs_natCast]

theorem fromStr_numeral (hlow : 2 ≤ radix) (hradix : radix ≤ 16) {z : Int} (hz : Numeral radix s z)
    (hlt : z.natAbs < limit) : ∃ p, fromStr M s radix = .ok (true, p) ∧ p.Is z := by
  rw [numeral_natAbs hradix hz] at hlt
  obtain ⟨⟨ok, p⟩, hp, hok, hval⟩ := (fromStr_runs M (s := s) hlow hradix
    fun h => absurd h (not_le.2 hlt)).succeeds
  obtain ⟨hdigits, rfl⟩ := (numeral_iff hradix).1 hz
  have hok' : ok = true := hok.2 hdigits
  subst hok'
  exact ⟨p, hp, (hval rfl).2⟩

/-- Exactly where the number is in reach of the limbs. -/
theorem fromStr_exact (hlow : 2 ≤ radix) (hradix : radix ≤ 16) :
    FromStrExact M radix s ↔ ∀ z, Numeral radix s z → z.natAbs < limit := by
  have hread : Runs (· = .indexException) (fromStr M s radix) _ := fromStr_runs M hlow hradix fun _ => rfl
  have hsound : ∀ p, fromStr M s radix = .ok (true, p) →
      p.len ≤ maxIdx + 1 ∧ p.Inv ∧ Numeral radix s p.toInt := by
    intro p hp
    rw [hp] at hread
    obtain ⟨hok, hval⟩ := hread
    obtain ⟨hlen, his⟩ := hval rfl
    refine ⟨hlen, (Rep.is_iff.1 his).1, ?_⟩
    rw [his.toInt_eq]
    exact (numeral_iff hradix).2 ⟨hok.1 rfl, rfl⟩
  constructor
  · -- what is returned has its limbs in the view
    rintro ⟨-, hcomplete⟩ z hz
    obtain ⟨p, hp, hinv, rfl⟩ := hcomplete z hz
    exact (Rep.is_iff.2 ⟨hinv, rfl⟩).mag.lt_limit (hsound p hp).1
  · intro hfit
    refine ⟨fun p hp => (hsound p hp).2, fun z hz => ?_⟩
    obtain ⟨p, hp, his⟩ := fromStr_numeral M hlow hradix hz (hfit z hz)
    exact ⟨p, hp, Rep.is_iff.1 his⟩

end reading

/-! ## Writing -/

section writing
variable {allowed : Fault → Prop} {radix : Word} {s pre post : List Char} {a : Rep} {i n m : Nat}

theorem getChar_append (c : Char) : getChar (pre ++ c :: post) pre.length = .ok c := by
  rw [getChar, List.getElem?_append_right le_rfl, Nat.sub_self, List.getElem?_cons_zero]

theorem putChar_append (c d : Char) :
    putChar (pre ++ c :: post) pre.length d = .ok (pre ++ d :: post) := by
  rw [putChar, if_pos (by simp), List.set_append_right _ _ le_rfl, Nat.sub_self, List.set_cons_zero]

/-- The first and the last character of what is left change places. -/
theorem reverseLoop_eq {mid : List Char} :
    reverseLoop (pre.length * 2 + mid.length) pre.length (pre ++ (mid ++ post)) =
      .ok (pre ++ (mid.reverse ++ post)) := by
  induction mid using List.bidirectionalRec generalizing pre post with
  | nil => rw [reverseLoop, if_neg (by simp)]; rfl
  | singleton c =>
    have hlast : pre.length * 2 + [c].length - 1 - pre.length = pre.length := by
      rw [List.length_singleton]
      omega
    rw [reverseLoop, if_pos (by simp), hlast, List.singleton_append, getChar_append]
    simp only [bind, Except.bind, putChar_append]
    rw [reverseLoop, if_neg (by simp)]
    rfl
  | cons_append c mid d ih =>
    have hlen : (c :: (mid ++ [d])).length = mid.length + 2 := by simp
    have hlast : pre.length * 2 + (mid.length + 2) - 1 - pre.length = (pre ++ d :: mid).length := by
      simp
      omega
    have hsplit : ∀ x, pre ++ (x :: (mid ++ [d]) ++ post) = (pre ++ x :: mid) ++ d :: post := fun x => by simp
    rw [reverseLoop, hlen, if_pos (by omega), hlast]
    have hget : getChar (pre ++ (c :: (mid ++ [d]) ++ post)) (pre ++ d :: mid).length = .ok d := by
      have heq : (pre ++ d :: mid).length = (pre ++ c :: mid).length := by simp
      rw [heq, hsplit, getChar_append]
    rw [hget, List.cons_append, getChar_append]
    simp only [bind, Except.bind, putChar_append]
    have hput : putChar (pre ++ d :: (mid ++ [d] ++ post)) (pre ++ d :: mid).length c =
        .ok ((pre ++ [d]) ++ (mid ++ (c :: post))) := by
      have heq : pre ++ d :: (mid ++ [d] ++ post) = (pre ++ d :: mid) ++ d :: post := by simp
      rw [heq, putChar_append]
      simp
    rw [hput]
    have hrec := @ih (pre ++ [d]) (c :: post)
    have hnext : (pre ++ [d]).length * 2 + mid.length = pre.length * 2 + (mid.length + 2) := by
      rw [List.length_append, List.length_singleton]
      ring
    rw [hnext, List.length_append, List.length_singleton] at hrec
    simpa using hrec

/-- The end of the text, where there is room for it. -/
def endText : List Char → List Char
  | [] => []
  | _ :: rest => nul :: rest

theorem toStrFinish_eq {t rest : List Char} (hne : t ++ rest ≠ []) :
    toStrFinish t.length (t ++ rest) = .ok (true, t.reverse ++ endText rest) := by
  have hrev := @reverseLoop_eq [] rest t
  simp only [List.length_nil, Nat.zero_mul, Nat.zero_add, List.nil_append] at hrev
  have hpos := List.length_pos_of_ne_nil hne
  rw [toStrFinish, hrev]
  simp only [bind, Except.bind, high, List.length_append, List.length_reverse]
  rw [List.length_append] at hpos
  cases rest with
  | nil =>
    rw [if_neg (by simp at hpos ⊢; omega)]
    rfl
  | cons c rest =>
    rw [if_pos (by simp)]
    have hput := @putChar_append t.reverse rest c nul
    rw [List.length_reverse] at hput
    rw [hput]
    rfl

theorem digit_lt {d : Nat} (hlow : 2 ≤ radix) (hd : d ∈ Nat.digits radix.toNat n) : d < radix.toNat :=
  Nat.digits_lt_base (Nat.lt_of_succ_le hlow) hd

theorem digitVal_digitChar {d : Nat} (hd : d < 16) :
    digitVal (digitChar (BitVec.ofNat 64 d)) = BitVec.ofNat 64 d := by
  interval_cases d <;> decide

/-- The digits give the number back. -/
theorem digitsValue_lowDigits (hlow : 2 ≤ radix) (hradix : radix ≤ 16) (n : Nat) :
    digitsValue radix (lowDigits radix n).reverse = n := by
  have h16 : radix.toNat ≤ 16 := hradix
  have hfold : ∀ ds : List Nat, (∀ d ∈ ds, d < 16) →
      (ds.map fun d => digitChar (BitVec.ofNat 64 d)).foldr
        (fun c v => v * radix.toNat + (digitVal c).toNat) 0 = Nat.ofDigits radix.toNat ds := by
    intro ds hds
    induction ds with
    | nil => rfl
    | cons d ds ih =>
      have hd := hds d (List.mem_cons_self ..)
      rw [List.map_cons, List.foldr_cons, ih fun d hd => hds d (List.mem_cons_of_mem _ hd),
        digitVal_digitChar hd, Nat.ofDigits_cons, BitVec.toNat_ofNat, Nat.mod_eq_of_lt (by omega)]
      ring
  rw [digitsValue, List.foldl_reverse, lowDigits, hfold _ fun d hd => (digit_lt hlow hd).trans_le h16,
    Nat.ofDigits_digits]

theorem lowDigits_digit (hlow : 2 ≤ radix) (hradix : radix ≤ 16) {c : Char}
    (hc : c ∈ lowDigits radix n) : digitVal c < radix := by
  obtain ⟨d, hd, rfl⟩ := List.mem_map.1 hc
  have h16 : radix.toNat ≤ 16 := hradix
  have hlt := digit_lt hlow hd
  rw [digitVal_digitChar (hlt.trans_le h16), BitVec.lt_def, BitVec.toNat_ofNat, Nat.mod_eq_of_lt (by omega)]
  exact hlt

theorem lowDigits_zero : lowDigits radix 0 = [] := by rw [lowDigits, Nat.digits_zero]; rfl

theorem lowDigits_of_pos (hlow : 2 ≤ radix) (hm : 0 < m) : lowDigits radix m =
    digitChar (BitVec.ofNat 64 (m % radix.toNat)) :: lowDigits radix (m / radix.toNat) := by
  rw [lowDigits, Nat.digits_def' (Nat.lt_of_succ_le hlow) hm, List.map_cons, lowDigits]

/-- The numeral of a number is read as the number. -/
theorem numeral_numeral (hlow : 2 ≤ radix) (hradix : radix ≤ 16) (z : Int) (rest : List Char)
    (hrest : ∀ c ∈ rest.head?, c = nul) : Numeral radix (numeral radix z ++ rest) z := by
  have hdigit0 : digitVal '0' < radix := by
    have hle : 2 ≤ radix.toNat := hlow
    rw [BitVec.lt_def]
    change 0 < radix.toNat
    omega
  refine ⟨[], if z < 0 then ['-'] else [], if z = 0 then ['0'] else (lowDigits radix z.natAbs).reverse, rest,
    by rw [numeral, List.nil_append, List.append_assoc], fun c hc => absurd hc List.not_mem_nil,
    by split_ifs <;> simp, ?_, ?_, hrest, ?_⟩
  · split_ifs with h0
    · exact List.cons_ne_nil _ _
    · rw [lowDigits_of_pos hlow (Int.natAbs_pos.2 h0)]
      simp
  · split_ifs with h0
    · simpa using hdigit0
    · exact fun c hc => lowDigits_digit hlow hradix (List.mem_reverse.1 hc)
  · rcases lt_trichotomy z 0 with h | rfl | h
    · rw [if_pos h, if_pos rfl, if_neg h.ne, digitsValue_lowDigits hlow hradix]
      omega
    · have hzero : digitsValue radix ['0'] = 0 := by
        rw [digitsValue, List.foldl_cons, Nat.zero_mul, Nat.zero_add, List.foldl_nil]
        rfl
      rw [if_neg (lt_irrefl 0), if_neg (by simp), if_pos rfl, hzero]
      rfl
    · rw [if_neg h.not_gt, if_neg (by simp), if_neg h.ne', digitsValue_lowDigits hlow hradix]
      omega

theorem toStrLoop_runs (hlow : 2 ≤ radix) {tmp : Rep} (htmp : tmp.Mag m) (hi : i + n = s.length)
    (hidx : limit ≤ m → allowed .indexException) :
    Runs allowed (toStrLoop radix n i tmp s) fun q => q.2.length = s.length ∧
      ((lowDigits radix m).length ≤ n → q.1 = some (i + (lowDigits radix m).length) ∧
        q.2.take (i + (lowDigits radix m).length) = s.take i ++ lowDigits radix m) ∧
      (n < (lowDigits radix m).length → q.1 = none) := by
  have hpos : 0 < radix.toNat := by
    have hle : 2 ≤ radix.toNat := hlow
    omega
  induction n generalizing i tmp m s with
  | zero =>
    rw [toStrLoop]
    by_cases h0 : tmp.len = 0
    · have hm := htmp.len_eq_zero.1 h0
      rw [if_pos h0, hm, lowDigits_zero]
      exact Runs.ok ⟨rfl, fun _ => ⟨rfl, (List.append_nil _).symm⟩, fun h => absurd h (lt_irrefl 0)⟩
    · have hm := Nat.pos_of_ne_zero (mt htmp.len_eq_zero.2 h0)
      rw [if_neg h0, lowDigits_of_pos hlow hm]
      exact Runs.ok ⟨rfl, fun h => absurd h (by simp), fun _ => rfl⟩
  | succ n ih =>
    rw [toStrLoop]
    by_cases h0 : tmp.len = 0
    · have hm := htmp.len_eq_zero.1 h0
      rw [if_pos h0, hm, lowDigits_zero]
      exact Runs.ok ⟨rfl, fun _ => ⟨rfl, (List.append_nil _).symm⟩, fun h => absurd h (by simp)⟩
    · have hm := Nat.pos_of_ne_zero (mt htmp.len_eq_zero.2 h0)
      rw [if_neg h0]
      refine (divmod1_runs (fun l hl => by cases hl) htmp.fits hpos).bind ?_
      rintro ⟨l, rem⟩ ⟨hc, hlt, hval⟩
      have hlen := hc.length
      have hfits := htmp.fits
      dsimp only [Option.getD_none] at hval hlt hlen ⊢
      rw [htmp.value] at hval
      obtain ⟨hquot, hmod⟩ := (Nat.div_mod_unique hpos).2 ⟨(Nat.add_comm _ _).trans hval, hlt⟩
      have hnorm := @norm_runs allowed { tmp with limbs := l } (by dsimp only; omega)
        fun h => hidx (htmp.limit_le h)
      dsimp only at hnorm
      rw [← hquot] at hnorm
      refine hnorm.bind ?_
      rintro tmp' ⟨htmp', -⟩
      rw [putChar, if_pos (by omega)]
      refine (ih (s := s.set i (digitChar rem)) htmp' (by rw [List.length_set]; omega)
        (fun h => hidx (h.trans (Nat.div_le_self _ _)))).mono ?_
      rintro ⟨r, s'⟩ ⟨hlen', hfit, hover⟩
      rw [lowDigits_of_pos hlow hm, List.length_cons, hmod, BitVec.ofNat_toNat, BitVec.setWidth_eq]
      refine ⟨hlen'.trans List.length_set, fun h => ?_, fun h => hover (by omega)⟩
      obtain ⟨hr, htake⟩ := hfit (by omega)
      refine ⟨hr.trans (congrArg some (by omega)), ?_⟩
      have hstep : i + ((lowDigits radix (m / radix.toNat)).length + 1) =
          i + 1 + (lowDigits radix (m / radix.toNat)).length := by omega
      rw [hstep, htake, take_succ (by rw [List.length_set]; omega), take_set_of_le le_rfl,
        List.getElem_set_self, List.append_assoc, List.singleton_append]

/-- What is left in the array behind the text. -/
def Written (radix : Word) (z : Int) (s s' : List Char) : Prop :=
  ∃ rest, (numeral radix z).length + rest.length = s.length ∧ s' = numeral radix z ++ endText rest

theorem endText_length (rest : List Char) : (endText rest).length = rest.length := by
  cases rest <;> rfl

theorem Written.length {z : Int} {s' : List Char} (h : Written radix z s s') : s'.length = s.length := by
  obtain ⟨rest, hlen, rfl⟩ := h
  rw [List.length_append, endText_length, hlen]

theorem numeral_neg {z : Int} (hz : z < 0) :
    numeral radix z = (lowDigits radix z.natAbs ++ ['-']).reverse := by
  rw [numeral, if_pos hz, if_neg hz.ne, List.reverse_append, List.reverse_singleton]

theorem numeral_pos {z : Int} (hz : 0 < z) : numeral radix z = (lowDigits radix z.natAbs).reverse := by
  rw [numeral, if_neg hz.not_gt, if_neg hz.ne', List.nil_append]

theorem toStrFinish_runs {z : Int} {t rest s' : List Char} (hs' : s' = t ++ rest) (hne : s ≠ [])
    (hlen : s'.length = s.length) (ht : numeral radix z = t.reverse) {k : Nat} (hk : k = t.length) :
    Runs allowed (toStrFinish k s') fun q =>
      (q.1 = true ↔ (numeral radix z).length ≤ s.length) ∧ (q.1 = true → Written radix z s q.2) := by
  subst hs' hk
  have hpos : t ++ rest ≠ [] := fun h => hne (List.length_eq_zero_iff.1 (by rw [← hlen, h]; rfl))
  rw [List.length_append] at hlen
  rw [toStrFinish_eq hpos, ht, List.length_reverse]
  exact Runs.ok ⟨iff_of_true rfl (by omega), fun _ => ⟨rest, by rw [ht, List.length_reverse, hlen], by rw [ht]⟩⟩

/-- A number that is not zero is written where it fits, without its end where it fits exactly. -/
theorem toStr_runs {z : Int} (hlow : 2 ≤ radix) (hradix : radix ≤ 16) (ha : a.Is z) (hne : s ≠ [])
    (hz : z ≠ 0) (hidx : maxIdx + 1 < a.len → allowed .indexException) (M : Storage) :
    Runs allowed (toStr M a radix s) fun q =>
      (q.1 = true ↔ (numeral radix z).length ≤ s.length) ∧ (q.1 = true → Written radix z s q.2) := by
  have hrange : ¬ (radix < 2 ∨ 16 < radix) := by
    rw [not_or, BitVec.not_lt, BitVec.not_lt]
    exact ⟨hlow, hradix⟩
  have hpos := List.length_pos_of_ne_nil hne
  rw [toStr, if_neg hrange, if_neg (mt ha.sign_eq_zero.1 hz)]
  refine (copy_runs M ha hidx).bind ?_
  intro tmp htmp
  have hmag : Rep.Mag { tmp with sign := 1 } z.natAbs := htmp.mag.congr rfl htmp.mag.fits rfl
  refine (toStrLoop_runs hlow hmag (i := 0) (Nat.zero_add _) fun h => hidx ?_).bind ?_
  · exact not_le.1 fun hlen => absurd (ha.mag.lt_limit hlen) (not_lt.2 h)
  rintro ⟨r, s'⟩ ⟨hlen, hfit, hover⟩
  simp only [Nat.zero_add, List.take_zero, List.nil_append] at hlen hfit hover
  rcases Nat.lt_or_ge s.length (lowDigits radix z.natAbs).length with hlt | hle
  · -- the digits alone do not fit
    rw [hover hlt]
    refine Runs.ok ⟨iff_of_false (by simp) ?_, fun h => absurd h (by simp)⟩
    rcases hz.lt_or_gt with h | h
    · rw [numeral_neg h, List.length_reverse, List.length_append]
      omega
    · rw [numeral_pos h, List.length_reverse]
      omega
  · obtain ⟨rfl, htake⟩ := hfit hle
    have hsplit : s' = lowDigits radix z.natAbs ++ s'.drop (lowDigits radix z.natAbs).length := by
      rw [← htake, List.length_take, Nat.min_eq_left (hlen ▸ hle), List.take_append_drop]
    rw [ha.sign]
    rcases hz.lt_or_gt with h | h
    · have hsign : z.sign < 0 := Int.sign_neg_iff.2 h
      simp only [if_pos hsign, high, hlen]
      by_cases hhigh : s.length - 1 < (lowDigits radix z.natAbs).length
      · rw [if_pos hhigh]
        refine Runs.ok ⟨iff_of_false (by simp) ?_, fun h => absurd h (by simp)⟩
        rw [numeral_neg h, List.length_reverse, List.length_append, List.length_singleton]
        omega
      · rw [if_neg hhigh]
        cases hrest : s'.drop (lowDigits radix z.natAbs).length with
        | nil =>
          have := List.drop_eq_nil_iff.1 hrest
          omega
        | cons c rest =>
          rw [hrest] at hsplit
          rw [hsplit, putChar_append]
          have hshift : lowDigits radix z.natAbs ++ '-' :: rest =
              (lowDigits radix z.natAbs ++ ['-']) ++ rest := by simp
          refine toStrFinish_runs hshift hne ?_ (numeral_neg h) (by simp)
          rw [← hlen, hsplit]
          simp
    · have hsign : ¬ z.sign < 0 := fun h' => absurd (Int.sign_neg_iff.1 h') h.not_gt
      simp only [if_neg hsign]
      exact toStrFinish_runs hsplit hne hlen (numeral_pos h) rfl

theorem toStr_zero (hlow : 2 ≤ radix) (hradix : radix ≤ 16) (ha : a.Is 0) (M : Storage) :
    toStr M a radix s = .ok (false, s) ∧ s.length ≤ 1 ∨
      ∃ s', toStr M a radix s = .ok (true, '0' :: nul :: s') ∧ s'.length + 2 = s.length := by
  have hrange : ¬ (radix < 2 ∨ 16 < radix) := by
    rw [not_or, BitVec.not_lt, BitVec.not_lt]
    exact ⟨hlow, hradix⟩
  have hsign : a.sign = 0 := ha.sign
  rw [toStr, if_neg hrange, if_pos hsign, high]
  match s with
  | [] => exact .inl ⟨rfl, Nat.zero_le 1⟩
  | [_] => exact .inl ⟨rfl, le_rfl⟩
  | _ :: _ :: s' => exact .inr ⟨s', rfl, rfl⟩

/-- With room for two characters 0 is no exception. -/
theorem toStr_runs_two {z : Int} (hlow : 2 ≤ radix) (hradix : radix ≤ 16) (ha : a.Is z)
    (hs : 2 ≤ s.length) (hidx : maxIdx + 1 < a.len → allowed .indexException) (M : Storage) :
    Runs allowed (toStr M a radix s) fun q =>
      (q.1 = true ↔ (numeral radix z).length ≤ s.length) ∧ (q.1 = true → Written radix z s q.2) := by
  by_cases hz : z = 0
  · subst hz
    have hnum : numeral radix 0 = ['0'] := rfl
    rcases toStr_zero hlow hradix ha M (s := s) with ⟨-, hlen⟩ | ⟨t, hrun, hlen⟩
    · omega
    · rw [hrun, hnum]
      refine Runs.ok ⟨iff_of_true rfl (by rw [List.length_singleton]; omega), fun _ => ⟨nul :: t, ?_, ?_⟩⟩
      · rw [hnum, List.length_singleton, List.length_cons]
        omega
      · rw [hnum]
        rfl
  · exact toStr_runs hlow hradix ha (List.ne_nil_of_length_pos (by omega)) hz hidx M

theorem copyLoop_wide {src dst : List Word} {n i : Nat} (hi : i ≤ maxIdx + 1) (hn : maxIdx + 1 < i + n)
    (hsrc : i + n ≤ src.length) (hdst : i + n ≤ dst.length) :
    copyLoop src n i dst = .error .indexException := by
  induction n generalizing i dst with
  | zero => omega
  | succ n ih =>
    rw [copyLoop]
    by_cases h : maxIdx < i
    · rw [index, if_pos h]
      rfl
    · have hindex : index src i = .ok (src[i]) := by
        rw [index, if_neg h, load, List.getElem?_eq_getElem (by omega)]
      have hassign : assign dst i (src[i]) = .ok (dst.set i (src[i])) := by
        rw [assign, if_neg h, store, if_pos (by omega)]
      rw [hindex]
      change (assign dst i (src[i]) >>= copyLoop src n (i + 1)) = _
      rw [hassign]
      exact ih (by omega) (by omega) (by omega) (by rw [List.length_set]; omega)

/-- `Copy` raises an exception at the limb beyond the view. -/
theorem toStr_wide (hlow : 2 ≤ radix) (hradix : radix ≤ 16) {z : Int} (ha : a.Is z) (hz : z ≠ 0)
    (hlen : maxIdx + 1 < a.len) (M : Storage) : toStr M a radix s = .error .indexException := by
  have hrange : ¬ (radix < 2 ∨ 16 < radix) := by
    rw [not_or, BitVec.not_lt, BitVec.not_lt]
    exact ⟨hlow, hradix⟩
  have hcap := le_newRep_cap M (a.len + 1)
  have hfits := ha.mag.fits
  have hcopy : copy M a = .error .indexException := by
    rw [copy, copyLoop_wide (Nat.zero_le _) (by omega) (by omega) (by omega)]
    rfl
  rw [toStr, if_neg hrange, if_neg (mt ha.sign_eq_zero.1 hz), hcopy]
  rfl

/-- `ToStr` returns TRUE where the numeral and its end fit, and then they are in the array and are read
back as the number. -/
def ToStrExact (M : Storage) (a : Rep) (radix : Word) (s : List Char) : Prop :=
  ((∃ s', toStr M a radix s = .ok (true, s')) ↔ (numeral radix a.toInt).length < s.length) ∧
    ∀ s', toStr M a radix s = .ok (true, s') → s'.length = s.length ∧
      (∃ rest, s' = numeral radix a.toInt ++ nul :: rest) ∧
      ∃ p, fromStr M s' radix = .ok (true, p) ∧ p.Inv ∧ p.toInt = a.toInt

theorem toStr_exact (hlow : 2 ≤ radix) (hradix : radix ≤ 16) (hinv : a.Inv) (hne : s ≠ [])
    (M : Storage) : ToStrExact M a radix s ↔ a.toInt = 0 ∨
      (a.len ≤ maxIdx + 1 ∧ (numeral radix a.toInt).length ≠ s.length) ∨
      (maxIdx + 1 < a.len ∧ s.length ≤ (numeral radix a.toInt).length) := by
  have ha : a.Is a.toInt := Rep.is_iff.2 ⟨hinv, rfl⟩
  rw [ToStrExact]
  generalize a.toInt = z at ha ⊢
  -- a text with its end is read as the number
  have hback : ∀ rest, z.natAbs < limit →
      ∃ p, fromStr M (numeral radix z ++ nul :: rest) radix = .ok (true, p) ∧ p.Inv ∧ p.toInt = z := by
    intro rest hlt
    obtain ⟨p, hp, his⟩ := fromStr_numeral M hlow hradix
      (numeral_numeral hlow hradix z (nul :: rest) fun c hc => (Option.some.inj hc).symm) hlt
    exact ⟨p, hp, Rep.is_iff.1 his⟩
  by_cases hz : z = 0
  · subst hz
    have hnum : numeral radix 0 = ['0'] := rfl
    rw [hnum]
    refine iff_of_true ?_ (.inl rfl)
    rcases toStr_zero hlow hradix ha M (s := s) with ⟨hrun, hlen⟩ | ⟨t, hrun, hlen⟩
    · rw [hrun]
      exact ⟨iff_of_false (by simp) (not_lt.2 hlen), fun s' h => absurd h (by simp)⟩
    · rw [hrun]
      refine ⟨iff_of_true ⟨_, rfl⟩ (by rw [List.length_singleton]; omega), ?_⟩
      rintro s' h
      obtain rfl : '0' :: nul :: t = s' := by simpa using h
      exact ⟨hlen, ⟨t, rfl⟩, hback t (base_pow_pos _)⟩
  rcases Nat.lt_or_ge (maxIdx + 1) a.len with hlen | hlen
  · rw [toStr_wide hlow hradix ha hz hlen M]
    constructor
    · rintro ⟨hiff, -⟩
      exact .inr (.inr ⟨hlen, not_lt.1 fun h => absurd (hiff.2 h) (by simp)⟩)
    · rintro (h | h | h)
      · exact absurd h hz
      · exact absurd h.1 (not_le.2 hlen)
      · exact ⟨iff_of_false (by simp) (not_lt.2 h.2), fun s' h => absurd h (by simp)⟩
  · obtain ⟨⟨ok, t⟩, hrun, hok, hwritten⟩ := (toStr_runs hlow hradix ha hne hz
      (fun h => absurd hlen (not_le.2 h)) M).succeeds
    rw [hrun]
    dsimp only at hok hwritten
    constructor
    · rintro ⟨hiff, -⟩
      refine .inr (.inl ⟨hlen, fun heq => ?_⟩)
      have htrue : ok = true := hok.2 heq.le
      subst htrue
      exact absurd (hiff.1 ⟨t, rfl⟩) (not_lt.2 heq.ge)
    · intro hcond
      have hneq : (numeral radix z).length ≠ s.length := by
        rcases hcond with h | h | h
        · exact absurd h hz
        · exact h.2
        · exact absurd hlen (not_le.2 h.1)
      refine ⟨?_, ?_⟩
      · constructor
        · rintro ⟨s', h⟩
          have htrue : ok = true := congrArg Prod.fst (Except.ok.inj h)
          exact lt_of_le_of_ne (hok.1 htrue) hneq
        · intro h
          have htrue : ok = true := hok.2 h.le
          exact ⟨t, by rw [htrue]⟩
      · intro s' h
        obtain ⟨htrue, rfl⟩ : ok = true ∧ t = s' := by simpa using h
        have hw := hwritten htrue
        refine ⟨hw.length, ?_⟩
        obtain ⟨rest, hrest, rfl⟩ := hw
        cases rest with
        | nil => exact absurd hrest hneq
        | cons c rest => exact ⟨⟨rest, rfl⟩, hback rest (ha.mag.lt_limit hlen)⟩

end writing

/-- A number is written and read back but where its numeral fills the array to the last character (and
where the limbs beyond the view are copied); and a text is read exactly. -/
theorem text_exact_iff (M : Storage) {a : Rep} {radix : Word} {s : List Char} (hlow : 2 ≤ radix)
    (hradix : radix ≤ 16) (ha : a.Inv) (hs : s ≠ []) :
    (ToStrExact M a radix s ↔ a.toInt = 0 ∨
      (a.len ≤ maxIdx + 1 ∧ (numeral radix a.toInt).length ≠ s.length) ∨
      (maxIdx + 1 < a.len ∧ s.length ≤ (numeral radix a.toInt).length)) ∧
    ∀ text, FromStrExact M radix text ↔ ∀ z, Numeral radix text z → z.natAbs < limit :=
  ⟨toStr_exact hlow hradix ha hs M, fun _ => fromStr_exact M hlow hradix⟩

/-- The array holds the digit and no end, and TRUE is returned. -/
theorem toStr_five : toStr cleared five 10 ['?'] = .ok (true, ['5']) ∧ ¬ ToStrExact cleared five 10 ['?'] := by
  have hnum : numeral 10 five.toInt = ['5'] := by
    have hdigit : digitChar 5 = '5' := by decide
    simpa [numeral, lowDigits, five, Rep.toInt, val] using hdigit
  have his : five.Is five.toInt := Rep.is_iff.2 ⟨five_inv, rfl⟩
  obtain ⟨⟨ok, s'⟩, hrun, hok, hwritten⟩ := (toStr_runs (s := ['?']) (show (2 : Word) ≤ 10 by decide) (by decide) his
    (by decide) (by decide) (fun h => absurd h (by decide)) cleared).succeeds
  rw [hnum] at hok
  have htrue : ok = true := hok.2 le_rfl
  subst htrue
  obtain ⟨rest, hlen, hs'⟩ := hwritten rfl
  rw [hnum] at hlen hs'
  obtain rfl : rest = [] := List.length_eq_zero_iff.1 (by simpa using hlen)
  dsimp only at hs'
  subst hs'
  refine ⟨hrun, fun h => ?_⟩
  obtain ⟨-, ⟨rest, hrest⟩, -⟩ := h.2 _ hrun
  rw [hnum] at hrest
  exact absurd hrest (by simp [endText])

theorem text_exact_iff_five : five.Inv ∧ ['?', '?'] ≠ [] ∧
    (ToStrExact cleared five 10 ['?', '?'] ↔ five.toInt = 0 ∨
      (five.len ≤ maxIdx + 1 ∧ (numeral 10 five.toInt).length ≠ 2) ∨
      (maxIdx + 1 < five.len ∧ 2 ≤ (numeral 10 five.toInt).length)) ∧
    ∀ text, FromStrExact cleared 10 text ↔ ∀ z, Numeral 10 text z → z.natAbs < limit :=
  ⟨five_inv, by decide, text_exact_iff cleared (s := ['?', '?']) (by decide) (by decide) five_inv (by decide)⟩

end NewM2.Winrt.BigInt
