import Mathlib
import NewM2.Lib.Cursor
import NewM2.Lib.Output

/-!
# Base64 (`library/winrtmod/Base64.mod`)

Three bytes are four characters of six bits, and a group of fewer bytes is filled up with `=`. `decode` takes
the bits into an accumulator and puts a byte as soon as it has eight of them. -/

namespace NewM2.Winrt.Base64
open Chars Output

abbrev Byte := BitVec 8

/-- `VAL(BYTE, v BAND 0FFH)` -/
def byte (v : Nat) : Byte := BitVec.ofNat 8 (v &&& 0xFF)

def enc6 (v : Nat) : Code :=
  if v < 26 then BitVec.ofNat 16 ('A'.toNat + v)
  else if v < 52 then BitVec.ofNat 16 ('a'.toNat + v - 26)
  else if v < 62 then BitVec.ofNat 16 ('0'.toNat + v - 52)
  else if v = 62 then code '+'
  else code '/'

/-- 255 for what is not in the alphabet. -/
def dec6 (c : Code) : Nat :=
  if code 'A' ≤ c ∧ c ≤ code 'Z' then c.toNat - 'A'.toNat
  else if code 'a' ≤ c ∧ c ≤ code 'z' then c.toNat - 'a'.toNat + 26
  else if code '0' ≤ c ∧ c ≤ code '9' then c.toNat - '0'.toNat + 52
  else if c = code '+' then 62
  else if c = code '/' then 63
  else 255

def encodedLength (n : Nat) : Nat := wrap (wrap (n + 2) / 3 * 4)

/-- Whitespace -/
def white (c : Code) : Bool := c = code ' ' ∨ c = 9 ∨ c = 10 ∨ c = 13

/-- What is `Put` for three bytes, of which the last ones may be missing. -/
def quad (b0 b1 b2 : Nat) (has1 has2 : Bool) : List Code :=
  [enc6 (b0 >>> 2), enc6 ((b0 &&& 3) <<< 4 ||| b1 >>> 4),
    if has1 then enc6 ((b1 &&& 0xF) <<< 2 ||| b2 >>> 6) else code '=',
    if has2 then enc6 (b2 &&& 0x3F) else code '=']

def encodeLoop (data : OpenArray Byte) (n i k : Nat) (text : Chars) : Except Fault (Bool × Nat × Chars) :=
  if i < n then do
    let b0 ← data.get i
    let b1 ← (if i + 1 < n then data.get (i + 1) else .ok 0)
    let b2 ← (if i + 2 < n then data.get (i + 2) else .ok 0)
    let (ok, k, text) ← putAll (quad b0.toNat b1.toNat b2.toNat (i + 1 < n) (i + 2 < n)) k text
    if ok then encodeLoop data n (i + 3) k text else .ok (false, k, text)
  else .ok (true, k, text)
termination_by n - i

/-- The result, and `text`. -/
def encode (data : OpenArray Byte) (n : Nat) (text : Chars) : Except Fault (Bool × Chars) :=
  finish (encodeLoop data n 0 0 text)

def decodeLoop (text : Chars) (i acc bits k : Nat) (data : OpenArray Byte) :
    Except Fault (Bool × Nat × OpenArray Byte) :=
  if i < text.size then do
    let c ← text.get i
    if c = nul ∨ c = code '=' then .ok (true, k, data)
    else if white c then decodeLoop text (i + 1) acc bits k data
    else
      let v := dec6 c
      if v = 255 then .ok (false, k, data)
      else
        let acc := wrap (acc <<< 6) ||| v
        let bits := bits + 6
        if 8 ≤ bits then do
          let (ok, k, data) ← OpenArray.push (byte (acc >>> (bits - 8) &&& 0xFF)) k data
          if ok then decodeLoop text (i + 1) acc (bits - 8) k data else .ok (false, k, data)
        else decodeLoop text (i + 1) acc bits k data
  else .ok (true, k, data)
termination_by text.size - i

/-- The result, `n` and `data`. -/
def decode (text : Chars) (data : OpenArray Byte) (n : Nat) : Except Fault (Bool × Nat × OpenArray Byte) := do
  let (ok, k, data) ← decodeLoop text 0 0 0 0 data
  .ok (ok, if ok then k else n, data)

/-! ## Texts and bytes -/

/-- The text of some bytes. -/
def textOf : List Byte → List Code
  | [] => []
  | [b0] => quad b0.toNat 0 0 false false
  | [b0, b1] => quad b0.toNat b1.toNat 0 true false
  | b0 :: b1 :: b2 :: bs => quad b0.toNat b1.toNat b2.toNat true true ++ textOf bs

/-- The bytes that are put for a text, if there is nothing wrong in it. -/
def bytesOf (acc bits : Nat) : List Code → Option (List Byte)
  | [] => some []
  | c :: s =>
    if c = code '=' then some []
    else if white c then bytesOf acc bits s
    else if dec6 c = 255 then none
    else
      let acc := wrap (acc <<< 6) ||| dec6 c
      if 8 ≤ bits + 6 then (bytesOf acc (bits - 2) s).map ([byte (acc >>> (bits - 2) &&& 0xFF)] ++ ·)
      else bytesOf acc (bits + 6) s

variable {data : OpenArray Byte} {text : Chars} {n i k m : Nat} {c : Code} {s : List Code} {bs : List Byte}
  {allowed : Fault → Prop}

theorem dec6_enc6 {v : Nat} (h : v < 64) :
    dec6 (enc6 v) = v ∧ enc6 v ≠ code '=' ∧ white (enc6 v) = false ∧ enc6 v ≠ nul := by
  interval_cases v <;> decide

/-- Whitespace does not count. -/
theorem bytesOf_filter (acc bits : Nat) (s : List Code) :
    bytesOf acc bits (s.filter fun c => !white c) = bytesOf acc bits s := by
  induction s generalizing acc bits with
  | nil => rfl
  | cons c s ih =>
    rw [List.filter_cons]
    by_cases hwhite : white c = true
    · have hpad : c ≠ code '=' := by
        rintro rfl
        exact absurd hwhite (by decide)
      rw [if_neg (by simp [hwhite]), ih, bytesOf, if_neg hpad, if_pos hwhite]
    · rw [if_pos (by simp [hwhite]), bytesOf, bytesOf, if_neg hwhite, if_neg hwhite]
      simp only [ih]

theorem length_quad (b0 b1 b2 : Nat) (has1 has2 : Bool) : (quad b0 b1 b2 has1 has2).length = 4 := rfl

theorem length_textOf (bs : List Byte) : (textOf bs).length = (bs.length + 2) / 3 * 4 := by
  induction bs using textOf.induct with
  | case1 => rfl
  | case2 b0 => simp [textOf, length_quad]
  | case3 b0 b1 => simp [textOf, length_quad]
  | case4 b0 b1 b2 bs ih =>
    rw [textOf, List.length_append, length_quad, ih]
    simp only [List.length_cons]
    omega

/-! ## Bits -/

/-- The four groups of six bits. -/
theorem quad_eq (b0 : Nat) {b1 b2 : Nat} (h1 : b1 < 256) (h2 : b2 < 256) (has1 has2 : Bool) :
    quad b0 b1 b2 has1 has2 =
      [enc6 (b0 / 4), enc6 (b0 % 4 * 16 + b1 / 16), if has1 then enc6 (b1 % 16 * 4 + b2 / 64) else code '=',
        if has2 then enc6 (b2 % 64) else code '='] := by
  have hlow0 : b0 &&& 3 = b0 % 4 := Nat.and_two_pow_sub_one_eq_mod b0 2
  have hlow1 : b1 &&& 0xF = b1 % 16 := Nat.and_two_pow_sub_one_eq_mod b1 4
  have hlow2 : b2 &&& 0x3F = b2 % 64 := Nat.and_two_pow_sub_one_eq_mod b2 6
  have hor1 : 2 ^ 4 * (b0 % 4) ||| b1 / 16 = 2 ^ 4 * (b0 % 4) + b1 / 16 :=
    (Nat.two_pow_add_eq_or_of_lt (by omega) _).symm
  have hor2 : 2 ^ 2 * (b1 % 16) ||| b2 / 64 = 2 ^ 2 * (b1 % 16) + b2 / 64 :=
    (Nat.two_pow_add_eq_or_of_lt (by omega) _).symm
  rw [quad, hlow0, hlow1, hlow2, Nat.shiftLeft_eq, Nat.shiftLeft_eq, Nat.mul_comm _ (2 ^ 4), Nat.mul_comm _ (2 ^ 2)]
  simp only [Nat.shiftRight_eq_div_pow]
  rw [show (2 : Nat) ^ 6 = 64 from rfl, hor1, hor2]

/-- The accumulator behind a character. -/
def accum (acc v : Nat) : Nat := acc % 2 ^ 58 * 64 + v

theorem accum_eq {acc v : Nat} (h : v < 64) : wrap (acc <<< 6) ||| v = accum acc v := by
  have hwrap : wrap (acc <<< 6) = 2 ^ 6 * (acc % 2 ^ 58) := by
    rw [wrap, Nat.shiftLeft_eq]
    omega
  rw [hwrap, ← Nat.two_pow_add_eq_or_of_lt h, accum]
  omega

theorem byte_eq (v : Nat) : byte (v &&& 0xFF) = BitVec.ofNat 8 v := by
  have hlow : v &&& 0xFF = v % 2 ^ 8 := Nat.and_two_pow_sub_one_eq_mod v 8
  have hlow' : v % 2 ^ 8 &&& 0xFF = v % 2 ^ 8 % 2 ^ 8 := Nat.and_two_pow_sub_one_eq_mod _ 8
  refine BitVec.eq_of_toNat_eq ?_
  rw [byte, hlow, hlow', BitVec.toNat_ofNat, BitVec.toNat_ofNat, Nat.mod_mod, Nat.mod_mod]

/-- A character of the alphabet gives six bits, and a byte with two or more bits before it. -/
theorem bytesOf_enc6 {acc bits v : Nat} (h : v < 64) (s : List Code) :
    bytesOf acc bits (enc6 v :: s) =
      if 2 ≤ bits then
        (bytesOf (accum acc v) (bits - 2) s).map ([BitVec.ofNat 8 (accum acc v >>> (bits - 2))] ++ ·)
      else bytesOf (accum acc v) (bits + 6) s := by
  obtain ⟨hdec, hpad, hwhite, -⟩ := dec6_enc6 h
  rw [bytesOf, if_neg hpad, if_neg (by simp [hwhite]), hdec, if_neg (by omega)]
  simp only [accum_eq h, byte_eq, show ∀ j, 8 ≤ j + 6 ↔ 2 ≤ j by omega]

theorem ofNat_eq {v : Nat} {b : Byte} (h : v % 256 = b.toNat) : BitVec.ofNat 8 v = b := by
  refine BitVec.eq_of_toNat_eq ?_
  rw [BitVec.toNat_ofNat]
  exact h

/-- The first two characters of a group give a byte. -/
theorem bytesOf_first (acc : Nat) (b0 : Byte) {x : Nat} (hx : x < 16) (s : List Code) :
    ∃ acc', bytesOf acc 0 (enc6 (b0.toNat / 4) :: enc6 (b0.toNat % 4 * 16 + x) :: s) =
      (bytesOf acc' 4 s).map ([b0] ++ ·) ∧ acc' % 16 = x := by
  have hb := b0.isLt
  refine ⟨accum (accum acc (b0.toNat / 4)) (b0.toNat % 4 * 16 + x), ?_, by unfold accum; omega⟩
  rw [bytesOf_enc6 (by omega), if_neg (by decide), bytesOf_enc6 (by omega), if_pos (by decide), ofNat_eq (b := b0)]
  rw [Nat.shiftRight_eq_div_pow]
  unfold accum
  omega

/-- The third one gives another byte. -/
theorem bytesOf_second {acc : Nat} {b1 : Byte} {x : Nat} (hacc : acc % 16 = b1.toNat / 16) (hx : x < 4)
    (s : List Code) :
    ∃ acc', bytesOf acc 4 (enc6 (b1.toNat % 16 * 4 + x) :: s) = (bytesOf acc' 2 s).map ([b1] ++ ·) ∧
      acc' % 4 = x := by
  have hb := b1.isLt
  refine ⟨accum acc (b1.toNat % 16 * 4 + x), ?_, by unfold accum; omega⟩
  rw [bytesOf_enc6 (by omega), if_pos (by decide), ofNat_eq (b := b1)]
  rw [Nat.shiftRight_eq_div_pow]
  unfold accum
  omega

theorem bytesOf_third {acc : Nat} {b2 : Byte} (hacc : acc % 4 = b2.toNat / 64) (s : List Code) :
    ∃ acc', bytesOf acc 2 (enc6 (b2.toNat % 64) :: s) = (bytesOf acc' 0 s).map ([b2] ++ ·) := by
  have hb := b2.isLt
  refine ⟨accum acc (b2.toNat % 64), ?_⟩
  rw [bytesOf_enc6 (by omega), if_pos (by decide), ofNat_eq (b := b2)]
  rw [Nat.shiftRight_eq_div_pow]
  unfold accum
  omega

theorem bytesOf_pad (acc bits : Nat) (s : List Code) : bytesOf acc bits (code '=' :: s) = some [] := by
  rw [bytesOf, if_pos rfl]

/-- The bytes of a text are decoded. -/
theorem bytesOf_textOf (acc : Nat) (bs : List Byte) : bytesOf acc 0 (textOf bs) = some bs := by
  induction bs using textOf.induct generalizing acc with
  | case1 => rw [textOf, bytesOf]
  | case2 b0 =>
    rw [textOf, quad_eq b0.toNat (by decide) (by decide), if_neg Bool.false_ne_true]
    obtain ⟨acc', h, -⟩ := bytesOf_first acc b0 (x := 0 / 16) (by decide) [code '=', code '=']
    rw [h, bytesOf_pad]
    rfl
  | case3 b0 b1 =>
    rw [textOf, quad_eq b0.toNat b1.isLt (by decide), if_pos rfl, if_neg Bool.false_ne_true]
    obtain ⟨acc', h, hacc'⟩ := bytesOf_first acc b0 (x := b1.toNat / 16) (by omega)
      [enc6 (b1.toNat % 16 * 4 + 0 / 64), code '=']
    obtain ⟨acc'', h', -⟩ := bytesOf_second hacc' (x := 0 / 64) (by decide) [code '=']
    rw [h, h', bytesOf_pad]
    rfl
  | case4 b0 b1 b2 bs ih =>
    rw [textOf, quad_eq b0.toNat b1.isLt b2.isLt, if_pos rfl, if_pos rfl]
    obtain ⟨acc₁, h₁, hacc₁⟩ := bytesOf_first acc b0 (x := b1.toNat / 16) (by omega)
      (enc6 (b1.toNat % 16 * 4 + b2.toNat / 64) :: enc6 (b2.toNat % 64) :: textOf bs)
    obtain ⟨acc₂, h₂, hacc₂⟩ := bytesOf_second hacc₁ (x := b2.toNat / 64) (by omega)
      (enc6 (b2.toNat % 64) :: textOf bs)
    obtain ⟨acc₃, h₃⟩ := bytesOf_third hacc₂ (textOf bs)
    change bytesOf acc 0 (enc6 (b0.toNat / 4) :: enc6 (b0.toNat % 4 * 16 + b1.toNat / 16) :: _ :: _ :: textOf bs) = _
    rw [h₁, h₂, h₃, ih]
    rfl

theorem enc6_plain (v : Nat) : white (enc6 v) = false ∧ enc6 v ≠ nul := by
  by_cases h : v < 64
  · exact (dec6_enc6 h).2.2
  · rw [enc6, if_neg (by omega), if_neg (by omega), if_neg (by omega), if_neg (by omega)]
    decide

theorem quad_plain (b0 b1 b2 : Nat) (has1 has2 : Bool) :
    ∀ c ∈ quad b0 b1 b2 has1 has2, white c = false ∧ c ≠ nul := by
  have hpad : white (code '=') = false ∧ code '=' ≠ nul := by decide
  rw [quad]
  simp only [List.forall_mem_cons]
  refine ⟨enc6_plain _, enc6_plain _, ?_, ?_, by simp⟩
  · split_ifs
    · exact enc6_plain _
    · exact hpad
  · split_ifs
    · exact enc6_plain _
    · exact hpad

theorem textOf_plain (bs : List Byte) : ∀ c ∈ textOf bs, white c = false ∧ c ≠ nul := by
  induction bs using textOf.induct with
  | case1 => rw [textOf]; exact List.forall_mem_nil _
  | case2 b0 => rw [textOf]; exact quad_plain _ _ _ _ _
  | case3 b0 b1 => rw [textOf]; exact quad_plain _ _ _ _ _
  | case4 b0 b1 b2 bs ih =>
    rw [textOf, List.forall_mem_append]
    exact ⟨quad_plain _ _ _ _ _, ih⟩

/-! ## Running -/

/-- The next three bytes are a group. -/
theorem textOf_cons (b0 : Byte) (rest : List Byte) :
    textOf (b0 :: rest) =
      quad b0.toNat (rest.headD 0).toNat ((rest.drop 1).headD 0).toNat (!rest.isEmpty) (!(rest.drop 1).isEmpty) ++
        textOf (rest.drop 2) := by
  cases rest with
  | nil => simp [textOf]
  | cons b1 rest =>
    cases rest with
    | nil => simp [textOf]
    | cons b2 rest => rfl

/-- A byte behind the first one of a group, which may be missing. -/
theorem get_or_zero (hn : n ≤ data.size) (j : Nat) :
    (if j < n then data.get j else .ok 0) = .ok (((data.cells.take n).drop j).headD 0) ∧
      decide (j < n) = !((data.cells.take n).drop j).isEmpty := by
  cases hdrop : (data.cells.take n).drop j with
  | nil =>
    have hj := OpenArray.le_of_drop_take_nil hn hdrop
    rw [if_neg (by omega), decide_eq_false (by omega)]
    exact ⟨rfl, rfl⟩
  | cons b rest =>
    obtain ⟨hget, hj, -⟩ := OpenArray.get_of_drop_take hdrop
    rw [if_pos hj, hget, decide_eq_true hj]
    exact ⟨rfl, rfl⟩

theorem encodeLoop_runs (hn : n ≤ data.size) (i : Nat) {w : List Code} {k : Nat} {text : Chars}
    (h : Wrote w m k text) :
    Runs allowed (encodeLoop data n i k text) (Puts w (textOf ((data.cells.take n).drop i)) m) := by
  rw [encodeLoop]
  cases hdrop : (data.cells.take n).drop i with
  | nil =>
    rw [if_neg (Nat.not_lt.2 (OpenArray.le_of_drop_take_nil hn hdrop)), textOf]
    exact Runs.ok (Puts.nil h)
  | cons b0 rest =>
    obtain ⟨hget, hi, hrest⟩ := OpenArray.get_of_drop_take hdrop
    obtain ⟨hget₁, hhas₁⟩ := get_or_zero hn (i + 1)
    obtain ⟨hget₂, hhas₂⟩ := get_or_zero hn (i + 2)
    rw [hrest] at hget₁ hhas₁
    rw [← Nat.add_assoc i 1 1, ← List.drop_drop, hrest] at hget₂ hhas₂
    rw [if_pos hi, hget, hget₁, hget₂, hhas₁, hhas₂, textOf_cons]
    refine Puts.bind (putAll_runs h _) fun k text h' => ?_
    have hloop := encodeLoop_runs hn (i + 3) h'
    rwa [show i + 3 = i + 1 + 2 from rfl, ← List.drop_drop, hrest] at hloop
termination_by n - i

theorem decodeLoop_runs (text : Chars) (i : Nat) (hi : i ≤ text.text.length) (acc bits : Nat) {w : List Byte} {k : Nat}
    {data : OpenArray Byte} (h : OpenArray.Wrote w m k data) :
    Runs allowed (decodeLoop text i acc bits k data)
      (OpenArray.Gives w (bytesOf acc bits (text.text.drop i)) m) := by
  rw [decodeLoop]
  cases hdrop : text.text.drop i with
  | nil =>
    split_ifs with hsize
    · rw [get_of_drop_nil hdrop hi hsize]
      exact Runs.ok (OpenArray.Puts.nil h)
    · exact Runs.ok (OpenArray.Puts.nil h)
  | cons c rest =>
    obtain ⟨hget, hnul, hsize, hrest⟩ := get_of_drop hdrop
    have ih : ∀ acc bits w k data, OpenArray.Wrote w m k data →
        Runs allowed (decodeLoop text (i + 1) acc bits k data) (OpenArray.Gives w (bytesOf acc bits rest) m) := by
      intro acc bits w k data h'
      rw [← hrest]
      exact decodeLoop_runs text (i + 1) (le_of_drop_cons hdrop) acc bits h'
    rw [if_pos hsize, hget, bytesOf]
    refine Runs.bind (Q := fun x => x = c) rfl fun x hx => ?_
    rw [show x = c from hx]
    by_cases hpad : c = code '='
    · rw [if_pos (.inr hpad), if_pos hpad]
      exact Runs.ok (OpenArray.Puts.nil h)
    rw [if_neg (not_or.2 ⟨hnul, hpad⟩), if_neg hpad]
    by_cases hwhite : white c = true
    · rw [if_pos hwhite, if_pos hwhite]
      exact ih acc bits w k data h
    rw [if_neg hwhite, if_neg hwhite]
    dsimp only
    by_cases hbad : dec6 c = 255
    · rw [if_pos hbad, if_pos hbad]
      exact Runs.ok rfl
    rw [if_neg hbad, if_neg hbad]
    split_ifs with hbits
    · exact OpenArray.Gives.bind (OpenArray.push_runs h _) fun k data h' => ih _ _ _ k data h'
    · exact ih _ _ w k data h
termination_by text.size - i

theorem encode_runs (hn : n ≤ data.size) (text : Chars) :
    Runs allowed (encode data n text) fun r =>
      (r.1 = true ↔ (textOf (data.cells.take n)).length < text.size) ∧
        (r.1 = true → r.2.text = textOf (data.cells.take n)) := by
  have hloop : Runs allowed (encodeLoop data n 0 0 text)
      (Puts [] (textOf ((data.cells.take n).drop 0)) text.size) := encodeLoop_runs hn 0 (Wrote.start text)
  refine (finish_runs hloop).mono fun r ⟨hok, hcells⟩ => ⟨hok, fun h => ?_⟩
  obtain ⟨rest, hrest⟩ := (hcells h).1
  rw [List.drop_zero, List.append_assoc] at hrest
  exact text_of_append hrest.symm fun hnul => (textOf_plain _ nul hnul).2 rfl

theorem decode_runs (text : Chars) (data : OpenArray Byte) (n : Nat) :
    Runs allowed (decode text data n) fun r =>
      ∀ bs, bytesOf 0 0 text.text = some bs → bs.length ≤ data.size →
        r.1 = true ∧ r.2.1 = bs.length ∧ r.2.2.cells.take r.2.1 = bs := by
  refine (decodeLoop_runs text 0 (Nat.zero_le _) 0 0 (OpenArray.Wrote.start data)).bind ?_
  rintro ⟨ok, k, out⟩ h
  refine Runs.ok fun bs hbs hroom => ?_
  rw [List.drop_zero, hbs] at h
  have hput : OpenArray.Puts [] bs data.size (ok, k, out) := h
  rw [OpenArray.Puts, List.nil_append, if_pos hroom] at hput
  obtain ⟨rfl, hwrote⟩ := hput
  exact ⟨rfl, hwrote.count, hwrote.cells⟩

end NewM2.Winrt.Base64
