import Mathlib
import NewM2.Winrt.WavFile

/-!
# The samples of WAV files (`library/winrtmod/WavFile.mod`)

What the samples that `readWav` returns are, and `writeWav` and what is read back of the file. A group of bytes
stands for its two's complement value, and one byte for the unsigned number less 128. Reading is exact in REAL,
and the 16 bits that are written are rounded the way REAL operations round. -/

namespace NewM2.Winrt.WavFile

/-! ## Groups of bytes -/

def littleEndian : List Byte → Nat
  | [] => 0
  | b :: bs => b.toNat + 256 * littleEndian bs

/-- The `k` bytes at `pos`. -/
def group (bs : List Byte) (pos k : Nat) : List Byte := (bs.drop pos).take k

/-- The value of a group of `bits` bits. -/
def valueOf (bits : Nat) (g : List Byte) : ℚ :=
  if bits = 8 then ((littleEndian g : ℚ) - 128) / 128
  else ((BitVec.ofNat bits (littleEndian g)).toInt : ℚ) / 2 ^ (bits - 1)

/-- What `sample` makes of the bytes. -/
def sampleAt (bs : List Byte) (bits pos : Nat) : ℚ :=
  if bits = 8 then (((byteAt bs pos).toNat : ℚ) - 128) / 128
  else if bits = 16 then
    (((if 32768 ≤ (u16At bs pos : Int) then (u16At bs pos : Int) - 65536 else u16At bs pos) : Int) : ℚ) / 32768
  else if bits = 24 then
    let val : Int := (byteAt bs pos).toNat + (byteAt bs (pos + 1)).toNat * 256 + (byteAt bs (pos + 2)).toNat * 65536
    (((if 8388608 ≤ val then val - 16777216 else val) : Int) : ℚ) / 8388608
  else (u32At bs pos : ℚ) / 2147483648

section values
variable {bs : List Byte} {pos k bits n : Nat}

theorem group_succ (h : pos < bs.length) (k : Nat) : group bs pos (k + 1) = byteAt bs pos :: group bs (pos + 1) k := by
  rw [group, List.drop_eq_getElem_cons h, List.take_succ_cons, group, byteAt, List.getD_eq_getElem _ _ h]

theorem group_zero (bs : List Byte) (pos : Nat) : group bs pos 0 = [] := List.take_zero

theorem toInt_ofNat (h : n < 2 ^ bits) :
    (BitVec.ofNat bits n).toInt = if 2 * n < 2 ^ bits then (n : Int) else (n : Int) - 2 ^ bits := by
  rw [BitVec.toInt_eq_toNat_cond, BitVec.toNat_ofNat, Nat.mod_eq_of_lt h]
  split_ifs
  · rfl
  · push_cast
    rfl

/-- The value is at least -1, and less than 1. -/
theorem valueOf_range {g : List Byte} (hg : littleEndian g < 2 ^ bits) : -1 ≤ valueOf bits g ∧ valueOf bits g < 1 := by
  rw [valueOf]
  split_ifs with h8
  · rw [h8] at hg
    have hlow : (0 : ℚ) ≤ littleEndian g := Nat.cast_nonneg _
    have hhigh : (littleEndian g : ℚ) < 256 := by exact_mod_cast hg
    constructor
    · linarith
    · linarith
  · have hpos : (0 : ℚ) < 2 ^ (bits - 1) := by positivity
    have hlow := @BitVec.le_toInt bits (BitVec.ofNat bits (littleEndian g))
    have hhigh := @BitVec.toInt_lt bits (BitVec.ofNat bits (littleEndian g))
    have hlow' : -(2 ^ (bits - 1) : ℚ) ≤ ((BitVec.ofNat bits (littleEndian g)).toInt : ℚ) := by exact_mod_cast hlow
    have hhigh' : ((BitVec.ofNat bits (littleEndian g)).toInt : ℚ) < 2 ^ (bits - 1) := by exact_mod_cast hhigh
    constructor
    · rw [le_div_iff₀ hpos]
      linarith
    · rw [div_lt_iff₀ hpos]
      linarith

theorem littleEndian_lt (g : List Byte) : littleEndian g < 2 ^ (8 * g.length) := by
  induction g with
  | nil => exact Nat.one_pos
  | cons b g ih =>
    have hb := b.isLt
    rw [littleEndian, List.length_cons, Nat.mul_succ, pow_add]
    omega

theorem length_group (h : pos + k ≤ bs.length) : (group bs pos k).length = k := by
  rw [group, List.length_take, List.length_drop]
  omega

/-- The samples of all widths but 32 bits are the values of their groups. -/
theorem sampleAt_eq (hbits : bits = 8 ∨ bits = 16 ∨ bits = 24) (h : pos + bits / 8 ≤ bs.length) :
    sampleAt bs bits pos = valueOf bits (group bs pos (bits / 8)) := by
  have hlt := littleEndian_lt (group bs pos (bits / 8))
  rw [length_group h] at hlt
  rcases hbits with rfl | rfl | rfl
  · rw [sampleAt, valueOf, if_pos rfl, if_pos rfl, group_succ (by omega), group_zero, littleEndian, littleEndian,
      Nat.mul_zero, Nat.add_zero]
  · have hgroup : littleEndian (group bs pos (16 / 8)) = u16At bs pos := by
      rw [show 16 / 8 = 2 from rfl, group_succ (by omega), group_succ (by omega), group_zero]
      simp only [littleEndian, u16At]
      ring
    rw [hgroup] at hlt
    have hsigned : (if (32768 : Int) ≤ (u16At bs pos : Int) then (u16At bs pos : Int) - 65536 else u16At bs pos) =
        (BitVec.ofNat 16 (u16At bs pos)).toInt := by
      rw [toInt_ofNat hlt]
      split_ifs <;> omega
    rw [sampleAt, if_neg (show ¬ 16 = 8 by decide), if_pos rfl, hsigned, valueOf, if_neg (show ¬ 16 = 8 by decide),
      hgroup]
    norm_num
  · have hgroup : littleEndian (group bs pos (24 / 8)) =
        (byteAt bs pos).toNat + (byteAt bs (pos + 1)).toNat * 256 + (byteAt bs (pos + 2)).toNat * 65536 := by
      rw [show 24 / 8 = 3 from rfl, group_succ (by omega), group_succ (by omega), group_succ (by omega), group_zero]
      simp only [littleEndian]
      ring
    rw [hgroup] at hlt
    have hsigned : ∀ val : Nat, val < 2 ^ 24 →
        (if (8388608 : Int) ≤ (val : Int) then (val : Int) - 16777216 else val) = (BitVec.ofNat 24 val).toInt := by
      intro val hval
      rw [toInt_ofNat hval]
      split_ifs <;> omega
    have hsum := hsigned _ hlt
    push_cast at hsum
    rw [sampleAt, if_neg (show ¬ 24 = 8 by decide), if_neg (show ¬ 24 = 16 by decide), if_pos rfl]
    dsimp only
    rw [hsum, valueOf, if_neg (show ¬ 24 = 8 by decide), hgroup]
    norm_num

/-- A sample of 32 bits is the value of its group just if that is not negative. -/
theorem sampleAt_32_iff (h : pos + 4 ≤ bs.length) :
    sampleAt bs 32 pos = valueOf 32 (group bs pos 4) ↔ (byteAt bs (pos + 3)).toNat < 128 := by
  have hlt := littleEndian_lt (group bs pos 4)
  rw [length_group h] at hlt
  have hgroup : littleEndian (group bs pos 4) = u32At bs pos := by
    rw [show 4 = 3 + 1 from rfl, group_succ (by omega), group_succ (by omega), group_succ (by omega),
      group_succ (by omega), group_zero]
    simp only [littleEndian, u32At]
    ring
  have h0 := (byteAt bs pos).isLt
  have h1 := (byteAt bs (pos + 1)).isLt
  have h2 := (byteAt bs (pos + 2)).isLt
  have htop : (byteAt bs (pos + 3)).toNat < 128 ↔ 2 * u32At bs pos < 2 ^ 32 := by
    rw [u32At]
    omega
  rw [htop, sampleAt, if_neg (show ¬ 32 = 8 by decide), if_neg (show ¬ 32 = 16 by decide),
    if_neg (show ¬ 32 = 24 by decide), valueOf, if_neg (show ¬ 32 = 8 by decide), hgroup, toInt_ofNat (hgroup ▸ hlt)]
  split_ifs with hsmall
  · exact iff_of_true (by norm_num) hsmall
  · refine iff_of_false (fun heq => ?_) hsmall
    have hdiv : (u32At bs pos : ℚ) / 2147483648 = ((u32At bs pos : ℚ) - 4294967296) / 2147483648 := by
      rw [heq]
      push_cast
      norm_num
    rw [div_left_inj' (by norm_num)] at hdiv
    linarith

end values

theorem u16At_lt (bs : List Byte) (pos : Nat) : u16At bs pos < 2 ^ 16 := by
  have h0 := (byteAt bs pos).isLt
  have h1 := (byteAt bs (pos + 1)).isLt
  rw [u16At]
  omega

theorem u32At_lt (bs : List Byte) (pos : Nat) : u32At bs pos < 2 ^ 32 := by
  have h0 := (byteAt bs pos).isLt
  have h1 := (byteAt bs (pos + 1)).isLt
  have h2 := (byteAt bs (pos + 2)).isLt
  have h3 := (byteAt bs (pos + 3)).isLt
  rw [u32At]
  omega

/-! ## Reading -/

/-- The header of the last data chunk. -/
def lastData (bs : List Byte) : Option Nat := ((headers bs 12).filter (isData bs)).getLast?

/-- The widths of samples. -/
def Width (bits : Nat) : Prop := bits = 8 ∨ bits = 16 ∨ bits = 24 ∨ bits = 32

/-- The number of bits that the format chunk at `p` gives to a sample. -/
def bitsAt (bs : List Byte) (p : Nat) : Nat := u16At bs (p + 8 + 14)

/-- How many samples there are, with the last format chunk at `p` and the last data chunk at `q`. -/
def sampleCount (bs : List Byte) (p q : Nat) : Nat :=
  min ((if bs.length < q + 8 + u32At bs (q + 4) then bs.length - (q + 8) else u32At bs (q + 4)) / (bitsAt bs p / 8)) maxSamples

/-- The samples are what the conversions make of the bytes. -/
structure Sampled (bs : List Byte) (p q : Nat) (s : Sound) : Prop where
  width : Width (bitsAt bs p)
  count : s.count = sampleCount bs p q
  inside : q + 8 + s.count * (bitsAt bs p / 8) ≤ bs.length
  samples : ∀ i, i < s.count → s.samples[i]? = some (some (sampleAt bs (bitsAt bs p) (q + 8 + i * (bitsAt bs p / 8))))

section reading
variable {env : Env} {s : Sound} {w : World} {bits pos dataOff dataLen n p q : Nat} {bs : List Byte} {allowed : Fault → Prop}

/-- The quotient of a small number and a power of two is exact. -/
theorem real_div {val : Int} (hval : -2 ^ 53 < val ∧ val < 2 ^ 53) {d : ℚ} {j : Nat} (hd : d = 2 ^ j) (hj : j ≤ 1074) :
    real (val / d) = val / d := by
  rw [hd]
  exact Rounding.toBinary64_exact (abs_lt.2 hval) hj

theorem sample_value (hw : Live w) (hbits : Width bits) (h : pos + bits / 8 ≤ w.bytes.length) :
    Reads allowed (sample bits pos) w (· = sampleAt w.bytes bits pos) := by
  rw [sample]
  rcases hbits with rfl | rfl | rfl | rfl
  · rw [if_pos rfl]
    refine (peek_reads hw (by omega)).bind fun b hb => Runs.ok ⟨?_, rfl⟩
    have hlt := (byteAt w.bytes pos).isLt
    have hsub := @real_div ((byteAt w.bytes pos).toNat - 128) (by omega) 1 0 (by norm_num) (by decide)
    have hdiv := @real_div ((byteAt w.bytes pos).toNat - 128) (by omega) 128 7 (by norm_num) (by decide)
    push_cast at hsub hdiv
    rw [div_one] at hsub
    rw [hb, hsub, hdiv]
    rfl
  · rw [if_neg (by decide), if_pos rfl]
    refine (getU16_reads hw (by omega)).bind fun u hu => Runs.ok ⟨?_, rfl⟩
    have hlt := u16At_lt w.bytes pos
    rw [hu]
    exact real_div (j := 15) (by split_ifs <;> omega) (by norm_num) (by decide)
  · rw [if_neg (by decide), if_neg (by decide), if_pos rfl]
    refine (peek_reads hw (by omega)).bind fun c0 h0 => (peek_reads hw (by omega)).bind fun c1 h1 =>
      (peek_reads hw (by omega)).bind fun c2 h2 => Runs.ok ⟨?_, rfl⟩
    have hlt0 := (byteAt w.bytes pos).isLt
    have hlt1 := (byteAt w.bytes (pos + 1)).isLt
    have hlt2 := (byteAt w.bytes (pos + 2)).isLt
    rw [h0, h1, h2]
    exact real_div (j := 23) (by split_ifs <;> omega) (by norm_num) (by decide)
  · rw [if_neg (by decide), if_neg (by decide), if_neg (by decide)]
    refine (getU32_reads hw (by omega)).bind fun u hu => Runs.ok ⟨?_, rfl⟩
    have hlt := u32At_lt w.bytes pos
    have hdiv := @real_div (u32At w.bytes pos) (by omega) 2147483648 31 (by norm_num) (by decide)
    rw [Int.cast_natCast] at hdiv
    rw [hu]
    exact hdiv

/-- The samples before `i` are there. -/
def Taken (bs : List Byte) (bits dataOff n i : Nat) (samples : List (Option ℚ)) : Prop :=
  samples.length = n ∧ ∀ j, j < i → samples[j]? = some (some (sampleAt bs bits (dataOff + j * (bits / 8))))

theorem samplesLoop_value (hw : Live w) (hbits : Width bits) (hn : n ≤ maxSamples)
    (hfit : dataOff + n * (bits / 8) ≤ w.bytes.length) {i : Nat} (hi : i ≤ n) {samples : List (Option ℚ)}
    (h : Taken w.bytes bits dataOff n i samples) :
    Reads allowed (samplesLoop bits dataOff n i samples) w (Taken w.bytes bits dataOff n n) := by
  rw [samplesLoop]
  split_ifs with hlt
  · have hmul : (i + 1) * (bits / 8) ≤ n * (bits / 8) := Nat.mul_le_mul_right _ hlt
    rw [Nat.add_mul, Nat.one_mul] at hmul
    refine (sample_value hw hbits (by omega)).bind fun x hx => ?_
    obtain ⟨hlen, htaken⟩ := h
    refine Runs.bindS (Q := fun q => Taken w.bytes bits dataOff n (i + 1) q.1 ∧ q.2 = w) ?_ ?_
    · rw [poke, if_neg (by omega), if_pos (by omega)]
      refine Runs.ok ⟨⟨by rw [List.length_set, hlen], fun j hj => ?_⟩, rfl⟩
      rcases Nat.lt_or_eq_of_le (Nat.le_of_lt_succ hj) with hj | rfl
      · rw [List.getElem?_set_ne (by omega)]
        exact htaken j hj
      · rw [List.getElem?_set_self (by omega), hx]
    · rintro samples' w' ⟨h', hw'⟩
      rw [show w' = w from hw']
      exact samplesLoop_value hw hbits hn hfit hlt h'
  · obtain rfl : i = n := by omega
    exact Runs.ok ⟨h, rfl⟩
termination_by n - i

theorem decode_value (hw : Live w) {sr channels : Nat} (hbits : Width bits) (hfit : dataOff + dataLen ≤ w.bytes.length) :
    Runs allowed (decode env sr channels bits dataOff dataLen s w) fun r => r.1.1 = true →
      r.1.2.count = min (dataLen / (bits / 8)) maxSamples ∧ dataOff + r.1.2.count * (bits / 8) ≤ w.bytes.length ∧
        Taken w.bytes bits dataOff r.1.2.count r.1.2.count r.1.2.samples := by
  have hlive : w.released < w.allocated := by
    rw [hw.released, hw.allocated]
    exact Nat.one_pos
  rw [decode]
  generalize hn : min (dataLen / (bits / 8)) maxSamples = n
  have hn' : n ≤ maxSamples := hn ▸ Nat.min_le_right _ _
  have hmul : n * (bits / 8) ≤ dataLen :=
    (Nat.mul_le_mul_right _ (hn ▸ Nat.min_le_left _ _)).trans (Nat.div_mul_le_self _ _)
  split_ifs with hnone
  · refine Runs.bindS (Q := fun _ => True) ?_ fun _ _ _ => Runs.ok fun h => absurd h Bool.false_ne_true
    rw [deallocate, if_pos hlive]
    exact trivial
  · have hstart : Taken w.bytes bits dataOff n 0 (List.replicate n none) :=
      ⟨List.length_replicate, fun j hj => absurd hj (Nat.not_lt_zero j)⟩
    refine (samplesLoop_value hw hbits hn' (by omega) (Nat.zero_le n) hstart).bind fun samples htaken => ?_
    refine Runs.bindS (Q := fun _ => True) ?_ fun _ _ _ => Runs.ok fun _ => ⟨rfl, by dsimp only; omega, htaken⟩
    rw [deallocate, if_pos hlive]
    exact trivial

/-- A read that returns, returns the byte. -/
theorem peek_value (hw : Live w) (j : Nat) : Reads (fun _ => True) (peek j) w (· = byteAt w.bytes j) := by
  rcases Nat.lt_or_ge j w.bytes.length with hj | hj
  · exact peek_reads hw hj
  · exact (peek_fails hj).mono fun _ h => h.elim

theorem getU16_value (hw : Live w) (off : Nat) : Reads (fun _ => True) (getU16 off) w (· = u16At w.bytes off) := by
  refine (peek_value hw _).bind fun b0 h0 => (peek_value hw _).bind fun b1 h1 => Runs.ok ⟨?_, rfl⟩
  rw [h0, h1]
  rfl

theorem readFmt_value (hw : Live w) (hdata : dataOff ≤ w.bytes.length) (off : Nat) :
    Runs (fun _ => True) (readFmt env w.bytes.length off dataOff dataLen s w) fun r => r.1.1 = true →
      ∃ bits, bits = u16At w.bytes (off + 14) ∧ Width bits ∧
        r.1.2.count = min ((if w.bytes.length < dataOff + dataLen then w.bytes.length - dataOff else dataLen) / (bits / 8))
          maxSamples ∧
        dataOff + r.1.2.count * (bits / 8) ≤ w.bytes.length ∧
        Taken w.bytes bits dataOff r.1.2.count r.1.2.count r.1.2.samples := by
  rw [readFmt]
  refine (getU16_any _ w).bind fun tag _ => (getU16_any _ w).bind fun channels _ =>
    (getU32_any _ w).bind fun sr _ => (getU16_value hw _).bind fun bits hbits => ?_
  by_cases hformat : tag ≠ 1 ∨ channels ≠ 1 ∧ channels ≠ 2
  · rw [if_pos hformat]
    exact (fails_ends hw).mono fun r hr htrue => absurd (hr.2.symm.trans htrue) Bool.false_ne_true
  rw [if_neg hformat]
  by_cases hwidth : bits ≠ 8 ∧ bits ≠ 16 ∧ bits ≠ 24 ∧ bits ≠ 32
  · rw [if_pos hwidth]
    exact (fails_ends hw).mono fun r hr htrue => absurd (hr.2.symm.trans htrue) Bool.false_ne_true
  rw [if_neg hwidth]
  have hbits' : Width bits := by
    rw [Width]
    omega
  have hfit : dataOff + (if w.bytes.length < dataOff + dataLen then w.bytes.length - dataOff else dataLen) ≤
      w.bytes.length := by
    split_ifs <;> omega
  exact (decode_value hw hbits' hfit).mono fun r hr htrue => ⟨bits, hbits, hbits', hr htrue⟩

/-- What a successful reading returns. -/
theorem readWav_sampled {r : (Bool × Sound) × World} (hrun : readWav env s World.start = .ok r) (htrue : r.1.1 = true) :
    ∃ f p q, env.file = some f ∧ lastFmt f.loaded = some p ∧ lastData f.loaded = some q ∧ Sampled f.loaded p q r.1.2 := by
  have hruns : Runs (fun _ => True) (readWav env s World.start) fun r => r.1.1 = true →
      ∃ f p q, env.file = some f ∧ lastFmt f.loaded = some p ∧ lastData f.loaded = some q ∧
        Sampled f.loaded p q r.1.2 := by
    refine readWav_eq (fun r _ hfalse htrue => absurd (hfalse.symm.trans htrue) Bool.false_ne_true) ?_
    intro f hfile hsize hsize' hgrant hloaded
    have hlive : Live ⟨f.loaded, 1, 1, 0⟩ := ⟨rfl, rfl, rfl, f.le.trans hsize'⟩
    refine readChunks_eq hlive hloaded (fun _ r _ hfalse htrue => ?_) fun _ _ p hp dataOff dataLen hfound => ?_
    · exact absurd (hfalse.symm.trans htrue) Bool.false_ne_true
    · refine (readFmt_value hlive (found_data_le hfound) (p + 8)).mono fun r hr htrue => ?_
      obtain ⟨bits, rfl, hwidth, hcount, hinside, htaken⟩ := hr htrue
      rw [found, (foldl_keepOf f.loaded _).2, Option.map_eq_some_iff] at hfound
      obtain ⟨q, hq, hpair⟩ := hfound
      obtain ⟨rfl, rfl⟩ := Prod.mk.inj hpair
      exact ⟨f, p, q, hfile, hp, hq, hwidth, hcount, hinside, htaken.2⟩
  rw [hrun] at hruns
  exact hruns htrue

/-- Every sample is the value of its group of bytes. -/
def Decoded (bs : List Byte) (p q : Nat) (s : Sound) : Prop :=
  ∀ i, i < s.count → ∃ x, s.samples[i]? = some (some x) ∧
    x = valueOf (bitsAt bs p) (group bs (q + 8 + i * (bitsAt bs p / 8)) (bitsAt bs p / 8)) ∧ -1 ≤ x ∧ x < 1

/-- No group of 32 bits has its sign bit set. -/
def NoNegative32 (bs : List Byte) (p q : Nat) : Prop :=
  bitsAt bs p = 32 → ∀ i, i < sampleCount bs p q → (byteAt bs (q + 8 + i * 4 + 3)).toNat < 128

theorem Sampled.decoded_iff (h : Sampled bs p q s) : Decoded bs p q s ↔ NoNegative32 bs p q := by
  obtain ⟨hwidth, hcount, hinside, hsamples⟩ := h
  have hfit : ∀ i, i < s.count → q + 8 + i * (bitsAt bs p / 8) + bitsAt bs p / 8 ≤ bs.length := by
    intro i hi
    have hmul : (i + 1) * (bitsAt bs p / 8) ≤ s.count * (bitsAt bs p / 8) := Nat.mul_le_mul_right _ hi
    rw [Nat.add_mul, Nat.one_mul] at hmul
    omega
  have hvalue : ∀ i, i < s.count → -1 ≤ valueOf (bitsAt bs p) (group bs (q + 8 + i * (bitsAt bs p / 8)) (bitsAt bs p / 8)) ∧
      valueOf (bitsAt bs p) (group bs (q + 8 + i * (bitsAt bs p / 8)) (bitsAt bs p / 8)) < 1 := by
    intro i hi
    refine valueOf_range ((littleEndian_lt _).trans_le ?_)
    rw [length_group (hfit i hi)]
    exact Nat.pow_le_pow_right (by decide) (Nat.mul_div_le _ _)
  constructor
  · intro h h32 i hi
    rw [← hcount] at hi
    obtain ⟨x, hx, hval, -⟩ := h i hi
    have hroom := hfit i hi
    rw [hsamples i hi] at hx
    obtain rfl := Option.some_inj.1 (Option.some_inj.1 hx)
    rw [h32] at hval hroom
    exact (sampleAt_32_iff hroom).1 hval
  · intro h i hi
    refine ⟨_, hsamples i hi, ?_⟩
    have hsample : sampleAt bs (bitsAt bs p) (q + 8 + i * (bitsAt bs p / 8)) =
        valueOf (bitsAt bs p) (group bs (q + 8 + i * (bitsAt bs p / 8)) (bitsAt bs p / 8)) := by
      have hroom := hfit i hi
      rcases hwidth with h8 | h16 | h24 | h32
      · exact sampleAt_eq (.inl h8) hroom
      · exact sampleAt_eq (.inr (.inl h16)) hroom
      · exact sampleAt_eq (.inr (.inr h24)) hroom
      · have htop := h h32 i (hcount ▸ hi)
        rw [h32] at hroom ⊢
        exact (sampleAt_32_iff hroom).2 htop
    rw [hsample]
    exact ⟨rfl, hvalue i hi⟩

end reading

/-! ## Writing -/

def clamp (x lo hi : ℚ) : ℚ := if x < lo then lo else if hi < x then hi else x

/-- NM2Math.truncToInt -/
def truncToInt (x : ℚ) : Int := Rounding.truncate x

/-- A product beyond the range of REAL is clamped like an infinite one. -/
def toI16 (x gain : ℚ) : Int :=
  let scaled := real (clamp (real (x * gain)) (-1) 1 * 32767)
  if 0 ≤ scaled then truncToInt (real (scaled + 1 / 2)) else truncToInt (real (scaled - 1 / 2))

/-- `b^[off] := x` -/
def put (b : List Byte) (off : Nat) (x : Nat) : Except Fault (List Byte) :=
  if maxWavBytes ≤ off then .error .indexException
  else if off < b.length then .ok (b.set off (BitVec.ofNat 8 x))
  else .error .outside

def putU16 (b : List Byte) (off v : Nat) : Except Fault (List Byte) := do
  let b ← put b off (v &&& 0xFF)
  put b (off + 1) ((v / 256) &&& 0xFF)

def putU32 (b : List Byte) (off v : Nat) : Except Fault (List Byte) := do
  let b ← put b off (v &&& 0xFF)
  let b ← put b (off + 1) ((v / 256) &&& 0xFF)
  let b ← put b (off + 2) ((v / 65536) &&& 0xFF)
  put b (off + 3) ((v / 16777216) &&& 0xFF)

def put4 (b : List Byte) (off : Nat) (c0 c1 c2 c3 : Char) : Except Fault (List Byte) := do
  let b ← put b off c0.toNat
  let b ← put b (off + 1) c1.toNat
  let b ← put b (off + 2) c2.toNat
  put b (off + 3) c3.toNat

/-- `s.samples^[i]` -/
def Sound.get (s : Sound) (i : Nat) : Except Fault ℚ :=
  if maxSamples ≤ i then .error .indexException
  else
    match s.samples[i]? with
    | some (some x) => .ok x
    | _ => .error .outside

/-- The loop over the samples. -/
def putSamples (s : Sound) (gain : ℚ) (i off : Nat) (b : List Byte) : Except Fault (List Byte) :=
  if i < s.count then do
    let v := toI16 (← s.get i) gain
    let u := (if v < 0 then v + 65536 else v).toNat
    let b ← put b off (u &&& 0xFF)
    let b ← put b (off + 1) ((u / 256) &&& 0xFF)
    putSamples s gain (i + 1) (off + 2) b
  else .ok b
termination_by s.count - i

/-- What the surroundings do: whether there is memory, what is in it, whether the file can be created, and how many
bytes `WriteBytes` writes. -/
structure WriteEnv where
  grants : Bool
  junk : Nat → Byte
  creates : Bool
  wrote : Nat

/-- The header of the file. -/
def putHeader (s : Sound) (dataSize : Nat) (b : List Byte) : Except Fault (List Byte) := do
  let b ← put4 b 0 'R' 'I' 'F' 'F'
  let b ← putU32 b 4 (wrap (36 + dataSize))
  let b ← put4 b 8 'W' 'A' 'V' 'E'
  let b ← put4 b 12 'f' 'm' 't' ' '
  let b ← putU32 b 16 16
  let b ← putU16 b 20 1
  let b ← putU16 b 22 s.channels
  let b ← putU32 b 24 s.sampleRate
  let b ← putU32 b 28 (wrap (wrap (s.sampleRate * s.channels) * 2))
  let b ← putU16 b 32 (wrap (s.channels * 2))
  let b ← putU16 b 34 16
  let b ← put4 b 36 'd' 'a' 't' 'a'
  putU32 b 40 dataSize

/-- The result, and what is in the file. -/
def writeWav (env : WriteEnv) (s : Sound) (volume : ℚ) : Except Fault (Bool × List Byte) :=
  if s.count = 0 then .ok (false, [])
  else
    let gain := if volume < 0 then 0 else volume
    let dataSize := wrap (s.count * 2)
    let total := wrap (44 + dataSize)
    if env.grants = false then .ok (false, [])
    else do
      let b ← putHeader s dataSize ((List.range total).map env.junk)
      let b ← putSamples s gain 0 44 b
      if env.creates = false then .ok (false, [])
      else .ok (decide (env.wrote = total), b.take env.wrote)

section writing
variable {s : Sound} {b p : List Byte} {total off x v : Nat} {allowed : Fault → Prop}

theorem clamp_range {x lo hi : ℚ} (h : lo ≤ hi) : lo ≤ clamp x lo hi ∧ clamp x lo hi ≤ hi := by
  rw [clamp]
  split_ifs with hlow hhigh
  · exact ⟨le_rfl, h⟩
  · exact ⟨h, le_rfl⟩
  · exact ⟨not_lt.1 hlow, not_lt.1 hhigh⟩

theorem real_near {x : ℚ} (hx : |x| < 2 ^ 15) : |real x - x| ≤ 1 / 2 ^ 39 := by
  refine (Rounding.abs_toBinary64_sub_le (k := 15) (by norm_num) (by exact_mod_cast hx)).trans_eq ?_
  norm_num

/-- The roundings do not lead out of 16 bits. -/
theorem toI16_range (x gain : ℚ) : -32767 ≤ toI16 x gain ∧ toI16 x gain ≤ 32767 := by
  obtain ⟨hlow, hhigh⟩ := @clamp_range (real (x * gain)) (-1) 1 (by norm_num)
  rw [toI16]
  generalize clamp (real (x * gain)) (-1) 1 = y at *
  have hscaled := abs_le.1 (@real_near (y * 32767) (by rw [abs_lt]; constructor <;> linarith))
  generalize real (y * 32767) = scaled at *
  obtain ⟨hbelow, habove⟩ := hscaled
  norm_num at hbelow habove
  split_ifs with hpos
  · have hsum := abs_le.1 (@real_near (scaled + 1 / 2) (by rw [abs_lt]; constructor <;> linarith))
    generalize real (scaled + 1 / 2) = z at *
    obtain ⟨hz, hz'⟩ := hsum
    norm_num at hz hz'
    rw [truncToInt, Rounding.truncate_of_nonneg (by linarith)]
    have h1 : (0 : ℤ) ≤ ⌊z⌋ := Int.floor_nonneg.2 (by linarith)
    have h2 : ⌊z⌋ < 32768 := Int.floor_lt.2 (by push_cast; linarith)
    omega
  · have hsum := abs_le.1 (@real_near (scaled - 1 / 2) (by rw [abs_lt]; constructor <;> linarith))
    generalize real (scaled - 1 / 2) = z at *
    obtain ⟨hz, hz'⟩ := hsum
    norm_num at hz hz'
    rw [truncToInt, Rounding.truncate, if_neg (by linarith)]
    have h1 : (0 : ℤ) ≤ ⌊-z⌋ := Int.floor_nonneg.2 (by linarith)
    have h2 : ⌊-z⌋ < 32768 := Int.floor_lt.2 (by push_cast; linarith)
    omega

/-- The buffer begins with `p`. -/
def Filled (p : List Byte) (total : Nat) (b : List Byte) : Prop := b.length = total ∧ p <+: b

theorem put_end (h : Filled p total b) (hoff : off = p.length) (hroom : p.length < total) (htotal : total ≤ maxWavBytes)
    (x : Nat) : Runs allowed (put b off x) (Filled (p ++ [BitVec.ofNat 8 x]) total) := by
  obtain ⟨hlen, t, rfl⟩ := h
  rw [put, if_neg (by omega), if_pos (by omega), hoff]
  refine Runs.ok ⟨by rw [List.length_set, hlen], ?_⟩
  rw [List.set_append_right _ _ le_rfl, Nat.sub_self]
  rw [List.length_append] at hlen
  cases t with
  | nil =>
    rw [List.length_nil] at hlen
    omega
  | cons y t => exact ⟨t, by simp⟩

/-- The bytes of a number, the lowest one first. -/
def bytes16 (v : Nat) : List Byte := [BitVec.ofNat 8 (v &&& 0xFF), BitVec.ofNat 8 ((v / 256) &&& 0xFF)]

def bytes32 (v : Nat) : List Byte :=
  [BitVec.ofNat 8 (v &&& 0xFF), BitVec.ofNat 8 ((v / 256) &&& 0xFF), BitVec.ofNat 8 ((v / 65536) &&& 0xFF),
    BitVec.ofNat 8 ((v / 16777216) &&& 0xFF)]

def letters4 (c0 c1 c2 c3 : Char) : List Byte := [letter c0, letter c1, letter c2, letter c3]

theorem put2_runs (h : Filled p total b) (hoff : off = p.length) (hroom : p.length + 2 ≤ total)
    (htotal : total ≤ maxWavBytes) (x y : Nat) :
    Runs allowed (do
      let b ← put b off x
      put b (off + 1) y)
      (Filled (p ++ [BitVec.ofNat 8 x, BitVec.ofNat 8 y]) total) := by
  refine (put_end h hoff (by omega) htotal x).bind fun b₁ h₁ => ?_
  have hlen : (p ++ [BitVec.ofNat 8 x]).length = p.length + 1 := List.length_append
  refine (put_end h₁ (by rw [hlen, hoff]) (by omega) htotal y).mono fun b₂ h₂ => ?_
  rwa [List.append_assoc] at h₂

theorem put4_runs (h : Filled p total b) (hoff : off = p.length) (hroom : p.length + 4 ≤ total)
    (htotal : total ≤ maxWavBytes) (x y z u : Nat) :
    Runs allowed (do
      let b ← put b off x
      let b ← put b (off + 1) y
      let b ← put b (off + 2) z
      put b (off + 3) u)
      (Filled (p ++ [BitVec.ofNat 8 x, BitVec.ofNat 8 y, BitVec.ofNat 8 z, BitVec.ofNat 8 u]) total) := by
  refine (put_end h hoff (by omega) htotal x).bind fun b₁ h₁ => ?_
  have hlen : (p ++ [BitVec.ofNat 8 x]).length = p.length + 1 := List.length_append
  refine (put_end h₁ (by rw [hlen, hoff]) (by omega) htotal y).bind fun b₂ h₂ => ?_
  rw [List.append_assoc] at h₂
  have hlen₂ : (p ++ ([BitVec.ofNat 8 x] ++ [BitVec.ofNat 8 y])).length = p.length + 2 := List.length_append
  refine (put2_runs h₂ (by rw [hlen₂, hoff]) (by omega) htotal z u).mono fun b₃ h₃ => ?_
  rwa [List.append_assoc] at h₃

/-- The header that is written. -/
def header (s : Sound) (dataSize : Nat) : List Byte :=
  letters4 'R' 'I' 'F' 'F' ++ bytes32 (wrap (36 + dataSize)) ++ letters4 'W' 'A' 'V' 'E' ++ letters4 'f' 'm' 't' ' ' ++
    bytes32 16 ++ bytes16 1 ++ bytes16 s.channels ++ bytes32 s.sampleRate ++
    bytes32 (wrap (wrap (s.sampleRate * s.channels) * 2)) ++ bytes16 (wrap (s.channels * 2)) ++ bytes16 16 ++
    letters4 'd' 'a' 't' 'a' ++ bytes32 dataSize

/-- The buffer begins with `p`, which has `n` bytes. -/
def Upto (p : List Byte) (n total : Nat) (b : List Byte) : Prop := p.length = n ∧ Filled p total b

theorem putU16_upto {n : Nat} (h : Upto p n total b) (hroom : n + 2 ≤ total) (htotal : total ≤ maxWavBytes) (v : Nat) :
    Runs allowed (putU16 b n v) (Upto (p ++ bytes16 v) (n + 2) total) :=
  (put2_runs h.2 h.1.symm (by rw [h.1]; exact hroom) htotal _ _).mono fun _ hb =>
    ⟨by rw [List.length_append, h.1]; rfl, hb⟩

theorem putU32_upto {n : Nat} (h : Upto p n total b) (hroom : n + 4 ≤ total) (htotal : total ≤ maxWavBytes) (v : Nat) :
    Runs allowed (putU32 b n v) (Upto (p ++ bytes32 v) (n + 4) total) :=
  (put4_runs h.2 h.1.symm (by rw [h.1]; exact hroom) htotal _ _ _ _).mono fun _ hb =>
    ⟨by rw [List.length_append, h.1]; rfl, hb⟩

theorem put4_upto {n : Nat} (h : Upto p n total b) (hroom : n + 4 ≤ total) (htotal : total ≤ maxWavBytes)
    (c0 c1 c2 c3 : Char) : Runs allowed (put4 b n c0 c1 c2 c3) (Upto (p ++ letters4 c0 c1 c2 c3) (n + 4) total) :=
  (put4_runs h.2 h.1.symm (by rw [h.1]; exact hroom) htotal _ _ _ _).mono fun _ hb =>
    ⟨by rw [List.length_append, h.1]; rfl, hb⟩

theorem putHeader_runs {dataSize : Nat} (hlen : b.length = total) (hroom : 44 ≤ total) (htotal : total ≤ maxWavBytes) :
    Runs allowed (putHeader s dataSize b) (Upto (header s dataSize) 44 total) := by
  have h₀ : Upto [] 0 total b := ⟨rfl, hlen, List.nil_prefix⟩
  refine (put4_upto h₀ (by omega) htotal _ _ _ _).bind fun b₁ h₁ => ?_
  refine (putU32_upto h₁ (by omega) htotal _).bind fun b₂ h₂ => ?_
  refine (put4_upto h₂ (by omega) htotal _ _ _ _).bind fun b₃ h₃ => ?_
  refine (put4_upto h₃ (by omega) htotal _ _ _ _).bind fun b₄ h₄ => ?_
  refine (putU32_upto h₄ (by omega) htotal _).bind fun b₅ h₅ => ?_
  refine (putU16_upto h₅ (by omega) htotal _).bind fun b₆ h₆ => ?_
  refine (putU16_upto h₆ (by omega) htotal _).bind fun b₇ h₇ => ?_
  refine (putU32_upto h₇ (by omega) htotal _).bind fun b₈ h₈ => ?_
  refine (putU32_upto h₈ (by omega) htotal _).bind fun b₉ h₉ => ?_
  refine (putU16_upto h₉ (by omega) htotal _).bind fun b₁₀ h₁₀ => ?_
  refine (putU16_upto h₁₀ (by omega) htotal _).bind fun b₁₁ h₁₁ => ?_
  refine (put4_upto h₁₁ (by omega) htotal _ _ _ _).bind fun b₁₂ h₁₂ => ?_
  exact putU32_upto h₁₂ (by omega) htotal _

/-- The 16 bits of a sample, as a CARDINAL. -/
def bits16 (v : Int) : Nat := (if v < 0 then v + 65536 else v).toNat

/-- The samples as they are written. -/
def sampleBytes (gain : ℚ) (xs : List ℚ) : List Byte := xs.flatMap fun x => bytes16 (bits16 (toI16 x gain))

theorem length_sampleBytes (gain : ℚ) (xs : List ℚ) : (sampleBytes gain xs).length = 2 * xs.length := by
  rw [sampleBytes, List.length_flatMap]
  simp [bytes16, Nat.mul_comm]

/-- The samples from `i` on. -/
def Holds (s : Sound) (i : Nat) (xs : List ℚ) : Prop := ∀ j x, xs[j]? = some x → s.samples[i + j]? = some (some x)

theorem runs_any (x : Except Fault (List Byte)) : Runs (fun _ => True) x fun _ => True := by
  cases x with
  | ok a => exact trivial
  | error e => exact trivial

theorem get_value {i : Nat} : Runs (fun _ => True) (s.get i) fun x => i < maxSamples ∧ s.samples[i]? = some (some x) := by
  rw [Sound.get]
  split_ifs with hi
  · exact trivial
  · rcases hget : s.samples[i]? with _ | _ | x
    · exact trivial
    · exact trivial
    · exact ⟨not_le.1 hi, rfl⟩

/-- There are not too many samples in a sound that is written. -/
theorem putSamples_count {gain : ℚ} {i : Nat} (hi : i ≤ maxSamples) (off : Nat) (b : List Byte) :
    Runs (fun _ => True) (putSamples s gain i off b) fun _ => s.count ≤ maxSamples := by
  rw [putSamples]
  split_ifs with hlt
  · exact get_value.bind fun x hx => (runs_any _).bind fun b₁ _ => (runs_any _).bind fun b₂ _ => putSamples_count hx.1 _ _
  · exact Runs.ok (by omega)
termination_by s.count - i

theorem putSamples_value {p b : List Byte} {off i : Nat} {gain : ℚ} (hi : i ≤ s.count) (h : Filled p total b) (hoff : off = p.length)
    (hroom : p.length + 2 * (s.count - i) ≤ total) (htotal : total ≤ maxWavBytes) :
    Runs (fun _ => True) (putSamples s gain i off b) fun b' =>
      ∃ xs, xs.length = s.count - i ∧ Holds s i xs ∧ Filled (p ++ sampleBytes gain xs) total b' := by
  rw [putSamples]
  split_ifs with hlt
  · refine get_value.bind fun x hx => ?_
    refine (put_end h hoff (by omega) htotal _).bind fun b₁ h₁ => ?_
    have hlen : ∀ y : Byte, (p ++ [y]).length = p.length + 1 := fun _ => List.length_append
    refine (put_end h₁ (by rw [hlen, hoff]) (by rw [hlen]; omega) htotal _).bind fun b₂ h₂ => ?_
    rw [List.append_assoc] at h₂
    have hlen₂ : (p ++ bytes16 (bits16 (toI16 x gain))).length = p.length + 2 := List.length_append
    change Filled (p ++ bytes16 (bits16 (toI16 x gain))) total b₂ at h₂
    refine (putSamples_value hlt h₂ (by rw [hlen₂, hoff]) (by rw [hlen₂]; omega) htotal).mono ?_
    rintro b' ⟨xs, hxs, hholds, hfilled⟩
    refine ⟨x :: xs, by rw [List.length_cons]; omega, fun j y hj => ?_, ?_⟩
    · cases j with
      | zero =>
        rw [List.getElem?_cons_zero] at hj
        rw [Nat.add_zero, hx.2, hj]
      | succ j =>
        rw [List.getElem?_cons_succ] at hj
        rw [← hholds j y hj]
        congr 1
        omega
    · rw [sampleBytes, List.flatMap_cons, ← List.append_assoc]
      exact hfilled
  · refine Runs.ok ⟨[], by rw [List.length_nil]; omega, fun j x hj => by simp at hj, ?_⟩
    rwa [sampleBytes, List.flatMap_nil, List.append_nil]
termination_by s.count - i

/-- What is in the file that was written. -/
theorem writeWav_file {env : WriteEnv} {volume : ℚ} {file : List Byte} (h : writeWav env s volume = .ok (true, file)) :
    0 < s.count ∧ s.count ≤ maxSamples ∧ ∃ xs, xs.length = s.count ∧ Holds s 0 xs ∧
      file = header s (s.count * 2) ++ sampleBytes (if volume < 0 then 0 else volume) xs := by
  have hruns : Runs (fun _ => True) (writeWav env s volume) fun r => r.1 = true →
      0 < s.count ∧ s.count ≤ maxSamples ∧ ∃ xs, xs.length = s.count ∧ Holds s 0 xs ∧
        r.2 = header s (s.count * 2) ++ sampleBytes (if volume < 0 then 0 else volume) xs := by
    rw [writeWav]
    by_cases hcount : s.count = 0
    · rw [if_pos hcount]
      exact fun h => absurd h Bool.false_ne_true
    rw [if_neg hcount]
    dsimp only
    generalize hgain : (if volume < 0 then 0 else volume) = gain
    by_cases hgrants : env.grants = false
    · rw [if_pos hgrants]
      exact fun h => absurd h Bool.false_ne_true
    rw [if_neg hgrants]
    by_cases hmany : maxSamples < s.count
    · refine Runs.bind (Q := fun _ => True) (runs_any _) fun b _ => ?_
      exact (putSamples_count (Nat.zero_le _) 44 b).bind fun _ hle => absurd hle (not_le.2 hmany)
    have hmax : maxSamples = 882000 := rfl
    have hbytes : maxWavBytes = 44 + maxSamples * 2 := rfl
    have hdata : wrap (s.count * 2) = s.count * 2 := wrap_of_lt (by omega)
    have htotal : wrap (44 + s.count * 2) = 44 + s.count * 2 := wrap_of_lt (by omega)
    rw [hdata, htotal]
    have hjunk : ((List.range (44 + s.count * 2)).map env.junk).length = 44 + s.count * 2 := by
      rw [List.length_map, List.length_range]
    refine (putHeader_runs hjunk (by omega) (by omega)).bind fun b hb => ?_
    refine (putSamples_value (Nat.zero_le _) hb.2 hb.1.symm (by rw [hb.1]; omega) (by omega)).bind ?_
    rintro b' ⟨xs, hxs, hholds, hlen, hfilled⟩
    by_cases hcreates : env.creates = false
    · rw [if_pos hcreates]
      exact fun h => absurd h Bool.false_ne_true
    rw [if_neg hcreates]
    intro hwrote
    rw [decide_eq_true_eq] at hwrote
    refine ⟨by omega, by omega, xs, hxs, hholds, ?_⟩
    have heq : header s (s.count * 2) ++ sampleBytes gain xs = b' := by
      refine hfilled.eq_of_length ?_
      rw [hlen, List.length_append, hb.1, length_sampleBytes, hxs]
      omega
    dsimp only
    rw [hwrote, heq, List.take_of_length_le hlen.le]
  rw [h] at hruns
  exact hruns rfl

end writing

/-! ## Reading back -/

section back
variable {s : Sound} {xs : List ℚ} {gain : ℚ} {i n : Nat}

theorem toNat_byte (v : Nat) : (BitVec.ofNat 8 (v &&& 0xFF)).toNat = v % 256 := by
  rw [BitVec.toNat_ofNat, Nat.and_two_pow_sub_one_eq_mod v 8]
  omega

/-- A file with the header and the samples. -/
def fileOf (s : Sound) (gain : ℚ) (xs : List ℚ) : List Byte := header s (s.count * 2) ++ sampleBytes gain xs

theorem length_header (s : Sound) (dataSize : Nat) : (header s dataSize).length = 44 := by
  simp [header, letters4, bytes16, bytes32]

theorem length_fileOf (gain : ℚ) (hxs : xs.length = s.count) : (fileOf s gain xs).length = 44 + s.count * 2 := by
  rw [fileOf, List.length_append, length_header, length_sampleBytes, hxs]
  omega

theorem byteAt_header (hi : i < 44) : byteAt (fileOf s gain xs) i = byteAt (header s (s.count * 2)) i := by
  rw [byteAt, byteAt, fileOf, List.getD_append _ _ _ _ (by rwa [length_header])]

theorem byteAt_samples (j : Nat) : byteAt (fileOf s gain xs) (44 + j) = byteAt (sampleBytes gain xs) j := by
  rw [byteAt, byteAt, fileOf, List.getD_append_right _ _ _ _ (by rw [length_header]; omega), length_header,
    Nat.add_sub_cancel_left]

theorem byteAt_sampleBytes {x : ℚ} (hx : xs[i]? = some x) :
    byteAt (sampleBytes gain xs) (2 * i) = BitVec.ofNat 8 (bits16 (toI16 x gain) &&& 0xFF) ∧
      byteAt (sampleBytes gain xs) (2 * i + 1) = BitVec.ofNat 8 ((bits16 (toI16 x gain) / 256) &&& 0xFF) := by
  induction xs generalizing i with
  | nil => simp at hx
  | cons y ys ih =>
    rw [sampleBytes, List.flatMap_cons, ← sampleBytes, bytes16]
    cases i with
    | zero =>
      rw [List.getElem?_cons_zero] at hx
      obtain rfl := Option.some_inj.1 hx
      exact ⟨rfl, rfl⟩
    | succ i =>
      rw [List.getElem?_cons_succ] at hx
      exact ih hx

/-- The sample that is read where a sample was written. -/
theorem sampleAt_fileOf {x : ℚ} (hx : xs[i]? = some x) :
    sampleAt (fileOf s gain xs) 16 (44 + 2 * i) = (toI16 x gain : ℚ) / 32768 := by
  obtain ⟨h0, h1⟩ := @byteAt_sampleBytes xs gain i x hx
  obtain ⟨hlow, hhigh⟩ := toI16_range x gain
  have hu : u16At (fileOf s gain xs) (44 + 2 * i) = bits16 (toI16 x gain) := by
    rw [u16At, Nat.add_assoc, byteAt_samples, byteAt_samples, h0, h1, toNat_byte, toNat_byte, bits16]
    split_ifs <;> omega
  have hval : (if (32768 : Int) ≤ (bits16 (toI16 x gain) : Int) then (bits16 (toI16 x gain) : Int) - 65536
      else bits16 (toI16 x gain)) = toI16 x gain := by
    rw [bits16]
    split_ifs <;> omega
  rw [sampleAt, if_neg (show ¬ 16 = 8 by decide), if_pos rfl, hu, hval]

theorem u16At_header (hi : i + 1 < 44) (h0 : byteAt (header s (s.count * 2)) i = BitVec.ofNat 8 (n &&& 0xFF))
    (h1 : byteAt (header s (s.count * 2)) (i + 1) = BitVec.ofNat 8 ((n / 256) &&& 0xFF)) :
    u16At (fileOf s gain xs) i = n % 65536 := by
  rw [u16At, byteAt_header (by omega), byteAt_header hi, h0, h1, toNat_byte, toNat_byte]
  omega

theorem u32At_header (hi : i + 3 < 44) (h0 : byteAt (header s (s.count * 2)) i = BitVec.ofNat 8 (n &&& 0xFF))
    (h1 : byteAt (header s (s.count * 2)) (i + 1) = BitVec.ofNat 8 ((n / 256) &&& 0xFF))
    (h2 : byteAt (header s (s.count * 2)) (i + 2) = BitVec.ofNat 8 ((n / 65536) &&& 0xFF))
    (h3 : byteAt (header s (s.count * 2)) (i + 3) = BitVec.ofNat 8 ((n / 16777216) &&& 0xFF)) :
    u32At (fileOf s gain xs) i = n % 4294967296 := by
  rw [u32At, byteAt_header (by omega), byteAt_header (by omega), byteAt_header (by omega), byteAt_header hi, h0, h1, h2,
    h3, toNat_byte, toNat_byte, toNat_byte, toNat_byte]
  omega

theorem headers_fileOf (hxs : xs.length = s.count) (hmax : s.count ≤ maxSamples) :
    headers (fileOf s gain xs) 12 = [12, 36] := by
  have hlen := length_fileOf gain hxs
  have hmax' : maxSamples = 882000 := rfl
  have hfmt : u32At (fileOf s gain xs) (12 + 4) = 16 := by
    refine (u32At_header (n := 16) (by decide) ?_ ?_ ?_ ?_).trans (by decide) <;>
      simp [byteAt, header, letters4, bytes16, bytes32]
  have hdata : u32At (fileOf s gain xs) (36 + 4) = s.count * 2 := by
    refine (u32At_header (n := s.count * 2) (by decide) ?_ ?_ ?_ ?_).trans (Nat.mod_eq_of_lt (by omega)) <;>
      simp [byteAt, header, letters4, bytes16, bytes32]
  rw [headers, if_pos (by omega), hfmt, headers, if_pos (by omega), hdata, headers, if_neg (by omega)]

theorem fileOf_chunks (gain : ℚ) (hxs : xs.length = s.count) (hmax : s.count ≤ maxSamples) :
    isWave (fileOf s gain xs) = true ∧ lastFmt (fileOf s gain xs) = some 12 ∧ lastData (fileOf s gain xs) = some 36 := by
  have hbyte : ∀ i, i < 44 → byteAt (fileOf s gain xs) i = byteAt (header s (s.count * 2)) i := fun i hi => byteAt_header hi
  have hfmt₁ : isFmt (fileOf s gain xs) 12 = true := by
    rw [isFmt, hbyte _ (by decide), hbyte _ (by decide)]
    simp [byteAt, header, letters4, bytes32]
  have hfmt₂ : isFmt (fileOf s gain xs) 36 = false := by
    rw [isFmt, hbyte _ (by decide), hbyte _ (by decide)]
    simp [byteAt, header, letters4, bytes16, bytes32, letter]
  have hdata₁ : isData (fileOf s gain xs) 12 = false := by
    rw [isData, hbyte _ (by decide), hbyte _ (by decide)]
    simp [byteAt, header, letters4, bytes32, letter]
  have hdata₂ : isData (fileOf s gain xs) 36 = true := by
    rw [isData, hbyte _ (by decide), hbyte _ (by decide)]
    simp [byteAt, header, letters4, bytes16, bytes32]
  refine ⟨?_, ?_, ?_⟩
  · rw [isWave, hbyte _ (by decide), hbyte _ (by decide)]
    simp [byteAt, header, letters4, bytes32]
  · rw [lastFmt, headers_fileOf hxs hmax, List.filter_cons, List.filter_cons, hfmt₁, hfmt₂]
    rfl
  · rw [lastData, headers_fileOf hxs hmax, List.filter_cons, List.filter_cons, hdata₁, hdata₂]
    rfl

/-- A file that is loaded as a whole. -/
def readingOf (bs : List Byte) : Reading := ⟨bs.length, bs, le_rfl⟩

theorem readFmt_fileOf (hxs : xs.length = s.count) (hpos : 0 < s.count) (hmax : s.count ≤ maxSamples) {w : World}
    (hw : Live w) (hbytes : w.bytes = fileOf s gain xs) (s₀ : Sound) {env : Env} (hgrants : env.grantsSamples = true) :
    Runs (fun _ => False) (readFmt env w.bytes.length (12 + 8) (36 + 8) (s.count * 2) s₀ w) fun r =>
      r.1.1 = decide (s.channels % 65536 = 1 ∨ s.channels % 65536 = 2) := by
  have hlen : w.bytes.length = 44 + s.count * 2 := by rw [hbytes, length_fileOf gain hxs]
  have htag : u16At w.bytes 20 = 1 := by
    rw [hbytes]
    refine (u16At_header (n := 1) (by decide) ?_ ?_).trans (by decide) <;>
      simp [byteAt, header, letters4, bytes16, bytes32]
  have hchannels : u16At w.bytes 22 = s.channels % 65536 := by
    rw [hbytes]
    refine u16At_header (n := s.channels) (by decide) ?_ ?_ <;> simp [byteAt, header, letters4, bytes16, bytes32]
  have hbits : u16At w.bytes 34 = 16 := by
    rw [hbytes]
    refine (u16At_header (n := 16) (by decide) ?_ ?_).trans (by decide) <;>
      simp [byteAt, header, letters4, bytes16, bytes32]
  rw [readFmt]
  refine (getU16_reads hw (by omega)).bind fun tag ht => (getU16_reads hw (by omega)).bind fun channels hc =>
    (getU32_reads hw (by omega)).bind fun sr _ => (getU16_reads hw (by omega)).bind fun bits hb => ?_
  rw [ht, hc, hb, show 12 + 8 = 20 from rfl, show 20 + 2 = 22 from rfl, show 20 + 14 = 34 from rfl, htag, hchannels, hbits]
  by_cases hok : s.channels % 65536 = 1 ∨ s.channels % 65536 = 2
  · have hif : ¬ (1 ≠ 1 ∨ s.channels % 65536 ≠ 1 ∧ s.channels % 65536 ≠ 2) := by
      rintro (h | ⟨h1, h2⟩)
      · exact h rfl
      · exact hok.elim h1 h2
    have hdata : (if w.bytes.length < 36 + 8 + s.count * 2 then w.bytes.length - (36 + 8) else s.count * 2) =
        s.count * 2 := if_neg (by omega)
    rw [if_neg hif, if_neg (show ¬ (16 ≠ 8 ∧ 16 ≠ 16 ∧ 16 ≠ 24 ∧ 16 ≠ 32) by decide), hdata, decode]
    have hn : min (s.count * 2 / (16 / 8)) maxSamples = s.count := by
      rw [show 16 / 8 = 2 from rfl, Nat.mul_div_cancel _ (by decide)]
      exact Nat.min_eq_left hmax
    rw [hn]
    have hstart : Taken w.bytes 16 (36 + 8) s.count 0 (List.replicate s.count none) :=
      ⟨List.length_replicate, fun j hj => absurd hj (Nat.not_lt_zero j)⟩
    rw [if_neg (by rw [hgrants]; exact Bool.true_eq_false.mp)]
    refine (samplesLoop_value hw (.inr (.inl rfl)) hmax (by omega) (Nat.zero_le _) hstart).bind fun samples _ => ?_
    refine Runs.bindS (Q := fun _ => True) ?_ fun _ _ _ => Runs.ok (decide_eq_true hok).symm
    rw [deallocate, if_pos (by rw [hw.released, hw.allocated]; exact Nat.one_pos)]
    exact trivial
  · have hif : 1 ≠ 1 ∨ s.channels % 65536 ≠ 1 ∧ s.channels % 65536 ≠ 2 := .inr (not_or.1 hok)
    rw [if_pos hif, decide_eq_false hok]
    exact (fails_ends hw).mono fun _ h => h.2

/-- A file that was written is read, if it has one or two channels. -/
theorem readWav_fileOf (gain : ℚ) (hxs : xs.length = s.count) (hpos : 0 < s.count) (hmax : s.count ≤ maxSamples) (s₀ : Sound) :
    Runs (fun _ => False) (readWav ⟨some (readingOf (fileOf s gain xs)), true, true⟩ s₀ World.start) fun r =>
      r.1.1 = decide (s.channels % 65536 = 1 ∨ s.channels % 65536 = 2) := by
  have hlen := length_fileOf gain hxs
  have hmax' : maxSamples = 882000 := rfl
  have hbytes : maxWavBytes = 44 + maxSamples * 2 := rfl
  have hchunks := fileOf_chunks gain hxs hmax
  have hsize : u32At (fileOf s gain xs) (36 + 4) = s.count * 2 := by
    refine (u32At_header (n := s.count * 2) (by decide) ?_ ?_ ?_ ?_).trans (Nat.mod_eq_of_lt (by omega)) <;>
      simp [byteAt, header, letters4, bytes16, bytes32]
  generalize hbs : fileOf s gain xs = bs at *
  have hlive : Live ⟨bs, 1, 1, 0⟩ := ⟨rfl, rfl, rfl, by dsimp only; omega⟩
  have hhas : hasData bs := by
    have hmem := List.mem_filter.1 (List.mem_of_getLast? hchunks.2.2)
    exact ⟨36, hmem.1, hmem.2⟩
  rw [readWav]
  dsimp only [readingOf]
  rw [if_neg (by omega), if_neg Bool.true_eq_false.mp]
  change Runs _ ((if bs.length < 44 then _ else readChunks _ bs.length s₀ : Proc (Bool × Sound)) ⟨bs, 1, 1, 0⟩) _
  rw [if_neg (by omega)]
  refine readChunks_eq hlive (by dsimp only; omega) ?_ fun _ _ p hp dataOff dataLen hfound => ?_
  · rintro (h | h | h) r - -
    · exact absurd (hchunks.1.symm.trans h) Bool.true_eq_false.mp
    · exact absurd hhas h
    · exact absurd (hchunks.2.1.symm.trans h) (Option.some_ne_none 12)
  · obtain rfl : p = 12 := Option.mem_unique hp hchunks.2.1
    rw [found, (foldl_keepOf _ _).2] at hfound
    change Option.map _ (lastData bs) = _ at hfound
    rw [hchunks.2.2, Option.map_some, hsize] at hfound
    obtain ⟨rfl, rfl⟩ := Prod.mk.inj (Option.some_inj.1 hfound)
    exact readFmt_fileOf hxs hpos hmax hlive hbs.symm s₀ rfl

/-- What is read back of a file that was written. -/
theorem readWav_writeWav {env : WriteEnv} {volume : ℚ} {file : List Byte} (hwrite : writeWav env s volume = .ok (true, file))
    (s₀ : Sound) : ∃ r, readWav ⟨some (readingOf file), true, true⟩ s₀ World.start = .ok r ∧
      (r.1.1 = true ↔ s.channels % 65536 = 1 ∨ s.channels % 65536 = 2) ∧
      (r.1.1 = true → r.1.2.count = s.count ∧ ∀ i, i < s.count → ∃ x, s.samples[i]? = some (some x) ∧
        r.1.2.samples[i]? = some (some ((toI16 x (if volume < 0 then 0 else volume) : ℚ) / 32768))) := by
  obtain ⟨hpos, hmax, xs, hxs, hholds, rfl⟩ := writeWav_file hwrite
  generalize (if volume < 0 then 0 else volume) = gain at *
  change ∃ r, readWav ⟨some (readingOf (fileOf s gain xs)), true, true⟩ s₀ World.start = .ok r ∧ _
  obtain ⟨r, hrun, hok⟩ := (readWav_fileOf gain hxs hpos hmax s₀).succeeds
  refine ⟨r, hrun, by rw [hok, decide_eq_true_eq], fun htrue => ?_⟩
  obtain ⟨f, p, q, hfile, hp, hq, hsampled⟩ := readWav_sampled hrun htrue
  obtain rfl := Option.some_inj.1 hfile
  have hchunks := fileOf_chunks gain hxs hmax
  obtain rfl := Option.some_inj.1 (hchunks.2.1.symm.trans hp)
  obtain rfl := Option.some_inj.1 (hchunks.2.2.symm.trans hq)
  obtain ⟨-, hcount, -, hsamples⟩ := hsampled
  have hlen := length_fileOf gain hxs
  have hmax' : maxSamples = 882000 := rfl
  have hbits : bitsAt (fileOf s gain xs) 12 = 16 := by
    refine (u16At_header (n := 16) (by decide) ?_ ?_).trans (by decide) <;>
      simp [byteAt, header, letters4, bytes16, bytes32]
  have hsize : u32At (fileOf s gain xs) (36 + 4) = s.count * 2 := by
    refine (u32At_header (n := s.count * 2) (by decide) ?_ ?_ ?_ ?_).trans (Nat.mod_eq_of_lt (by omega)) <;>
      simp [byteAt, header, letters4, bytes16, bytes32]
  have hn : r.1.2.count = s.count := by
    rw [hcount, sampleCount]
    change min ((if (fileOf s gain xs).length < 36 + 8 + u32At (fileOf s gain xs) (36 + 4) then _
      else u32At (fileOf s gain xs) (36 + 4)) / (bitsAt (fileOf s gain xs) 12 / 8)) maxSamples = _
    rw [hbits, hsize, if_neg (by omega), show 16 / 8 = 2 from rfl, Nat.mul_div_cancel _ (by decide)]
    exact Nat.min_eq_left hmax
  refine ⟨hn, fun i hi => ?_⟩
  have hi' : i < xs.length := by omega
  have hx : xs[i]? = some xs[i] := List.getElem?_eq_getElem hi'
  refine ⟨xs[i], by rw [← hholds i _ hx, Nat.zero_add], ?_⟩
  have hsample : r.1.2.samples[i]? = some (some (sampleAt (fileOf s gain xs) (bitsAt (fileOf s gain xs) 12)
      (36 + 8 + i * (bitsAt (fileOf s gain xs) 12 / 8)))) := hsamples i (by omega)
  rw [hbits, show 16 / 8 = 2 from rfl, show 36 + 8 = 44 from rfl, Nat.mul_comm i 2] at hsample
  rw [hsample, sampleAt_fileOf hx]

end back

/-- The samples of a file are the values of their groups of bytes just if no group of 32 bits is negative, and those of
a file that was written are the ones it was written from, as 16 bits. -/
theorem readWav_values (env : Env) (out : WriteEnv) (s : Sound) (volume : ℚ) :
    (∀ r : (Bool × Sound) × World, readWav env s World.start = .ok r → r.1.1 = true →
      ∃ f p q, env.file = some f ∧ lastFmt f.loaded = some p ∧ lastData f.loaded = some q ∧
        (Decoded f.loaded p q r.1.2 ↔ NoNegative32 f.loaded p q)) ∧
    ∀ file : List Byte, writeWav out s volume = .ok (true, file) →
      ∀ s₀, ∃ r, readWav ⟨some (readingOf file), true, true⟩ s₀ World.start = .ok r ∧
        (r.1.1 = true ↔ s.channels % 65536 = 1 ∨ s.channels % 65536 = 2) ∧
        (r.1.1 = true → r.1.2.count = s.count ∧ ∀ i, i < s.count → ∃ x, s.samples[i]? = some (some x) ∧
          r.1.2.samples[i]? = some (some ((toI16 x (if volume < 0 then 0 else volume) : ℚ) / 32768))) := by
  refine ⟨fun r hrun htrue => ?_, fun file hwrite s₀ => readWav_writeWav hwrite s₀⟩
  obtain ⟨f, p, q, hfile, hp, hq, hsampled⟩ := readWav_sampled hrun htrue
  exact ⟨f, p, q, hfile, hp, hq, hsampled.decoded_iff⟩

/-- Two samples, one of them beyond the range. -/
def twoSamples : Sound := ⟨44100, 2, 2, (1, 44100), [some (1 / 2), some (-2)]⟩

def plainEnv : WriteEnv := ⟨true, fun _ => 0, true, 48⟩

/-- The file of the two samples, read again. -/
theorem readWav_twoSamples : ∃ file r, writeWav plainEnv twoSamples 1 = .ok (true, file) ∧
    readWav ⟨some (readingOf file), true, true⟩ twoSamples World.start = .ok r ∧ r.1.2.count = 2 := by
  have hwrite : ∃ file, writeWav plainEnv twoSamples 1 = .ok (true, file) := by
    have hok : Except.map (fun r => r.1) (writeWav plainEnv twoSamples 1) = .ok true := by decide +kernel
    generalize writeWav plainEnv twoSamples 1 = run at hok ⊢
    rcases run with e | ⟨ok, file⟩
    · cases hok
    · obtain rfl : ok = true := Except.ok.inj hok
      exact ⟨file, rfl⟩
  obtain ⟨file, hwrite⟩ := hwrite
  have hvalues := readWav_values ⟨some (readingOf file), true, true⟩ plainEnv twoSamples 1
  obtain ⟨r, hrun, htrue, hback⟩ := hvalues.2 file hwrite twoSamples
  exact ⟨file, r, hwrite, hrun, (hback (htrue.2 (.inr rfl))).1⟩

/-- One sample of 32 bits, which is -1. -/
def minusOne : Reading :=
  readingOf (letters4 'R' 'I' 'F' 'F' ++ bytes32 40 ++ letters4 'W' 'A' 'V' 'E' ++ letters4 'f' 'm' 't' ' ' ++ bytes32 16 ++
    bytes16 1 ++ bytes16 1 ++ bytes32 44100 ++ bytes32 176400 ++ bytes16 4 ++ bytes16 32 ++ letters4 'd' 'a' 't' 'a' ++
    bytes32 4 ++ bytes32 0xFFFFFFFF)

/-- The sample comes out as almost 2. -/
theorem readWav_minusOne : ∃ r, readWav ⟨some minusOne, true, true⟩ ⟨0, 0, 0, (0, 0), []⟩ World.start = .ok r ∧
    r.1.1 = true ∧ ∀ p q, ¬ Decoded minusOne.loaded p q r.1.2 := by
  have hrun : Except.map (fun r => (r.1.1, r.1.2.count, r.1.2.samples))
      (readWav ⟨some minusOne, true, true⟩ ⟨0, 0, 0, (0, 0), []⟩ World.start) =
        .ok (true, 1, [some (4294967295 / 2147483648)]) := by decide +kernel
  generalize readWav ⟨some minusOne, true, true⟩ ⟨0, 0, 0, (0, 0), []⟩ World.start = run at hrun ⊢
  rcases run with e | r
  · cases hrun
  · obtain ⟨htrue, hrest⟩ := Prod.mk.inj (Except.ok.inj hrun)
    obtain ⟨hcount, hsamples⟩ := Prod.mk.inj hrest
    refine ⟨r, rfl, htrue, fun p q hdecoded => ?_⟩
    obtain ⟨x, hx, -, -, hlt⟩ := hdecoded 0 (by rw [hcount]; exact Nat.one_pos)
    rw [hsamples] at hx
    obtain rfl := Option.some_inj.1 (Option.some_inj.1 hx)
    norm_num at hlt

end NewM2.Winrt.WavFile
