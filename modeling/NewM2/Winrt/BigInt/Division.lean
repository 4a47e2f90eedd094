import Mathlib
import NewM2.Winrt.BigInt.Arith

/-!
# Division (`library/winrtmod/BigInt.mod`)

`binDivMod` brings the bits of the dividend down one after the other. Before the bit `i` the remainder is
that of the bits above, and the quotient has its bits from `i` on. -/

namespace NewM2.Winrt.BigInt
open Limbs Segment

/-- `IF rr^.len = 0 THEN SetL(rr, 0, 1); rr^.len := 1 ELSE SetL(rr, 0, GetL(rr, 0) BOR 1) END` -/
def setBit0 (rr : Rep) : Except Fault Rep :=
  if rr.len = 0 then do
    let l ← assign rr.limbs 0 1
    .ok { rr with limbs := l, len := 1 }
  else do
    let x ← index rr.limbs 0
    let l ← assign rr.limbs 0 (x ||| 1)
    .ok { rr with limbs := l }

/-- `lq^[i DIV 64] := lq^[i DIV 64] BOR (VAL(CARDINAL, 1) SHL (i MOD 64))` -/
def setBit (lq : List Word) (i : Nat) : Except Fault (List Word) := do
  let x ← index lq (i / 64)
  assign lq (i / 64) (x ||| (1 : Word) <<< (i % 64))

section storage
variable (M : Storage)

/-- The loop of `BinDivMod`, with the bits below `i` to come: the limbs of `qq`, and `rr`. -/
def binDivLoop (la : List Word) (b : Rep) : Nat → List Word → Rep → Except Fault (List Word × Rep)
  | 0, lq, rr => .ok (lq, rr)
  | i + 1, lq, rr => do
    let rr ← shlOne M rr
    let x ← index la (i / 64)
    let rr ← (if (x >>> (i % 64)) &&& 1 ≠ 0 then setBit0 rr else .ok rr)
    if 0 ≤ (← magCmp rr b) then
      let rr ← magSubIP rr b
      let lq ← setBit lq i
      binDivLoop la b i lq rr
    else binDivLoop la b i lq rr

def binDivMod (a b : Rep) : Except Fault (Rep × Rep) := do
  let qq := newRep M a.len
  let lq ← zeroLoop a.len 0 qq.limbs
  let rr := newRep M (b.len + 2)
  let nbits ← bitLength a
  let (lq, rr) ← binDivLoop M a.limbs b nbits lq rr
  let qq ← norm { qq with len := a.len, limbs := lq }
  let rr ← norm rr
  .ok (qq, rr)

/-- The branch of `DivMod` for a divisor of one limb. -/
def divMod1 (a b : Rep) : Except Fault (Rep × Rep) := do
  let qq := newRep M a.len
  let (lq, rem) ← divmod1 qq.limbs (some a.limbs) a.len (← index b.limbs 0)
  let qq ← norm { qq with len := a.len, limbs := lq }
  let rr ← fromCard M rem
  .ok (qq, rr)

/-- The result, `q` and `r`. -/
def divMod (a b : Rep) : Except Fault (Bool × Rep × Rep) :=
  if b.sign = 0 then .ok (false, create M, create M)
  else do
    let cmp ← magCmp a b
    if cmp < 0 then
      let r ← copy M a
      .ok (true, create M, r)
    else
      let (qq, rr) ← (if b.len = 1 then divMod1 M a b else binDivMod M a b)
      let qq := if 0 < qq.len then { qq with sign := if a.sign = b.sign then 1 else -1 } else qq
      let rr := if 0 < rr.len then { rr with sign := a.sign } else rr
      .ok (true, qq, rr)

end storage

/-! ## Bits of limbs -/

/-- A bit of the number is a bit of a limb. -/
theorem limb_bit {l : List Word} {i n : Nat} (hi : i < 64 * n) (hn : n ≤ l.length) :
    ∃ h : i / 64 < l.length,
      ((l[i / 64] >>> (i % 64)) &&& 1).toNat = val (l.take n) / 2 ^ i % 2 := by
  have hlt : i / 64 < n := by omega
  refine ⟨by omega, ?_⟩
  have hlimb := getElem_toNat (B := 2 ^ 64) (by norm_num) (digits_full (l.take n))
    (i := i / 64) (by rw [List.length_take]; omega)
  rw [List.getElem_take] at hlimb
  rw [BitVec.toNat_and, BitVec.toNat_ushiftRight, hlimb, Nat.shiftRight_eq_div_pow]
  change val (l.take n) / _ % _ / _ &&& 1 = _
  generalize val (l.take n) = v
  rw [Nat.and_one_is_mod, ← pow_mul]
  have hpow : 2 ^ i = 2 ^ (64 * (i / 64)) * 2 ^ (i % 64) := by
    rw [← pow_add, Nat.div_add_mod]
  have h64 : 2 ^ 64 = 2 ^ (i % 64) * 2 ^ (64 - i % 64) := by
    rw [← pow_add]
    congr 1
    omega
  have hdvd : 2 ∣ 2 ^ (64 - i % 64) :=
    dvd_pow_self 2 (Nat.sub_ne_zero_of_lt (Nat.mod_lt i (by norm_num)))
  rw [hpow, ← Nat.div_div_eq_div_mul, h64, Nat.mod_mul_right_div_self, Nat.mod_mod_of_dvd _ hdvd]

/-- Setting a bit that is clear adds its power of two. -/
theorem or_bit (x : Word) {k : Nat} (hk : k < 64) (hx : x.toNat / 2 ^ k % 2 = 0) :
    (x ||| (1 : Word) <<< k).toNat = x.toNat + 2 ^ k := by
  have hone : ((1 : Word) <<< k).toNat = 2 ^ k := by
    rw [BitVec.toNat_shiftLeft, Nat.shiftLeft_eq, Nat.mod_eq_of_lt]
    · exact Nat.one_mul _
    · exact (Nat.one_mul _).trans_lt (Nat.pow_lt_pow_right (by norm_num) hk)
  have hand : x &&& (1 : Word) <<< k = 0#64 := by
    apply BitVec.eq_of_toNat_eq
    rw [BitVec.toNat_and, hone, Nat.and_two_pow, Nat.testBit_eq_decide_div_mod_eq, hx]
    exact Nat.zero_mul _
  rw [← BitVec.add_eq_or_of_and_eq_zero _ _ hand, BitVec.toNat_add_of_and_eq_zero hand, hone]

/-- One more bit of a dividend. -/
theorem bit_step (n bit : Nat) {d : Nat} (hbit : bit ≤ 1) (hd : 0 < d) :
    (d ≤ 2 * (n % d) + bit → (2 * n + bit) / d = 2 * (n / d) + 1 ∧
      (2 * n + bit) % d = 2 * (n % d) + bit - d) ∧
    (2 * (n % d) + bit < d → (2 * n + bit) / d = 2 * (n / d) ∧ (2 * n + bit) % d = 2 * (n % d) + bit) := by
  have hn := Nat.mod_add_div n d
  have hlt := Nat.mod_lt n hd
  have hsplit : 2 * (n % d) + bit + d * (2 * (n / d)) = 2 * n + bit := by
    nth_rewrite 3 [← hn]
    ring
  constructor
  · intro hle
    refine (Nat.div_mod_unique hd).2 ⟨?_, by omega⟩
    rw [Nat.mul_add, Nat.mul_one]
    omega
  · exact fun h => (Nat.div_mod_unique hd).2 ⟨hsplit, h⟩

/-! ## What the procedures compute -/

section runs
variable {allowed : Fault → Prop} {a b rr : Rep} {m d r : Nat}

theorem setBit0_runs (hr : rr.Mag (2 * r)) (hcap : 0 < rr.limbs.length) :
    Runs allowed (setBit0 rr) fun q => q.Mag (2 * r + 1) ∧ q.limbs.length = rr.limbs.length := by
  have hfits := hr.fits
  rw [setBit0]
  split_ifs with h0
  · refine (assign_runs hcap (fun h => absurd h (by decide)) 1).bind ?_
    rintro _ rfl
    rw [hr.len_eq_zero.1 h0]
    exact Runs.ok ⟨one_limb (by decide) hcap, List.length_set⟩
  · refine (index_runs hcap (fun h => absurd h (by decide))).bind ?_
    rintro _ rfl
    refine (assign_runs hcap (fun h => absurd h (by decide)) _).bind ?_
    rintro _ rfl
    obtain ⟨x, l, hl⟩ := List.exists_cons_of_length_pos hcap
    obtain ⟨k, hk⟩ := Nat.exists_eq_succ_of_ne_zero h0
    have hval := hr.value
    have hnormal := hr.normal (by omega)
    rw [hl, hk, List.take_succ_cons, val_cons] at hval
    -- the number is even, so the lowest bit is clear
    have hbit := or_bit x (k := 0) (by norm_num) (by omega)
    simp only [hl, List.getElem_cons_zero, List.set_cons_zero]
    refine Runs.ok ⟨⟨by rw [hl] at hfits; exact hfits, ?_, fun _ => by dsimp only; omega⟩, by simp⟩
    dsimp only
    rw [hk, List.take_succ_cons, val_cons]
    have hbit' : (x ||| 1).toNat = x.toNat + 1 := hbit
    rw [hbit', ← hval]
    ring

/-- The limbs with a bit set that was clear. -/
theorem setBit_runs {lq : List Word} {i n q : Nat} (hi : i < 64 * n) (hn : n ≤ lq.length)
    (hval : val (lq.take n) = q * 2 ^ (i + 1)) (hidx : maxIdx + 1 < n → allowed .indexException) :
    Runs allowed (setBit lq i) fun lq' =>
      lq'.length = lq.length ∧ val (lq'.take n) = (2 * q + 1) * 2 ^ i := by
  have hlt : i / 64 < n := by omega
  obtain ⟨hlen, hbit⟩ := limb_bit hi hn
  refine (index_runs hlen (fun h => hidx (by omega))).bind ?_
  rintro _ rfl
  refine (assign_runs hlen (fun h => hidx (by omega)) _).mono ?_
  rintro _ rfl
  refine ⟨List.length_set, ?_⟩
  have hclear : lq[i / 64].toNat / 2 ^ (i % 64) % 2 = 0 := by
    rw [BitVec.toNat_and, BitVec.toNat_ushiftRight, Nat.shiftRight_eq_div_pow] at hbit
    change _ &&& 1 = _ at hbit
    have hdiv : q * 2 ^ (i + 1) / 2 ^ i = 2 * q := by
      rw [pow_succ, ← Nat.mul_assoc, Nat.mul_right_comm, Nat.mul_div_cancel _ (Nat.two_pow_pos i),
        Nat.mul_comm]
    rw [Nat.and_one_is_mod, hval, hdiv] at hbit
    omega
  have hset := value_set (B := 2 ^ 64) (l := lq.take n) (i := i / 64)
    (lq[i / 64] ||| (1 : Word) <<< (i % 64)) (by rw [List.length_take]; omega)
  rw [List.getElem_take, or_bit _ (Nat.mod_lt i (by norm_num)) hclear, ← List.take_set] at hset
  have hpow : 2 ^ i = 2 ^ (i % 64) * (2 ^ 64) ^ (i / 64) := by
    rw [← pow_mul, ← pow_add, Nat.add_comm, Nat.div_add_mod]
  change val _ + _ = val _ + _ at hset
  rw [hval, Nat.add_mul, ← hpow] at hset
  have hdouble : q * 2 ^ (i + 1) + 2 ^ i = (2 * q + 1) * 2 ^ i := by ring
  omega

variable (M : Storage)

theorem binDivLoop_runs {la lq : List Word} {n i : Nat} (hla : n ≤ la.length) (hb : b.Mag d) (hd : 0 < d)
    (hi : i ≤ 64 * n) (hlq : n ≤ lq.length) (hidx : maxIdx + 1 < n → allowed .indexException)
    (hidx' : limit ≤ 2 * d → allowed .indexException)
    (hq : val (lq.take n) = val (la.take n) / 2 ^ i / d * 2 ^ i)
    (hr : rr.Mag (val (la.take n) / 2 ^ i % d)) (hcap : 0 < rr.limbs.length) :
    Runs allowed (binDivLoop M la b i lq rr) fun p => p.1.length = lq.length ∧
      val (p.1.take n) = val (la.take n) / d ∧ p.2.Mag (val (la.take n) % d) := by
  induction i generalizing lq rr with
  | zero =>
    rw [pow_zero, Nat.div_one] at hq hr
    exact Runs.ok ⟨rfl, hq.trans (Nat.mul_one _), hr⟩
  | succ i ih =>
    obtain ⟨hlimb, hbit⟩ := limb_bit (i := i) (by omega) hla
    have hhalf : val (la.take n) / 2 ^ i = 2 * (val (la.take n) / 2 ^ (i + 1)) +
        val (la.take n) / 2 ^ i % 2 := by
      rw [pow_succ, ← Nat.div_div_eq_div_mul]
      omega
    have hstep := bit_step (val (la.take n) / 2 ^ (i + 1)) (val (la.take n) / 2 ^ i % 2)
      (by omega) hd
    rw [← hhalf] at hstep
    have hlt := Nat.mod_lt (val (la.take n) / 2 ^ (i + 1)) hd
    generalize hbitn : val (la.take n) / 2 ^ i % 2 = bit at *
    generalize hrem : val (la.take n) / 2 ^ (i + 1) % d = r at *
    have hbitlt : bit ≤ 1 := by omega
    rw [binDivLoop]
    refine (shlOne_runs M hr (fun h => hidx' (by omega))).bind ?_
    rintro rr₁ ⟨hr₁, -, hcap₁⟩
    refine (index_runs hlimb (fun h => hidx (by omega))).bind ?_
    rintro _ rfl
    have hset : Runs allowed (if (la[i / 64] >>> (i % 64)) &&& 1 ≠ 0 then setBit0 rr₁ else .ok rr₁)
        fun q => q.Mag (2 * r + bit) ∧ 0 < q.limbs.length := by
      split_ifs with h0
      · have hone : bit = 1 := by
          have := toNat_pos h0
          omega
        rw [hone]
        exact (setBit0_runs hr₁ (hcap₁ hcap)).mono fun q hq => ⟨hq.1, hq.2 ▸ hcap₁ hcap⟩
      · have hzero : bit = 0 := by
          rw [not_not.1 h0] at hbit
          exact hbit.symm
        rw [hzero]
        exact Runs.ok ⟨hr₁, hcap₁ hcap⟩
    refine hset.bind ?_
    rintro rr₂ ⟨hr₂, hcap₂⟩
    refine (magCmp_runs hr₂ hb (fun _ h => hidx' ((hr₂.limit_le h).trans (by omega)))).bind ?_
    rintro _ rfl
    have hcmp : 0 ≤ (((2 * r + bit : Nat) : Int) - d).sign ↔ d ≤ 2 * r + bit := by
      rw [Int.sign_nonneg_iff]
      omega
    by_cases hle : d ≤ 2 * r + bit
    · obtain ⟨hquot, hmod⟩ := hstep.1 hle
      rw [if_pos (hcmp.2 hle)]
      refine (magSubIP_runs hr₂ hb hle (fun h => hidx' ((hr₂.limit_le h).trans (by omega)))).bind ?_
      rintro rr₃ ⟨hr₃, -, hcap₃⟩
      refine (setBit_runs (by omega) hlq hq hidx).bind ?_
      rintro lq' ⟨hlen, hval⟩
      refine (ih (by omega) (hlen ▸ hlq) (hval.trans (by rw [hquot])) (hmod ▸ hr₃)
        (hcap₃ ▸ hcap₂)).mono ?_
      rintro p ⟨h₁, h₂⟩
      exact ⟨h₁.trans hlen, h₂⟩
    · obtain ⟨hquot, hmod⟩ := hstep.2 (not_le.1 hle)
      rw [if_neg (fun h => hle (hcmp.1 h))]
      refine ih (by omega) hlq (hq.trans ?_) (hmod ▸ hr₂) hcap₂
      rw [hquot, pow_succ]
      ring

theorem binDivMod_runs (ha : a.Mag m) (hb : b.Mag d) (hd : 0 < d)
    (hidx : maxIdx + 1 < a.len → allowed .indexException)
    (hidx' : limit ≤ 2 * d → allowed .indexException) :
    Runs allowed (binDivMod M a b) fun p =>
      (p.1.Mag (m / d) ∧ (m / d = 0 → p.1.sign = 0)) ∧ p.2.Mag (m % d) ∧ (m % d = 0 → p.2.sign = 0) := by
  have hcap := le_newRep_cap M a.len
  have hcap' := le_newRep_cap M (b.len + 2)
  have hlt := Nat.mod_lt m hd
  rw [binDivMod]
  refine (zeroLoop_runs (by omega) (fun h => hidx (by omega))).bind ?_
  rintro l₀ ⟨hc₀, hzero⟩
  have hlen₀ := hc₀.length
  rw [slice_of_zero] at hzero
  refine (bitLength_runs ha hidx).bind ?_
  rintro nbits ⟨hbits, hnbits⟩
  have hnone : m / 2 ^ nbits = 0 := Nat.div_eq_of_lt hbits
  have hval : val (a.limbs.take a.len) = m := ha.value
  refine (binDivLoop_runs M ha.fits hb hd hnbits (by omega) hidx hidx' ?_ ?_ ?_).bind ?_
  · rw [hval, hnone, Nat.zero_div, Nat.zero_mul, hzero]
    exact value_replicate_zero _
  · rw [hval, hnone, Nat.zero_mod]
    exact Rep.mag_zero rfl
  · omega
  · rintro ⟨lq, rr⟩ ⟨hlen, hq, hr⟩
    rw [hval] at hq hr
    dsimp only at hlen hq hr ⊢
    have hnorm := @norm_runs allowed { newRep M a.len with len := a.len, limbs := lq }
      (by dsimp only; omega) hidx
    dsimp only at hnorm
    rw [hq] at hnorm
    refine hnorm.bind ?_
    rintro qq ⟨hqq, hqsign, -⟩
    refine (norm_runs hr.fits fun h => hidx' ((hr.limit_le h).trans (by omega))).bind ?_
    rintro rr' ⟨hrr, hrsign, -⟩
    rw [hr.value] at hrr hrsign
    exact Runs.ok ⟨⟨hqq, fun h => hqsign.trans (if_pos h)⟩, hrr, fun h => hrsign.trans (if_pos h)⟩

theorem divMod1_runs (ha : a.Mag m) (hb : b.Mag d) (hlen : b.len = 1)
    (hidx : maxIdx + 1 < a.len → allowed .indexException) :
    Runs allowed (divMod1 M a b) fun p =>
      (p.1.Mag (m / d) ∧ (m / d = 0 → p.1.sign = 0)) ∧ p.2.Mag (m % d) ∧ (m % d = 0 → p.2.sign = 0) := by
  have hbfits := hb.fits
  have hcap := le_newRep_cap M a.len
  have hd : 0 < d := Nat.pos_of_ne_zero (mt hb.len_eq_zero.2 (by omega))
  rw [divMod1]
  refine (index_runs (by omega) (fun h => absurd h (by decide))).bind ?_
  rintro _ rfl
  have hlimb : b.limbs[0].toNat = d := by
    have hval := hb.value
    rw [hlen, val_take_succ (by omega)] at hval
    simpa using hval
  refine (divmod1_runs (fun l hl => by cases hl; exact ha.fits) (by omega) (by omega)).bind ?_
  rintro ⟨lq, rem⟩ ⟨hc, hlt, hval⟩
  have hlen' := hc.length
  dsimp only [Option.getD_some] at hval hlt hlen' ⊢
  rw [hlimb] at hval hlt
  rw [ha.value] at hval
  obtain ⟨hquot, hmod⟩ := (Nat.div_mod_unique hd).2 ⟨(Nat.add_comm _ _).trans hval, hlt⟩
  have hnorm := @norm_runs allowed { newRep M a.len with len := a.len, limbs := lq }
    (by dsimp only; omega) hidx
  dsimp only at hnorm
  refine hnorm.bind ?_
  rintro qq ⟨hqq, hqsign, -⟩
  refine (fromCard_runs M rem).bind ?_
  intro rr hrr
  rw [hquot, hmod]
  refine Runs.ok ⟨⟨hqq, fun h => hqsign.trans (if_pos h)⟩, hrr.mag, fun h => ?_⟩
  rw [hrr.sign, h]
  rfl

/-- A magnitude with a sign, where `sign` is that of `z`. -/
theorem signed_is {q : Rep} {z : Int} (hq : q.Mag z.natAbs) {sign : Int} (hsign : z ≠ 0 → sign = z.sign)
    (h0 : z = 0 → q.sign = 0) : (if 0 < q.len then { q with sign := sign } else q).Is z := by
  split_ifs with h
  · have hz : z ≠ 0 := fun h0 => absurd (hq.len_eq_zero.2 (Int.natAbs_eq_zero.2 h0)) h.ne'
    exact ⟨hq.congr rfl hq.fits rfl, hsign hz⟩
  · have hz : z = 0 := Int.natAbs_eq_zero.1 (hq.len_eq_zero.1 (by omega))
    exact ⟨hq, (h0 hz).trans (by rw [hz, Int.sign_zero])⟩

/-- The sign of a quotient towards zero. -/
theorem sign_tdiv {x y : Int} (h : x.tdiv y ≠ 0) :
    (if x.sign = y.sign then 1 else -1) = (x.tdiv y).sign := by
  have hx : x ≠ 0 := fun h0 => h (by rw [h0, Int.zero_tdiv])
  have hy : y ≠ 0 := fun h0 => h (by rw [h0, Int.tdiv_zero])
  rcases lt_or_gt_of_ne hx with h₁ | h₁ <;> rcases lt_or_gt_of_ne hy with h₂ | h₂
  · rw [Int.sign_eq_neg_one_of_neg h₁, Int.sign_eq_neg_one_of_neg h₂, if_pos rfl]
    exact (Int.sign_eq_one_of_pos (lt_of_le_of_ne (Int.tdiv_nonneg_of_nonpos_of_nonpos h₁.le h₂.le) h.symm)).symm
  · rw [Int.sign_eq_neg_one_of_neg h₁, Int.sign_eq_one_of_pos h₂, if_neg (by decide)]
    have hle := Int.tdiv_nonneg (neg_nonneg.2 h₁.le) h₂.le
    rw [Int.neg_tdiv] at hle
    exact (Int.sign_eq_neg_one_of_neg (lt_of_le_of_ne (neg_nonneg.1 hle) h)).symm
  · rw [Int.sign_eq_one_of_pos h₁, Int.sign_eq_neg_one_of_neg h₂, if_neg (by decide)]
    exact (Int.sign_eq_neg_one_of_neg (lt_of_le_of_ne (Int.tdiv_nonpos_of_nonneg_of_nonpos h₁.le h₂.le) h)).symm
  · rw [Int.sign_eq_one_of_pos h₁, Int.sign_eq_one_of_pos h₂, if_pos rfl]
    exact (Int.sign_eq_one_of_pos (lt_of_le_of_ne (Int.tdiv_nonneg h₁.le h₂.le) h.symm)).symm

theorem sign_tmod {x y : Int} (h : x.tmod y ≠ 0) : x.sign = (x.tmod y).sign := by
  have hx : x ≠ 0 := fun h0 => h (by rw [h0, Int.zero_tmod])
  rcases lt_or_gt_of_ne hx with h₁ | h₁
  · have hle : x.tmod y ≤ 0 := by
      have := Int.tmod_nonneg y (neg_nonneg.2 h₁.le)
      rw [Int.neg_tmod] at this
      omega
    rw [Int.sign_eq_neg_one_of_neg h₁, Int.sign_eq_neg_one_of_neg (lt_of_le_of_ne hle h)]
  · rw [Int.sign_eq_one_of_pos h₁, Int.sign_eq_one_of_pos (lt_of_le_of_ne (Int.tmod_nonneg y h₁.le) h.symm)]

/-- The quotient towards zero and its remainder. -/
theorem divMod_runs {x y : Int} (ha : a.Is x) (hb : b.Is y) (hy : y ≠ 0)
    (hidx : maxIdx + 1 < a.len → allowed .indexException)
    (hidx' : y.natAbs ≤ x.natAbs → maxIdx < b.len → allowed .indexException) :
    Runs allowed (divMod M a b) fun p => p.1 = true ∧ p.2.1.Is (x.tdiv y) ∧ p.2.2.Is (x.tmod y) := by
  have hd : 0 < y.natAbs := Int.natAbs_pos.2 hy
  have hquot : (x.tdiv y).natAbs = x.natAbs / y.natAbs := Int.natAbs_tdiv x y
  have hrem := Int.natAbs_tmod x y
  rw [divMod, if_neg (mt hb.sign_eq_zero.1 hy)]
  refine (magCmp_runs ha.mag hb.mag (fun _ => hidx)).bind ?_
  rintro _ rfl
  by_cases hlt : x.natAbs < y.natAbs
  · have hzero : x.tdiv y = 0 := Int.natAbs_eq_zero.1 (hquot.trans (Nat.div_eq_of_lt hlt))
    rw [if_pos (Int.sign_neg_iff.2 (by omega)), Int.tmod_def, hzero, mul_zero, sub_zero]
    refine (copy_runs M ha hidx).bind ?_
    intro r hr
    exact Runs.ok ⟨rfl, create_is M, hr⟩
  · have hle : y.natAbs ≤ x.natAbs := not_lt.1 hlt
    rw [if_neg (fun h => hlt (by rw [Int.sign_neg_iff] at h; omega))]
    have hparts : Runs allowed (if b.len = 1 then divMod1 M a b else binDivMod M a b) fun p =>
        (p.1.Mag (x.natAbs / y.natAbs) ∧ (x.natAbs / y.natAbs = 0 → p.1.sign = 0)) ∧
          p.2.Mag (x.natAbs % y.natAbs) ∧ (x.natAbs % y.natAbs = 0 → p.2.sign = 0) := by
      split_ifs with hlen
      · exact divMod1_runs M ha.mag hb.mag hlen hidx
      · refine binDivMod_runs M ha.mag hb.mag hd hidx fun h => hidx' hle ?_
        exact Nat.lt_of_not_le fun hle => absurd (hb.mag.two_mul_lt_limit hle) (not_lt.2 h)
    refine hparts.bind ?_
    rintro ⟨qq, rr⟩ ⟨⟨hqq, hqsign⟩, hrr, hrsign⟩
    rw [← hquot] at hqq hqsign
    rw [← hrem] at hrr hrsign
    refine Runs.ok ⟨rfl, ?_, ?_⟩
    · refine signed_is hqq (fun h => ?_) fun h => hqsign (Int.natAbs_eq_zero.2 h)
      rw [ha.sign, hb.sign]
      exact sign_tdiv h
    · exact signed_is hrr (fun h => ha.sign.trans (sign_tmod h)) fun h => hrsign (Int.natAbs_eq_zero.2 h)

end runs
end NewM2.Winrt.BigInt
