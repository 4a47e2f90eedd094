import Mathlib
import NewM2.Winrt.BigInt.Handles

/-!
# Powers modulo a number (`library/winrtmod/BigInt.mod`)

`PowMod` squares and multiplies, and takes the remainder towards zero of each product. The remainder of a
product is that of the product of the remainders, whatever the signs. With exponent 0 no remainder is
taken, so that the result is 1 for the modulus 1 too. -/

namespace NewM2.Winrt.BigInt
open Handles

namespace Proc
variable (M : Storage)

/-- `ShrOne(e)` -/
def shrOne (e : Handle) : Proc Unit := do
  let p ← deref .dangling e
  let p ← pureOn (BigInt.shrOne p)
  update .dangling e p

/-- `GetL(e, 0) BAND 1` -/
def lowBit (e : Handle) : Proc Word := do
  let p ← deref .dangling e
  let x ← pureOn (index p.limbs 0)
  pure (x &&& 1)

/-- `t := Mul(x, y); Dispose(x); ok := DivMod(t, m, q, x); Dispose(q); Dispose(t)`: the new `x`. -/
def mulMod (m x y : Handle) : Proc Handle := do
  let t ← mulInto M x y
  let (_, q, r) ← divMod M t m
  dispose .dangling q
  dispose .dangling t
  pure r

/-- The loop of `PowMod` in at most so many rounds: `result` and `b`. -/
def powModLoop (m e : Handle) : Nat → Handle → Handle → Proc (Handle × Handle)
  | 0, _, _ => pureOn (.error .rounds)
  | n + 1, result, b => do
    if 0 < (← sign e) then
      let bit ← lowBit e
      let result ← (if bit ≠ 0 then mulMod M m result b else pure result)
      shrOne e
      let s ← sign e
      let b ← (if 0 < s then mulMod M m b b else pure b)
      powModLoop m e n result b
    else pure (result, b)

/-- The loop ends, for `e` becomes smaller. -/
def powMod (base exp m : Handle) : Proc Handle := do
  let result ← fromCard M 1
  let (_, q, b) ← divMod M base m
  dispose .dangling q
  let e ← copy M exp
  let rounds := (← deref .dangling e).toInt.natAbs + 1
  let (result, b) ← powModLoop M m e rounds result b
  dispose .dangling b
  dispose .dangling e
  pure result

end Proc

/-! ## Remainders of products -/

section remainders
variable {x x' y y' m : Int}

theorem mul_tmod_congr (hx : x.tmod m = x'.tmod m) (hy : y.tmod m = y'.tmod m) :
    (x * y).tmod m = (x' * y').tmod m := by
  rw [Int.mul_tmod, hx, hy, ← Int.mul_tmod]

theorem pow_tmod_congr (hx : x.tmod m = x'.tmod m) (k : Nat) : (x ^ k).tmod m = (x' ^ k).tmod m := by
  induction k with
  | zero => rw [pow_zero, pow_zero]
  | succ k ih => rw [pow_succ, pow_succ, mul_tmod_congr ih hx]

theorem natAbs_tmod_lt (x : Int) (hm : m ≠ 0) : (x.tmod m).natAbs < m.natAbs := by
  rw [Int.natAbs_tmod]
  exact Nat.mod_lt _ (Int.natAbs_pos.2 hm)

/-- A product of two numbers that are not larger than the modulus. -/
theorem size_mul_le {k : Nat} (hx : size x ≤ k) (hy : size y ≤ k) : size (x * y) ≤ 2 * k := by
  rw [size_le_iff] at hx hy ⊢
  rw [Int.natAbs_mul, Nat.two_mul, pow_add]
  exact Nat.mul_lt_mul'' hx hy

end remainders

/-! ## What the procedures do -/

section runs
variable {allowed : Fault → Prop} {h h₀ : Heap Rep} {m : Handle} {x y d : Int} {n k : Nat}
  {own : List (Handle × Int)}

theorem shrOne_owns {e : Handle} (hk : 0 < k) (hidx : maxIdx + 1 < size k → allowed .indexException)
    (ho : Owns Rep.Is h₀ h ((e, (k : Int)) :: own)) :
    Runs allowed (Proc.shrOne e h) fun q => Owns Rep.Is h₀ q.2 ((e, ((k / 2 : Nat) : Int)) :: own) := by
  refine (deref_reads ho.head).bind ?_
  intro p hp
  have hmag : p.Mag k := hp.mag
  have hsign : p.sign = 1 := hp.sign.trans (Int.sign_natCast_of_ne_zero hk.ne')
  refine (pureOn_reads (shrOne_runs hmag fun hlt => hidx (hp.len_eq ▸ hlt))).bind ?_
  rintro p' ⟨hp', hsign'⟩
  refine update_runs ho (hp'.is_nat ?_)
  rw [hsign' hk, hsign]

theorem lowBit_reads {e : Handle} (hk : 0 < k) (he : Holds Rep.Is h e (k : Int)) :
    Reads allowed (Proc.lowBit e) h (·.toNat = k % 2) := by
  refine (deref_reads he).bind ?_
  intro p hp
  have hlen : 0 < p.len := Nat.pos_of_ne_zero (mt hp.len_eq_zero.1 (by omega))
  obtain ⟨hlimb, hbit⟩ := limb_bit (i := 0) (Nat.mul_pos (by norm_num) hlen) hp.mag.fits
  refine (pureOn_reads (index_runs hlimb fun h => absurd h (by decide))).bind ?_
  rintro _ rfl
  have hval : val (p.limbs.take p.len) = k := hp.mag.value
  rw [hval, pow_zero, Nat.div_one] at hbit
  exact Runs.ok ⟨hbit, rfl⟩

variable (M : Storage)

/-- A number that is owned is replaced by the remainder of its product with another. -/
theorem mulMod_owns {a b : Handle} (ho : Owns Rep.Is h₀ h ((a, x) :: own)) (hb : Holds Rep.Is h b y)
    (hm : Holds Rep.Is h₀ m d) (hd : d ≠ 0) (hx : size x ≤ size d) (hy : size y ≤ size d)
    (hidx : maxIdx + 1 < 2 * size d → allowed .indexException) :
    Runs allowed (Proc.mulMod M m a b h) fun q =>
      Owns Rep.Is h₀ q.2 ((q.1, (x * y).tmod d) :: own) := by
  refine (mulInto_owns M ho hb fun _ _ h => hidx (by omega)).bindS ?_
  intro t h₁ ho₁
  have hsize := size_mul_le hx hy
  refine (divMod_owns M ho₁.head (hm.mono ho₁.old) hd (fun h => hidx (by omega))
    fun _ h => hidx (by omega)).bindS ?_
  rintro ⟨ok, q, r⟩ h₂ ⟨-, hown⟩
  refine (dispose_runs (ho₁.trans hown).second).bindS ?_
  intro _ h₃ ho₃
  refine (dispose_runs ho₃.second).bindS ?_
  intro _ h₄ ho₄
  exact Runs.ok ho₄

/-- What is left of the exponent is `k`; it is read from the record of `e`. -/
theorem powModLoop_owns {e result b : Handle} {r w : Int} (hn : k < n) (hm : Holds Rep.Is h₀ m d)
    (hd : d ≠ 0) (hr : size r ≤ size d) (hw : size w ≤ size d)
    (hidx : maxIdx + 1 < 2 * size d → allowed .indexException)
    (hidx' : maxIdx + 1 < size k → allowed .indexException)
    (ho : Owns Rep.Is h₀ h [(e, (k : Int)), (b, w), (result, r)]) :
    Runs allowed (Proc.powModLoop M m e n result b h) fun q => ∃ w',
      Owns Rep.Is h₀ q.2 [(e, 0), (q.1.2, w'), (q.1.1, if k = 0 then r else (r * w ^ k).tmod d)] := by
  induction n generalizing k result b r w h with
  | zero => exact absurd hn (Nat.not_lt_zero k)
  | succ n ih =>
    have htmod : ∀ x : Int, size (x.tmod d) ≤ size d := fun x => size_mono (natAbs_tmod_lt x hd).le
    rw [Proc.powModLoop]
    refine (sign_reads ho.head).bind ?_
    rintro _ rfl
    rcases Nat.eq_zero_or_pos k with rfl | hk
    · rw [if_neg (by decide), if_pos rfl]
      exact Runs.ok ⟨w, ho⟩
    rw [if_pos (Int.sign_pos_iff.2 (by omega)), if_neg hk.ne']
    refine (lowBit_reads hk ho.head).bind ?_
    intro bit hbit
    have hodd : Runs allowed ((if bit ≠ 0 then Proc.mulMod M m result b else pure result) h) fun q =>
        ∃ r', Owns Rep.Is h₀ q.2 [(q.1, r'), (e, (k : Int)), (b, w)] ∧
          size r' ≤ size d ∧ r'.tmod d = (r * w ^ (k % 2)).tmod d ∧
            (k % 2 = 1 → r' = (r * w ^ (k % 2)).tmod d) := by
      split_ifs with hbit0
      · have hone : k % 2 = 1 := by
          have := toNat_pos hbit0
          omega
        refine (mulMod_owns M ho.third ho.second.head hm hd hr hw hidx).mono fun q hq =>
          ⟨_, hq, htmod _, ?_, ?_⟩
        · rw [Int.tmod_tmod, hone, pow_one]
        · rw [hone, pow_one]
          exact fun _ => rfl
      · have hzero : k % 2 = 0 := by
          rw [← hbit, not_not.1 hbit0]
          rfl
        rw [hzero, pow_zero, mul_one]
        exact Runs.ok ⟨r, ho.third, hr, rfl, fun h => absurd h (by decide)⟩
    refine hodd.bindS ?_
    rintro result' h₁ ⟨r', ho₁, hr', hmod, hlast⟩
    refine (shrOne_owns hk hidx' ho₁.second).bindS ?_
    intro _ h₂ ho₂
    refine (sign_reads ho₂.head).bind ?_
    rintro _ rfl
    rcases Nat.eq_zero_or_pos (k / 2) with hhalf | hhalf
    · -- the highest bit is done
      have hone : k = 1 := by omega
      rw [hhalf] at ho₂ ⊢
      have hr₂ := hlast (by omega)
      rw [if_neg (by decide)]
      refine (ih (k := 0) (by omega) hr' hw (fun h => absurd h (by decide)) ho₂.third.second).mono ?_
      rintro q ⟨w', hq⟩
      rw [if_pos rfl, hr₂] at hq
      rw [hone] at hq ⊢
      exact ⟨w', hq⟩
    · rw [if_pos (Int.sign_pos_iff.2 (by omega))]
      have hsize : size ((k / 2 : Nat) : Int) ≤ size (k : Int) :=
        size_mono (by rw [Int.natAbs_natCast, Int.natAbs_natCast]; exact Nat.div_le_self k 2)
      have ho₃ := ho₂.third
      refine (mulMod_owns M ho₃ ho₃.head hm hd hw hw hidx).bindS ?_
      intro b' h₃ ho₄
      refine (ih (k := k / 2) (by omega) hr' (htmod _) (fun h => hidx' (h.trans_le hsize))
        ho₄.second).mono ?_
      rintro q ⟨w', hq⟩
      have hpow : (r' * ((w * w).tmod d) ^ (k / 2)).tmod d = (r * w ^ k).tmod d := by
        rw [mul_tmod_congr hmod (pow_tmod_congr (Int.tmod_tmod (w * w) d) (k / 2)), ← pow_two, ← pow_mul,
          mul_assoc, ← pow_add, Nat.mod_add_div]
      rw [if_neg hhalf.ne', hpow] at hq
      exact ⟨w', hq⟩

/-- The result, with the exponent 0 apart. -/
theorem powMod_owns {base exp : Handle} (hb : Holds Rep.Is h base x) (he : Holds Rep.Is h exp (k : Int))
    (hm : Holds Rep.Is h m d) (hd : d ≠ 0)
    (hidx : maxIdx + 1 < size x ∨ maxIdx + 1 < size k ∨ maxIdx + 1 < 2 * size d →
      allowed .indexException) :
    Runs allowed (Proc.powMod M base exp m h) fun q =>
      Owns Rep.Is h q.2 [(q.1, if k = 0 then 1 else (x ^ k).tmod d)] := by
  have hmax : 0 < maxIdx := by decide
  have hone : size 1 ≤ size d := size_mono (Int.natAbs_pos.2 hd)
  refine (fromCard_owns M 1).bindS ?_
  intro result h₁ ho₁
  refine (divMod_owns M (hb.mono ho₁.old) (hm.mono ho₁.old) hd (fun h => hidx (.inl h))
    fun _ h => hidx (.inr (.inr (by omega)))).bindS ?_
  rintro ⟨ok, q, b⟩ h₂ ⟨-, hown⟩
  refine (dispose_runs (ho₁.trans hown).second).bindS ?_
  intro _ h₃ ho₃
  refine (copy_owns M (he.mono ho₃.old) fun h => hidx (.inr (.inl h))).bindS ?_
  intro e h₄ ho₄
  have ho := ho₃.trans ho₄
  refine (deref_reads ho.head).bind ?_
  intro p hp
  rw [hp.toInt_eq, Int.natAbs_natCast]
  refine (powModLoop_owns M (Nat.lt_succ_self k) hm hd hone (size_mono (natAbs_tmod_lt x hd).le)
    (fun h => hidx (.inr (.inr h))) (fun h => hidx (.inr (.inl h))) ho).bindS ?_
  rintro ⟨result', b'⟩ h₅ ⟨w, ho₅⟩
  refine (dispose_runs ho₅.second).bindS ?_
  intro _ h₆ ho₆
  refine (dispose_runs ho₆).bindS ?_
  intro _ h₇ ho₇
  have hpow : (1 * (x.tmod d) ^ k).tmod d = (x ^ k).tmod d := by
    rw [one_mul, pow_tmod_congr (Int.tmod_tmod x d)]
  rw [hpow] at ho₇
  exact Runs.ok ho₇

theorem norm_wide {p : Rep} (hlen : maxIdx + 1 < p.len) : norm p = .error .indexException := by
  obtain ⟨n, hn⟩ : ∃ n, p.len = n + 1 := ⟨p.len - 1, by omega⟩
  have hloop : normLoop p.limbs (n + 1) = .error .indexException := by
    rw [normLoop, index, if_pos (by omega)]
    rfl
  rw [norm, hn, hloop]
  rfl

/-- A dividend with more limbs than the view is divided by one limb, but then the quotient is scanned for
leading zeros. -/
theorem divMod_wide {a b : Rep} (ha : a.Is x) (hb : b.Is y) (hlen : b.len = 1)
    (hwide : maxIdx + 1 < a.len) : Runs (· = .indexException) (divMod M a b) fun _ => False := by
  have hlt : y.natAbs < x.natAbs := hb.mag.lt_of_len_lt ha.mag (by omega)
  have hy : y ≠ 0 := mt hb.len_eq_zero.2 (by omega)
  have hbfits := hb.mag.fits
  have hcap := le_newRep_cap M a.len
  rw [divMod, if_neg (mt hb.sign_eq_zero.1 hy)]
  refine (magCmp_runs ha.mag hb.mag fun h => absurd h (by omega)).bind ?_
  rintro _ rfl
  rw [if_neg (fun h => by rw [Int.sign_neg_iff] at h; omega), if_pos hlen]
  have hquot : Runs (· = .indexException) (divMod1 M a b) fun _ => False := by
    rw [divMod1]
    refine (index_runs (by omega) (fun h => absurd h (by decide))).bind ?_
    rintro _ rfl
    have hlimb : 0 < b.limbs[0].toNat := by
      have hval := hb.mag.value
      rw [hlen, val_take_succ (by omega)] at hval
      simp at hval
      omega
    refine (divmod1_runs (fun l hl => by cases hl; exact ha.mag.fits) (by omega) hlimb).bind ?_
    rintro ⟨lq, rem⟩ -
    dsimp only
    rw [norm_wide (p := { newRep M a.len with len := a.len, limbs := lq }) hwide]
    exact Runs.error rfl
  exact hquot.bind fun _ h => h.elim

theorem powMod_wide {base exp : Handle} {p q : Rep} (hb : h[base]? = some (some p)) (hp : p.Is x)
    (hm : h[m]? = some (some q)) (hq : q.Is d) (hlen : q.len = 1) (hwide : maxIdx + 1 < p.len) :
    Runs (· = .indexException) (Proc.powMod M base exp m h) fun _ => False := by
  refine (fromCard_owns M 1).bindS ?_
  intro result h₁ ho₁
  have hbase : h₁[base]? = some (some p) :=
    (getElem?_eq_old ho₁.old (List.getElem?_eq_some_iff.1 hb).1).trans hb
  have hmod : h₁[m]? = some (some q) :=
    (getElem?_eq_old ho₁.old (List.getElem?_eq_some_iff.1 hm).1).trans hm
  have hdiv : Runs (· = .indexException) (Proc.divMod M base m h₁) fun _ => False := by
    refine (deref_reads (R := Eq) ⟨p, hbase, rfl⟩).bind ?_
    rintro _ rfl
    refine (deref_reads (R := Eq) ⟨q, hmod, rfl⟩).bind ?_
    rintro _ rfl
    exact (pureOn_reads (divMod_wide M hp hq hlen hwide)).bind fun _ h => h.elim
  exact hdiv.bindS fun _ _ h => h.elim

/-- `PowMod` is the remainder of the power but for the exponent 0 with a modulus 1 or -1. The index check
of the limbs may stop it where the base or the exponent has more limbs than the view, or the square of the
modulus may have. -/
theorem powMod_exact_iff {base exp : Handle} {p e q : Rep} (hbase : h[base]? = some (some p))
    (hexp : h[exp]? = some (some e)) (hmod : h[m]? = some (some q)) (hp : p.Inv) (he : e.Inv)
    (hq : q.Inv) (hnonneg : 0 ≤ e.toInt) (hne : q.toInt ≠ 0) :
    (Runs (fun f => f = Fault.indexException ∧
          (maxIdx + 1 < p.len ∨ maxIdx + 1 < e.len ∨ maxIdx + 1 < 2 * q.len))
        (Proc.powMod M base exp m h) fun r =>
        Makes h r.2 [(r.1, (p.toInt ^ e.toInt.toNat).tmod q.toInt)]) ↔
      e.toInt ≠ 0 ∨ |q.toInt| ≠ 1 ∨ maxIdx + 1 < p.len := by
  have hp' : p.Is p.toInt := Rep.is_iff.2 ⟨hp, rfl⟩
  have he' : e.Is e.toInt := Rep.is_iff.2 ⟨he, rfl⟩
  have hq' : q.Is q.toInt := Rep.is_iff.2 ⟨hq, rfl⟩
  obtain ⟨k, hk⟩ : ∃ k : Nat, e.toInt = k := ⟨e.toInt.toNat, (Int.toNat_of_nonneg hnonneg).symm⟩
  rw [hk] at he'
  have hrun : Runs (fun f => f = Fault.indexException ∧
      (maxIdx + 1 < p.len ∨ maxIdx + 1 < e.len ∨ maxIdx + 1 < 2 * q.len)) (Proc.powMod M base exp m h) _ := powMod_owns M
    ⟨p, hbase, hp'⟩ ⟨e, hexp, he'⟩ ⟨q, hmod, hq'⟩ hne
    fun hlt => ⟨rfl, by rwa [hp'.len_eq, he'.len_eq, hq'.len_eq]⟩
  simp only [makes_iff]
  rw [hk, Int.toNat_natCast]
  constructor
  · intro hspec
    by_contra hcond
    rw [not_or, not_or, not_not, not_not] at hcond
    obtain ⟨hzero, hunit, hfit⟩ := hcond
    have hk0 : k = 0 := by exact_mod_cast hzero
    subst hk0
    have hunit' : q.toInt.natAbs = 1 := by
      rw [Int.abs_eq_natAbs] at hunit
      exact_mod_cast hunit
    have hqlen : q.len ≤ 1 := hq'.mag.len_le (by rw [hunit']; norm_num)
    have helen : e.len ≤ 0 := he'.mag.len_le (by norm_num)
    have hmax : 0 < maxIdx := by decide
    have hzero' : (p.toInt ^ 0).tmod q.toInt = 0 := by
      rw [← Int.natAbs_eq_zero, Int.natAbs_tmod, hunit', Nat.mod_one]
    obtain ⟨r, -, hspec', hrun'⟩ := (hspec.and hrun).total fun f hf => by
      have hlt := hf.1.2
      omega
    -- one record would be 0 and 1
    obtain ⟨s, hs, hs0⟩ := hspec'.head
    obtain ⟨s', hs', hs1⟩ := hrun'.head
    rw [hs, Option.some.injEq, Option.some.injEq] at hs'
    subst hs'
    rw [if_pos rfl] at hs1
    rw [hzero'] at hs0
    exact absurd (hs0.toInt_eq.symm.trans hs1.toInt_eq) (by decide)
  · intro hcond
    by_cases hpow : k = 0 ∧ |q.toInt| = 1
    · -- with so many limbs the reduction of the base does not return
      obtain ⟨hk0, hunit⟩ := hpow
      have hwide : maxIdx + 1 < p.len := by
        rcases hcond with h | h | h
        · exact absurd (by exact_mod_cast hk0) h
        · exact absurd hunit h
        · exact h
      have hqlen : q.len = 1 := by
        have hunit' : q.toInt.natAbs = 1 := by
          rw [Int.abs_eq_natAbs] at hunit
          exact_mod_cast hunit
        have hle : q.len ≤ 1 := hq'.mag.len_le (by rw [hunit']; norm_num)
        have hpos := mt hq'.len_eq_zero.1 hne
        omega
      exact (powMod_wide M hbase hp' hmod hq' hqlen hwide).imp (fun f hf => ⟨hf, .inl hwide⟩)
        fun _ h => h.elim
    · refine hrun.mono fun r hr => ?_
      split_ifs at hr with hk0
      · have hlarge : (1 : Int).natAbs < q.toInt.natAbs := by
          have hunit : |q.toInt| ≠ 1 := fun h => hpow ⟨hk0, h⟩
          rw [Int.abs_eq_natAbs] at hunit
          have hpos := Int.natAbs_pos.2 hne
          have hne1 : q.toInt.natAbs ≠ 1 := by exact_mod_cast hunit
          rw [Int.natAbs_one]
          omega
        have hquot : (1 : Int).tdiv q.toInt = 0 := by
          rw [← Int.natAbs_eq_zero, Int.natAbs_tdiv]
          exact Nat.div_eq_of_lt hlarge
        rw [hk0, pow_zero, Int.tmod_def, hquot, mul_zero, sub_zero]
        exact hr
      · exact hr

end runs

def zero : Rep := { sign := 0, len := 0, limbs := [7] }

def one : Rep := { sign := 1, len := 1, limbs := [1] }

/-- 5 to the power 0 modulo 1 is 0, and 1 is returned. -/
theorem powMod_five_zero_one :
    ((Proc.powMod cleared 0 1 2 [some five, some zero, some one]).map fun r =>
      (r.2[r.1]?).join.map Rep.toInt) = .ok (some 1) ∧ (five.toInt ^ 0).tmod one.toInt = 0 :=
  ⟨rfl, rfl⟩

theorem powMod_exact_iff_five :
    five.Inv ∧ zero.Inv ∧ one.Inv ∧ 0 ≤ zero.toInt ∧ one.toInt ≠ 0 ∧
    ((Runs (fun f => f = Fault.indexException ∧
          (maxIdx + 1 < five.len ∨ maxIdx + 1 < zero.len ∨ maxIdx + 1 < 2 * one.len))
        (Proc.powMod cleared 0 1 2 [some five, some zero, some one]) fun r =>
        Makes [some five, some zero, some one] r.2
          [(r.1, (five.toInt ^ zero.toInt.toNat).tmod one.toInt)]) ↔
      zero.toInt ≠ 0 ∨ |one.toInt| ≠ 1 ∨ maxIdx + 1 < five.len) ∧
    five.Inv ∧ minusThree.Inv ∧ 0 ≤ five.toInt ∧ minusThree.toInt ≠ 0 ∧
    ((Runs (fun f => f = Fault.indexException ∧
          (maxIdx + 1 < five.len ∨ maxIdx + 1 < five.len ∨ maxIdx + 1 < 2 * minusThree.len))
        (Proc.powMod cleared 0 1 2 [some five, some five, some minusThree]) fun r =>
        Makes [some five, some five, some minusThree] r.2
          [(r.1, (five.toInt ^ five.toInt.toNat).tmod minusThree.toInt)]) ↔
      five.toInt ≠ 0 ∨ |minusThree.toInt| ≠ 1 ∨ maxIdx + 1 < five.len) := by
  have hzero : zero.Inv := ⟨by decide, by decide, by decide, by decide⟩
  have hone : one.Inv := ⟨by decide, by decide, by decide, by decide⟩
  exact ⟨five_inv, hzero, hone, by decide, by decide,
    powMod_exact_iff cleared (h := [some five, some zero, some one]) (m := 2)
      rfl rfl rfl five_inv hzero hone (by decide) (by decide),
    five_inv, minusThree_inv, by decide, by decide,
    powMod_exact_iff cleared (h := [some five, some five, some minusThree]) (m := 2)
      rfl rfl rfl five_inv five_inv minusThree_inv (by decide) (by decide)⟩

end NewM2.Winrt.BigInt
