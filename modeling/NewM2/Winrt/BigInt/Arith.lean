import Mathlib
import NewM2.Winrt.BigInt.Magnitude

/-!
# Sums, differences and products (`library/winrtmod/BigInt.mod`)

An index exception is allowed where an operand or the result of a sum has more limbs than the view, and where
the factors of a product have together more. -/

namespace NewM2.Winrt.BigInt
open Limbs Segment

section storage
variable (M : Storage)

/-- `Add` and `Sub` for two numbers that are not zero; `bs` is the sign that `b` counts with. -/
def addSigned (a b : Rep) (bs : Int) : Except Fault Rep := do
  if a.sign = bs then
    let r ← magAdd M a b
    norm { r with sign := a.sign }
  else
    let c ← magCmp a b
    if c = 0 then .ok (create M)
    else if c > 0 then
      let r ← magSub M a b
      norm { r with sign := a.sign }
    else
      let r ← magSub M b a
      norm { r with sign := bs }

def add (a b : Rep) : Except Fault Rep :=
  if a.sign = 0 then copy M b
  else if b.sign = 0 then copy M a
  else addSigned M a b b.sign

def sub (a b : Rep) : Except Fault Rep :=
  let bs := -b.sign
  if a.sign = 0 then do
    let r ← copy M b
    .ok (if r.sign ≠ 0 then { r with sign := -r.sign } else r)
  else if bs = 0 then copy M a
  else addSigned M a b bs

/-- `j := 0; WHILE j < n DO lr^[j] := 0; INC(j) END`, with `n` limbs to go. -/
def zeroLoop : Nat → Nat → List Word → Except Fault (List Word)
  | 0, _, lr => .ok lr
  | n + 1, j, lr => do
    let lr ← assign lr j 0
    zeroLoop n (j + 1) lr

/-- The rows of `Mul` from the index `j` on, with `n` limbs of `b` to go. -/
def mulLoop (a b : Rep) : Nat → Nat → List Word → Except Fault (List Word)
  | 0, _, lr => .ok lr
  | n + 1, j, lr => do
    let (lr, c) ← addmul1 lr j a.limbs a.len (← index b.limbs j)
    let lr ← assign lr (j + a.len) c
    mulLoop a b n (j + 1) lr

def mul (a b : Rep) : Except Fault Rep :=
  if a.sign = 0 ∨ b.sign = 0 then .ok (create M)
  else do
    let r := newRep M (a.len + b.len)
    let lr ← zeroLoop (a.len + b.len) 0 r.limbs
    let (lr, c) ← mul1 lr (some a.limbs) a.len (← index b.limbs 0)
    let lr ← assign lr a.len c
    let lr ← mulLoop a b (b.len - 1) 1 lr
    norm { r with sign := if a.sign = b.sign then 1 else -1, len := a.len + b.len, limbs := lr }

def neg (a : Rep) : Except Fault Rep := do
  let r ← copy M a
  .ok (if r.sign ≠ 0 then { r with sign := -r.sign } else r)

def abs (a : Rep) : Except Fault Rep := do
  let r ← copy M a
  .ok (if r.sign < 0 then { r with sign := 1 } else r)

end storage

def compare (a b : Rep) : Except Fault Int :=
  if a.sign ≠ b.sign then .ok (if a.sign > b.sign then 1 else -1)
  else if a.sign = 0 then .ok 0
  else do
    let c ← magCmp a b
    .ok (if a.sign > 0 then c else -c)

/-! ## Lengths -/

theorem base_pow_pos (k : Nat) : 0 < ((2 : Nat) ^ 64) ^ k := Nat.pow_pos (Nat.two_pow_pos 64)

theorem base_pow_le {k n : Nat} (h : k ≤ n) : ((2 : Nat) ^ 64) ^ k ≤ (2 ^ 64) ^ n :=
  Nat.pow_le_pow_right (Nat.two_pow_pos 64) h

/-- A number of at most `maxIdx` limbs can be doubled. -/
theorem Rep.Mag.two_mul_lt_limit {p : Rep} {n : Nat} (h : p.Mag n) (hlen : p.len ≤ maxIdx) :
    2 * n < limit := by
  have hlt : n < (2 ^ 64) ^ maxIdx := h.lt_pow.trans_le (base_pow_le hlen)
  rw [limit, pow_succ]
  have hpos := base_pow_pos maxIdx
  generalize ((2 : Nat) ^ 64) ^ maxIdx = b at *
  omega

theorem Rep.Mag.lt_limit {p : Rep} {n : Nat} (h : p.Mag n) (hlen : p.len ≤ maxIdx + 1) : n < limit :=
  h.lt_pow.trans_le (base_pow_le hlen)

/-- Numbers of one sign do not cancel. -/
theorem natAbs_add_of_sign {x y : Int} (hx : x ≠ 0) (h : x.sign = y.sign) :
    (x + y).natAbs = x.natAbs + y.natAbs := by
  rcases lt_or_gt_of_ne hx with hneg | hpos
  · rw [Int.sign_eq_neg_one_of_neg hneg] at h
    exact Int.natAbs_add_of_nonpos hneg.le (Int.sign_eq_neg_one_iff_neg.1 h.symm).le
  · rw [Int.sign_eq_one_of_pos hpos] at h
    exact Int.natAbs_add_of_nonneg hpos.le (Int.sign_eq_one_iff_pos.1 h.symm).le

/-! ## What the procedures compute -/

section runs
variable {allowed : Fault → Prop} {a b p : Rep} {m n : Nat} {x y : Int}

/-- A magnitude with the sign of a number that is not zero. -/
theorem norm_sign_runs (hp : p.Mag m) (hidx : limit ≤ m → allowed .indexException) {z : Int}
    (habs : z.natAbs = m) {sign : Int} (hsign : m ≠ 0 → sign = z.sign) :
    Runs allowed (norm { p with sign := sign }) (·.Is z) := by
  have hnorm := @norm_runs allowed { p with sign := sign } hp.fits
    (fun h => hidx (hp.limit_le h))
  dsimp only at hnorm
  rw [hp.value] at hnorm
  refine hnorm.mono fun q hq => ⟨habs ▸ hq.1, hq.2.1.trans ?_⟩
  split_ifs with h0
  · rw [Int.natAbs_eq_zero.1 (habs.trans h0), Int.sign_zero]
  · exact hsign h0

variable (M : Storage)

/-- The sum where `b` counts with the sign of `y`. -/
theorem addSigned_runs (ha : a.Is x) (hb : b.Mag y.natAbs) (hx : x ≠ 0) (hy : y ≠ 0)
    (hidx : maxIdx + 1 < a.len ∨ maxIdx + 1 < b.len ∨ limit ≤ (x + y).natAbs → allowed .indexException) :
    Runs allowed (addSigned M a b y.sign) (·.Is (x + y)) := by
  have hresult : ∀ k, (x + y).natAbs = k → limit ≤ k → allowed .indexException := fun k hk h =>
    hidx (.inr (.inr (hk ▸ h)))
  have hxsign := Int.sign_mul_natAbs x
  have hysign := Int.sign_mul_natAbs y
  rw [addSigned, ha.sign]
  by_cases hsame : x.sign = y.sign
  · rw [if_pos hsame]
    have hsum := hresult (x.natAbs + y.natAbs) (natAbs_add_of_sign hx hsame)
    refine (magAdd_runs M ha.mag hb hsum).bind ?_
    rintro r ⟨hr, -⟩
    rcases lt_or_gt_of_ne hx with hneg | hpos
    · rw [Int.sign_eq_neg_one_of_neg hneg] at hsame ⊢
      have hneg' := Int.sign_eq_neg_one_iff_neg.1 hsame.symm
      exact norm_sign_runs hr hsum (by omega)
        fun _ => (Int.sign_eq_neg_one_of_neg (by omega)).symm
    · rw [Int.sign_eq_one_of_pos hpos] at hsame ⊢
      have hpos' := Int.sign_eq_one_iff_pos.1 hsame.symm
      exact norm_sign_runs hr hsum (by omega)
        fun _ => (Int.sign_eq_one_of_pos (by omega)).symm
  · rw [if_neg hsame]
    refine (magCmp_runs ha.mag hb fun _ h => hidx (.inl h)).bind ?_
    rintro _ rfl
    have hopp : (x < 0 ∧ 0 < y) ∨ (0 < x ∧ y < 0) := by
      rcases lt_or_gt_of_ne hx with h₁ | h₁ <;> rcases lt_or_gt_of_ne hy with h₂ | h₂
      · rw [Int.sign_eq_neg_one_of_neg h₁, Int.sign_eq_neg_one_of_neg h₂] at hsame
        exact absurd rfl hsame
      · exact .inl ⟨h₁, h₂⟩
      · exact .inr ⟨h₁, h₂⟩
      · rw [Int.sign_eq_one_of_pos h₁, Int.sign_eq_one_of_pos h₂] at hsame
        exact absurd rfl hsame
    rcases lt_trichotomy x.natAbs y.natAbs with hlt | heq | hgt
    · -- the larger magnitude is that of y
      rw [Int.sign_eq_neg_one_of_neg (by omega : (x.natAbs : Int) - y.natAbs < 0), if_neg (by decide),
        if_neg (by decide)]
      refine (magSub_runs M hb ha.mag hlt.le fun h => hidx (.inr (.inl h))).bind ?_
      rintro r ⟨hr, -⟩
      refine norm_sign_runs hr (hresult _ (by omega)) (by omega) fun _ => ?_
      rcases hopp with ⟨h₁, h₂⟩ | ⟨h₁, h₂⟩
      · rw [Int.sign_eq_one_of_pos h₂, Int.sign_eq_one_of_pos (by omega)]
      · rw [Int.sign_eq_neg_one_of_neg h₂, Int.sign_eq_neg_one_of_neg (by omega)]
    · have hzero : x + y = 0 := by omega
      rw [heq, sub_self, Int.sign_zero, if_pos rfl, hzero]
      exact Runs.ok (create_is M)
    · rw [Int.sign_eq_one_of_pos (by omega : 0 < (x.natAbs : Int) - y.natAbs), if_neg (by decide),
        if_pos (by decide)]
      refine (magSub_runs M ha.mag hb hgt.le fun h => hidx (.inl h)).bind ?_
      rintro r ⟨hr, -⟩
      refine norm_sign_runs hr (hresult _ (by omega)) (by omega) fun _ => ?_
      rcases hopp with ⟨h₁, h₂⟩ | ⟨h₁, h₂⟩
      · rw [Int.sign_eq_neg_one_of_neg h₁, Int.sign_eq_neg_one_of_neg (by omega)]
      · rw [Int.sign_eq_one_of_pos h₁, Int.sign_eq_one_of_pos (by omega)]

theorem add_runs (ha : a.Is x) (hb : b.Is y)
    (hidx : maxIdx + 1 < a.len ∨ maxIdx + 1 < b.len ∨ limit ≤ (x + y).natAbs → allowed .indexException) :
    Runs allowed (add M a b) (·.Is (x + y)) := by
  rw [add]
  split_ifs with h₁ h₂
  · rw [ha.sign_eq_zero.1 h₁, zero_add]
    exact copy_runs M hb fun h => hidx (.inr (.inl h))
  · rw [hb.sign_eq_zero.1 h₂, add_zero]
    exact copy_runs M ha fun h => hidx (.inl h)
  · rw [hb.sign]
    exact addSigned_runs M ha hb.mag (mt ha.sign_eq_zero.2 h₁) (mt hb.sign_eq_zero.2 h₂) hidx

theorem neg_is {r : Rep} (h : r.Is x) : (if r.sign ≠ 0 then { r with sign := -r.sign } else r).Is (-x) := by
  have hmag : r.Mag (-x).natAbs := by
    rw [Int.natAbs_neg]
    exact h.mag
  split_ifs with h0
  · exact ⟨hmag.congr rfl hmag.fits rfl, by rw [Int.sign_neg, ← h.sign]⟩
  · exact ⟨hmag, by rw [Int.sign_neg, ← h.sign, not_not.1 h0, neg_zero]⟩

theorem sub_runs (ha : a.Is x) (hb : b.Is y)
    (hidx : maxIdx + 1 < a.len ∨ maxIdx + 1 < b.len ∨ limit ≤ (x - y).natAbs → allowed .indexException) :
    Runs allowed (sub M a b) (·.Is (x - y)) := by
  rw [sub]
  split_ifs with h₁ h₂
  · rw [ha.sign_eq_zero.1 h₁, zero_sub]
    refine (copy_runs M hb fun h => hidx (.inr (.inl h))).bind ?_
    intro r hr
    exact Runs.ok (neg_is hr)
  · rw [hb.sign_eq_zero.1 (neg_eq_zero.1 h₂), sub_zero]
    exact copy_runs M ha fun h => hidx (.inl h)
  · have hy : y ≠ 0 := mt hb.sign_eq_zero.2 (mt neg_eq_zero.2 h₂)
    have hb' : b.Mag (-y).natAbs := by
      rw [Int.natAbs_neg]
      exact hb.mag
    rw [sub_eq_add_neg] at hidx ⊢
    rw [hb.sign, ← Int.sign_neg]
    exact addSigned_runs M ha hb' (mt ha.sign_eq_zero.2 h₁) (neg_ne_zero.2 hy) hidx

theorem neg_runs (ha : a.Is x) (hidx : maxIdx + 1 < a.len → allowed .indexException) :
    Runs allowed (neg M a) (·.Is (-x)) :=
  (copy_runs M ha hidx).bind fun _ hr => Runs.ok (neg_is hr)

theorem abs_runs (ha : a.Is x) (hidx : maxIdx + 1 < a.len → allowed .indexException) :
    Runs allowed (abs M a) (·.Is |x|) := by
  refine (copy_runs M ha hidx).bind fun r hr => Runs.ok ?_
  have hmag : r.Mag |x|.natAbs := by
    rw [Int.natAbs_abs]
    exact hr.mag
  split_ifs with h0
  · have hx : x < 0 := Int.sign_neg_iff.1 (hr.sign ▸ h0)
    exact ⟨hmag.congr rfl hmag.fits rfl, (Int.sign_eq_one_of_pos (abs_pos.2 hx.ne)).symm⟩
  · have hx : 0 ≤ x := le_of_not_gt fun h => h0 (hr.sign ▸ Int.sign_neg_iff.2 h)
    exact ⟨hmag, by rw [abs_of_nonneg hx, hr.sign]⟩

theorem compare_runs (ha : a.Is x) (hb : b.Is y)
    (hidx : x.sign = y.sign → a.len = b.len → maxIdx + 1 < a.len → allowed .indexException) :
    Runs allowed (compare a b) (· = (x - y).sign) := by
  rw [compare, ha.sign, hb.sign]
  have hxsign := Int.sign_mul_natAbs x
  have hysign := Int.sign_mul_natAbs y
  rcases lt_trichotomy x 0 with hx | rfl | hx <;> rcases lt_trichotomy y 0 with hy | rfl | hy
  · rw [Int.sign_eq_neg_one_of_neg hx, Int.sign_eq_neg_one_of_neg hy] at hidx ⊢
    rw [if_neg (by decide), if_neg (by decide)]
    refine (magCmp_runs ha.mag hb.mag (hidx rfl)).bind ?_
    rintro _ rfl
    refine Runs.ok ?_
    rw [if_neg (by decide), ← Int.sign_neg]
    congr 1
    omega
  · rw [Int.sign_eq_neg_one_of_neg hx]
    exact Runs.ok (Int.sign_eq_neg_one_of_neg (by omega)).symm
  · rw [Int.sign_eq_neg_one_of_neg hx, Int.sign_eq_one_of_pos hy]
    exact Runs.ok (Int.sign_eq_neg_one_of_neg (by omega)).symm
  · rw [Int.sign_eq_neg_one_of_neg hy]
    exact Runs.ok (Int.sign_eq_one_of_pos (by omega)).symm
  · exact Runs.ok rfl
  · rw [Int.sign_eq_one_of_pos hy]
    exact Runs.ok (Int.sign_eq_neg_one_of_neg (by omega)).symm
  · rw [Int.sign_eq_one_of_pos hx, Int.sign_eq_neg_one_of_neg hy]
    exact Runs.ok (Int.sign_eq_one_of_pos (by omega)).symm
  · rw [Int.sign_eq_one_of_pos hx]
    exact Runs.ok (Int.sign_eq_one_of_pos (by omega)).symm
  · rw [Int.sign_eq_one_of_pos hx, Int.sign_eq_one_of_pos hy] at hidx ⊢
    rw [if_neg (by decide), if_neg (by decide)]
    refine (magCmp_runs ha.mag hb.mag (hidx rfl)).bind ?_
    rintro _ rfl
    refine Runs.ok ?_
    rw [if_pos (by decide)]
    congr 1
    omega

/-! ## Products -/

theorem zeroLoop_runs {lr : List Word} {j : Nat} (hlr : j + n ≤ lr.length)
    (hidx : maxIdx + 1 < j + n → allowed .indexException) :
    Runs allowed (zeroLoop n j lr) fun lr' =>
      Changes j n lr lr' ∧ slice lr' j n = List.replicate n 0 := by
  induction n generalizing j lr with
  | zero => exact Runs.ok ⟨.refl, slice_zero⟩
  | succ n ih =>
    rw [zeroLoop]
    refine (assign_runs (by omega) (fun h => hidx (by omega)) 0).bind ?_
    rintro _ rfl
    refine (ih (by rw [List.length_set]; omega) (fun h => hidx (by omega))).mono ?_
    rintro lr' ⟨hc, hzero⟩
    exact ⟨hc.step, by rw [hc.slice_step (by omega), hzero, List.replicate_succ]⟩

/-- After the row `j` the limbs below `a.len + j` hold the product with the limbs of `b` below `j`. -/
theorem mulLoop_runs (ha : a.Mag m) (hb : b.Mag n) {lr : List Word} {j k : Nat} (hj : j + k = b.len)
    (hlr : lr.length = a.len + b.len) (hidx : maxIdx + 1 < a.len + b.len → allowed .indexException)
    (hval : val (lr.take (a.len + j)) = m * val (b.limbs.take j)) :
    Runs allowed (mulLoop a b k j lr) fun lr' => lr'.length = a.len + b.len ∧
      val (lr'.take (a.len + b.len)) = m * n := by
  induction k generalizing j lr with
  | zero =>
    rw [Nat.add_zero] at hj
    subst hj
    exact Runs.ok ⟨hlr, hval.trans (by rw [hb.value])⟩
  | succ k ih =>
    have hbfits := hb.fits
    rw [mulLoop]
    refine (index_runs (by omega) (fun h => hidx (by omega))).bind ?_
    rintro _ rfl
    refine (addmul1_runs b.limbs[j] ha.fits (by omega)).bind ?_
    rintro ⟨lr₁, c⟩ ⟨hc, hrow⟩
    have hlen := hc.length
    dsimp only at hrow hlen ⊢
    refine (assign_runs (by omega) (fun h => hidx (by omega)) c).bind ?_
    rintro _ rfl
    refine ih (by omega) (by rw [List.length_set]; omega) ?_
    have hsplit := val_take_add (l := lr) (i := j) (n := a.len) (by omega)
    rw [Nat.add_comm j, hval] at hsplit
    rw [ha.value] at hrow
    rw [← Nat.add_assoc, Nat.add_comm a.len j, val_take_succ (by rw [List.length_set]; omega),
      take_set_of_le le_rfl, List.getElem_set_self, val_take_add (by omega), hc.before,
      val_take_succ (by omega), pow_add]
    calc val (lr.take j) + (2 ^ 64) ^ j * val (slice lr₁ j a.len) +
          (2 ^ 64) ^ j * (2 ^ 64) ^ a.len * c.toNat
        = val (lr.take j) + (2 ^ 64) ^ j * (val (slice lr₁ j a.len) + (2 ^ 64) ^ a.len * c.toNat) := by
          ring
      _ = (val (lr.take j) + (2 ^ 64) ^ j * val (slice lr j a.len)) +
            (2 ^ 64) ^ j * (m * b.limbs[j].toNat) := by rw [hrow]; ring
      _ = _ := by rw [← hsplit]; ring

theorem mul_runs (ha : a.Is x) (hb : b.Is y)
    (hidx : x ≠ 0 → y ≠ 0 → maxIdx + 1 < a.len + b.len → allowed .indexException) :
    Runs allowed (mul M a b) (·.Is (x * y)) := by
  by_cases h0 : a.sign = 0 ∨ b.sign = 0
  · have hprod : x * y = 0 := by
      rcases h0 with h | h
      · rw [ha.sign_eq_zero.1 h, zero_mul]
      · rw [hb.sign_eq_zero.1 h, mul_zero]
    rw [mul, if_pos h0, hprod]
    exact Runs.ok (create_is M)
  · have hx : x ≠ 0 := fun h => h0 (.inl (ha.sign_eq_zero.2 h))
    have hy : y ≠ 0 := fun h => h0 (.inr (hb.sign_eq_zero.2 h))
    replace hidx := hidx hx hy
    have halen : 0 < a.len := Nat.pos_of_ne_zero (mt ha.len_eq_zero.1 hx)
    have hblen : 0 < b.len := Nat.pos_of_ne_zero (mt hb.len_eq_zero.1 hy)
    have hafits := ha.mag.fits
    have hbfits := hb.mag.fits
    have hcap : (newRep M (a.len + b.len)).limbs.length = a.len + b.len := by
      rw [newRep_cap, if_neg (by omega)]
    rw [mul, if_neg h0]
    refine (zeroLoop_runs (by omega) (fun h => hidx (by omega))).bind ?_
    rintro l₀ ⟨hl₀, -⟩
    have hlen₀ := hl₀.length
    refine (index_runs (by omega) (fun h => hidx (by omega))).bind ?_
    rintro _ rfl
    refine (mul1_runs b.limbs[0] (fun l hl => by cases hl; exact hafits) (by omega)).bind ?_
    rintro ⟨l₁, c⟩ ⟨hc, hval⟩
    have hlen₁ := hc.length
    dsimp only [Option.getD_some] at hval hlen₁ ⊢
    refine (assign_runs (by omega) (fun h => hidx (by omega)) c).bind ?_
    rintro _ rfl
    have hfirst : val ((l₁.set a.len c).take (a.len + 1)) = x.natAbs * val (b.limbs.take 1) := by
      rw [val_take_succ (by rw [List.length_set]; omega), take_set_of_le le_rfl, List.getElem_set_self,
        hval, ha.mag.value, val_take_succ (by omega)]
      simp
    refine (mulLoop_runs ha.mag hb.mag (by omega) (by rw [List.length_set]; omega) hidx hfirst).bind ?_
    rintro l₂ ⟨hlen₂, hval₂⟩
    have hnorm := @norm_runs allowed { newRep M (a.len + b.len) with
      sign := if a.sign = b.sign then 1 else -1, len := a.len + b.len, limbs := l₂ }
      (by dsimp only; omega) hidx
    dsimp only at hnorm
    rw [hval₂] at hnorm
    refine hnorm.mono fun q hq => ⟨(Int.natAbs_mul x y).symm ▸ hq.1, hq.2.1.trans ?_⟩
    rw [if_neg (Nat.mul_ne_zero (Int.natAbs_ne_zero.2 hx) (Int.natAbs_ne_zero.2 hy)), ha.sign, hb.sign,
      Int.sign_mul]
    rcases lt_or_gt_of_ne hx with h₁ | h₁ <;> rcases lt_or_gt_of_ne hy with h₂ | h₂ <;>
      simp [Int.sign_eq_neg_one_of_neg, Int.sign_eq_one_of_pos, h₁, h₂]

end runs
end NewM2.Winrt.BigInt
