import Mathlib
import NewM2.Winrt.BigInt.Handles

/-!
# BigRat (`library/winrtmod/BigRat.mod`)

A rational number is a record of two numbers, on a heap of its own. Nothing writes to a record that has
been made. What a procedure does before its `NewRecRaw` is a program on the heap of numbers that returns
the contents of the new record. `gOne` is the 1 that the body of the module makes. -/

namespace NewM2.Winrt.BigRat
open BigInt Handles

structure Rec where
  num : Handle
  den : Handle
deriving DecidableEq

/-! ## Programs on numbers -/

section numbers
variable (M : Storage) (gOne : Handle)

/-- `t := f(x); Dispose(x); x := t` -/
def replace (f : Handle → BigInt.Proc Handle) (x : Handle) : BigInt.Proc Handle := do
  let t ← f x
  dispose .dangling x
  pure t

def makeRat (num den : Handle) : BigInt.Proc Rec := do
  let s ← Proc.sign den
  let (num, den) ← (if s < 0 then do
      let num ← replace (Proc.neg M) num
      let den ← replace (Proc.neg M) den
      pure (num, den)
    else pure (num, den))
  if ← Proc.isZero num then
    dispose .dangling den
    let den ← Proc.fromCard M 1
    pure ⟨num, den⟩
  else
    let g ← Proc.gcd M num den
    let c ← Proc.compare g gOne
    let (num, den) ← (if c ≠ 0 then do
        let num ← replace (fun num => Proc.div M num g) num
        let den ← replace (fun den => Proc.div M den g) den
        pure (num, den)
      else pure (num, den))
    dispose .dangling g
    pure ⟨num, den⟩

/-- The record of `Create`. -/
def zero : BigInt.Proc Rec := do
  let num ← Proc.fromCard M 0
  let den ← Proc.fromCard M 1
  pure ⟨num, den⟩

/-- `Add` and `Sub`, by what is done with the two products. -/
def crossed (f : Handle → Handle → BigInt.Proc Handle) (a b : Rec) : BigInt.Proc Rec := do
  let p1 ← Proc.mul M a.num b.den
  let p2 ← Proc.mul M b.num a.den
  let num ← f p1 p2
  let den ← Proc.mul M a.den b.den
  dispose .dangling p1
  dispose .dangling p2
  makeRat M gOne num den

def compareProducts (a b : Rec) : BigInt.Proc Int := do
  let p1 ← Proc.mul M a.num b.den
  let p2 ← Proc.mul M b.num a.den
  let c ← Proc.compare p1 p2
  dispose .dangling p1
  dispose .dangling p2
  pure c

end numbers

/-! ## The procedures -/

/-- The records, and the numbers. -/
abbrev Proc := StateT (Heap Rec × Heap Rep) (Except BigInt.Fault)

def newRecRaw (f : BigInt.Proc Rec) : Proc Handle := do
  let r ← onSnd f
  onFst (fresh r)

def unary (f : Rec → BigInt.Proc Rec) (r : Handle) : Proc Handle := do
  let r ← onFst (deref .dangling r)
  newRecRaw (f r)

def binary (f : Rec → Rec → BigInt.Proc Rec) (a b : Handle) : Proc Handle := do
  let a ← onFst (deref .dangling a)
  let b ← onFst (deref .dangling b)
  newRecRaw (f a b)

section procedures
variable (M : Storage) (gOne : Handle)

def create : Proc Handle := newRecRaw (zero M)

def copy (r : Handle) : Proc Handle := unary (fun r => do
  let num ← Proc.copy M r.num
  let den ← Proc.copy M r.den
  pure ⟨num, den⟩) r

def fromInt (v : Word) : Proc Handle := newRecRaw do
  let num ← Proc.fromInt M v
  let den ← Proc.fromCard M 1
  pure ⟨num, den⟩

def fromRatio (num den : Word) : Proc Handle :=
  if den = 0 then create M
  else newRecRaw do
    let num ← Proc.fromInt M num
    let den ← Proc.fromInt M den
    makeRat M gOne num den

def fromBigInt (n : Handle) : Proc Handle := newRecRaw do
  let num ← Proc.copy M n
  let den ← Proc.fromCard M 1
  pure ⟨num, den⟩

def fromBigRatio (num den : Handle) : Proc Handle := newRecRaw do
  if ← Proc.isZero den then zero M
  else
    let num ← Proc.copy M num
    let den ← Proc.copy M den
    makeRat M gOne num den

def add (a b : Handle) : Proc Handle := binary (crossed M gOne (Proc.add M)) a b

def sub (a b : Handle) : Proc Handle := binary (crossed M gOne (Proc.sub M)) a b

def mul (a b : Handle) : Proc Handle := binary (fun a b => do
  let num ← Proc.mul M a.num b.num
  let den ← Proc.mul M a.den b.den
  makeRat M gOne num den) a b

def div (a b : Handle) : Proc Handle := binary (fun a b => do
  if ← Proc.isZero b.num then zero M
  else
    let num ← Proc.mul M a.num b.den
    let den ← Proc.mul M a.den b.num
    makeRat M gOne num den) a b

def neg (r : Handle) : Proc Handle := unary (fun r => do
  let num ← Proc.neg M r.num
  let den ← Proc.copy M r.den
  pure ⟨num, den⟩) r

def recip (r : Handle) : Proc Handle := unary (fun r => do
  if ← Proc.isZero r.num then zero M
  else
    let num ← Proc.copy M r.den
    let den ← Proc.copy M r.num
    makeRat M gOne num den) r

def compare (a b : Handle) : Proc Int := do
  let a ← onFst (deref .dangling a)
  let b ← onFst (deref .dangling b)
  onSnd (compareProducts M a b)

end procedures

/-! ## Lowest terms -/

/-- The normal form of the rational number `q`. -/
structure Lowest (num den : Int) (q : ℚ) : Prop where
  den_pos : 0 < den
  coprime : Int.gcd num den = 1
  value : (num : ℚ) / den = q

section lowest
variable {x y : Int} {p q : ℚ}

theorem lowest_iff : Lowest x y q ↔ x = q.num ∧ y = q.den := by
  constructor
  · rintro ⟨hpos, hcop, rfl⟩
    exact ⟨(Rat.num_div_eq_of_coprime hpos hcop).symm, (Rat.den_div_eq_of_coprime hpos hcop).symm⟩
  · rintro ⟨rfl, rfl⟩
    refine ⟨by exact_mod_cast q.den_pos, ?_, by exact_mod_cast Rat.num_div_den q⟩
    rw [Int.gcd, Int.natAbs_natCast]
    exact q.reduced

theorem lowest_num_den (q : ℚ) : Lowest q.num q.den q := lowest_iff.2 ⟨rfl, rfl⟩

/-- Equal numbers have equal parts. -/
theorem Lowest.eq_iff {x' y' : Int} (h : Lowest x y p) (h' : Lowest x' y' q) : p = q ↔ x = x' ∧ y = y' := by
  obtain ⟨rfl, rfl⟩ := lowest_iff.1 h
  obtain ⟨rfl, rfl⟩ := lowest_iff.1 h'
  constructor
  · rintro rfl
    exact ⟨rfl, rfl⟩
  · rintro ⟨hnum, hden⟩
    exact Rat.ext hnum (by exact_mod_cast hden)

/-- What `MakeRat` computes, by its sign fix and its gcd. -/
theorem div_gcd (hy : y ≠ 0) :
    (y.sign * x).tdiv (Int.gcd x y) = ((x : ℚ) / y).num ∧ |y|.tdiv (Int.gcd x y) = ((x : ℚ) / y).den := by
  have hg : 0 < Int.gcd x y := Int.gcd_pos_of_ne_zero_right x hy
  obtain ⟨u, v, hcop, hx, hv⟩ := Int.exists_gcd_one hg
  generalize hd : (Int.gcd x y : Int) = g at hx hv ⊢
  have hgpos : 0 < g := by omega
  have hvne : v ≠ 0 := by
    rintro rfl
    rw [Int.zero_mul] at hv
    exact hy hv
  have hsign : y.sign = v.sign := by rw [hv, Int.sign_mul, Int.sign_eq_one_of_pos hgpos, Int.mul_one]
  have hnum : (y.sign * x).tdiv g = v.sign * u := by
    rw [hsign, hx, ← mul_assoc, Int.mul_tdiv_cancel _ hgpos.ne']
  have hden : |y|.tdiv g = |v| := by
    rw [hv, abs_mul, abs_of_pos hgpos, Int.mul_tdiv_cancel _ hgpos.ne']
  have hlowest : Lowest (v.sign * u) |v| ((x : ℚ) / y) := by
    refine ⟨abs_pos.2 hvne, ?_, ?_⟩
    · rw [Int.gcd, Int.natAbs_mul, Int.natAbs_sign_of_ne_zero hvne, Nat.one_mul, Int.natAbs_abs]
      exact hcop
    · have hvQ : (v : ℚ) ≠ 0 := by exact_mod_cast hvne
      have hgQ : (g : ℚ) ≠ 0 := by exact_mod_cast hgpos.ne'
      have habs : ((|v| : ℤ) : ℚ) = v.sign * v := by rw [← Int.sign_mul_self_eq_abs]; push_cast; rfl
      have hsQ : (v.sign : ℚ) ≠ 0 := by exact_mod_cast mt Int.sign_eq_zero_iff_zero.1 hvne
      rw [habs, hx, hv]
      push_cast
      field_simp
  rw [hnum, hden]
  exact lowest_iff.1 hlowest

end lowest

/-! ## Limbs -/

section sizes
variable {x y : Int}

theorem size_mul_le (x y : Int) : size (x * y) ≤ size x + size y := by
  rw [size_le_iff, Int.natAbs_mul, pow_add]
  exact Nat.mul_lt_mul'' (size_le_iff.1 le_rfl) (size_le_iff.1 le_rfl)

/-- The limbs of the numerator. -/
def numLen (q : ℚ) : Nat := size q.num

/-- The limbs of the denominator. -/
def denLen (q : ℚ) : Nat := size (q.den : Int)

/-- One of the two products that `Add`, `Sub` and `Compare` form is wider than the view. -/
def WideProducts (p q : ℚ) : Prop := maxIdx + 1 < numLen p + denLen q ∨ maxIdx + 1 < numLen q + denLen p

end sizes

/-! ## What the programs on numbers do -/

section numbers
variable {allowed : BigInt.Fault → Prop} {h h₀ : Heap Rep} {c num den gOne : Handle} {x y z z' : Int} {p q : ℚ}
  {own : List (Handle × Int)} (M : Storage)

/-- The record `f` owns the two parts of `q` and nothing else. -/
abbrev OwnsRat (h₀ h : Heap Rep) (f : Rec) (q : ℚ) : Prop :=
  Owns Rep.Is h₀ h [(f.den, (q.den : Int)), (f.num, q.num)]

theorem replace_owns (f : Handle → BigInt.Proc Handle) (ho : Owns Rep.Is h₀ h ((c, z) :: own))
    (hf : Runs allowed (f c h) fun r => Owns Rep.Is h r.2 [(r.1, z')]) :
    Runs allowed (replace f c h) fun r => Owns Rep.Is h₀ r.2 ((r.1, z') :: own) := by
  refine hf.bindS ?_
  intro t h₁ hown
  refine (dispose_runs (ho.trans hown).second).bindS ?_
  intro _ h₂ hown
  exact Runs.ok hown

theorem fromCard_one_owns :
    Runs allowed (Proc.fromCard M 1 h) fun r => Owns Rep.Is h r.2 [(r.1, 1)] := fromCard_owns M 1

theorem makeRat_owns (ho : Owns Rep.Is h₀ h [(den, y), (num, x)]) (hone : Holds Rep.Is h₀ gOne 1)
    (hy : y ≠ 0) (hidx : Overfull (size x) (size y) → allowed .indexException) :
    Runs allowed (makeRat M gOne num den h) fun r => OwnsRat h₀ r.2 r.1 (x / y) := by
  have hmax : 1 < maxIdx := by decide
  rw [Overfull] at hidx
  have habs : size |y| = size y := by rw [size, Int.natAbs_abs, size]
  have hflip : size (y.sign * x) = size x := by
    rw [size, Int.natAbs_mul, Int.natAbs_sign_of_ne_zero hy, Nat.one_mul, size]
  rw [makeRat]
  refine (sign_reads ho.head).bind ?_
  rintro _ rfl
  have hfix : Runs allowed ((if y.sign < 0 then do
      let num ← replace (Proc.neg M) num
      let den ← replace (Proc.neg M) den
      pure (num, den)
    else pure (num, den)) h) fun r => Owns Rep.Is h₀ r.2 [(r.1.2, |y|), (r.1.1, y.sign * x)] := by
    by_cases hneg : y.sign < 0
    · have hy' := Int.sign_neg_iff.1 hneg
      rw [if_pos hneg, abs_of_neg hy', Int.sign_eq_neg_one_of_neg hy', neg_one_mul]
      refine (replace_owns _ ho.second (neg_owns M ho.second.head fun h => hidx (by omega))).bindS ?_
      intro num' h₁ ho₁
      refine (replace_owns _ ho₁.second (neg_owns M ho₁.second.head fun h => hidx (by omega))).bindS ?_
      intro den' h₂ ho₂
      exact Runs.ok ho₂
    · have hy' : 0 < y := by
        rw [Int.sign_neg_iff] at hneg
        omega
      rw [if_neg hneg, abs_of_pos hy', Int.sign_eq_one_of_pos hy', one_mul]
      exact Runs.ok ho
  refine hfix.bindS ?_
  rintro ⟨num', den'⟩ h₁ ho₁
  refine (isZero_reads ho₁.second.head).bind ?_
  rintro _ rfl
  have hzero : y.sign * x = 0 ↔ x = 0 := by
    rw [mul_eq_zero, Int.sign_eq_zero_iff_zero]
    exact or_iff_right hy
  dsimp only
  by_cases hx : x = 0
  · rw [decide_eq_true (hzero.2 hx), if_pos rfl, hx, Int.cast_zero, zero_div]
    refine (dispose_runs ho₁).bindS ?_
    intro _ h₂ ho₂
    rw [hzero.2 hx] at ho₂
    refine (fromCard_one_owns M).bindS ?_
    intro den'' h₃ ho₃
    exact Runs.ok (ho₂.trans ho₃)
  · rw [decide_eq_false (mt hzero.1 hx), if_neg Bool.false_ne_true]
    refine (gcd_owns M ho₁.second.head ho₁.head fun h => hidx (by rwa [hflip, habs] at h)).bindS ?_
    intro g h₂ ho₂
    have hgcd : Int.gcd (y.sign * x) |y| = Int.gcd x y := by
      rw [Int.gcd, Int.natAbs_mul, Int.natAbs_sign_of_ne_zero hy, Nat.one_mul, Int.natAbs_abs, Int.gcd]
    rw [hgcd] at ho₂
    have hgpos : 0 < Int.gcd x y := Int.gcd_pos_of_ne_zero_right x hy
    have hgsize : size (Int.gcd x y : Int) ≤ size y :=
      size_mono (Nat.le_of_dvd (Int.natAbs_pos.2 hy) (Int.gcd_dvd_natAbs_right x y))
    have hgsize' : size (Int.gcd x y : Int) ≤ size x :=
      size_mono (Nat.le_of_dvd (Int.natAbs_pos.2 hx) (Int.gcd_dvd_natAbs_left x y))
    have ho₂' := ho₁.trans ho₂
    have hsizeOne : size 1 = 1 := by decide
    refine (compare_reads ho₂'.head (hone.mono ho₂'.old) fun _ h h' => hidx (by omega)).bind ?_
    rintro _ rfl
    obtain ⟨hnum, hden⟩ := div_gcd (x := x) hy
    have hdiv : Runs allowed ((if ((Int.gcd x y : Int) - 1).sign ≠ 0 then do
        let num ← replace (fun num => Proc.div M num g) num'
        let den ← replace (fun den => Proc.div M den g) den'
        pure (num, den)
      else pure (num', den')) h₂) fun r => Owns Rep.Is h₀ r.2
        [(r.1.2, (((x : ℚ) / y).den : Int)), (r.1.1, ((x : ℚ) / y).num), (g, (Int.gcd x y : Int))] := by
      by_cases hone' : ((Int.gcd x y : Int) - 1).sign ≠ 0
      · have hgne : (Int.gcd x y : Int) ≠ 0 := by omega
        rw [if_pos hone', ← hnum, ← hden]
        refine (replace_owns (Proc.div M · g) ho₂'.third (div_owns M ho₂'.third.head ho₂'.head hgne
          (fun h => hidx (by omega)) fun _ h => hidx (by omega))).bindS ?_
        intro num'' h₃ ho₃
        refine (replace_owns (Proc.div M · g) ho₃.third (div_owns M ho₃.third.head ho₃.second.head hgne
          (fun h => hidx (by omega)) fun _ h => hidx (by omega))).bindS ?_
        intro den'' h₄ ho₄
        exact Runs.ok ho₄
      · have hg1 : (Int.gcd x y : Int) = 1 := by
          rw [not_not, Int.sign_eq_zero_iff_zero] at hone'
          omega
        rw [if_neg hone']
        rw [hg1, Int.tdiv_one] at hnum hden
        rw [← hnum, ← hden]
        exact Runs.ok ho₂'.third.third
    refine hdiv.bindS ?_
    rintro ⟨num'', den''⟩ h₃ ho₃
    refine (dispose_runs ho₃.third).bindS ?_
    intro _ h₄ ho₄
    exact Runs.ok ho₄

theorem zero_owns : Runs allowed (zero M h) fun r => OwnsRat h r.2 r.1 0 := by
  rw [zero]
  refine (fromCard_owns M 0).bindS ?_
  intro num h₁ ho₁
  refine (fromCard_one_owns M).bindS ?_
  intro den h₂ ho₂
  exact Runs.ok (ho₁.trans ho₂)

/-- A record that holds `q`. -/
structure HoldsParts (h : Heap Rep) (f : Rec) (q : ℚ) : Prop where
  num : Holds Rep.Is h f.num q.num
  den : Holds Rep.Is h f.den (q.den : Int)

theorem HoldsParts.mono {h' : Heap Rep} {f : Rec} (hf : HoldsParts h f q) (hpre : h <+: h') :
    HoldsParts h' f q := ⟨hf.num.mono hpre, hf.den.mono hpre⟩

section fractions
variable {a b f : Rec}

/-- Two products that are made into a number in lowest terms. -/
theorem quotient_owns {n d : BigInt.Proc Handle} {u v u' v' : Int}
    (hn : Runs allowed (n h) fun r => Owns Rep.Is h r.2 [(r.1, u * v)])
    (hd : ∀ h₁, h <+: h₁ → Runs allowed (d h₁) fun r => Owns Rep.Is h₁ r.2 [(r.1, u' * v')])
    (hone : Holds Rep.Is h gOne 1) (hne : u' * v' ≠ 0)
    (hidx : Overfull (size u + size v) (size u' + size v') → allowed .indexException) :
    Runs allowed ((do
      let num ← n
      let den ← d
      makeRat M gOne num den : BigInt.Proc Rec) h) fun r =>
        OwnsRat h r.2 r.1 (((u * v : Int) : ℚ) / ((u' * v' : Int) : ℚ)) := by
  refine hn.bindS ?_
  intro num h₁ ho₁
  refine (hd h₁ ho₁.old).bindS ?_
  intro den h₂ ho₂
  exact makeRat_owns M (ho₁.trans ho₂) hone hne fun h => hidx (h.mono (size_mul_le u v) (size_mul_le u' v'))

theorem den_ne_zero (q : ℚ) : (q.den : Int) ≠ 0 := by exact_mod_cast q.den_ne_zero

theorem den_cast_ne_zero (q : ℚ) : (q.den : ℚ) ≠ 0 := by exact_mod_cast q.den_ne_zero

theorem crossed_owns {op : Handle → Handle → BigInt.Proc Handle} {g : Int → Int → Int}
    (hop : ∀ {h₁ : Heap Rep} {c d : Handle} {x y : Int}, Holds Rep.Is h₁ c x → Holds Rep.Is h₁ d y →
      (maxIdx + 1 < size x ∨ maxIdx + 1 < size y ∨ maxIdx + 1 < size (g x y) → allowed .indexException) →
      Runs allowed (op c d h₁) fun r => Owns Rep.Is h₁ r.2 [(r.1, g x y)])
    (ha : HoldsParts h a p) (hb : HoldsParts h b q) (hone : Holds Rep.Is h gOne 1)
    (hidx : WideProducts p q ∨ Overfull (size (g (p.num * q.den) (q.num * p.den))) (denLen p + denLen q) →
      allowed .indexException) :
    Runs allowed (crossed M gOne op a b h) fun r => OwnsRat h r.2 r.1
      ((g (p.num * q.den) (q.num * p.den) : Int) / ((p.den * q.den : Int) : ℚ)) := by
  have h₁ := size_mul_le p.num q.den
  have h₂ := size_mul_le q.num p.den
  have h₃ := size_mul_le (p.den : Int) q.den
  have hleft : maxIdx + 1 < size p.num + size (q.den : Int) → allowed .indexException := fun h =>
    hidx (.inl (.inl h))
  have hright : maxIdx + 1 < size q.num + size (p.den : Int) → allowed .indexException := fun h =>
    hidx (.inl (.inr h))
  rw [crossed]
  refine (mul_owns M ha.num hb.den fun _ _ => hleft).bindS ?_
  intro p1 s₁ ho₁
  have hb₁ := hb.mono ho₁.old
  refine (mul_owns M hb₁.num (ha.mono ho₁.old).den fun _ _ => hright).bindS ?_
  intro p2 s₂ ho₂
  have ho₁₂ := ho₁.trans ho₂
  have hsum : maxIdx + 1 < size (p.num * q.den) ∨ maxIdx + 1 < size (q.num * p.den) ∨
      maxIdx + 1 < size (g (p.num * q.den) (q.num * p.den)) → allowed .indexException := by
    rintro (h | h | h)
    · exact hleft (h.trans_le h₁)
    · exact hright (h.trans_le h₂)
    · exact hidx (.inr (.inl h))
  refine (hop ho₁₂.second.head ho₁₂.head hsum).bindS ?_
  intro num s₃ ho₃
  have ho₁₃ := ho₁₂.trans ho₃
  refine (mul_owns M (ha.mono ho₁₃.old).den (hb.mono ho₁₃.old).den
    fun _ _ h => hidx (.inr (.inr (.inl h)))).bindS ?_
  intro den s₄ ho₄
  have ho := ho₁₃.trans ho₄
  simp only [List.cons_append, List.nil_append] at ho
  -- the two products are the last of what is owned
  have hown := ho.perm (@List.perm_append_comm _ [_, _] [_, _])
  refine (dispose_runs hown.second).bindS ?_
  intro _ s₅ ho₅
  refine (dispose_runs ho₅).bindS ?_
  intro _ s₆ ho₆
  exact makeRat_owns M ho₆ hone (mul_ne_zero (den_ne_zero p) (den_ne_zero q))
    fun h => hidx (.inr (h.mono le_rfl h₃))

theorem sign_sub_eq (p q : ℚ) : (p.num * q.den - q.num * p.den).sign =
    if p < q then -1 else if p = q then 0 else 1 := by
  have hlt : p < q ↔ p.num * q.den < q.num * p.den := Rat.lt_iff p q
  have heq : p = q ↔ p.num * q.den = q.num * p.den := Rat.eq_iff_mul_eq_mul
  split_ifs with h h'
  · rw [hlt] at h
    exact Int.sign_eq_neg_one_of_neg (by omega)
  · rw [heq] at h'
    rw [h', sub_self, Int.sign_zero]
  · rw [hlt] at h
    rw [heq] at h'
    exact Int.sign_eq_one_of_pos (by omega)

theorem compareProducts_owns (ha : HoldsParts h a p) (hb : HoldsParts h b q)
    (hidx : WideProducts p q → allowed .indexException) :
    Runs allowed (compareProducts M a b h) fun r =>
      r.1 = (if p < q then -1 else if p = q then 0 else 1) ∧ Owns Rep.Is h r.2 [] := by
  rw [compareProducts, ← sign_sub_eq]
  refine (mul_owns M ha.num hb.den fun _ _ h => hidx (.inl h)).bindS ?_
  intro p1 s₁ ho₁
  refine (mul_owns M (hb.mono ho₁.old).num (ha.mono ho₁.old).den fun _ _ h => hidx (.inr h)).bindS ?_
  intro p2 s₂ ho₂
  have ho := ho₁.trans ho₂
  refine (compare_reads ho.second.head ho.head fun _ _ h =>
    hidx (.inl (h.trans_le (size_mul_le p.num q.den)))).bind ?_
  rintro _ rfl
  refine (dispose_runs ho.second).bindS ?_
  intro _ s₃ ho₃
  refine (dispose_runs ho₃).bindS ?_
  intro _ s₄ ho₄
  exact Runs.ok ⟨rfl, ho₄⟩

/-- Two new numbers that are the parts already. -/
theorem pair_owns {n d : BigInt.Proc Handle}
    (hn : Runs allowed (n h) fun r => Owns Rep.Is h r.2 [(r.1, q.num)])
    (hd : ∀ h₁, h <+: h₁ → Runs allowed (d h₁) fun r => Owns Rep.Is h₁ r.2 [(r.1, (q.den : Int))]) :
    Runs allowed ((do
      let num ← n
      let den ← d
      pure ⟨num, den⟩ : BigInt.Proc Rec) h) fun r => OwnsRat h r.2 r.1 q := by
  refine hn.bindS ?_
  intro num h₁ ho₁
  refine (hd h₁ ho₁.old).bindS ?_
  intro den h₂ ho₂
  exact Runs.ok (ho₁.trans ho₂)

end fractions
end numbers

/-! ## What the procedures do -/

section procedures
variable {allowed : BigInt.Fault → Prop} {s s' : Heap Rec × Heap Rep} {a b gOne : Handle} {p q z : ℚ}

/-- The record at a handle is the rational number `q` in lowest terms. -/
def HoldsRat (s : Heap Rec × Heap Rep) (r : Handle) (q : ℚ) : Prop :=
  ∃ f x y, s.1[r]? = some (some f) ∧ Holds Rep.Is s.2 f.num x ∧ Holds Rep.Is s.2 f.den y ∧ Lowest x y q

/-- All there was is as it was, and new are a record, which is `q` in lowest terms, and its two numbers. -/
def MakesRat (s s' : Heap Rec × Heap Rep) (r : Handle) (q : ℚ) : Prop :=
  ∃ f x y, Owns Eq s.1 s'.1 [(r, f)] ∧ Owns Rep.Is s.2 s'.2 [(f.den, y), (f.num, x)] ∧ Lowest x y q

/-- All there was is as it was, and nothing is new. -/
def MakesNothing (s s' : Heap Rec × Heap Rep) : Prop := Owns Eq s.1 s'.1 [] ∧ Owns Rep.Is s.2 s'.2 []

theorem HoldsRat.parts (h : HoldsRat s a q) :
    ∃ f, Holds Eq s.1 a f ∧ HoldsParts s.2 f q := by
  obtain ⟨f, x, y, hf, hx, hy, hlow⟩ := h
  obtain ⟨rfl, rfl⟩ := lowest_iff.1 hlow
  exact ⟨f, ⟨f, hf, rfl⟩, hx, hy⟩

/-- What a procedure makes is held, and what was held before it still is. -/
theorem MakesRat.holds (h : MakesRat s s' a q) : HoldsRat s' a q := by
  obtain ⟨f, x, y, hrec, hnum, hlow⟩ := h
  obtain ⟨f', hf, rfl⟩ := hrec.head
  exact ⟨_, x, y, hf, hnum.second.head, hnum.head, hlow⟩

theorem HoldsRat.keep (h : HoldsRat s b p) (hm : MakesRat s s' a q) : HoldsRat s' b p := by
  obtain ⟨f, x, y, hf, hx, hy, hlow⟩ := h
  obtain ⟨g, u, v, hrec, hnum, -⟩ := hm
  have hlt := (List.getElem?_eq_some_iff.1 hf).1
  exact ⟨f, x, y, (getElem?_eq_old hrec.old hlt).trans hf, hx.mono hnum.old, hy.mono hnum.old, hlow⟩

theorem newRecRaw_makes {f : BigInt.Proc Rec} (hf : Runs allowed (f s.2) fun r => OwnsRat s.2 r.2 r.1 q) :
    Runs allowed (newRecRaw f s) fun r => MakesRat s r.2 r.1 q := by
  refine (onSnd_runs hf).bindS ?_
  rintro r ⟨s₁, s₂⟩ ⟨hown, rfl⟩
  have hfresh : Runs allowed (onFst (fresh r) (s.1, s₂)) _ := onFst_runs (fresh_runs (Eq.refl r))
  refine hfresh.mono ?_
  rintro ⟨c, s₁', s₂'⟩ ⟨hrec, rfl⟩
  exact ⟨r, q.num, q.den, hrec, hown, lowest_num_den q⟩

theorem rec_reads {f : Rec} (ha : Holds Eq s.1 a f) :
    Reads allowed (onFst (deref BigInt.Fault.dangling a)) s (· = f) := by
  refine (onFst_runs (deref_reads ha)).mono ?_
  rintro ⟨f', s₁, s₂⟩ ⟨⟨hf, hs₁⟩, hs₂⟩
  exact ⟨hf, Prod.ext hs₁ hs₂⟩

theorem unary_makes {f : Rec → BigInt.Proc Rec} (ha : HoldsRat s a p)
    (hf : ∀ r, HoldsParts s.2 r p → Runs allowed (f r s.2) fun q => OwnsRat s.2 q.2 q.1 z) :
    Runs allowed (unary f a s) fun r => MakesRat s r.2 r.1 z := by
  obtain ⟨r, hr, hparts⟩ := ha.parts
  refine (rec_reads hr).bind ?_
  rintro _ rfl
  exact newRecRaw_makes (hf _ hparts)

theorem binary_makes {f : Rec → Rec → BigInt.Proc Rec} (ha : HoldsRat s a p) (hb : HoldsRat s b q)
    (hf : ∀ r r', HoldsParts s.2 r p → HoldsParts s.2 r' q →
      Runs allowed (f r r' s.2) fun q => OwnsRat s.2 q.2 q.1 z) :
    Runs allowed (binary f a b s) fun r => MakesRat s r.2 r.1 z := by
  obtain ⟨r, hr, hparts⟩ := ha.parts
  obtain ⟨r', hr', hparts'⟩ := hb.parts
  refine (rec_reads hr).bind ?_
  rintro _ rfl
  refine (rec_reads hr').bind ?_
  rintro _ rfl
  exact newRecRaw_makes (hf _ _ hparts hparts')

variable (M : Storage)

theorem create_makes : Runs allowed (create M s) fun r => MakesRat s r.2 r.1 0 :=
  newRecRaw_makes (zero_owns M)

theorem copy_makes (ha : HoldsRat s a p)
    (hidx : maxIdx + 1 < numLen p ∨ maxIdx + 1 < denLen p → allowed .indexException) :
    Runs allowed (copy M a s) fun r => MakesRat s r.2 r.1 p :=
  unary_makes ha fun _ hr => pair_owns (copy_owns M hr.num fun h => hidx (.inl h))
    fun _ hpre => copy_owns M (hr.den.mono hpre) fun h => hidx (.inr h)

theorem neg_makes (ha : HoldsRat s a p)
    (hidx : maxIdx + 1 < numLen p ∨ maxIdx + 1 < denLen p → allowed .indexException) :
    Runs allowed (neg M a s) fun r => MakesRat s r.2 r.1 (-p) := by
  refine unary_makes ha fun r hr => pair_owns ?_ fun h₁ hpre => ?_
  · exact neg_owns M hr.num fun h => hidx (.inl h)
  · rw [Rat.neg_den]
    exact copy_owns M (hr.den.mono hpre) fun h => hidx (.inr h)

theorem fromInt_makes (v : Word) : Runs allowed (fromInt M v s) fun r => MakesRat s r.2 r.1 v.toInt := by
  refine newRecRaw_makes (pair_owns ?_ fun h₁ _ => ?_)
  · rw [Rat.num_intCast]
    exact fromInt_owns M v
  · exact fromCard_one_owns M

theorem size_word_le (v : Word) : size v.toInt ≤ 1 := by
  have hlt := v.isLt
  rw [size_le_iff, pow_one]
  rw [BitVec.toInt_eq_toNat_cond]
  split_ifs <;> omega

/-- With the denominator 0 the result is 0, as the quotient of rational numbers is. -/
theorem fromRatio_makes (num den : Word) (hone : Holds Rep.Is s.2 gOne 1) :
    Runs allowed (fromRatio M gOne num den s) fun r => MakesRat s r.2 r.1 (num.toInt / den.toInt) := by
  rw [fromRatio]
  by_cases hden : den = 0
  · have hzero : ((0 : Word).toInt : ℚ) = 0 := rfl
    rw [if_pos hden, hden, hzero, div_zero]
    exact create_makes M
  · have hne : den.toInt ≠ 0 := fun h => hden (BitVec.eq_of_toInt_eq h)
    have hmax : 1 < maxIdx := by decide
    have h₁ := size_word_le num
    have h₂ := size_word_le den
    rw [if_neg hden]
    refine newRecRaw_makes ?_
    refine (fromInt_owns M num).bindS ?_
    intro num' s₁ ho₁
    refine (fromInt_owns M den).bindS ?_
    intro den' s₂ ho₂
    exact makeRat_owns M (ho₁.trans ho₂) hone hne fun h => absurd h (by rw [Overfull]; omega)

theorem fromBigInt_makes {x : Int} (ha : Holds Rep.Is s.2 a x)
    (hidx : maxIdx + 1 < size x → allowed .indexException) :
    Runs allowed (fromBigInt M a s) fun r => MakesRat s r.2 r.1 x := by
  refine newRecRaw_makes (pair_owns ?_ fun h₁ _ => ?_)
  · rw [Rat.num_intCast]
    exact copy_owns M ha hidx
  · exact fromCard_one_owns M

/-- A zero test in front of a quotient. -/
theorem unless_zero {f : BigInt.Proc Rec} {h : Heap Rep} {y : Int} {c : Handle} (hc : Holds Rep.Is h c y)
    (h0 : y = 0 → z = 0) (hf : y ≠ 0 → Runs allowed (f h) fun r => OwnsRat h r.2 r.1 z) :
    Runs allowed ((do
      if ← Proc.isZero c then zero M
      else f : BigInt.Proc Rec) h) fun r => OwnsRat h r.2 r.1 z := by
  refine (isZero_reads hc).bind ?_
  rintro _ rfl
  by_cases hy : y = 0
  · rw [decide_eq_true hy, if_pos rfl, h0 hy]
    exact zero_owns M
  · rw [decide_eq_false hy, if_neg Bool.false_ne_true]
    exact hf hy

theorem fromBigRatio_makes {x y : Int} (ha : Holds Rep.Is s.2 a x) (hb : Holds Rep.Is s.2 b y)
    (hone : Holds Rep.Is s.2 gOne 1) (hidx : y ≠ 0 → Overfull (size x) (size y) → allowed .indexException) :
    Runs allowed (fromBigRatio M gOne a b s) fun r => MakesRat s r.2 r.1 (x / y) := by
  have hzero : y = 0 → (x : ℚ) / y = 0 := fun h => by rw [h, Int.cast_zero, div_zero]
  refine newRecRaw_makes (unless_zero M hb hzero fun hy => ?_)
  refine (copy_owns M ha fun h => hidx hy (.inl h)).bindS ?_
  intro num s₁ ho₁
  refine (copy_owns M (hb.mono ho₁.old) fun h => hidx hy (.inr (.inl h))).bindS ?_
  intro den s₂ ho₂
  exact makeRat_owns M (ho₁.trans ho₂) hone hy (hidx hy)

theorem recip_makes (ha : HoldsRat s a p) (hone : Holds Rep.Is s.2 gOne 1)
    (hidx : p ≠ 0 → Overfull (denLen p) (numLen p) → allowed .indexException) :
    Runs allowed (recip M gOne a s) fun r => MakesRat s r.2 r.1 p⁻¹ := by
  have hvalue : p⁻¹ = ((p.den : Int) : ℚ) / (p.num : ℚ) := by
    rw [Int.cast_natCast, ← inv_div, Rat.num_div_den]
  rw [hvalue]
  have hzero : p.num = 0 → ((p.den : Int) : ℚ) / (p.num : ℚ) = 0 := fun h => by
    rw [h, Int.cast_zero, div_zero]
  refine unary_makes ha fun r hr => unless_zero M hr.num hzero fun hne => ?_
  have hp := Rat.num_ne_zero.1 hne
  refine (copy_owns M hr.den fun h => hidx hp (.inl h)).bindS ?_
  intro num s₁ ho₁
  refine (copy_owns M (hr.num.mono ho₁.old) fun h => hidx hp (.inr (.inl h))).bindS ?_
  intro den s₂ ho₂
  exact makeRat_owns M (ho₁.trans ho₂) hone hne (hidx hp)

section two
variable (ha : HoldsRat s a p) (hb : HoldsRat s b q) (hone : Holds Rep.Is s.2 gOne 1)
include ha hb

theorem compare_makes (hidx : WideProducts p q → allowed .indexException) : Runs allowed (compare M a b s) fun r =>
    r.1 = (if p < q then -1 else if p = q then 0 else 1) ∧ MakesNothing s r.2 := by
  obtain ⟨r, hr, hparts⟩ := ha.parts
  obtain ⟨r', hr', hparts'⟩ := hb.parts
  refine (rec_reads hr).bind ?_
  rintro _ rfl
  refine (rec_reads hr').bind ?_
  rintro _ rfl
  refine (onSnd_runs (compareProducts_owns M hparts hparts' hidx)).mono ?_
  rintro ⟨c, s₁, s₂⟩ ⟨⟨hc, hown⟩, rfl⟩
  exact ⟨hc, Owns.nil, hown⟩

include hone

theorem add_makes (hidx : WideProducts p q ∨
      Overfull (size (p.num * q.den + q.num * p.den)) (denLen p + denLen q) → allowed .indexException) :
    Runs allowed (add M gOne a b s) fun r => MakesRat s r.2 r.1 (p + q) := by
  have hvalue : p + q = ((p.num * q.den + q.num * p.den : Int) : ℚ) / ((p.den * q.den : Int) : ℚ) := by
    nth_rewrite 1 [← Rat.num_div_den p, ← Rat.num_div_den q]
    have hp := den_cast_ne_zero p
    have hq := den_cast_ne_zero q
    push_cast
    field_simp
  rw [hvalue]
  exact binary_makes ha hb fun r r' hr hr' => crossed_owns M (fun hc hd => add_owns M hc hd) hr hr'
    hone hidx

theorem sub_makes (hidx : WideProducts p q ∨
      Overfull (size (p.num * q.den - q.num * p.den)) (denLen p + denLen q) → allowed .indexException) :
    Runs allowed (sub M gOne a b s) fun r => MakesRat s r.2 r.1 (p - q) := by
  have hvalue : p - q = ((p.num * q.den - q.num * p.den : Int) : ℚ) / ((p.den * q.den : Int) : ℚ) := by
    nth_rewrite 1 [← Rat.num_div_den p, ← Rat.num_div_den q]
    have hp := den_cast_ne_zero p
    have hq := den_cast_ne_zero q
    push_cast
    field_simp
  rw [hvalue]
  exact binary_makes ha hb fun r r' hr hr' => crossed_owns M (fun hc hd => sub_owns M hc hd) hr hr'
    hone hidx

theorem mul_makes (hidx : Overfull (numLen p + numLen q) (denLen p + denLen q) → allowed .indexException) :
    Runs allowed (mul M gOne a b s) fun r => MakesRat s r.2 r.1 (p * q) := by
  have hvalue : p * q = ((p.num * q.num : Int) : ℚ) / ((p.den * q.den : Int) : ℚ) := by
    nth_rewrite 1 [← Rat.num_div_den p, ← Rat.num_div_den q]
    push_cast
    rw [div_mul_div_comm]
  rw [hvalue]
  refine binary_makes ha hb fun r r' hr hr' => quotient_owns M (mul_owns M hr.num hr'.num ?_)
    (fun h₁ hpre => mul_owns M (hr.den.mono hpre) (hr'.den.mono hpre) ?_) hone
    (mul_ne_zero (den_ne_zero p) (den_ne_zero q)) hidx
  · exact fun _ _ h => hidx (.inl h)
  · exact fun _ _ h => hidx (.inr (.inl h))

theorem div_makes
    (hidx : q ≠ 0 → Overfull (numLen p + denLen q) (denLen p + numLen q) → allowed .indexException) :
    Runs allowed (div M gOne a b s) fun r => MakesRat s r.2 r.1 (p / q) := by
  have hvalue : p / q = ((p.num * q.den : Int) : ℚ) / ((p.den * q.num : Int) : ℚ) := by
    nth_rewrite 1 [← Rat.num_div_den p, ← Rat.num_div_den q]
    push_cast
    rw [div_div_div_eq]
  rw [hvalue]
  have hzero : q.num = 0 → ((p.num * q.den : Int) : ℚ) / ((p.den * q.num : Int) : ℚ) = 0 := fun h => by
    rw [h, mul_zero, Int.cast_zero, div_zero]
  refine binary_makes ha hb fun r r' hr hr' => unless_zero M hr'.num hzero fun hne =>
    quotient_owns M (mul_owns M hr.num hr'.den ?_)
      (fun h₁ hpre => mul_owns M (hr.den.mono hpre) (hr'.num.mono hpre) ?_) hone
      (mul_ne_zero (den_ne_zero p) hne) (hidx (Rat.num_ne_zero.1 hne))
  · exact fun _ _ h => hidx (Rat.num_ne_zero.1 hne) (.inl h)
  · exact fun _ _ h => hidx (Rat.num_ne_zero.1 hne) (.inr (.inl h))

end two
end procedures

/-- The rational numbers that the module makes are in lowest terms and exact, equal ones have equal parts,
and the arguments stay as they were. What may stop an operation is the index check of the limbs, where a
number that it forms has more of them than the view. -/
theorem rational_exact (M : Storage) {s : Heap Rec × Heap Rep} {gOne a b m n : Handle} {p q : ℚ}
    {x y : Int} (ha : HoldsRat s a p) (hb : HoldsRat s b q) (hm : Holds Rep.Is s.2 m x)
    (hn : Holds Rep.Is s.2 n y) (hone : Holds Rep.Is s.2 gOne 1) (num den : Word) :
    let raises := fun (c : Prop) e => e = BigInt.Fault.indexException ∧ c
    let sum := fun z => WideProducts p q ∨ Overfull (size z) (denLen p + denLen q)
    let part := maxIdx + 1 < numLen p ∨ maxIdx + 1 < denLen p
    Runs (fun _ => False) (fromRatio M gOne num den s)
      (fun r => MakesRat s r.2 r.1 (num.toInt / den.toInt)) ∧
    Runs (raises (y ≠ 0 ∧ Overfull (size x) (size y))) (fromBigRatio M gOne m n s)
      (fun r => MakesRat s r.2 r.1 (x / y)) ∧
    Runs (raises (sum (p.num * q.den + q.num * p.den))) (add M gOne a b s)
      (fun r => MakesRat s r.2 r.1 (p + q)) ∧
    Runs (raises (sum (p.num * q.den - q.num * p.den))) (sub M gOne a b s)
      (fun r => MakesRat s r.2 r.1 (p - q)) ∧
    Runs (raises (Overfull (numLen p + numLen q) (denLen p + denLen q))) (mul M gOne a b s)
      (fun r => MakesRat s r.2 r.1 (p * q)) ∧
    Runs (raises (q ≠ 0 ∧ Overfull (numLen p + denLen q) (denLen p + numLen q))) (div M gOne a b s)
      (fun r => MakesRat s r.2 r.1 (p / q)) ∧
    Runs (raises part) (neg M a s) (fun r => MakesRat s r.2 r.1 (-p)) ∧
    Runs (raises (p ≠ 0 ∧ Overfull (denLen p) (numLen p))) (recip M gOne a s)
      (fun r => MakesRat s r.2 r.1 p⁻¹) ∧
    Runs (raises part) (copy M a s) (fun r => MakesRat s r.2 r.1 p) ∧
    Runs (raises (WideProducts p q)) (compare M a b s) (fun r =>
      r.1 = (if p < q then -1 else if p = q then 0 else 1) ∧ MakesNothing s r.2) ∧
    ∀ u v u' v', Lowest u v p → Lowest u' v' q → (p = q ↔ u = u' ∧ v = v') := by
  intro raises sum part
  have hidx : ∀ {c : Prop}, c → raises c .indexException := fun h => ⟨rfl, h⟩
  exact ⟨fromRatio_makes M num den hone, fromBigRatio_makes M hm hn hone fun h₁ h₂ => hidx ⟨h₁, h₂⟩,
    add_makes M ha hb hone hidx, sub_makes M ha hb hone hidx, mul_makes M ha hb hone hidx,
    div_makes M ha hb hone fun h₁ h₂ => hidx ⟨h₁, h₂⟩, neg_makes M ha hidx,
    recip_makes M ha hone fun h₁ h₂ => hidx ⟨h₁, h₂⟩, copy_makes M ha hidx, compare_makes M ha hb hidx,
    fun u v u' v' h h' => h.eq_iff h'⟩

/-- A number of one limb. -/
def limb (k : Word) : Rep := { sign := 1, len := 1, limbs := [k] }

theorem limb_is {k : Word} (hk : k ≠ 0) : (limb k).Is k.toNat :=
  ⟨one_limb hk (l := [k]) Nat.one_pos, (Int.sign_natCast_of_ne_zero (toNat_pos hk).ne').symm⟩

/-- 1/2 and 1/3, and the 1 of the module. -/
def halfThird : Heap Rec × Heap Rep :=
  ([some ⟨0, 1⟩, some ⟨2, 3⟩], [some (limb 1), some (limb 2), some (limb 1), some (limb 3), some (limb 1)])

theorem halfThird_half : HoldsRat halfThird 0 (1 / 2) :=
  ⟨_, 1, 2, rfl, ⟨_, rfl, limb_is (k := 1) (by decide)⟩, ⟨_, rfl, limb_is (k := 2) (by decide)⟩,
    by decide, by decide, by norm_num⟩

theorem halfThird_third : HoldsRat halfThird 1 (1 / 3) :=
  ⟨_, 1, 3, rfl, ⟨_, rfl, limb_is (k := 1) (by decide)⟩, ⟨_, rfl, limb_is (k := 3) (by decide)⟩,
    by decide, by decide, by norm_num⟩

theorem halfThird_two : Holds Rep.Is halfThird.2 1 2 := ⟨limb 2, rfl, limb_is (by decide)⟩

theorem halfThird_three : Holds Rep.Is halfThird.2 3 3 := ⟨limb 3, rfl, limb_is (by decide)⟩

theorem halfThird_one : Holds Rep.Is halfThird.2 4 1 := ⟨limb 1, rfl, limb_is (by decide)⟩

theorem rational_exact_half_third :
    HoldsRat halfThird 0 (1 / 2) ∧ HoldsRat halfThird 1 (1 / 3) ∧ Holds Rep.Is halfThird.2 1 2 ∧
    Holds Rep.Is halfThird.2 3 3 ∧ Holds Rep.Is halfThird.2 4 1 ∧
    Runs (fun e => e = BigInt.Fault.indexException ∧
        (maxIdx + 1 < numLen (1 / 2) ∨ maxIdx + 1 < denLen (1 / 2))) (neg cleared 0 halfThird) (fun r => MakesRat halfThird r.2 r.1 (-(1 / 2))) ∧
    Runs (fun e => e = BigInt.Fault.indexException ∧ WideProducts (1 / 2) (1 / 3)) (compare cleared 0 1 halfThird) (fun r =>
        r.1 = (if (1 / 2 : ℚ) < 1 / 3 then -1 else if (1 / 2 : ℚ) = 1 / 3 then 0 else 1) ∧
          MakesNothing halfThird r.2) := by
  obtain ⟨-, -, -, -, -, -, hneg, -, -, hcompare, -⟩ := rational_exact cleared halfThird_half
    halfThird_third halfThird_two halfThird_three halfThird_one 4 6
  exact ⟨halfThird_half, halfThird_third, halfThird_two, halfThird_three, halfThird_one, hneg, hcompare⟩

/-- A numerator that fills the view, over 1, and 5 over 1. -/
def wideFive : Heap Rec × Heap Rep :=
  ([some ⟨0, 1⟩, some ⟨2, 3⟩], [some widest, some (limb 1), some five, some (limb 1), some (limb 1)])

theorem lowest_int (x : Int) : Lowest x 1 x :=
  ⟨one_pos, Int.gcd_one_right x, by rw [Int.cast_one, div_one]⟩

theorem binary_error {f : Rec → Rec → BigInt.Proc Rec} {s : Heap Rec × Heap Rep} {a b : Handle} {r r' : Rec}
    {e : BigInt.Fault} (ha : s.1[a]? = some (some r)) (hb : s.1[b]? = some (some r')) (hf : f r r' s.2 = .error e) :
    binary f a b s = .error e := by
  have hx : onFst (deref BigInt.Fault.dangling a) s = .ok (r, s) := by
    rw [onFst, deref, ha]
    rfl
  have hy : onFst (deref BigInt.Fault.dangling b) s = .ok (r', s) := by
    rw [onFst, deref, hb]
    rfl
  rw [binary, bindS_ok hx, bindS_ok hy]
  exact bindS_error (onSnd_error hf) _

theorem wideFive_num : Holds Rep.Is wideFive.2 0 widest.toInt :=
  ⟨widest, rfl, Rep.is_iff.2 ⟨widest_inv, rfl⟩⟩

theorem wideFive_unit {c : Handle} (hc : wideFive.2[c]? = some (some (limb 1))) :
    Holds Rep.Is wideFive.2 c 1 := ⟨limb 1, hc, limb_is (by decide)⟩

/-- The product of two rational numbers is not made. -/
theorem mul_wideFive : HoldsRat wideFive 0 widest.toInt ∧ HoldsRat wideFive 1 five.toInt ∧
    Holds Rep.Is wideFive.2 4 1 ∧ mul cleared 4 0 1 wideFive = .error .indexException := by
  have hfiveNum : Holds Rep.Is wideFive.2 2 five.toInt := ⟨five, rfl, Rep.is_iff.2 ⟨five_inv, rfl⟩⟩
  refine ⟨⟨⟨0, 1⟩, widest.toInt, 1, rfl, wideFive_num, wideFive_unit rfl, lowest_int _⟩,
    ⟨⟨2, 3⟩, five.toInt, 1, rfl, hfiveNum, wideFive_unit rfl, lowest_int _⟩, wideFive_unit rfl, ?_⟩
  have hlen : maxIdx + 1 < widest.len + five.len := Nat.lt_succ_self (maxIdx + 1)
  have hmul : Proc.mul cleared 0 2 wideFive.2 = .error .indexException :=
    BigInt.binary_error (List.getElem?_cons_zero ..) rfl (mul_wide (by decide) (by decide) hlen)
  exact binary_error rfl rfl (bindS_error hmul _)

end NewM2.Winrt.BigRat
