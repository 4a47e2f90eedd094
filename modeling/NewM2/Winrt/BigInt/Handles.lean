import Mathlib
import NewM2.Lib.Handles
import NewM2.Winrt.BigInt.Division

/-!
# Handles of numbers (`library/winrtmod/BigInt.mod`)

The public procedures, on handles. Each returns new records and leaves those there are as they were;
`Pow` and `Gcd` dispose of what they make on the way. No procedure disposes of NIL. -/

namespace NewM2.Winrt.BigInt
open Handles

abbrev Proc := StateT (Heap Rep) (Except Fault)

/-- A procedure of one number that returns a new one. -/
def unary (f : Rep → Except Fault Rep) (a : Handle) : Proc Handle := do
  let x ← deref .dangling a
  let r ← pureOn (f x)
  fresh r

/-- A procedure of two numbers, which may be one and the same, that returns a new one. -/
def binary (f : Rep → Rep → Except Fault Rep) (a b : Handle) : Proc Handle := do
  let x ← deref .dangling a
  let y ← deref .dangling b
  let r ← pureOn (f x y)
  fresh r

namespace Proc

def compare (a b : Handle) : Proc Int := do
  let x ← deref .dangling a
  let y ← deref .dangling b
  pureOn (BigInt.compare x y)

def sign (a : Handle) : Proc Int := do
  let x ← deref .dangling a
  pure x.sign

def isZero (a : Handle) : Proc Bool := do
  let x ← deref .dangling a
  pure (decide (x.sign = 0))

variable (M : Storage)

def create : Proc Handle := fresh (BigInt.create M)

def fromCard (v : Word) : Proc Handle := do
  let r ← pureOn (BigInt.fromCard M v)
  fresh r

def fromInt (v : Word) : Proc Handle := do
  let r ← pureOn (BigInt.fromInt M v)
  fresh r

def copy (a : Handle) : Proc Handle := unary (BigInt.copy M) a

def neg (a : Handle) : Proc Handle := unary (BigInt.neg M) a

def abs (a : Handle) : Proc Handle := unary (BigInt.abs M) a

def add (a b : Handle) : Proc Handle := binary (BigInt.add M) a b

def sub (a b : Handle) : Proc Handle := binary (BigInt.sub M) a b

def mul (a b : Handle) : Proc Handle := binary (BigInt.mul M) a b

/-- The result, `q` and `r`. -/
def divMod (a b : Handle) : Proc (Bool × Handle × Handle) := do
  let x ← deref .dangling a
  let y ← deref .dangling b
  let (ok, q, r) ← pureOn (BigInt.divMod M x y)
  let q ← fresh q
  let r ← fresh r
  pure (ok, q, r)

def div (a b : Handle) : Proc Handle := do
  let (_, q, r) ← divMod M a b
  dispose .dangling r
  pure q

def mod (a b : Handle) : Proc Handle := do
  let (_, q, r) ← divMod M a b
  dispose .dangling q
  pure r

/-- `t := Mul(x, y); Dispose(x)`, for `x := t` -/
def mulInto (x y : Handle) : Proc Handle := do
  let t ← mul M x y
  dispose .dangling x
  pure t

/-- The loop of `Pow`: `result` and `b`. -/
def powLoop (e : Word) (result b : Handle) : Proc (Handle × Handle) :=
  if e = 0 then pure (result, b)
  else do
    let result ← (if e &&& 1 ≠ 0 then mulInto M result b else pure result)
    let b ← (if e >>> 1 ≠ 0 then mulInto M b b else pure b)
    powLoop (e >>> 1) result b
termination_by e.toNat
decreasing_by
  have hpos := toNat_pos ‹¬ e = 0›
  rw [BitVec.toNat_ushiftRight, Nat.shiftRight_eq_div_pow]
  omega

def pow (base : Handle) (exp : Word) : Proc Handle := do
  let result ← fromCard M 1
  let b ← copy M base
  let (result, b) ← powLoop M exp result b
  dispose .dangling b
  pure result

/-- The loop of `Gcd` in at most so many rounds: `x` and `y`. -/
def gcdLoop : Nat → Handle → Handle → Proc (Handle × Handle)
  | 0, _, _ => pureOn (.error .rounds)
  | n + 1, x, y => do
    if (← sign y) ≠ 0 then
      let (_, q, r) ← divMod M x y
      dispose .dangling q
      dispose .dangling x
      gcdLoop n y r
    else pure (x, y)

/-- The loop ends, for `y` becomes smaller. -/
def gcd (a b : Handle) : Proc Handle := do
  let x ← abs M a
  let y ← abs M b
  let rounds := (← deref .dangling y).toInt.natAbs + 1
  let (x, y) ← gcdLoop M rounds x y
  dispose .dangling y
  pure x

end Proc

/-! ## Limbs of a number -/

/-- The limbs that a number needs. -/
def size (z : Int) : Nat := ((2 ^ 64).digits z.natAbs).length

theorem size_le_iff {z : Int} {k : Nat} : size z ≤ k ↔ z.natAbs < (2 ^ 64) ^ k :=
  Nat.digits_length_le_iff (by norm_num) _

theorem lt_size_iff {z : Int} {k : Nat} : k < size z ↔ (2 ^ 64) ^ k ≤ z.natAbs :=
  Nat.lt_digits_length_iff (by norm_num) _

theorem limit_le_iff {z : Int} : limit ≤ z.natAbs ↔ maxIdx + 1 < size z := lt_size_iff.symm

theorem Rep.Is.len_eq {p : Rep} {z : Int} (h : p.Is z) : p.len = size z :=
  le_antisymm (h.mag.len_le (size_le_iff.1 le_rfl)) (size_le_iff.2 h.mag.lt_pow)

theorem size_mono {y z : Int} (h : y.natAbs ≤ z.natAbs) : size y ≤ size z :=
  size_le_iff.2 (h.trans_lt (size_le_iff.1 le_rfl))

/-- A product has at most one limb less than its factors together. -/
theorem size_add_size_le {x y : Int} (hx : x ≠ 0) (hy : y ≠ 0) : size x + size y ≤ size (x * y) + 1 := by
  have hpos : ∀ {z : Int}, z ≠ 0 → 0 < size z := fun hz => by
    rw [lt_size_iff, pow_zero]
    exact Int.natAbs_pos.2 hz
  have hm : (2 ^ 64) ^ (size x - 1) ≤ x.natAbs := lt_size_iff.1 (Nat.sub_lt (hpos hx) one_pos)
  have hn : (2 ^ 64) ^ (size y - 1) ≤ y.natAbs := lt_size_iff.1 (Nat.sub_lt (hpos hy) one_pos)
  have hprod : size x - 1 + (size y - 1) < size (x * y) := by
    rw [lt_size_iff, pow_add, Int.natAbs_mul]
    exact Nat.mul_le_mul hm hn
  omega

theorem size_pow_mono {x : Int} (hx : x ≠ 0) {i j : Nat} (h : i ≤ j) : size (x ^ i) ≤ size (x ^ j) := by
  refine size_mono ?_
  rw [Int.natAbs_pow, Int.natAbs_pow]
  exact Nat.pow_le_pow_right (Int.natAbs_pos.2 hx) h

/-- One of two lengths is beyond the view, or both reach its end. -/
def Overfull (k l : Nat) : Prop := maxIdx + 1 < k ∨ maxIdx + 1 < l ∨ maxIdx < k ∧ maxIdx < l

theorem Overfull.mono {k l k' l' : Nat} (hk : k ≤ k') (hl : l ≤ l') (h : Overfull k l) : Overfull k' l' :=
  h.imp (·.trans_le hk) (Or.imp (·.trans_le hl) (And.imp (·.trans_le hk) (·.trans_le hl)))

/-! ## What the procedures do -/

section runs
variable {allowed : Fault → Prop} {h h₀ : Heap Rep} {a b : Handle} {x y : Int}

theorem unary_runs {f : Rep → Except Fault Rep} {z : Int} (ha : Holds Rep.Is h a x)
    (hf : ∀ p, p.Is x → Runs allowed (f p) (·.Is z)) :
    Runs allowed (unary f a h) fun q => Owns Rep.Is h q.2 [(q.1, z)] := by
  refine (deref_reads ha).bind ?_
  intro p hp
  refine (pureOn_reads (hf p hp)).bind ?_
  intro r hr
  exact fresh_runs hr

theorem binary_runs {f : Rep → Rep → Except Fault Rep} {z : Int} (ha : Holds Rep.Is h a x)
    (hb : Holds Rep.Is h b y) (hf : ∀ p q, p.Is x → q.Is y → Runs allowed (f p q) (·.Is z)) :
    Runs allowed (binary f a b h) fun q => Owns Rep.Is h q.2 [(q.1, z)] := by
  refine (deref_reads ha).bind ?_
  intro p hp
  refine (deref_reads hb).bind ?_
  intro p' hp'
  refine (pureOn_reads (hf p p' hp hp')).bind ?_
  intro r hr
  exact fresh_runs hr

theorem compare_reads (ha : Holds Rep.Is h a x) (hb : Holds Rep.Is h b y)
    (hidx : x.sign = y.sign → size x = size y → maxIdx + 1 < size x → allowed .indexException) :
    Reads allowed (Proc.compare a b) h (· = (x - y).sign) := by
  refine (deref_reads ha).bind ?_
  intro p hp
  refine (deref_reads hb).bind ?_
  intro p' hp'
  rw [← hp.len_eq, ← hp'.len_eq] at hidx
  exact pureOn_reads (compare_runs hp hp' hidx)

theorem sign_reads (ha : Holds Rep.Is h a x) :
    Reads allowed (Proc.sign a) h (· = x.sign) := by
  refine (deref_reads ha).bind ?_
  intro p hp
  exact Runs.ok ⟨hp.sign, rfl⟩

theorem isZero_reads (ha : Holds Rep.Is h a x) :
    Reads allowed (Proc.isZero a) h (· = decide (x = 0)) := by
  refine (deref_reads ha).bind ?_
  intro p hp
  exact Runs.ok ⟨decide_eq_decide.2 hp.sign_eq_zero, rfl⟩

variable (M : Storage)

theorem create_owns : Runs allowed (Proc.create M h) fun q => Owns Rep.Is h q.2 [(q.1, 0)] :=
  fresh_runs (create_is M)

theorem fromCard_owns (v : Word) :
    Runs allowed (Proc.fromCard M v h) fun q => Owns Rep.Is h q.2 [(q.1, (v.toNat : Int))] := by
  refine (pureOn_reads (fromCard_runs M v)).bind ?_
  intro r hr
  exact fresh_runs hr

theorem fromInt_owns (v : Word) :
    Runs allowed (Proc.fromInt M v h) fun q => Owns Rep.Is h q.2 [(q.1, v.toInt)] := by
  refine (pureOn_reads (fromInt_runs M v)).bind ?_
  intro r hr
  exact fresh_runs hr

theorem copy_owns (ha : Holds Rep.Is h a x) (hidx : maxIdx + 1 < size x → allowed .indexException) :
    Runs allowed (Proc.copy M a h) fun q => Owns Rep.Is h q.2 [(q.1, x)] :=
  unary_runs ha fun _ hp => copy_runs M hp fun hlt => hidx (hp.len_eq ▸ hlt)

theorem neg_owns (ha : Holds Rep.Is h a x) (hidx : maxIdx + 1 < size x → allowed .indexException) :
    Runs allowed (Proc.neg M a h) fun q => Owns Rep.Is h q.2 [(q.1, -x)] :=
  unary_runs ha fun _ hp => neg_runs M hp fun hlt => hidx (hp.len_eq ▸ hlt)

theorem abs_owns (ha : Holds Rep.Is h a x) (hidx : maxIdx + 1 < size x → allowed .indexException) :
    Runs allowed (Proc.abs M a h) fun q => Owns Rep.Is h q.2 [(q.1, |x|)] :=
  unary_runs ha fun _ hp => abs_runs M hp fun hlt => hidx (hp.len_eq ▸ hlt)

theorem add_owns (ha : Holds Rep.Is h a x) (hb : Holds Rep.Is h b y)
    (hidx : maxIdx + 1 < size x ∨ maxIdx + 1 < size y ∨ maxIdx + 1 < size (x + y) → allowed .indexException) :
    Runs allowed (Proc.add M a b h) fun q => Owns Rep.Is h q.2 [(q.1, x + y)] :=
  binary_runs ha hb fun _ _ hp hq => add_runs M hp hq fun h => hidx (by
    rwa [hp.len_eq, hq.len_eq, limit_le_iff] at h)

theorem sub_owns (ha : Holds Rep.Is h a x) (hb : Holds Rep.Is h b y)
    (hidx : maxIdx + 1 < size x ∨ maxIdx + 1 < size y ∨ maxIdx + 1 < size (x - y) → allowed .indexException) :
    Runs allowed (Proc.sub M a b h) fun q => Owns Rep.Is h q.2 [(q.1, x - y)] :=
  binary_runs ha hb fun _ _ hp hq => sub_runs M hp hq fun h => hidx (by
    rwa [hp.len_eq, hq.len_eq, limit_le_iff] at h)

theorem mul_owns (ha : Holds Rep.Is h a x) (hb : Holds Rep.Is h b y)
    (hidx : x ≠ 0 → y ≠ 0 → maxIdx + 1 < size x + size y → allowed .indexException) :
    Runs allowed (Proc.mul M a b h) fun q => Owns Rep.Is h q.2 [(q.1, x * y)] :=
  binary_runs ha hb fun _ _ hp hq => mul_runs M hp hq fun hx hy hlt =>
    hidx hx hy (hp.len_eq ▸ hq.len_eq ▸ hlt)

/-- The quotient and the remainder are two new records. -/
theorem divMod_owns (ha : Holds Rep.Is h a x) (hb : Holds Rep.Is h b y) (hy : y ≠ 0)
    (hidx : maxIdx + 1 < size x → allowed .indexException)
    (hidx' : y.natAbs ≤ x.natAbs → maxIdx < size y → allowed .indexException) :
    Runs allowed (Proc.divMod M a b h) fun q => q.1.1 = true ∧
      Owns Rep.Is h q.2 [(q.1.2.2, x.tmod y), (q.1.2.1, x.tdiv y)] := by
  refine (deref_reads ha).bind ?_
  intro p hp
  refine (deref_reads hb).bind ?_
  intro p' hp'
  refine (pureOn_reads (divMod_runs M hp hp' hy (fun hlt => hidx (hp.len_eq ▸ hlt))
    fun hle hlt => hidx' hle (hp'.len_eq ▸ hlt))).bind ?_
  rintro ⟨ok, q, r⟩ ⟨hok, hq, hr⟩
  refine (fresh_runs hq).bindS ?_
  intro c h₁ hown
  refine (fresh_runs hr).bindS ?_
  intro c' h₂ hown'
  exact Runs.ok ⟨hok, hown.trans hown'⟩

theorem div_owns (ha : Holds Rep.Is h a x) (hb : Holds Rep.Is h b y) (hy : y ≠ 0)
    (hidx : maxIdx + 1 < size x → allowed .indexException)
    (hidx' : y.natAbs ≤ x.natAbs → maxIdx < size y → allowed .indexException) :
    Runs allowed (Proc.div M a b h) fun q => Owns Rep.Is h q.2 [(q.1, x.tdiv y)] := by
  refine (divMod_owns M ha hb hy hidx hidx').bindS ?_
  rintro ⟨ok, q, r⟩ h₁ ⟨-, hown⟩
  refine (dispose_runs hown).bindS ?_
  intro _ h₂ hown
  exact Runs.ok hown

theorem mod_owns (ha : Holds Rep.Is h a x) (hb : Holds Rep.Is h b y) (hy : y ≠ 0)
    (hidx : maxIdx + 1 < size x → allowed .indexException)
    (hidx' : y.natAbs ≤ x.natAbs → maxIdx < size y → allowed .indexException) :
    Runs allowed (Proc.mod M a b h) fun q => Owns Rep.Is h q.2 [(q.1, x.tmod y)] := by
  refine (divMod_owns M ha hb hy hidx hidx').bindS ?_
  rintro ⟨ok, q, r⟩ h₁ ⟨-, hown⟩
  refine (dispose_runs hown.second).bindS ?_
  intro _ h₂ hown
  exact Runs.ok hown

/-- A number that is owned is replaced by its product with another. -/
theorem mulInto_owns {own : List (Handle × Int)} (ho : Owns Rep.Is h₀ h ((a, x) :: own))
    (hb : Holds Rep.Is h b y) (hidx : x ≠ 0 → y ≠ 0 → maxIdx + 1 < size x + size y → allowed .indexException) :
    Runs allowed (Proc.mulInto M a b h) fun q => Owns Rep.Is h₀ q.2 ((q.1, x * y) :: own) := by
  refine (mul_owns M ho.head hb hidx).bindS ?_
  intro t h₁ hown
  refine (dispose_runs (ho.trans hown).second).bindS ?_
  intro _ h₂ hown
  exact Runs.ok hown

theorem toNat_shr (e : Word) : (e >>> 1).toNat = e.toNat / 2 := by
  rw [BitVec.toNat_ushiftRight, Nat.shiftRight_eq_div_pow, pow_one]

theorem and_one_ne_zero (e : Word) : e &&& 1 ≠ 0 ↔ e.toNat % 2 = 1 := by
  have hbit : (e &&& 1).toNat = e.toNat % 2 := by
    rw [BitVec.toNat_and]
    exact Nat.and_one_is_mod _
  rw [Ne, ← BitVec.toNat_inj, hbit]
  change ¬ _ = 0 ↔ _
  omega

/-- The bits of the exponent that are done are those of `i`, and `b` is the power for the next one. -/
theorem powLoop_owns {e : Word} {result : Handle} {i j n : Nat} (hj : 0 < j)
    (hn : i + j * e.toNat = n) (hidx : maxIdx < size (x ^ n) → allowed .indexException)
    (ho : Owns Rep.Is h₀ h [(b, x ^ j), (result, x ^ i)]) :
    Runs allowed (Proc.powLoop M e result b h) fun q =>
      ∃ w, Owns Rep.Is h₀ q.2 [(q.1.2, w), (q.1.1, x ^ n)] := by
  induction hk : e.toNat using Nat.strong_induction_on generalizing e i j result b h with
  | _ k ih =>
    rw [Proc.powLoop]
    by_cases he : e = 0
    · rw [if_pos he]
      subst he
      have hin : i = n := hn
      rw [hin] at ho
      exact Runs.ok ⟨_, ho⟩
    · have hpos := toNat_pos he
      have hhalf := toNat_shr e
      rw [if_neg he]
      -- the powers that are multiplied have together at most one limb more than the result
      have hfit : ∀ {k}, k + j ≤ n → x ^ k ≠ 0 → x ^ j ≠ 0 → maxIdx + 1 < size (x ^ k) + size (x ^ j) →
          allowed .indexException := fun {k} hk h₁ h₂ h => by
        have hx : x ≠ 0 := by
          rintro rfl
          exact h₂ (zero_pow hj.ne')
        have hprod := size_add_size_le h₁ h₂
        rw [← pow_add] at hprod
        have hmono := size_pow_mono hx hk
        exact hidx (by omega)
      have hodd : Runs allowed ((if e &&& 1 ≠ 0 then Proc.mulInto M result b else pure result) h) fun q =>
          Owns Rep.Is h₀ q.2 [(q.1, x ^ (i + j * (e.toNat % 2))), (b, x ^ j)] := by
        split_ifs with hbit
        · rw [and_one_ne_zero] at hbit
          rw [hbit, Nat.mul_one, pow_add]
          refine mulInto_owns M ho.second ho.head (hfit ?_)
          rw [← hn]
          exact Nat.add_le_add_left (Nat.le_mul_of_pos_right j hpos) i
        · have hbit' : e.toNat % 2 = 0 := by
            have := mt (and_one_ne_zero e).2 hbit
            omega
          rw [hbit', Nat.mul_zero, Nat.add_zero]
          exact Runs.ok ho.second
      refine hodd.bindS ?_
      intro result' h₁ ho₁
      have hsquare : Runs allowed ((if e >>> 1 ≠ 0 then Proc.mulInto M b b else pure b) h₁) fun q =>
          ∃ j', 0 < j' ∧ (e >>> 1 ≠ 0 → j' = j + j) ∧
            Owns Rep.Is h₀ q.2 [(q.1, x ^ j'), (result', x ^ (i + j * (e.toNat % 2)))] := by
        split_ifs with hbit
        · have hpos' := toNat_pos hbit
          refine (mulInto_owns M ho₁.second ho₁.second.head (hfit ?_)).mono
            fun q hq => ⟨j + j, by omega, fun _ => rfl, by rwa [pow_add]⟩
          rw [← hn, ← Nat.mul_two]
          exact (Nat.mul_le_mul_left j (by omega)).trans (Nat.le_add_left _ i)
        · exact Runs.ok ⟨j, hj, fun h => absurd h hbit, ho₁.second⟩
      refine hsquare.bindS ?_
      rintro b' h₂ ⟨j', hj', hdouble, ho₂⟩
      refine ih (e >>> 1).toNat (by omega) hj' ?_ ho₂ rfl
      by_cases hlast : e >>> 1 = 0
      · have hone : e.toNat / 2 = 0 := by
          rw [← hhalf, hlast]
          rfl
        have hmod : e.toNat % 2 = e.toNat := by omega
        rw [hhalf, hone, hmod, Nat.mul_zero, Nat.add_zero, hn]
      · rw [hdouble hlast, hhalf, ← hn]
        nth_rewrite 3 [← Nat.div_add_mod e.toNat 2]
        ring

theorem pow_owns {exp : Word} (ha : Holds Rep.Is h a x)
    (hidx : maxIdx + 1 < size x ∨ maxIdx < size (x ^ exp.toNat) → allowed .indexException) :
    Runs allowed (Proc.pow M a exp h) fun q => Owns Rep.Is h q.2 [(q.1, x ^ exp.toNat)] := by
  refine (fromCard_owns M 1).bindS ?_
  intro result h₁ ho₁
  refine (copy_owns M (ha.mono ho₁.old) fun h => hidx (.inl h)).bindS ?_
  intro b h₂ ho₂
  have ho : Owns Rep.Is h h₂ [(b, x ^ 1), (result, x ^ 0)] := by simpa using ho₁.trans ho₂
  have hexp : 0 + 1 * exp.toNat = exp.toNat := by omega
  refine (powLoop_owns M one_pos hexp (fun h => hidx (.inr h)) ho).bindS ?_
  rintro ⟨result', b'⟩ h₃ ⟨w, ho₃⟩
  refine (dispose_runs ho₃).bindS ?_
  intro _ h₄ ho₄
  exact Runs.ok ho₄

theorem gcdLoop_owns {x y : Handle} {u v n : Nat} (hn : v < n)
    (hidx : maxIdx + 1 < size u ∨ maxIdx + 1 < size v → allowed .indexException)
    (hidx' : maxIdx < size u → maxIdx < size v → allowed .indexException)
    (ho : Owns Rep.Is h₀ h [(y, (v : Int)), (x, (u : Int))]) :
    Runs allowed (Proc.gcdLoop M n x y h) fun q =>
      Owns Rep.Is h₀ q.2 [(q.1.2, 0), (q.1.1, (Nat.gcd u v : Int))] := by
  induction n generalizing x y u v h with
  | zero => exact absurd hn (Nat.not_lt_zero v)
  | succ n ih =>
    rw [Proc.gcdLoop]
    refine (sign_reads ho.head).bind ?_
    rintro _ rfl
    by_cases hv : (v : Int).sign ≠ 0
    · rw [if_pos hv]
      have hv0 : (v : Int) ≠ 0 := mt Int.sign_eq_zero_iff_zero.2 hv
      refine (divMod_owns M ho.second.head ho.head hv0 (fun h => hidx (.inl h)) fun hle hlt =>
        hidx' (hlt.trans_le (size_mono hle)) hlt).bindS ?_
      rintro ⟨ok, q, r⟩ h₁ ⟨-, hown⟩
      have ho₁ := ho.trans hown
      rw [← Int.ofNat_tmod] at ho₁
      refine (dispose_runs ho₁.second).bindS ?_
      intro _ h₂ ho₂
      refine (dispose_runs ho₂.third).bindS ?_
      intro _ h₃ ho₃
      have hpos : 0 < v := by omega
      have hmono : ∀ k, u % v ≤ k → size ((u % v : Nat) : Int) ≤ size (k : Int) := fun k hk =>
        size_mono (by rwa [Int.natAbs_natCast, Int.natAbs_natCast])
      have hsize := hmono u (Nat.mod_le u v)
      have hsize' := hmono v (Nat.mod_lt u hpos).le
      have hgcd : Nat.gcd u v = Nat.gcd v (u % v) := by rw [Nat.gcd_comm, Nat.gcd_rec, Nat.gcd_comm]
      rw [hgcd]
      refine ih ((Nat.mod_lt u hpos).trans_le (Nat.le_of_lt_succ hn)) (fun h => hidx (.inr ?_))
        (fun h h' => hidx' (h'.trans_le hsize) h) ho₃
      exact h.elim id fun h => h.trans_le hsize'
    · have hv0 : (v : Int) = 0 := Int.sign_eq_zero_iff_zero.1 (not_not.1 hv)
      have hv0' : v = 0 := by omega
      subst hv0'
      rw [if_neg hv, Nat.gcd_zero_right]
      exact Runs.ok ho

theorem gcd_owns (ha : Holds Rep.Is h a x) (hb : Holds Rep.Is h b y)
    (hidx : Overfull (size x) (size y) → allowed .indexException) :
    Runs allowed (Proc.gcd M a b h) fun q => Owns Rep.Is h q.2 [(q.1, (Int.gcd x y : Int))] := by
  refine (abs_owns M ha fun h => hidx (.inl h)).bindS ?_
  intro x' h₁ ho₁
  refine (abs_owns M (hb.mono ho₁.old) fun h => hidx (.inr (.inl h))).bindS ?_
  intro y' h₂ ho₂
  have ho := ho₁.trans ho₂
  refine (deref_reads ho.head).bind ?_
  intro p hp
  rw [hp.toInt_eq]
  have habs : ∀ z : Int, |z| = (z.natAbs : Int) := Int.abs_eq_natAbs
  have hsize : ∀ z : Int, size (z.natAbs : Int) = size z := fun z => by
    rw [size, Int.natAbs_natCast, size]
  rw [habs, Int.natAbs_natCast]
  simp only [List.cons_append, List.nil_append, habs] at ho
  have hloop : Runs allowed (Proc.gcdLoop M _ x' y' h₂) _ := gcdLoop_owns M (Nat.lt_succ_self y.natAbs)
    (fun h => hidx (by rw [hsize, hsize] at h; exact h.imp_right .inl))
    (fun h h' => hidx (by rw [hsize] at h h'; exact .inr (.inr ⟨h, h'⟩))) ho
  refine hloop.bindS ?_
  rintro ⟨x'', y''⟩ h₃ ho₃
  refine (dispose_runs ho₃).bindS ?_
  intro _ h₄ ho₄
  exact Runs.ok ho₄

end runs

/-! ## The public procedures -/

/-- The records that a procedure makes, each with its number, in the heap `h'` that it leaves. -/
abbrev Makes (h h' : Heap Rep) (own : List (Handle × Int)) : Prop :=
  Owns (fun r z => r.Inv ∧ r.toInt = z) h h' own

theorem makes_iff {h h' : Heap Rep} {own : List (Handle × Int)} :
    Makes h h' own ↔ Owns Rep.Is h h' own := by
  have heq : Rep.Is = fun r z => r.Inv ∧ r.toInt = z := by
    funext r z
    exact propext Rep.is_iff
  rw [Makes, heq]

/-- Every operation is exact and leaves its arguments as they were. What may stop it is the index check
of the limbs, where a number has more of them than the view. -/
theorem operations_exact (M : Storage) {h : Heap Rep} {a b : Handle} {p q : Rep}
    (ha : h[a]? = some (some p)) (hb : h[b]? = some (some q)) (hp : p.Inv) (hq : q.Inv) (exp : Word) :
    let raises := fun (c : Prop) (e : Fault) => e = Fault.indexException ∧ c
    let sum := fun z => maxIdx + 1 < p.len ∨ maxIdx + 1 < q.len ∨ maxIdx + 1 < size z
    Runs (raises (sum (p.toInt + q.toInt))) (Proc.add M a b h)
      (fun r => Makes h r.2 [(r.1, p.toInt + q.toInt)]) ∧
    Runs (raises (sum (p.toInt - q.toInt))) (Proc.sub M a b h)
      (fun r => Makes h r.2 [(r.1, p.toInt - q.toInt)]) ∧
    Runs (raises (p.toInt ≠ 0 ∧ q.toInt ≠ 0 ∧ maxIdx + 1 < p.len + q.len)) (Proc.mul M a b h)
      (fun r => Makes h r.2 [(r.1, p.toInt * q.toInt)]) ∧
    Runs (raises (maxIdx + 1 < p.len)) (Proc.neg M a h) (fun r => Makes h r.2 [(r.1, -p.toInt)]) ∧
    Runs (raises (maxIdx + 1 < p.len)) (Proc.abs M a h) (fun r => Makes h r.2 [(r.1, |p.toInt|)]) ∧
    Runs (raises (maxIdx + 1 < p.len ∨ maxIdx < size (p.toInt ^ exp.toNat))) (Proc.pow M a exp h)
      (fun r => Makes h r.2 [(r.1, p.toInt ^ exp.toNat)]) ∧
    Runs (raises (Overfull p.len q.len)) (Proc.gcd M a b h)
      (fun r => Makes h r.2 [(r.1, (Int.gcd p.toInt q.toInt : Int))]) ∧
    (q.toInt ≠ 0 → Runs (raises (maxIdx + 1 < p.len ∨ |q.toInt| ≤ |p.toInt| ∧ maxIdx < q.len))
      (Proc.divMod M a b h) fun r => r.1.1 = true ∧
        ∃ u v, Makes h r.2 [(r.1.2.2, v), (r.1.2.1, u)] ∧ p.toInt = u * q.toInt + v ∧
          |v| < |q.toInt| ∧ (v = 0 ∨ v.sign = p.toInt.sign)) ∧
    Runs (raises (p.sign = q.sign ∧ p.len = q.len ∧ maxIdx + 1 < p.len)) (Proc.compare a b h)
      (fun r => r.1 = (p.toInt - q.toInt).sign ∧ r.2 = h) := by
  intro raises sum
  have hp' : p.Is p.toInt := Rep.is_iff.2 ⟨hp, rfl⟩
  have hq' : q.Is q.toInt := Rep.is_iff.2 ⟨hq, rfl⟩
  have hx : Holds Rep.Is h a p.toInt := ⟨p, ha, hp'⟩
  have hy : Holds Rep.Is h b q.toInt := ⟨q, hb, hq'⟩
  simp only [makes_iff, sum, hp'.len_eq, hq'.len_eq, hp'.sign, hq'.sign]
  refine ⟨add_owns M hx hy fun h => ⟨rfl, h⟩, sub_owns M hx hy fun h => ⟨rfl, h⟩,
    mul_owns M hx hy fun h₁ h₂ h₃ => ⟨rfl, h₁, h₂, h₃⟩, neg_owns M hx fun h => ⟨rfl, h⟩,
    abs_owns M hx fun h => ⟨rfl, h⟩, pow_owns M hx fun h => ⟨rfl, h⟩, gcd_owns M hx hy fun h => ⟨rfl, h⟩,
    fun hne => ?_, compare_reads hx hy fun h₁ h₂ h₃ => ⟨rfl, h₁, h₂, h₃⟩⟩
  have hle : q.toInt.natAbs ≤ p.toInt.natAbs → |q.toInt| ≤ |p.toInt| := fun h => by
    rw [Int.abs_eq_natAbs, Int.abs_eq_natAbs]
    exact_mod_cast h
  refine (divMod_owns M hx hy hne (fun h => ⟨rfl, .inl h⟩) fun h₁ h₂ => ⟨rfl, .inr ⟨hle h₁, h₂⟩⟩).mono ?_
  rintro ⟨⟨ok, u, v⟩, h'⟩ ⟨hok, hown⟩
  refine ⟨hok, _, _, hown, ?_, ?_, ?_⟩
  · rw [mul_comm]
    exact (Int.mul_tdiv_add_tmod _ _).symm
  · rw [Int.abs_eq_natAbs, Int.abs_eq_natAbs, Int.natAbs_tmod]
    exact_mod_cast Nat.mod_lt _ (Int.natAbs_pos.2 hne)
  · by_cases h0 : p.toInt.tmod q.toInt = 0
    · exact .inl h0
    · exact .inr (sign_tmod h0).symm

/-- Storage that is cleared. -/
def cleared : Storage := ⟨fun cap => List.replicate cap 0, fun _ => List.length_replicate⟩

def five : Rep := { sign := 1, len := 1, limbs := [5] }

def minusThree : Rep := { sign := -1, len := 1, limbs := [3] }

theorem five_inv : five.Inv := ⟨by decide, by decide, by decide, by decide⟩

theorem minusThree_inv : minusThree.Inv := ⟨by decide, by decide, by decide, by decide⟩

theorem operations_exact_five :
    ([some five, some minusThree])[0]? = some (some five) ∧
    ([some five, some minusThree])[1]? = some (some minusThree) ∧ five.Inv ∧ minusThree.Inv ∧
    minusThree.toInt ≠ 0 ∧
    Runs (fun e => e = Fault.indexException ∧
        (maxIdx + 1 < 1 ∨ maxIdx + 1 < 1 ∨ maxIdx + 1 < size (five.toInt + minusThree.toInt)))
      (Proc.add cleared 0 1 [some five, some minusThree])
      (fun r => Makes [some five, some minusThree] r.2 [(r.1, 2)]) ∧
    Runs (fun e => e = Fault.indexException ∧
        (maxIdx + 1 < 1 ∨ |minusThree.toInt| ≤ |five.toInt| ∧ maxIdx < 1))
      (Proc.divMod cleared 0 1 [some five, some minusThree]) fun r => r.1.1 = true ∧
        ∃ u v, Makes [some five, some minusThree] r.2 [(r.1.2.2, v), (r.1.2.1, u)] ∧
          five.toInt = u * minusThree.toInt + v ∧ |v| < |minusThree.toInt| ∧
            (v = 0 ∨ v.sign = five.toInt.sign) := by
  have h := operations_exact cleared (h := [some five, some minusThree]) (a := 0) (b := 1) rfl rfl
    five_inv minusThree_inv 2
  exact ⟨rfl, rfl, five_inv, minusThree_inv, by decide, h.1, h.2.2.2.2.2.2.2.1 (by decide)⟩

/-- The loop that clears the product goes beyond the view. -/
theorem zeroLoop_wide {n j : Nat} {lr : List Word} (hj : j ≤ maxIdx + 1) (hn : maxIdx + 1 < j + n)
    (hlr : j + n ≤ lr.length) : zeroLoop n j lr = .error .indexException := by
  induction n generalizing j lr with
  | zero => omega
  | succ n ih =>
    rw [zeroLoop, assign]
    by_cases h : maxIdx < j
    · rw [if_pos h]
      rfl
    · rw [if_neg h, store, if_pos (by omega)]
      exact ih (by omega) (by omega) (by rw [List.length_set]; omega)

/-- A number that fills the view. -/
def widest : Rep := { sign := 1, len := maxIdx + 1, limbs := List.replicate (maxIdx + 1) 1 }

theorem widest_inv : widest.Inv where
  fits := (List.length_replicate (n := maxIdx + 1)).ge
  noLeadingZero _ h := by
    rw [widest, List.getElem?_replicate, if_pos (Nat.sub_lt (Nat.succ_pos _) one_pos)] at h
    exact absurd (Option.some.inj h) (by decide)
  sign_range := .inr (.inr rfl)
  sign_eq_zero := ⟨fun h => absurd h (by decide), fun h => absurd h (Nat.succ_ne_zero _)⟩

/-- The product with a number of one limb needs no more limbs than the view, but one is cleared beyond
it. -/
theorem mul_wide {M : Storage} {a b : Rep} (ha : a.sign ≠ 0) (hb : b.sign ≠ 0)
    (hlen : maxIdx + 1 < a.len + b.len) : mul M a b = .error .indexException := by
  have hcap := le_newRep_cap M (a.len + b.len)
  rw [mul, if_neg (not_or.2 ⟨ha, hb⟩)]
  change (zeroLoop (a.len + b.len) 0 _ >>= _) = _
  rw [zeroLoop_wide (Nat.zero_le _) (by omega) (by omega)]
  rfl

theorem binary_error {f : Rep → Rep → Except Fault Rep} {h : Heap Rep} {a b : Handle} {p q : Rep}
    {e : Fault} (ha : h[a]? = some (some p)) (hb : h[b]? = some (some q)) (hf : f p q = .error e) :
    binary f a b h = .error e := by
  have hx : deref Fault.dangling a h = .ok (p, h) := by rw [deref, ha]
  have hy : deref Fault.dangling b h = .ok (q, h) := by rw [deref, hb]
  have hpure : pureOn (σ := Heap Rep) (f p q) h = .error e := by rw [pureOn, hf]; rfl
  simp only [binary, bind, StateT.bind, Except.bind, hx, hy, hpure]

theorem mul_widest : widest.Inv ∧ five.Inv ∧
    Proc.mul cleared 0 1 [some widest, some five] = .error .indexException := by
  have hlen : maxIdx + 1 < widest.len + five.len := Nat.lt_succ_self (maxIdx + 1)
  exact ⟨widest_inv, five_inv, binary_error (List.getElem?_cons_zero ..)
    (List.getElem?_cons_succ ..) (mul_wide (by decide) (by decide) hlen)⟩

end NewM2.Winrt.BigInt
