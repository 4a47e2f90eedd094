import Mathlib
import NewM2.Winrt.BigInt.Kernels

/-!
# Records (`library/winrtmod/BigInt.mod`)

A number is a record of a sign and a block of limbs. A procedure that writes only to a record it has
created, or that it is given to change, is a function of records; `Winrt/BigInt/Handles.lean` puts them
on the heap. The limbs are read and written through a view of `maxIdx + 1` limbs whose index is checked,
except by the kernels. A CARDINAL that counts limbs is a natural number: no block has 2^61 limbs.

`Rep.Is p z`: the record is the number `z` and keeps the invariant; `Rep.Mag p n` is the part of it about
the limbs alone. A specification allows an index exception for the indices beyond the view, so it says
also when there is none. -/

namespace NewM2.Winrt.BigInt
open Limbs Segment

def maxIdx : Nat := 16777215

structure Rep where
  sign : Int
  len : Nat
  limbs : List Word
deriving Repr, DecidableEq

/-- The block is allocated with `cap` limbs. -/
def Rep.cap (p : Rep) : Nat := p.limbs.length

/-- What a block of limbs holds when `ALLOCATE` returns it. -/
structure Storage where
  block : Nat → List Word
  length_block : ∀ cap, (block cap).length = cap

/-- `l^[i]` -/
def index (l : List Word) (i : Nat) : Except Fault Word :=
  if maxIdx < i then .error .indexException else load l i

/-- `l^[i] := v` -/
def assign (l : List Word) (i : Nat) (v : Word) : Except Fault (List Word) :=
  if maxIdx < i then .error .indexException else store l i v

/-- `i := 0; WHILE i < n DO dst^[i] := src^[i]; INC(i) END`, from any `i` on, with `n` limbs to go. -/
def copyLoop (src : List Word) : Nat → Nat → List Word → Except Fault (List Word)
  | 0, _, dst => .ok dst
  | n + 1, i, dst => do
    let dst ← assign dst i (← index src i)
    copyLoop src n (i + 1) dst

/-- The loop of `Norm`: the length. -/
def normLoop (l : List Word) : Nat → Except Fault Nat
  | 0 => .ok 0
  | n + 1 => do
    if (← index l n) = 0 then normLoop l n else .ok (n + 1)

def norm (p : Rep) : Except Fault Rep := do
  let len ← normLoop p.limbs p.len
  .ok { p with len := len, sign := if len = 0 then 0 else p.sign }

section storage
variable (M : Storage)

def newRep (cap : Nat) : Rep :=
  { sign := 0, len := 0, limbs := M.block (if cap = 0 then 1 else cap) }

def ensure (p : Rep) (cap : Nat) : Except Fault Rep :=
  if cap ≤ p.cap then .ok p
  else do
    let dst ← copyLoop p.limbs p.len 0 (M.block cap)
    .ok { p with limbs := dst }

def create : Rep := newRep M 1

def copy (a : Rep) : Except Fault Rep := do
  let p := newRep M (a.len + 1)
  let dst ← copyLoop a.limbs a.len 0 p.limbs
  .ok { p with sign := a.sign, len := a.len, limbs := dst }

def fromCard (v : Word) : Except Fault Rep := do
  let p := newRep M 1
  if v ≠ 0 then
    let limbs ← assign p.limbs 0 v
    .ok { p with limbs := limbs, len := 1, sign := 1 }
  else .ok p

def fromInt (v : Word) : Except Fault Rep := do
  let p := newRep M 1
  if 0 < v.toInt then
    let limbs ← assign p.limbs 0 v
    .ok { p with limbs := limbs, len := 1, sign := 1 }
  else if v.toInt < 0 then
    let limbs ← assign p.limbs 0 (-(v + 1) + 1)
    .ok { p with limbs := limbs, len := 1, sign := -1 }
  else .ok p

end storage

/-! ## The invariant -/

structure Rep.Inv (p : Rep) : Prop where
  fits : p.len ≤ p.cap
  noLeadingZero : 0 < p.len → p.limbs[p.len - 1]? ≠ some 0
  sign_range : p.sign = -1 ∨ p.sign = 0 ∨ p.sign = 1
  sign_eq_zero : p.sign = 0 ↔ p.len = 0

/-- The integer a record stands for. -/
def Rep.toInt (p : Rep) : Int := p.sign * val (p.limbs.take p.len)

/-- The limbs hold the magnitude `n`, without a leading zero. -/
structure Rep.Mag (p : Rep) (n : Nat) : Prop where
  fits : p.len ≤ p.limbs.length
  value : val (p.limbs.take p.len) = n
  normal : 0 < p.len → (2 ^ 64) ^ (p.len - 1) ≤ n

structure Rep.Is (p : Rep) (z : Int) : Prop where
  mag : p.Mag z.natAbs
  sign : p.sign = z.sign

theorem val_append (l l' : List Word) : val (l ++ l') = val l + (2 ^ 64) ^ l.length * val l' :=
  value_append

theorem val_lt (l : List Word) : val l < (2 ^ 64) ^ l.length := value_lt (by norm_num) (digits_full l)

theorem val_take_lt {l : List Word} {n : Nat} (h : n ≤ l.length) : val (l.take n) < (2 ^ 64) ^ n := by
  have hlt := val_lt (l.take n)
  rwa [List.length_take, Nat.min_eq_left h] at hlt

theorem val_take_succ {l : List Word} {n : Nat} (h : n < l.length) :
    val (l.take (n + 1)) = val (l.take n) + (2 ^ 64) ^ n * l[n].toNat := by
  rw [take_succ h, val_append, List.length_take, Nat.min_eq_left h.le, val_cons, val_nil, Nat.mul_zero,
    Nat.add_zero]

theorem val_take_add {l : List Word} {i n : Nat} (h : i + n ≤ l.length) :
    val (l.take (i + n)) = val (l.take i) + (2 ^ 64) ^ i * val (slice l i n) := by
  rw [take_add, val_append, List.length_take, Nat.min_eq_left (by omega)]

theorem toNat_pos {x : Word} (h : x ≠ 0) : 0 < x.toNat :=
  Nat.pos_of_ne_zero fun h0 => h (BitVec.eq_of_toNat_eq h0)

namespace Rep
variable {p q : Rep} {m n : Nat} {z : Int}

theorem Mag.lt_pow (h : p.Mag n) : n < (2 ^ 64) ^ p.len := h.value ▸ val_take_lt h.fits

theorem Mag.len_le (h : p.Mag n) {k : Nat} (hn : n < (2 ^ 64) ^ k) : p.len ≤ k := by
  by_contra hk
  have hle : (2 ^ 64) ^ k ≤ (2 ^ 64) ^ (p.len - 1) := Nat.pow_le_pow_right (by norm_num) (by omega)
  exact absurd (hle.trans (h.normal (by omega))) (not_le.2 hn)

theorem Mag.pow_le (h : p.Mag n) {k : Nat} (hk : k < p.len) : (2 ^ 64) ^ k ≤ n :=
  le_of_not_gt fun hn => absurd (h.len_le hn) (not_le.2 hk)

theorem Mag.lt_of_len_lt (hp : p.Mag m) (hq : q.Mag n) (h : p.len < q.len) : m < n :=
  hp.lt_pow.trans_le (hq.pow_le h)

theorem Mag.len_eq_zero (h : p.Mag n) : p.len = 0 ↔ n = 0 := by
  constructor
  · intro h0
    have hlt := h.lt_pow
    rw [h0, pow_zero] at hlt
    omega
  · rintro rfl
    exact Nat.le_zero.1 (h.len_le (by norm_num))

/-- The limbs in use are all that counts. -/
theorem Mag.congr (h : p.Mag n) (hlen : q.len = p.len) (hfits : q.len ≤ q.limbs.length)
    (hlimbs : q.limbs.take q.len = p.limbs.take p.len) : q.Mag n :=
  ⟨hfits, by rw [hlimbs]; exact h.value, by rw [hlen]; exact h.normal⟩

theorem mag_zero (h : p.len = 0) : p.Mag 0 :=
  ⟨by omega, by rw [h, List.take_zero]; rfl, fun hp => absurd h hp.ne'⟩

theorem Mag.is_nat (h : p.Mag n) (hsign : p.sign = if n = 0 then 0 else 1) : p.Is n := by
  refine ⟨h, hsign.trans ?_⟩
  split_ifs with h0
  · rw [h0]
    rfl
  · exact (Int.sign_natCast_of_ne_zero h0).symm

/-- A leading limb that is not zero is a bound from below. -/
theorem pow_le_iff (hfits : p.len ≤ p.limbs.length) (hlen : 0 < p.len) :
    (2 ^ 64) ^ (p.len - 1) ≤ val (p.limbs.take p.len) ↔ p.limbs[p.len - 1]? ≠ some 0 := by
  have hlt : p.len - 1 < p.limbs.length := by omega
  have hsplit := val_take_succ hlt
  rw [Nat.sub_add_cancel hlen] at hsplit
  rw [hsplit, List.getElem?_eq_getElem hlt, Ne, Option.some.injEq]
  constructor
  · intro h h0
    rw [h0] at h
    have hlow := val_take_lt hlt.le
    simp only [BitVec.ofNat_eq_ofNat, BitVec.toNat_ofNat, Nat.zero_mod, Nat.mul_zero, Nat.add_zero] at h
    omega
  · intro h
    have hpos := toNat_pos h
    exact le_add_left (Nat.le_mul_of_pos_right _ hpos)

theorem is_iff : p.Is z ↔ p.Inv ∧ p.toInt = z := by
  constructor
  · rintro ⟨hmag, hsign⟩
    refine ⟨⟨hmag.fits, fun h => (pow_le_iff hmag.fits h).1 (hmag.value.symm ▸ hmag.normal h), ?_, ?_⟩, ?_⟩
    · rw [hsign]
      rcases lt_trichotomy z 0 with h | rfl | h
      · exact .inl (Int.sign_eq_neg_one_of_neg h)
      · exact .inr (.inl rfl)
      · exact .inr (.inr (Int.sign_eq_one_of_pos h))
    · rw [hsign, Int.sign_eq_zero_iff_zero, hmag.len_eq_zero, Int.natAbs_eq_zero]
    · rw [toInt, hmag.value, hsign]
      exact Int.sign_mul_natAbs z
  · rintro ⟨hinv, rfl⟩
    have habs : p.toInt.natAbs = val (p.limbs.take p.len) := by
      rw [toInt, Int.natAbs_mul, Int.natAbs_natCast]
      rcases hinv.sign_range with h | h | h
      · rw [h, Int.natAbs_neg, Int.natAbs_one, Nat.one_mul]
      · rw [h, hinv.sign_eq_zero.1 h]
        rfl
      · rw [h, Int.natAbs_one, Nat.one_mul]
    have hmag : p.Mag p.toInt.natAbs := by
      rw [habs]
      exact ⟨hinv.fits, rfl, fun h => (pow_le_iff hinv.fits h).2 (hinv.noLeadingZero h)⟩
    refine ⟨hmag, ?_⟩
    have hpos : p.sign ≠ 0 → 0 < (val (p.limbs.take p.len) : Int) := fun h => by
      rw [← habs]
      have := mt hinv.sign_eq_zero.2 h
      rw [hmag.len_eq_zero] at this
      omega
    rw [toInt, Int.sign_mul]
    rcases hinv.sign_range with h | h | h
    · rw [h, Int.sign_eq_one_of_pos (hpos (by rw [h]; decide))]
      rfl
    · rw [h, Int.sign_zero, Int.zero_mul]
    · rw [h, Int.sign_eq_one_of_pos (hpos (by rw [h]; decide))]
      rfl

theorem Is.toInt_eq (h : p.Is z) : p.toInt = z := (is_iff.1 h).2

theorem Is.len_eq_zero (h : p.Is z) : p.len = 0 ↔ z = 0 := by
  rw [h.mag.len_eq_zero, Int.natAbs_eq_zero]

theorem Is.sign_eq_zero (h : p.Is z) : p.sign = 0 ↔ z = 0 := by
  rw [h.sign, Int.sign_eq_zero_iff_zero]

end Rep

/-! ## What the procedures compute -/

section runs
variable {allowed : Fault → Prop} {l src dst : List Word} {i n : Nat} {p : Rep}

theorem index_runs (h : i < l.length) (hidx : maxIdx < i → allowed .indexException) :
    Runs allowed (index l i) (· = l[i]) := by
  rw [index]
  split_ifs with hi
  · exact Runs.error (hidx hi)
  · exact load_runs h

theorem assign_runs (h : i < l.length) (hidx : maxIdx < i → allowed .indexException) (v : Word) :
    Runs allowed (assign l i v) (· = l.set i v) := by
  rw [assign]
  split_ifs with hi
  · exact Runs.error (hidx hi)
  · exact store_runs h v

theorem copyLoop_runs (hsrc : i + n ≤ src.length) (hdst : i + n ≤ dst.length)
    (hidx : maxIdx + 1 < i + n → allowed .indexException) :
    Runs allowed (copyLoop src n i dst) fun dst' =>
      Changes i n dst dst' ∧ slice dst' i n = slice src i n := by
  induction n generalizing i dst with
  | zero => exact Runs.ok ⟨.refl, by simp⟩
  | succ n ih =>
    have hidx' : maxIdx < i → allowed .indexException := fun h => hidx (by omega)
    rw [copyLoop]
    refine (index_runs (by omega) hidx').bind ?_
    rintro _ rfl
    refine (assign_runs (by omega) hidx' _).bind ?_
    rintro _ rfl
    refine (ih (by omega) (by rw [List.length_set]; omega) (fun h => hidx (by omega))).mono ?_
    rintro dst' ⟨hc, hslice⟩
    exact ⟨hc.step, by rw [hc.slice_step (by omega), slice_succ (by omega), hslice]⟩

/-- The limbs that are dropped are zero. -/
theorem normLoop_runs (h : n ≤ l.length) (hidx : maxIdx + 1 < n → allowed .indexException) :
    Runs allowed (normLoop l n) fun m => m ≤ n ∧ val (l.take m) = val (l.take n) ∧
      (0 < m → (2 ^ 64) ^ (m - 1) ≤ val (l.take m)) := by
  induction n with
  | zero => exact Runs.ok ⟨le_rfl, rfl, fun h => absurd h (lt_irrefl 0)⟩
  | succ n ih =>
    rw [normLoop]
    refine (index_runs (i := n) (by omega) (fun h => hidx (by omega))).bind ?_
    rintro _ rfl
    have hsplit := val_take_succ (l := l) (n := n) (by omega)
    split_ifs with h0
    · refine (ih (by omega) (fun h => hidx (by omega))).mono ?_
      rintro m ⟨hm, hval, hnorm⟩
      rw [h0] at hsplit
      exact ⟨by omega, hval.trans hsplit.symm, hnorm⟩
    · refine Runs.ok ⟨le_rfl, rfl, fun _ => ?_⟩
      rw [hsplit, Nat.add_sub_cancel]
      exact le_add_left (Nat.le_mul_of_pos_right _ (toNat_pos h0))

theorem norm_runs (h : p.len ≤ p.limbs.length) (hidx : maxIdx + 1 < p.len → allowed .indexException) :
    Runs allowed (norm p) fun q => q.Mag (val (p.limbs.take p.len)) ∧
      (q.sign = if val (p.limbs.take p.len) = 0 then 0 else p.sign) ∧ q.limbs = p.limbs := by
  refine (normLoop_runs h hidx).bind ?_
  rintro m ⟨hm, hval, hnorm⟩
  have hmag : Rep.Mag { p with len := m, sign := if m = 0 then 0 else p.sign } (val (p.limbs.take p.len)) :=
    ⟨hm.trans h, hval, fun h => hval ▸ hnorm h⟩
  refine Runs.ok ⟨hmag, ?_, rfl⟩
  have h0 := hmag.len_eq_zero
  dsimp only at h0 ⊢
  simp only [h0]

section storage
variable (M : Storage)

@[simp] theorem newRep_len (cap : Nat) : (newRep M cap).len = 0 := rfl

@[simp] theorem newRep_sign (cap : Nat) : (newRep M cap).sign = 0 := rfl

theorem newRep_cap (cap : Nat) : (newRep M cap).limbs.length = if cap = 0 then 1 else cap :=
  M.length_block _

theorem le_newRep_cap (cap : Nat) : cap ≤ (newRep M cap).limbs.length := by
  rw [newRep_cap]
  split_ifs <;> omega

theorem create_is : (create M).Is 0 := ⟨Rep.mag_zero rfl, rfl⟩

/-- A block that is large enough, with the same limbs in use. -/
theorem ensure_runs (h : p.len ≤ p.limbs.length) {cap : Nat}
    (hidx : maxIdx + 1 < p.len → allowed .indexException) :
    Runs allowed (ensure M p cap) fun q => q.sign = p.sign ∧ q.len = p.len ∧ cap ≤ q.limbs.length ∧
      p.len ≤ q.limbs.length ∧ q.limbs.take p.len = p.limbs.take p.len := by
  rw [ensure]
  split_ifs with hcap
  · exact Runs.ok ⟨rfl, rfl, hcap, h, rfl⟩
  · have hlt : p.len ≤ (M.block cap).length := by
      rw [M.length_block]
      exact h.trans (not_le.1 hcap).le
    refine (copyLoop_runs (by omega) (by omega) (by simpa using hidx)).bind ?_
    rintro dst ⟨hc, hslice⟩
    simp only [slice_of_zero] at hslice
    exact Runs.ok ⟨rfl, rfl, (hc.length.trans (M.length_block cap)).ge, hc.length ▸ hlt, hslice⟩

theorem copy_runs {z : Int} (h : p.Is z) (hidx : maxIdx + 1 < p.len → allowed .indexException) :
    Runs allowed (copy M p) (·.Is z) := by
  have hcap := le_newRep_cap M (p.len + 1)
  have hfits := h.mag.fits
  rw [copy]
  refine (copyLoop_runs (by omega) (by omega) (by simpa using hidx)).bind ?_
  rintro dst ⟨hc, hslice⟩
  simp only [slice_of_zero] at hslice
  have hlen : p.len ≤ dst.length := by
    rw [hc.length]
    omega
  exact Runs.ok ⟨h.mag.congr rfl hlen hslice, h.sign⟩

/-- A record of one limb. -/
theorem one_limb {v : Word} (hv : v ≠ 0) {sign : Int} (hl : 0 < l.length) :
    Rep.Mag { sign := sign, len := 1, limbs := l.set 0 v } v.toNat := by
  refine ⟨by rw [List.length_set]; exact hl, ?_, fun _ => toNat_pos hv⟩
  obtain ⟨x, l, rfl⟩ := List.exists_cons_of_length_pos hl
  rw [List.set_cons_zero, List.take_succ_cons, List.take_zero, val_cons, val_nil, Nat.mul_zero,
    Nat.add_zero]

theorem fromCard_runs (v : Word) : Runs allowed (fromCard M v) (·.Is v.toNat) := by
  have hcap := le_newRep_cap M 1
  rw [fromCard]
  split_ifs with hv
  · refine (assign_runs (by omega) (fun h => absurd h (by decide)) v).bind ?_
    rintro _ rfl
    exact Runs.ok ⟨one_limb hv (by omega), (Int.sign_natCast_of_ne_zero (toNat_pos hv).ne').symm⟩
  · rw [not_not.1 hv]
    exact Runs.ok (create_is M)

theorem fromInt_runs (v : Word) : Runs allowed (fromInt M v) (·.Is v.toInt) := by
  have hcap := le_newRep_cap M 1
  have hlt := v.isLt
  rw [fromInt]
  split_ifs with hpos hneg
  · refine (assign_runs (by omega) (fun h => absurd h (by decide)) v).bind ?_
    rintro _ rfl
    have hv : v ≠ 0 := by
      rintro rfl
      exact absurd hpos (by decide)
    have habs : v.toInt.natAbs = v.toNat := by
      rw [BitVec.toInt_eq_toNat_cond] at hpos ⊢
      split_ifs at hpos ⊢ <;> omega
    exact Runs.ok ⟨habs ▸ one_limb hv (by omega), (Int.sign_eq_one_of_pos hpos).symm⟩
  · refine (assign_runs (by omega) (fun h => absurd h (by decide)) _).bind ?_
    rintro _ rfl
    -- the sum does not wrap: v is not 0
    have hm : -(v + 1) + 1 = -v := by ring
    have habs : v.toInt.natAbs = (-v).toNat := by
      rw [BitVec.toNat_neg]
      rw [BitVec.toInt_eq_toNat_cond] at hneg ⊢
      split_ifs at hneg ⊢ <;> omega
    have hv : -v ≠ 0 := by
      intro h
      rw [h] at habs
      have h0 : v.toInt = 0 := Int.natAbs_eq_zero.1 habs
      omega
    rw [hm]
    exact Runs.ok ⟨habs ▸ one_limb hv (by omega), (Int.sign_eq_neg_one_of_neg hneg).symm⟩
  · have h0 : v.toInt = 0 := by omega
    rw [h0]
    exact Runs.ok (create_is M)

end storage
end runs
end NewM2.Winrt.BigInt
