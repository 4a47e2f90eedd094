import Mathlib
import NewM2.Winrt.BigInt.Rep

/-!
# Magnitudes (`library/winrtmod/BigInt.mod`)

The procedures on limbs behind the public ones. The assembler kernels do the limbs that both operands
have; loops of Modula-2 carry on through the longer one and copy what is left of it. -/

namespace NewM2.Winrt.BigInt
open Limbs Segment

/-- `WHILE (i < n) AND (carry # 0) DO s := l^[i] + carry; r^[i] := s; … END` with `n` limbs to go: the
limbs, the carry and the index. `none` is for a loop in place. -/
def carryLoop (src : Option (List Word)) :
    Nat → Nat → Word → List Word → Except Fault (List Word × Word × Nat)
  | 0, i, carry, dst => .ok (dst, carry, i)
  | n + 1, i, carry, dst =>
    if carry ≠ 0 then do
      let x ← index (src.getD dst) i
      let s := x + carry
      let dst ← assign dst i s
      carryLoop src n (i + 1) (if s < carry then 1 else 0) dst
    else .ok (dst, carry, i)

/-- The loop for the borrow. -/
def borrowLoop (src : Option (List Word)) :
    Nat → Nat → Word → List Word → Except Fault (List Word × Word × Nat)
  | 0, i, borrow, dst => .ok (dst, borrow, i)
  | n + 1, i, borrow, dst =>
    if borrow ≠ 0 then do
      let d ← index (src.getD dst) i
      let dst ← assign dst i (d - borrow)
      borrowLoop src n (i + 1) (if d < borrow then 1 else 0) dst
    else .ok (dst, borrow, i)

/-- `IF carry # 0 THEN l^[len] := v; INC(len) END` -/
def pushLimb (l : List Word) (len : Nat) (carry v : Word) : Except Fault (List Word × Nat) :=
  if carry ≠ 0 then do
    let l ← assign l len v
    .ok (l, len + 1)
  else .ok (l, len)

def magCmpLoop (la lb : List Word) : Nat → Except Fault Int
  | 0 => .ok 0
  | i + 1 => do
    let x ← index la i
    let y ← index lb i
    if x ≠ y then .ok (if x > y then 1 else -1) else magCmpLoop la lb i

def magCmp (a b : Rep) : Except Fault Int :=
  if a.len ≠ b.len then .ok (if a.len > b.len then 1 else -1)
  else magCmpLoop a.limbs b.limbs a.len

def magSubIP (x y : Rep) : Except Fault Rep := do
  let (lx, borrow) ← subn x.limbs none y.limbs y.len
  let (lx, _, _) ← borrowLoop none (x.len - y.len) y.len borrow lx
  norm { x with limbs := lx }

def shlLoop : Nat → Nat → Word → List Word → Except Fault (List Word × Word)
  | 0, _, carry, l => .ok (l, carry)
  | n + 1, i, carry, l => do
    let x ← index l i
    let nc := x >>> 63
    let l ← assign l i (x <<< 1 ||| carry)
    shlLoop n (i + 1) nc l

def shrLoop : Nat → Word → List Word → Except Fault (List Word)
  | 0, _, l => .ok l
  | i + 1, carry, l => do
    let x ← index l i
    let nc := x &&& 1
    let l ← assign l i (x >>> 1 ||| carry <<< 63)
    shrLoop i nc l

def shrOne (p : Rep) : Except Fault Rep :=
  if p.len = 0 then .ok p
  else do
    let l ← shrLoop p.len 0 p.limbs
    norm { p with limbs := l }

/-- `WHILE top # 0 DO top := top SHR 1; INC(n) END` -/
def bitLengthLoop (top : Word) (n : Nat) : Nat :=
  if top ≠ 0 then bitLengthLoop (top >>> 1) (n + 1) else n
termination_by top.toNat
decreasing_by
  have hpos := toNat_pos ‹top ≠ 0›
  rw [BitVec.toNat_ushiftRight, Nat.shiftRight_eq_div_pow]
  omega

def bitLength (a : Rep) : Except Fault Nat :=
  if a.len = 0 then .ok 0
  else do
    let top ← index a.limbs (a.len - 1)
    .ok ((a.len - 1) * 64 + bitLengthLoop top 0)

section storage
variable (M : Storage)

def mulSmall (a : Rep) (m : Word) : Except Fault Rep :=
  if a.len = 0 ∨ m = 0 then .ok { a with len := 0, sign := 0 }
  else do
    let a ← ensure M a (a.len + 1)
    let (l, c) ← mul1 a.limbs none a.len m
    let (l, len) ← pushLimb l a.len c c
    .ok { a with limbs := l, len := len, sign := if a.sign = 0 then 1 else a.sign }

def addSmall (a : Rep) (v : Word) : Except Fault Rep :=
  if v = 0 then .ok a
  else do
    let a ← ensure M a (a.len + 1)
    let (l, carry, _) ← carryLoop none a.len 0 v a.limbs
    let (l, len) ← pushLimb l a.len carry carry
    .ok { a with limbs := l, len := len, sign := if a.sign = 0 then 1 else a.sign }

/-- `MagAdd` once `big` and `small` are chosen. -/
def magAddTo (big small : Rep) : Except Fault Rep := do
  let r := newRep M (big.len + 1)
  let (lr, carry) ← addn r.limbs big.limbs small.limbs small.len
  let (lr, carry, i) ← carryLoop (some big.limbs) (big.len - small.len) small.len carry lr
  let lr ← copyLoop big.limbs (big.len - i) i lr
  let (lr, len) ← pushLimb lr big.len carry carry
  norm { r with sign := 1, len := len, limbs := lr }

def magAdd (x y : Rep) : Except Fault Rep :=
  if y.len ≤ x.len then magAddTo M x y else magAddTo M y x

def magSub (x y : Rep) : Except Fault Rep := do
  let r := newRep M x.len
  let (lr, borrow) ← subn r.limbs (some x.limbs) y.limbs y.len
  let (lr, _, i) ← borrowLoop (some x.limbs) (x.len - y.len) y.len borrow lr
  let lr ← copyLoop x.limbs (x.len - i) i lr
  norm { r with sign := 1, len := x.len, limbs := lr }

def shlOne (p : Rep) : Except Fault Rep :=
  if p.len = 0 then .ok p
  else do
    let p ← ensure M p (p.len + 1)
    let (l, carry) ← shlLoop p.len 0 0 p.limbs
    let (l, len) ← pushLimb l p.len carry 1
    .ok { p with limbs := l, len := len }

end storage

/-- The first number that needs a limb beyond the view. -/
def limit : Nat := (2 ^ 64) ^ (maxIdx + 1)

theorem limit_le_pow {n : Nat} (h : maxIdx < n) : limit ≤ (2 ^ 64) ^ n := by
  rw [limit]
  generalize maxIdx = k at h ⊢
  exact Nat.pow_le_pow_right (Nat.two_pow_pos 64) h

theorem Rep.Mag.limit_le {p : Rep} {n : Nat} (h : p.Mag n) (hlen : maxIdx + 1 < p.len) : limit ≤ n :=
  h.pow_le hlen

/-! ## Words -/

theorem carry_exact (x c : Word) :
    (x + c).toNat + 2 ^ 64 * (if x + c < c then (1 : Word) else 0).toNat = x.toNat + c.toNat := by
  have hx := x.isLt
  have hc := c.isLt
  simp only [BitVec.lt_def, BitVec.toNat_add]
  split_ifs with h
  · change _ + 2 ^ 64 * 1 = _
    omega
  · change _ + 2 ^ 64 * 0 = _
    omega

theorem borrow_exact (x c : Word) :
    (x - c).toNat + c.toNat = x.toNat + 2 ^ 64 * (if x < c then (1 : Word) else 0).toNat := by
  have hx := x.isLt
  have hc := c.isLt
  simp only [BitVec.lt_def, BitVec.toNat_sub]
  split_ifs with h
  · change _ = _ + 2 ^ 64 * 1
    omega
  · change _ = _ + 2 ^ 64 * 0
    omega

theorem shl_exact (x : Word) {c : Word} (hc : c.toNat ≤ 1) :
    (x <<< 1 ||| c).toNat + 2 ^ 64 * (x >>> 63).toNat = 2 * x.toNat + c.toNat := by
  have hx := x.isLt
  have hor : 2 * (x.toNat % 2 ^ 63) + c.toNat = 2 * (x.toNat % 2 ^ 63) ||| c.toNat :=
    Nat.two_pow_add_eq_or_of_lt (i := 1) (by omega) _
  have hlow : (x <<< 1).toNat = 2 * (x.toNat % 2 ^ 63) := by
    rw [BitVec.toNat_shiftLeft, Nat.shiftLeft_eq]
    omega
  rw [BitVec.toNat_or, hlow, ← hor, BitVec.toNat_ushiftRight, Nat.shiftRight_eq_div_pow]
  omega

theorem shr_exact (x : Word) {c : Word} (hc : c.toNat ≤ 1) :
    2 * (x >>> 1 ||| c <<< 63).toNat + (x &&& 1).toNat = x.toNat + 2 ^ 64 * c.toNat := by
  have hx := x.isLt
  have hlow : (x >>> 1).toNat = x.toNat / 2 := by
    rw [BitVec.toNat_ushiftRight, Nat.shiftRight_eq_div_pow, pow_one]
  have hhigh : (c <<< 63).toNat = 2 ^ 63 * c.toNat := by
    rw [BitVec.toNat_shiftLeft, Nat.shiftLeft_eq]
    omega
  have hor : 2 ^ 63 * c.toNat + x.toNat / 2 = 2 ^ 63 * c.toNat ||| x.toNat / 2 :=
    Nat.two_pow_add_eq_or_of_lt (by omega) _
  have hbit : (x &&& 1).toNat = x.toNat % 2 := by
    rw [BitVec.toNat_and]
    exact Nat.and_one_is_mod _
  rw [BitVec.toNat_or, hlow, hhigh, Nat.lor_comm, ← hor, hbit]
  omega

/-- The number of bits of a word. -/
theorem bitLengthLoop_spec (top : Word) (n : Nat) : ∃ k, bitLengthLoop top n = n + k ∧
    top.toNat < 2 ^ k ∧ ∀ j, top.toNat < 2 ^ j → k ≤ j := by
  have hhalf : ∀ x : Word, (x >>> 1).toNat = x.toNat / 2 := fun x => by
    rw [BitVec.toNat_ushiftRight, Nat.shiftRight_eq_div_pow, pow_one]
  fun_induction bitLengthLoop top n with
  | case1 top n h ih =>
    obtain ⟨k, heq, hlt, hmin⟩ := ih
    rw [hhalf] at hlt hmin
    have hpos := toNat_pos h
    refine ⟨k + 1, by rw [heq]; ring, by rw [pow_succ]; omega, fun j hj => ?_⟩
    rcases j with - | j
    · omega
    · exact Nat.succ_le_succ (hmin j (by rw [pow_succ] at hj; omega))
  | case2 top n h => exact ⟨0, rfl, by rw [not_not.1 h]; decide, fun j _ => Nat.zero_le j⟩

/-! ## The loops -/

section runs
variable {allowed : Fault → Prop} {l dst : List Word} {i n m : Nat} {p x y : Rep}

theorem carryLoop_runs {src : Option (List Word)} (hsrc : ∀ l ∈ src, i + n ≤ l.length)
    (hdst : i + n ≤ dst.length) (hidx : maxIdx + 1 < i + n → allowed .indexException) (carry : Word) :
    Runs allowed (carryLoop src n i carry dst) fun q => ∃ j ≤ n, q.2.2 = i + j ∧ Changes i j dst q.1 ∧
      val (slice q.1 i j) + (2 ^ 64) ^ j * q.2.1.toNat =
        val (slice (src.getD dst) i j) + carry.toNat ∧ (q.2.1 = 0 ∨ j = n) := by
  induction n generalizing i carry dst with
  | zero => exact Runs.ok ⟨0, le_rfl, rfl, .refl, by simp, .inr rfl⟩
  | succ n ih =>
    have hsrc' := length_getD hsrc hdst
    have hidx' : maxIdx < i → allowed .indexException := fun h => hidx (by omega)
    rw [carryLoop]
    split_ifs with hcarry
    · refine (index_runs (by omega) hidx').bind ?_
      rintro _ rfl
      have hsum := carry_exact (src.getD dst)[i] carry
      dsimp only
      generalize (if (src.getD dst)[i] + carry < carry then (1 : Word) else 0) = c at *
      generalize (src.getD dst)[i] + carry = s at *
      refine (assign_runs (by omega) hidx' s).bind ?_
      rintro _ rfl
      refine (ih (fun l hl => by have := hsrc l hl; omega) (by rw [List.length_set]; omega)
        (fun h => hidx (by omega)) c).mono ?_
      rintro ⟨dst', c', k⟩ ⟨j, hj, hk, hc, hval, hend⟩
      refine ⟨j + 1, by omega, hk.trans (by omega), hc.step, ?_, hend.imp_right (by omega)⟩
      rw [hc.slice_step (by omega), slice_succ (by omega), val_cons, val_cons, pow_succ]
      rw [slice_getD_set] at hval
      calc s.toNat + 2 ^ 64 * val (slice dst' (i + 1) j) + (2 ^ 64) ^ j * 2 ^ 64 * c'.toNat
          = s.toNat + 2 ^ 64 * (val (slice dst' (i + 1) j) + (2 ^ 64) ^ j * c'.toNat) := by ring
        _ = (s.toNat + 2 ^ 64 * c.toNat) + 2 ^ 64 * val (slice (src.getD dst) (i + 1) j) := by
            rw [hval]; ring
        _ = _ := by rw [hsum]; ring
    · exact Runs.ok ⟨0, Nat.zero_le _, rfl, .refl, by simp, .inl (not_not.1 hcarry)⟩

theorem borrowLoop_runs {src : Option (List Word)} (hsrc : ∀ l ∈ src, i + n ≤ l.length)
    (hdst : i + n ≤ dst.length) (hidx : maxIdx + 1 < i + n → allowed .indexException) (borrow : Word) :
    Runs allowed (borrowLoop src n i borrow dst) fun q => ∃ j ≤ n, q.2.2 = i + j ∧ Changes i j dst q.1 ∧
      val (slice q.1 i j) + borrow.toNat =
        val (slice (src.getD dst) i j) + (2 ^ 64) ^ j * q.2.1.toNat ∧ (q.2.1 = 0 ∨ j = n) := by
  induction n generalizing i borrow dst with
  | zero => exact Runs.ok ⟨0, le_rfl, rfl, .refl, by simp, .inr rfl⟩
  | succ n ih =>
    have hsrc' := length_getD hsrc hdst
    have hidx' : maxIdx < i → allowed .indexException := fun h => hidx (by omega)
    rw [borrowLoop]
    split_ifs with hborrow
    · refine (index_runs (by omega) hidx').bind ?_
      rintro _ rfl
      have hdiff := borrow_exact (src.getD dst)[i] borrow
      generalize (if (src.getD dst)[i] < borrow then (1 : Word) else 0) = c at *
      generalize (src.getD dst)[i] - borrow = d at *
      refine (assign_runs (by omega) hidx' d).bind ?_
      rintro _ rfl
      refine (ih (fun l hl => by have := hsrc l hl; omega) (by rw [List.length_set]; omega)
        (fun h => hidx (by omega)) c).mono ?_
      rintro ⟨dst', c', k⟩ ⟨j, hj, hk, hc, hval, hend⟩
      refine ⟨j + 1, by omega, hk.trans (by omega), hc.step, ?_, hend.imp_right (by omega)⟩
      rw [hc.slice_step (by omega), slice_succ (by omega), val_cons, val_cons, pow_succ]
      rw [slice_getD_set] at hval
      calc d.toNat + 2 ^ 64 * val (slice dst' (i + 1) j) + borrow.toNat
          = (d.toNat + borrow.toNat) + 2 ^ 64 * val (slice dst' (i + 1) j) := by ring
        _ = (src.getD dst)[i].toNat + 2 ^ 64 * (val (slice dst' (i + 1) j) + c.toNat) := by
            rw [hdiff]; ring
        _ = _ := by rw [hval]; ring
    · exact Runs.ok ⟨0, Nat.zero_le _, rfl, .refl, by simp, .inl (not_not.1 hborrow)⟩

/-- A carry that is left makes one more limb, within the view. -/
theorem pushLimb_runs {carry v : Word} (hv : carry ≠ 0 → v = carry) (hl : n + 1 ≤ l.length)
    (hval : val (l.take n) + (2 ^ 64) ^ n * carry.toNat = m) (hnorm : 0 < n → (2 ^ 64) ^ (n - 1) ≤ m)
    (hidx : limit ≤ m → allowed .indexException) (sign : Int) :
    Runs allowed (pushLimb l n carry v) fun q =>
      Rep.Mag { sign := sign, len := q.2, limbs := q.1 } m ∧ (n ≤ maxIdx + 1 → q.2 ≤ maxIdx + 1) := by
  rw [pushLimb]
  split_ifs with hcarry
  · have hle : (2 ^ 64) ^ n ≤ m := by
      rw [← hval]
      exact le_add_left (Nat.le_mul_of_pos_right _ (toNat_pos hcarry))
    by_cases hn : maxIdx < n
    · rw [assign, if_pos hn]
      exact Runs.error (hidx ((limit_le_pow hn).trans hle))
    refine (assign_runs (by omega) (fun h => absurd h hn) v).bind ?_
    rintro _ rfl
    refine Runs.ok ⟨⟨by rw [List.length_set]; exact hl, ?_, fun _ => hle⟩, fun _ => by omega⟩
    dsimp only
    rw [val_take_succ (by rw [List.length_set]; omega), take_set_of_le le_rfl, List.getElem_set_self,
      hv hcarry, hval]
  · rw [not_not.1 hcarry] at hval
    exact Runs.ok ⟨⟨Nat.le_of_succ_le hl, by simpa using hval, hnorm⟩, id⟩

/-- The upper limb decides. -/
theorem val_lt_of_limb {la lb : List Word} (ha : n < la.length) (hb : n < lb.length)
    (h : la[n].toNat < lb[n].toNat) : val (la.take (n + 1)) < val (lb.take (n + 1)) := by
  rw [val_take_succ ha, val_take_succ hb]
  calc val (la.take n) + (2 ^ 64) ^ n * la[n].toNat
      < (2 ^ 64) ^ n * (la[n].toNat + 1) := by
        have hlow := val_take_lt ha.le
        rw [Nat.mul_add, Nat.mul_one, Nat.add_comm]
        exact Nat.add_lt_add_left hlow _
    _ ≤ (2 ^ 64) ^ n * lb[n].toNat := Nat.mul_le_mul_left _ h
    _ ≤ _ := Nat.le_add_left _ _

theorem magCmpLoop_runs {la lb : List Word} (ha : n ≤ la.length) (hb : n ≤ lb.length)
    (hidx : maxIdx + 1 < n → allowed .indexException) :
    Runs allowed (magCmpLoop la lb n) (· = ((val (la.take n) : Int) - val (lb.take n)).sign) := by
  induction n with
  | zero => exact Runs.ok rfl
  | succ n ih =>
    have hidx' : maxIdx < n → allowed .indexException := fun h => hidx (by omega)
    rw [magCmpLoop]
    refine (index_runs (by omega) hidx').bind ?_
    rintro _ rfl
    refine (index_runs (by omega) hidx').bind ?_
    rintro _ rfl
    split_ifs with hne hgt
    · have hlt := val_lt_of_limb hb ha (BitVec.lt_def.1 hgt)
      exact Runs.ok (Int.sign_eq_one_of_pos (by omega)).symm
    · have hle : la[n].toNat ≤ lb[n].toNat := Nat.le_of_not_lt fun h => hgt (BitVec.lt_def.2 h)
      have hne' : la[n].toNat ≠ lb[n].toNat := fun h => hne (BitVec.eq_of_toNat_eq h)
      have hlt := val_lt_of_limb ha hb (by omega)
      exact Runs.ok (Int.sign_eq_neg_one_of_neg (by omega)).symm
    · refine (ih (by omega) (by omega) (fun h => hidx (by omega))).mono ?_
      rintro _ rfl
      rw [val_take_succ ha, val_take_succ hb, not_not.1 hne]
      push_cast
      congr 1
      ring

/-- The order of the magnitudes. -/
theorem magCmp_runs (hx : x.Mag m) (hy : y.Mag n)
    (hidx : x.len = y.len → maxIdx + 1 < x.len → allowed .indexException) :
    Runs allowed (magCmp x y) (· = ((m : Int) - n).sign) := by
  rw [magCmp]
  split_ifs with hne hgt
  · have hlt := hy.lt_of_len_lt hx hgt
    exact Runs.ok (Int.sign_eq_one_of_pos (by omega)).symm
  · have hlt := hx.lt_of_len_lt hy (by omega)
    exact Runs.ok (Int.sign_eq_neg_one_of_neg (by omega)).symm
  · have hlen : x.len = y.len := not_not.1 hne
    have hfits := hy.fits
    rw [← hlen] at hfits
    refine (magCmpLoop_runs hx.fits hfits (hidx hlen)).mono ?_
    rintro _ rfl
    rw [hx.value, hlen, hy.value]

/-- The limbs that two loops leave, one after the other. -/
theorem val_joined {l₁ l₂ l₃ : List Word} {k j r : Nat} (h₂ : Changes k j l₁ l₂)
    (h₃ : Changes (k + j) r l₂ l₃) (hlen : k + j + r ≤ l₁.length) :
    val (l₃.take (k + j + r)) =
      val (l₁.take k) + (2 ^ 64) ^ k * (val (slice l₂ k j) + (2 ^ 64) ^ j * val (slice l₃ (k + j) r)) := by
  have hlen₂ := h₂.length
  have hk : (l₁.take k).length = k := by
    rw [List.length_take]
    omega
  rw [h₃.take_add, h₂.take_add, List.append_assoc, val_append, val_append, hk,
    length_slice (by omega)]

/-- A carry `d` at the index `k` goes through `j` limbs and leaves `d'`, which is none unless no limb is
left to copy. A borrow is a carry below zero. -/
theorem joined_total {l₁ l₂ l₃ xs : List Word} {k j r : Nat} (d d' : Int) (h₂ : Changes k j l₁ l₂)
    (h₃ : Changes (k + j) r l₂ l₃) (hlen : k + j + r ≤ l₁.length) (hxs : k + j + r ≤ xs.length)
    (hval : (val (slice l₂ k j) : Int) + (2 ^ 64) ^ j * d' = val (slice xs k j) + d)
    (hcopy : slice l₃ (k + j) r = slice xs (k + j) r) (hend : d' = 0 ∨ r = 0) :
    (val (l₃.take (k + j + r)) : Int) + (2 ^ 64) ^ (k + j + r) * d' + val (xs.take k) =
      val (l₁.take k) + (2 ^ 64) ^ k * d + val (xs.take (k + j + r)) := by
  have hxval := val_joined (show Changes k j xs xs from .refl) (show Changes (k + j) r xs xs from .refl) hxs
  rw [val_joined h₂ h₃ hlen, hxval, hcopy]
  have hpow : ((2 : Int) ^ 64) ^ (k + j + r) * d' = (2 ^ 64) ^ k * ((2 ^ 64) ^ j * d') := by
    rcases hend with rfl | rfl
    · ring
    · rw [Nat.add_zero, pow_add]
      ring
  rw [hpow]
  push_cast
  linear_combination (2 ^ 64) ^ k * hval

/-- Nothing is borrowed beyond the last limb of the larger number. -/
theorem no_borrow {k : Nat} {c : Word} (hl : k ≤ l.length) (hle : n ≤ m)
    (h : val (l.take k) + n = m + (2 ^ 64) ^ k * c.toNat) : val (l.take k) = m - n := by
  have hc : c.toNat = 0 := by
    by_contra hne
    have hlt := val_take_lt hl
    have hle' : (2 ^ 64) ^ k ≤ (2 ^ 64) ^ k * c.toNat :=
      Nat.le_mul_of_pos_right _ (Nat.pos_of_ne_zero hne)
    omega
  rw [hc, Nat.mul_zero, Nat.add_zero] at h
  omega

section storage
variable (M : Storage)

theorem magAddTo_runs (hx : x.Mag m) (hy : y.Mag n) (hle : y.len ≤ x.len)
    (hidx : limit ≤ m + n → allowed .indexException) :
    Runs allowed (magAddTo M x y) fun r => r.Mag (m + n) ∧ r.sign = if m + n = 0 then 0 else 1 := by
  have hxfits := hx.fits
  have hcap := le_newRep_cap M (x.len + 1)
  have hidx' : maxIdx + 1 < x.len → allowed .indexException := fun h =>
    hidx ((hx.limit_le h).trans (Nat.le_add_right m n))
  rw [magAddTo]
  refine (addn_runs (by omega) hy.fits (by omega)).bind ?_
  rintro ⟨l₁, c₁⟩ ⟨h₁, -, hval₁⟩
  have hlen₁ := h₁.length
  dsimp only at hval₁ hlen₁ ⊢
  refine (carryLoop_runs (fun l hl => by cases hl; omega) (by omega) (fun h => hidx' (by omega)) c₁).bind ?_
  rintro ⟨l₂, c₂, _⟩ ⟨j, hj, rfl, h₂, hval₂, hend⟩
  have hlen₂ := h₂.length
  dsimp only [Option.getD_some] at hval₂ hend hlen₂ ⊢
  refine (copyLoop_runs (by omega) (by omega) (fun h => hidx' (by omega))).bind ?_
  rintro l₃ ⟨h₃, hcopy⟩
  have hlen₃ := h₃.length
  have hk : y.len + j + (x.len - (y.len + j)) = x.len := by omega
  have htotal := joined_total c₁.toNat c₂.toNat h₂ h₃ (by omega) (by omega)
    (by exact_mod_cast hval₂) hcopy (hend.imp (fun h => by rw [h]; rfl) (by omega))
  rw [hk, hx.value] at htotal
  rw [hy.value] at hval₁
  have hsum : val (l₃.take x.len) + (2 ^ 64) ^ x.len * c₂.toNat = m + n := by
    zify at hval₁ ⊢
    linear_combination htotal + hval₁
  refine (pushLimb_runs (fun _ => rfl) (by omega) hsum
    (fun h => (hx.normal h).trans (Nat.le_add_right m n)) hidx 1).bind ?_
  rintro ⟨l, len⟩ ⟨hmag, -⟩
  have hnorm := @norm_runs allowed _ hmag.fits fun h => hidx (hmag.limit_le h)
  rw [hmag.value] at hnorm
  exact hnorm.mono fun q hq => ⟨hq.1, hq.2.1⟩

theorem magAdd_runs (hx : x.Mag m) (hy : y.Mag n) (hidx : limit ≤ m + n → allowed .indexException) :
    Runs allowed (magAdd M x y) fun r => r.Mag (m + n) ∧ r.sign = if m + n = 0 then 0 else 1 := by
  by_cases hle : y.len ≤ x.len
  · rw [magAdd, if_pos hle]
    exact magAddTo_runs M hx hy hle hidx
  · rw [magAdd, if_neg hle]
    rw [Nat.add_comm m n] at hidx ⊢
    exact magAddTo_runs M hy hx (by omega) hidx

theorem magSub_runs (hx : x.Mag m) (hy : y.Mag n) (hle : n ≤ m)
    (hidx : maxIdx + 1 < x.len → allowed .indexException) :
    Runs allowed (magSub M x y) fun r => r.Mag (m - n) ∧ r.sign = if m - n = 0 then 0 else 1 := by
  have hlen : y.len ≤ x.len := by
    by_contra h
    exact absurd (hx.lt_of_len_lt hy (by omega)) (by omega)
  have hxfits := hx.fits
  have hyfits := hy.fits
  have hcap := le_newRep_cap M x.len
  rw [magSub]
  refine (subn_runs (fun l hl => by cases hl; omega) hyfits (by omega)).bind ?_
  rintro ⟨l₁, c₁⟩ ⟨h₁, -, hval₁⟩
  have hlen₁ := h₁.length
  dsimp only [Option.getD_some] at hval₁ hlen₁ ⊢
  refine (borrowLoop_runs (fun l hl => by cases hl; omega) (by omega) (fun h => hidx (by omega)) c₁).bind ?_
  rintro ⟨l₂, c₂, _⟩ ⟨j, hj, rfl, h₂, hval₂, hend⟩
  have hlen₂ := h₂.length
  dsimp only [Option.getD_some] at hval₂ hend hlen₂ ⊢
  refine (copyLoop_runs (by omega) (by omega) (fun h => hidx (by omega))).bind ?_
  rintro l₃ ⟨h₃, hcopy⟩
  have hlen₃ := h₃.length
  have hk : y.len + j + (x.len - (y.len + j)) = x.len := by omega
  have htotal := joined_total (-c₁.toNat) (-c₂.toNat) h₂ h₃ (by omega) (by omega)
    (by zify at hval₂; linear_combination hval₂) hcopy
    (hend.imp (fun h => by rw [h]; rfl) (by omega))
  rw [hk, hx.value] at htotal
  rw [hy.value] at hval₁
  have hdiff : val (l₃.take x.len) + n = m + (2 ^ 64) ^ x.len * c₂.toNat := by
    zify at hval₁ ⊢
    linear_combination htotal + hval₁
  have hval := no_borrow (by omega) hle hdiff
  have hnorm := @norm_runs allowed { newRep M x.len with sign := 1, len := x.len, limbs := l₃ }
    (by dsimp only; omega) hidx
  rw [hval] at hnorm
  exact hnorm.mono fun q hq => ⟨hq.1, hq.2.1⟩

end storage

theorem magSubIP_runs (hx : x.Mag m) (hy : y.Mag n) (hle : n ≤ m)
    (hidx : maxIdx + 1 < x.len → allowed .indexException) :
    Runs allowed (magSubIP x y) fun r =>
      r.Mag (m - n) ∧ (r.sign = if m - n = 0 then 0 else x.sign) ∧
        r.limbs.length = x.limbs.length := by
  have hlen : y.len ≤ x.len := by
    by_contra h
    exact absurd (hx.lt_of_len_lt hy (by omega)) (by omega)
  have hxfits := hx.fits
  have hyfits := hy.fits
  rw [magSubIP]
  refine (subn_runs (fun l hl => by cases hl) hyfits (by omega)).bind ?_
  rintro ⟨l₁, c₁⟩ ⟨h₁, -, hval₁⟩
  have hlen₁ := h₁.length
  dsimp only [Option.getD_none] at hval₁ hlen₁ ⊢
  refine (borrowLoop_runs (fun l hl => by cases hl) (by omega) (fun h => hidx (by omega)) c₁).bind ?_
  rintro ⟨l₂, c₂, _⟩ ⟨j, hj, rfl, h₂, hval₂, hend⟩
  have hlen₂ := h₂.length
  dsimp only [Option.getD_none] at hval₂ hend hlen₂ ⊢
  have hk : y.len + j + (x.len - (y.len + j)) = x.len := by omega
  -- the limbs above the borrow are those of x
  have htotal := @joined_total _ _ _ x.limbs _ _ _ (-c₁.toNat) (-c₂.toNat) h₂
    (.refl (n := x.len - (y.len + j))) (by omega) (by omega)
    (by
      rw [h₁.slice_after (by omega) j] at hval₂
      zify at hval₂
      linear_combination hval₂)
    (by rw [h₂.slice_after le_rfl, h₁.slice_after (by omega)])
    (hend.imp (fun h => by rw [h]; rfl) (by omega))
  rw [hk, hx.value] at htotal
  rw [hy.value] at hval₁
  have hdiff : val (l₂.take x.len) + n = m + (2 ^ 64) ^ x.len * c₂.toNat := by
    zify at hval₁ ⊢
    linear_combination htotal + hval₁
  have hval := no_borrow (by omega) hle hdiff
  have hnorm := @norm_runs allowed { x with limbs := l₂ } (by dsimp only; omega) hidx
  rw [hval] at hnorm
  exact hnorm.mono fun q hq => ⟨hq.1, hq.2.1, (congrArg List.length hq.2.2).trans (hlen₂.trans hlen₁)⟩

/-! ## Shifts, and a factor or summand of one limb -/

theorem shlLoop_runs (hl : i + n ≤ l.length) (hidx : maxIdx + 1 < i + n → allowed .indexException)
    {carry : Word} (hcarry : carry.toNat ≤ 1) :
    Runs allowed (shlLoop n i carry l) fun q => Changes i n l q.1 ∧ q.2.toNat ≤ 1 ∧
      val (slice q.1 i n) + (2 ^ 64) ^ n * q.2.toNat = 2 * val (slice l i n) + carry.toNat := by
  induction n generalizing i carry l with
  | zero => exact Runs.ok ⟨.refl, hcarry, by simp⟩
  | succ n ih =>
    have hidx' : maxIdx < i → allowed .indexException := fun h => hidx (by omega)
    rw [shlLoop]
    refine (index_runs (by omega) hidx').bind ?_
    rintro _ rfl
    have hshl := shl_exact l[i] hcarry
    have hnc : (l[i] >>> 63).toNat ≤ 1 := by
      have hlt := l[i].isLt
      rw [BitVec.toNat_ushiftRight, Nat.shiftRight_eq_div_pow]
      omega
    dsimp only
    generalize l[i] >>> 63 = nc at *
    generalize l[i] <<< 1 ||| carry = x at *
    refine (assign_runs (by omega) hidx' x).bind ?_
    rintro _ rfl
    refine (ih (by rw [List.length_set]; omega) (fun h => hidx (by omega)) hnc).mono ?_
    rintro ⟨l', c⟩ ⟨hc, hle, hval⟩
    refine ⟨hc.step, hle, ?_⟩
    rw [hc.slice_step (by omega), slice_succ (by omega), val_cons, val_cons, pow_succ]
    rw [slice_set_of_lt (Nat.lt_succ_self i)] at hval
    calc x.toNat + 2 ^ 64 * val (slice l' (i + 1) n) + (2 ^ 64) ^ n * 2 ^ 64 * c.toNat
        = x.toNat + 2 ^ 64 * (val (slice l' (i + 1) n) + (2 ^ 64) ^ n * c.toNat) := by ring
      _ = (x.toNat + 2 ^ 64 * nc.toNat) + 2 ^ 64 * (2 * val (slice l (i + 1) n)) := by rw [hval]; ring
      _ = _ := by rw [hshl]; ring

/-- From the upper limbs down; the bit that leaves a limb enters the one below. -/
theorem shrLoop_runs (hl : n ≤ l.length) (hidx : maxIdx + 1 < n → allowed .indexException)
    {carry : Word} (hcarry : carry.toNat ≤ 1) :
    Runs allowed (shrLoop n carry l) fun l' => l'.length = l.length ∧ l'.drop n = l.drop n ∧
      val (l'.take n) = (val (l.take n) + (2 ^ 64) ^ n * carry.toNat) / 2 := by
  induction n generalizing carry l with
  | zero =>
    refine Runs.ok ⟨rfl, rfl, ?_⟩
    simp only [List.take_zero, val_nil, pow_zero, Nat.one_mul, Nat.zero_add]
    omega
  | succ n ih =>
    have hidx' : maxIdx < n → allowed .indexException := fun h => hidx (by omega)
    rw [shrLoop]
    refine (index_runs (by omega) hidx').bind ?_
    rintro _ rfl
    have hshr := shr_exact l[n] hcarry
    have hnc : (l[n] &&& 1).toNat ≤ 1 := by
      rw [BitVec.toNat_and]
      exact Nat.and_le_right
    have hsplit := val_take_succ (l := l) (n := n) (by omega)
    dsimp only
    generalize l[n] &&& 1 = nc at *
    generalize l[n] >>> 1 ||| carry <<< 63 = x at *
    refine (assign_runs (by omega) hidx' x).bind ?_
    rintro _ rfl
    refine (ih (by rw [List.length_set]; omega) (fun h => hidx (by omega)) hnc).mono ?_
    rintro l' ⟨hlen, hdrop, hval⟩
    rw [List.length_set] at hlen
    rw [take_set_of_le le_rfl] at hval
    have hlt : n < l'.length := by omega
    have hx : l'[n] = x := by
      have hhead := congrArg List.head? hdrop
      rw [List.head?_drop, List.head?_drop, List.getElem?_set_self (by omega),
        List.getElem?_eq_getElem (by omega)] at hhead
      exact Option.some.inj hhead
    refine ⟨hlen, ?_, ?_⟩
    · have hdrop' := congrArg (List.drop 1) hdrop
      rwa [List.drop_drop, List.drop_drop, List.drop_set_of_lt (by omega)] at hdrop'
    · rw [val_take_succ (by omega), hx, hval, hsplit, pow_succ (2 ^ 64) n]
      have hwhole : val (l.take n) + (2 ^ 64) ^ n * l[n].toNat + (2 ^ 64) ^ n * 2 ^ 64 * carry.toNat =
          (val (l.take n) + (2 ^ 64) ^ n * nc.toNat) + 2 * ((2 ^ 64) ^ n * x.toNat) := by
        calc _ = val (l.take n) + (2 ^ 64) ^ n * (l[n].toNat + 2 ^ 64 * carry.toNat) := by ring
          _ = _ := by rw [← hshr]; ring
      rw [hwhole, Nat.add_mul_div_left _ _ (by norm_num)]

theorem shrOne_runs (hp : p.Mag n) (hidx : maxIdx + 1 < p.len → allowed .indexException) :
    Runs allowed (shrOne p) fun q => q.Mag (n / 2) ∧
      (0 < n → q.sign = if n / 2 = 0 then 0 else p.sign) := by
  by_cases h0 : p.len = 0
  · have hn := hp.len_eq_zero.1 h0
    subst hn
    rw [shrOne, if_pos h0]
    exact Runs.ok ⟨hp, fun h => absurd h (lt_irrefl 0)⟩
  · rw [shrOne, if_neg h0]
    refine (shrLoop_runs hp.fits hidx (show (0 : Word).toNat ≤ 1 by decide)).bind ?_
    rintro l ⟨hlen, -, hval⟩
    have hfits := hp.fits
    have hnorm := @norm_runs allowed { p with limbs := l } (by dsimp only; omega) hidx
    rw [hp.value] at hval
    have hval' : val (l.take p.len) = n / 2 := hval.trans (by simp)
    rw [hval'] at hnorm
    exact hnorm.mono fun q hq => ⟨hq.1, fun _ => hq.2.1⟩

theorem bitLength_runs (hp : p.Mag n) (hidx : maxIdx + 1 < p.len → allowed .indexException) :
    Runs allowed (bitLength p) fun k => n < 2 ^ k ∧ k ≤ 64 * p.len := by
  rw [bitLength]
  split_ifs with h0
  · rw [hp.len_eq_zero.1 h0]
    exact Runs.ok ⟨by norm_num, Nat.zero_le _⟩
  · have hlt : p.len - 1 < p.limbs.length := by
      have := hp.fits
      omega
    refine (index_runs hlt (fun h => hidx (by omega))).bind ?_
    rintro _ rfl
    obtain ⟨k, hk, hbits, hmin⟩ := bitLengthLoop_spec p.limbs[p.len - 1] 0
    have hk64 := hmin 64 (BitVec.isLt _)
    rw [hk, Nat.zero_add]
    refine Runs.ok ⟨?_, by omega⟩
    have hsplit := val_take_succ hlt
    rw [Nat.sub_add_cancel (by omega), hp.value] at hsplit
    rw [hsplit, pow_add, Nat.mul_comm (p.len - 1), pow_mul]
    calc val (p.limbs.take (p.len - 1)) + (2 ^ 64) ^ (p.len - 1) * p.limbs[p.len - 1].toNat
        < (2 ^ 64) ^ (p.len - 1) * (p.limbs[p.len - 1].toNat + 1) := by
          rw [Nat.mul_add, Nat.mul_one, Nat.add_comm]
          exact Nat.add_lt_add_left (val_take_lt hlt.le) _
      _ ≤ _ := Nat.mul_le_mul_left _ hbits

section storage
variable (M : Storage)

theorem shlOne_runs (hp : p.Mag n) (hidx : limit ≤ 2 * n → allowed .indexException) :
    Runs allowed (shlOne M p) fun q => q.Mag (2 * n) ∧ q.sign = p.sign ∧
      (0 < p.limbs.length → 0 < q.limbs.length) := by
  rw [shlOne]
  split_ifs with h0
  · have hn := hp.len_eq_zero.1 h0
    subst hn
    exact Runs.ok ⟨hp, rfl, id⟩
  · have hidx' : maxIdx + 1 < p.len → allowed .indexException := fun h =>
      hidx ((hp.limit_le h).trans (by omega))
    refine (ensure_runs M hp.fits hidx').bind ?_
    rintro q ⟨hsign, hlen, hcap, hfits, hlimbs⟩
    rw [← hlen] at hcap hfits hlimbs hidx'
    refine (shlLoop_runs (by omega) (by simpa using hidx') (show (0 : Word).toNat ≤ 1 by decide)).bind ?_
    rintro ⟨l, carry⟩ ⟨hc, hle, hval⟩
    have hlen' := hc.length
    simp only [slice_of_zero] at hval
    rw [hlimbs, hlen, hp.value, ← hlen] at hval
    have hcarry : carry ≠ 0 → (1 : Word) = carry := fun h =>
      BitVec.eq_of_toNat_eq (le_antisymm (toNat_pos h) hle)
    refine (pushLimb_runs hcarry (by dsimp only at hlen'; omega) (hval.trans (by simp))
      (fun h => ?_) hidx q.sign).bind ?_
    · rw [hlen] at h ⊢
      exact (hp.normal h).trans (by omega)
    · rintro ⟨l, len⟩ ⟨hmag, -⟩
      refine Runs.ok ⟨hmag, hsign, fun _ => ?_⟩
      have hlen₀ := mt hmag.len_eq_zero.1 (Nat.mul_ne_zero two_ne_zero (mt hp.len_eq_zero.2 h0))
      have hfits₀ := hmag.fits
      dsimp only at hlen₀ hfits₀ ⊢
      omega

theorem mulSmall_runs (hp : p.Mag n) (v : Word)
    (hidx : limit ≤ n * v.toNat → allowed .indexException) :
    Runs allowed (mulSmall M p v) fun q => q.Mag (n * v.toNat) ∧
      (q.sign = if n * v.toNat = 0 then 0 else if p.sign = 0 then 1 else p.sign) ∧
        (p.len ≤ maxIdx + 1 → q.len ≤ maxIdx + 1) := by
  by_cases h0 : p.len = 0 ∨ v = 0
  · have hprod : n * v.toNat = 0 := by
      rcases h0 with h0 | rfl
      · rw [hp.len_eq_zero.1 h0, Nat.zero_mul]
      · exact Nat.mul_zero n
    rw [mulSmall, if_pos h0, hprod]
    exact Runs.ok ⟨Rep.mag_zero rfl, rfl, fun _ => Nat.zero_le _⟩
  · have hv : 0 < v.toNat := toNat_pos fun h => h0 (.inr h)
    have hn : n ≠ 0 := fun h => h0 (.inl (hp.len_eq_zero.2 h))
    have hle : n ≤ n * v.toNat := Nat.le_mul_of_pos_right n hv
    rw [mulSmall, if_neg h0, if_neg (Nat.mul_ne_zero hn hv.ne')]
    refine (ensure_runs M hp.fits (fun h => hidx ((hp.limit_le h).trans hle))).bind ?_
    rintro q ⟨hsign, hlen, hcap, hfits, hlimbs⟩
    rw [← hlen] at hcap hfits hlimbs
    refine (mul1_runs v (fun l hl => by cases hl) hfits).bind ?_
    rintro ⟨l, c⟩ ⟨hc, hval⟩
    have hlen' := hc.length
    dsimp only [Option.getD_none] at hval hlen'
    rw [hlimbs, hlen, hp.value, ← hlen] at hval
    refine (pushLimb_runs (fun _ => rfl) (by omega) hval (fun h => ?_) hidx
      (if q.sign = 0 then 1 else q.sign)).bind ?_
    · rw [hlen] at h ⊢
      exact (hp.normal h).trans hle
    · rintro ⟨l, len⟩ ⟨hmag, hle'⟩
      exact Runs.ok ⟨hmag, by rw [hsign], hlen ▸ hle'⟩

theorem addSmall_runs (hp : p.Mag n) (v : Word) (hidx : limit ≤ n + v.toNat → allowed .indexException) :
    Runs allowed (addSmall M p v) fun q => q.Mag (n + v.toNat) ∧
      (q.sign = if v = 0 then p.sign else if p.sign = 0 then 1 else p.sign) ∧
        (p.len ≤ maxIdx + 1 → q.len ≤ maxIdx + 1) := by
  by_cases h0 : v = 0
  · rw [addSmall, if_pos h0, if_pos h0, h0]
    exact Runs.ok ⟨hp, rfl, id⟩
  · have hle : n ≤ n + v.toNat := Nat.le_add_right n _
    have hidx' : maxIdx + 1 < p.len → allowed .indexException := fun h =>
      hidx ((hp.limit_le h).trans hle)
    rw [addSmall, if_neg h0, if_neg h0]
    refine (ensure_runs M hp.fits hidx').bind ?_
    rintro q ⟨hsign, hlen, hcap, hfits, hlimbs⟩
    rw [← hlen] at hcap hfits hlimbs hidx'
    refine (carryLoop_runs (fun l hl => by cases hl) (by omega) (by simpa using hidx') v).bind ?_
    rintro ⟨l, c, _⟩ ⟨j, hj, rfl, hc, hval, hend⟩
    have hlen' := hc.length
    dsimp only [Option.getD_none] at hval hend hlen' ⊢
    -- the limbs above the carry are as they were
    have htotal := @joined_total q.limbs _ _ q.limbs _ _ _ v.toNat c.toNat hc
      (.refl (n := q.len - j)) (by omega) (by omega) (by exact_mod_cast hval)
      (hc.slice_after le_rfl _) (hend.imp (fun h => by rw [h]; rfl) (by omega))
    have hj' : 0 + j + (q.len - j) = q.len := by omega
    rw [hj', hlimbs, hlen, hp.value, ← hlen] at htotal
    have hsum : val (l.take q.len) + (2 ^ 64) ^ q.len * c.toNat = n + v.toNat := by
      zify
      simp only [List.take_zero, val_nil, pow_zero, one_mul] at htotal
      linear_combination htotal
    refine (pushLimb_runs (fun _ => rfl) (by omega) hsum (fun h => ?_) hidx
      (if q.sign = 0 then 1 else q.sign)).bind ?_
    · rw [hlen] at h ⊢
      exact (hp.normal h).trans hle
    · rintro ⟨l, len⟩ ⟨hmag, hle'⟩
      exact Runs.ok ⟨hmag, by rw [hsign], hlen ▸ hle'⟩

end storage
end runs
end NewM2.Winrt.BigInt
