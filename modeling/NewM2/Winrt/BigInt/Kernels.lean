import Mathlib
import NewM2.Lib.Limbs
import NewM2.Lib.Runs
import NewM2.Lib.Segment

/-!
# Limb kernels (`library/winrtmod/BigInt.mod`)

The assembler procedures on 64-bit words. A pointer into a block of limbs is the block and an index; a
load or store outside the block is a fault. `rp` and `ap` may be one block, which `none` for `ap` stands
for. Each kernel changes `n` limbs of `rp` and leaves those before and after as they are; the theorems
`addn_runs` to `divmod1_runs` say what number they hold then. -/

namespace NewM2.Winrt.BigInt
open Limbs Segment

abbrev Word := BitVec 64

/-- What stops a procedure. -/
inductive Fault
  /-- The check of an index into the cast view of the limbs. -/
  | indexException
  /-- A limb outside its block. -/
  | access
  /-- `div` by zero, or with a quotient of more than a word. -/
  | divide
  /-- A handle that is not in use. -/
  | dangling
  /-- An index into a text beyond its HIGH. -/
  | textIndex
  /-- A loop that has not ended after the rounds it is given. -/
  | rounds
deriving Repr, DecidableEq

/-- The number that limbs stand for. -/
abbrev val (l : List Word) : Nat := value (2 ^ 64) l

/-! ## Instructions -/

/-- `add` and `adc`: the sum and the carry flag. -/
def adc (x y : Word) (cf : Bool) : Word × Bool :=
  (x + y + BitVec.ofNat 64 cf.toNat, decide (2 ^ 64 ≤ x.toNat + y.toNat + cf.toNat))

/-- `sbb`: the difference and the carry flag. -/
def sbb (x y : Word) (cf : Bool) : Word × Bool :=
  (x - y - BitVec.ofNat 64 cf.toNat, decide (x.toNat < y.toNat + cf.toNat))

/-- `mul`: rdx and rax. -/
def mulWide (x y : Word) : Word × Word :=
  (BitVec.ofNat 64 (x.toNat * y.toNat / 2 ^ 64), BitVec.ofNat 64 (x.toNat * y.toNat))

/-- `div` of rdx:rax: rax and rdx. -/
def divWide (rdx rax d : Word) : Except Fault (Word × Word) :=
  if d = 0 ∨ 2 ^ 64 ≤ (rdx.toNat * 2 ^ 64 + rax.toNat) / d.toNat then .error .divide
  else .ok (BitVec.ofNat 64 ((rdx.toNat * 2 ^ 64 + rax.toNat) / d.toNat),
    BitVec.ofNat 64 ((rdx.toNat * 2 ^ 64 + rax.toNat) % d.toNat))

def load (l : List Word) (i : Nat) : Except Fault Word :=
  match l[i]? with
  | some x => .ok x
  | none => .error .access

def store (l : List Word) (i : Nat) (x : Word) : Except Fault (List Word) :=
  if i < l.length then .ok (l.set i x) else .error .access

/-! ## The kernels -/

/-- `addmul1_loop`; `off` is the index at which rcx began, r11 the carry limb. -/
def addmul1Loop (ap : List Word) (b : Word) (off : Nat) :
    Nat → Nat → Word → List Word → Except Fault (List Word × Word)
  | 0, _, r11, rp => .ok (rp, r11)
  | n + 1, i, r11, rp => do
    let rax ← load ap i
    let (rdx, rax) := mulWide rax b
    let (rax, cf) := adc rax r11 false
    let (rdx, _) := adc rdx 0 cf
    let (x, cf) := adc (← load rp (off + i)) rax false
    let rp ← store rp (off + i) x
    let (rdx, _) := adc rdx 0 cf
    addmul1Loop ap b off n (i + 1) rdx rp

def addmul1 (rp : List Word) (off : Nat) (ap : List Word) (n : Nat) (b : Word) :
    Except Fault (List Word × Word) :=
  addmul1Loop ap b off n 0 0 rp

def mul1Loop (ap : Option (List Word)) (b : Word) :
    Nat → Nat → Word → List Word → Except Fault (List Word × Word)
  | 0, _, r11, rp => .ok (rp, r11)
  | n + 1, i, r11, rp => do
    let rax ← load (ap.getD rp) i
    let (rdx, rax) := mulWide rax b
    let (rax, cf) := adc rax r11 false
    let (rdx, _) := adc rdx 0 cf
    let rp ← store rp i rax
    mul1Loop ap b n (i + 1) rdx rp

def mul1 (rp : List Word) (ap : Option (List Word)) (n : Nat) (b : Word) :
    Except Fault (List Word × Word) :=
  mul1Loop ap b n 0 0 rp

/-- `lea` and `dec` leave the carry flag as it is. -/
def addnLoop (ap bp : List Word) : Nat → Nat → Bool → List Word → Except Fault (List Word × Bool)
  | 0, _, cf, rp => .ok (rp, cf)
  | n + 1, i, cf, rp => do
    let rax ← load ap i
    let (rax, cf) := adc rax (← load bp i) cf
    let rp ← store rp i rax
    addnLoop ap bp n (i + 1) cf rp

def addn (rp ap bp : List Word) (n : Nat) : Except Fault (List Word × Word) := do
  let (rp, cf) ← addnLoop ap bp n 0 false rp
  .ok (rp, if cf then 1 else 0)

def subnLoop (ap : Option (List Word)) (bp : List Word) :
    Nat → Nat → Bool → List Word → Except Fault (List Word × Bool)
  | 0, _, cf, rp => .ok (rp, cf)
  | n + 1, i, cf, rp => do
    let rax ← load (ap.getD rp) i
    let (rax, cf) := sbb rax (← load bp i) cf
    let rp ← store rp i rax
    subnLoop ap bp n (i + 1) cf rp

def subn (rp : List Word) (ap : Option (List Word)) (bp : List Word) (n : Nat) :
    Except Fault (List Word × Word) := do
  let (rp, cf) ← subnLoop ap bp n 0 false rp
  .ok (rp, if cf then 1 else 0)

/-- `dm1_loop`, from the index `n - 1` down to 0. -/
def divmod1Loop (ap : Option (List Word)) (d : Word) :
    Nat → Word → List Word → Except Fault (List Word × Word)
  | 0, rdx, rp => .ok (rp, rdx)
  | n + 1, rdx, rp => do
    let (rax, rdx) ← divWide rdx (← load (ap.getD rp) n) d
    let rp ← store rp n rax
    divmod1Loop ap d n rdx rp

def divmod1 (rp : List Word) (ap : Option (List Word)) (n : Nat) (d : Word) :
    Except Fault (List Word × Word) :=
  divmod1Loop ap d n 0 rp

/-! ## What the instructions compute -/

theorem adc_exact (x y : Word) (cf : Bool) :
    (adc x y cf).1.toNat + 2 ^ 64 * (adc x y cf).2.toNat = x.toNat + y.toNat + cf.toNat := by
  have hx := x.isLt
  have hy := y.isLt
  have hcf : cf.toNat ≤ 1 := Bool.toNat_le cf
  simp only [adc, BitVec.toNat_add, BitVec.toNat_ofNat]
  by_cases h : 2 ^ 64 ≤ x.toNat + y.toNat + cf.toNat
  · rw [decide_eq_true h, Bool.toNat_true]
    omega
  · rw [decide_eq_false h, Bool.toNat_false]
    omega

theorem sbb_exact (x y : Word) (cf : Bool) :
    (sbb x y cf).1.toNat + y.toNat + cf.toNat = x.toNat + 2 ^ 64 * (sbb x y cf).2.toNat := by
  have hx := x.isLt
  have hy := y.isLt
  have hcf : cf.toNat ≤ 1 := Bool.toNat_le cf
  simp only [sbb, BitVec.toNat_sub, BitVec.toNat_ofNat]
  by_cases h : x.toNat < y.toNat + cf.toNat
  · rw [decide_eq_true h, Bool.toNat_true]
    omega
  · rw [decide_eq_false h, Bool.toNat_false]
    omega

theorem mulWide_exact (x y : Word) :
    (mulWide x y).2.toNat + 2 ^ 64 * (mulWide x y).1.toNat = x.toNat * y.toNat := by
  have hlt : x.toNat * y.toNat < 2 ^ 64 * 2 ^ 64 := Nat.mul_lt_mul'' x.isLt y.isLt
  simp only [mulWide, BitVec.toNat_ofNat]
  generalize x.toNat * y.toNat = p at hlt
  omega

/-- The product with a carry limb added: `mul`, `add`, `adc`. -/
theorem mulAdd_exact (x y c : Word) :
    (adc (mulWide x y).2 c false).1.toNat +
        2 ^ 64 * (adc (mulWide x y).1 0 (adc (mulWide x y).2 c false).2).1.toNat =
      x.toNat * y.toNat + c.toNat := by
  have hle : x.toNat * y.toNat ≤ (2 ^ 64 - 1) * (2 ^ 64 - 1) := by
    have hx := x.isLt
    have hy := y.isLt
    exact Nat.mul_le_mul (by omega) (by omega)
  have hc := c.isLt
  have hmul := mulWide_exact x y
  have hlow := adc_exact (mulWide x y).2 c false
  have hhigh := adc_exact (mulWide x y).1 0 (adc (mulWide x y).2 c false).2
  have hlt := (adc (mulWide x y).2 c false).1.isLt
  have hflag : (adc (mulWide x y).1 0 (adc (mulWide x y).2 c false).2).2.toNat ≤ 1 :=
    Bool.toNat_le _
  simp only [Bool.toNat_false, show (0 : Word).toNat = 0 from rfl] at hlow hhigh
  generalize x.toNat * y.toNat = p at *
  omega

theorem divWide_exact {rdx d : Word} (rax : Word) (h : rdx.toNat < d.toNat) :
    ∃ q r, divWide rdx rax d = .ok (q, r) ∧
      d.toNat * q.toNat + r.toNat = rdx.toNat * 2 ^ 64 + rax.toNat ∧ r.toNat < d.toNat := by
  have hpos : 0 < d.toNat := by omega
  have hne : d ≠ 0 := by
    rintro rfl
    exact absurd hpos (by decide)
  have hrax := rax.isLt
  have hd := d.isLt
  have hq : (rdx.toNat * 2 ^ 64 + rax.toNat) / d.toNat < 2 ^ 64 := by
    rw [Nat.div_lt_iff_lt_mul hpos]
    calc rdx.toNat * 2 ^ 64 + rax.toNat < (rdx.toNat + 1) * 2 ^ 64 := by omega
      _ ≤ d.toNat * 2 ^ 64 := Nat.mul_le_mul_right _ h
      _ = 2 ^ 64 * d.toNat := Nat.mul_comm _ _
  have hr : (rdx.toNat * 2 ^ 64 + rax.toNat) % d.toNat < d.toNat := Nat.mod_lt _ hpos
  refine ⟨_, _, if_neg (by rw [not_or, Nat.not_le]; exact ⟨hne, hq⟩), ?_, ?_⟩
  · rw [BitVec.toNat_ofNat, BitVec.toNat_ofNat, Nat.mod_eq_of_lt hq, Nat.mod_eq_of_lt (hr.trans hd)]
    exact Nat.div_add_mod _ _
  · rwa [BitVec.toNat_ofNat, Nat.mod_eq_of_lt (hr.trans hd)]

/-- A product added to a limb: `mul1` with the `add` into memory. -/
theorem mulAddMem_exact (x y c m : Word) :
    let low := (adc (mulWide x y).2 c false).1
    let high := (adc (mulWide x y).1 0 (adc (mulWide x y).2 c false).2).1
    (adc m low false).1.toNat + 2 ^ 64 * (adc high 0 (adc m low false).2).1.toNat =
      m.toNat + x.toNat * y.toNat + c.toNat := by
  intro low high
  have hle : x.toNat * y.toNat ≤ (2 ^ 64 - 1) * (2 ^ 64 - 1) := by
    have hx := x.isLt
    have hy := y.isLt
    exact Nat.mul_le_mul (by omega) (by omega)
  have hc := c.isLt
  have hm := m.isLt
  have hprod : low.toNat + 2 ^ 64 * high.toNat = x.toNat * y.toNat + c.toNat := mulAdd_exact x y c
  have hsum := adc_exact m low false
  have hhigh := adc_exact high 0 (adc m low false).2
  have hflag : (adc high 0 (adc m low false).2).2.toNat ≤ 1 := Bool.toNat_le _
  simp only [Bool.toNat_false, show (0 : Word).toNat = 0 from rfl] at hsum hhigh
  generalize x.toNat * y.toNat = p at *
  omega

/-! ## What the kernels compute -/

section kernels
variable {allowed : Fault → Prop} {rp bp : List Word} {n i : Nat}

@[simp] theorem val_nil : val [] = 0 := rfl

@[simp] theorem val_cons (x : Word) (l : List Word) : val (x :: l) = x.toNat + 2 ^ 64 * val l :=
  value_cons x

theorem load_runs {l : List Word} (h : i < l.length) : Runs allowed (load l i) (· = l[i]) := by
  rw [load, List.getElem?_eq_getElem h]
  exact Runs.ok rfl

theorem store_runs {l : List Word} (h : i < l.length) (x : Word) :
    Runs allowed (store l i x) (· = l.set i x) := by
  rw [store, if_pos h]
  exact Runs.ok rfl

/-- Where the source is the block that is written, the limbs to come are still as they were. -/
theorem slice_getD_set (ap : Option (List Word)) (rp : List Word) (i n : Nat) (x : Word) :
    slice (ap.getD (rp.set i x)) (i + 1) n = slice (ap.getD rp) (i + 1) n := by
  cases ap with
  | none => exact slice_set_of_lt (Nat.lt_succ_self i)
  | some l => rfl

theorem length_getD {ap : Option (List Word)} {rp : List Word} {m : Nat} (hap : ∀ l ∈ ap, m ≤ l.length)
    (hrp : m ≤ rp.length) : m ≤ (ap.getD rp).length := by
  cases ap with
  | none => exact hrp
  | some l => exact hap l rfl

theorem addnLoop_runs {ap : List Word} (hap : i + n ≤ ap.length) (hbp : i + n ≤ bp.length)
    (hrp : i + n ≤ rp.length) (cf : Bool) :
    Runs allowed (addnLoop ap bp n i cf rp) fun p => Changes i n rp p.1 ∧
      val (slice p.1 i n) + (2 ^ 64) ^ n * p.2.toNat =
        val (slice ap i n) + val (slice bp i n) + cf.toNat := by
  induction n generalizing i cf rp with
  | zero => exact Runs.ok ⟨.refl, by simp⟩
  | succ n ih =>
    rw [addnLoop]
    refine (load_runs (by omega)).bind ?_
    rintro _ rfl
    refine (load_runs (by omega)).bind ?_
    rintro _ rfl
    have hadc := adc_exact ap[i] bp[i] cf
    dsimp only
    generalize (adc ap[i] bp[i] cf).1 = x at *
    generalize (adc ap[i] bp[i] cf).2 = c at *
    refine (store_runs (by omega) x).bind ?_
    rintro _ rfl
    refine (ih (by omega) (by omega) (by rw [List.length_set]; omega) c).mono ?_
    rintro ⟨rp', cf'⟩ ⟨hc, hval⟩
    refine ⟨hc.step, ?_⟩
    rw [hc.slice_step (by omega), slice_succ (by omega), slice_succ (by omega), val_cons, val_cons,
      val_cons, pow_succ]
    calc x.toNat + 2 ^ 64 * val (slice rp' (i + 1) n) + (2 ^ 64) ^ n * 2 ^ 64 * cf'.toNat
        = x.toNat + 2 ^ 64 * (val (slice rp' (i + 1) n) + (2 ^ 64) ^ n * cf'.toNat) := by ring
      _ = (x.toNat + 2 ^ 64 * c.toNat) +
            2 ^ 64 * (val (slice ap (i + 1) n) + val (slice bp (i + 1) n)) := by rw [hval]; ring
      _ = _ := by rw [hadc]; ring

/-- Two numbers of `n` limbs are added into the lower limbs of `rp`. -/
theorem addn_runs {ap : List Word} (hap : n ≤ ap.length) (hbp : n ≤ bp.length) (hrp : n ≤ rp.length) :
    Runs allowed (addn rp ap bp n) fun p => Changes 0 n rp p.1 ∧ p.2.toNat ≤ 1 ∧
      val (p.1.take n) + (2 ^ 64) ^ n * p.2.toNat = val (ap.take n) + val (bp.take n) := by
  refine (addnLoop_runs (by omega) (by omega) (by omega) false).bind ?_
  rintro ⟨rp', cf⟩ ⟨hc, hval⟩
  refine Runs.ok ⟨hc, ?_, ?_⟩
  · cases cf <;> exact Nat.le_of_ble_eq_true rfl
  · simp only [slice_of_zero, Bool.toNat_false] at hval
    cases cf <;> exact hval

theorem subnLoop_runs {ap : Option (List Word)} (hap : ∀ l ∈ ap, i + n ≤ l.length)
    (hbp : i + n ≤ bp.length) (hrp : i + n ≤ rp.length) (cf : Bool) :
    Runs allowed (subnLoop ap bp n i cf rp) fun p => Changes i n rp p.1 ∧
      val (slice p.1 i n) + val (slice bp i n) + cf.toNat =
        val (slice (ap.getD rp) i n) + (2 ^ 64) ^ n * p.2.toNat := by
  induction n generalizing i cf rp with
  | zero => exact Runs.ok ⟨.refl, by simp⟩
  | succ n ih =>
    have hap' := length_getD hap hrp
    rw [subnLoop]
    refine (load_runs (by omega)).bind ?_
    rintro _ rfl
    refine (load_runs (by omega)).bind ?_
    rintro _ rfl
    have hsbb := sbb_exact (ap.getD rp)[i] bp[i] cf
    dsimp only
    generalize (sbb (ap.getD rp)[i] bp[i] cf).1 = x at *
    generalize (sbb (ap.getD rp)[i] bp[i] cf).2 = c at *
    refine (store_runs (by omega) x).bind ?_
    rintro _ rfl
    refine (ih (fun l hl => by have := hap l hl; omega) (by omega) (by rw [List.length_set]; omega) c).mono ?_
    rintro ⟨rp', cf'⟩ ⟨hc, hval⟩
    refine ⟨hc.step, ?_⟩
    rw [hc.slice_step (by omega), slice_succ (by omega), slice_succ (by omega), val_cons, val_cons,
      val_cons, pow_succ]
    rw [slice_getD_set] at hval
    calc x.toNat + 2 ^ 64 * val (slice rp' (i + 1) n) +
          (bp[i].toNat + 2 ^ 64 * val (slice bp (i + 1) n)) + cf.toNat
        = (x.toNat + bp[i].toNat + cf.toNat) +
            2 ^ 64 * (val (slice rp' (i + 1) n) + val (slice bp (i + 1) n)) := by ring
      _ = (ap.getD rp)[i].toNat +
            2 ^ 64 * (val (slice rp' (i + 1) n) + val (slice bp (i + 1) n) + c.toNat) := by
          rw [hsbb]; ring
      _ = _ := by rw [hval]; ring

/-- The lower `n` limbs of a number, less those of another, with the borrow. -/
theorem subn_runs {ap : Option (List Word)} (hap : ∀ l ∈ ap, n ≤ l.length) (hbp : n ≤ bp.length)
    (hrp : n ≤ rp.length) :
    Runs allowed (subn rp ap bp n) fun p => Changes 0 n rp p.1 ∧ p.2.toNat ≤ 1 ∧
      val (p.1.take n) + val (bp.take n) = val ((ap.getD rp).take n) + (2 ^ 64) ^ n * p.2.toNat := by
  refine (subnLoop_runs (fun l hl => by have := hap l hl; omega) (by omega) (by omega) false).bind ?_
  rintro ⟨rp', cf⟩ ⟨hc, hval⟩
  refine Runs.ok ⟨hc, ?_, ?_⟩
  · cases cf <;> exact Nat.le_of_ble_eq_true rfl
  · simp only [slice_of_zero, Bool.toNat_false] at hval
    cases cf <;> exact hval

theorem mul1Loop_runs {ap : Option (List Word)} (b : Word) (hap : ∀ l ∈ ap, i + n ≤ l.length)
    (hrp : i + n ≤ rp.length) (r11 : Word) :
    Runs allowed (mul1Loop ap b n i r11 rp) fun p => Changes i n rp p.1 ∧
      val (slice p.1 i n) + (2 ^ 64) ^ n * p.2.toNat =
        val (slice (ap.getD rp) i n) * b.toNat + r11.toNat := by
  induction n generalizing i r11 rp with
  | zero => exact Runs.ok ⟨.refl, by simp⟩
  | succ n ih =>
    have hap' := length_getD hap hrp
    rw [mul1Loop]
    refine (load_runs (by omega)).bind ?_
    rintro _ rfl
    have hmul := mulAdd_exact (ap.getD rp)[i] b r11
    generalize mulWide (ap.getD rp)[i] b = p at *
    dsimp only
    generalize (adc p.1 0 (adc p.2 r11 false).2).1 = high at *
    generalize (adc p.2 r11 false).1 = low at *
    refine (store_runs (by omega) low).bind ?_
    rintro _ rfl
    refine (ih (fun l hl => by have := hap l hl; omega) (by rw [List.length_set]; omega) high).mono ?_
    rintro ⟨rp', c⟩ ⟨hc, hval⟩
    refine ⟨hc.step, ?_⟩
    rw [hc.slice_step (by omega), slice_succ (by omega), val_cons, val_cons, pow_succ]
    rw [slice_getD_set] at hval
    calc low.toNat + 2 ^ 64 * val (slice rp' (i + 1) n) + (2 ^ 64) ^ n * 2 ^ 64 * c.toNat
        = low.toNat + 2 ^ 64 * (val (slice rp' (i + 1) n) + (2 ^ 64) ^ n * c.toNat) := by ring
      _ = (low.toNat + 2 ^ 64 * high.toNat) +
            2 ^ 64 * (val (slice (ap.getD rp) (i + 1) n) * b.toNat) := by rw [hval]; ring
      _ = _ := by rw [hmul]; ring

theorem mul1_runs {ap : Option (List Word)} (b : Word) (hap : ∀ l ∈ ap, n ≤ l.length)
    (hrp : n ≤ rp.length) :
    Runs allowed (mul1 rp ap n b) fun p => Changes 0 n rp p.1 ∧
      val (p.1.take n) + (2 ^ 64) ^ n * p.2.toNat = val ((ap.getD rp).take n) * b.toNat := by
  refine (mul1Loop_runs b (fun l hl => by have := hap l hl; omega) (by omega) 0).mono ?_
  rintro ⟨rp', c⟩ ⟨hc, hval⟩
  simp only [slice_of_zero] at hval
  exact ⟨hc, hval⟩

theorem addmul1Loop_runs {ap : List Word} (b : Word) {off : Nat} (hap : i + n ≤ ap.length)
    (hrp : off + i + n ≤ rp.length) (r11 : Word) :
    Runs allowed (addmul1Loop ap b off n i r11 rp) fun p => Changes (off + i) n rp p.1 ∧
      val (slice p.1 (off + i) n) + (2 ^ 64) ^ n * p.2.toNat =
        val (slice rp (off + i) n) + val (slice ap i n) * b.toNat + r11.toNat := by
  induction n generalizing i r11 rp with
  | zero => exact Runs.ok ⟨.refl, by simp⟩
  | succ n ih =>
    rw [addmul1Loop]
    refine (load_runs (by omega)).bind ?_
    rintro _ rfl
    have hmul := mulAddMem_exact ap[i] b r11 rp[off + i]
    generalize mulWide ap[i] b = p at *
    dsimp only at hmul ⊢
    generalize (adc p.1 0 (adc p.2 r11 false).2).1 = high at *
    generalize (adc p.2 r11 false).1 = low at *
    refine (load_runs (by omega)).bind ?_
    rintro _ rfl
    generalize (adc high 0 (adc rp[off + i] low false).2).1 = c at *
    generalize (adc rp[off + i] low false).1 = x at *
    refine (store_runs (by omega) x).bind ?_
    rintro _ rfl
    refine (ih (by omega) (by rw [List.length_set]; omega) c).mono ?_
    rintro ⟨rp', c'⟩ ⟨hc, hval⟩
    rw [← Nat.add_assoc] at hc
    refine ⟨hc.step, ?_⟩
    rw [hc.slice_step (by omega), slice_succ (by omega), slice_succ (by omega), val_cons, val_cons,
      val_cons, pow_succ]
    rw [← Nat.add_assoc, slice_set_of_lt (Nat.lt_succ_self _)] at hval
    calc x.toNat + 2 ^ 64 * val (slice rp' (off + i + 1) n) + (2 ^ 64) ^ n * 2 ^ 64 * c'.toNat
        = x.toNat + 2 ^ 64 * (val (slice rp' (off + i + 1) n) + (2 ^ 64) ^ n * c'.toNat) := by ring
      _ = (x.toNat + 2 ^ 64 * c.toNat) + 2 ^ 64 * (val (slice rp (off + i + 1) n) +
            val (slice ap (i + 1) n) * b.toNat) := by rw [hval]; ring
      _ = _ := by rw [hmul]; ring

/-- A row of a product is added to the limbs from `off` on. -/
theorem addmul1_runs {ap : List Word} (b : Word) {off : Nat} (hap : n ≤ ap.length)
    (hrp : off + n ≤ rp.length) :
    Runs allowed (addmul1 rp off ap n b) fun p => Changes off n rp p.1 ∧
      val (slice p.1 off n) + (2 ^ 64) ^ n * p.2.toNat =
        val (slice rp off n) + val (ap.take n) * b.toNat := by
  refine (addmul1Loop_runs b (by omega) (by omega) 0).mono ?_
  rintro ⟨rp', c⟩ ⟨hc, hval⟩
  simp only [slice_of_zero] at hval
  exact ⟨hc, hval⟩

theorem divmod1Loop_runs {ap : Option (List Word)} {d : Word} (hap : ∀ l ∈ ap, n ≤ l.length)
    (hrp : n ≤ rp.length) {rdx : Word} (hd : rdx.toNat < d.toNat) :
    Runs allowed (divmod1Loop ap d n rdx rp) fun p => Changes 0 n rp p.1 ∧ p.2.toNat < d.toNat ∧
      d.toNat * val (p.1.take n) + p.2.toNat =
        rdx.toNat * (2 ^ 64) ^ n + val ((ap.getD rp).take n) := by
  induction n generalizing rdx rp with
  | zero => exact Runs.ok ⟨.refl, hd, by simp⟩
  | succ n ih =>
    have hap' := length_getD hap hrp
    refine (load_runs (by omega)).bind ?_
    rintro _ rfl
    obtain ⟨q, r, hdiv, hqr, hr⟩ := divWide_exact ((ap.getD rp)[n]) hd
    rw [hdiv]
    refine (store_runs (by omega) q).bind ?_
    rintro _ rfl
    refine (ih (fun l hl => by have := hap l hl; omega) (by rw [List.length_set]; omega) hr).mono ?_
    rintro ⟨rp', r'⟩ ⟨hc, hlt, hval⟩
    have htop : n < rp'.length := by
      rw [hc.length, List.length_set]
      omega
    have hq : rp'[n] = q := by
      have hafter := congrArg List.head? hc.after
      rw [Nat.zero_add, List.head?_drop, List.head?_drop, List.getElem?_set_self (by omega),
        List.getElem?_eq_getElem htop] at hafter
      exact Option.some.inj hafter
    have hlow : (ap.getD (rp.set n q)).take n = (ap.getD rp).take n := by
      cases ap with
      | none => exact take_set_of_le le_rfl
      | some l => rfl
    rw [hlow] at hval
    refine ⟨?_, hlt, ?_⟩
    · refine ⟨hc.length.trans List.length_set, rfl, ?_⟩
      have hafter := congrArg (List.drop 1) hc.after
      rw [List.drop_drop, List.drop_drop, List.drop_set_of_lt (by omega)] at hafter
      exact hafter
    · have hsplit : ∀ l : List Word, ∀ h : n < l.length,
          val (l.take (n + 1)) = val (l.take n) + (2 ^ 64) ^ n * l[n].toNat := by
        intro l h
        rw [take_succ h, val, value_append, List.length_take, Nat.min_eq_left h.le, value_cons, value_nil,
          Nat.mul_zero, Nat.add_zero]
      rw [hsplit rp' htop, hsplit _ (by omega), hq, pow_succ]
      calc d.toNat * (val (rp'.take n) + (2 ^ 64) ^ n * q.toNat) + r'.toNat
          = (d.toNat * val (rp'.take n) + r'.toNat) + (2 ^ 64) ^ n * (d.toNat * q.toNat) := by ring
        _ = (2 ^ 64) ^ n * (d.toNat * q.toNat + r.toNat) + val ((ap.getD rp).take n) := by
            rw [hval]; ring
        _ = _ := by rw [hqr]; ring

/-- The lower `n` limbs divided by one limb. -/
theorem divmod1_runs {ap : Option (List Word)} {d : Word} (hap : ∀ l ∈ ap, n ≤ l.length)
    (hrp : n ≤ rp.length) (hd : 0 < d.toNat) :
    Runs allowed (divmod1 rp ap n d) fun p => Changes 0 n rp p.1 ∧ p.2.toNat < d.toNat ∧
      d.toNat * val (p.1.take n) + p.2.toNat = val ((ap.getD rp).take n) := by
  refine (divmod1Loop_runs hap hrp (show (0 : Word).toNat < d.toNat from hd)).mono ?_
  rintro ⟨rp', r⟩ ⟨hc, hlt, hval⟩
  exact ⟨hc, hlt, hval.trans (by simp)⟩

end kernels
end NewM2.Winrt.BigInt
