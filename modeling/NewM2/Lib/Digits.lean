import Mathlib
import NewM2.Lib.Chars

/-!
# Digits

The digits of a number are taken off lowest first by `lowDigits`, at least one. `numeral` is the row of
characters, highest first, and `digitsValue` what a row of decimal digits stands for. -/

namespace NewM2.Digits

/-- `REPEAT buf[i] := n MOD b; n := n DIV b; INC(i) UNTIL n = 0` -/
def lowDigits (b n : Nat) : List Nat :=
  if n / b = 0 ∨ b < 2 then [n % b] else n % b :: lowDigits b (n / b)
termination_by n
decreasing_by
  rename_i h
  rw [not_or, Nat.not_lt] at h
  have hpos : 0 < n := Nat.pos_of_ne_zero fun h0 => h.1 (by rw [h0, Nat.zero_div])
  exact Nat.div_lt_self hpos h.2

/-- `CHR(ORD('0') + d)` -/
def digit (d : Nat) : Code := BitVec.ofNat 16 ('0'.toNat + d)

def isDigit (c : Code) : Bool := code '0' ≤ c ∧ c ≤ code '9'

/-- `ORD(c) - ORD('0')` of a digit. -/
def digitVal (c : Code) : Nat := c.toNat - '0'.toNat

/-- The decimal number of a row of digits, the highest first. -/
def digitsValue (ds : List Code) : Nat := ds.foldl (fun v c => v * 10 + digitVal c) 0

def decimal (n : Nat) : List Code := (lowDigits 10 n).reverse.map digit

/-- `WHILE k < places DO buf[k] := n MOD 10; n := n DIV 10; INC(k) END` -/
def lastDigits : Nat → Nat → List Nat
  | 0, _ => []
  | k + 1, n => n % 10 :: lastDigits k (n / 10)

/-- The last `k` decimal digits. -/
def padded (k n : Nat) : List Code := (lastDigits k n).reverse.map digit

variable {c : Code} {cs ds : List Code} {b d n k : Nat}

theorem isDigit_iff : isDigit c ↔ '0'.toNat ≤ c.toNat ∧ c.toNat ≤ '9'.toNat := by
  rw [isDigit, decide_eq_true_eq]
  rfl

theorem digitVal_le (h : isDigit c) : digitVal c ≤ 9 := by
  have h' := (isDigit_iff.1 h).2
  rw [digitVal]
  have h9 : '9'.toNat = '0'.toNat + 9 := rfl
  omega

theorem digit_toNat (h : d < 10) : (digit d).toNat = '0'.toNat + d := by
  rw [digit, BitVec.toNat_ofNat, Nat.mod_eq_of_lt]
  have h0 : '0'.toNat = 48 := rfl
  omega

theorem isDigit_digit (h : d < 10) : isDigit (digit d) := by
  have h9 : '9'.toNat = '0'.toNat + 9 := rfl
  rw [isDigit_iff, digit_toNat h]
  omega

theorem digitVal_digit (h : d < 10) : digitVal (digit d) = d := by
  rw [digitVal, digit_toNat h, Nat.add_sub_cancel_left]

@[simp] theorem digitsValue_nil : digitsValue [] = 0 := rfl

theorem digitsValue_concat (ds : List Code) (c : Code) :
    digitsValue (ds ++ [c]) = digitsValue ds * 10 + digitVal c := by
  rw [digitsValue, List.foldl_append]
  rfl

theorem digitsValue_append (cs ds : List Code) :
    digitsValue (cs ++ ds) = digitsValue cs * 10 ^ ds.length + digitsValue ds := by
  induction ds using List.reverseRecOn with
  | nil => simp
  | append_singleton ds c ih =>
    rw [← List.append_assoc, digitsValue_concat, digitsValue_concat, ih, List.length_append,
      List.length_singleton, pow_succ]
    ring

theorem digitsValue_lt (h : ∀ c ∈ ds, isDigit c) : digitsValue ds < 10 ^ ds.length := by
  induction ds using List.reverseRecOn with
  | nil => decide
  | append_singleton ds c ih =>
    have hc := digitVal_le (h c (by simp))
    have hds := ih fun c hc => h c (List.mem_append_left _ hc)
    rw [digitsValue_concat, List.length_append, List.length_singleton, pow_succ]
    omega

theorem decimal_eq (n : Nat) :
    decimal n = (if n / 10 = 0 then [] else decimal (n / 10)) ++ [digit (n % 10)] := by
  rw [decimal, lowDigits]
  simp only [Nat.reduceLT, or_false]
  split_ifs with h
  · rfl
  · rw [List.reverse_cons, List.map_append, decimal]
    rfl

/-- The induction over the digits of a number. -/
theorem decimal_induction {P : Nat → Prop} (hlow : ∀ n, n / 10 = 0 → P n)
    (hstep : ∀ n, n / 10 ≠ 0 → P (n / 10) → P n) (n : Nat) : P n := by
  induction n using Nat.strong_induction_on with
  | h n ih =>
    by_cases h : n / 10 = 0
    · exact hlow n h
    · exact hstep n h (ih _ (by omega))

theorem decimal_isDigit (n : Nat) : ∀ c ∈ decimal n, isDigit c := by
  induction n using decimal_induction with
  | hlow n h =>
    rw [decimal_eq, if_pos h, List.nil_append, List.forall_mem_singleton]
    exact isDigit_digit (Nat.mod_lt _ (by decide))
  | hstep n h ih =>
    rw [decimal_eq, if_neg h, List.forall_mem_append, List.forall_mem_singleton]
    exact ⟨ih, isDigit_digit (Nat.mod_lt _ (by decide))⟩

theorem digitsValue_decimal (n : Nat) : digitsValue (decimal n) = n := by
  induction n using decimal_induction with
  | hlow n h =>
    rw [decimal_eq, if_pos h, digitsValue_concat, digitVal_digit (Nat.mod_lt _ (by decide)), digitsValue_nil]
    omega
  | hstep n h ih =>
    rw [decimal_eq, if_neg h, digitsValue_concat, digitVal_digit (Nat.mod_lt _ (by decide)), ih]
    omega

theorem decimal_ne_nil (n : Nat) : decimal n ≠ [] := by
  rw [decimal_eq]
  exact List.concat_ne_nil _ _

/-- A number of `k` digits or fewer. -/
theorem length_decimal_le (hk : 0 < k) (h : n < 10 ^ k) : (decimal n).length ≤ k := by
  induction k, hk using Nat.le_induction generalizing n with
  | base =>
    rw [decimal_eq, if_pos (by omega)]
    simp
  | succ k hk ih =>
    rw [decimal_eq]
    split_ifs with h0
    · simp
    · have hlt : n / 10 < 10 ^ k := by
        rw [pow_succ] at h
        omega
      rw [List.length_append, List.length_singleton]
      exact Nat.succ_le_succ (ih hlt)

theorem padded_succ (k n : Nat) : padded (k + 1) n = padded k (n / 10) ++ [digit (n % 10)] := by
  rw [padded, lastDigits, List.reverse_cons, List.map_append, padded]
  rfl

theorem length_padded (k n : Nat) : (padded k n).length = k := by
  induction k generalizing n with
  | zero => rfl
  | succ k ih => rw [padded_succ, List.length_append, ih, List.length_singleton]

theorem padded_isDigit (k n : Nat) : ∀ c ∈ padded k n, isDigit c := by
  induction k generalizing n with
  | zero => exact List.forall_mem_nil _
  | succ k ih =>
    rw [padded_succ, List.forall_mem_append, List.forall_mem_singleton]
    exact ⟨ih _, isDigit_digit (Nat.mod_lt _ (by decide))⟩

theorem digitsValue_padded (h : n < 10 ^ k) : digitsValue (padded k n) = n := by
  induction k generalizing n with
  | zero =>
    obtain rfl : n = 0 := Nat.lt_one_iff.1 h
    rfl
  | succ k ih =>
    have hlt : n / 10 < 10 ^ k := by
      rw [pow_succ] at h
      omega
    rw [padded_succ, digitsValue_concat, ih hlt, digitVal_digit (Nat.mod_lt _ (by decide))]
    omega

end NewM2.Digits
