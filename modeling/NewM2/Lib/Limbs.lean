import Mathlib

/-!
# Numbers as lists of limbs

A list of machine words stands for the number whose digits they are in a base `B`, the least significant
first. The base need not be the range of the words: it is 2^w for full words, and smaller where a word
has room for carries. -/

namespace NewM2.Limbs

variable {w B : Nat} {l l' : List (BitVec w)} {i n : Nat}

def value (B : Nat) (l : List (BitVec w)) : Nat := Nat.ofDigits B (l.map BitVec.toNat)

/-- Every limb is a digit. -/
def Digits (B : Nat) (l : List (BitVec w)) : Prop := ∀ x ∈ l, x.toNat < B

@[simp] theorem value_nil : value B ([] : List (BitVec w)) = 0 := rfl

@[simp] theorem value_cons (x : BitVec w) : value B (x :: l) = x.toNat + B * value B l :=
  Nat.ofDigits_cons

theorem value_append : value B (l ++ l') = value B l + B ^ l.length * value B l' := by
  rw [value, List.map_append, Nat.ofDigits_append, List.length_map, value, value]

@[simp] theorem value_replicate_zero (n : Nat) : value B (List.replicate n (0 : BitVec w)) = 0 := by
  rw [value, List.map_replicate]
  exact Nat.ofDigits_replicate_zero

theorem value_take_drop (n : Nat) (h : n ≤ l.length) :
    value B l = value B (l.take n) + B ^ n * value B (l.drop n) := by
  conv_lhs => rw [← List.take_append_drop n l]
  rw [value_append, List.length_take, Nat.min_eq_left h]

/-- The limb at an index counts with its power of the base. -/
theorem value_set (x : BitVec w) (h : i < l.length) :
    value B (l.set i x) + l[i].toNat * B ^ i = value B l + x.toNat * B ^ i := by
  induction l generalizing i with
  | nil => exact absurd h (Nat.not_lt_zero i)
  | cons y l ih =>
    rcases i with - | i
    · simp only [List.set_cons_zero, value_cons, List.getElem_cons_zero, pow_zero, mul_one]
      omega
    · have hi : i < l.length := Nat.lt_of_succ_lt_succ h
      have hrec := ih hi
      simp only [List.set_cons_succ, value_cons, List.getElem_cons_succ, pow_succ]
      calc y.toNat + B * value B (l.set i x) + l[i].toNat * (B ^ i * B)
          = y.toNat + B * (value B (l.set i x) + l[i].toNat * B ^ i) := by ring
        _ = y.toNat + B * (value B l + x.toNat * B ^ i) := by rw [hrec]
        _ = y.toNat + B * value B l + x.toNat * (B ^ i * B) := by ring

theorem Digits.set {x : BitVec w} (hl : Digits B l) (hx : x.toNat < B) : Digits B (l.set i x) := by
  intro y hy
  rcases List.mem_or_eq_of_mem_set hy with hy | rfl
  · exact hl y hy
  · exact hx

theorem value_lt (hB : 1 < B) (hl : Digits B l) : value B l < B ^ l.length := by
  have h := Nat.ofDigits_lt_base_pow_length (l := l.map BitVec.toNat) hB (by
    intro d hd
    obtain ⟨x, hx, rfl⟩ := List.mem_map.1 hd
    exact hl x hx)
  rwa [List.length_map] at h

theorem digits_full (l : List (BitVec w)) : Digits (2 ^ w) l := fun x _ => x.isLt

/-- The upper limbs are the quotient by a power of the base. -/
theorem value_div (hB : 1 < B) (hl : Digits B l) (hi : i ≤ l.length) :
    value B l / B ^ i = value B (l.drop i) := by
  have hlow : value B (l.take i) < B ^ i := by
    have h := value_lt hB (l := l.take i) fun x hx => hl x (List.mem_of_mem_take hx)
    rwa [List.length_take, Nat.min_eq_left hi] at h
  rw [value_take_drop i hi, Nat.add_mul_div_left _ _ (Nat.pow_pos (by omega)),
    Nat.div_eq_of_lt hlow, Nat.zero_add]

/-- A limb is a digit of the number. -/
theorem getElem_toNat (hB : 1 < B) (hl : Digits B l) (hi : i < l.length) :
    l[i].toNat = value B l / B ^ i % B := by
  rw [value_div hB hl hi.le, List.drop_eq_getElem_cons hi, value_cons, Nat.add_mul_mod_self_left,
    Nat.mod_eq_of_lt (hl _ (List.getElem_mem hi))]

end NewM2.Limbs
