import Mathlib

/-!
# Cyclic redundancy checks

The remainder is a register of `w` bits with the coefficient of the highest power in bit 0 (`poly` is
reflected in the same way). `feed` takes in one bit of the message, `feedBits` some of them, the first one
first. A shift without input is linear in exclusive or, so the bits of a byte may be added to the register
before it is shifted (`feedBits_eq`), and the shifts of the low byte may be taken from a table
(`shift_low`). -/

namespace NewM2.Crc

variable {w : Nat} (poly : BitVec w)

/-- One shift of the register. -/
def shift (x : BitVec w) : BitVec w := if x.getLsbD 0 then x >>> 1 ^^^ poly else x >>> 1

/-- One bit of the message. -/
def feed (x : BitVec w) (bit : Bool) : BitVec w := if x.getLsbD 0 ^^ bit then x >>> 1 ^^^ poly else x >>> 1

/-- The first `n` bits of `b`, the lowest first. -/
def feedBits (b : BitVec w) : Nat → BitVec w → BitVec w
  | 0, x => x
  | n + 1, x => feed poly (feedBits b n x) (b.getLsbD n)

variable {poly} {x y b : BitVec w} {n : Nat}

theorem shift_of_even (h : x.getLsbD 0 = false) : shift poly x = x >>> 1 := by simp [shift, h]

theorem shift_xor : shift poly (x ^^^ y) = shift poly x ^^^ shift poly y := by
  have hcancel : poly ^^^ poly = 0 := BitVec.xor_self
  rw [shift, shift, shift, BitVec.getLsbD_xor, BitVec.ushiftRight_xor_distrib]
  cases x.getLsbD 0 <;> cases y.getLsbD 0
  · rfl
  · simp only [Bool.false_xor, Bool.false_eq_true, if_true, if_false]
    ac_rfl
  · simp only [Bool.xor_false, Bool.false_eq_true, if_true, if_false]
    ac_rfl
  · simp only [Bool.xor_self, Bool.false_eq_true, if_true, if_false]
    calc x >>> 1 ^^^ y >>> 1 = x >>> 1 ^^^ y >>> 1 ^^^ (poly ^^^ poly) := by simp
      _ = x >>> 1 ^^^ poly ^^^ (y >>> 1 ^^^ poly) := by ac_rfl

theorem shifts_xor (n : Nat) (x y : BitVec w) :
    (shift poly)^[n] (x ^^^ y) = (shift poly)^[n] x ^^^ (shift poly)^[n] y := by
  induction n with
  | zero => rfl
  | succ n ih => rw [Function.iterate_succ_apply', Function.iterate_succ_apply', Function.iterate_succ_apply',
      ih, shift_xor]

/-- A register whose low `n` bits are clear only moves. -/
theorem shifts_of_clear (h : ∀ i, i < n → x.getLsbD i = false) : (shift poly)^[n] x = x >>> n := by
  induction n with
  | zero => rw [Function.iterate_zero, id, BitVec.ushiftRight_zero]
  | succ n ih =>
    have hbit : (x >>> n).getLsbD 0 = false := by
      rw [BitVec.getLsbD_ushiftRight, Nat.add_zero]
      exact h n n.lt_succ_self
    rw [Function.iterate_succ_apply', ih fun i hi => h i (Nat.lt_succ_of_lt hi), shift_of_even hbit,
      ← BitVec.shiftRight_add]

/-- A feed is a shift with the bit added before. -/
theorem feed_eq (x : BitVec w) (y : BitVec w) : shift poly (x ^^^ y) = feed poly x (y.getLsbD 0) ^^^ y >>> 1 := by
  rw [shift, feed, BitVec.getLsbD_xor, BitVec.ushiftRight_xor_distrib]
  split_ifs
  · ac_rfl
  · rfl

/-- The message bits may all be added before the shifts. -/
theorem feedBits_eq (b x : BitVec w) (n : Nat) :
    (shift poly)^[n] (x ^^^ b) = feedBits poly b n x ^^^ b >>> n := by
  induction n with
  | zero => rw [Function.iterate_zero, id, feedBits, BitVec.ushiftRight_zero]
  | succ n ih =>
    rw [Function.iterate_succ_apply', ih, feed_eq, feedBits, BitVec.getLsbD_ushiftRight, Nat.add_zero,
      ← BitVec.shiftRight_add]

/-- The low byte and the others. -/
theorem split_low (mask x : BitVec w) : x = (x &&& mask) ^^^ (x &&& ~~~mask) := by
  refine BitVec.eq_of_getLsbD_eq fun i hi => ?_
  simp only [BitVec.getLsbD_xor, BitVec.getLsbD_and, BitVec.getLsbD_not, hi, decide_true, Bool.true_and]
  cases x.getLsbD i <;> cases mask.getLsbD i <;> rfl

/-- Eight shifts move the upper bytes down and replace the low one by what its own shifts give. -/
theorem shift_low {mask : BitVec w} (hlow : ∀ i, i < n → mask.getLsbD i = true) (hhigh : mask >>> n = 0#w)
    (x : BitVec w) : (shift poly)^[n] x = (shift poly)^[n] (x &&& mask) ^^^ x >>> n := by
  have hclear : ∀ i, i < n → (x &&& ~~~mask).getLsbD i = false := by
    intro i hi
    by_cases hw : i < w
    · simp [hlow i hi, hw]
    · exact BitVec.getLsbD_of_ge _ _ (Nat.le_of_not_lt hw)
  have hmove : (x &&& ~~~mask) >>> n = x >>> n := by
    have hsplit : x >>> n = (x &&& mask) >>> n ^^^ (x &&& ~~~mask) >>> n := by
      conv_lhs => rw [split_low mask x, BitVec.ushiftRight_xor_distrib]
    rw [hsplit, BitVec.ushiftRight_and_distrib x mask, hhigh, BitVec.and_zero, BitVec.zero_xor]
  conv_lhs => rw [split_low mask x, shifts_xor, shifts_of_clear hclear, hmove]

end NewM2.Crc
