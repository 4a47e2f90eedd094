import Mathlib.Data.Nat.Basic
import Mathlib.Algebra.Order.Ring.Int
import Mathlib.Tactic.Common

/-!
# Byte memory with little-endian words

A memory is a total function from addresses to bytes. `read m a n` is the little-endian value of the
`n` bytes at `a`, `write m a n v` stores the low `n` bytes of `v` there, `fill m a n` zeroes `n`
bytes. Everything a proof needs is one of three facts: a read sees the bytes it covers (`read_congr`,
`read_eq_read_iff`), a read after a write at the same place is the value (`read_write`), and a write
leaves every disjoint read alone (`read_write_of_disjoint`).
-/

namespace NewM2

/-- Byte-addressed memory. -/
abbrev Mem := Nat → UInt8

namespace Mem
variable {m m' : Mem} {a b n k v : Nat}

/-- Little-endian value of the `n` bytes at `a`. -/
def read (m : Mem) (a : Nat) : Nat → Nat
  | 0 => 0
  | n + 1 => (m a).toNat + 256 * read m (a + 1) n

/-- Store the low `n` bytes of `v` at `a`. -/
def write (m : Mem) (a n v : Nat) : Mem := fun x =>
  if a ≤ x ∧ x < a + n then UInt8.ofNat (v / 256 ^ (x - a)) else m x

/-- Zero the `n` bytes at `a`. -/
def fill (m : Mem) (a n : Nat) : Mem := fun x => if a ≤ x ∧ x < a + n then 0 else m x

theorem read_congr (h : ∀ x, a ≤ x → x < a + n → m' x = m x) : read m' a n = read m a n := by
  induction n generalizing a with
  | zero => rfl
  | succ n ih =>
    simp only [read]
    rw [h a (Nat.le_refl a) (by omega), ih fun x h1 h2 => h x (by omega) (by omega)]

theorem read_lt (m : Mem) (a n : Nat) : read m a n < 256 ^ n := by
  induction n generalizing a with
  | zero => simp [read]
  | succ n ih =>
    have h1 := ih (a + 1)
    have h2 := (m a).toNat_lt
    simp only [read, Nat.pow_succ]
    omega

/-- Two memories read the same value exactly when they hold the same bytes. -/
theorem read_eq_read_iff :
    read m' a n = read m a n ↔ ∀ x, a ≤ x → x < a + n → m' x = m x := by
  constructor
  · induction n generalizing a with
    | zero => intro _ x h1 h2; omega
    | succ n ih =>
      intro h x h1 h2
      have hm := (m a).toNat_lt
      have hm' := (m' a).toNat_lt
      simp only [read] at h
      rcases Nat.eq_or_lt_of_le h1 with rfl | hlt
      · exact UInt8.toNat_inj.1 (by omega)
      · exact ih (a := a + 1) (by omega) x hlt (by omega)
  · exact read_congr

theorem write_of_disjoint (m : Mem) (v : Nat) {x : Nat} (h : x < a ∨ a + n ≤ x) :
    write m a n v x = m x := by
  simp only [write]
  rw [if_neg (by omega)]

theorem write_zero_of_mem (m : Mem) {x : Nat} (h1 : a ≤ x) (h2 : x < a + n) : write m a n 0 x = 0 := by
  simp [write, h1, h2]

theorem fill_of_disjoint (m : Mem) {x : Nat} (h : x < a ∨ a + n ≤ x) : fill m a n x = m x := by
  simp only [fill]
  rw [if_neg (by omega)]

theorem fill_of_mem (m : Mem) {x : Nat} (h1 : a ≤ x) (h2 : x < a + n) : fill m a n x = 0 := by
  simp only [fill]
  rw [if_pos ⟨h1, h2⟩]

private theorem read_digits (h : ∀ x, a ≤ x → x < a + n → m x = UInt8.ofNat (v / 256 ^ (x - a))) :
    read m a n = v % 256 ^ n := by
  induction n generalizing a v with
  | zero => simp [read, Nat.mod_one]
  | succ n ih =>
    have htail : read m (a + 1) n = v / 256 % 256 ^ n := ih fun x h1 h2 => by
      rw [h x (by omega) (by omega), Nat.div_div_eq_div_mul, ← Nat.pow_succ']
      congr 3
      omega
    have hhead : (m a).toNat = v % 256 := by
      rw [h a (Nat.le_refl a) (by omega)]
      simp
    simp only [read]
    rw [hhead, htail, Nat.pow_succ', Nat.mod_mul]

/-- Reading back what was just written. -/
theorem read_write (m : Mem) (a n v : Nat) : read (write m a n v) a n = v % 256 ^ n :=
  read_digits fun x h1 h2 => by simp only [write]; rw [if_pos ⟨h1, h2⟩]

theorem read_write_of_lt (m : Mem) (a n : Nat) (h : v < 256 ^ n) :
    read (write m a n v) a n = v := by
  rw [read_write, Nat.mod_eq_of_lt h]

/-- A write leaves every disjoint read alone. -/
theorem read_write_of_disjoint (m : Mem) (v : Nat) (h : b + k ≤ a ∨ a + n ≤ b) :
    read (write m a n v) b k = read m b k :=
  read_congr fun _ h1 h2 => write_of_disjoint m v (by omega)

theorem read_fill_of_disjoint (m : Mem) (h : b + k ≤ a ∨ a + n ≤ b) :
    read (fill m a n) b k = read m b k :=
  read_congr fun _ h1 h2 => fill_of_disjoint m (by omega)

theorem read_eq_zero (h : ∀ x, a ≤ x → x < a + n → m x = 0) : read m a n = 0 := by
  induction n generalizing a with
  | zero => rfl
  | succ n ih =>
    simp only [read]
    rw [h a (Nat.le_refl a) (by omega), ih fun x h1 h2 => h x (by omega) (by omega)]
    rfl

/-- Writing the value that is already there changes nothing. -/
theorem write_read_self (h : read m a n = v) : write m a n v = m := by
  have hv : v < 256 ^ n := h ▸ read_lt m a n
  have hb : read (write m a n v) a n = read m a n := by rw [read_write_of_lt m a n hv, h]
  funext x
  by_cases hx : a ≤ x ∧ x < a + n
  · exact read_eq_read_iff.1 hb x hx.1 hx.2
  · exact write_of_disjoint m v (by omega)

attribute [irreducible] read write fill

end Mem

end NewM2
