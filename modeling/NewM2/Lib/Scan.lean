import Mathlib
import NewM2.Lib.Chars

/-!
# Reading digits with a limit

`scan` reads the digits of a number in the base `b` as long as there are any, and looks before each of them
whether the number would go beyond `limit`, of which it has the quotient and the remainder by `b`. It goes
through if the number of the whole row of digits is within the limit (`scan_iff`). -/

namespace NewM2.Scan

structure Scanned where
  num : Nat
  /-- There was no digit. -/
  first : Bool
  done : Bool
  rest : List Code
deriving DecidableEq

/-- The loop. `digit` has the value of a digit, and nothing for what ends the row. -/
def scan (digit : Code → Option Nat) (b maxv lastv num : Nat) (first : Bool) : List Code → Scanned
  | [] => ⟨num, first, true, []⟩
  | c :: s =>
    match digit c with
    | none => ⟨num, first, true, c :: s⟩
    | some d =>
      if maxv < num ∨ num = maxv ∧ lastv < d then ⟨num, first, false, c :: s⟩
      else scan digit b maxv lastv (wrap (num * b + d)) false s

/-- The number of the digits, behind those of `num`. -/
def valueFrom (digit : Code → Option Nat) (b num : Nat) (cs : List Code) : Nat :=
  cs.foldl (fun v c => v * b + (digit c).getD 0) num

/-- The row of digits at the beginning. -/
def digitsOf (digit : Code → Option Nat) (s : List Code) : List Code := s.takeWhile fun c => (digit c).isSome

def behind (digit : Code → Option Nat) (s : List Code) : List Code := s.dropWhile fun c => (digit c).isSome

variable {digit : Code → Option Nat} {b limit num : Nat} {c : Code} {cs s : List Code} {first : Bool}

theorem le_valueFrom (hb : 0 < b) (num : Nat) (cs : List Code) : num ≤ valueFrom digit b num cs := by
  induction cs generalizing num with
  | nil => exact le_rfl
  | cons c cs ih =>
    calc num ≤ num * b := Nat.le_mul_of_pos_right num hb
      _ ≤ num * b + (digit c).getD 0 := Nat.le_add_right _ _
      _ ≤ valueFrom digit b num (c :: cs) := ih _

/-- The look at the quotient and the remainder is one at the number itself. -/
theorem beyond_iff {d : Nat} (hd : d < b) :
    limit / b < num ∨ num = limit / b ∧ limit % b < d ↔ limit < num * b + d := by
  have hdiv := Nat.div_add_mod limit b
  have hmod := Nat.mod_lt limit (by omega : 0 < b)
  constructor
  · rintro (hlt | ⟨rfl, hlt⟩)
    · have hmul : b * (limit / b + 1) ≤ b * num := Nat.mul_le_mul_left b hlt
      rw [Nat.mul_add, Nat.mul_one] at hmul
      rw [Nat.mul_comm num]
      omega
    · rw [Nat.mul_comm]
      omega
  · intro hlt
    rcases Nat.lt_trichotomy (limit / b) num with h | rfl | h
    · exact .inl h
    · rw [Nat.mul_comm] at hlt
      exact .inr ⟨rfl, by omega⟩
    · have hmul : b * (num + 1) ≤ b * (limit / b) := Nat.mul_le_mul_left b h
      rw [Nat.mul_add, Nat.mul_one] at hmul
      rw [Nat.mul_comm num] at hlt
      omega

theorem digitsOf_cons (digit : Code → Option Nat) (c : Code) (s : List Code) :
    digitsOf digit (c :: s) = if (digit c).isSome then c :: digitsOf digit s else [] := by
  rw [digitsOf, List.takeWhile_cons]
  rfl

theorem behind_cons (digit : Code → Option Nat) (c : Code) (s : List Code) :
    behind digit (c :: s) = if (digit c).isSome then behind digit s else c :: s := by
  rw [behind, List.dropWhile_cons]
  rfl

/-- The scan goes through all digits, or their number is beyond the limit. -/
theorem scan_eq (hdigit : ∀ c, ∀ d ∈ digit c, d < b) (hlimit : limit < 2 ^ 64) (hnum : num ≤ limit) :
    (limit < valueFrom digit b num (digitsOf digit s) ∧
        (scan digit b (limit / b) (limit % b) num first s).done = false) ∨
      (valueFrom digit b num (digitsOf digit s) ≤ limit ∧
        scan digit b (limit / b) (limit % b) num first s =
          ⟨valueFrom digit b num (digitsOf digit s), first && (digitsOf digit s).isEmpty, true,
            behind digit s⟩) := by
  induction s generalizing num first with
  | nil => exact .inr ⟨hnum, by simp [scan, valueFrom, digitsOf, behind]⟩
  | cons c s ih =>
    rw [scan, digitsOf_cons, behind_cons]
    cases hc : digit c with
    | none => exact .inr ⟨hnum, by simp [valueFrom]⟩
    | some d =>
      have hd : d < b := hdigit c d hc
      have hval : valueFrom digit b num (c :: digitsOf digit s) =
          valueFrom digit b (num * b + d) (digitsOf digit s) := by
        rw [valueFrom, List.foldl_cons, hc]
        rfl
      dsimp only [Option.isSome_some]
      rw [if_pos rfl, if_pos rfl, hval]
      by_cases hbeyond : limit / b < num ∨ num = limit / b ∧ limit % b < d
      · refine .inl ⟨((beyond_iff hd).1 hbeyond).trans_le (le_valueFrom (by omega) _ _), ?_⟩
        rw [if_pos hbeyond]
      · have hle : num * b + d ≤ limit := Nat.not_lt.1 (mt (beyond_iff hd).2 hbeyond)
        rw [if_neg hbeyond, wrap_of_lt (hle.trans_lt hlimit)]
        rcases @ih (num * b + d) false hle with ⟨hlt, hdone⟩ | ⟨hle', hscan⟩
        · exact .inl ⟨hlt, hdone⟩
        · refine .inr ⟨hle', ?_⟩
          rw [hscan]
          simp

/-- The scan goes through, and there was a digit. -/
theorem scan_iff (hdigit : ∀ c, ∀ d ∈ digit c, d < b) (hlimit : limit < 2 ^ 64) {r : Scanned}
    (hr : scan digit b (limit / b) (limit % b) 0 true s = r) :
    (r.done = true ∧ r.first = false ↔ digitsOf digit s ≠ [] ∧ valueFrom digit b 0 (digitsOf digit s) ≤ limit) ∧
      (r.done = true → r.num = valueFrom digit b 0 (digitsOf digit s) ∧ r.rest = behind digit s) := by
  rcases @scan_eq digit b limit 0 s true hdigit hlimit (Nat.zero_le _) with ⟨hlt, hdone⟩ | ⟨hle, hscan⟩
  · rw [hr] at hdone
    rw [hdone]
    exact ⟨⟨fun h => absurd h.1 Bool.false_ne_true, fun h => absurd h.2 (Nat.not_le.2 hlt)⟩,
      fun h => absurd h Bool.false_ne_true⟩
  · rw [← hr, hscan]
    refine ⟨?_, fun _ => ⟨rfl, rfl⟩⟩
    simp [hle]

theorem valueFrom_concat (digit : Code → Option Nat) (b num : Nat) (cs : List Code) (c : Code) :
    valueFrom digit b num (cs ++ [c]) = valueFrom digit b num cs * b + (digit c).getD 0 := by
  rw [valueFrom, List.foldl_append]
  rfl

end NewM2.Scan
