import Mathlib

/-!
# Variable-length quantities

A number in groups of seven bits, the highest group first. All groups but the last one have 128 added, so that
the number can be read off the start of a list. -/

namespace NewM2.Vlq

/-- The groups in front of the last one. -/
def leading (v : Nat) : List Nat :=
  if v = 0 then [] else leading (v / 128) ++ [v % 128 + 128]

def groups (v : Nat) : List Nat := leading (v / 128) ++ [v % 128]

/-- The number at the start of a list, in at most `n` groups; `acc` is what was read before. -/
def readFrom : Nat → Nat → List Nat → Option (Nat × List Nat)
  | 0, _, _ => none
  | _ + 1, _, [] => none
  | n + 1, acc, b :: bs =>
    if b < 128 then some (acc * 128 + b, bs) else readFrom n (acc * 128 + (b - 128)) bs

theorem leading_zero : leading 0 = [] := by rw [leading, if_pos rfl]

theorem leading_pos {v : Nat} (h : 0 < v) : leading v = leading (v / 128) ++ [v % 128 + 128] := by
  rw [leading, if_neg (by omega)]

theorem length_leading_le_iff (v n : Nat) : (leading v).length ≤ n ↔ v < 128 ^ n := by
  induction n generalizing v with
  | zero =>
    rcases Nat.eq_zero_or_pos v with rfl | hv
    · simp [leading_zero]
    · rw [leading_pos hv]
      simp
      omega
  | succ n ih =>
    rcases Nat.eq_zero_or_pos v with rfl | hv
    · simp [leading_zero]
    · rw [leading_pos hv, List.length_append, List.length_singleton, Nat.add_le_add_iff_right, ih,
        Nat.div_lt_iff_lt_mul (by decide), Nat.pow_succ]

theorem length_groups_le_iff (v n : Nat) : (groups v).length ≤ n + 1 ↔ v < 128 ^ (n + 1) := by
  rw [groups, List.length_append, List.length_singleton, Nat.add_le_add_iff_right, length_leading_le_iff,
    Nat.div_lt_iff_lt_mul (by decide), Nat.pow_succ]

theorem lt_of_mem_leading {v b : Nat} (h : b ∈ leading v) : b < 256 := by
  induction v using Nat.strongRecOn with
  | ind v ih =>
    rcases Nat.eq_zero_or_pos v with rfl | hv
    · rw [leading_zero] at h
      exact absurd h List.not_mem_nil
    · rw [leading_pos hv, List.mem_append, List.mem_singleton] at h
      rcases h with h | rfl
      · exact ih _ (Nat.div_lt_self hv (by decide)) h
      · omega

theorem lt_of_mem_groups {v b : Nat} (h : b ∈ groups v) : b < 256 := by
  rw [groups, List.mem_append, List.mem_singleton] at h
  rcases h with h | rfl
  · exact lt_of_mem_leading h
  · omega

/-- The leading groups are read into `acc`. -/
theorem readFrom_leading (v : Nat) {n : Nat} (acc : Nat) (rest : List Nat) (h : (leading v).length ≤ n) :
    readFrom n acc (leading v ++ rest) =
      readFrom (n - (leading v).length) (acc * 128 ^ (leading v).length + v) rest := by
  induction v using Nat.strongRecOn generalizing rest with
  | ind v ih =>
    rcases Nat.eq_zero_or_pos v with rfl | hv
    · simp [leading_zero]
    · have hlen : (leading v).length = (leading (v / 128)).length + 1 := by
        rw [leading_pos hv, List.length_append, List.length_singleton]
      rw [hlen] at h ⊢
      rw [leading_pos hv, List.append_assoc, ih _ (Nat.div_lt_self hv (by decide)) _ (by omega),
        show n - (leading (v / 128)).length = n - ((leading (v / 128)).length + 1) + 1 by omega]
      rw [List.singleton_append, readFrom, if_neg (by omega), Nat.add_sub_cancel, Nat.pow_succ]
      congr 1
      rw [Nat.add_mul, Nat.mul_assoc, Nat.add_assoc]
      omega

theorem readFrom_groups {v n : Nat} (rest : List Nat) (h : v < 128 ^ (n + 1)) :
    readFrom (n + 1) 0 (groups v ++ rest) = some (v, rest) := by
  have hlen : (leading (v / 128)).length ≤ n := by
    rwa [length_leading_le_iff, Nat.div_lt_iff_lt_mul (by decide), ← Nat.pow_succ]
  rw [groups, List.append_assoc, readFrom_leading _ _ _ (by omega), Nat.zero_mul, Nat.zero_add,
    show n + 1 - (leading (v / 128)).length = n - (leading (v / 128)).length + 1 by omega, List.singleton_append,
    readFrom, if_pos (by omega), Nat.div_add_mod' v 128]

end NewM2.Vlq
