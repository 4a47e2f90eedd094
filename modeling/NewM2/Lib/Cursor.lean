import Mathlib
import NewM2.Lib.OpenArray

/-!
# Going through an array

A loop with `WHILE (i <= HIGH(s)) AND (s[i] # 0C)` reads the text from `i` on, and one with `WHILE i < n` the
first `n` cells. -/

namespace NewM2
namespace Chars

variable {s : Chars} {i : Nat} {u : Code} {rest : List Code}

theorem get_of_drop (h : s.text.drop i = u :: rest) :
    s.get i = .ok u ∧ u ≠ nul ∧ i < s.size ∧ s.text.drop (i + 1) = rest := by
  have hget : s.text[i]? = some u := by
    rw [← List.head?_drop, h, List.head?_cons]
  have hi : i < s.length := by
    rw [length_eq]
    exact (List.getElem?_eq_some_iff.1 hget).1
  refine ⟨get_of_getElem? ((getElem?_text hi).symm.trans hget), ?_, hi.trans_le s.length_le, ?_⟩
  · rintro rfl
    exact s.nul_notMem_text (List.mem_of_getElem? hget)
  · rw [← List.drop_drop, h, List.drop_one, List.tail_cons]

/-- Behind the text there is a NUL, or nothing. -/
theorem get_of_drop_nil (h : s.text.drop i = []) (hi : i ≤ s.text.length) (hsize : i < s.size) :
    s.get i = .ok nul := by
  have hlen : i = s.length := by
    rw [length_eq]
    exact Nat.le_antisymm hi (List.drop_eq_nil_iff.1 h)
  rw [hlen] at hsize ⊢
  exact get_of_getElem? (getElem?_length hsize)

theorem le_of_drop_cons (h : s.text.drop i = u :: rest) : i + 1 ≤ s.text.length := by
  by_contra hlt
  rw [List.drop_eq_nil_of_le (by omega)] at h
  exact List.cons_ne_nil _ _ h.symm

end Chars

namespace OpenArray

variable {α : Type} {s : OpenArray α} {i n : Nat} {x : α} {rest : List α}

theorem get_of_drop_take (h : (s.cells.take n).drop i = x :: rest) :
    s.get i = .ok x ∧ i < n ∧ (s.cells.take n).drop (i + 1) = rest := by
  have hget : (s.cells.take n)[i]? = some x := by rw [← List.head?_drop, h, List.head?_cons]
  have hi : i < n := by
    have hlen := (List.getElem?_eq_some_iff.1 hget).1
    rw [List.length_take] at hlen
    omega
  rw [List.getElem?_take_of_lt hi] at hget
  exact ⟨get_of_getElem? hget, hi, by rw [← List.drop_drop, h, List.drop_one, List.tail_cons]⟩

theorem le_of_drop_take_nil (hn : n ≤ s.size) (h : (s.cells.take n).drop i = []) : n ≤ i := by
  rw [List.drop_eq_nil_iff, List.length_take, ← size] at h
  omega

end OpenArray
end NewM2
