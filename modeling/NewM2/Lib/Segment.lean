import Mathlib

/-!
# Segments of a block

A loop that writes a block at one index after the other changes a segment of it. `Changes i n l l'`: the
block `l'` is `l` but for the `n` indices from `i` on. The rules `Changes.step` and `Changes.slice_step`
are for the induction over such a loop, from its first index on. -/

namespace NewM2.Segment

variable {α : Type*} {l l' l'' : List α} {x : α} {i j n : Nat}

def slice (l : List α) (i n : Nat) : List α := (l.drop i).take n

@[simp] theorem slice_zero : slice l i 0 = [] := List.take_zero

@[simp] theorem slice_of_zero : slice l 0 n = l.take n := by rw [slice, List.drop_zero]

theorem length_slice (h : i + n ≤ l.length) : (slice l i n).length = n := by
  rw [slice, List.length_take, List.length_drop]
  omega

theorem slice_succ (h : i < l.length) : slice l i (n + 1) = l[i] :: slice l (i + 1) n := by
  rw [slice, List.drop_eq_getElem_cons h, List.take_succ_cons, slice]

theorem take_add (l : List α) (i n : Nat) : l.take (i + n) = l.take i ++ slice l i n := List.take_add

theorem take_succ (h : i < l.length) : l.take (i + 1) = l.take i ++ [l[i]] :=
  List.take_succ_eq_append_getElem h

theorem slice_set_of_lt (h : i < j) : slice (l.set i x) j n = slice l j n := by
  rw [slice, List.drop_set_of_lt h, slice]

theorem take_set_of_le (h : j ≤ i) : (l.set i x).take j = l.take j := List.take_set_of_le h

/-- Equal but for `n` indices from `i` on. -/
structure Changes (i n : Nat) (l l' : List α) : Prop where
  length : l'.length = l.length
  before : l'.take i = l.take i
  after : l'.drop (i + n) = l.drop (i + n)

theorem Changes.refl : Changes i n l l := ⟨rfl, rfl, rfl⟩

theorem Changes.step (h : Changes (i + 1) n (l.set i x) l') : Changes i (n + 1) l l' := by
  refine ⟨h.length.trans List.length_set, ?_, ?_⟩
  · have hbefore := congrArg (List.take i) h.before
    rw [List.take_take, List.take_take, Nat.min_eq_left (Nat.le_succ i)] at hbefore
    exact hbefore.trans (take_set_of_le le_rfl)
  · have hafter := h.after
    rw [List.drop_set_of_lt (by omega)] at hafter
    rwa [Nat.add_right_comm, Nat.add_assoc] at hafter

theorem Changes.slice_step (hi : i < l.length) (h : Changes (i + 1) n (l.set i x) l') :
    slice l' i (n + 1) = x :: slice l' (i + 1) n := by
  have hi' : i < l'.length := by rwa [h.length, List.length_set]
  have hx : l'[i] = x := by
    have hbefore := congrArg (fun l => l[i]?) h.before
    simpa [List.getElem?_take, List.getElem?_eq_getElem hi', List.getElem?_set, hi] using hbefore
  rw [slice_succ hi', hx]

/-- A later segment is as it was. -/
theorem Changes.slice_after (h : Changes i n l l') (hj : i + n ≤ j) (m : Nat) :
    slice l' j m = slice l j m := by
  have hafter := congrArg (List.drop (j - (i + n))) h.after
  rw [List.drop_drop, List.drop_drop, Nat.add_sub_cancel' hj] at hafter
  rw [slice, hafter, slice]

theorem Changes.take_add (h : Changes i n l l') : l'.take (i + n) = l.take i ++ slice l' i n := by
  rw [Segment.take_add, h.before]

end NewM2.Segment
