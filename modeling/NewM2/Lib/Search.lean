import Mathlib
import NewM2.Lib.Chars

/-!
# Searching a text

`scan` tries one index of a text after the other until a pattern of `m` characters matches. It stops when
the index plus `m` goes beyond the text; that sum wraps around, so a start index near MAX(CARDINAL) is not
stopped (`scan_wraps`). `First P i` says what the search for a `P` from the index `i` on has to give. -/

namespace NewM2.Search
open Chars

/-- The pattern is at an index of the text, where characters are compared by what `f` makes of them. -/
def OccursAt (f : Code → Code) (pat t : List Code) (i : Nat) : Prop := pat.map f <+: (t.drop i).map f

instance (f : Code → Code) (pat t : List Code) (i : Nat) : Decidable (OccursAt f pat t i) :=
  inferInstanceAs (Decidable (_ <+: _))

/-- The first index from `i` on that has `P`, if any. -/
def First (P : Nat → Prop) (i : Nat) : Option Nat → Prop
  | some p => i ≤ p ∧ P p ∧ ∀ k, i ≤ k → k < p → ¬ P k
  | none => ∀ k, i ≤ k → ¬ P k

/-- Whether there is one, and the first. -/
def Found (P : Nat → Prop) (i : Nat) (r : Bool × Nat) : Prop := First P i (if r.1 then some r.2 else none)

/-- `WHILE (j < ml) AND (f(s[i + j]) = f(sub[j])) DO INC(j) END`: the last `j`. -/
def matchLoop (f : Code → Code) (s sub : Chars) (i ml j : Nat) : Except Fault Nat :=
  if j < ml then do
    let a ← s.get (wrap (i + j))
    let b ← sub.get j
    if f a = f b then matchLoop f s sub i ml (j + 1) else .ok j
  else .ok j
termination_by ml - j

/-- Whether the loop comes to its end. -/
def matchAt (f : Code → Code) (s sub : Chars) (i ml : Nat) : Except Fault Bool := do
  let j ← matchLoop f s sub i ml 0
  .ok (j = ml)

/-- `WHILE i + m <= LENGTH(s) DO IF test(i) THEN RETURN i END; INC(i) END` -/
def scan (s : Chars) (m : Nat) (test : Nat → Except Fault Bool) (i : Nat) : Except Fault (Option Nat) :=
  if wrap (i + m) ≤ s.length then do
    if ← test i then .ok (some i) else scan s m test (wrap (i + 1))
  else .ok none
termination_by 2 ^ 64 - wrap (i + m)
decreasing_by
  have hlt := s.length_lt
  simp only [wrap] at *
  omega

variable {f : Code → Code} {pat t : List Code} {P : Nat → Prop} {s sub : Chars} {i j k m n : Nat}
  {test : Nat → Except Fault Bool} {allowed : Fault → Prop}

theorem OccursAt.le (h : OccursAt f pat t i) (hpat : pat ≠ []) : i + pat.length ≤ t.length := by
  have hle := List.IsPrefix.length_le h
  rw [List.length_map, List.length_map, List.length_drop] at hle
  have hpos := List.length_pos_of_ne_nil hpat
  omega

theorem First.of_succ {o : Option Nat} (hnot : ¬ P i) (h : First P (i + 1) o) : First P i o := by
  have hskip : ∀ k, i ≤ k → k = i ∨ i + 1 ≤ k := fun k hk => by omega
  rcases o with - | p
  · intro k hk
    rcases hskip k hk with rfl | hk
    · exact hnot
    · exact h k hk
  · refine ⟨(Nat.le_succ i).trans h.1, h.2.1, fun k hk hkp => ?_⟩
    rcases hskip k hk with rfl | hk
    · exact hnot
    · exact h.2.2 k hk hkp

theorem First.unique {o o' : Option Nat} (h : First P i o) (h' : First P i o') : o = o' := by
  rcases o with - | p <;> rcases o' with - | p'
  · rfl
  · exact absurd h'.2.1 (h p' h'.1)
  · exact absurd h.2.1 (h' p h.1)
  · rcases Nat.lt_trichotomy p p' with hlt | rfl | hlt
    · exact absurd h.2.1 (h'.2.2 p h.1 hlt)
    · rfl
    · exact absurd h'.2.1 (h.2.2 p' h'.1 hlt)

theorem occursAt_id : OccursAt id pat t i ↔ pat <+: t.drop i := by
  rw [OccursAt, List.map_id, List.map_id]

theorem occursAt_iff :
    OccursAt f pat t i ↔ ∀ k, k < pat.length → t[i + k]?.map f = pat[k]?.map f := by
  rw [OccursAt, List.prefix_iff_getElem?]
  constructor
  · intro hall k hk
    have hk' := hall k (by rwa [List.length_map])
    rw [List.getElem?_map, List.getElem?_drop] at hk'
    rw [hk', List.getElem_map, List.getElem?_eq_getElem hk, Option.map_some]
  · intro hall k hk
    rw [List.length_map] at hk
    rw [List.getElem?_map, List.getElem?_drop, hall k hk, List.getElem_map, List.getElem?_eq_getElem hk,
      Option.map_some]

theorem matchLoop_runs {j : Nat} (hs : i + m ≤ s.length) (hsub : m ≤ sub.length) (hj : j ≤ m)
    (hbefore : ∀ k, k < j → s.text[i + k]?.map f = sub.text[k]?.map f) :
    Runs allowed (matchLoop f s sub i m j) fun r =>
      r = m ↔ ∀ k, k < m → s.text[i + k]?.map f = sub.text[k]?.map f := by
  have hslt := s.length_lt
  rw [matchLoop]
  split_ifs with hmore
  · obtain ⟨a, ha, hgeta⟩ := get_text (by omega : i + j < s.length)
    obtain ⟨b, hb, hgetb⟩ := get_text (by omega : j < sub.length)
    rw [wrap_of_lt (by omega), hgeta, hgetb]
    change Runs allowed (if f a = f b then _ else _) _
    split_ifs with heq
    · refine matchLoop_runs hs hsub (by omega) fun k hk => ?_
      rcases Nat.lt_or_eq_of_le (Nat.le_of_lt_succ hk) with hk | rfl
      · exact hbefore k hk
      · rw [ha, hb, Option.map_some, Option.map_some, heq]
    · refine Runs.ok ⟨fun h => absurd h (by omega), fun h => ?_⟩
      have hj := h j hmore
      rw [ha, hb, Option.map_some, Option.map_some, Option.some.injEq] at hj
      exact absurd hj heq
  · obtain rfl : j = m := by omega
    exact Runs.ok ⟨fun _ => hbefore, fun _ => rfl⟩
termination_by m - j

theorem matchAt_runs (hs : i + sub.length ≤ s.length) :
    Runs allowed (matchAt f s sub i sub.length) fun b => b = true ↔ OccursAt f sub.text s.text i := by
  refine (matchLoop_runs hs le_rfl (Nat.zero_le _) fun _ h => absurd h (Nat.not_lt_zero _)).bind ?_
  intro r hr
  refine Runs.ok ?_
  rw [decide_eq_true_eq, hr, occursAt_iff, length_eq]

/-- A match beyond the array is read outside of it. -/
theorem matchAt_outside (hi : s.size ≤ i) (hi' : i < 2 ^ 64) (hm : 0 < m) :
    matchAt f s sub i m = .error .outside := by
  rw [matchAt, matchLoop, if_pos hm, Nat.add_zero, wrap_of_lt hi', get_outside hi]
  rfl

theorem scan_runs {i : Nat} (hi : i + m < 2 ^ 64) (hP : ∀ k, P k → k + m ≤ s.length)
    (hmatch : ∀ k, k + m ≤ s.length → Runs allowed (test k) fun b => b = true ↔ P k) :
    Runs allowed (scan s m test i) (First P i) := by
  have hlt := s.length_lt
  rw [scan, wrap_of_lt hi]
  split_ifs with hmore
  · refine (hmatch i hmore).bind fun b hb => ?_
    rcases b with - | -
    · have hnot : ¬ P i := fun h => absurd (hb.2 h) Bool.false_ne_true
      rw [if_neg Bool.false_ne_true, wrap_of_lt (by omega : i + 1 < 2 ^ 64)]
      exact (scan_runs (by omega) hP hmatch).mono fun r hr => First.of_succ hnot hr
    · rw [if_pos rfl]
      exact Runs.ok ⟨le_rfl, hb.1 rfl, fun k hk hki => absurd hki (Nat.not_lt.2 hk)⟩
  · exact Runs.ok fun k hk h => absurd (hP k h) (by omega)
termination_by s.length + 1 - i

/-- A start index whose sum with the length of the pattern wraps around is tried all the same. -/
theorem scan_wraps (hi : i < 2 ^ 64) (hwrap : 2 ^ 64 ≤ i + m) (hm : m ≤ s.length)
    (hmatch : test i = .error .outside) : scan s m test i = .error .outside := by
  have hlt := s.length_lt
  rw [scan, wrap_of_le hwrap (by omega), if_pos (by omega), hmatch]
  rfl

/-- The search of a text for a pattern. -/
theorem scan_matchAt (hi : i + sub.length < 2 ^ 64) (hsub : sub.text ≠ []) :
    Runs allowed (scan s sub.length (fun k => matchAt f s sub k sub.length) i)
      (First (OccursAt f sub.text s.text) i) := by
  refine scan_runs hi (fun k hk => ?_) fun k hk => matchAt_runs hk
  rw [length_eq, length_eq]
  exact hk.le hsub

theorem scan_matchAt_wraps (hi : i < 2 ^ 64) (hwrap : 2 ^ 64 ≤ i + sub.length) (hlen : sub.length ≤ s.length)
    (hsub : sub.text ≠ []) :
    scan s sub.length (fun k => matchAt f s sub k sub.length) i = .error .outside := by
  have hpos := List.length_pos_of_ne_nil hsub
  have hslen := s.length_le
  have hsize := s.size_lt
  rw [← length_eq] at hpos
  exact scan_wraps hi hwrap hlen (matchAt_outside (by omega) hi hpos)

end NewM2.Search
