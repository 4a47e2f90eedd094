import Mathlib

/-!
# Cutting a list at a separator

`pieces sep l` are the parts of `l` between the occurrences of `sep` that a scan from the left finds, each
search going on behind the last one. With `sep` between them they are `l` again (`intercalate_pieces`), and
none of them contains `sep` (`pieces_free`). -/

namespace NewM2.Pieces

variable {α : Type*} [DecidableEq α] {sep l p : List α} {x : α} {n : Nat}

def pieces (sep l : List α) : List (List α) :=
  match l with
  | [] => [[]]
  | x :: l =>
    if sep ≠ [] ∧ sep <+: x :: l then [] :: pieces sep ((x :: l).drop sep.length)
    else (pieces sep l).modifyHead (x :: ·)
termination_by l.length
decreasing_by
  · rename_i h
    have hpos := List.length_pos_of_ne_nil h.1
    rw [List.length_drop, List.length_cons]
    omega
  · exact Nat.lt_succ_self _

theorem pieces_nil : pieces sep [] = [[]] := by rw [pieces]

theorem pieces_match (hsep : sep ≠ []) (h : sep <+: l) : pieces sep l = [] :: pieces sep (l.drop sep.length) := by
  cases l with
  | nil => exact absurd (List.prefix_nil.1 h) hsep
  | cons x l => rw [pieces, if_pos ⟨hsep, h⟩]

theorem pieces_cons (h : ¬ sep <+: x :: l) : pieces sep (x :: l) = (pieces sep l).modifyHead (x :: ·) := by
  rw [pieces, if_neg fun h' => h h'.2]

theorem pieces_ne_nil : pieces sep l ≠ [] := by
  induction l using pieces.induct sep with
  | case1 => simp [pieces_nil]
  | case2 x l h ih => simp [pieces_match h.1 h.2]
  | case3 x l h ih =>
    rw [pieces, if_neg h]
    exact fun h' => ih (List.modifyHead_eq_nil_iff.1 h')

/-- The induction along the cuts of a nonempty separator. -/
theorem pieces_induction {P : List α → Prop} (hsep : sep ≠ []) (hnil : P [])
    (hmatch : ∀ l, sep <+: l → P (l.drop sep.length) → P l)
    (hcons : ∀ x l, ¬ sep <+: x :: l → P l → P (x :: l)) (l : List α) : P l := by
  induction l using pieces.induct sep with
  | case1 => exact hnil
  | case2 x l h ih => exact hmatch _ h.2 ih
  | case3 x l h ih => exact hcons x l (fun h' => h ⟨hsep, h'⟩) ih

theorem pieces_short (h : l.length < sep.length) : pieces sep l = [l] := by
  induction l with
  | nil => exact pieces_nil
  | cons x l ih =>
    rw [List.length_cons] at h
    have hnot : ¬ sep <+: x :: l := fun h' => by
      have hle := h'.length_le
      rw [List.length_cons] at hle
      omega
    rw [pieces_cons hnot, ih (by omega)]
    rfl

theorem exists_cons_pieces (sep l : List α) : ∃ p ps, pieces sep l = p :: ps :=
  List.exists_cons_of_ne_nil pieces_ne_nil

/-- The pieces joined by something else. -/
theorem intercalate_match (r : List α) (hsep : sep ≠ []) (h : sep <+: l) :
    r.intercalate (pieces sep l) = r ++ r.intercalate (pieces sep (l.drop sep.length)) := by
  rw [pieces_match hsep h, List.intercalate_cons_of_ne_nil pieces_ne_nil, List.nil_append]

theorem intercalate_cons (r : List α) (h : ¬ sep <+: x :: l) :
    r.intercalate (pieces sep (x :: l)) = x :: r.intercalate (pieces sep l) := by
  obtain ⟨p, ps, hp⟩ := exists_cons_pieces sep l
  rw [pieces_cons h, hp, List.modifyHead_cons, List.intercalate_cons_cons_left]

theorem intercalate_pieces (hsep : sep ≠ []) (l : List α) : sep.intercalate (pieces sep l) = l := by
  induction l using pieces_induction hsep with
  | hnil => simp [pieces_nil]
  | hmatch l h ih =>
    rw [intercalate_match sep hsep h, ih]
    obtain ⟨rest, rfl⟩ := h
    rw [List.drop_left]
  | hcons x l h ih => rw [intercalate_cons sep h, ih]

theorem notMem_intercalate {r : List α} {y : α} (hsep : sep ≠ []) (hr : y ∉ r) (hl : y ∉ l) :
    y ∉ r.intercalate (pieces sep l) := by
  induction l using pieces_induction hsep with
  | hnil => simp [pieces_nil]
  | hmatch l h ih =>
    rw [intercalate_match r hsep h, List.mem_append, not_or]
    exact ⟨hr, ih fun h' => hl (List.mem_of_mem_drop h')⟩
  | hcons x l h ih =>
    rw [List.mem_cons, not_or] at hl
    rw [intercalate_cons r h, List.mem_cons, not_or]
    exact ⟨hl.1, ih hl.2⟩

/-- The first piece is the beginning. -/
theorem pieces_head {ps : List (List α)} (hsep : sep ≠ []) (h : pieces sep l = p :: ps) : p <+: l := by
  have hl := intercalate_pieces hsep l
  rw [h] at hl
  rw [← hl]
  cases ps with
  | nil => rw [List.intercalate_singleton]
  | cons q ps =>
    rw [List.intercalate_cons_cons, List.append_assoc]
    exact List.prefix_append _ _

theorem pieces_free (hsep : sep ≠ []) (l : List α) : ∀ p ∈ pieces sep l, ¬ sep <:+: p := by
  induction l using pieces_induction hsep with
  | hnil =>
    intro p hp
    rw [pieces_nil, List.mem_singleton] at hp
    rw [hp, List.infix_nil]
    exact hsep
  | hmatch l h ih =>
    intro p hp
    rw [pieces_match hsep h, List.mem_cons] at hp
    rcases hp with rfl | hp
    · rw [List.infix_nil]
      exact hsep
    · exact ih p hp
  | hcons x l h ih =>
    intro p hp hin
    obtain ⟨q, qs, hq⟩ := exists_cons_pieces sep l
    rw [pieces_cons h, hq, List.modifyHead_cons, List.mem_cons] at hp
    rw [hq] at ih
    rcases hp with rfl | hp
    · rcases List.infix_cons_iff.1 hin with hpre | hin
      · -- it would have been found at the first element
        exact h (hpre.trans (List.cons_prefix_cons.2 ⟨rfl, pieces_head hsep hq⟩))
      · exact ih q List.mem_cons_self hin
    · exact ih p (List.mem_cons_of_mem _ hp) hin

theorem length_piece_le (hsep : sep ≠ []) (l : List α) : ∀ p ∈ pieces sep l, p.length ≤ l.length := by
  induction l using pieces_induction hsep with
  | hnil => simp [pieces_nil]
  | hmatch l h ih =>
    intro p hp
    rw [pieces_match hsep h, List.mem_cons] at hp
    rcases hp with rfl | hp
    · exact Nat.zero_le _
    · exact (ih p hp).trans (by rw [List.length_drop]; exact Nat.sub_le _ _)
  | hcons x l h ih =>
    intro p hp
    obtain ⟨q, qs, hq⟩ := exists_cons_pieces sep l
    rw [hq] at ih
    rw [pieces_cons h, hq, List.modifyHead_cons, List.mem_cons] at hp
    rcases hp with rfl | hp
    · exact Nat.succ_le_succ (ih q List.mem_cons_self)
    · exact (ih p (List.mem_cons_of_mem _ hp)).trans (Nat.le_succ _)

end NewM2.Pieces
