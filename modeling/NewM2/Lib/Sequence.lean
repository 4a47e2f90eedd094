import Mathlib

/-!
# Sequences that are sorted in place

A sequence is a function of its indices. `Permutes lo hi` says that elements have been exchanged between the
indices `lo .. hi`; a rearrangement of lists is stable if it keeps the order of equal elements. The order is a
total preorder that is given by a Boolean function. -/

namespace NewM2.Sequence

variable {α : Type}

/-- The `n` elements from the index `s` on. -/
def segment (a : Nat → α) (s n : Nat) : List α := (List.range' s n).map a

/-- A total preorder. -/
structure Preordered (le : α → α → Bool) : Prop where
  total : ∀ x y, le x y ∨ le y x
  trans : ∀ x y z, le x y → le y z → le x z

def SortedOn (le : α → α → Bool) (lo hi : Nat) (a : Nat → α) : Prop :=
  ∀ i j, lo ≤ i → i < j → j ≤ hi → le (a i) (a j)

def Permutes (lo hi : Nat) (a a' : Nat → α) : Prop :=
  ∃ σ : Equiv.Perm Nat, (∀ k, k < lo ∨ hi < k → σ k = k) ∧ a' = a ∘ σ

/-- Neither of the two is less than the other. -/
def eqv (le : α → α → Bool) (x y : α) : Bool := le x y && le y x

/-- The list `l'` is a rearrangement of `l` that keeps equal elements in their order. -/
structure Stable (le : α → α → Bool) (l l' : List α) : Prop where
  perm : l'.Perm l
  order : ∀ x, l'.filter (eqv le x) = l.filter (eqv le x)

section preorder
variable {le : α → α → Bool} {x y z : α}

theorem Preordered.refl (h : Preordered le) (x : α) : le x x := (h.total x x).elim id id

theorem Preordered.of_not (h : Preordered le) (hxy : le x y = false) : le y x :=
  (h.total x y).resolve_left (by rw [hxy]; exact Bool.false_ne_true)

theorem Preordered.not_left (h : Preordered le) (hxy : le x y = false) (hxz : le x z) : le z y = false := by
  by_contra hzy
  rw [h.trans x z y hxz (by simpa using hzy)] at hxy
  exact absurd hxy (by decide)

end preorder

/-! ## Segments -/

section segment
variable {a a' : Nat → α} {s m n : Nat}

theorem length_segment (a : Nat → α) (s n : Nat) : (segment a s n).length = n := by simp [segment]

theorem segment_zero (a : Nat → α) (s : Nat) : segment a s 0 = [] := rfl

theorem segment_succ (a : Nat → α) (s n : Nat) : segment a s (n + 1) = a s :: segment a (s + 1) n := rfl

theorem segment_append (a : Nat → α) (s m n : Nat) :
    segment a s (m + n) = segment a s m ++ segment a (s + m) n := by
  rw [segment, segment, segment, ← List.map_append, List.range'_append_1]

theorem segment_concat (a : Nat → α) (s n : Nat) : segment a s (n + 1) = segment a s n ++ [a (s + n)] :=
  segment_append a s n 1

theorem segment_congr (h : ∀ k, s ≤ k → k < s + n → a' k = a k) : segment a' s n = segment a s n := by
  refine List.map_congr_left fun k hk => ?_
  obtain ⟨hlow, hhigh⟩ := List.mem_range'_1.1 hk
  exact h k hlow hhigh

theorem segment_move {t : Nat} (h : ∀ k, k < n → a' (t + k) = a (s + k)) : segment a' t n = segment a s n := by
  refine List.ext_getElem (by rw [length_segment, length_segment]) fun k hk hk' => ?_
  rw [length_segment] at hk'
  simp only [segment, List.getElem_map, List.getElem_range', Nat.one_mul]
  exact h k hk'

theorem getElem_segment {k : Nat} (h : k < (segment a s n).length) : (segment a s n)[k] = a (s + k) := by
  simp [segment]

theorem pairwise_segment {le : α → α → Bool} (h : ∀ i j, s ≤ i → i < j → j < s + n → le (a i) (a j)) :
    (segment a s n).Pairwise fun x y => le x y := by
  rw [List.pairwise_iff_getElem]
  intro i j hi hj hij
  rw [length_segment] at hj
  rw [getElem_segment, getElem_segment]
  exact h _ _ (by omega) (by omega) (by omega)

theorem of_pairwise_segment {le : α → α → Bool} (h : (segment a s n).Pairwise fun x y => le x y) {i j : Nat}
    (hi : s ≤ i) (hij : i < j) (hj : j < s + n) : le (a i) (a j) := by
  have hlen := length_segment a s n
  have hget := List.pairwise_iff_getElem.1 h (i - s) (j - s) (by omega) (by omega) (by omega)
  rwa [getElem_segment, getElem_segment, Nat.add_sub_cancel' hi, Nat.add_sub_cancel' (by omega)] at hget

end segment

/-! ## Permutations -/

section permutes
variable {a a' b : Nat → α} {lo hi i j k : Nat}

theorem Permutes.refl (lo hi : Nat) (a : Nat → α) : Permutes lo hi a a := ⟨1, fun _ _ => rfl, rfl⟩

theorem Permutes.trans (h : Permutes lo hi a a') (h' : Permutes lo hi a' b) : Permutes lo hi a b := by
  obtain ⟨σ, hσ, rfl⟩ := h
  obtain ⟨τ, hτ, rfl⟩ := h'
  refine ⟨τ.trans σ, fun k hk => ?_, rfl⟩
  rw [Equiv.trans_apply, hτ k hk, hσ k hk]

theorem Permutes.mono {lo' hi' : Nat} (h : Permutes lo hi a a') (hlo : lo' ≤ lo) (hhi : hi ≤ hi') :
    Permutes lo' hi' a a' := by
  obtain ⟨σ, hσ, rfl⟩ := h
  exact ⟨σ, fun k hk => hσ k (by omega), rfl⟩

theorem Permutes.swap (a : Nat → α) (hi₁ : lo ≤ i) (hi₂ : i ≤ hi) (hj₁ : lo ≤ j) (hj₂ : j ≤ hi) :
    Permutes lo hi a (a ∘ Equiv.swap i j) :=
  ⟨Equiv.swap i j, fun _ hk => Equiv.swap_apply_of_ne_of_ne (by omega) (by omega), rfl⟩

theorem Permutes.outside (h : Permutes lo hi a a') (hk : k < lo ∨ hi < k) : a' k = a k := by
  obtain ⟨σ, hσ, rfl⟩ := h
  rw [Function.comp_apply, hσ k hk]

/-- The exchanged indices are those. -/
theorem perm_mem {σ : Equiv.Perm Nat} (hσ : ∀ k, k < lo ∨ hi < k → σ k = k) (hk : lo ≤ k) (hk' : k ≤ hi) :
    lo ≤ σ k ∧ σ k ≤ hi := by
  by_contra h
  have hfix : σ (σ k) = σ k := hσ (σ k) (by omega)
  rw [σ.injective hfix] at h
  exact h ⟨hk, hk'⟩

theorem Permutes.forall {P : α → Prop} (h : Permutes lo hi a a') (hP : ∀ k, lo ≤ k → k ≤ hi → P (a k))
    (hk : lo ≤ k) (hk' : k ≤ hi) : P (a' k) := by
  obtain ⟨σ, hσ, rfl⟩ := h
  obtain ⟨hlow, hhigh⟩ := perm_mem hσ hk hk'
  exact hP _ hlow hhigh

theorem Permutes.perm {n : Nat} (h : Permutes 1 n a a') : (segment a' 1 n).Perm (segment a 1 n) := by
  obtain ⟨σ, hσ, rfl⟩ := h
  rw [segment, ← List.map_map]
  refine List.Perm.map a ?_
  refine (List.perm_ext_iff_of_nodup ?_ List.nodup_range').2 fun k => ?_
  · exact (List.nodup_map_iff σ.injective).2 List.nodup_range'
  · simp only [List.mem_map, List.mem_range'_1]
    constructor
    · rintro ⟨j, ⟨hlow, hhigh⟩, rfl⟩
      have hmem := perm_mem hσ hlow (by omega)
      omega
    · rintro ⟨hlow, hhigh⟩
      refine ⟨σ.symm k, ?_, σ.apply_symm_apply k⟩
      by_contra hout
      have hfix := hσ (σ.symm k) (by omega)
      rw [σ.apply_symm_apply] at hfix
      omega

end permutes

/-! ## Stable rearrangements -/

section stable
variable {le : α → α → Bool} {l l' l₁ l₂ l₃ l₁' l₂' : List α}

theorem Stable.refl (le : α → α → Bool) (l : List α) : Stable le l l := ⟨.refl l, fun _ => rfl⟩

theorem Stable.trans (h : Stable le l₁ l₂) (h' : Stable le l₂ l₃) : Stable le l₁ l₃ :=
  ⟨h'.perm.trans h.perm, fun x => (h'.order x).trans (h.order x)⟩

theorem Stable.append (h₁ : Stable le l₁ l₁') (h₂ : Stable le l₂ l₂') : Stable le (l₁ ++ l₂) (l₁' ++ l₂') :=
  ⟨h₁.perm.append h₂.perm, fun x => by rw [List.filter_append, List.filter_append, h₁.order, h₂.order]⟩

/-- An element may be moved in front of greater ones. -/
theorem Stable.move (hle : Preordered le) {x : α} (h : ∀ y ∈ l₂, le y x = false) :
    Stable le (l₁ ++ l₂ ++ [x]) (l₁ ++ x :: l₂) := by
  refine ⟨?_, fun z => ?_⟩
  · rw [List.append_assoc]
    exact (List.perm_append_singleton x l₂).symm.append_left l₁
  · rw [List.filter_append, List.filter_append, List.filter_append, List.append_assoc]
    congr 1
    by_cases hz : eqv le z x
    · have hnone : l₂.filter (eqv le z) = [] := by
        refine List.filter_eq_nil_iff.2 fun y hy hzy => ?_
        rw [eqv, Bool.and_eq_true] at hz hzy
        have hyx := hle.trans y z x hzy.2 hz.1
        rw [h y hy] at hyx
        exact absurd hyx (by decide)
      rw [List.filter_cons_of_pos hz, hnone, List.filter_cons_of_pos hz]
      rfl
    · rw [List.filter_cons_of_neg hz, List.filter_cons_of_neg hz, List.filter_nil, List.append_nil]

/-- Merging is stable. -/
theorem Stable.merge (hle : Preordered le) (hl : l₁.Pairwise fun x y => le x y) :
    Stable le (l₁ ++ l₂) (l₁.merge l₂ le) := by
  refine ⟨List.merge_perm_append le, fun z => ?_⟩
  induction l₁ generalizing l₂ with
  | nil => rw [List.nil_merge, List.nil_append]
  | cons x l₁ ih₁ =>
    induction l₂ with
    | nil => rw [List.merge_right, List.append_nil]
    | cons y l₂ ih₂ =>
      by_cases hxy : le x y
      · rw [List.cons_merge_cons_pos _ _ _ hxy, List.cons_append, List.filter_cons, List.filter_cons,
          ih₁ (List.pairwise_cons.1 hl).2]
      · -- all of the first list is greater than `y`
        have hgreater : ∀ w ∈ x :: l₁, le w y = false := by
          have hxy' : le x y = false := by simpa using hxy
          intro w hw
          rcases List.mem_cons.1 hw with rfl | hw
          · exact hxy'
          · exact hle.not_left hxy' ((List.pairwise_cons.1 hl).1 w hw)
        have hmoved : Stable le ([] ++ (x :: l₁) ++ [y]) ([] ++ y :: x :: l₁) := Stable.move hle hgreater
        have hmove := hmoved.order z
        rw [List.nil_append, List.nil_append] at hmove
        calc ((x :: l₁).merge (y :: l₂) le).filter (eqv le z)
            = [y].filter (eqv le z) ++ ((x :: l₁).merge l₂ le).filter (eqv le z) := by
              rw [List.cons_merge_cons_neg _ _ _ hxy, ← List.filter_append, List.singleton_append]
          _ = (y :: x :: l₁).filter (eqv le z) ++ l₂.filter (eqv le z) := by
              rw [ih₂, ← List.filter_append, ← List.filter_append]
              rfl
          _ = (x :: l₁ ++ y :: l₂).filter (eqv le z) := by
              rw [hmove, ← List.filter_append, List.append_assoc, List.singleton_append]

end stable
end NewM2.Sequence
