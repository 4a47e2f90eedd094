import Mathlib

/-!
# Words as sets

A word of `w` bits is the set of the positions of its ones. The bitwise operations are those of the
set algebra, and equality is extensional. As numbers two words are ordered by the greatest position
at which they differ (`IsTop`), the last one counting the other way round in two's complement
(`sle_iff_of_isTop`); sum and difference agree with union and set difference for disjoint sets and for
subsets only.
-/

namespace NewM2.BitSet

variable {w : Nat} {s t : BitVec w} {k m lo hi : Nat}

def members (s : BitVec w) : Set Nat := {k | s.getLsbD k = true}

theorem mem_members : k ∈ members s ↔ s.getLsbD k = true := Iff.rfl

theorem lt_of_mem (h : k ∈ members s) : k < w := BitVec.lt_of_getLsbD h

theorem members_injective : Function.Injective (members : BitVec w → Set Nat) := by
  intro s t h
  refine BitVec.eq_of_getLsbD_eq fun i _ => Bool.eq_iff_iff.2 ?_
  exact Set.ext_iff.1 h i

@[simp] theorem members_zero : members (0#w) = ∅ := by
  ext k; simp [mem_members]

@[simp] theorem members_or (s t : BitVec w) : members (s ||| t) = members s ∪ members t := by
  ext k; simp [mem_members]

@[simp] theorem members_and (s t : BitVec w) : members (s &&& t) = members s ∩ members t := by
  ext k; simp [mem_members]

theorem members_and_not (s t : BitVec w) : members (s &&& ~~~t) = members s \ members t := by
  ext k
  simp only [members_and, Set.mem_inter_iff, Set.mem_sdiff, mem_members, BitVec.getLsbD_not,
    Bool.and_eq_true, decide_eq_true_eq, Bool.not_eq_true', Bool.not_eq_true]
  exact ⟨fun h => ⟨h.1, h.2.2⟩, fun h => ⟨h.1, BitVec.lt_of_getLsbD h.1, h.2⟩⟩

theorem members_xor (s t : BitVec w) : members (s ^^^ t) = symmDiff (members s) (members t) := by
  ext k
  simp only [Set.mem_symmDiff, mem_members, BitVec.getLsbD_xor]
  cases s.getLsbD k <;> cases t.getLsbD k <;> simp

theorem members_one_shiftLeft (h : k < w) : members (1#w <<< k) = {k} := by
  ext i
  simp only [mem_members, BitVec.getLsbD_shiftLeft, BitVec.getLsbD_one, Set.mem_singleton_iff,
    Bool.and_eq_true, decide_eq_true_eq, Bool.not_eq_true', decide_eq_false_iff_not, not_lt]
  omega

/-- The positions from `lo` to `hi`, as two shifted words of ones. -/
theorem members_range (hhi : hi < w) :
    members (BitVec.allOnes w <<< lo &&& BitVec.allOnes w >>> (w - 1 - hi)) = Set.Icc lo hi := by
  ext i
  simp only [mem_members, BitVec.getLsbD_and, BitVec.getLsbD_shiftLeft, BitVec.getLsbD_ushiftRight,
    BitVec.getLsbD_allOnes, Set.mem_Icc, Bool.and_eq_true, decide_eq_true_eq, Bool.not_eq_true',
    decide_eq_false_iff_not, not_lt]
  omega

theorem and_eq_zero_iff : s &&& t = 0#w ↔ Disjoint (members s) (members t) := by
  rw [← members_injective.eq_iff, members_and, members_zero, Set.disjoint_iff_inter_eq_empty]

theorem and_not_eq_zero_iff : s &&& ~~~t = 0#w ↔ members s ⊆ members t := by
  rw [← members_injective.eq_iff, members_and_not, members_zero, Set.sdiff_eq_empty]

/-! ## Sums and differences -/

theorem and_add_and_not (s t : BitVec w) : (s &&& t) + (s &&& ~~~t) = s := by
  rw [BitVec.add_eq_or_of_and_eq_zero, ← members_injective.eq_iff, members_or, members_and,
    members_and_not, Set.inter_union_sdiff]
  rw [and_eq_zero_iff, members_and, members_and_not]
  exact Set.disjoint_sdiff_right.mono_left Set.inter_subset_right

theorem add_eq_or_iff : s + t = s ||| t ↔ Disjoint (members s) (members t) := by
  have hor : s ||| t = (s &&& ~~~t) + t := by
    rw [BitVec.add_eq_or_of_and_eq_zero, ← members_injective.eq_iff, members_or, members_or,
      members_and_not, Set.sdiff_union_self]
    rw [and_eq_zero_iff, members_and_not]
    exact Set.disjoint_sdiff_left
  have hsum : s + t = (s &&& t) + (s ||| t) := by
    rw [hor, ← BitVec.add_assoc, and_add_and_not]
  rw [hsum, ← and_eq_zero_iff, add_eq_right]
  rfl

theorem sub_eq_and_not_iff : s - t = s &&& ~~~t ↔ members t ⊆ members s := by
  have hs := and_add_and_not s t
  have ht := and_add_and_not t s
  rw [BitVec.and_comm] at ht
  have hsub : s - t = (s &&& ~~~t) - (t &&& ~~~s) := calc
    s - t = (s &&& t) + (s &&& ~~~t) - ((s &&& t) + (t &&& ~~~s)) := by rw [hs, ht]
    _ = (s &&& ~~~t) - (t &&& ~~~s) := by abel
  rw [hsub, ← and_not_eq_zero_iff, sub_eq_self]
  rfl

/-! ## The order of words -/

/-- The greatest position at which the words differ. -/
structure IsTop (s t : BitVec w) (m : Nat) : Prop where
  differ : s.getLsbD m ≠ t.getLsbD m
  above : ∀ k, m < k → s.getLsbD k = t.getLsbD k

theorem IsTop.symm (h : IsTop s t m) : IsTop t s m := ⟨h.differ.symm, fun k hk => (h.above k hk).symm⟩

theorem IsTop.lt (h : IsTop s t m) : m < w := by
  by_contra hm
  exact h.differ (by rw [BitVec.getLsbD_of_ge _ _ (by omega), BitVec.getLsbD_of_ge _ _ (by omega)])

theorem exists_isTop (h : s ≠ t) : ∃ m, IsTop s t m := by
  obtain ⟨i, hi, hne⟩ : ∃ i, i < w ∧ s.getLsbD i ≠ t.getLsbD i := by
    by_contra hall
    push Not at hall
    exact h (BitVec.eq_of_getLsbD_eq hall)
  have hP : ∃ k, s.getLsbD k ≠ t.getLsbD k := ⟨i, hne⟩
  refine ⟨Nat.findGreatest (fun k => s.getLsbD k ≠ t.getLsbD k) w,
    Nat.findGreatest_spec (P := fun k => s.getLsbD k ≠ t.getLsbD k) hi.le hne, fun k hk => ?_⟩
  by_contra hk'
  rcases Nat.lt_or_ge w k with hwk | hkw
  · exact hk' (by rw [BitVec.getLsbD_of_ge _ _ hwk.le, BitVec.getLsbD_of_ge _ _ hwk.le])
  · exact Nat.findGreatest_is_greatest hk hkw hk'

theorem toNat_lt_of_isTop (h : IsTop s t m) (hm : t.getLsbD m = true) : s.toNat < t.toNat := by
  have hs : s.getLsbD m = false := by
    have := h.differ
    rw [hm] at this
    simpa using this
  exact Nat.lt_of_testBit m hs hm h.above

theorem ule_iff_of_isTop (h : IsTop s t m) : s.ule t = true ↔ t.getLsbD m = true := by
  rw [BitVec.ule_eq_decide, decide_eq_true_eq]
  constructor
  · intro hle
    by_contra hm
    have hs : s.getLsbD m = true := by
      have := h.differ
      rw [Bool.not_eq_true] at hm
      rw [hm] at this
      simpa using this
    exact absurd (toNat_lt_of_isTop h.symm hs) (not_lt.2 hle)
  · exact fun hm => (toNat_lt_of_isTop h hm).le

/-- In two's complement the word with the greatest position of difference is the greater, unless that
position is the last. -/
theorem sle_iff_of_isTop (h : IsTop s t m) :
    s.sle t = true ↔ if m = w - 1 then s.getLsbD m = true else t.getLsbD m = true := by
  rw [BitVec.sle_eq_ule, BitVec.msb_eq_getLsbD_last, BitVec.msb_eq_getLsbD_last]
  have hule := ule_iff_of_isTop h
  split_ifs with hm
  · subst hm
    have hne := h.differ
    revert hule hne
    cases s.getLsbD (w - 1) <;> cases t.getLsbD (w - 1) <;> simp
  · have hlt := h.lt
    rw [h.above (w - 1) (by omega)]
    simpa using hule

end NewM2.BitSet
