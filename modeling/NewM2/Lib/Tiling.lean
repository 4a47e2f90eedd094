import Mathlib

/-!
# Tilings of an interval

`Tiled size lo hi l`: walking from `lo` by the size found at each position visits exactly the
positions of `l` and lands on `hi`. A tiling is a partition of `[lo, hi)`: every address lies in one
tile (`exists_tile`), tiles are disjoint (`disjoint`), and no tile starts inside another
(`eq_of_mem_tile`).
-/

namespace NewM2

/-- Walking from `lo` by `size` visits `l` and lands on `hi`. -/
def Tiled (size : Nat → Nat) (lo hi : Nat) : List Nat → Prop
  | [] => lo = hi
  | b :: l => b = lo ∧ 0 < size b ∧ Tiled size (lo + size b) hi l

namespace Tiled
variable {size size' : Nat → Nat} {lo mid hi b c x : Nat} {l l' l₁ l₂ : List Nat}

@[simp] theorem nil_iff : Tiled size lo hi [] ↔ lo = hi := Iff.rfl

@[simp] theorem cons_iff :
    Tiled size lo hi (b :: l) ↔ b = lo ∧ 0 < size b ∧ Tiled size (lo + size b) hi l := Iff.rfl

theorem le (ht : Tiled size lo hi l) : lo ≤ hi := by
  induction l generalizing lo with
  | nil => exact Nat.le_of_eq ht
  | cons b l ih => have := ih ht.2.2; omega

theorem mem_range (ht : Tiled size lo hi l) (hb : b ∈ l) :
    lo ≤ b ∧ b + size b ≤ hi ∧ 0 < size b := by
  induction l generalizing lo with
  | nil => cases hb
  | cons c l ih =>
    obtain ⟨rfl, hpos, ht⟩ := ht
    rcases List.mem_cons.1 hb with rfl | hb
    · exact ⟨Nat.le_refl _, ht.le, hpos⟩
    · have := ih ht hb; omega

theorem congr (hs : ∀ y ∈ l, size' y = size y) (ht : Tiled size lo hi l) : Tiled size' lo hi l := by
  induction l generalizing lo with
  | nil => exact ht
  | cons b l ih =>
    have hb := hs b (List.mem_cons_self ..)
    refine ⟨ht.1, hb ▸ ht.2.1, ?_⟩
    rw [hb]
    exact ih (fun y hy => hs y (List.mem_cons_of_mem _ hy)) ht.2.2

theorem append_iff :
    Tiled size lo hi (l₁ ++ l₂) ↔ ∃ mid, Tiled size lo mid l₁ ∧ Tiled size mid hi l₂ := by
  induction l₁ generalizing lo with
  | nil => simp
  | cons b l₁ ih =>
    simp only [List.cons_append, cons_iff, ih]
    constructor
    · rintro ⟨h1, h2, mid, h3, h4⟩; exact ⟨mid, ⟨h1, h2, h3⟩, h4⟩
    · rintro ⟨mid, ⟨h1, h2, h3⟩, h4⟩; exact ⟨h1, h2, mid, h3, h4⟩

/-- A tiling of `[lo, mid)` extended by one tile. -/
theorem snoc (ht : Tiled size lo mid l) (hpos : 0 < size mid) :
    Tiled size lo (mid + size mid) (l ++ [mid]) :=
  append_iff.2 ⟨mid, ht, rfl, hpos, rfl⟩

theorem pairwise (ht : Tiled size lo hi l) : l.Pairwise fun a b => a + size a ≤ b := by
  induction l generalizing lo with
  | nil => exact List.Pairwise.nil
  | cons b l ih =>
    obtain ⟨rfl, _, ht⟩ := ht
    exact List.pairwise_cons.2 ⟨fun y hy => (ht.mem_range hy).1, ih ht⟩

theorem nodup (ht : Tiled size lo hi l) : l.Nodup :=
  (List.pairwise_and_iff.2 ⟨ht.pairwise, List.pairwise_of_forall_mem_list
    (r := fun a _ => 0 < size a) fun a ha _ _ => (ht.mem_range ha).2.2⟩).imp
    fun {a b} h => by omega

theorem disjoint (ht : Tiled size lo hi l) (hb : b ∈ l) (hc : c ∈ l) (hne : b ≠ c) :
    b + size b ≤ c ∨ c + size c ≤ b := by
  induction l generalizing lo with
  | nil => cases hb
  | cons d l ih =>
    obtain ⟨rfl, _, ht⟩ := ht
    rcases List.mem_cons.1 hb with rfl | hb' <;> rcases List.mem_cons.1 hc with rfl | hc'
    · exact absurd rfl hne
    · exact .inl (ht.mem_range hc').1
    · exact .inr (ht.mem_range hb').1
    · exact ih ht hb' hc'

/-- A tile that starts inside another is that tile. -/
theorem eq_of_mem_tile (ht : Tiled size lo hi l) (hb : b ∈ l) (hc : c ∈ l) (h1 : b ≤ c)
    (h2 : c < b + size b) : c = b := by
  by_contra hne
  have hcpos := (ht.mem_range hc).2.2
  rcases ht.disjoint hb hc (Ne.symm hne) with h | h <;> omega

theorem exists_tile (ht : Tiled size lo hi l) (h1 : lo ≤ x) (h2 : x < hi) :
    ∃ b ∈ l, b ≤ x ∧ x < b + size b := by
  induction l generalizing lo with
  | nil => rw [nil_iff] at ht; omega
  | cons b l ih =>
    obtain ⟨rfl, _, ht⟩ := ht
    by_cases hx : x < b + size b
    · exact ⟨b, List.mem_cons_self .., h1, hx⟩
    · obtain ⟨c, hc, hcx⟩ := ih ht (by omega)
      exact ⟨c, List.mem_cons_of_mem _ hc, hcx⟩

theorem unique (ht : Tiled size lo hi l) (ht' : Tiled size lo hi l') : l = l' := by
  induction l generalizing lo l' with
  | nil =>
    cases l' with
    | nil => rfl
    | cons c l' =>
      have := ht'.mem_range (List.mem_cons_self ..)
      rw [nil_iff] at ht
      omega
  | cons b l ih =>
    cases l' with
    | nil =>
      have := ht.mem_range (List.mem_cons_self ..)
      rw [nil_iff] at ht'
      omega
    | cons c l' =>
      obtain rfl := ht.1
      obtain rfl := ht'.1
      rw [ih ht.2.2 ht'.2.2]

/-- Sizes that are multiples of `d` keep the tiles on multiples of `d`. -/
theorem dvd {d : Nat} (hd : ∀ y ∈ l, d ∣ size y) (hlo : d ∣ lo) (ht : Tiled size lo hi l) :
    d ∣ hi ∧ ∀ y ∈ l, d ∣ y := by
  induction l generalizing lo with
  | nil => exact ⟨ht ▸ hlo, fun y hy => by cases hy⟩
  | cons b l ih =>
    obtain ⟨rfl, -, ht⟩ := ht
    obtain ⟨hhi, hl⟩ := ih (fun y hy => hd y (List.mem_cons_of_mem _ hy))
      (Nat.dvd_add hlo (hd b (List.mem_cons_self ..))) ht
    refine ⟨hhi, fun y hy => ?_⟩
    rcases List.mem_cons.1 hy with rfl | hy
    · exact hlo
    · exact hl y hy

theorem first (ht : Tiled size lo hi l) : lo = hi ∨ lo ∈ l := by
  cases l with
  | nil => exact .inl ht
  | cons b l => exact .inr (ht.1 ▸ List.mem_cons_self ..)

/-- Behind a tile comes the end or another tile. -/
theorem next (ht : Tiled size lo hi l) (hb : b ∈ l) : b + size b = hi ∨ b + size b ∈ l := by
  induction l generalizing lo with
  | nil => cases hb
  | cons c l ih =>
    obtain ⟨rfl, -, ht⟩ := ht
    rcases List.mem_cons.1 hb with rfl | hb
    · exact ht.first.imp_right (List.mem_cons_of_mem _)
    · exact (ih ht hb).imp_right (List.mem_cons_of_mem _)

/-- In front of a tile comes the start or another tile. -/
theorem prev (ht : Tiled size lo hi l) (hb : b ∈ l) : b = lo ∨ ∃ a ∈ l, a + size a = b := by
  induction l generalizing lo with
  | nil => cases hb
  | cons c l ih =>
    obtain ⟨rfl, -, ht⟩ := ht
    rcases List.mem_cons.1 hb with rfl | hb
    · exact .inl rfl
    · rcases ih ht hb with rfl | ⟨a, ha, hab⟩
      · exact .inr ⟨c, List.mem_cons_self, rfl⟩
      · exact .inr ⟨a, List.mem_cons_of_mem _ ha, hab⟩

/-- Cutting the tile `b` at `c`. -/
theorem split (ht : Tiled size lo hi l) (hb : b ∈ l) (hbc : b < c) (hlt : c < b + size b)
    (hsize : size' b = c - b) (hrest : size' c = b + size b - c)
    (hother : ∀ y ∈ l, y ≠ b → size' y = size y) :
    ∃ l', Tiled size' lo hi l' ∧ ∀ y, y ∈ l' ↔ y ∈ l ∨ y = c := by
  induction l generalizing lo with
  | nil => cases hb
  | cons d l ih =>
    have hnodup := ht.nodup
    rw [List.nodup_cons] at hnodup
    obtain ⟨rfl, hd, ht⟩ := ht
    rcases List.mem_cons.1 hb with rfl | hb'
    · refine ⟨b :: c :: l, ⟨rfl, by omega, by omega, by omega, ?_⟩, fun y => ?_⟩
      · have hend : b + size' b + size' c = b + size b := by omega
        rw [hend]
        refine ht.congr fun y hy => hother y (List.mem_cons_of_mem _ hy) ?_
        rintro rfl
        exact hnodup.1 hy
      · simp only [List.mem_cons]
        tauto
    · have hdb : d ≠ b := by
        rintro rfl
        exact hnodup.1 hb'
      obtain ⟨l', ht', hl'⟩ := ih ht hb' fun y hy hne => hother y (List.mem_cons_of_mem _ hy) hne
      have hsd : size' d = size d := hother d List.mem_cons_self hdb
      refine ⟨d :: l', ⟨rfl, by omega, hsd ▸ ht'⟩, fun y => ?_⟩
      rw [List.mem_cons, List.mem_cons, hl', or_assoc]

/-- Merging the tile behind `b` into `b`. -/
theorem merge (ht : Tiled size lo hi l) (hb : b ∈ l) (hc : b + size b ∈ l)
    (hsize : size' b = size b + size (b + size b)) (hother : ∀ y ∈ l, y ≠ b → size' y = size y) :
    ∃ l', Tiled size' lo hi l' ∧ ∀ y, y ∈ l' ↔ y ∈ l ∧ y ≠ b + size b := by
  have hpos := (ht.mem_range hb).2.2
  induction l generalizing lo with
  | nil => cases hb
  | cons d l ih =>
    have hnodup := ht.nodup
    rw [List.nodup_cons] at hnodup
    obtain ⟨rfl, hd, ht⟩ := ht
    rcases List.mem_cons.1 hb with rfl | hb'
    · obtain hc' := (List.mem_cons.1 hc).resolve_left (by omega)
      obtain _ | ⟨c, l⟩ := l
      · cases hc'
      obtain ⟨rfl, -, ht⟩ := ht
      rw [List.nodup_cons] at hnodup
      refine ⟨b :: l, ⟨rfl, by omega, ?_⟩, fun y => ?_⟩
      · rw [hsize, ← Nat.add_assoc]
        refine ht.congr fun y hy => hother y (by simp [hy]) ?_
        rintro rfl
        exact hnodup.1 (List.mem_cons_of_mem _ hy)
      · have hne : ∀ z ∈ l, z ≠ b + size b := fun z hz heq => hnodup.2.1 (heq ▸ hz)
        simp only [List.mem_cons]
        constructor
        · rintro (rfl | hy)
          · exact ⟨.inl rfl, by omega⟩
          · exact ⟨.inr (.inr hy), hne y hy⟩
        · rintro ⟨rfl | rfl | hy, hne'⟩
          · exact .inl rfl
          · exact absurd rfl hne'
          · exact .inr hy
    · have hbd : d ≠ b := by
        rintro rfl
        exact hnodup.1 hb'
      have hcd : b + size b ≠ d := by
        have := (ht.mem_range hb').1
        omega
      obtain ⟨l', ht', hl'⟩ := ih ht hb' ((List.mem_cons.1 hc).resolve_left hcd)
        fun y hy hne => hother y (List.mem_cons_of_mem _ hy) hne
      have hsd : size' d = size d := hother d (List.mem_cons_self ..) hbd
      refine ⟨d :: l', ⟨rfl, by omega, hsd ▸ ht'⟩, fun y => ?_⟩
      rw [List.mem_cons, List.mem_cons, hl']
      constructor
      · rintro (rfl | hy)
        · exact ⟨.inl rfl, Ne.symm hcd⟩
        · exact ⟨.inr hy.1, hy.2⟩
      · rintro ⟨rfl | hy, hne⟩
        · exact .inl rfl
        · exact .inr ⟨hy, hne⟩

end Tiled

/-- Disjoint intervals in `[lo, hi)` are together no longer than it. -/
theorem sum_le_of_disjoint {size : Nat → Nat} {lo hi : Nat} {l : List Nat} (hnodup : l.Nodup)
    (hdis : ∀ a ∈ l, ∀ b ∈ l, a ≠ b → a + size a ≤ b ∨ b + size b ≤ a)
    (hrange : ∀ a ∈ l, lo ≤ a ∧ a + size a ≤ hi) : (l.map size).sum ≤ hi - lo := by
  have hsub : (l.toFinset.biUnion fun a => Finset.Ico a (a + size a)) ⊆ Finset.Ico lo hi := by
    intro x hx
    obtain ⟨a, ha, hxa⟩ := Finset.mem_biUnion.1 hx
    have := hrange a (List.mem_toFinset.1 ha)
    rw [Finset.mem_Ico] at hxa ⊢
    omega
  have hcard := Finset.card_le_card hsub
  rw [Finset.card_biUnion, Nat.card_Ico] at hcard
  · simpa [List.sum_toFinset _ hnodup] using hcard
  · intro a ha b hb hne
    rw [Finset.mem_coe, List.mem_toFinset] at ha hb
    refine Finset.disjoint_left.2 fun x hxa hxb => ?_
    rw [Finset.mem_Ico] at hxa hxb
    rcases hdis a ha b hb hne with h | h <;> omega

end NewM2
