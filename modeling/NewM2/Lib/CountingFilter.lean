import Mathlib

/-!
# Counting Bloom filters with saturating counters

A key stands in the slots `slots x`. A filter over-approximates a set of keys: it accepts those with
no empty slot. Counters stop at `limit` and stay there. A filter counts a set (`Counts`) when
every counter is stuck at `limit` or is the number of keys of the set that stand in it; adding a new
key and taking a key of the set keep this, and then every key of the set is accepted. Taking
another key that happens to be accepted takes its count from them, unless its counters are stuck
(`Counts.undercounts`); taking the keys of an undercounted slot then empties its counter too early
(`Undercounts.take`).
-/

namespace NewM2.CountingFilter

variable {α ι : Type} [DecidableEq ι] {slots : α → Finset ι} {limit : ℕ} {c : ι → ℕ} {live : Finset α}
  {x : α} {i : ι}

/-- How many keys stand in a slot. -/
def load (slots : α → Finset ι) (live : Finset α) (i : ι) : ℕ :=
  (live.filter (i ∈ slots ·)).card

/-- Count one more in a slot that is not stuck. -/
def bump (limit n : ℕ) : ℕ := if n = limit then n else n + 1

/-- Count one less in a slot that is neither empty nor stuck. -/
def drop (limit n : ℕ) : ℕ := if n = 0 ∨ n = limit then n else n - 1

def add (slots : α → Finset ι) (limit : ℕ) (c : ι → ℕ) (x : α) (i : ι) : ℕ :=
  if i ∈ slots x then bump limit (c i) else c i

def take (slots : α → Finset ι) (limit : ℕ) (c : ι → ℕ) (x : α) (i : ι) : ℕ :=
  if i ∈ slots x then drop limit (c i) else c i

def Accepts (slots : α → Finset ι) (c : ι → ℕ) (x : α) : Prop := ∀ i ∈ slots x, c i ≠ 0

/-- Every counter of a key is stuck. -/
def Stuck (slots : α → Finset ι) (limit : ℕ) (c : ι → ℕ) (x : α) : Prop := ∀ i ∈ slots x, c i = limit

/-- The filter counts the keys of `live`. -/
def Counts (slots : α → Finset ι) (limit : ℕ) (c : ι → ℕ) (live : Finset α) : Prop :=
  ∀ i, c i = limit ∨ c i < limit ∧ c i = load slots live i

/-- A counter that is not stuck has lost count of a key. -/
def Undercounts (slots : α → Finset ι) (limit : ℕ) (c : ι → ℕ) (live : Finset α) (i : ι) : Prop :=
  c i < limit ∧ c i < load slots live i

theorem load_pos (hx : x ∈ live) (hi : i ∈ slots x) : 0 < load slots live i :=
  Finset.card_pos.2 ⟨x, Finset.mem_filter.2 ⟨hx, hi⟩⟩

theorem exists_of_load_pos (h : 0 < load slots live i) : ∃ x ∈ live, i ∈ slots x := by
  obtain ⟨x, hx⟩ := Finset.card_pos.1 h
  exact ⟨x, (Finset.mem_filter.1 hx).1, (Finset.mem_filter.1 hx).2⟩

theorem Counts.empty (hlimit : 0 < limit) : Counts slots limit (fun _ => 0) ∅ :=
  fun _ => .inr ⟨hlimit, rfl⟩

/-- A key of the set is accepted. -/
theorem Counts.accepts (h : Counts slots limit c live) (hlimit : 0 < limit) (hx : x ∈ live) :
    Accepts slots c x := by
  intro i hi
  rcases h i with hc | ⟨-, hc⟩
  · omega
  · have := load_pos hx hi
    omega

theorem take_of_stuck (h : Stuck slots limit c x) : take slots limit c x = c := by
  funext i
  unfold take drop
  split_ifs with hi hc
  · rfl
  · exact absurd (.inr (h i hi)) hc
  · rfl

/-- What is accepted and not in the set takes its count from keys that are. -/
theorem Counts.undercounts (h : Counts slots limit c live) (hx : Accepts slots c x)
    (hstuck : ¬ Stuck slots limit c x) : ∃ i, Undercounts slots limit (take slots limit c x) live i := by
  simp only [Stuck, not_forall] at hstuck
  obtain ⟨i, hi, hlimit⟩ := hstuck
  obtain ⟨hlt, hload⟩ := (h i).resolve_left hlimit
  have hpos := hx i hi
  refine ⟨i, ?_⟩
  unfold Undercounts take drop
  rw [if_pos hi, if_neg (by omega)]
  omega

variable [DecidableEq α]

theorem load_insert (hx : x ∉ live) :
    load slots (insert x live) i = load slots live i + if i ∈ slots x then 1 else 0 := by
  unfold load
  rw [Finset.filter_insert]
  split_ifs with hi
  · exact Finset.card_insert_of_notMem fun h => hx (Finset.mem_filter.1 h).1
  · rfl

theorem load_erase (hx : x ∈ live) :
    load slots (live.erase x) i + (if i ∈ slots x then 1 else 0) = load slots live i := by
  rw [← load_insert (Finset.notMem_erase x live), Finset.insert_erase hx]

theorem Counts.add (h : Counts slots limit c live) (hx : x ∉ live) :
    Counts slots limit (add slots limit c x) (insert x live) := by
  intro i
  rw [load_insert hx, CountingFilter.add]
  split_ifs with hi
  · unfold bump
    split_ifs with hc
    · exact .inl hc
    · obtain ⟨hlt, hload⟩ := (h i).resolve_left hc
      omega
  · exact h i

theorem Counts.take (h : Counts slots limit c live) (hx : x ∈ live) :
    Counts slots limit (take slots limit c x) (live.erase x) := by
  intro i
  have hload : load slots (live.erase x) i + (if i ∈ slots x then 1 else 0) = load slots live i :=
    load_erase hx
  rw [CountingFilter.take]
  split_ifs at hload ⊢ with hi
  · unfold drop
    rcases h i with hc | ⟨hlt, hc⟩
    · exact .inl (by rw [if_pos (.inr hc), hc])
    · rw [if_neg (by omega)]
      omega
  · have hcount := h i
    rwa [← hload, Nat.add_zero] at hcount

/-- Taking a key of the set leaves a lost count lost. -/
theorem Undercounts.take (h : Undercounts slots limit c live i) (hx : x ∈ live) (hi : i ∈ slots x)
    (haccepts : Accepts slots c x) :
    Undercounts slots limit (take slots limit c x) (live.erase x) i ∧
      CountingFilter.take slots limit c x i < c i := by
  have hload : load slots (live.erase x) i + (if i ∈ slots x then 1 else 0) = load slots live i :=
    load_erase hx
  have hpos := haccepts i hi
  obtain ⟨hlimit, hlt⟩ := h
  unfold Undercounts CountingFilter.take drop
  rw [if_pos hi] at hload ⊢
  rw [if_neg (by omega)]
  omega

end NewM2.CountingFilter
