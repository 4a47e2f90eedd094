import Mathlib

/-!
# Sorted tables

A list of pairs of keys and values, sorted by key and rid of repeated keys, is searched by bisection.
`SortedTable.lookup_table` says what is found: the value that stood first in the list. -/

namespace NewM2.SortedTable

section sortedTable
variable {κ ν : Type} [LinearOrder κ]

/-- The sort is stable. -/
def sortByKey (entries : List (κ × ν)) : List (κ × ν) :=
  entries.mergeSort fun a b => decide (a.1 ≤ b.1)

/-- Of neighbours with one key the first is left. -/
def dedupByKey (entries : List (κ × ν)) : List (κ × ν) := entries.destutter fun a b => a.1 ≠ b.1

def table (entries : List (κ × ν)) : List (κ × ν) := dedupByKey (sortByKey entries)

/-- Bisect the entries from `left` to `right`. -/
def bisect (entries : List (κ × ν)) (key : κ) (left right : Nat) : Option Nat :=
  if left < right then
    let mid := left + (right - left) / 2
    match entries[mid]? with
    | none => none
    | some e =>
      if e.1 < key then bisect entries key (mid + 1) right
      else if key < e.1 then bisect entries key left mid
      else some mid
  else none
termination_by right - left

def binarySearch (entries : List (κ × ν)) (key : κ) : Option Nat := bisect entries key 0 entries.length

def lookup (entries : List (κ × ν)) (key : κ) : Option ν := do
  let i ← binarySearch entries key
  let e ← entries[i]?
  return e.2

/-- Strictly sorted by key. -/
def Sorted (entries : List (κ × ν)) : Prop := entries.Pairwise fun a b => a.1 < b.1

variable {entries : List (κ × ν)} {key : κ} {e : κ × ν} {left right i : Nat}

theorem keyLe_trans (a b c : κ × ν) (hab : decide (a.1 ≤ b.1) = true) (hbc : decide (b.1 ≤ c.1) = true) :
    decide (a.1 ≤ c.1) = true :=
  decide_eq_true ((of_decide_eq_true hab).trans (of_decide_eq_true hbc))

theorem keyLe_total (a b : κ × ν) : (decide (a.1 ≤ b.1) || decide (b.1 ≤ a.1)) = true := by
  simpa using le_total a.1 b.1

theorem pairwise_sortByKey (entries : List (κ × ν)) : (sortByKey entries).Pairwise fun a b => a.1 ≤ b.1 :=
  (List.pairwise_mergeSort keyLe_trans keyLe_total entries).imp fun hab => of_decide_eq_true hab

theorem sortByKey_cons (e : κ × ν) (entries : List (κ × ν)) : ∃ l₁ l₂, sortByKey (e :: entries) = l₁ ++ e :: l₂ ∧
    sortByKey entries = l₁ ++ l₂ ∧ ∀ a ∈ l₁, a.1 < e.1 := by
  obtain ⟨l₁, l₂, hcons, hsort, hlt⟩ := List.mergeSort_cons keyLe_trans keyLe_total e entries
  refine ⟨l₁, l₂, hcons, hsort, fun a ha => ?_⟩
  simpa using hlt a ha

/-- The sort keeps the order of the entries with one key. -/
theorem find?_sortByKey (entries : List (κ × ν)) (key : κ) :
    (sortByKey entries).find? (·.1 = key) = entries.find? (·.1 = key) := by
  induction entries with
  | nil => rw [sortByKey, List.mergeSort_nil]
  | cons e entries ih =>
    obtain ⟨l₁, l₂, hcons, hsort, hlt⟩ := sortByKey_cons e entries
    rw [hsort, List.find?_append] at ih
    rw [hcons, List.find?_append]
    by_cases hkey : e.1 = key
    · have hnone : l₁.find? (·.1 = key) = none := by
        rw [List.find?_eq_none]
        intro a ha
        simpa using ((hlt a ha).trans_eq hkey).ne
      rw [hnone, Option.none_or, List.find?_cons_of_pos (by simpa using hkey),
        List.find?_cons_of_pos (by simpa using hkey)]
    · rw [List.find?_cons_of_neg (by simpa using hkey), List.find?_cons_of_neg (by simpa using hkey), ih]

theorem find?_destutter' (e : κ × ν) (entries : List (κ × ν)) (key : κ) :
    (entries.destutter' (fun a b => a.1 ≠ b.1) e).find? (·.1 = key) = (e :: entries).find? (·.1 = key) := by
  induction entries generalizing e with
  | nil => rfl
  | cons a entries ih =>
    by_cases hne : e.1 ≠ a.1
    · rw [List.destutter'_cons_pos entries hne]
      by_cases hkey : e.1 = key
      · rw [List.find?_cons_of_pos (by simpa using hkey), List.find?_cons_of_pos (by simpa using hkey)]
      · rw [List.find?_cons_of_neg (by simpa using hkey), List.find?_cons_of_neg (by simpa using hkey), ih]
    · rw [List.destutter'_cons_neg entries hne, ih]
      rw [not_not] at hne
      by_cases hkey : e.1 = key
      · rw [List.find?_cons_of_pos (by simpa using hkey), List.find?_cons_of_pos (by simpa using hkey)]
      · have hkey' : a.1 ≠ key := hne ▸ hkey
        rw [List.find?_cons_of_neg (by simpa using hkey), List.find?_cons_of_neg (by simpa using hkey),
          List.find?_cons_of_neg (by simpa using hkey')]

theorem find?_table (entries : List (κ × ν)) (key : κ) :
    (table entries).find? (·.1 = key) = entries.find? (·.1 = key) := by
  rw [← find?_sortByKey entries, table, dedupByKey]
  rcases sortByKey entries with - | ⟨e, sorted⟩
  · rfl
  · exact find?_destutter' e sorted key

theorem sorted_table (entries : List (κ × ν)) : Sorted (table entries) := by
  have hle : (table entries).Pairwise fun a b => a.1 ≤ b.1 :=
    (pairwise_sortByKey entries).sublist (List.destutter_sublist ..)
  have hne : (table entries).IsChain fun a b => a.1 ≠ b.1 := List.isChain_destutter ..
  have htrans : IsTrans (κ × ν) fun a b => a.1 < b.1 := ⟨fun _ _ _ => lt_trans⟩
  refine List.isChain_iff_pairwise.1 (List.isChain_iff_getElem.2 fun i hi => ?_)
  exact lt_of_le_of_ne (List.isChain_iff_getElem.1 hle.isChain i hi) (List.isChain_iff_getElem.1 hne i hi)

theorem Sorted.lt (h : Sorted entries) {j : Nat} {a b : κ × ν} (ha : entries[i]? = some a)
    (hb : entries[j]? = some b) (hij : i < j) : a.1 < b.1 := by
  obtain ⟨hi, rfl⟩ := List.getElem?_eq_some_iff.1 ha
  obtain ⟨hj, rfl⟩ := List.getElem?_eq_some_iff.1 hb
  exact List.pairwise_iff_getElem.1 h i j hi hj hij

theorem Sorted.find?_eq (h : Sorted entries) (hi : entries[i]? = some e) (hkey : e.1 = key) :
    entries.find? (·.1 = key) = some e := by
  refine List.find?_eq_some_iff_getElem.2 ⟨by simpa using hkey, ?_⟩
  obtain ⟨hlt, rfl⟩ := List.getElem?_eq_some_iff.1 hi
  refine ⟨i, hlt, rfl, fun j hj => ?_⟩
  have hne := (List.pairwise_iff_getElem.1 h j i (hj.trans hlt) hlt hj).trans_eq hkey
  simpa using hne.ne

/-- Bisecting a part of the table outside of which the key does not stand. -/
theorem bisect_spec (key : κ) (h : Sorted entries) (hright : right ≤ entries.length)
    (hout : ∀ j a, entries[j]? = some a → a.1 = key → left ≤ j ∧ j < right) :
    (bisect entries key left right).bind (entries[·]?) = entries.find? (·.1 = key) := by
  fun_induction bisect entries key left right with
  | case1 left right hlt mid hmid =>
    have hlen := List.getElem?_eq_none_iff.1 hmid
    have hmid' : mid = left + (right - left) / 2 := rfl
    omega
  | case2 left right hlt mid e hmid hless ih =>
    refine ih hright fun j a ha hkey => ⟨?_, (hout j a ha hkey).2⟩
    by_contra hj
    rcases Nat.lt_or_eq_of_le (Nat.lt_succ_iff.1 (not_le.1 hj)) with hj | rfl
    · exact absurd (h.lt ha hmid hj) (not_lt.2 (hkey ▸ hless.le))
    · rw [Option.some.inj (hmid.symm.trans ha), hkey] at hless
      exact lt_irrefl _ hless
  | case3 left right hlt mid e hmid hless hgreater ih =>
    have hmid' : mid = left + (right - left) / 2 := rfl
    refine ih (by omega) fun j a ha hkey => ⟨(hout j a ha hkey).1, ?_⟩
    by_contra hj
    rcases Nat.lt_or_eq_of_le (not_lt.1 hj) with hj | rfl
    · exact absurd (h.lt hmid ha hj) (not_lt.2 (hkey ▸ hgreater.le))
    · rw [Option.some.inj (hmid.symm.trans ha), hkey] at hgreater
      exact lt_irrefl _ hgreater
  | case4 left right hlt mid e hmid hless hgreater =>
    have hkey : e.1 = key := le_antisymm (not_lt.1 hgreater) (not_lt.1 hless)
    rw [Option.bind_some, h.find?_eq hmid hkey, hmid]
  | case5 left right hle =>
    rw [Option.bind_none, eq_comm, List.find?_eq_none]
    intro a ha
    obtain ⟨j, hj, rfl⟩ := List.getElem_of_mem ha
    by_contra hkey
    have hj' := hout j _ (List.getElem?_eq_getElem hj) (by simpa using hkey)
    omega

/-- The value found is the one that stood first. -/
theorem lookup_table (entries : List (κ × ν)) (key : κ) :
    lookup (table entries) key = (entries.find? (·.1 = key)).map (·.2) := by
  have hspec := bisect_spec key (sorted_table entries) le_rfl fun j a ha _ =>
    ⟨Nat.zero_le j, (List.getElem?_eq_some_iff.1 ha).1⟩
  rw [← find?_table, ← hspec, lookup, binarySearch]
  cases bisect (table entries) key 0 (table entries).length with
  | none => rfl
  | some i =>
    simp only [bind, Option.bind, pure, Option.map]
    cases (table entries)[i]? <;> rfl

end sortedTable

end NewM2.SortedTable
