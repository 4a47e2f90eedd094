import NewM2.Iso.Strings

/-!
# Comparing strings (`library/isomod/Strings.mod`)

`compare` goes by the first characters that differ, which is the lexicographic order of the values
(`compare_lexicographic`), and `findDiff` gives the place of that difference (`findDiff_first`). `findPrev` scans
forward and keeps the last place of the pattern that is not behind the start index (`findPrev_last`); it needs no
care for indices near MAX(CARDINAL). -/

namespace NewM2.Iso.Strings
open Chars Search

inductive CompareResults
  | less | equal | greater
deriving Repr, DecidableEq

def compareLoop (stringVal1 stringVal2 : Chars) (l1 l2 i : Nat) : Except Fault CompareResults :=
  if i < l1 ∧ i < l2 then do
    let c ← stringVal1.get i
    let d ← stringVal2.get i
    if c < d then .ok .less
    else if d < c then .ok .greater
    else compareLoop stringVal1 stringVal2 l1 l2 (i + 1)
  else if l1 < l2 then .ok .less
  else if l2 < l1 then .ok .greater
  else .ok .equal
termination_by l1 - i

def compare (stringVal1 stringVal2 : Chars) : Except Fault CompareResults :=
  compareLoop stringVal1 stringVal2 stringVal1.length stringVal2.length 0

def equal (stringVal1 stringVal2 : Chars) : Except Fault Bool := do
  let r ← compare stringVal1 stringVal2
  .ok (r = .equal)

/-- The loop of `FindDiff`: the first index from `i` on with two characters. -/
def findDiffLoop (stringVal1 stringVal2 : Chars) (m i : Nat) : Except Fault (Option Nat) :=
  if i < m then do
    let c ← stringVal1.get i
    let d ← stringVal2.get i
    if c ≠ d then .ok (some i) else findDiffLoop stringVal1 stringVal2 m (i + 1)
  else .ok none
termination_by m + 1 - i

/-- Whether there is a difference, and the position. -/
def findDiff (stringVal1 stringVal2 : Chars) : Except Fault (Bool × Nat) := do
  let l1 := stringVal1.length
  let l2 := stringVal2.length
  let m := if l1 < l2 then l1 else l2
  match ← findDiffLoop stringVal1 stringVal2 m 0 with
  | some i => .ok (true, i)
  | none => if l1 ≠ l2 then .ok (true, m) else .ok (false, 0)

/-- Whether the pattern has been found, and the position, from `i` on. -/
def findPrevLoop (pattern stringToSearch : Chars) (startIndex i : Nat) (found : Bool × Nat) :
    Except Fault (Bool × Nat) :=
  if wrap (i + pattern.length) ≤ stringToSearch.length ∧ i ≤ startIndex then do
    if ← matchAt id stringToSearch pattern i pattern.length then
      findPrevLoop pattern stringToSearch startIndex (wrap (i + 1)) (true, i)
    else findPrevLoop pattern stringToSearch startIndex (wrap (i + 1)) found
  else .ok found
termination_by 2 ^ 64 - wrap (i + pattern.length)
decreasing_by
  all_goals
    have hlt := stringToSearch.length_lt
    simp only [wrap] at *
    omega

def findPrev (pattern stringToSearch : Chars) (startIndex : Word) : Except Fault (Bool × Nat) :=
  if pattern.length = 0 then .ok (true, startIndex.toNat)
  else if stringToSearch.length < pattern.length then .ok (false, startIndex.toNat)
  else findPrevLoop pattern stringToSearch startIndex.toNat 0 (false, startIndex.toNat)

/-! ## The order -/

variable {a b s pattern : Chars} {i start : Nat} {allowed : Fault → Prop}

/-- `r` is the order of `u` and `v`. -/
def CompareResults.IsOrder (r : CompareResults) (u v : List Code) : Prop :=
  match r with
  | .less => u < v
  | .equal => u = v
  | .greater => v < u

theorem compareLoop_runs {i : Nat} (ha : i ≤ a.length) (hb : i ≤ b.length) :
    Runs allowed (compareLoop a b a.length b.length i) fun r =>
      r.IsOrder (a.text.drop i) (b.text.drop i) := by
  have hla := a.length_eq
  have hlb := b.length_eq
  rw [compareLoop]
  split_ifs with hmore hlt hgt
  · obtain ⟨c, hc, hgetc⟩ := get_text hmore.1
    obtain ⟨d, hd, hgetd⟩ := get_text hmore.2
    obtain ⟨hia, rfl⟩ := List.getElem?_eq_some_iff.1 hc
    obtain ⟨hib, rfl⟩ := List.getElem?_eq_some_iff.1 hd
    rw [hgetc, hgetd]
    change Runs allowed (if _ then _ else if _ then _ else _) _
    rw [List.drop_eq_getElem_cons hia, List.drop_eq_getElem_cons hib]
    split_ifs with hless hgreater
    · exact Runs.ok (List.cons_lt_cons_iff.2 (.inl hless))
    · exact Runs.ok (List.cons_lt_cons_iff.2 (.inl hgreater))
    · have heq : a.text[i] = b.text[i] := BitVec.le_antisymm (BitVec.not_lt.1 hgreater) (BitVec.not_lt.1 hless)
      refine (compareLoop_runs (Nat.succ_le_of_lt hmore.1) (Nat.succ_le_of_lt hmore.2)).mono fun r hr => ?_
      cases r with
      | less => exact List.cons_lt_cons_iff.2 (.inr ⟨heq, hr⟩)
      | equal => exact congrArg₂ List.cons heq hr
      | greater => exact List.cons_lt_cons_iff.2 (.inr ⟨heq.symm, hr⟩)
  · refine Runs.ok ?_
    rw [List.drop_of_length_le (by omega), List.drop_eq_getElem_cons (by omega : i < b.text.length)]
    exact List.nil_lt_cons _ _
  · refine Runs.ok ?_
    rw [List.drop_of_length_le (by omega : b.text.length ≤ i),
      List.drop_eq_getElem_cons (by omega : i < a.text.length)]
    exact List.nil_lt_cons _ _
  · refine Runs.ok ?_
    rw [List.drop_of_length_le (by omega), List.drop_of_length_le (by omega)]
    rfl
termination_by a.length - i

/-- Compare never reads outside of its strings and gives their lexicographic order, so Equal says whether they
have one value. -/
theorem compare_lexicographic (a b : Chars) :
    (∃ r, compare a b = .ok r ∧ (r = .less ↔ a.text < b.text) ∧ (r = .equal ↔ a.text = b.text) ∧
      (r = .greater ↔ b.text < a.text)) ∧ equal a b = .ok (decide (a.text = b.text)) := by
  have hruns : Runs (fun _ => False) (compareLoop a b a.length b.length 0) fun r =>
      r.IsOrder (a.text.drop 0) (b.text.drop 0) := compareLoop_runs (Nat.zero_le _) (Nat.zero_le _)
  obtain ⟨r, hr, horder⟩ := hruns.succeeds
  have hcompare : compare a b = .ok r := hr
  rw [List.drop_zero, List.drop_zero] at horder
  have hthree : (r = .less ↔ a.text < b.text) ∧ (r = .equal ↔ a.text = b.text) ∧
      (r = .greater ↔ b.text < a.text) := by
    cases r with
    | less =>
      have h : a.text < b.text := horder
      have hne : a.text ≠ b.text := fun heq => List.lt_irrefl _ (heq ▸ h)
      simp [h, hne, List.lt_asymm h]
    | equal =>
      have h : a.text = b.text := horder
      simp [h]
    | greater =>
      have h : b.text < a.text := horder
      have hne : a.text ≠ b.text := fun heq => List.lt_irrefl _ (heq ▸ h)
      simp [h, hne, List.lt_asymm h]
  refine ⟨⟨r, hcompare, hthree⟩, ?_⟩
  rw [equal, hcompare]
  change Except.ok (decide (r = .equal)) = _
  simp only [hthree.2.1]

/-! ## The first difference -/

theorem findDiffLoop_runs {m i : Nat} (ha : m ≤ a.length) (hb : m ≤ b.length) :
    Runs allowed (findDiffLoop a b m i) (First (fun k => k < m ∧ a.text[k]? ≠ b.text[k]?) i) := by
  rw [findDiffLoop]
  split_ifs with hmore
  · obtain ⟨c, hc, hgetc⟩ := get_text (hmore.trans_le ha)
    obtain ⟨d, hd, hgetd⟩ := get_text (hmore.trans_le hb)
    rw [hgetc, hgetd]
    change Runs allowed (if c ≠ d then _ else _) _
    split_ifs with hdiff
    · refine Runs.ok ⟨Nat.le_refl i, ⟨hmore, ?_⟩, fun k hik hki => absurd hki (Nat.not_lt.2 hik)⟩
      rwa [hc, hd, ne_eq, Option.some.injEq]
    · have hnot : ¬ (i < m ∧ a.text[i]? ≠ b.text[i]?) := fun hP => hP.2 (by rw [hc, hd, not_not.1 hdiff])
      exact (findDiffLoop_runs ha hb).mono fun r hr => First.of_succ hnot hr
  · exact Runs.ok fun k hik hP => absurd hP.1 (by omega)
termination_by m - i

/-- FindDiff gives the first place where the values differ, the end of one of them included, and never reads
outside of the strings. -/
theorem findDiff_first (a b : Chars) :
    ∃ r, findDiff a b = .ok r ∧ Found (fun k => a.text[k]? ≠ b.text[k]?) 0 r ∧
      (r.1 = true ↔ a.text ≠ b.text) := by
  have hla := a.length_eq
  have hlb := b.length_eq
  have hm : ∃ m, m = min a.length b.length ∧ m = if a.length < b.length then a.length else b.length := by
    refine ⟨_, rfl, ?_⟩
    split_ifs <;> omega
  obtain ⟨m, hmin, hm⟩ := hm
  have hruns : Runs (fun _ => False) (findDiffLoop a b m 0) (First (fun k => k < m ∧ a.text[k]? ≠ b.text[k]?) 0) :=
    findDiffLoop_runs (by omega) (by omega)
  obtain ⟨r, hr, hfirst⟩ := hruns.succeeds
  cases r with
  | some i =>
    obtain ⟨-, ⟨him, hdiff⟩, hbefore⟩ := hfirst
    refine ⟨(true, i), ?_, ⟨Nat.zero_le i, hdiff, fun k hk hki hP => hbefore k hk hki ⟨hki.trans him, hP⟩⟩, ?_⟩
    · simp only [findDiff, ← hm, hr]
      rfl
    · exact iff_of_true rfl fun heq => hdiff (by rw [heq])
  | none =>
    have hsame : ∀ k, k < m → a.text[k]? = b.text[k]? := fun k hk =>
      not_not.1 fun hP => hfirst k (Nat.zero_le k) ⟨hk, hP⟩
    by_cases hlen : a.length = b.length
    · have heq : a.text = b.text := by
        refine List.ext_getElem? fun k => ?_
        rcases Nat.lt_or_ge k m with hk | hk
        · exact hsame k hk
        · rw [List.getElem?_eq_none (by omega), List.getElem?_eq_none (by omega)]
      refine ⟨(false, 0), ?_, fun k _ hP => hP (by rw [heq]), iff_of_false Bool.false_ne_true (not_not.2 heq)⟩
      simp only [findDiff, ← hm, hr]
      exact if_neg (not_not.2 hlen)
    · have hdiff : a.text[m]? ≠ b.text[m]? := by
        intro h
        have hends : a.text.length ≤ m ↔ b.text.length ≤ m := by
          rw [← List.getElem?_eq_none_iff, ← List.getElem?_eq_none_iff, h]
        omega
      refine ⟨(true, m), ?_, ⟨Nat.zero_le m, hdiff, fun k _ hk hP => hP (hsame k hk)⟩,
        iff_of_true rfl fun heq => hdiff (by rw [heq])⟩
      simp only [findDiff, ← hm, hr]
      exact if_pos hlen

/-! ## Searching backwards -/

/-- The last index up to `start` that has `P`, if any. -/
def Last (P : Nat → Prop) (start : Nat) : Bool × Nat → Prop
  | (true, p) => p ≤ start ∧ P p ∧ ∀ k, p < k → k ≤ start → ¬ P k
  | (false, p) => p = start ∧ ∀ k, k ≤ start → ¬ P k

/-- `found` is right for the indices before `i`. -/
def LastBefore (P : Nat → Prop) (start i : Nat) : Bool × Nat → Prop
  | (true, p) => p ≤ start ∧ P p ∧ ∀ k, p < k → k < i → ¬ P k
  | (false, p) => p = start ∧ ∀ k, k < i → ¬ P k

theorem LastBefore.extend {P : Nat → Prop} {found : Bool × Nat} {j : Nat} (h : LastBefore P start i found)
    (hrest : ∀ k, i ≤ k → k < j → ¬ P k) : LastBefore P start j found := by
  have hsplit : ∀ k, k < i ∨ i ≤ k := fun k => Nat.lt_or_ge k i
  rcases found with ⟨- | -, p⟩
  · exact ⟨h.1, fun k hk => (hsplit k).elim (h.2 k) fun hik => hrest k hik hk⟩
  · exact ⟨h.1, h.2.1, fun k hpk hk => (hsplit k).elim (h.2.2 k hpk) fun hik => hrest k hik hk⟩

theorem LastBefore.last {P : Nat → Prop} {found : Bool × Nat} (h : LastBefore P start (start + 1) found) :
    Last P start found := by
  rcases found with ⟨- | -, p⟩
  · exact ⟨h.1, fun k hk => h.2 k (Nat.lt_succ_of_le hk)⟩
  · exact ⟨h.1, h.2.1, fun k hpk hk => h.2.2 k hpk (Nat.lt_succ_of_le hk)⟩

theorem findPrevLoop_runs {i : Nat} {found : Bool × Nat} (hpattern : pattern.text ≠ []) (hi : i ≤ s.length + 1)
    (hfound : LastBefore (OccursAt id pattern.text s.text) start i found) :
    Runs allowed (findPrevLoop pattern s start i found) (Last (OccursAt id pattern.text s.text) start) := by
  have hslen := s.length_lt
  have hplen := pattern.length_lt
  rw [findPrevLoop, wrap_of_lt (by omega)]
  split_ifs with hmore
  · refine (matchAt_runs hmore.1).bind fun r hr => ?_
    have hpos := List.length_pos_of_ne_nil hpattern
    rw [← length_eq] at hpos
    rw [wrap_of_lt (by omega)]
    split_ifs with hmatch
    · refine findPrevLoop_runs hpattern (by omega) ⟨hmore.2, hr.1 hmatch, fun k hik hk => ?_⟩
      omega
    · refine findPrevLoop_runs hpattern (by omega) (hfound.extend fun k hik hk hocc => hmatch (hr.2 ?_))
      rwa [show i = k by omega]
  · refine Runs.ok (hfound.extend fun k hik hk hocc => hmore ⟨?_, hik.trans (Nat.le_of_lt_succ hk)⟩).last
    have hle := hocc.le hpattern
    rw [← length_eq, ← length_eq] at hle
    omega
termination_by s.length + 1 - i

/-- FindPrev gives the last place of the pattern up to the start index, and never reads outside of the strings. -/
theorem findPrev_last (pattern s : Chars) (start : Word) :
    (pattern.text = [] → findPrev pattern s start = .ok (true, start.toNat)) ∧
      (pattern.text ≠ [] → ∃ r, findPrev pattern s start = .ok r ∧
        Last (OccursAt id pattern.text s.text) start.toNat r) := by
  have hplen := pattern.length_eq
  constructor
  · intro hpattern
    rw [findPrev, if_pos (by rw [hplen, hpattern]; rfl)]
  · intro hpattern
    have hpos := List.length_pos_of_ne_nil hpattern
    rw [findPrev, if_neg (by omega)]
    split_ifs with hshort
    · refine ⟨_, rfl, rfl, fun k _ hocc => ?_⟩
      have hle := hocc.le hpattern
      rw [← length_eq, ← length_eq] at hle
      omega
    · have hstart : LastBefore (OccursAt id pattern.text s.text) start.toNat 0 (false, start.toNat) :=
        ⟨rfl, fun k hk => absurd hk (Nat.not_lt_zero k)⟩
      have hruns : Runs (fun _ => False) (findPrevLoop pattern s start.toNat 0 (false, start.toNat))
          (Last (OccursAt id pattern.text s.text) start.toNat) :=
        findPrevLoop_runs hpattern (Nat.zero_le _) hstart
      exact hruns.succeeds

end NewM2.Iso.Strings
