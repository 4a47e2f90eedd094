import Mathlib
import NewM2.Lib.Search

/-!
# Strings (`library/isomod/Strings.mod`)

The procedures that construct a string value and assign it to a variable, and the predicates that say
whether they can do so in full. Source strings are taken as values, so none of them is the destination.
An index or a count is any CARDINAL, and sums of them wrap around. -/

namespace NewM2.Iso.Strings
open Chars Search

/-- CARDINAL -/
abbrev Word := BitVec 64

def assign (source destination : Chars) : Except Fault Chars := do
  let n := source.length
  let (i, destination) ← copyLoop source 0 0 n (fun i => i ≤ destination.high) 0 destination
  terminate i destination

def extract (source : Chars) (startIndex numberToExtract : Word) (destination : Chars) :
    Except Fault Chars := do
  let srcLen := source.length
  let (i, destination) ← copyLoop source startIndex.toNat 0 numberToExtract.toNat
    (fun i => wrap (startIndex.toNat + i) < srcLen ∧ i ≤ destination.high) 0 destination
  terminate i destination

/-- The WHILE loop of `Delete`; `old` is the array before it. -/
def deleteLoop (old : Chars) (numberToDelete i : Nat) (stringVar : Chars) : Except Fault (Nat × Chars) :=
  if wrap (i + numberToDelete) < old.length then do
    let c ← stringVar.get (wrap (i + numberToDelete))
    let stringVar ← stringVar.put i c
    deleteLoop old numberToDelete (wrap (i + 1)) stringVar
  else .ok (i, stringVar)
termination_by 2 ^ 64 - wrap (i + numberToDelete)
decreasing_by
  have hlt := old.length_lt
  simp only [wrap] at *
  omega

def delete (stringVar : Chars) (startIndex numberToDelete : Word) : Except Fault Chars := do
  let len := stringVar.length
  if len ≤ startIndex.toNat then .ok stringVar
  else
    let (i, stringVar) ← deleteLoop stringVar numberToDelete.toNat startIndex.toNat stringVar
    terminate i stringVar

/-- The loop of `Insert` that shifts the tail, its last character first. -/
def shiftLoop (dlen slen cap tail k : Nat) (destination : Chars) : Except Fault Chars :=
  if k < tail then
    let src := dlen - 1 - k
    if wrap (src + slen) < cap then do
      let c ← destination.get src
      let destination ← destination.put (wrap (src + slen)) c
      shiftLoop dlen slen cap tail (k + 1) destination
    else shiftLoop dlen slen cap tail (k + 1) destination
  else .ok destination
termination_by tail - k

def insert (source : Chars) (startIndex : Word) (destination : Chars) : Except Fault Chars := do
  let dlen := destination.length
  let slen := source.length
  let cap := destination.high + 1
  let startIndex := if dlen < startIndex.toNat then dlen else startIndex.toNat
  let tail := dlen - startIndex
  let destination ← shiftLoop dlen slen cap tail 0 destination
  let (_, destination) ← copyLoop source 0 startIndex slen (fun k => wrap (startIndex + k) < cap) 0 destination
  if wrap (dlen + slen) < cap then destination.put (wrap (dlen + slen)) nul else .ok destination

def replace (source : Chars) (startIndex : Word) (destination : Chars) : Except Fault Chars := do
  let dlen := destination.length
  let slen := source.length
  let (_, destination) ← copyLoop source 0 startIndex.toNat slen
    (fun k => wrap (startIndex.toNat + k) < dlen) 0 destination
  .ok destination

def append (source destination : Chars) : Except Fault Chars := do
  let dlen := destination.length
  let slen := source.length
  let cap := destination.high + 1
  let (k, destination) ← copyLoop source 0 dlen slen (fun k => wrap (dlen + k) < cap) 0 destination
  if wrap (dlen + k) < cap then destination.put (wrap (dlen + k)) nul else .ok destination

def concat (source1 source2 destination : Chars) : Except Fault Chars := do
  let destination ← assign source1 destination
  append source2 destination

def canAssignAll (sourceLength : Word) (destination : Chars) : Bool :=
  sourceLength.toNat ≤ destination.high + 1

def canExtractAll (sourceLength startIndex numberToExtract : Word) (destination : Chars) : Bool :=
  wrap (startIndex.toNat + numberToExtract.toNat) ≤ sourceLength.toNat ∧
    numberToExtract.toNat ≤ destination.high + 1

def canDeleteAll (stringLength startIndex numberToDelete : Word) : Bool :=
  wrap (startIndex.toNat + numberToDelete.toNat) ≤ stringLength.toNat

def canInsertAll (sourceLength startIndex : Word) (destination : Chars) : Bool :=
  startIndex.toNat ≤ destination.length ∧
    wrap (destination.length + sourceLength.toNat) ≤ destination.high + 1

def canReplaceAll (sourceLength startIndex : Word) (destination : Chars) : Bool :=
  wrap (startIndex.toNat + sourceLength.toNat) ≤ destination.length

def canAppendAll (sourceLength : Word) (destination : Chars) : Bool :=
  wrap (destination.length + sourceLength.toNat) ≤ destination.high + 1

def canConcatAll (source1Length source2Length : Word) (destination : Chars) : Bool :=
  wrap (source1Length.toNat + source2Length.toNat) ≤ destination.high + 1

/-- Whether the pattern is found, and the position. -/
def findNext (pattern stringToSearch : Chars) (startIndex : Word) : Except Fault (Bool × Nat) := do
  let slen := stringToSearch.length
  let plen := pattern.length
  if plen = 0 then .ok (true, startIndex.toNat)
  else if slen ≤ startIndex.toNat then .ok (false, startIndex.toNat)
  else
    match ← scan stringToSearch plen (fun i => matchAt id stringToSearch pattern i plen) startIndex.toNat with
    | some i => .ok (true, i)
    | none => .ok (false, startIndex.toNat)

/-! ## Searching -/

/-- A start index beyond the text is taken care of, so the search is exact for all. -/
theorem findNext_runs {allowed : Fault → Prop} (pattern s : Chars) (start : Word) (hpattern : pattern.text ≠ []) :
    Runs allowed (findNext pattern s start) (Found (OccursAt id pattern.text s.text) start.toNat) := by
  have hpos := List.length_pos_of_ne_nil hpattern
  have hplen := pattern.length_lt
  have hslen := s.length_lt
  rw [← length_eq] at hpos
  rw [findNext, if_neg hpos.ne']
  split_ifs with hend
  · refine Runs.ok fun k hk hocc => ?_
    have hle := hocc.le hpattern
    rw [← length_eq, ← length_eq] at hle
    omega
  · refine (scan_matchAt (by omega) hpattern).bind fun r hr => ?_
    cases r with
    | none => exact Runs.ok hr
    | some p => exact Runs.ok hr

/-! ## The values that are assigned -/

variable {source source2 destination d e stringVar old : Chars} {startIndex count : Word}
  {i j k n : Nat} {allowed : Fault → Prop}

theorem assign_runs (source destination : Chars) :
    Runs allowed (assign source destination) (Assigned source.text destination) := by
  have hlen := source.length_le
  refine (copyLoop_runs (r := min source.length destination.size) (by omega) ?_ ?_ (by omega)
    (by omega)).bind ?_
  · intro k hk
    exact decide_eq_true (le_high_iff.2 (by omega))
  · intro h
    exact decide_eq_false (mt le_high_iff.1 (by omega))
  · rintro ⟨i, d⟩ ⟨rfl, hd⟩
    refine terminate_runs hd.size (by rw [length_eq]; omega) fun j hj hv => ?_
    rw [← length_eq] at hv
    rw [hd.cells, if_pos (by omega), getElem?_text (by omega), Nat.sub_zero, Nat.zero_add]

theorem extract_runs (source : Chars) (startIndex count : Word) (destination : Chars) :
    Runs allowed (extract source startIndex count destination)
      (Assigned ((source.text.drop startIndex.toNat).take count.toNat) destination) := by
  have hlen := source.length_le
  have hlt := source.length_lt
  have hstart := startIndex.isLt
  refine (copyLoop_runs (r := min (min count.toNat (source.length - startIndex.toNat)) destination.size)
    (by omega) ?_ ?_ (by omega) (by omega)).bind ?_
  · intro k hk
    refine decide_eq_true ⟨?_, le_high_iff.2 (by omega)⟩
    rw [wrap_of_lt (by omega)]
    omega
  · intro h
    refine decide_eq_false fun hmore => ?_
    rw [le_high_iff, wrap_of_lt (by omega)] at hmore
    omega
  · rintro ⟨i, d⟩ ⟨rfl, hd⟩
    have hv : ((source.text.drop startIndex.toNat).take count.toNat).length =
        min count.toNat (source.length - startIndex.toNat) := by
      rw [List.length_take, List.length_drop, ← length_eq]
    refine terminate_runs hd.size (by omega) fun j hj hjv => ?_
    · rw [hd.cells, if_pos (by omega), List.getElem?_take_of_lt (by omega), List.getElem?_drop,
        getElem?_text (by omega), Nat.sub_zero]

/-- The loop of `Insert`, `Replace` and `Append` that copies to an index on, below a bound. -/
theorem copyBelow_runs {s : Chars} {p m : Nat} (hp : p < 2 ^ 64) (hm : m ≤ d.size) (hs : n ≤ s.size) :
    Runs allowed (copyLoop s 0 p n (fun k => wrap (p + k) < m) 0 d) fun x =>
      x.1 = min n (m - p) ∧ Copied s.cells 0 p (min n (m - p)) d x.2 := by
  have hslt := s.size_lt
  have hdlt := d.size_lt
  refine copyLoop_runs (Nat.min_le_left _ _) (fun k hk => decide_eq_true ?_) (fun h => decide_eq_false ?_)
    (by omega) (by omega)
  · rw [wrap_of_lt (by omega)]
    omega
  · rw [wrap_of_lt (by omega)]
    omega

/-- Without a wrap the loop moves the cells down; the cells it has still to read are as before. -/
theorem deleteLoop_runs {i : Nat} {stringVar : Chars} (hn : i + n < 2 ^ 64) (hsize : stringVar.size = old.size)
    (hold : ∀ j, i ≤ j → stringVar.cells[j]? = old.cells[j]?) (hi : i ≤ old.length) :
    Runs allowed (deleteLoop old n i stringVar) fun r =>
      r.1 = max i (old.length - n) ∧ r.2.size = old.size ∧
        ∀ j, j < r.1 → r.2.cells[j]? = if j < i then stringVar.cells[j]? else old.cells[j + n]? := by
  have hlen := old.length_le
  have hlt := old.length_lt
  rw [deleteLoop, wrap_of_lt hn]
  split_ifs with hmore
  · have hin : i + n < old.cells.length := by rw [← Chars.size]; omega
    have hread : stringVar.cells[i + n]? = some old.cells[i + n] :=
      (hold _ (by omega)).trans (List.getElem?_eq_getElem hin)
    rw [get_of_getElem? hread, wrap_of_lt (by omega : i + 1 < 2 ^ 64)]
    refine (put_runs (by omega) _).bind fun s hs => ?_
    have hsize' : s.size = old.size := by rw [Chars.size, hs, List.length_set, ← Chars.size, hsize]
    have hold' : ∀ j, i + 1 ≤ j → s.cells[j]? = old.cells[j]? := fun j hj => by
      rw [hs, List.getElem?_set_ne (by omega), hold j (by omega)]
    refine (deleteLoop_runs (by omega) hsize' hold' (by omega)).mono ?_
    · rintro ⟨i', s'⟩ ⟨rfl, hs', hcells⟩
      refine ⟨by omega, hs', fun j hj => ?_⟩
      rw [hcells j hj, hs]
      rcases Nat.lt_trichotomy j i with h | rfl | h
      · rw [if_pos (by omega), if_pos h, List.getElem?_set_ne (by omega)]
      · rw [if_pos (by omega), if_neg (by omega), List.getElem?_set_self (by rw [← Chars.size]; omega)]
        exact (List.getElem?_eq_getElem hin).symm
      · rw [if_neg (by omega), if_neg (by omega)]
  · exact Runs.ok ⟨by omega, hsize, fun j hj => by rw [if_pos (by omega)]⟩
termination_by old.length - i

theorem delete_runs (h : stringVar.length ≤ startIndex.toNat ∨ startIndex.toNat + count.toNat < 2 ^ 64) :
    Runs allowed (delete stringVar startIndex count)
      (Assigned (stringVar.text.take startIndex.toNat ++
        stringVar.text.drop (startIndex.toNat + count.toNat)) stringVar) := by
  have hlen := stringVar.length_le
  have htext := stringVar.length_eq
  rw [delete]
  dsimp only
  split_ifs with hend
  · rw [List.take_of_length_le (by omega), List.drop_of_length_le (by omega), List.append_nil]
    exact Runs.ok (assigned_text stringVar)
  · refine (deleteLoop_runs (by omega) rfl (fun _ _ => rfl) (by omega)).bind ?_
    rintro ⟨i, s⟩ ⟨rfl, hsize, hcells⟩
    have hv : (stringVar.text.take startIndex.toNat ++
        stringVar.text.drop (startIndex.toNat + count.toNat)).length =
          max startIndex.toNat (stringVar.length - count.toNat) := by
      rw [List.length_append, List.length_take, List.length_drop, ← htext]
      omega
    refine terminate_runs hsize (by rw [hv]) fun j _ hj => ?_
    · rw [hcells j (by omega)]
      split_ifs with hj'
      · rw [List.getElem?_append_left (by rw [List.length_take, ← htext]; omega),
          List.getElem?_take_of_lt hj', getElem?_text (by omega)]
      · rw [List.getElem?_append_right (by rw [List.length_take, ← htext]; omega), List.getElem?_drop,
          List.length_take, ← htext, Nat.min_eq_left (by omega), getElem?_text (by omega)]
        congr 1
        omega

/-- With `k` characters shifted, those of the tail before them are as they were. -/
theorem shiftLoop_runs {slen start k : Nat} {e : Chars} (hstart : start ≤ d.length) (hslen : slen < 2 ^ 63)
    (hk : k ≤ d.length - start) (hsize : e.size = d.size)
    (hcells : ∀ j, e.cells[j]? =
      if d.length - k + slen ≤ j ∧ j < min (d.length + slen) d.size then d.cells[j - slen]? else d.cells[j]?) :
    Runs allowed (shiftLoop d.length slen d.size (d.length - start) k e) fun e' =>
      e'.size = d.size ∧ ∀ j, e'.cells[j]? =
        if start + slen ≤ j ∧ j < min (d.length + slen) d.size then d.cells[j - slen]? else d.cells[j]? := by
  have hlen := d.length_le
  have hlt := d.length_lt
  rw [shiftLoop]
  split_ifs with hmore
  · dsimp only
    rw [wrap_of_lt (by omega)]
    split_ifs with hin
    · have hread : d.length - 1 - k < d.cells.length := by rw [← Chars.size]; omega
      have hget : e.cells[d.length - 1 - k]? = some d.cells[d.length - 1 - k] := by
        rw [hcells, if_neg (by omega)]
        exact List.getElem?_eq_getElem hread
      rw [get_of_getElem? hget]
      refine (put_runs (by omega) _).bind fun e' he' => ?_
      refine shiftLoop_runs hstart hslen (by omega)
        (by rw [Chars.size, he', List.length_set, ← Chars.size, hsize]) fun j => ?_
      rw [he']
      by_cases hj : j = d.length - 1 - k + slen
      · subst hj
        rw [List.getElem?_set_self (by rw [← Chars.size]; omega), if_pos (by omega),
          Nat.add_sub_cancel, List.getElem?_eq_getElem]
      · rw [List.getElem?_set_ne (by omega), hcells j]
        by_cases hj' : d.length - k + slen ≤ j ∧ j < min (d.length + slen) d.size
        · rw [if_pos hj', if_pos (by omega)]
        · rw [if_neg hj', if_neg (by omega)]
    · refine shiftLoop_runs hstart hslen (by omega) hsize fun j => ?_
      rw [hcells j]
      by_cases hj' : d.length - k + slen ≤ j ∧ j < min (d.length + slen) d.size
      · rw [if_pos hj', if_pos (by omega)]
      · rw [if_neg hj', if_neg (by omega)]
  · have hk' : k = d.length - start := by omega
    subst hk'
    refine Runs.ok ⟨hsize, fun j => ?_⟩
    rw [hcells j, Nat.sub_sub_self hstart]
termination_by d.length - start - k

/-- What `Insert` makes of the destination, a character at a time. -/
theorem inserted_getElem? {start : Nat} (h : start ≤ destination.length) (j : Nat) :
    (destination.text.take start ++ source.text ++ destination.text.drop start)[j]? =
      if j < start then destination.text[j]? else if j < start + source.length then source.text[j - start]?
      else destination.text[j - source.length]? := by
  have htake : (destination.text.take start).length = start := by
    rw [List.length_take, ← length_eq, Nat.min_eq_left h]
  rw [List.append_assoc]
  split_ifs with h₁ h₂
  · rw [List.getElem?_append_left (by omega), List.getElem?_take_of_lt h₁]
  · rw [List.getElem?_append_right (by omega), htake,
      List.getElem?_append_left (by rw [← length_eq]; omega)]
  · rw [List.getElem?_append_right (by omega), htake,
      List.getElem?_append_right (by rw [← length_eq]; omega), List.getElem?_drop, ← length_eq]
    congr 1
    omega

theorem length_inserted {start : Nat} (h : start ≤ destination.length) :
    (destination.text.take start ++ source.text ++ destination.text.drop start).length =
      destination.length + source.length := by
  rw [List.length_append, List.length_append, List.length_take, List.length_drop, ← length_eq, ← length_eq]
  omega

/-- An index beyond the text is taken back to its end. -/
theorem inserted_min (start : Nat) : destination.text.take (min start destination.length) ++ source.text ++
      destination.text.drop (min start destination.length) =
    destination.text.take start ++ source.text ++ destination.text.drop start := by
  have htext := destination.length_eq
  rcases Nat.le_total start destination.length with h | h
  · rw [Nat.min_eq_left h]
  · rw [Nat.min_eq_right h, List.take_of_length_le (by omega : destination.text.length ≤ start),
      List.drop_of_length_le (by omega : destination.text.length ≤ start), htext, List.take_length,
      List.drop_length]

theorem insert_runs (source : Chars) (startIndex : Word) (destination : Chars) :
    Runs allowed (insert source startIndex destination)
      (Assigned (destination.text.take startIndex.toNat ++ source.text ++
        destination.text.drop startIndex.toNat) destination) := by
  have hlen := destination.length_le
  have hlt := destination.size_lt
  have hslen := source.length_lt
  have hslen' := source.length_le
  have hstart : (if destination.length < startIndex.toNat then destination.length
      else startIndex.toNat) = min startIndex.toNat destination.length := by
    split_ifs <;> omega
  rw [insert, ← inserted_min]
  dsimp only
  rw [hstart, high_add_one]
  generalize hs : min startIndex.toNat destination.length = start
  have hle : start ≤ destination.length := by omega
  refine (shiftLoop_runs hle hslen (Nat.zero_le _) rfl fun j => by rw [if_neg (by omega)]).bind ?_
  rintro e ⟨hesize, hecells⟩
  refine (copyBelow_runs (by omega) hesize.ge hslen').bind ?_
  rintro ⟨_, f⟩ ⟨-, hfsize, hfcells⟩
  dsimp only at hfsize hfcells ⊢
  rw [wrap_of_lt (by omega), ← hesize, ← hfsize, ← terminate_eq]
  refine terminate_runs (hfsize.trans hesize) (by rw [length_inserted hle]) fun j hj hjlen => ?_
  rw [length_inserted hle] at hjlen
  rw [hfcells, inserted_getElem? hle]
  by_cases h₁ : j < start
  · rw [if_neg (by omega), hecells, if_neg (by omega), if_pos h₁, getElem?_text (by omega)]
  · by_cases h₂ : j < start + source.length
    · rw [if_pos (by omega), if_neg h₁, if_pos h₂, getElem?_text (by omega), Nat.zero_add]
    · rw [if_neg (by omega), hecells, if_pos (by omega), if_neg h₁, if_neg h₂, getElem?_text (by omega)]

/-- What `Replace` makes of the destination, a character at a time. -/
theorem replaced_getElem? (start j : Nat) :
    (destination.text.take start ++ source.text.take (destination.length - start) ++
        destination.text.drop (start + source.length))[j]? =
      if start ≤ j ∧ j < start + min source.length (destination.length - start) then source.text[j - start]?
      else destination.text[j]? := by
  have htake : (destination.text.take start).length = min start destination.length := by
    rw [List.length_take, ← length_eq]
  have hmid : (source.text.take (destination.length - start)).length =
      min source.length (destination.length - start) := by
    rw [List.length_take, ← length_eq, Nat.min_comm]
  rw [List.append_assoc]
  by_cases h₁ : j < min start destination.length
  · rw [List.getElem?_append_left (by omega), if_neg (by omega), List.getElem?_take_of_lt (by omega)]
  · rw [List.getElem?_append_right (by omega), htake]
    by_cases h₂ : j < start + min source.length (destination.length - start)
    · by_cases h₃ : start < destination.length
      · rw [if_pos (by omega), List.getElem?_append_left (by omega), Nat.min_eq_left (by omega),
          List.getElem?_take_of_lt (by omega)]
      · rw [if_neg (by omega), List.getElem?_append_right (by omega), List.getElem?_drop,
          List.getElem?_eq_none (by rw [← length_eq]; omega), List.getElem?_eq_none (by rw [← length_eq]; omega)]
    · rw [if_neg (by omega), List.getElem?_append_right (by omega), hmid, List.getElem?_drop]
      rcases Nat.lt_or_ge j destination.length with h₃ | h₃
      · congr 1
        omega
      · rw [List.getElem?_eq_none (by rw [← length_eq]; omega),
          List.getElem?_eq_none (by rw [← length_eq]; omega)]

theorem replace_runs (source : Chars) (startIndex : Word) (destination : Chars) :
    Runs allowed (replace source startIndex destination)
      (Assigned (destination.text.take startIndex.toNat ++
        source.text.take (destination.length - startIndex.toNat) ++
        destination.text.drop (startIndex.toNat + source.length)) destination) := by
  have hlen := destination.length_le
  have hlt := destination.length_lt
  have hslen := source.length_lt
  have hslen' := source.length_le
  have hindex := startIndex.isLt
  refine (copyBelow_runs startIndex.isLt hlen hslen').bind ?_
  rintro ⟨_, d⟩ ⟨-, hsize, hcells⟩
  dsimp only at hsize hcells ⊢
  have hv : (destination.text.take startIndex.toNat ++
        source.text.take (destination.length - startIndex.toNat) ++
        destination.text.drop (startIndex.toNat + source.length)).length = destination.length := by
    rw [List.length_append, List.length_append, List.length_take, List.length_take, List.length_drop,
      ← length_eq, ← length_eq]
    omega
  refine Runs.ok (Assigned.of_getElem? hsize fun j hj hjlen => ?_)
  rw [hv] at hjlen
  rw [hcells]
  rcases Nat.lt_or_eq_of_le hjlen with h | rfl
  · rw [List.getElem?_append_left (by omega), replaced_getElem?]
    split_ifs with hin
    · rw [getElem?_text (by omega), Nat.zero_add]
    · rw [getElem?_text h]
  · -- the NUL behind the text stays
    rw [if_neg (by omega), getElem?_length hj, List.getElem?_append_right hv.le, hv, Nat.sub_self]
    rfl

theorem append_runs (source destination : Chars) :
    Runs allowed (append source destination) (Assigned (destination.text ++ source.text) destination) := by
  have hlen := destination.length_le
  have hlt := destination.size_lt
  have hslen := source.length_lt
  have hslen' := source.length_le
  rw [append]
  dsimp only
  rw [high_add_one]
  refine (copyBelow_runs (by omega) le_rfl hslen').bind ?_
  rintro ⟨_, d⟩ ⟨rfl, hsize, hcells⟩
  dsimp only at hsize hcells ⊢
  rw [wrap_of_lt (by omega), ← hsize, ← terminate_eq]
  have hv : (destination.text ++ source.text).length = destination.length + source.length := by
    rw [List.length_append, ← length_eq, ← length_eq]
  refine terminate_runs hsize (by omega) fun j hj hjlen => ?_
  rw [hcells]
  by_cases h : j < destination.length
  · rw [if_neg (by omega), List.getElem?_append_left (by rwa [← length_eq]), getElem?_text h]
  · rw [if_pos (by omega), List.getElem?_append_right (by rw [← length_eq]; omega), ← length_eq,
      getElem?_text (by omega), Nat.zero_add]

theorem concat_runs (source1 source2 destination : Chars) :
    Runs allowed (concat source1 source2 destination)
      (Assigned (source1.text ++ source2.text) destination) := by
  refine (assign_runs source1 destination).bind fun d hd => ?_
  refine (append_runs source2 d).mono fun e he => ?_
  refine ⟨he.size.trans hd.size, ?_⟩
  have hvalue := he.value
  rw [hd.text source1.nul_notMem_text, hd.size] at hvalue
  rcases Nat.lt_or_ge source1.text.length destination.size with h | h
  · rwa [List.take_of_length_le h.le] at hvalue
  · -- the first text fills the array
    rw [List.append_assoc, List.take_append_of_le_length (by rw [List.length_take]; omega),
      List.take_take, Nat.min_self] at hvalue
    rwa [List.append_assoc, List.take_append_of_le_length h]

/-! ## Sums that wrap around -/

/-- A count that takes the sum beyond MAX(CARDINAL): the loop of `Delete` goes up from its first index. -/
theorem deleteLoop_keeps {i : Nat} {stringVar : Chars} (hn : n < 2 ^ 64) (hbig : 2 ^ 63 < n)
    (hwrap : 2 ^ 64 ≤ i + n) (hi : i < 2 ^ 64) :
    Runs (fun _ => True) (deleteLoop old n i stringVar) fun r =>
      i ≤ r.1 ∧ ∀ j, j < i → r.2.cells[j]? = stringVar.cells[j]? := by
  have hlt := old.length_lt
  have hsum : wrap (i + n) = i + n - 2 ^ 64 := wrap_of_le hwrap (by omega)
  rw [deleteLoop, hsum]
  split_ifs with hmore
  · rw [wrap_of_lt (by omega : i + 1 < 2 ^ 64)]
    have hany : Runs (fun _ => True) (stringVar.get (i + n - 2 ^ 64)) fun _ => True := by
      rcases stringVar.get (i + n - 2 ^ 64) with f | c
      · exact Runs.error trivial
      · exact Runs.ok trivial
    refine hany.bind fun c _ => ?_
    rcases Nat.lt_or_ge i stringVar.size with hin | hin
    · refine (put_runs hin c).bind fun s hs => ?_
      refine (deleteLoop_keeps hn hbig (by omega) (by omega)).mono ?_
      rintro ⟨i', s'⟩ ⟨hi', hs'⟩
      refine ⟨by omega, fun j hj => ?_⟩
      rw [hs' j (by omega), hs, List.getElem?_set_ne (by omega)]
    · rw [put_outside hin]
      exact Runs.error trivial
  · exact Runs.ok ⟨le_rfl, fun _ _ => rfl⟩
termination_by 2 ^ 64 - i
decreasing_by omega

/-- The first round overwrites the character at the index by an earlier one of the text. -/
theorem deleteLoop_wraps (hn : n < 2 ^ 64) (hi : i < old.length) (hwrap : 2 ^ 64 ≤ i + n) :
    Runs (fun _ => True) (deleteLoop old n i old) fun r =>
      i < r.1 ∧ ∃ c, c ≠ nul ∧ r.2.cells[i]? = some c := by
  have hlt := old.length_lt
  have hlen := old.length_le
  have htext : i + n - 2 ^ 64 < old.text.length := by
    rw [← length_eq]
    omega
  obtain ⟨c, hc⟩ : ∃ c, old.text[i + n - 2 ^ 64]? = some c := ⟨_, List.getElem?_eq_getElem htext⟩
  have hget : old.get (i + n - 2 ^ 64) = .ok c :=
    get_of_getElem? ((getElem?_text (by omega)).symm.trans hc)
  rw [deleteLoop, wrap_of_le hwrap (by omega), if_pos (by omega), wrap_of_lt (by omega : i + 1 < 2 ^ 64), hget]
  refine (put_runs (by omega) c).bind fun s hs => ?_
  refine (deleteLoop_keeps hn (by omega) (by omega) (by omega)).mono ?_
  rintro ⟨i', s'⟩ ⟨hi', hcells⟩
  refine ⟨hi', c, ?_, ?_⟩
  · rintro rfl
    exact old.nul_notMem_text (List.mem_of_getElem? hc)
  · rw [hcells i (by omega), hs, List.getElem?_set_self (by rw [← Chars.size]; omega)]

/-- Where the sum wraps, the text goes on at the index. -/
theorem delete_wraps (hindex : startIndex.toNat < stringVar.length)
    (hwrap : 2 ^ 64 ≤ startIndex.toNat + count.toNat) :
    ¬ Runs (fun _ => False) (delete stringVar startIndex count)
      (Assigned (stringVar.text.take startIndex.toNat ++
        stringVar.text.drop (startIndex.toNat + count.toNat)) stringVar) := by
  intro hrun
  have hlt := stringVar.length_lt
  have hlen := stringVar.length_le
  have hkeeps : Runs (fun _ => True) (delete stringVar startIndex count)
      fun d => ∃ c, c ≠ nul ∧ d.cells[startIndex.toNat]? = some c := by
    rw [delete, if_neg (by omega)]
    refine (deleteLoop_wraps count.isLt hindex hwrap).bind ?_
    rintro ⟨i, s⟩ ⟨hi, c, hc, hcells⟩
    exact (terminate_keeps i s).mono fun d hd => ⟨c, hc, (hd _ hi).trans hcells⟩
  obtain ⟨d, -, hassigned, c, hc, hcells⟩ := (hrun.and hkeeps).total fun _ h => h.1
  have hlength : (stringVar.text.take startIndex.toNat).length = startIndex.toNat := by
    rw [List.length_take, ← length_eq, Nat.min_eq_left hindex.le]
  have hvalue := hassigned.value
  rw [List.drop_of_length_le (by rw [← length_eq]; omega), List.append_nil,
    List.take_of_length_le (by rw [List.length_append, hlength, List.length_singleton]; omega)] at hvalue
  obtain ⟨rest, hrest⟩ := hvalue
  have hnul : d.cells[startIndex.toNat]? = some nul := by
    rw [← hrest, List.append_assoc, List.getElem?_append_right hlength.le, hlength, Nat.sub_self]
    rfl
  exact hc (Option.some.inj (hcells.symm.trans hnul))

/-- The operations leave the value that the definition module states, and the predicates are exact. The
lengths, the index and the count are any. -/
structure Exact (source source2 destination : Chars) (index count length length2 : Word) : Prop where
  assign : Runs (fun _ => False) (assign source destination) (Assigned source.text destination)
  extract : Runs (fun _ => False) (extract source index count destination)
    (Assigned ((source.text.drop index.toNat).take count.toNat) destination)
  delete : Runs (fun _ => False) (delete destination index count)
    (Assigned (destination.text.take index.toNat ++ destination.text.drop (index.toNat + count.toNat))
      destination)
  insert : Runs (fun _ => False) (insert source index destination)
    (Assigned (destination.text.take index.toNat ++ source.text ++ destination.text.drop index.toNat)
      destination)
  replace : Runs (fun _ => False) (replace source index destination)
    (Assigned (destination.text.take index.toNat ++
      source.text.take (destination.length - index.toNat) ++
      destination.text.drop (index.toNat + source.length)) destination)
  append : Runs (fun _ => False) (append source destination)
    (Assigned (destination.text ++ source.text) destination)
  concat : Runs (fun _ => False) (concat source source2 destination)
    (Assigned (source.text ++ source2.text) destination)
  canAssignAll : canAssignAll length destination ↔ length.toNat ≤ destination.size
  canExtractAll : canExtractAll length index count destination ↔
    index.toNat + count.toNat ≤ length.toNat ∧ count.toNat ≤ destination.size
  canDeleteAll : canDeleteAll length index count ↔ index.toNat + count.toNat ≤ length.toNat
  canInsertAll : canInsertAll length index destination ↔
    index.toNat ≤ destination.text.length ∧ destination.text.length + length.toNat ≤ destination.size
  canReplaceAll : canReplaceAll length index destination ↔
    index.toNat + length.toNat ≤ destination.text.length
  canAppendAll : canAppendAll length destination ↔
    destination.text.length + length.toNat ≤ destination.size
  canConcatAll : canConcatAll length length2 destination ↔
    length.toNat + length2.toNat ≤ destination.size

/-- No sum wraps around to a number that is small enough to be taken for the sum. -/
structure NoWrap (destination : Chars) (index count length length2 : Word) : Prop where
  delete : destination.text.length ≤ index.toNat ∨ index.toNat + count.toNat < 2 ^ 64
  canExtractAll : index.toNat + count.toNat < 2 ^ 64 ∨
    2 ^ 64 + length.toNat < index.toNat + count.toNat ∨ destination.size < count.toNat
  canDeleteAll : index.toNat + count.toNat < 2 ^ 64 ∨ 2 ^ 64 + length.toNat < index.toNat + count.toNat
  canReplaceAll : index.toNat + length.toNat < 2 ^ 64 ∨
    2 ^ 64 + destination.text.length < index.toNat + length.toNat
  canAppendAll : destination.text.length + length.toNat < 2 ^ 64
  canConcatAll : length.toNat + length2.toNat < 2 ^ 64 ∨
    2 ^ 64 + destination.size < length.toNat + length2.toNat

/-- When a sum of CARDINALs is compared as it should be. -/
theorem wrap_le_iff {a b : Nat} (ha : a < 2 ^ 64) (hb : b < 2 ^ 64) (hn : n < 2 ^ 64) :
    (wrap (a + b) ≤ n ↔ a + b ≤ n) ↔ a + b < 2 ^ 64 ∨ 2 ^ 64 + n < a + b := by
  rcases Nat.lt_or_ge (a + b) (2 ^ 64) with h | h
  · rw [wrap_of_lt h]
    exact ⟨fun _ => .inl h, fun _ => Iff.rfl⟩
  · rw [wrap_of_le h (by omega)]
    omega

/-- The operations and the predicates are exact unless a sum wraps around to a small number. -/
theorem operations_exact_iff (source source2 destination : Chars) (index count length length2 : Word) :
    Exact source source2 destination index count length length2 ↔
      NoWrap destination index count length length2 := by
  have hsize := destination.size_lt
  have hlen := destination.length_lt
  have hle := destination.length_le
  have hindex := index.isLt
  have hcount := count.isLt
  have hlength := length.isLt
  have hlength2 := length2.isLt
  have hdelete := @wrap_le_iff length.toNat index.toNat count.toNat hindex hcount hlength
  have hreplace := @wrap_le_iff destination.length index.toNat length.toNat hindex hlength (by omega)
  have happend := @wrap_le_iff destination.size destination.length length.toNat (by omega) hlength (by omega)
  have hconcat := @wrap_le_iff destination.size length.toNat length2.toNat hlength hlength2 (by omega)
  constructor
  · intro h
    have hextract := h.canExtractAll
    have hdel := h.canDeleteAll
    have hrep := h.canReplaceAll
    have happ := h.canAppendAll
    have hcon := h.canConcatAll
    simp only [canExtractAll, canDeleteAll, canReplaceAll, canAppendAll, canConcatAll, decide_eq_true_eq,
      high_add_one, ← length_eq] at hextract hdel hrep happ hcon
    refine ⟨?_, ?_, hdelete.1 hdel, ?_, ?_, hconcat.1 hcon⟩
    · by_contra hnot
      rw [not_or, ← length_eq] at hnot
      exact delete_wraps (by omega) (by omega) h.delete
    · by_contra hnot
      rw [not_or, not_or] at hnot
      have hnot' : ¬ (wrap (index.toNat + count.toNat) ≤ length.toNat ↔
          index.toNat + count.toNat ≤ length.toNat) := fun h' => (hdelete.1 h').elim hnot.1 hnot.2.1
      exact hnot' ⟨fun h' => (hextract.1 ⟨h', by omega⟩).1, fun h' => (hextract.2 ⟨h', by omega⟩).1⟩
    · rw [← length_eq]
      exact hreplace.1 hrep
    · rw [← length_eq]
      have := happend.1 happ
      omega
  · intro h
    have hextract := h.canExtractAll
    have hdel := hdelete.2 h.canDeleteAll
    have hrep := h.canReplaceAll
    have happ := h.canAppendAll
    rw [← length_eq] at hrep happ
    have happ := happend.2 (.inl happ)
    refine ⟨assign_runs .., extract_runs .., delete_runs ?_, insert_runs .., replace_runs .., append_runs ..,
      concat_runs .., ?_, ?_, ?_, ?_, ?_, ?_, ?_⟩
    · rw [length_eq]
      exact h.delete
    all_goals simp only [canAssignAll, canExtractAll, canDeleteAll, canInsertAll, canReplaceAll,
      canAppendAll, canConcatAll, decide_eq_true_eq, high_add_one, ← length_eq]
    · rcases hextract with h' | h' | h'
      · rw [wrap_of_lt h']
      · rw [wrap_of_le (by omega) (by omega)]
        omega
      · exact ⟨fun h => absurd h.2 (by omega), fun h => absurd h.2 (by omega)⟩
    · exact hdel
    · rw [happ]
    · exact hreplace.2 hrep
    · exact happ
    · exact hconcat.2 h.canConcatAll

/-- The text `ab`, and a NUL. -/
def ab : Chars := ⟨[code 'a', code 'b', nul], by decide, by decide⟩

/-- `Delete(ab, 1, MAX(CARDINAL))` -/
theorem delete_ab_wraps : ¬ Exact ab ab ab 1 (-1) 0 0 := fun h =>
  delete_wraps (by decide) (by decide) h.delete

end NewM2.Iso.Strings
