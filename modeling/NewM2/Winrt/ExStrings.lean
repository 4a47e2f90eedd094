import Mathlib
import NewM2.Iso.Strings
import NewM2.Winrt.StrUtil

/-!
# ExStrings (`library/winrtmod/ExStrings.mod`)

Searching and replacing, with the case of letters or without it. `Replace` puts the new text together in
an array of 512 characters, of any contents before. `Length` is `Chars.length`. -/

namespace NewM2.Winrt.ExStrings
open Chars Search

/-- CARDINAL -/
abbrev Word := BitVec 64

/-- CAP -/
def cap (c : Code) : Code := if code 'a' ≤ c ∧ c ≤ code 'z' then c - 32 else c

/-- What `Find` compares of a character. -/
def fold (ci : Bool) (c : Code) : Code := if ci then cap c else c

/-- `found` and `pos`. The flag of the inner loop is whether the loop comes to its end. -/
def find (pattern s : Chars) (startIndex : Nat) (ci : Bool) : Except Fault (Bool × Nat) := do
  let lp := pattern.length
  let ls := s.length
  if lp = 0 ∨ ls < lp then .ok (false, 0)
  else
    match ← scan s lp (fun i => matchAt (fold ci) s pattern i lp) startIndex with
    | some i => .ok (true, i)
    | none => .ok (false, 0)

def findNextI (pattern stringToSearch : Chars) (startIndex : Word) : Except Fault (Bool × Nat) :=
  find pattern stringToSearch startIndex.toNat true

def assignNullTerm (source destination : Chars) : Except Fault Chars := do
  let cap := destination.high + 1
  let (i, destination) ← copyLoop source 0 0 cap
    (fun i => i ≤ source.high ∧ source.cells[i]? ≠ some nul) 0 destination
  if i < cap then destination.put i nul else destination.put destination.high nul

/-- The new text in `tmp`. -/
def newText (find replace str : Chars) (pos : Nat) (tmp : Chars) : Except Fault Chars := do
  let lf := find.length
  let lr := replace.length
  let ls := str.length
  let (k, tmp) ← copyLoop str 0 0 pos (fun i => i < tmp.high) 0 tmp
  let (n, tmp) ← copyLoop replace 0 k lr (fun i => k + i < tmp.high) 0 tmp
  let k := k + n
  let (n, tmp) ← copyLoop str (pos + lf) k (ls - (pos + lf)) (fun i => k + i < tmp.high) 0 tmp
  let k := k + n
  tmp.put k nul

/-- The result, and `str`. -/
def replace (tmp : { t : Chars // t.size = 512 }) (find replace str : Chars) (ci : Bool) :
    Except Fault (Bool × Chars) := do
  if find.length = 0 then .ok (false, str)
  else
    let (found, pos) ← ExStrings.find find str 0 ci
    if !found then .ok (false, str)
    else
      let tmp ← newText find replace str pos tmp
      let str ← assignNullTerm tmp str
      .ok (true, str)

def findAndReplace (tmp : { t : Chars // t.size = 512 }) (find replace str : Chars) :
    Except Fault (Bool × Chars) :=
  ExStrings.replace tmp find replace str false

def findAndReplaceI (tmp : { t : Chars // t.size = 512 }) (find replace str : Chars) :
    Except Fault (Bool × Chars) :=
  ExStrings.replace tmp find replace str true

variable {pattern s find replace str tmp source destination : Chars} {start : Word} {ci : Bool} {i k n p : Nat}
  {allowed : Fault → Prop}

/-! ## Searching -/

/-- Unless the start index and the length of the pattern wrap around. -/
theorem find_runs {i : Nat} (hpattern : pattern.text ≠ [])
    (hi : s.length < pattern.length ∨ i + pattern.length < 2 ^ 64) (ci : Bool) :
    Runs allowed (ExStrings.find pattern s i ci) (Found (OccursAt (fold ci) pattern.text s.text) i) := by
  have hpos := List.length_pos_of_ne_nil hpattern
  rw [← length_eq] at hpos
  rw [ExStrings.find]
  split_ifs with hshort
  · refine Runs.ok fun k hk hocc => ?_
    have hle := hocc.le hpattern
    rw [← length_eq, ← length_eq] at hle
    omega
  · refine (scan_matchAt (by omega) hpattern).bind fun r hr => ?_
    cases r with
    | none => exact Runs.ok hr
    | some p => exact Runs.ok hr

theorem indexOf_runs (hpattern : pattern.text ≠ [])
    (hi : s.length < pattern.length ∨ start.toNat + pattern.length < 2 ^ 64) :
    Runs allowed (StrUtil.indexOf s pattern start) fun z =>
      ∃ r, First (OccursAt id pattern.text s.text) start.toNat r ∧ z = r.elim (-1) Int.ofNat := by
  have hpos := List.length_pos_of_ne_nil hpattern
  rw [← length_eq] at hpos
  rw [StrUtil.indexOf, if_neg hpos.ne']
  split_ifs with hshort
  · refine Runs.ok ⟨none, fun k hk hocc => ?_, rfl⟩
    have hle := hocc.le hpattern
    rw [← length_eq, ← length_eq] at hle
    omega
  · refine (scan_matchAt (by omega) hpattern).bind fun r hr => ?_
    cases r with
    | none => exact Runs.ok ⟨none, hr, rfl⟩
    | some p => exact Runs.ok ⟨some p, hr, rfl⟩

theorem indexOf_wraps (hpattern : pattern.text ≠ []) (hlen : pattern.length ≤ s.length)
    (hwrap : 2 ^ 64 ≤ start.toNat + pattern.length) : StrUtil.indexOf s pattern start = .error .outside := by
  have hpos := List.length_pos_of_ne_nil hpattern
  rw [← length_eq] at hpos
  rw [StrUtil.indexOf, if_neg hpos.ne', if_neg (by omega),
    scan_matchAt_wraps start.isLt hwrap hlen hpattern]
  rfl

/-- The three searches find the first occurrence, and access nothing outside of the arrays. -/
structure Searches (pattern s : Chars) (start : Word) : Prop where
  findNext : Runs (fun _ => False) (Iso.Strings.findNext pattern s start)
    (Found (OccursAt id pattern.text s.text) start.toNat)
  indexOf : Runs (fun _ => False) (StrUtil.indexOf s pattern start) fun z =>
    ∃ r, First (OccursAt id pattern.text s.text) start.toNat r ∧ z = r.elim (-1) Int.ofNat
  findNextI : Runs (fun _ => False) (findNextI pattern s start)
    (Found (OccursAt cap pattern.text s.text) start.toNat)

theorem searches_iff (pattern s : Chars) (start : Word) (hpattern : pattern.text ≠ []) :
    Searches pattern s start ↔
      s.text.length < pattern.text.length ∨ start.toNat + pattern.text.length < 2 ^ 64 := by
  rw [← length_eq, ← length_eq]
  constructor
  · intro h
    by_contra hnot
    rw [not_or, Nat.not_lt, Nat.not_lt] at hnot
    have hrun := h.indexOf
    rw [indexOf_wraps hpattern hnot.1 hnot.2] at hrun
    exact hrun
  · intro h
    exact ⟨Iso.Strings.findNext_runs pattern s start hpattern, indexOf_runs hpattern h, find_runs hpattern h true⟩

/-- The text `a`, with no room behind it. -/
def a : Chars := ⟨[code 'a'], by decide, by decide⟩

def an : Chars := ⟨"an".toList.map code, by decide, by decide⟩

/-- The text `banana`, with room for two more characters. -/
def banana : Chars := ⟨"banana".toList.map code ++ [nul, nul], by decide, by decide⟩

theorem searches_iff_a : an.text ≠ [] ∧ Searches an banana 2 :=
  ⟨by decide, (searches_iff an banana 2 (by decide)).2 (.inr (by decide))⟩

/-- From MAX(CARDINAL) on `IndexOf` reads outside of the text. -/
theorem indexOf_a_wraps : StrUtil.indexOf a a (-1) = .error .outside ∧ ¬ Searches a a (-1) := by
  have hrun : StrUtil.indexOf a a (-1) = .error .outside := indexOf_wraps (by decide) (by decide) (by decide)
  refine ⟨hrun, fun h => ?_⟩
  have hindex := h.indexOf
  rw [hrun] at hindex
  exact hindex

/-! ## Replacing -/

/-- `w` is in the array up to the index `k`, but for what is cut off at HIGH. -/
structure Filled (w : List Code) (k : Nat) (tmp : Chars) : Prop where
  size : tmp.size = 512
  count : k = min w.length 511
  cells : ∀ j, j < k → tmp.cells[j]? = w[j]?

theorem Filled.copy {w : List Code} {q : Nat} (h : Filled w k tmp) (hq : q + n ≤ s.length) :
    Runs allowed (copyLoop s q k n (fun i => k + i < tmp.high) 0 tmp) fun x =>
      Filled (w ++ (s.text.drop q).take n) (k + x.1) x.2 := by
  have hlen := s.length_le
  have hhigh := tmp.high_add_one
  have hsize := h.size
  have hcount := h.count
  have htaken : ((s.text.drop q).take n).length = n := by
    rw [List.length_take, List.length_drop, ← length_eq]
    omega
  refine (copyLoop_runs (r := min n (511 - k)) (Nat.min_le_left _ _) (fun i hi => decide_eq_true (by omega))
    (fun h => decide_eq_false (by omega)) (by omega) (by omega)).mono ?_
  rintro ⟨_, t⟩ ⟨rfl, hsize', hcells⟩
  dsimp only at hsize' hcells ⊢
  refine ⟨hsize'.trans hsize, by rw [List.length_append, htaken]; omega, fun j hj => ?_⟩
  rw [hcells]
  by_cases hjk : j < k
  · rw [if_neg (by omega), h.cells j hjk, List.getElem?_append_left (by omega)]
  · rw [if_pos (by omega), List.getElem?_append_right (by omega), List.getElem?_take_of_lt (by omega),
      List.getElem?_drop, getElem?_text (by omega)]
    congr 1
    omega

/-- The text with the match at `p` replaced. -/
def replaced (find replace str : List Code) (p : Nat) : List Code :=
  str.take p ++ replace ++ str.drop (p + find.length)

theorem length_replaced {find replace str : List Code} (hp : p + find.length ≤ str.length) :
    (replaced find replace str p).length + find.length = str.length + replace.length := by
  rw [replaced, List.length_append, List.length_append, List.length_take, List.length_drop]
  omega

theorem nul_notMem_replaced (find replace str : Chars) (p : Nat) :
    nul ∉ replaced find.text replace.text str.text p := by
  rw [replaced, List.mem_append, List.mem_append, not_or, not_or]
  exact ⟨⟨fun h => str.nul_notMem_text (List.mem_of_mem_take h), replace.nul_notMem_text⟩,
    fun h => str.nul_notMem_text (List.mem_of_mem_drop h)⟩

theorem newText_runs (htmp : tmp.size = 512) (hp : p + find.length ≤ str.length) :
    Runs allowed (newText find replace str p tmp) fun t =>
      t.text = (replaced find.text replace.text str.text p).take 511 := by
  have hstart : Filled [] 0 tmp := ⟨htmp, rfl, fun j hj => absurd hj (Nat.not_lt_zero j)⟩
  have hfirst := @Filled.copy str tmp 0 p allowed [] 0 hstart (by omega)
  simp only [Nat.zero_add] at hfirst
  refine hfirst.bind ?_
  rintro ⟨k, t⟩ h₁
  refine (h₁.copy (by rw [Nat.zero_add])).bind ?_
  rintro ⟨n, t⟩ h₂
  refine (h₂.copy (by omega)).bind ?_
  rintro ⟨m, t⟩ h₃
  dsimp only at h₃ ⊢
  have hw : [] ++ (str.text.drop 0).take p ++ (replace.text.drop 0).take replace.length ++
      (str.text.drop (p + find.length)).take (str.length - (p + find.length)) =
        replaced find.text replace.text str.text p := by
    rw [List.nil_append, List.drop_zero, List.drop_zero, length_eq replace, List.take_length, length_eq str,
      length_eq find, List.take_of_length_le (by rw [List.length_drop] : (str.text.drop _).length ≤ _), replaced]
  rw [hw] at h₃
  have hsize := h₃.size
  have hcount := h₃.count
  have hlength : ((replaced find.text replace.text str.text p).take 511).length = k + n + m := by
    rw [List.length_take]
    omega
  have hput := terminate_eq (k + n + m) t
  rw [if_pos (by omega)] at hput
  rw [← hput]
  have hcells : ∀ j, j < tmp.size → j < ((replaced find.text replace.text str.text p).take 511).length →
      t.cells[j]? = ((replaced find.text replace.text str.text p).take 511)[j]? := fun j _ hj => by
    rw [List.getElem?_take_of_lt (by omega), h₃.cells j (by omega)]
  refine (terminate_runs (hsize.trans htmp.symm) (by rw [hlength]) hcells).mono fun t' ht' => ?_
  rw [ht'.text fun h => nul_notMem_replaced find replace str p (List.mem_of_mem_take h),
    List.take_of_length_le (by omega)]

theorem assignNullTerm_runs (source destination : Chars) :
    Runs allowed (assignNullTerm source destination) fun d =>
      d.size = destination.size ∧ d.text = source.text.take (destination.size - 1) := by
  have hlen := source.length_le
  have hcap := destination.high_add_one
  rw [assignNullTerm]
  dsimp only
  rw [hcap]
  refine (copyLoop_runs (r := min destination.size source.length) (Nat.min_le_left _ _) ?_ ?_ (by omega)
    (by omega)).bind ?_
  · intro k hk
    refine decide_eq_true ⟨le_high_iff.2 (by omega), fun h => ?_⟩
    rw [← getElem?_text (by omega)] at h
    exact source.nul_notMem_text (List.mem_of_getElem? h)
  · intro hlt
    refine decide_eq_false fun h => ?_
    rw [Nat.min_eq_right (by omega), le_high_iff] at h
    exact h.2 (getElem?_length h.1)
  · rintro ⟨_, d⟩ ⟨rfl, hsize, hcells⟩
    dsimp only at hsize hcells ⊢
    -- both branches put the NUL behind what is kept
    have hput : (if min destination.size source.length < destination.size
        then d.put (min destination.size source.length) nul else d.put d.high nul) =
          terminate (min source.length (destination.size - 1)) d := by
      have hhigh := d.high_add_one
      have hterm := terminate_eq (min source.length (destination.size - 1)) d
      rw [if_pos (by omega)] at hterm
      rw [hterm]
      split_ifs with hroom
      · rw [show min destination.size source.length = min source.length (destination.size - 1) by omega]
      · rw [show d.high = min source.length (destination.size - 1) by omega]
    have hkept : (source.text.take (destination.size - 1)).length =
        min source.length (destination.size - 1) := by
      rw [List.length_take, ← length_eq, Nat.min_comm]
    rw [hput]
    refine (terminate_runs hsize (by rw [hkept]) fun j _ hj => ?_).mono fun d' hd' => ⟨hd'.size, ?_⟩
    · rw [hcells, if_pos (by omega), List.getElem?_take_of_lt (by omega), getElem?_text (by omega), Nat.zero_add,
        Nat.sub_zero]
    · rw [hd'.text fun h => source.nul_notMem_text (List.mem_of_mem_take h),
        List.take_of_length_le (by omega)]

/-- The text with the first match replaced is in the array, as far as there is room for it with a NUL; without
a match nothing changes. -/
def Replaced (ci : Bool) (find replace str : Chars) (r : Bool × Chars) : Prop :=
  ∃ o, First (OccursAt (fold ci) find.text str.text) 0 o ∧
    match o with
    | some p => r.1 = true ∧ r.2.size = str.size ∧
        r.2.text = (replaced find.text replace.text str.text p).take (str.size - 1)
    | none => r = (false, str)

theorem replace_runs (t : { t : Chars // t.size = 512 }) (hfind : find.text ≠ []) (ci : Bool) :
    Runs allowed (ExStrings.replace t find replace str ci) fun r =>
      ∃ o, First (OccursAt (fold ci) find.text str.text) 0 o ∧
        match o with
        | some p => r.1 = true ∧ r.2.size = str.size ∧
            r.2.text = (replaced find.text replace.text str.text p).take (min 511 (str.size - 1))
        | none => r = (false, str) := by
  have hpos := List.length_pos_of_ne_nil hfind
  have hflen := find.length_lt
  rw [← length_eq] at hpos
  rw [ExStrings.replace, if_neg hpos.ne']
  refine (find_runs hfind (.inr (by omega)) ci).bind ?_
  rintro ⟨found, p⟩ hfound
  cases found with
  | false => exact Runs.ok ⟨none, hfound, rfl⟩
  | true =>
    have hp := hfound.2.1.le hfind
    rw [← length_eq, ← length_eq] at hp
    refine (newText_runs t.2 hp).bind fun t' ht' => ?_
    refine (assignNullTerm_runs t' str).bind fun str' hstr' => Runs.ok ⟨some p, hfound, rfl, hstr'.1, ?_⟩
    rw [hstr'.2, ht', List.take_take, Nat.min_comm]

/-- What the two procedures are to do. -/
structure Replaces (tmp : { t : Chars // t.size = 512 }) (find replace str : Chars) : Prop where
  findAndReplace : Runs (fun _ => False) (findAndReplace tmp find replace str) (Replaced false find replace str)
  findAndReplaceI : Runs (fun _ => False) (findAndReplaceI tmp find replace str) (Replaced true find replace str)

/-- There is no match, or the new text has room in the temporary array, or `str` has no more room than it. -/
def Keeps (ci : Bool) (find replace str : List Code) (size : Nat) : Prop :=
  (∀ i, ¬ OccursAt (fold ci) find str i) ∨ str.length - find.length + replace.length ≤ 511 ∨ size ≤ 512

theorem replaced_iff (t : { t : Chars // t.size = 512 }) (hfind : find.text ≠ []) (ci : Bool) :
    Runs (fun _ => False) (ExStrings.replace t find replace str ci) (Replaced ci find replace str) ↔
      Keeps ci find.text replace.text str.text str.size := by
  have hcode := @replace_runs find replace str (fun _ => False) t hfind ci
  constructor
  · intro hclaim
    obtain ⟨r, -, ⟨o, ho, hr⟩, ⟨o', ho', hr'⟩⟩ := (hcode.and hclaim).total fun _ h => h.1
    obtain rfl := ho.unique ho'
    cases o with
    | none => exact .inl fun i => ho i (Nat.zero_le i)
    | some p =>
      -- the two texts have the same length
      refine .inr ?_
      have hlen := congrArg List.length (hr.2.2.symm.trans hr'.2.2)
      have hp := ho.2.1.le hfind
      have hreplaced := @length_replaced p find.text replace.text str.text hp
      rw [List.length_take, List.length_take] at hlen
      omega
  · intro hkeeps
    refine hcode.mono fun r hr => ?_
    obtain ⟨o, ho, hr⟩ := hr
    refine ⟨o, ho, ?_⟩
    cases o with
    | none => exact hr
    | some p =>
      refine ⟨hr.1, hr.2.1, hr.2.2.trans ?_⟩
      have hp := ho.2.1.le hfind
      have hreplaced := @length_replaced p find.text replace.text str.text hp
      rcases hkeeps with hnone | hshort | hsmall
      · exact absurd ho.2.1 (hnone p)
      · rcases Nat.le_total 511 (str.size - 1) with h | h
        · rw [Nat.min_eq_left h, List.take_of_length_le (by omega), List.take_of_length_le (by omega)]
        · rw [Nat.min_eq_right h]
      · rw [Nat.min_eq_right (by omega)]

theorem Replaces.keeps {t : { t : Chars // t.size = 512 }} (h : Replaces t find replace str)
    (hfind : find.text ≠ []) : Keeps false find.text replace.text str.text str.size :=
  (replaced_iff t hfind false).1 h.findAndReplace

/-- The text behind the match is kept unless it is cut off by the temporary array. -/
theorem findAndReplace_iff (tmp : { t : Chars // t.size = 512 }) (find replace str : Chars)
    (hfind : find.text ≠ []) : Replaces tmp find replace str ↔
      Keeps false find.text replace.text str.text str.size ∧ Keeps true find.text replace.text str.text str.size :=
  ⟨fun h => ⟨h.keeps hfind, (replaced_iff tmp hfind true).1 h.findAndReplaceI⟩,
    fun h => ⟨(replaced_iff tmp hfind false).2 h.1, (replaced_iff tmp hfind true).2 h.2⟩⟩

theorem length_row (c : Code) (n : Nat) : (c :: List.replicate n c).length = n + 1 := by
  rw [List.length_cons, List.length_replicate]

/-- A temporary array. -/
def blank : { t : Chars // t.size = 512 } :=
  ⟨⟨nul :: List.replicate 511 nul, List.cons_ne_nil _ _, by rw [length_row]; norm_num⟩, length_row nul 511⟩

theorem findAndReplace_iff_a : an.text ≠ [] ∧ Replaces blank an a banana := by
  have hsize : banana.size ≤ 512 := by decide
  exact ⟨by decide, (findAndReplace_iff blank an a banana (by decide)).2
    ⟨.inr (.inr hsize), .inr (.inr hsize)⟩⟩

/-- 600 characters `a`, with no room behind them. -/
def long : Chars :=
  ⟨code 'a' :: List.replicate 599 (code 'a'), List.cons_ne_nil _ _, by rw [length_row]; norm_num⟩

theorem long_text : long.text = code 'a' :: List.replicate 599 (code 'a') :=
  text_of_full fun h => by
    rw [long, List.mem_cons] at h
    rcases h with h | h
    · exact absurd h (by decide)
    · exact absurd (List.eq_of_mem_replicate h) (by decide)

/-- The first `a` replaced by an `a`. -/
theorem findAndReplace_long : ¬ Replaces blank a a long := by
  intro h
  have hsize : long.size = 600 := length_row _ 599
  have hfind : a.text ≠ [] := by decide
  rcases h.keeps hfind with hnone | hshort | hsmall
  · refine hnone 0 ?_
    rw [long_text]
    exact ⟨_, rfl⟩
  · rw [long_text, length_row, show a.text.length = 1 by decide] at hshort
    omega
  · omega

end NewM2.Winrt.ExStrings
