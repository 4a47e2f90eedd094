import Mathlib
import NewM2.Lib.Search
import NewM2.Lib.Output
import NewM2.Lib.Pieces

/-!
# StrUtil (`library/winrtmod/StrUtil.mod`)

Substrings, replacement and splitting. `SLen` is `Chars.length` and `MatchAt` is `Search.matchAt id`, and `PutC` is
`Output.putC`. Each of `Count`, `SplitCount`, `SplitPart` and `ReplaceAll` has a
loop of its own over the text; all of them cut it where `pieces` does. The index of such a loop stays
within the text, so its sum with the length of the separator does not wrap around. -/

namespace NewM2.Winrt.StrUtil
open Chars Search Output Pieces

/-- CARDINAL -/
abbrev Word := BitVec 64

/-- Copies `s[a..b-1]`, and a NUL. -/
def copyRange (s : Chars) (a b : Nat) (out : Chars) : Except Fault Chars := do
  let (k, out) ← copyLoop s a 0 (b - a) (fun k => k < out.high) 0 out
  out.put k nul

def indexOf (s sub : Chars) (start : Word) : Except Fault Int := do
  let sl := s.length
  let ml := sub.length
  if ml = 0 then .ok (if start.toNat ≤ sl then start.toNat else -1)
  else if sl < ml then .ok (-1)
  else
    match ← scan s ml (fun i => matchAt id s sub i ml) start.toNat with
    | some i => .ok i
    | none => .ok (-1)

/-- The loop of `Count` and of `SplitCount`. -/
def countLoop (s sub : Chars) (hsub : 0 < sub.length) (i n : Nat) : Except Fault Nat :=
  if i + sub.length ≤ s.length then do
    if ← matchAt id s sub i sub.length then countLoop s sub hsub (i + sub.length) (n + 1)
    else countLoop s sub hsub (i + 1) n
  else .ok n
termination_by s.length + 1 - i

def count (s sub : Chars) : Except Fault Nat :=
  if h : sub.length = 0 then .ok 0 else countLoop s sub (Nat.pos_of_ne_zero h) 0 0

def splitCount (s sep : Chars) : Except Fault Nat :=
  if h : sep.length = 0 then .ok 1 else countLoop s sep (Nat.pos_of_ne_zero h) 0 1

/-- The loop of `ReplaceAll` that writes the replacement. -/
def putLoop (new : Chars) (j k : Nat) (out : Chars) : Except Fault (Bool × Nat × Chars) :=
  if j < new.length then do
    let c ← new.get j
    let (ok, k, out) ← putC c k out
    if ok then putLoop new (j + 1) k out else .ok (false, k, out)
  else .ok (true, k, out)
termination_by new.length - j

/-- The condition of `ReplaceAll`; `from` and `to` are `old` and `new` here. -/
def matchOld (s old : Chars) (i : Nat) : Except Fault Bool :=
  if old.length ≠ 0 ∧ i + old.length ≤ s.length then matchAt id s old i old.length else .ok false

def replaceLoop (s old new : Chars) (i k : Nat) (out : Chars) : Except Fault (Bool × Nat × Chars) :=
  if i < s.length then do
    let found ← matchOld s old i
    if _h : found ∧ old.length ≠ 0 then do
      let (ok, k, out) ← putLoop new 0 k out
      if ok then replaceLoop s old new (i + old.length) k out else .ok (false, k, out)
    else do
      let c ← s.get i
      let (ok, k, out) ← putC c k out
      if ok then replaceLoop s old new (i + 1) k out else .ok (false, k, out)
  else .ok (true, k, out)
termination_by s.length - i

/-- The result, and `out`. -/
def replaceAll (s old new out : Chars) : Except Fault (Bool × Chars) := do
  let (ok, k, out) ← replaceLoop s old new 0 0 out
  if !ok then .ok (false, out)
  else if out.high < k then .ok (false, out)
  else do
    let out ← out.put k nul
    .ok (true, out)

def splitPartLoop (s sep : Chars) (hsep : 0 < sep.length) (index : Nat) (part : Chars)
    (i start cur : Nat) : Except Fault (Bool × Chars) :=
  if i + sep.length ≤ s.length then do
    if ← matchAt id s sep i sep.length then
      if cur = index then do
        let part ← copyRange s start i part
        .ok (true, part)
      else splitPartLoop s sep hsep index part (i + sep.length) (i + sep.length) (cur + 1)
    else splitPartLoop s sep hsep index part (i + 1) start cur
  else if cur = index then do
    let part ← copyRange s start s.length part
    .ok (true, part)
  else .ok (false, part)
termination_by s.length + 1 - i

/-- The result, and `part`. -/
def splitPart (s sep : Chars) (index : Word) (part : Chars) : Except Fault (Bool × Chars) := do
  if h : sep.length = 0 then
    if index = 0 then do
      let part ← copyRange s 0 s.length part
      .ok (true, part)
    else .ok (false, part)
  else splitPartLoop s sep (Nat.pos_of_ne_zero h) index.toNat part 0 0 0

variable {s sub sep old new out part : Chars} {a b i j k m n start cur index : Nat} {w v : List Code}
  {allowed : Fault → Prop}

/-! ## Cutting -/

theorem copyRange_runs (hab : a ≤ b) (hb : b ≤ s.length) (out : Chars) :
    Runs allowed (copyRange s a b out) fun o =>
      o.size = out.size ∧ o.text = ((s.text.drop a).take (b - a)).take out.high := by
  have hlen := s.length_le
  have hhigh := out.high_lt
  refine (copyLoop_runs (r := min (b - a) out.high) (Nat.min_le_left _ _)
    (fun k hk => decide_eq_true (by omega)) (fun h => decide_eq_false (by omega)) (by omega)
    (by omega)).bind ?_
  rintro ⟨_, d⟩ ⟨rfl, hsize, hcells⟩
  dsimp only at hsize hcells ⊢
  rw [List.take_take, Nat.min_comm out.high]
  have hv : ((s.text.drop a).take (min (b - a) out.high)).length = min (b - a) out.high := by
    rw [List.length_take, List.length_drop, ← length_eq]
    omega
  have hput := terminate_eq (min (b - a) out.high) d
  rw [if_pos (by omega)] at hput
  rw [← hput]
  refine (terminate_runs hsize (by rw [hv]) fun j _ hj => ?_).mono fun o ho => ⟨ho.size, ?_⟩
  · rw [hcells, if_pos (by omega), List.getElem?_take_of_lt (by omega), List.getElem?_drop,
      getElem?_text (by omega), Nat.sub_zero]
  · rw [ho.text fun h => s.nul_notMem_text (List.mem_of_mem_drop (List.mem_of_mem_take h)),
      List.take_of_length_le (by omega)]

theorem text_ne_nil (h : 0 < s.length) : s.text ≠ [] :=
  List.ne_nil_of_length_pos (by rwa [← length_eq])

theorem drop_text (h : i < s.length) : ∃ c, s.get i = .ok c ∧ s.text.drop i = c :: s.text.drop (i + 1) := by
  obtain ⟨c, hc, hget⟩ := get_text h
  refine ⟨c, hget, ?_⟩
  obtain ⟨hi, rfl⟩ := List.getElem?_eq_some_iff.1 hc
  exact List.drop_eq_getElem_cons hi

/-- No separator fits behind the index. -/
theorem pieces_end (h : s.length < i + sep.length) : pieces sep.text (s.text.drop i) = [s.text.drop i] ∨
    sep.length = 0 := by
  rcases Nat.eq_zero_or_pos sep.length with hzero | hpos
  · exact .inr hzero
  · refine .inl (pieces_short ?_)
    rw [List.length_drop, ← length_eq, ← length_eq]
    omega

theorem countLoop_runs {i n : Nat} (hsub : 0 < sub.length) (hi : i ≤ s.length) :
    Runs allowed (countLoop s sub hsub i n) fun r =>
      r + 1 = n + (pieces sub.text (s.text.drop i)).length := by
  rw [countLoop]
  split_ifs with hmore
  · refine (matchAt_runs hmore).bind fun b hb => ?_
    rw [occursAt_id] at hb
    cases b with
    | true =>
      have hcut := pieces_match (text_ne_nil hsub) (hb.1 rfl)
      rw [List.drop_drop, ← length_eq] at hcut
      rw [hcut, List.length_cons]
      refine (countLoop_runs hsub hmore).mono fun r hr => ?_
      omega
    | false =>
      obtain ⟨c, -, hc⟩ := drop_text (by omega : i < s.length)
      rw [hc] at hb ⊢
      rw [pieces_cons fun h => absurd (hb.2 h) Bool.false_ne_true, List.length_modifyHead]
      exact countLoop_runs hsub (by omega)
  · rw [(pieces_end (by omega)).resolve_right (by omega)]
    exact Runs.ok rfl
termination_by s.length + 1 - i

theorem count_runs (hsub : 0 < sub.length) : Runs allowed (count s sub) fun r =>
    r + 1 = (pieces sub.text s.text).length := by
  rw [count, dif_neg hsub.ne']
  exact (countLoop_runs hsub (Nat.zero_le _)).mono fun r hr => by rwa [Nat.zero_add] at hr

theorem splitCount_runs (hsep : 0 < sep.length) : Runs allowed (splitCount s sep) fun r =>
    r = (pieces sep.text s.text).length := by
  rw [splitCount, dif_neg hsep.ne']
  refine (countLoop_runs hsep (Nat.zero_le _)).mono fun r hr => ?_
  rw [List.drop_zero] at hr
  omega

/-- The part that begins at `start` goes on at `i`. -/
def partsFrom (s sep : Chars) (start i : Nat) : List (List Code) :=
  (pieces sep.text (s.text.drop i)).modifyHead ((s.text.drop start).take (i - start) ++ ·)

theorem partsFrom_zero (s sep : Chars) : partsFrom s sep 0 0 = pieces sep.text s.text := by
  obtain ⟨p, ps, hp⟩ := exists_cons_pieces sep.text s.text
  rw [partsFrom, List.drop_zero, hp, List.modifyHead_cons, Nat.sub_zero, List.take_zero, List.nil_append]

/-- At the index the part is the head, and the following ones begin behind the separator. -/
theorem partsFrom_match (hsep : 0 < sep.length) (h : sep.text <+: s.text.drop i) :
    partsFrom s sep start i = (s.text.drop start).take (i - start) ::
      partsFrom s sep (i + sep.length) (i + sep.length) := by
  obtain ⟨p, ps, hp⟩ := exists_cons_pieces sep.text (s.text.drop (i + sep.length))
  rw [partsFrom, partsFrom, pieces_match (text_ne_nil hsep) h, List.drop_drop, ← length_eq, hp, Nat.sub_self,
    List.take_zero, List.modifyHead_cons, List.modifyHead_cons, List.append_nil, List.nil_append]

theorem partsFrom_skip (hstart : start ≤ i) (hi : i < s.length) (h : ¬ sep.text <+: s.text.drop i) :
    partsFrom s sep start i = partsFrom s sep start (i + 1) := by
  obtain ⟨c, -, hc⟩ := drop_text hi
  obtain ⟨p, ps, hp⟩ := exists_cons_pieces sep.text (s.text.drop (i + 1))
  have hdrop : (s.text.drop start).drop (i - start) = c :: s.text.drop (i + 1) := by
    rw [List.drop_drop, Nat.add_sub_cancel' hstart, hc]
  have htake : (s.text.drop start).take (i + 1 - start) = (s.text.drop start).take (i - start) ++ [c] := by
    rw [show i + 1 - start = i - start + 1 by omega, List.take_add, hdrop]
    rfl
  rw [hc] at h
  rw [partsFrom, partsFrom, hc, pieces_cons h, hp, htake, List.modifyHead_cons, List.modifyHead_cons,
    List.modifyHead_cons, List.append_assoc, List.singleton_append]

theorem partsFrom_end (hsep : 0 < sep.length) (hstart : start ≤ i) (h : s.length < i + sep.length) :
    partsFrom s sep start i = [s.text.drop start] := by
  rw [partsFrom, (pieces_end h).resolve_right hsep.ne', List.modifyHead_cons]
  congr 1
  conv_rhs => rw [← List.take_append_drop (i - start) (s.text.drop start), List.drop_drop,
    Nat.add_sub_cancel' hstart]

/-- What is to become of `part` when it is asked for the part `o`. -/
def Parted (part : Chars) (o : Option (List Code)) (r : Bool × Chars) : Prop :=
  match o with
  | some p => r.1 = true ∧ r.2.text = p.take part.high
  | none => r = (false, part)

theorem splitPartLoop_runs {i start cur : Nat} (hsep : 0 < sep.length) (hstart : start ≤ i) (hi : i ≤ s.length)
    (hcur : cur ≤ index) :
    Runs allowed (splitPartLoop s sep hsep index part i start cur)
      (Parted part (partsFrom s sep start i)[index - cur]?) := by
  rw [splitPartLoop]
  by_cases hmore : i + sep.length ≤ s.length
  · rw [if_pos hmore]
    refine (matchAt_runs hmore).bind fun b hb => ?_
    rw [occursAt_id] at hb
    cases b with
    | true =>
      rw [if_pos rfl, partsFrom_match hsep (hb.1 rfl)]
      split_ifs with heq
      · rw [heq, Nat.sub_self, List.getElem?_cons_zero]
        exact (copyRange_runs hstart hi part).bind fun o ho => Runs.ok ⟨rfl, ho.2⟩
      · rw [show index - cur = index - (cur + 1) + 1 by omega, List.getElem?_cons_succ]
        exact splitPartLoop_runs hsep le_rfl hmore (by omega)
    | false =>
      rw [if_neg Bool.false_ne_true, partsFrom_skip hstart (by omega) fun h => absurd (hb.2 h) Bool.false_ne_true]
      exact splitPartLoop_runs hsep (by omega) (by omega) hcur
  · rw [if_neg hmore, partsFrom_end hsep hstart (by omega)]
    split_ifs with heq
    · rw [heq, Nat.sub_self, List.getElem?_cons_zero]
      refine (copyRange_runs (hstart.trans hi) le_rfl part).bind fun o ho => Runs.ok ⟨rfl, ho.2.trans ?_⟩
      have hlen : (s.text.drop start).length ≤ s.length - start := by rw [List.length_drop, ← length_eq]
      rw [List.take_of_length_le hlen]
    · rw [List.getElem?_eq_none (by rw [List.length_singleton]; omega)]
      exact Runs.ok rfl
termination_by s.length + 1 - i

theorem splitPart_runs (hsep : 0 < sep.length) (index : Word) (part : Chars) :
    Runs allowed (splitPart s sep index part) (Parted part (pieces sep.text s.text)[index.toNat]?) := by
  have h := @splitPartLoop_runs s sep part index.toNat allowed 0 0 0 hsep le_rfl (Nat.zero_le _) (Nat.zero_le _)
  rw [partsFrom_zero, Nat.sub_zero] at h
  rw [splitPart, dif_neg hsep.ne']
  exact h

/-! ## Replacing -/

theorem putLoop_runs {j k : Nat} {w : List Code} {out : Chars} (h : Wrote w n k out) (hj : j ≤ new.length) :
    Runs allowed (putLoop new j k out) (Puts w (new.text.drop j) n) := by
  rw [putLoop]
  by_cases hmore : j < new.length
  · obtain ⟨c, hget, hc⟩ := drop_text hmore
    rw [if_pos hmore, hget, hc]
    exact Puts.bind (putC_runs h c) fun k out h' => putLoop_runs h' hmore
  · rw [if_neg hmore, List.drop_of_length_le (by rw [← length_eq]; omega)]
    exact Runs.ok (Puts.nil h)
termination_by new.length - j

theorem matchOld_runs (hold : 0 < old.length) (hi : i < s.length) :
    Runs allowed (matchOld s old i) fun b => b = true ↔ old.text <+: s.text.drop i := by
  rw [matchOld]
  split_ifs with hfits
  · have hmatch : Runs allowed (matchAt id s old i old.length) _ := matchAt_runs hfits.2
    simpa only [occursAt_id] using hmatch
  · refine Runs.ok ⟨fun h => absurd h Bool.false_ne_true, fun h => ?_⟩
    have hle := h.length_le
    rw [List.length_drop, ← length_eq, ← length_eq] at hle
    omega

theorem replaceLoop_runs {i k : Nat} {w : List Code} {out : Chars} (hold : 0 < old.length)
    (h : Wrote w n k out) (hi : i ≤ s.length) :
    Runs allowed (replaceLoop s old new i k out)
      (Puts w (new.text.intercalate (pieces old.text (s.text.drop i))) n) := by
  rw [replaceLoop]
  by_cases hmore : i < s.length
  · rw [if_pos hmore]
    refine (matchOld_runs hold hmore).bind fun b hb => ?_
    cases b with
    | true =>
      have hcut := hb.1 rfl
      rw [dif_pos ⟨rfl, hold.ne'⟩, intercalate_match _ (text_ne_nil hold) hcut, List.drop_drop, ← length_eq]
      have hle := hcut.length_le
      rw [List.length_drop, ← length_eq, ← length_eq] at hle
      have hnew := @putLoop_runs new n allowed 0 k w out h (Nat.zero_le _)
      rw [List.drop_zero] at hnew
      exact Puts.bind hnew fun k out h' => replaceLoop_runs hold h' (by omega)
    | false =>
      rw [dif_neg fun h => absurd h.1 Bool.false_ne_true]
      obtain ⟨c, hget, hc⟩ := drop_text hmore
      rw [hc] at hb ⊢
      rw [hget, intercalate_cons _ fun h => absurd (hb.2 h) Bool.false_ne_true]
      exact Puts.bind (putC_runs h c) fun k out h' => replaceLoop_runs hold h' hmore
  · rw [if_neg hmore, List.drop_of_length_le (by rw [← length_eq]; omega), pieces_nil,
      List.intercalate_singleton]
    exact Runs.ok (Puts.nil h)
termination_by s.length - i

theorem replaceAll_runs (hold : 0 < old.length) (s new out : Chars) :
    Runs allowed (replaceAll s old new out) fun r =>
      (r.1 = true ↔ (new.text.intercalate (pieces old.text s.text)).length < out.size) ∧
      (r.1 = true → r.2.text = new.text.intercalate (pieces old.text s.text)) := by
  have hstart : Wrote [] out.size 0 out := ⟨rfl, Nat.zero_le _, rfl, fun j hj => absurd hj (Nat.not_lt_zero j)⟩
  have hhigh := out.high_add_one
  refine (replaceLoop_runs hold hstart (Nat.zero_le _)).bind ?_
  rintro ⟨ok, k, d⟩ hput
  rw [List.drop_zero, Puts, List.nil_append] at hput
  split_ifs at hput with hfits
  · obtain ⟨rfl, hcount, hle, hsize, hcells⟩ := hput
    dsimp only at hcount hle hsize hcells ⊢
    have hdhigh := d.high_add_one
    rw [Bool.not_true, if_neg Bool.false_ne_true]
    split_ifs with hfull
    · exact Runs.ok ⟨⟨fun h => absurd h Bool.false_ne_true, fun h => by omega⟩,
        fun h => absurd h Bool.false_ne_true⟩
    · have hput := terminate_eq k d
      rw [if_pos (by omega)] at hput
      rw [← hput]
      refine (terminate_runs hsize (by omega) fun j _ hj => hcells j (by omega)).bind fun o ho => ?_
      refine Runs.ok ⟨⟨fun _ => by omega, fun _ => rfl⟩, fun _ => ?_⟩
      rw [ho.text (notMem_intercalate (text_ne_nil hold) new.nul_notMem_text s.nul_notMem_text),
        List.take_of_length_le (by omega)]
  · obtain rfl : ok = false := hput
    exact Runs.ok ⟨⟨fun h => absurd h Bool.false_ne_true, fun h => by omega⟩,
      fun h => absurd h Bool.false_ne_true⟩

/-! ## Agreement -/

/-- The text is cut into `parts` by all of the procedures. -/
structure CutsInto (s sep : Chars) (parts : List (List Code)) : Prop where
  join : sep.text.intercalate parts = s.text
  free : ∀ p ∈ parts, ¬ sep.text <:+: p
  splitCount : Runs (fun _ => False) (splitCount s sep) fun n => n = parts.length
  count : Runs (fun _ => False) (count s sep) fun n => n + 1 = parts.length
  part : ∀ (index : Word) (h : index.toNat < parts.length) (out : Chars), s.length < out.size →
    Runs (fun _ => False) (splitPart s sep index out) fun r => r.1 = true ∧ r.2.text = parts[index.toNat]
  noPart : ∀ (index : Word) (out : Chars), parts.length ≤ index.toNat →
    Runs (fun _ => False) (splitPart s sep index out) fun r => r.1 = false
  replaceAll : ∀ new out : Chars, Runs (fun _ => False) (replaceAll s sep new out) fun r =>
    (r.1 = true ↔ (new.text.intercalate parts).length < out.size) ∧
    (r.1 = true → r.2.text = new.text.intercalate parts)

theorem split_agrees (s sep : Chars) (hsep : sep.text ≠ []) : ∃ parts, CutsInto s sep parts := by
  have hpos : 0 < sep.length := by
    rw [length_eq]
    exact List.length_pos_of_ne_nil hsep
  refine ⟨pieces sep.text s.text, intercalate_pieces hsep _, pieces_free hsep _, splitCount_runs hpos,
    count_runs hpos, fun index h out hout => ?_, fun index out h => ?_, fun new out => replaceAll_runs hpos s new out⟩
  · refine (splitPart_runs hpos index out).mono fun r hr => ?_
    rw [List.getElem?_eq_getElem h] at hr
    refine ⟨hr.1, hr.2.trans (List.take_of_length_le ?_)⟩
    have hle := length_piece_le hsep s.text _ (List.getElem_mem h)
    have hhigh := out.high_add_one
    rw [← length_eq] at hle
    omega
  · refine (splitPart_runs hpos index out).mono fun r hr => ?_
    rw [List.getElem?_eq_none h] at hr
    rw [show r = (false, out) from hr]

/-- The text `a,b`, and a comma. -/
theorem split_agrees_comma :
    (⟨[code ','], by decide, by decide⟩ : Chars).text ≠ [] ∧
      ∃ parts, CutsInto ⟨[code 'a', code ',', code 'b'], by decide, by decide⟩
        ⟨[code ','], by decide, by decide⟩ parts :=
  ⟨by decide, split_agrees _ _ (by decide)⟩

end NewM2.Winrt.StrUtil
