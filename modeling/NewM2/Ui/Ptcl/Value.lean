import Mathlib
import NewM2.Ui.Ptcl.Places

/-!
# The value of an expression

`Tree.exact` is the value in the integers, `Tree.value` the one in INTEGER arithmetic; they are the same as long as
every value fits (`value_of_fits`). The parser computes the values of the tree that the reader builds. -/

namespace NewM2.Ui.Ptcl

/-- `DIV` or `MOD` -/
def Op.Divides (op : Op) : Prop := op = .div ∨ op = .mod

/-- The value in the integers. -/
def Op.exact : Op → Int → Int → Int
  | or, l, r => truth (l ≠ 0 ∨ r ≠ 0)
  | and, l, r => truth (l ≠ 0 ∧ r ≠ 0)
  | eq, l, r => truth (l = r)
  | ne, l, r => truth (l ≠ r)
  | lt, l, r => truth (l < r)
  | le, l, r => truth (l ≤ r)
  | gt, l, r => truth (r < l)
  | ge, l, r => truth (r ≤ l)
  | add, l, r => l + r
  | sub, l, r => l - r
  | mul, l, r => l * r
  | div, l, r => l.fdiv r
  | mod, l, r => l.fmod r

def Op.value (op : Op) (l r : Int) : Int :=
  match op.apply l r with
  | .ok (v, _) => v
  | .error _ => 0

namespace Tree

def exact : Tree → Int
  | num n => n
  | neg t => -t.exact
  | not t => truth (t.exact = 0)
  | bin op l r => op.exact l.exact r.exact

/-- A literal that is too large is MAX(INTEGER). -/
def value : Tree → Int
  | num n => min n maxInt
  | neg t => norm (-t.value)
  | not t => truth (t.value = 0)
  | bin op l r => op.value l.value r.value

/-- A division or a remainder by zero. -/
def ZeroDivisor : Tree → Prop
  | num _ => False
  | neg t => t.ZeroDivisor
  | not t => t.ZeroDivisor
  | bin op l r => l.ZeroDivisor ∨ r.ZeroDivisor ∨ op.Divides ∧ r.value = 0

/-- A division or a remainder of MIN(INTEGER) by -1. -/
def DivOverflow : Tree → Prop
  | num _ => False
  | neg t => t.DivOverflow
  | not t => t.DivOverflow
  | bin op l r => l.DivOverflow ∨ r.DivOverflow ∨ op.Divides ∧ l.value = minInt ∧ r.value = -1

/-- Every value fits in an INTEGER. -/
def Fits : Tree → Prop
  | num n => (n : Int) ≤ maxInt
  | neg t => t.Fits ∧ minInt ≤ -t.exact ∧ -t.exact ≤ maxInt
  | not t => t.Fits
  | bin op l r =>
    l.Fits ∧ r.Fits ∧ minInt ≤ op.exact l.exact r.exact ∧ op.exact l.exact r.exact ≤ maxInt

/-- Every value is defined. -/
def Defined (t : Tree) : Prop := ¬ t.ZeroDivisor ∧ ¬ t.DivOverflow

end Tree

section values
variable {op : Op} {l r v : Int} {t t' l' r' : Tree} {n : Nat}

theorem norm_of_fits (h : minInt ≤ v) (h' : v ≤ maxInt) : norm v = v := by
  rw [minInt] at h
  rw [maxInt] at h'
  exact Int.bmod_eq_of_le (by omega) (by omega)

theorem apply_zero (hop : op.Divides) (hr : r = 0) : op.apply l r = .ok (l, true) := by
  rcases hop with rfl | rfl <;> simp only [Op.apply, if_pos hr]

theorem apply_overflow (hop : op.Divides) (hl : l = minInt) (hr : r = -1) : op.apply l r = .error .divOverflow := by
  subst hl hr
  rcases hop with rfl | rfl <;> rfl

theorem apply_defined (hzero : ¬ (op.Divides ∧ r = 0)) (hover : ¬ (op.Divides ∧ l = minInt ∧ r = -1)) :
    op.apply l r = .ok (op.value l r, false) := by
  have hdiv : op.Divides → r ≠ 0 ∧ ¬ (l = minInt ∧ r = -1) := fun hop =>
    ⟨fun hr => hzero ⟨hop, hr⟩, fun hmin => hover ⟨hop, hmin⟩⟩
  cases op with
  | div =>
    obtain ⟨hr, hmin⟩ := hdiv (.inl rfl)
    simp only [Op.value, Op.apply, if_neg hr, if_neg hmin]
  | mod =>
    obtain ⟨hr, hmin⟩ := hdiv (.inr rfl)
    simp only [Op.value, Op.apply, if_neg hr, if_neg hmin]
  | _ => rfl

theorem value_eq_exact (hzero : ¬ (op.Divides ∧ r = 0)) (h : minInt ≤ op.exact l r) (h' : op.exact l r ≤ maxInt) :
    op.value l r = op.exact l r := by
  have hzero' : op.Divides → r ≠ 0 := fun hop hr => hzero ⟨hop, hr⟩
  have hmin : op = .div → ¬ (l = minInt ∧ r = -1) := by
    rintro rfl ⟨rfl, rfl⟩
    exact absurd h' (by decide)
  cases op with
  | add => exact norm_of_fits h h'
  | sub => exact norm_of_fits h h'
  | mul => exact norm_of_fits h h'
  | div =>
    simp only [Op.value, Op.apply, if_neg (hzero' (.inl rfl)), if_neg (hmin rfl)]
    rfl
  | mod =>
    by_cases hover : l = minInt ∧ r = -1
    · -- the value is 0, the remainder
      rw [hover.1, hover.2]
      decide
    · simp only [Op.value, Op.apply, if_neg (hzero' (.inr rfl)), if_neg hover]
      rfl
  | _ => rfl

theorem defined_bin :
    (Tree.bin op l' r').Defined ↔
      l'.Defined ∧ r'.Defined ∧ ¬ (op.Divides ∧ r'.value = 0) ∧ ¬ (op.Divides ∧ l'.value = minInt ∧ r'.value = -1) := by
  simp only [Tree.Defined, Tree.ZeroDivisor, Tree.DivOverflow]
  tauto

/-- As long as nothing overflows, the value is the one in the integers. -/
theorem value_of_fits (h : t.Fits) (hzero : ¬ t.ZeroDivisor) : t.value = t.exact := by
  induction t with
  | num n => exact min_eq_left h
  | neg t ih =>
    obtain ⟨ht, hmin, hmax⟩ := h
    rw [Tree.value, ih ht hzero]
    exact norm_of_fits hmin hmax
  | not t ih => rw [Tree.value, Tree.exact, ih h hzero]
  | bin op l r ihl ihr =>
    obtain ⟨hl, hr, hmin, hmax⟩ := h
    rw [Tree.ZeroDivisor, not_or, not_or] at hzero
    obtain ⟨hzl, hzr, hz⟩ := hzero
    have hlv := ihl hl hzl
    have hrv := ihr hr hzr
    rw [Tree.value, Tree.exact, hlv, hrv]
    exact value_eq_exact (hrv ▸ hz) hmin hmax

end values

/-! ## Numbers -/

theorem digit_nonneg {d : Code} (hd : isDigit d) : 0 ≤ digit d ∧ digit d ≤ 9 ∧ digit d = ((d.toNat - 48 : Nat) : Int) := by
  simp only [isDigit, decide_eq_true_eq, BitVec.le_def] at hd
  have hlow : (code '0').toNat = 48 := by decide
  have hhigh : (code '9').toNat = 57 := by decide
  rw [hlow, hhigh] at hd
  rw [digit]
  omega

theorem step_min {x : Nat} {d : Int} (hd : 0 ≤ d) (hd' : d ≤ 9) :
    step (min x maxInt) d = min (10 * x + d) maxInt := by
  simp only [step, maxInt]
  split_ifs with h <;> omega

theorem stepAll_digits (ds : List Code) (hds : ∀ d ∈ ds, isDigit d) (x : Nat) :
    stepAll (min x maxInt) ds = min ((ds.foldl (fun n d => 10 * n + (d.toNat - 48)) x : Nat) : Int) maxInt := by
  induction ds generalizing x with
  | nil => rfl
  | cons d ds ih =>
    obtain ⟨h0, h9, hd⟩ := digit_nonneg (hds d (by simp))
    have hstep : step (min x maxInt) (digit d) = min ((10 * x + (d.toNat - 48) : Nat) : Int) maxInt := by
      rw [step_min h0 h9, hd]
      push_cast
      rfl
    rw [stepAll, List.foldl_cons, hstep]
    exact ih (fun d' hd' => hds d' (by simp [hd'])) _

theorem stepAll_number (ds : List Code) (hds : ∀ d ∈ ds, isDigit d) : stepAll 0 ds = min (number ds : Int) maxInt :=
  stepAll_digits ds hds 0

/-! ## The parser and the reader -/

/-- There is an error, or the run stops. -/
def Bad (r : Except Stop (Int × Cursor)) : Prop := ∀ v w, r = .ok (v, w) → w.err = true

/-- The run gives the value of the tree that is read, if it has one. -/
def Matches (T : List Code) (r : Except Stop (Int × Cursor)) : Option (Tree × List Code) → Prop
  | none => Bad r
  | some (t, s) => (t.Defined → r = .ok (t.value, place T s false)) ∧ (¬ t.Defined → Bad r)

section reading
variable {gEx T s s' : List Code} {m n : Nat} {r : Except Stop (Int × Cursor)} {t l : Tree}
  {o : Option (Tree × List Code)}

theorem bad_error (e : Stop) : Bad (.error e) := fun v w h => by cases h

theorem bad_err {v : Int} {w : Cursor} (h : w.err = true) : Bad (.ok (v, w)) := by
  rintro v' w' ⟨⟩
  exact h

theorem Bad.bind {f : Int × Cursor → Except Stop (Int × Cursor)} (h : Bad r)
    (hf : ∀ v w, w.err = true → Bad (f (v, w))) : Bad (r.bind f) := by
  rcases r with e | ⟨v, w⟩
  · exact bad_error e
  · exact hf v w (h v w rfl)

theorem matches_of_bad (h : Bad r) (ho : ∀ t s, o = some (t, s) → ¬ t.Defined) : Matches T r o := by
  rcases o with - | ⟨t, s⟩
  · exact h
  · exact ⟨fun hd => absurd hd (ho t s rfl), fun _ => h⟩

theorem bad_loop (v : Int) (w : Cursor) (hw : w.err = true) : Bad (parseLoop gEx n m v w) := by
  rcases n with - | n
  · simp only [parseLoop]
    exact bad_error _
  · rw [loop_err v w hw]
    exact bad_err hw

theorem bad_applyOp {op : Op} {lhs v : Int} {w : Cursor} (hw : w.err = true) : Bad (applyOp op lhs v w) := by
  intro v' w' h
  rw [applyOp] at h
  rcases happly : op.apply lhs v with e | ⟨v'', err⟩
  · rw [happly] at h
    cases h
  · rw [happly] at h
    obtain ⟨-, rfl⟩ := Prod.mk.inj (Except.ok.inj h)
    simp [hw]

/-- The loop keeps its left operand in the tree. -/
theorem defined_of_readLoop (h : readLoop n m l s = some (t, s')) (ht : t.Defined) : l.Defined := by
  induction n generalizing l s with
  | zero => simp [readLoop] at h
  | succ n ih =>
    rw [readLoop] at h
    rcases hop : opAt (dropBlanks s) with - | op
    · simp only [hop, Option.some.injEq, Prod.mk.injEq] at h
      exact h.1 ▸ ht
    simp only [hop] at h
    by_cases hlow : op.prec < m
    · rw [if_pos hlow, Option.some.injEq, Prod.mk.injEq] at h
      exact h.1 ▸ ht
    rw [if_neg hlow] at h
    obtain ⟨⟨r, s3⟩, -, hrest⟩ := Option.bind_eq_some_iff.mp h
    exact (defined_bin.mp (ih hrest)).1

theorem readAtom_suffix (h : readAtom n s = some (t, s')) : s' <:+ s := by
  obtain ⟨s1, rfl, -⟩ := (read_sound n).1 s t s' h
  exact List.suffix_append s1 s'

theorem readBin_suffix (hm : m ≤ 7) (h : readBin n m s = some (t, s')) : s' <:+ s := by
  obtain ⟨⟨s1, b1, hs, -, -⟩, -, -⟩ := (read_sound n).2.1 m s t s' hm h
  rw [List.nil_append] at hs
  rw [hs, ← List.append_assoc]
  exact List.suffix_append _ s'

/-- One sign in front of an operand. -/
theorem Matches.sign {f : Int → Int} {g : Tree → Tree} (h : Matches T r o) (hvalue : ∀ t, (g t).value = f t.value)
    (hdefined : ∀ t, (g t).Defined ↔ t.Defined) :
    Matches T (r.bind fun r => .ok (f r.1, r.2)) (o.bind fun r => some (g r.1, r.2)) := by
  rcases o with - | ⟨t, s⟩
  · exact Bad.bind h fun v w hw => bad_err hw
  · refine ⟨fun hd => ?_, fun hd => (h.2 (mt (hdefined t).mpr hd)).bind fun v w hw => bad_err hw⟩
    rw [h.1 ((hdefined t).mp hd), except_ok_bind, hvalue t]

/-- The end of a text in parentheses. -/
theorem matches_close (hg : Holds gEx T) (hs : s <:+ T)
    (h : Matches T (parseBin gEx n 0 (place T s false)) (readBin n 0 s)) :
    Matches T
      ((parseBin gEx n 0 (place T s false)).bind fun r =>
        (skipBlanks gEx r.2).bind fun r' =>
          (here gEx r'.2).bind fun r' =>
            if r'.1 = code ')' then .ok (r.1, { r'.2 with pos := r'.2.pos + 1 })
            else .ok (r.1, { r'.2 with err := true }))
      ((readBin n 0 s).bind fun r =>
        if (dropBlanks r.2).head? = some (code ')') then some (r.1, (dropBlanks r.2).tail) else none) := by
  have hsame := (parse_same hg hg n).2.1 0 s false hs
  have hbad : Bad (parseBin gEx n 0 (place T s false)) → Bad
      ((parseBin gEx n 0 (place T s false)).bind fun r =>
        (skipBlanks gEx r.2).bind fun r' =>
          (here gEx r'.2).bind fun r' =>
            if r'.1 = code ')' then .ok (r.1, { r'.2 with pos := r'.2.pos + 1 })
            else .ok (r.1, { r'.2 with err := true })) := by
    intro hb
    generalize parseBin gEx n 0 (place T s false) = r at hsame hb
    cases hsame with
    | @ok v s' err hs' =>
      obtain rfl : err = true := hb _ _ rfl
      rw [except_ok_bind, close_place hg (hs'.trans hs)]
      split <;> exact bad_err rfl
    | overflow => exact bad_error _
    | rounds => exact bad_error _
  rcases hread : readBin n 0 s with - | ⟨t, s'⟩
  · rw [hread] at h
    exact hbad h
  · rw [hread] at h
    have hs' := (readBin_suffix (Nat.zero_le _) hread).trans hs
    rw [Option.bind_some]
    by_cases hd : t.Defined
    · rw [h.1 hd, except_ok_bind, close_place hg hs']
      split
      · exact ⟨fun _ => rfl, fun hn => absurd hd hn⟩
      · exact bad_err rfl
    · refine matches_of_bad (hbad (h.2 hd)) fun t' s'' hsome => ?_
      rw [Option.ite_none_right_eq_some, Option.some.injEq, Prod.mk.injEq] at hsome
      exact hsome.2.1 ▸ hd

theorem matches_bin (hl : Matches T (parseAtom gEx n (place T s false)) (readAtom n s))
    (hloop : ∀ l s', readAtom n s = some (l, s') → l.Defined →
      Matches T (parseLoop gEx n m l.value (place T s' false)) (readLoop n m l s')) :
    Matches T (parseBin gEx (n + 1) m (place T s false)) (readBin (n + 1) m s) := by
  rw [parseBin_run, readBin]
  rcases hread : readAtom n s with - | ⟨l, s'⟩
  · rw [hread] at hl
    exact Bad.bind hl fun v w hw => bad_loop v w hw
  · rw [hread] at hl
    by_cases hd : l.Defined
    · rw [hl.1 hd, except_ok_bind]
      exact hloop l s' hread hd
    · refine matches_of_bad ((hl.2 hd).bind fun v w hw => bad_loop v w hw) fun t s'' ht => ?_
      exact fun hdt => hd (defined_of_readLoop ht hdt)

/-- An operator and its right operand, and then the loop goes on. -/
theorem matches_op {op : Op} {lhs : Tree} (hlhs : lhs.Defined)
    (hr : Matches T (parseBin gEx n (op.prec + 1) (place T s false)) (readBin n (op.prec + 1) s))
    (hloop : ∀ r s', readBin n (op.prec + 1) s = some (r, s') → (Tree.bin op lhs r).Defined →
      Matches T (parseLoop gEx n m (Tree.bin op lhs r).value (place T s' false)) (readLoop n m (.bin op lhs r) s')) :
    Matches T
      ((parseBin gEx n (op.prec + 1) (place T s false)).bind fun r =>
        (applyOp op lhs.value r.1 r.2).bind fun r => parseLoop gEx n m r.1 r.2)
      ((readBin n (op.prec + 1) s).bind fun r => readLoop n m (.bin op lhs r.1) r.2) := by
  have hbad : Bad (parseBin gEx n (op.prec + 1) (place T s false)) → Bad
      ((parseBin gEx n (op.prec + 1) (place T s false)).bind fun r =>
        (applyOp op lhs.value r.1 r.2).bind fun r => parseLoop gEx n m r.1 r.2) := fun hb =>
    hb.bind fun v w hw => (bad_applyOp hw).bind fun v w hw => bad_loop v w hw
  rcases hread : readBin n (op.prec + 1) s with - | ⟨r, s'⟩
  · rw [hread] at hr
    exact hbad hr
  rw [hread] at hr
  rw [Option.bind_some]
  have hundefined : ¬ (Tree.bin op lhs r).Defined →
      ∀ t s'', readLoop n m (.bin op lhs r) s' = some (t, s'') → ¬ t.Defined := fun hd t s'' ht hdt =>
    hd (defined_of_readLoop ht hdt)
  by_cases hd : r.Defined
  · rw [hr.1 hd, except_ok_bind]
    by_cases hzero : op.Divides ∧ r.value = 0
    · refine matches_of_bad ?_ (hundefined fun hbin => (defined_bin.mp hbin).2.2.1 hzero)
      have happly : applyOp op lhs.value r.value (place T s' false) = .ok (lhs.value, place T s' true) := by
        rw [applyOp, apply_zero hzero.1 hzero.2]
        rfl
      rw [happly]
      exact bad_loop _ _ rfl
    by_cases hover : op.Divides ∧ lhs.value = minInt ∧ r.value = -1
    · refine matches_of_bad ?_ (hundefined fun hbin => (defined_bin.mp hbin).2.2.2 hover)
      rw [applyOp, apply_overflow hover.1 hover.2.1 hover.2.2]
      exact bad_error _
    have happly : applyOp op lhs.value r.value (place T s' false) = .ok ((Tree.bin op lhs r).value, place T s' false) := by
      rw [applyOp, apply_defined hzero hover]
      rfl
    rw [happly]
    exact hloop r s' hread (defined_bin.mpr ⟨hlhs, hd, hzero, hover⟩)
  · exact matches_of_bad (hbad (hr.2 hd)) (hundefined fun hbin => hd (defined_bin.mp hbin).2.1)

theorem parse_matches (hg : Holds gEx T) (n : Nat) :
    (∀ s, s <:+ T → Matches T (parseAtom gEx n (place T s false)) (readAtom n s)) ∧
      (∀ m s, s <:+ T → m ≤ 7 → Matches T (parseBin gEx n m (place T s false)) (readBin n m s)) ∧
      ∀ m l s, s <:+ T → m ≤ 7 → l.Defined →
        Matches T (parseLoop gEx n m l.value (place T s false)) (readLoop n m l s) := by
  induction n with
  | zero =>
    refine ⟨fun s _ => ?_, fun m s _ _ => ?_, fun m l s _ _ _ => ?_⟩
    · simp only [parseAtom, readAtom]
      exact bad_error _
    · simp only [parseBin, readBin]
      exact bad_error _
    · simp only [parseLoop, readLoop]
      exact bad_error _
  | succ n ih =>
    obtain ⟨hatom, hbin, hloop⟩ := ih
    refine ⟨fun s hs => ?_, fun m s hs hm => ?_, fun m l s hs hm hl => ?_⟩
    · have hdrop := dropBlanks_suffix hs
      rw [atom_place hg hs, readAtom]
      rcases hsplit : dropBlanks s with - | ⟨c, s'⟩
      · exact bad_err rfl
      rw [hsplit] at hdrop
      have hs' := suffix_of_cons hdrop
      simp only
      by_cases hneg : c = code '-'
      · rw [if_pos hneg, if_pos hneg]
        exact Matches.sign (f := fun v => norm (-v)) (g := .neg) (hatom s' hs') (fun _ => rfl) fun _ => Iff.rfl
      rw [if_neg hneg, if_neg hneg]
      by_cases hnot : c = code '!'
      · rw [if_pos hnot, if_pos hnot]
        exact Matches.sign (f := fun v => truth (v = 0)) (g := .not) (hatom s' hs') (fun _ => rfl) fun _ => Iff.rfl
      rw [if_neg hnot, if_neg hnot]
      by_cases hparen : c = code '('
      · rw [if_pos hparen, if_pos hparen]
        exact matches_close hg hs' (hbin 0 s' hs' (Nat.zero_le _))
      rw [if_neg hparen, if_neg hparen]
      by_cases hdigit : isDigit c
      · rw [if_pos hdigit, if_pos hdigit]
        refine ⟨fun _ => ?_, fun hd => absurd ⟨id, id⟩ hd⟩
        rw [stepAll_number _ fun d hd => by simpa using List.mem_takeWhile_imp hd]
        rfl
      · rw [if_neg hdigit, if_neg hdigit]
        exact bad_err rfl
    · refine matches_bin (hatom s hs) fun l s' hread hd => ?_
      exact hloop m l s' ((readAtom_suffix hread).trans hs) hm hd
    · have hdrop := dropBlanks_suffix hs
      rw [loop_place hg hs, readLoop]
      rcases hop : opAt (dropBlanks s) with - | op
      · exact ⟨fun _ => rfl, fun hd => absurd hl hd⟩
      simp only
      by_cases hlow : op.prec < m
      · rw [if_pos hlow, if_pos hlow]
        exact ⟨fun _ => rfl, fun hd => absurd hl hd⟩
      rw [if_neg hlow, if_neg hlow]
      have hprec := Nat.succ_le_succ (prec_le_six op)
      have hright := (List.drop_suffix op.length (dropBlanks s)).trans hdrop
      refine matches_op hl (hbin (op.prec + 1) _ hright hprec) fun r s' hread hd => ?_
      exact hloop m _ s' ((readBin_suffix hprec hread).trans hright) hm hd

/-! ## The whole text -/

theorem parse_run (n : Nat) (err : Bool) :
    parse gEx n err =
      (parseBin gEx n 0 ⟨0, err⟩).bind fun r =>
        (skipBlanks gEx r.2).bind fun r' => (charAt gEx r'.2.pos).bind fun c => .ok (!(r'.2.err || c ≠ nul), r.1) := rfl

theorem finish_place (hg : Holds gEx T) (hs : s <:+ T) (v : Int) (err : Bool) :
    ((skipBlanks gEx (place T s err)).bind fun r' =>
        (charAt gEx r'.2.pos).bind fun c => (.ok (!(r'.2.err || c ≠ nul), v) : Except Stop (Bool × Int))) =
      .ok (!(err || dropBlanks s ≠ []), v) := by
  have hdrop := dropBlanks_suffix hs
  rw [skipBlanks_place hg hs, except_ok_bind, place_pos, hg.charAt_eq hdrop rfl, except_ok_bind, place_err]
  rcases hsplit : dropBlanks s with - | ⟨c, s'⟩
  · rfl
  · rw [hsplit] at hdrop
    have hc : c ≠ nul := fun hc => hg.noNul (hdrop.subset (by simp [hc]))
    simp [hc]

/-- The value does not depend on what is behind the NUL, and the recursion comes to an end. -/
theorem parse_ends (hg : Holds gEx T) (hg' : Holds gEx' T) (err : Bool) (hn : 2 * T.length + 2 ≤ n) :
    parse gEx n err = parse gEx' n err ∧ ((∃ r, parse gEx n err = .ok r) ∨ parse gEx n err = .error .divOverflow) := by
  have hsame := (parse_same hg hg' n).2.1 0 T err List.suffix_rfl
  have hstart : place T T err = ⟨0, err⟩ := by simp [place]
  rw [hstart] at hsame
  rw [parse_run, parse_run]
  generalize parseBin gEx n 0 ⟨0, err⟩ = r at hsame
  generalize parseBin gEx' n 0 ⟨0, err⟩ = r' at hsame
  cases hsame with
  | ok hs => exact ⟨by simp only [except_ok_bind, finish_place hg hs, finish_place hg' hs],
      .inl ⟨_, by rw [except_ok_bind, finish_place hg hs]⟩⟩
  | overflow => exact ⟨rfl, .inr rfl⟩
  | rounds hfew => exact absurd hn hfew

theorem parse_iff (hg : Holds gEx T) (hn : 2 * T.length + 2 ≤ n) (v : Int) :
    parse gEx n false = .ok (true, v) ↔ ∃ t, Parses T t ∧ t.Defined ∧ t.value = v := by
  have hmatch := (parse_matches hg n).2.1 0 T List.suffix_rfl (Nat.zero_le _)
  have hsame := (parse_same hg hg n).2.1 0 T false List.suffix_rfl
  have hstart : place T T false = ⟨0, false⟩ := by simp [place]
  rw [hstart] at hmatch hsame
  rw [parse_run]
  constructor
  · intro h
    rcases hrun : parseBin gEx n 0 ⟨0, false⟩ with e | ⟨v', w⟩
    · rw [hrun] at h
      cases h
    rw [hrun] at h hmatch hsame
    obtain ⟨s, err, hs, rfl⟩ : ∃ s err, s <:+ T ∧ w = place T s err := by
      generalize hr : (Except.ok (v', w) : Except Stop (Int × Cursor)) = r at hsame
      cases hsame with
      | ok hs =>
        obtain ⟨rfl, rfl⟩ := Prod.mk.inj (Except.ok.inj hr)
        exact ⟨_, _, hs, rfl⟩
      | overflow => cases hr
      | rounds => cases hr
    rw [except_ok_bind, finish_place hg hs] at h
    obtain ⟨hok, rfl⟩ := Prod.mk.inj (Except.ok.inj h)
    have hnobad : ¬ Bad (.ok (v', place T s err)) := by
      intro hb
      obtain rfl : err = true := hb _ _ rfl
      simp at hok
    rcases hread : readBin n 0 T with - | ⟨t, s'⟩
    · rw [hread] at hmatch
      exact absurd hmatch hnobad
    rw [hread] at hmatch
    have hd : t.Defined := not_not.mp fun hd => hnobad (hmatch.2 hd)
    obtain ⟨rfl, hplace⟩ := Prod.mk.inj (Except.ok.inj (hmatch.1 hd))
    have hreads := (read_sound n).2.1 0 T t s' (Nat.zero_le _) hread
    have hlen : s.length = s'.length := by
      have hle := hs.length_le
      have hle' := (readBin_suffix (Nat.zero_le _) hread).length_le
      have hpos := congrArg Cursor.pos hplace
      rw [place_pos, place_pos] at hpos
      omega
    have hsuffix : s = s' :=
      (List.suffix_of_suffix_length_le hs (readBin_suffix (Nat.zero_le _) hread) hlen.le).eq_of_length hlen
    have hnil : s' = [] := by
      rw [← hreads.blanks, ← hsuffix]
      simp only [Bool.not_eq_true', Bool.or_eq_false_iff, decide_eq_false_iff_not, not_not] at hok
      exact hok.2
    exact ⟨t, parses_of_readBin (hnil ▸ hread), hd, rfl⟩
  · rintro ⟨t, ht, hd, rfl⟩
    rw [readBin_of_parses ht hn] at hmatch
    rw [hmatch.1 hd, except_ok_bind, finish_place hg (List.nil_suffix)]
    rfl

end reading

end NewM2.Ui.Ptcl
