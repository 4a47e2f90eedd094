import Mathlib
import NewM2.Ui.Ptcl.Value

/-!
# `EvalExpr` follows its grammar

`Expands e s u s'`: the text `e` with its variables and commands replaced is `u`. The array keeps the first
`valMax - 1` characters of it. The quotient and the remainder of MIN(INTEGER) by -1 stop the program, also where the
remainder would be 0. -/

namespace NewM2.Ui.Ptcl

section expands
variable {σ : Type} (getVar : σ → List Code → List Code) (hook : List Code → StateT σ (Except Stop) (Bool × List Code))

/-- The substituted form of a text whose commands succeed, however long it is. The values have a NUL in their array. -/
inductive Expands : List Code → σ → List Code → σ → Prop
  | nil {s : σ} : Expands [] s [] s
  | var {cs u : List Code} {s s' : σ} :
      (textOf (getVar s ((cs.takeWhile isNameCh).take nameMax))).length ≤ valMax → Expands (cs.dropWhile isNameCh) s u s' →
        Expands (code '$' :: cs) s (textOf (getVar s ((cs.takeWhile isNameCh).take nameMax)) ++ u) s'
  | command {cs val u : List Code} {s s1 s' : σ} :
      hook ((bracket 1 cs).1.take valMax) s = .ok ((true, val), s1) → (textOf val).length ≤ valMax →
        Expands (bracket 1 cs).2 s1 u s' →
        Expands (code '[' :: cs) s (textOf val ++ u) s'
  | char {c : Code} {cs u : List Code} {s s' : σ} :
      c ≠ code '$' → c ≠ code '[' → Expands cs s u s' → Expands (c :: cs) s (c :: u) s'

end expands

section substitution
variable {σ : Type} {getVar : σ → List Code → List Code} {hook : List Code → StateT σ (Except Stop) (Bool × List Code)}
  {cs acc u T fresh : List Code} {s s' : σ} {n : Nat} {v : Int} {t : Tree}

theorem push_all (u : List Code) (h : acc.length ≤ valMax - 1) : u.foldl push acc = (acc ++ u).take (valMax - 1) := by
  induction u generalizing acc with
  | nil => rw [List.append_nil, List.take_of_length_le h, List.foldl_nil]
  | cons c u ih =>
    rw [List.foldl_cons, push]
    split_ifs with hroom
    · rw [ih (by rw [List.length_append, List.length_singleton]; omega), List.append_assoc, List.singleton_append]
    · have hfull : acc.length = valMax - 1 := by omega
      rw [ih h, List.take_append_of_le_length hfull.ge, List.take_append_of_le_length hfull.ge]

theorem noNul_textOf (cs : List Code) : nul ∉ textOf cs := by
  intro h
  simpa using List.mem_takeWhile_imp h

theorem bracket_subset (brk : Nat) (cs : List Code) : (bracket brk cs).2 ⊆ cs := by
  induction cs generalizing brk with
  | nil => exact List.Subset.refl _
  | cons c cs ih =>
    rw [bracket]
    split_ifs
    · exact List.subset_cons_of_subset c (ih _)
    · exact List.subset_cons_self c cs
    · exact List.subset_cons_of_subset c (ih _)
    · exact List.subset_cons_of_subset c (ih _)

theorem Expands.noNul (h : Expands getVar hook cs s u s') (hcs : nul ∉ cs) : nul ∉ u := by
  induction h with
  | nil => exact hcs
  | var _ _ ih =>
    rw [List.mem_append, not_or]
    exact ⟨noNul_textOf _, ih fun hmem => hcs (List.mem_cons_of_mem _ ((List.dropWhile_suffix _).subset hmem))⟩
  | command _ _ _ ih =>
    rw [List.mem_append, not_or]
    exact ⟨noNul_textOf _, ih fun hmem => hcs (List.mem_cons_of_mem _ (bracket_subset 1 _ hmem))⟩
  | char _ _ _ ih =>
    rw [List.mem_cons, not_or] at hcs ⊢
    exact ⟨hcs.1, ih hcs.2⟩

theorem scan_run {β : Type} {high : Nat} {cs : List Code} (h : (textOf cs).length ≤ high)
    (f : List Code → StateT σ (Except Stop) β) (s : σ) :
    ((liftM (scan high cs) : StateT σ (Except Stop) (List Code)) >>= f) s = f (textOf cs) s := by
  rw [scan, if_pos h]
  rfl

/-- The array keeps as much of the substituted form as it has room for. -/
theorem substitute_expands (h : Expands getVar hook cs s u s') (hacc : acc.length ≤ valMax - 1) :
    substitute getVar hook cs acc false s = .ok (((acc ++ u).take (valMax - 1), false), s') := by
  have hshort : ∀ w : List Code, (w.take (valMax - 1)).length ≤ valMax - 1 := fun w => by simp
  have htake : ∀ a w : List Code, (a.take (valMax - 1) ++ w).take (valMax - 1) = (a ++ w).take (valMax - 1) := by
    intro a w
    rw [List.take_append, List.take_append, List.take_take, min_self, List.length_take]
    congr 2
    omega
  induction h generalizing acc with
  | nil =>
    rw [substitute, List.append_nil, List.take_of_length_le hacc]
    rfl
  | @var cs u s s' hval _ ih =>
    rw [substitute, if_pos rfl]
    show ((liftM (scan valMax (getVar s _)) : StateT σ (Except Stop) (List Code)) >>= fun val =>
      substitute getVar hook _ (val.foldl push acc) false) s = _
    rw [scan_run hval, push_all _ hacc, ih (hshort _), htake, List.append_assoc]
  | @command cs val u s s1 s' hrun hval _ ih =>
    rw [substitute, if_neg (by decide), if_pos rfl]
    show (hook _ s).bind _ = _
    rw [hrun]
    show ((liftM (scan valMax val) : StateT σ (Except Stop) (List Code)) >>= _) s1 = _
    rw [scan_run hval, push_all _ hacc, ih (hshort _), htake, List.append_assoc]
  | @char c cs u s s' hvar hcommand _ ih =>
    rw [substitute, if_neg hvar, if_neg hcommand]
    have hpush := push_all [c] hacc
    rw [List.foldl_cons, List.foldl_nil] at hpush
    rw [hpush, ih (hshort _), htake, List.append_assoc, List.singleton_append]

theorem holds_fill (hT : nul ∉ T) (hlen : T.length < valMax) : Holds (fill fresh T) T :=
  ⟨hT, hlen, fresh.drop (T.length + 1), by rw [fill, List.append_assoc, List.singleton_append]⟩

theorem evalExpr_run {e : Chars} (h : Expands getVar hook e.text s u s') (fresh : List Code) (n : Nat) :
    evalExpr getVar hook fresh n e s =
      (parse (fill fresh (u.take (valMax - 1))) n false).bind fun r => .ok (r, s') := by
  have hempty : ([] : List Code).length ≤ valMax - 1 := Nat.zero_le _
  have hsub := substitute_expands h hempty
  rw [List.nil_append] at hsub
  show (substitute getVar hook e.text [] false s).bind _ = _
  rw [hsub]
  rfl

/-! ## The result -/

/-- A well-formed expression without a division or a remainder by zero. -/
def Accepts (u : List Code) : Prop := ∃ t, Parses u t ∧ ¬ t.ZeroDivisor

/-- The run, from any `fresh` contents of the array on, follows the grammar on the substituted form `u`. -/
structure Follows (run : List Code → Except Stop ((Bool × Int) × σ)) (u : List Code) (s' : σ) : Prop where
  fresh : ∀ f f', run f = run f'
  ends : ∀ f, (∃ r, run f = .ok r) ∨ run f = .error .divOverflow
  accepts : ∀ f, (∃ v, run f = .ok ((true, v), s')) ↔ Accepts u
  value : ∀ f v t, run f = .ok ((true, v), s') → Parses u t → t.Fits → v = t.exact

/-- The condition. A text that fills the array to the last cell loses its last character. -/
structure Kept (u : List Code) : Prop where
  noOverflow : u.length < valMax → ∀ t, Parses u t → ¬ t.ZeroDivisor → ¬ t.DivOverflow
  accepts : u.length = valMax → (Accepts u ↔ ∃ t, Parses u.dropLast t ∧ t.Defined)
  value : u.length = valMax →
    ∀ t t', Parses u t → t.Fits → Parses u.dropLast t' → t'.Defined → t'.value = t.exact

theorem run_true_iff {e : Chars} (h : Expands getVar hook e.text s u s') (hn : 2 * valMax + 2 ≤ n) :
    evalExpr getVar hook fresh n e s = .ok ((true, v), s') ↔
      ∃ t, Parses (u.take (valMax - 1)) t ∧ t.Defined ∧ t.value = v := by
  have hnul : nul ∉ u := h.noNul fun hmem => by simpa using List.mem_takeWhile_imp hmem
  have hlen : (u.take (valMax - 1)).length ≤ valMax - 1 := by simp
  have hpos : valMax = 1023 := rfl
  have hg : Holds (fill fresh (u.take (valMax - 1))) (u.take (valMax - 1)) :=
    holds_fill (fun hmem => hnul (List.mem_of_mem_take hmem)) (by omega)
  rw [← parse_iff hg (n := n) (by omega), evalExpr_run h]
  rcases parse (fill fresh (u.take (valMax - 1))) n false with e | ⟨b, v'⟩
  · simp
  · simp

theorem take_room (hfit : u.length ≤ valMax) :
    u.take (valMax - 1) = if u.length < valMax then u else u.dropLast := by
  split_ifs with hlt
  · exact List.take_of_length_le (by omega)
  · rw [List.dropLast_eq_take]
    congr 1
    omega

/-- `EvalExpr` follows the grammar on the substituted form if and only if the form is kept. -/
theorem evalExpr_follows_iff {e : Chars} (h : Expands getVar hook e.text s u s') (hfit : u.length ≤ valMax)
    (hn : 2 * valMax + 2 ≤ n) :
    Follows (fun fresh => evalExpr getVar hook fresh n e s) u s' ↔ Kept u := by
  have hnul : nul ∉ u := h.noNul fun hmem => by simpa using List.mem_takeWhile_imp hmem
  have hlen : (u.take (valMax - 1)).length ≤ valMax - 1 := by simp
  have hmax : valMax = 1023 := rfl
  have hg : ∀ fresh, Holds (fill fresh (u.take (valMax - 1))) (u.take (valMax - 1)) := fun fresh =>
    holds_fill (fun hmem => hnul (List.mem_of_mem_take hmem)) (by omega)
  have hends := fun f f' => parse_ends (hg f) (hg f') false (n := n) (by omega)
  constructor
  · intro hfollows
    have haccepts := hfollows.accepts []
    simp only [run_true_iff h hn, take_room hfit] at haccepts
    have hvalue := hfollows.value []
    simp only [run_true_iff h hn, take_room hfit] at hvalue
    refine ⟨fun hlt t ht hzero hover => ?_, fun heq => ?_, fun heq t t' ht hft ht' hd => ?_⟩
    · simp only [if_pos hlt] at haccepts
      obtain ⟨v, t', ht', hd, -⟩ := haccepts.mpr ⟨t, ht, hzero⟩
      exact hd.2 (parses_unique ht ht' ▸ hover)
    · simp only [if_neg heq.not_lt] at haccepts
      rw [← haccepts]
      exact ⟨fun ⟨v, t, ht, hd, _⟩ => ⟨t, ht, hd⟩, fun ⟨t, ht, hd⟩ => ⟨t.value, t, ht, hd, rfl⟩⟩
    · simp only [if_neg heq.not_lt] at hvalue
      exact hvalue t'.value t ⟨t', ht', hd, rfl⟩ ht hft
  · intro hkept
    refine ⟨fun f f' => ?_, fun f => ?_, fun f => ?_, fun f v t hrun ht hft => ?_⟩
    · simp only [evalExpr_run h, (hends f f').1]
    · simp only [evalExpr_run h]
      rcases (hends f f).2 with ⟨r, hr⟩ | hr
      · exact .inl ⟨_, by rw [hr, except_ok_bind]⟩
      · exact .inr (by rw [hr, except_error_bind])
    · simp only [run_true_iff h hn, take_room hfit]
      by_cases hlt : u.length < valMax
      · simp only [if_pos hlt]
        constructor
        · rintro ⟨v, t, ht, hd, -⟩
          exact ⟨t, ht, hd.1⟩
        · rintro ⟨t, ht, hzero⟩
          exact ⟨t.value, t, ht, ⟨hzero, hkept.noOverflow hlt t ht hzero⟩, rfl⟩
      · simp only [if_neg hlt]
        rw [hkept.accepts (by omega)]
        exact ⟨fun ⟨v, t, ht, hd, _⟩ => ⟨t, ht, hd⟩, fun ⟨t, ht, hd⟩ => ⟨t.value, t, ht, hd, rfl⟩⟩
    · obtain ⟨t', ht', hd, rfl⟩ := (run_true_iff h hn).mp hrun
      rw [take_room hfit] at ht'
      by_cases hlt : u.length < valMax
      · rw [if_pos hlt] at ht'
        obtain rfl := parses_unique ht ht'
        exact value_of_fits hft hd.1
      · rw [if_neg hlt] at ht'
        exact hkept.value (by omega) t t' ht hft ht' hd

end substitution

/-- `1+$n*2`, where the variable is `4`. -/
theorem evalExpr_follows_variable :
    Follows (fun fresh => evalExpr (fun _ _ => [code '4']) (fun _ _ => .error .rounds) fresh 2048
      ⟨[code '1', code '+', code '$', code 'n', code '*', code '2'], by decide, by decide⟩ ())
      [code '1', code '+', code '4', code '*', code '2'] () := by
  refine (evalExpr_follows_iff (e := ⟨[code '1', code '+', code '$', code 'n', code '*', code '2'], by decide, by decide⟩)
    ?_ (by decide) (by decide)).mpr ⟨fun _ t ht _ => ?_, fun h => absurd h (by decide), fun h => absurd h (by decide)⟩
  · exact .char (by decide) (by decide) (.char (by decide) (by decide) (.var (by decide) (.char (by decide) (by decide)
      (.char (by decide) (by decide) .nil))))
  · have htree : readTree [code '1', code '+', code '4', code '*', code '2'] =
        some (.bin .add (.num 1) (.bin .mul (.num 4) (.num 2))) := rfl
    obtain rfl := Option.some.inj ((parses_iff.mp ht).symm.trans htree)
    simp [Tree.DivOverflow, Op.Divides]

theorem expands_plain {σ : Type} {getVar : σ → List Code → List Code}
    {hook : List Code → StateT σ (Except Stop) (Bool × List Code)} {cs : List Code} {s : σ}
    (h : ∀ c ∈ cs, c ≠ code '$' ∧ c ≠ code '[') : Expands getVar hook cs s cs s := by
  induction cs with
  | nil => exact .nil
  | cons c cs ih => exact .char (h c (by simp)).1 (h c (by simp)).2 (ih fun d hd => h d (by simp [hd]))

/-- `(-9223372036854775807-1)%-1` -/
def minRemainder : List Code :=
  [code '(', code '-', code '9', code '2', code '2', code '3', code '3', code '7', code '2', code '0', code '3', code '6', code '8', code '5', code '4', code '7', code '7', code '5', code '8', code '0', code '7', code '-', code '1', code ')', code '%', code '-', code '1']

theorem plain_minRemainder : ∀ c ∈ minRemainder, c ≠ code '$' ∧ c ≠ code '[' := by
  simp [minRemainder, code]

theorem text_minRemainder : Chars.text ⟨minRemainder, by decide, by decide⟩ = minRemainder := by
  simp [Chars.text, minRemainder, code, nul]

def minRemainderTree : Tree := .bin .mod (.bin .sub (.neg (.num 9223372036854775807)) (.num 1)) (.neg (.num 1))

theorem parses_minRemainder : Parses minRemainder minRemainderTree := parses_iff.mpr rfl

theorem divOverflow_minRemainder : minRemainderTree.DivOverflow := by
  have hl : (Tree.bin .sub (.neg (.num 9223372036854775807)) (.num 1)).value = minInt := by decide
  have hr : (Tree.neg (.num 1)).value = -1 := by decide
  exact .inr (.inr ⟨.inr rfl, hl, hr⟩)

theorem zeroDivisor_minRemainder : ¬ minRemainderTree.ZeroDivisor := by
  have hr : (Tree.neg (.num 1)).value ≠ 0 := by decide
  simp [minRemainderTree, Tree.ZeroDivisor, Op.Divides, hr]

/-- All values fit, and the result is 0, but the run does not return it. -/
theorem evalExpr_not_follows :
    Parses minRemainder minRemainderTree ∧ ¬ minRemainderTree.ZeroDivisor ∧ minRemainderTree.Fits ∧
      minRemainderTree.exact = 0 ∧
        ∀ fresh v, evalExpr (fun _ _ => []) (fun _ _ => .error .rounds) fresh 2048
          ⟨minRemainder, by decide, by decide⟩ () ≠ .ok ((true, v), ()) := by
  refine ⟨parses_minRemainder, zeroDivisor_minRemainder, ?_, by decide, fun fresh v hrun => ?_⟩
  · simp only [minRemainderTree, Tree.Fits]
    decide
  · have hexp : Expands (fun (_ : Unit) _ => []) (fun _ _ => .error .rounds)
        (Chars.text ⟨minRemainder, by decide, by decide⟩) () minRemainder () := by
      rw [text_minRemainder]
      exact expands_plain plain_minRemainder
    have hfuel : 2 * valMax + 2 ≤ 2048 := by decide
    obtain ⟨t, ht, hd, -⟩ := (run_true_iff hexp hfuel).mp hrun
    rw [List.take_of_length_le (by decide)] at ht
    have hsame : t = minRemainderTree := parses_unique ht parses_minRemainder
    exact hd.2 (hsame ▸ divOverflow_minRemainder)

end NewM2.Ui.Ptcl
