import Mathlib
import NewM2.Lexer.Preprocess
import NewM2.Lexer.Coverage

/-!
# Preprocessing keeps every byte in its place

A scanner of `Preproc` writes the bytes it takes, as they are or blank (`Writes`), and a directive is
blank from its `%` to the last letter of its last keyword. So the mode changes only behind ASCII bytes,
and what is written is the text with some of its characters made blank (`Masked`).
-/

namespace NewM2.Lexer
open Utf8

/-- A text without all but its rest. -/
theorem drop_taken (taken rest : Bytes) :
    (taken ++ rest).drop ((taken ++ rest).length - rest.length) = rest := by
  rw [List.length_append, Nat.add_sub_cancel_right, List.drop_left]

namespace Preproc

/-! ## What the scanners write -/

/-- Bytes in the mode of `p`. -/
def mask (p : Preproc) (bytes : Bytes) : Bytes := bytes.map fun c => if p.active then c else blank c

/-- From `p` to `p'` the bytes `taken` were written. -/
structure Writes (p p' : Preproc) (taken : Bytes) : Prop where
  stack : p'.stack = p.stack
  out : p'.out = p.out ++ p.mask taken

variable {p p' p'' : Preproc}

namespace Writes

theorem refl (p : Preproc) : Writes p p [] := ⟨rfl, (List.append_nil _).symm⟩

theorem active {taken : Bytes} (h : Writes p p' taken) : p'.active = p.active := by
  rw [Preproc.active, h.stack, ← Preproc.active]

theorem trans {taken taken' : Bytes} (h : Writes p p' taken) (h' : Writes p' p'' taken') :
    Writes p p'' (taken ++ taken') := by
  refine ⟨h'.stack.trans h.stack, ?_⟩
  rw [h'.out, h.out, mask, mask, mask, h.active, List.map_append, List.append_assoc]

end Writes

theorem emitByte_writes (p : Preproc) (c : UInt8) : Writes p (p.emitByte c) [c] := ⟨rfl, rfl⟩

theorem applyVersionNames_writes (p : Preproc) (names : Bytes) : Writes p (p.applyVersionNames names) [] :=
  ⟨rfl, (List.append_nil _).symm⟩

theorem applyPragmaBody_writes (p : Preproc) (body : Bytes) : Writes p (p.applyPragmaBody body) [] := by
  unfold applyPragmaBody
  cases matches? (ascii "/VERSION:") (trim body) with
  | none => exact .refl p
  | some names => exact applyVersionNames_writes p names

theorem copyLineComment_writes (p : Preproc) (src : Bytes) :
    ∃ taken, src = taken ++ (copyLineComment p src).2 ∧ Writes p (copyLineComment p src).1 taken := by
  induction src generalizing p with
  | nil => exact ⟨[], rfl, .refl p⟩
  | cons c cs ih =>
    rw [copyLineComment]
    split_ifs with hc
    · exact ⟨[c], rfl, emitByte_writes p c⟩
    · obtain ⟨taken, htaken, hw⟩ := ih (p.emitByte c)
      exact ⟨c :: taken, congrArg (c :: ·) htaken, (emitByte_writes p c).trans hw⟩

theorem copyString_writes {delimiter : UInt8} {src rest : Bytes}
    (h : copyString delimiter p src = .ok (p', rest)) : ∃ taken, src = taken ++ rest ∧ Writes p p' taken := by
  induction src generalizing p with
  | nil => cases h
  | cons c cs ih =>
    rw [copyString] at h
    split_ifs at h with hnl hc
    · cases h
      exact ⟨[c], rfl, emitByte_writes p c⟩
    · obtain ⟨taken, htaken, hw⟩ := ih h
      exact ⟨c :: taken, congrArg (c :: ·) htaken, (emitByte_writes p c).trans hw⟩

theorem copyPragma_writes {body src rest : Bytes} (h : copyPragma body p src = .ok (p', rest)) :
    ∃ taken, src = taken ++ rest ∧ Writes p p' taken := by
  induction src generalizing p body with
  | nil => cases h
  | cons c cs ih =>
    rw [copyPragma] at h
    split_ifs at h with hend hactive
    · obtain ⟨rfl, hhead⟩ := hend
      rcases cs with - | ⟨d, cs⟩
      · cases hhead
      cases hhead
      cases h
      refine ⟨[star, greater], rfl, ?_⟩
      exact ((applyPragmaBody_writes p body).trans (emitByte_writes _ star)).trans
        (emitByte_writes _ greater)
    · obtain ⟨rfl, hhead⟩ := hend
      rcases cs with - | ⟨d, cs⟩
      · cases hhead
      cases hhead
      cases h
      exact ⟨[star, greater], rfl, (emitByte_writes p star).trans (emitByte_writes _ greater)⟩
    · obtain ⟨taken, htaken, hw⟩ := ih h
      exact ⟨c :: taken, congrArg (c :: ·) htaken, (emitByte_writes p c).trans hw⟩

theorem copyBlockComment_writes {depth skip : Nat} {src rest : Bytes}
    (h : copyBlockComment depth skip p src = .ok (p', rest)) :
    ∃ taken, src.drop skip = taken ++ rest ∧ Writes p p' taken := by
  induction depth, skip, p, src using copyBlockComment.induct generalizing p' rest with
  | case1 => simp [copyBlockComment] at h
  | case2 depth skip p c cs ih =>
    rw [copyBlockComment] at h
    exact ih h
  | case3 depth p c cs hopen ih =>
    rw [copyBlockComment, if_pos hopen] at h
    obtain ⟨rfl, hhead⟩ := hopen
    rcases cs with - | ⟨d, cs⟩
    · cases hhead
    cases hhead
    obtain ⟨taken, htaken, hw⟩ := ih h
    refine ⟨lparen :: star :: taken, congrArg (lparen :: star :: ·) htaken, ?_⟩
    exact ((emitByte_writes p lparen).trans (emitByte_writes _ star)).trans hw
  | case4 depth p c cs hopen hpragma hcloses ih =>
    rw [copyBlockComment, if_neg hopen, if_pos hpragma, if_pos hcloses] at h
    obtain ⟨rfl, hhead⟩ := hpragma
    rcases cs with - | ⟨d, cs⟩
    · cases hhead
    cases hhead
    obtain ⟨⟨p₁, rest₁⟩, hpragma, h⟩ := bind_eq_ok h
    obtain ⟨taken, rfl, hw⟩ := copyPragma_writes hpragma
    obtain ⟨taken', htaken', hw'⟩ := ih p₁ rest₁ h
    rw [← List.cons_append, drop_taken] at htaken'
    refine ⟨less :: star :: (taken ++ taken'), ?_, ?_⟩
    · rw [htaken', List.drop_zero, List.cons_append, List.cons_append, List.append_assoc]
    · exact (((emitByte_writes p less).trans (emitByte_writes _ star)).trans hw).trans hw'
  | case5 depth p c cs hopen hpragma hcloses ih =>
    rw [copyBlockComment, if_neg hopen, if_pos hpragma, if_neg hcloses] at h
    obtain ⟨taken, htaken, hw⟩ := ih h
    exact ⟨c :: taken, congrArg (c :: ·) htaken, (emitByte_writes p c).trans hw⟩
  | case6 p c cs hopen hpragma hclose =>
    rw [copyBlockComment, if_neg hopen, if_neg hpragma, if_pos hclose, if_pos rfl] at h
    obtain ⟨rfl, hhead⟩ := hclose
    rcases cs with - | ⟨d, cs⟩
    · cases hhead
    cases hhead
    cases h
    exact ⟨[star, rparen], rfl, (emitByte_writes p star).trans (emitByte_writes _ rparen)⟩
  | case7 depth p c cs hopen hpragma hclose p₁ hone =>
    rename_i ih
    rw [copyBlockComment, if_neg hopen, if_neg hpragma, if_pos hclose, if_neg hone] at h
    obtain ⟨rfl, hhead⟩ := hclose
    rcases cs with - | ⟨d, cs⟩
    · cases hhead
    cases hhead
    obtain ⟨taken, htaken, hw⟩ := ih h
    refine ⟨star :: rparen :: taken, congrArg (star :: rparen :: ·) htaken, ?_⟩
    exact ((emitByte_writes p star).trans (emitByte_writes _ rparen)).trans hw
  | case8 depth p c cs hopen hpragma hclose ih =>
    rw [copyBlockComment, if_neg hopen, if_neg hpragma, if_neg hclose] at h
    obtain ⟨taken, htaken, hw⟩ := ih h
    exact ⟨c :: taken, congrArg (c :: ·) htaken, (emitByte_writes p c).trans hw⟩

/-! ## What directives write -/

/-- The first and the last byte are ASCII. -/
def Edges (text : Bytes) : Prop := ∃ x y, text.head? = some x ∧ text.getLast? = some y ∧ x < 128 ∧ y < 128

theorem Edges.of_ascii {text : Bytes} (hne : text ≠ []) (h : ∀ x ∈ text, x < 128) : Edges text :=
  ⟨text.head hne, text.getLast hne, List.head?_eq_some_head hne, List.getLast?_eq_some_getLast hne,
    h _ (List.head_mem hne), h _ (List.getLast_mem hne)⟩

theorem Edges.ne_nil {text : Bytes} (h : Edges text) : text ≠ [] := by
  rintro rfl
  obtain ⟨_, _, hx, -⟩ := h
  cases hx

theorem Edges.append {a b : Bytes} (ha : Edges a) (hb : Edges b) (mid : Bytes) : Edges (a ++ (mid ++ b)) := by
  obtain ⟨x, -, hx, -, hx', -⟩ := ha
  obtain ⟨-, y, -, hy, -, hy'⟩ := hb
  refine ⟨x, y, ?_, ?_, hx', hy'⟩
  · rw [List.head?_append, hx, Option.some_or]
  · rw [List.getLast?_append, List.getLast?_append, hy, Option.some_or, Option.some_or]

/-- From `p` to `p'` the bytes `taken` were written as blanks. -/
structure Erases (p p' : Preproc) (taken : Bytes) : Prop where
  env : p'.env = p.env
  stack : p'.stack = p.stack
  out : p'.out = p.out ++ taken.map blank

theorem Erases.trans {taken taken' : Bytes} (h : Erases p p' taken) (h' : Erases p' p'' taken') :
    Erases p p'' (taken ++ taken') := by
  refine ⟨h'.env.trans h.env, h'.stack.trans h.stack, ?_⟩
  rw [h'.out, h.out, List.map_append, List.append_assoc]

theorem eraseBytes_erases (p : Preproc) (cs : Bytes) : Erases p (p.eraseBytes cs) cs := ⟨rfl, rfl, rfl⟩

theorem isAsciiAlphabetic_ascii {c : UInt8} (h : isAsciiAlphabetic c) : c < 128 :=
  isWordByte_ascii (by simp [isWordByte, h])

/-- The `%` and the letters behind it. -/
theorem keyword_edges (cs : Bytes) : Edges (percent :: cs.takeWhile isAsciiAlphabetic) := by
  refine .of_ascii (List.cons_ne_nil _ _) (List.forall_mem_cons.2 ⟨by decide, ?_⟩)
  exact takeWhile_ascii (fun _ => isAsciiAlphabetic_ascii) cs

/-- A condition is erased up to the end of its `%THEN`, and evaluated in the environment before it. -/
theorem readExprThen_erases {skip : Nat} {buf src rest : Bytes} {value : Bool}
    (h : readExprThen skip buf p src = .ok (value, p', rest)) :
    ∃ taken kw, src.drop skip = taken ++ percent :: (kw ++ rest) ∧ Edges (percent :: kw) ∧
      Erases p p' (taken ++ percent :: kw) := by
  induction src generalizing skip buf p with
  | nil => simp [readExprThen] at h
  | cons c cs ih =>
    rcases skip with - | skip
    · have hsplit : cs = cs.takeWhile isAsciiAlphabetic ++ cs.drop (cs.takeWhile isAsciiAlphabetic).length := by
        rw [drop_takeWhile, List.takeWhile_append_dropWhile]
      by_cases hc : c = percent
      · subst hc
        have hedges := keyword_edges cs
        have herase := eraseBytes_erases p (percent :: cs.takeWhile isAsciiAlphabetic)
        simp only [readExprThen, if_true] at h
        generalize cs.takeWhile isAsciiAlphabetic = kw at *
        have hoperator {buf : Bytes}
            (h : readExprThen kw.length buf (p.eraseBytes (percent :: kw)) cs = .ok (value, p', rest)) :
            ∃ taken kw, percent :: cs = taken ++ percent :: (kw ++ rest) ∧ Edges (percent :: kw) ∧
              Erases p p' (taken ++ percent :: kw) := by
          obtain ⟨taken, kw', htaken, hedges', hw⟩ := ih h
          refine ⟨percent :: kw ++ taken, kw', ?_, hedges', ?_⟩
          · rw [List.append_assoc, ← htaken, List.cons_append, ← hsplit]
          · rw [List.append_assoc]
            exact herase.trans hw
        split_ifs at h with hthen hand hor hnot
        · obtain ⟨v, -, h⟩ := bind_eq_ok h
          cases h
          exact ⟨[], kw, congrArg (percent :: ·) hsplit, hedges, herase⟩
        · exact hoperator h
        · exact hoperator h
        · exact hoperator h
      · rw [readExprThen, if_neg hc] at h
        obtain ⟨taken, kw, htaken, hedges, hw⟩ := ih h
        exact ⟨c :: taken, kw, congrArg (c :: ·) htaken, hedges, (eraseBytes_erases p [c]).trans hw⟩
    · rw [readExprThen] at h
      exact ih h

/-- A directive is erased from its `%` to the end of its last keyword. -/
theorem handleDirective_erases {cs rest : Bytes} (h : handleDirective p cs = .ok (p', rest)) :
    ∃ taken, percent :: cs = taken ++ rest ∧ Edges taken ∧ p'.env = p.env ∧
      p'.out = p.out ++ taken.map blank := by
  have hsplit : cs = cs.takeWhile isAsciiAlphabetic ++ cs.drop (cs.takeWhile isAsciiAlphabetic).length := by
    rw [drop_takeWhile, List.takeWhile_append_dropWhile]
  have hedges := keyword_edges cs
  have herase := eraseBytes_erases p (percent :: cs.takeWhile isAsciiAlphabetic)
  simp only [handleDirective] at h
  generalize cs.takeWhile isAsciiAlphabetic = kw at *
  have halone {stack : List BranchState} (hrest : cs.drop kw.length = rest)
      (hp : { p.eraseBytes (percent :: kw) with stack } = p') :
      ∃ taken, percent :: cs = taken ++ rest ∧ Edges taken ∧ p'.env = p.env ∧
        p'.out = p.out ++ taken.map blank := by
    subst hp hrest
    exact ⟨percent :: kw, congrArg (percent :: ·) hsplit, hedges, herase.env, herase.out⟩
  have hcondition {stack : List BranchState} {cond : Bool} {p₁ : Preproc}
      (hcond : readExprThen 0 [] (p.eraseBytes (percent :: kw)) (cs.drop kw.length) = .ok (cond, p₁, rest))
      (hp : { p₁ with stack } = p') :
      ∃ taken, percent :: cs = taken ++ rest ∧ Edges taken ∧ p'.env = p.env ∧
        p'.out = p.out ++ taken.map blank := by
    obtain ⟨taken, kw', htaken, hedges', hw⟩ := readExprThen_erases hcond
    subst hp
    refine ⟨percent :: kw ++ (taken ++ percent :: kw'), ?_, hedges.append hedges' taken,
      (herase.trans hw).env, (herase.trans hw).out⟩
    rw [List.drop_zero] at htaken
    simp only [List.cons_append, List.append_assoc]
    rw [← htaken, ← hsplit]
  split_ifs at h with hif helsif helse hend
  · obtain ⟨⟨cond, p₁, rest₁⟩, hcond, h⟩ := bind_eq_ok h
    cases h
    exact hcondition hcond rfl
  · split at h
    · cases h
    · obtain ⟨⟨cond, p₁, rest₁⟩, hcond, h⟩ := bind_eq_ok h
      cases h
      exact hcondition hcond rfl
  · split at h
    · cases h
    · cases h
      exact halone rfl rfl
  · split at h
    · cases h
    · cases h
      exact halone rfl rfl

/-! ## The pass over the text -/

theorem blank_ascii (c : UInt8) : blank c < 128 := by
  unfold blank
  split_ifs <;> decide

theorem masked_writes {done taken : Bytes} (h : Masked blank p.active done p.out) (hw : Writes p p' taken) :
    Masked blank p'.active (done ++ taken) p'.out := by
  rw [hw.active, hw.out]
  exact h.append taken

theorem masked_erases {keep : Bool} (keep' : Bool) {done out taken : Bytes} (h : Masked blank keep done out)
    (htaken : Edges taken) : Masked blank keep' (done ++ taken) (out ++ taken.map blank) := by
  obtain ⟨x, y, hx, hy, hx', hy'⟩ := htaken
  obtain ⟨tail, rfl⟩ := List.head?_eq_some_iff.1 hx
  rcases List.eq_nil_or_concat' tail with rfl | ⟨mid, z, rfl⟩
  · exact h.ascii keep' hx' (.inr rfl)
  · obtain rfl : z = y := by
      rw [← List.cons_append, List.getLast?_concat] at hy
      exact Option.some.inj hy
    have hfirst := h.ascii false hx' (.inr rfl)
    have hlast := (hfirst.append mid).ascii keep' hy' (.inr rfl)
    simpa using hlast

theorem run_masked {skip : Nat} {src done : Bytes} (h : run skip p src = .ok p')
    (hp : Masked blank p.active done p.out) : Masked blank p'.active (done ++ src.drop skip) p'.out := by
  induction src generalizing skip p done with
  | nil =>
    rw [run] at h
    split_ifs at h
    cases h
    rwa [List.drop_nil, List.append_nil]
  | cons c cs ih =>
    rcases skip with - | skip
    · have hnext {p₁ : Preproc} {taken rest : Bytes} (hcs : cs = taken ++ rest)
          (hmask : Masked blank p₁.active (done ++ c :: taken) p₁.out)
          (h : run (cs.length - rest.length) p₁ cs = .ok p') :
          Masked blank p'.active (done ++ c :: cs) p'.out := by
        have hrest := ih h hmask
        rwa [hcs, drop_taken, List.append_assoc, List.cons_append, ← hcs] at hrest
      have hc := emitByte_writes p c
      rw [run] at h
      split_ifs at h with hcomment hline hstring hpragma hpercent
      · obtain ⟨rfl, hhead⟩ := hcomment
        rcases cs with - | ⟨d, cs⟩
        · cases hhead
        cases hhead
        obtain ⟨⟨p₁, rest⟩, hcopy, h⟩ := bind_eq_ok h
        obtain ⟨taken, htaken, hw⟩ := copyBlockComment_writes hcopy
        have hcs : star :: cs = (star :: taken) ++ rest := congrArg (star :: ·) htaken
        refine hnext hcs (masked_writes hp ?_) h
        exact (hc.trans (emitByte_writes _ star)).trans hw
      · have hne : ¬ c = newline := by
          rintro rfl
          exact absurd hline.1 (by decide)
        rw [copyLineComment, if_neg hne] at h
        obtain ⟨taken, htaken, hw⟩ := copyLineComment_writes (p.emitByte c) cs
        exact hnext htaken (masked_writes hp (hc.trans hw)) h
      · obtain ⟨⟨p₁, rest⟩, hcopy, h⟩ := bind_eq_ok h
        obtain ⟨taken, htaken, hw⟩ := copyString_writes hcopy
        exact hnext htaken (masked_writes hp (hc.trans hw)) h
      · obtain ⟨rfl, hhead⟩ := hpragma
        rcases cs with - | ⟨d, cs⟩
        · cases hhead
        cases hhead
        obtain ⟨⟨p₁, rest⟩, hcopy, h⟩ := bind_eq_ok h
        obtain ⟨taken, htaken, hw⟩ := copyPragma_writes hcopy
        have hcs : star :: cs = (star :: taken) ++ rest := congrArg (star :: ·) htaken
        refine hnext hcs (masked_writes hp ?_) h
        exact (hc.trans (emitByte_writes _ star)).trans hw
      · subst hpercent
        obtain ⟨⟨p₁, rest⟩, hdirective, h⟩ := bind_eq_ok h
        obtain ⟨taken, htaken, hedges, -, hout⟩ := handleDirective_erases hdirective
        obtain ⟨d, tail, rfl⟩ := List.exists_cons_of_ne_nil hedges.ne_nil
        obtain ⟨rfl, hcs⟩ := List.cons.inj htaken
        refine hnext hcs ?_ h
        rw [hout]
        exact masked_erases p₁.active hp hedges
      · have hrest := ih h (masked_writes hp hc)
        rwa [List.append_assoc] at hrest
    · rw [run] at h
      exact ih h hp

end Preproc

theorem preprocess_masked {src out : Bytes} {env : Env} (h : preprocess src env = .ok out) :
    ∃ keep, Masked Preproc.blank keep src out := by
  unfold preprocess at h
  split_ifs at h with hpercent
  · obtain ⟨p, hrun, h⟩ := bind_eq_ok h
    cases h
    exact ⟨_, Preproc.run_masked hrun (.nil _)⟩
  · cases h
    have hnil : Masked Preproc.blank true [] [] := .nil true
    refine ⟨true, ?_⟩
    simpa using hnil.append src

/-! ## Positions -/

theorem blank_newline (c : UInt8) : Preproc.blank c = newline ↔ c = newline := by
  unfold Preproc.blank
  split_ifs with hc
  · exact ⟨fun _ => hc, fun _ => rfl⟩
  · exact ⟨fun h => absurd h (by decide), fun h => absurd h hc⟩

theorem foldl_next_eq {src out : Bytes} (h : List.Forall₂ (fun c o => o = c ∨ o = Preproc.blank c) src out)
    (p : SourcePosition) : out.foldl SourcePosition.next p = src.foldl SourcePosition.next p := by
  induction h generalizing p with
  | nil => rfl
  | @cons c o src out ho _ ih =>
    have hnext : p.next o = p.next c := by
      rcases ho with rfl | rfl
      · rfl
      · simp only [SourcePosition.next, blank_newline]
    rw [List.foldl_cons, List.foldl_cons, hnext, ih]

theorem position_eq {src out : Bytes} (h : List.Forall₂ (fun c o => o = c ∨ o = Preproc.blank c) src out)
    (n : Nat) : position out n = position src n := by
  have htake := foldl_next_eq (List.forall₂_take n h) .start
  rwa [← positionBehind_nil, foldl_next, foldl_next] at htake

theorem getElem?_eq {src out : Bytes} (h : List.Forall₂ (fun c o => o = c ∨ o = Preproc.blank c) src out)
    (i : Nat) : src[i]? = none ∧ out[i]? = none ∨
      ∃ c o, src[i]? = some c ∧ out[i]? = some o ∧ (o = c ∨ o = Preproc.blank c) := by
  induction h generalizing i with
  | nil => exact .inl ⟨rfl, rfl⟩
  | @cons c o src out ho _ ih =>
    cases i with
    | zero => exact .inr ⟨c, o, rfl, rfl, ho⟩
    | succ i => exact ih i

/-- What `preprocess` gives has every byte of the source in its place or blank, and is a text with all
its tokens where they are in the source. -/
theorem preprocess_positions {source : String} {env : Env} {out : Bytes}
    (h : preprocess (encode source.toList) env = .ok out) :
    out.length = (encode source.toList).length ∧
      (∀ i : Nat, out[i]? = some newline ↔ (encode source.toList)[i]? = some newline) ∧
      (∀ (i : Nat) (o : UInt8), out[i]? = some o → (encode source.toList)[i]? = some o ∨ o = space) ∧
      (∃ text, decode out = some text) ∧
      ∀ (toks : List Token) (t : Token), tokenize out = .ok toks → t ∈ toks →
        t.span.start = position (encode source.toList) t.span.start.offset ∧
        t.span.stop = position (encode source.toList) t.span.stop.offset := by
  obtain ⟨keep, hmasked⟩ := preprocess_masked h
  have hsame := hmasked.forall₂
  have hvalid : Valid out := hmasked.valid Preproc.blank_ascii ⟨source.toList, rfl⟩
  refine ⟨hsame.length_eq.symm, fun i => ?_, fun i o ho => ?_, ?_, fun toks t htoks ht => ?_⟩
  · rcases getElem?_eq hsame i with ⟨hsrc, hout⟩ | ⟨c, o, hsrc, hout, ho⟩
    · rw [hsrc, hout]
    · rw [hsrc, hout, Option.some_inj, Option.some_inj]
      rcases ho with rfl | rfl
      · exact Iff.rfl
      · exact blank_newline c
  · rcases getElem?_eq hsame i with ⟨hsrc, hout⟩ | ⟨c, o', hsrc, hout, ho'⟩
    · cases hout.symm.trans ho
    · obtain rfl : o' = o := Option.some.inj (hout.symm.trans ho)
      rcases ho' with rfl | rfl
      · exact .inl hsrc
      · unfold Preproc.blank
        split_ifs with hc
        · exact .inl (hc ▸ hsrc)
        · exact .inr rfl
  · exact Option.isSome_iff_exists.1 (decode_isSome.2 hvalid)
  · obtain ⟨cs, rfl⟩ := hvalid
    have hcovers := tokenize_covers (String.ofList cs)
    rw [String.toList_ofList] at hcovers
    rcases hcovers with ⟨toks', htoks', hcoverage⟩ | ⟨_, _, herror⟩
    · obtain rfl := Except.ok.inj (htoks'.symm.trans htoks)
      have hpos := hcoverage.positions t ht
      rw [String.toList_ofList, position_eq hsame, position_eq hsame] at hpos
      exact hpos
    · cases herror.symm.trans htoks

theorem preprocess_positions_else :
    ∃ out, preprocess (encode "%IF A %THEN é %ELSE\nx %END".toList) .empty = .ok out ∧
      out.length = 27 ∧ ∃ text, decode out = some text := by
  have h : preprocess (encode "%IF A %THEN é %ELSE\nx %END".toList) .empty =
      .ok (encode "                    \nx     ".toList) := by
    decide +kernel
  obtain ⟨hlen, -, -, htext, -⟩ := preprocess_positions h
  exact ⟨_, h, hlen, htext⟩

end NewM2.Lexer
