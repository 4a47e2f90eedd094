import Mathlib
import NewM2.Ui.Ptcl.Grammar

/-!
# The parser on a text

`place T s err` is the cursor in front of the end `s` of the text `T`. Each step of the parser goes from place to
place and depends on the text alone, not on what is behind its NUL. It comes to an end as its rest gets shorter. -/

namespace NewM2.Ui.Ptcl

/-- The text is in the array, which has a cell for its NUL and for one more. -/
structure Holds (gEx T : List Code) : Prop where
  noNul : nul ∉ T
  fits : T.length < valMax
  text : T ++ [nul] <+: gEx

def place (T s : List Code) (err : Bool) : Cursor := ⟨T.length - s.length, err⟩

section steps
variable {β γ : Type} {gEx T s s' : List Code} {err : Bool} {c : Code} {k m n : Nat} {v lhs rhs : Int} {op : Op}
  {w : Cursor}

@[simp] theorem place_pos : (place T s err).pos = T.length - s.length := rfl

@[simp] theorem place_err : (place T s err).err = err := rfl

theorem bind_apply (x : Parser β) (f : β → Parser γ) (w : Cursor) : (x >>= f) w = (x w).bind fun r => f r.1 r.2 := rfl

theorem ite_apply (p : Prop) [Decidable p] (x y : Parser β) (w : Cursor) :
    (if p then x else y) w = if p then x w else y w := by
  split <;> rfl

@[simp] theorem except_ok_bind {δ ε : Type} (a : β) (f : β → Except ε δ) : (Except.ok a).bind f = f a := rfl

@[simp] theorem except_error_bind {δ ε : Type} (e : ε) (f : β → Except ε δ) : (Except.error e).bind f = .error e := rfl

theorem Holds.getD_eq (h : Holds gEx T) (hs : s <:+ T) : gEx.getD (T.length - s.length) nul = s.headD nul := by
  obtain ⟨front, rfl⟩ := hs
  obtain ⟨junk, rfl⟩ := h.text
  rw [List.length_append, Nat.add_sub_cancel]
  rcases s with - | ⟨c, s⟩ <;> simp

theorem Holds.charAt_eq (h : Holds gEx T) (hs : s <:+ T) (hk : T.length - s.length = k) :
    charAt gEx k = .ok (s.headD nul) := by
  have hfits := h.fits
  rw [charAt, if_pos (by omega), ← hk, h.getD_eq hs]

theorem place_advance (err : Bool) (hs : s <:+ T) (hk : k ≤ s.length) :
    (⟨(place T s err).pos + k, err⟩ : Cursor) = place T (s.drop k) err := by
  have hle := hs.length_le
  rw [place_pos, place, Cursor.mk.injEq, List.length_drop]
  exact ⟨by omega, rfl⟩

theorem suffix_of_cons (h : c :: s <:+ T) : s <:+ T := (List.suffix_cons c s).trans h

theorem dropBlanks_suffix (h : s <:+ T) : dropBlanks s <:+ T := (List.dropWhile_suffix _).trans h

theorem skipBlanks_place (h : Holds gEx T) (hs : s <:+ T) :
    skipBlanks gEx (place T s err) = .ok ((), place T (dropBlanks s) err) := by
  have hfits := h.fits
  induction s with
  | nil =>
    have hget := h.getD_eq hs
    rw [skipBlanks, if_pos (by rw [place_pos]; omega), if_neg]
    · rfl
    · rw [place_pos, hget]
      decide
  | cons c s ih =>
    have hget := h.getD_eq hs
    rw [skipBlanks, if_pos (by rw [place_pos]; omega)]
    by_cases hc : c = blank
    · rw [if_pos (by rw [place_pos, hget]; exact hc)]
      have hstep := place_advance err hs (show 1 ≤ (c :: s).length by simp)
      rw [List.drop_one, List.tail_cons] at hstep
      show skipBlanks gEx ⟨(place T (c :: s) err).pos + 1, err⟩ = _
      rw [hstep, ih (suffix_of_cons hs)]
      simp [dropBlanks, hc]
    · rw [if_neg (by rw [place_pos, hget]; exact hc), dropBlanks_cons hc]

theorem here_place (h : Holds gEx T) (hs : s <:+ T) : here gEx (place T s err) = .ok (s.headD nul, place T s err) := by
  rw [here, place_pos, h.charAt_eq hs rfl]
  rfl

/-- The value that the loop over the digits leaves. -/
def stepAll (v : Int) (ds : List Code) : Int := ds.foldl (fun v d => step v (digit d)) v

theorem digits_place (h : Holds gEx T) (hs : s <:+ T) :
    digits gEx v (place T s err) =
      .ok (stepAll v (s.takeWhile (isDigit ·)), place T (s.dropWhile (isDigit ·)) err) := by
  have hfits := h.fits
  induction s generalizing v with
  | nil =>
    have hget := h.getD_eq hs
    rw [digits, if_pos (by rw [place_pos]; omega), if_neg]
    · rfl
    · rw [place_pos, hget]
      decide
  | cons c s ih =>
    have hget : gEx.getD (place T (c :: s) err).pos nul = c := h.getD_eq hs
    rw [digits, if_pos (by rw [place_pos]; omega), hget]
    by_cases hc : isDigit c
    · rw [if_pos hc]
      have hstep := place_advance err hs (show 1 ≤ (c :: s).length by simp)
      rw [List.drop_one, List.tail_cons] at hstep
      show digits gEx _ ⟨(place T (c :: s) err).pos + 1, err⟩ = _
      rw [hstep, ih (suffix_of_cons hs)]
      simp [stepAll, hc]
    · rw [if_neg hc]
      simp [stepAll, hc]

theorem operatorHere_place (h : Holds gEx T) (hs : s <:+ T) :
    operatorHere gEx (place T s err) = .ok (opAt s, place T s err) := by
  have hfits := h.fits
  rw [operatorHere, place_pos, h.charAt_eq hs rfl]
  rcases s with - | ⟨c, s⟩
  · -- whatever is behind the NUL
    obtain ⟨d, hd⟩ : ∃ d, charAt gEx (T.length - 0 + 1) = .ok d := ⟨_, if_pos (by omega)⟩
    have hnone : Op.ofChars nul d = none := by simp [Op.ofChars, code, nul]
    have hlt : T.length - 0 < valMax := by omega
    simp only [List.length_nil, hd, if_pos hlt]
    show Except.ok (Op.ofChars nul d, _) = _
    rw [hnone]
    rfl
  · have hlen := hs.length_le
    rw [List.length_cons] at hlen
    have hnext : charAt gEx (T.length - (c :: s).length + 1) = .ok (s.headD nul) :=
      h.charAt_eq (suffix_of_cons hs) (by rw [List.length_cons]; omega)
    have hlt : T.length - (c :: s).length < valMax := by omega
    simp only [hnext, if_pos hlt]
    rfl

/-! ## The parser -/

theorem parseBin_run (w : Cursor) :
    parseBin gEx (n + 1) m w = (parseAtom gEx n w).bind fun r => parseLoop gEx n m r.1 r.2 := by
  rw [parseBin, bind_apply]

theorem parseLoop_run (v : Int) (w : Cursor) :
    parseLoop gEx (n + 1) m v w =
      if w.err = true then .ok (0, w)
      else
        (skipBlanks gEx w).bind fun r =>
          (operatorHere gEx r.2).bind fun r =>
            match r.1 with
            | none => .ok (v, r.2)
            | some op =>
              if op.prec < m then .ok (v, r.2)
              else
                (parseBin gEx n (op.prec + 1) { r.2 with pos := r.2.pos + op.length }).bind fun r =>
                  (applyOp op v r.1 r.2).bind fun r => parseLoop gEx n m r.1 r.2 := by
  rw [parseLoop, bind_apply]
  show (if w.err = true then (pure 0 : Parser Int) else _) w = _
  rw [ite_apply]
  refine congrArg _ ?_
  rw [bind_apply]
  refine congrArg _ (funext fun r => ?_)
  rw [bind_apply]
  refine congrArg _ (funext fun r' => ?_)
  rcases r'.1 with - | op
  · rfl
  · simp only [ite_apply]
    rfl

theorem parseAtom_run (w : Cursor) :
    parseAtom gEx (n + 1) w =
      (skipBlanks gEx w).bind fun r =>
        (here gEx r.2).bind fun r =>
          if r.1 = code '-' then
            (parseAtom gEx n { r.2 with pos := r.2.pos + 1 }).bind fun r => .ok (norm (-r.1), r.2)
          else if r.1 = code '!' then
            (parseAtom gEx n { r.2 with pos := r.2.pos + 1 }).bind fun r => .ok (truth (r.1 = 0), r.2)
          else if r.1 = code '(' then
            (parseBin gEx n 0 { r.2 with pos := r.2.pos + 1 }).bind fun r =>
              (skipBlanks gEx r.2).bind fun r' =>
                (here gEx r'.2).bind fun r' =>
                  if r'.1 = code ')' then .ok (r.1, { r'.2 with pos := r'.2.pos + 1 })
                  else .ok (r.1, { r'.2 with err := true })
          else if isDigit r.1 then digits gEx 0 r.2
          else .ok (0, { r.2 with err := true }) := by
  rw [parseAtom, bind_apply]
  refine congrArg _ (funext fun r => ?_)
  rw [bind_apply]
  refine congrArg _ (funext fun r => ?_)
  simp only [ite_apply]
  refine if_congr Iff.rfl rfl (if_congr Iff.rfl rfl (if_congr Iff.rfl ?_ rfl))
  rw [bind_apply]
  show (parseBin gEx n 0 _).bind _ = _
  refine congrArg _ (funext fun r => ?_)
  rcases r with ⟨v, w⟩
  dsimp only
  rw [bind_apply]
  refine congrArg _ (funext fun r' => ?_)
  rw [bind_apply]
  refine congrArg _ (funext fun r' => ?_)
  by_cases hc : r'.1 = code ')'
  · rw [if_pos hc, if_pos hc]
    rfl
  · rw [if_neg hc, if_neg hc]
    rfl

theorem loop_err (v : Int) (w : Cursor) (h : w.err = true) : parseLoop gEx (n + 1) m v w = .ok (0, w) := by
  rw [parseLoop_run, if_pos h]

/-- The loop on a text without an error: at its end, at a weak operator, and at one that it takes. -/
theorem loop_place (h : Holds gEx T) (hs : s <:+ T) :
    parseLoop gEx (n + 1) m lhs (place T s false) =
      match opAt (dropBlanks s) with
      | none => .ok (lhs, place T (dropBlanks s) false)
      | some op =>
        if op.prec < m then .ok (lhs, place T (dropBlanks s) false)
        else
          (parseBin gEx n (op.prec + 1) (place T ((dropBlanks s).drop op.length) false)).bind fun r =>
            (applyOp op lhs r.1 r.2).bind fun r => parseLoop gEx n m r.1 r.2 := by
  have hdrop := dropBlanks_suffix hs
  rw [parseLoop_run, if_neg (by simp), skipBlanks_place h hs, except_ok_bind, operatorHere_place h hdrop, except_ok_bind]
  rcases hop : opAt (dropBlanks s) with - | op
  · rfl
  · have hadvance := place_advance false hdrop (text_of_opAt hop).2
    simp only
    rw [← hadvance]
    rfl

/-- What `ParseAtom` does with the character in front of it. -/
theorem atom_place (h : Holds gEx T) (hs : s <:+ T) :
    parseAtom gEx (n + 1) (place T s err) =
      match dropBlanks s with
      | [] => .ok (0, place T [] true)
      | c :: s =>
        if c = code '-' then (parseAtom gEx n (place T s err)).bind fun r => .ok (norm (-r.1), r.2)
        else if c = code '!' then (parseAtom gEx n (place T s err)).bind fun r => .ok (truth (r.1 = 0), r.2)
        else if c = code '(' then
          (parseBin gEx n 0 (place T s err)).bind fun r =>
            (skipBlanks gEx r.2).bind fun r' =>
              (here gEx r'.2).bind fun r' =>
                if r'.1 = code ')' then .ok (r.1, { r'.2 with pos := r'.2.pos + 1 })
                else .ok (r.1, { r'.2 with err := true })
        else if isDigit c then
          .ok (stepAll 0 ((c :: s).takeWhile (isDigit ·)), place T ((c :: s).dropWhile (isDigit ·)) err)
        else .ok (0, place T (c :: s) true) := by
  have hdrop := dropBlanks_suffix hs
  rw [parseAtom_run, skipBlanks_place h hs, except_ok_bind, here_place h hdrop, except_ok_bind]
  rcases hsplit : dropBlanks s with - | ⟨c, s'⟩
  · rfl
  · rw [hsplit] at hdrop
    have hadvance := place_advance err hdrop (show 1 ≤ (c :: s').length by simp)
    rw [List.drop_one, List.tail_cons] at hadvance
    simp only
    rw [← hadvance, ← digits_place h hdrop]
    rfl

/-- The end of a text in parentheses. -/
theorem close_place (h : Holds gEx T) (hs : s <:+ T) (v : Int) :
    ((skipBlanks gEx (place T s err)).bind fun r' =>
        (here gEx r'.2).bind fun r' =>
          if r'.1 = code ')' then (.ok (v, { r'.2 with pos := r'.2.pos + 1 }) : Except Stop (Int × Cursor))
          else .ok (v, { r'.2 with err := true })) =
      if (dropBlanks s).head? = some (code ')') then .ok (v, place T (dropBlanks s).tail err)
      else .ok (v, place T (dropBlanks s) true) := by
  have hdrop := dropBlanks_suffix hs
  rw [skipBlanks_place h hs, except_ok_bind, here_place h hdrop, except_ok_bind]
  rcases hsplit : dropBlanks s with - | ⟨c, s'⟩
  · rfl
  · rw [hsplit] at hdrop
    have hadvance := place_advance err hdrop (show 1 ≤ (c :: s').length by simp)
    rw [List.drop_one, List.tail_cons] at hadvance
    by_cases hc : c = code ')'
    · rw [if_pos (by simpa using hc), if_pos (by simpa using hc), List.tail_cons, ← hadvance]
      rfl
    · rw [if_neg (by simpa using hc), if_neg (by simpa using hc)]
      rfl

theorem applyOp_place (op : Op) (lhs v : Int) (err : Bool) :
    (applyOp op lhs v (place T s err) = .error .divOverflow ∧ op.apply lhs v = .error .divOverflow) ∨
      ∃ v' err', applyOp op lhs v (place T s err) = .ok (v', place T s (err || err')) ∧ op.apply lhs v = .ok (v', err') := by
  rcases happly : op.apply lhs v with e | ⟨v', err'⟩
  · obtain rfl : e = .divOverflow := by
      cases op <;> simp only [Op.apply] at happly <;> (try split_ifs at happly) <;> simp_all
    refine .inl ⟨?_, rfl⟩
    rw [applyOp, happly]
    rfl
  · refine .inr ⟨v', err', ?_, rfl⟩
    rw [applyOp, happly]
    rfl

end steps

/-! ## The end of the recursion -/

/-- Two runs that begin in front of `s` end alike: behind some of `s`, or the program stops. -/
inductive Same (T s : List Code) (enough : Prop) : Except Stop (Int × Cursor) → Except Stop (Int × Cursor) → Prop
  | ok {v : Int} {s' : List Code} {err : Bool} :
      s' <:+ s → Same T s enough (.ok (v, place T s' err)) (.ok (v, place T s' err))
  | overflow : Same T s enough (.error .divOverflow) (.error .divOverflow)
  | rounds : ¬ enough → Same T s enough (.error .rounds) (.error .rounds)

section runs
variable {gEx gEx' T s s' : List Code} {err : Bool} {m n : Nat} {v : Int} {p q : Prop} {x x' : Except Stop (Int × Cursor)}

theorem Same.eq (h : Same T s p x x') : x = x' := by cases h <;> rfl

theorem Same.mono (h : Same T s' p x x') (hs : s' <:+ s) (hp : q → p) : Same T s q x x' := by
  cases h with
  | ok hs' => exact .ok (hs'.trans hs)
  | overflow => exact .overflow
  | rounds hn => exact .rounds fun hq => hn (hp hq)

theorem Same.bind {f f' : Int × Cursor → Except Stop (Int × Cursor)} (h : Same T s' p x x') (hp : q → p)
    (hf : ∀ v s'' err, s'' <:+ s' → Same T s q (f (v, place T s'' err)) (f' (v, place T s'' err))) :
    Same T s q (x.bind f) (x'.bind f') := by
  cases h with
  | ok hs' => exact hf _ _ _ hs'
  | overflow => exact .overflow
  | rounds hn => exact .rounds fun hq => hn (hp hq)

theorem suffix_drop (h : s' <:+ s.drop m) : s' <:+ s := h.trans (List.drop_suffix m s)

/-- The recursion needs two calls for a character. -/
theorem parse_same (hg : Holds gEx T) (hg' : Holds gEx' T) (n : Nat) :
    (∀ s err, s <:+ T →
        Same T s (2 * s.length + 1 ≤ n) (parseAtom gEx n (place T s err)) (parseAtom gEx' n (place T s err))) ∧
      (∀ m s err, s <:+ T →
        Same T s (2 * s.length + 2 ≤ n) (parseBin gEx n m (place T s err)) (parseBin gEx' n m (place T s err))) ∧
      ∀ m v s err, s <:+ T →
        Same T s (2 * s.length + 1 ≤ n) (parseLoop gEx n m v (place T s err)) (parseLoop gEx' n m v (place T s err)) := by
  induction n with
  | zero =>
    refine ⟨fun s err _ => ?_, fun m s err _ => ?_, fun m v s err _ => ?_⟩
    · simp only [parseAtom]
      exact .rounds (by omega)
    · simp only [parseBin]
      exact .rounds (by omega)
    · simp only [parseLoop]
      exact .rounds (by omega)
  | succ n ih =>
    obtain ⟨hatom, hbin, hloop⟩ := ih
    refine ⟨fun s err hs => ?_, fun m s err hs => ?_, fun m v s err hs => ?_⟩
    · have hdrop : dropBlanks s <:+ s := List.dropWhile_suffix _
      have hle := hdrop.length_le
      rw [atom_place hg hs, atom_place hg' hs]
      rcases hsplit : dropBlanks s with - | ⟨c, s'⟩
      · exact .ok (List.nil_suffix)
      rw [hsplit] at hdrop hle
      rw [List.length_cons] at hle
      have hs' : s' <:+ s := suffix_of_cons hdrop
      have hT := hs'.trans hs
      simp only
      split
      · exact (hatom s' err hT).bind (by omega) fun v s'' err' h'' => .ok (h''.trans hs')
      split
      · exact (hatom s' err hT).bind (by omega) fun v s'' err' h'' => .ok (h''.trans hs')
      split
      · refine (hbin 0 s' err hT).bind (by omega) fun v s'' err' h'' => ?_
        have hT'' := h''.trans hT
        have hdrop'' : dropBlanks s'' <:+ s := (List.dropWhile_suffix _).trans (h''.trans hs')
        simp only [close_place hg hT'', close_place hg' hT'']
        split
        · exact .ok ((List.tail_suffix _).trans hdrop'')
        · exact .ok hdrop''
      split
      · exact .ok ((List.dropWhile_suffix _).trans hdrop)
      · exact .ok hdrop
    · rw [parseBin_run, parseBin_run]
      refine (hatom s err hs).bind (by omega) fun v s' err' hs' => ?_
      have hle := hs'.length_le
      exact (hloop m v s' err' (hs'.trans hs)).mono hs' (by omega)
    · rcases err with - | -
      · have hdrop : dropBlanks s <:+ s := List.dropWhile_suffix _
        have hle := hdrop.length_le
        rw [loop_place hg hs, loop_place hg' hs]
        rcases hop : opAt (dropBlanks s) with - | op
        · exact .ok hdrop
        have hlen := one_le_length op
        have hfits := (text_of_opAt hop).2
        simp only
        split
        · exact .ok hdrop
        refine (hbin _ _ false ((List.drop_suffix _ _).trans (hdrop.trans hs))).bind
          (by rw [List.length_drop]; omega) fun v' s' err' hs' => ?_
        have hs'' := (suffix_drop hs').trans hdrop
        have hshort := hs'.length_le
        rw [List.length_drop] at hshort
        rcases applyOp_place (T := T) (s := s') op v v' err' with
          ⟨hover, -⟩ | ⟨v'', err'', happly, -⟩
        · simp only [hover]
          exact .overflow
        · simp only [happly]
          exact (hloop m v'' s' _ (hs''.trans hs)).mono hs'' (by omega)
      · rw [loop_err _ _ rfl, loop_err _ _ rfl]
        exact .ok List.suffix_rfl

end runs

end NewM2.Ui.Ptcl
