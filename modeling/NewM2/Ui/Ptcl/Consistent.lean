import Mathlib
import NewM2.Lib.Runs
import NewM2.Ui.Ptcl.Substitution
import NewM2.Ui.Ptcl.Interp

/-!
# The evaluator keeps its state consistent

`Valid` is the invariant of the global variables: all tables and texts are within their arrays. `Does d Q x`: the
script `x`, run at the nesting `d`, gives a result with `Q`, and the state is again valid and at the same nesting; the
only thing that can stop it is a quotient that does not fit. Without a `Reset` no variable disappears. -/

namespace NewM2.Ui.Ptcl

structure Valid {σ : Type} (s : State σ) : Prop where
  vars : s.vars.length ≤ maxVars
  var : ∀ v ∈ s.vars, v.1.length ≤ nameMax ∧ copy valMax v.2 = v.2
  cmds : s.cmds.length ≤ maxCmds
  procs : s.procs.length ≤ maxProcs
  proc : ∀ p ∈ s.procs, p.2.parm.length ≤ argMax ∧ p.2.body.length ≤ valMax
  args : s.args.length ≤ maxArgs
  arg : ∀ a ∈ s.args, a.length ≤ argMax
  result : s.result.length ≤ valMax
  errMsg : s.errMsg.length ≤ valMax

/-- What a run from `s` to `s'` keeps. -/
structure Leads {σ : Type} (s s' : State σ) : Prop where
  valid : Valid s'
  depth : s'.depth = s.depth
  resets : s.resets ≤ s'.resets
  defined : s'.resets = s.resets → ∀ name, (lookup name s.vars).isSome → (lookup name s'.vars).isSome

/-- The only error. -/
def overflows (e : Stop) : Prop := e = .divOverflow

def Does {σ β : Type} (d : Nat) (Q : β → Prop) (x : Script σ β) : Prop :=
  ∀ s, Valid s → s.depth = d → Runs overflows (x s) fun r => Q r.1 ∧ Leads s r.2

/-! ## Texts and tables -/

section texts
variable {cs w : List Code} {high : Nat} {c : Code}

theorem length_textOf_le (cs : List Code) : (textOf cs).length ≤ cs.length := (List.takeWhile_prefix _).length_le

theorem length_copy_le (high : Nat) (cs : List Code) : (copy high cs).length ≤ high := by
  rw [copy, List.length_take]
  exact min_le_left _ _

theorem textOf_of_noNul (h : nul ∉ cs) : textOf cs = cs := by
  rw [textOf, List.takeWhile_eq_self_iff]
  intro c hc
  simpa using fun hnul : c = nul => h (hnul ▸ hc)

theorem copy_copy (high : Nat) (cs : List Code) : copy high (copy high cs) = copy high cs := by
  have hnul : nul ∉ copy high cs := fun h => noNul_textOf cs (List.take_subset _ _ h)
  rw [copy, textOf_of_noNul hnul, List.take_of_length_le (length_copy_le high cs)]

theorem length_appCh_le (h : w.length ≤ argMax) (c : Code) : (appCh w c).length ≤ argMax := by
  rw [appCh]
  split_ifs with hroom
  · rw [List.length_append, List.length_singleton]
    exact hroom
  · exact h

theorem length_foldl_appCh_le (h : w.length ≤ argMax) (cs : List Code) : (cs.foldl appCh w).length ≤ argMax := by
  induction cs generalizing w with
  | nil => exact h
  | cons c cs ih => exact ih (length_appCh_le h c)

theorem length_readBraces (br : Nat) (cs w : List Code) (h : w.length ≤ argMax) :
    (readBraces br cs w).1.length ≤ cs.length ∧ (readBraces br cs w).2.length ≤ argMax := by
  induction cs generalizing br w with
  | nil => exact ⟨le_rfl, h⟩
  | cons c cs ih =>
    have hstep := length_appCh_le h c
    rw [readBraces]
    split_ifs
    · exact ⟨(ih _ _ hstep).1.trans (Nat.le_succ _), (ih _ _ hstep).2⟩
    · exact ⟨Nat.le_succ _, h⟩
    · exact ⟨(ih _ _ hstep).1.trans (Nat.le_succ _), (ih _ _ hstep).2⟩
    · exact ⟨(ih _ _ hstep).1.trans (Nat.le_succ _), (ih _ _ hstep).2⟩

end texts

section tables
variable {β : Type} {name name' entry : List Code} {x : β} {l : List (List Code × β)}

theorem mem_of_lookup (h : lookup name l = some x) : (name, x) ∈ l := by
  induction l with
  | nil => cases h
  | cons p l ih =>
    rw [lookup] at h
    split_ifs at h with heq
    · obtain rfl := Option.some.inj h
      rw [← heq]
      exact List.mem_cons_self ..
    · exact List.mem_cons_of_mem _ (ih h)

theorem length_store (name entry : List Code) (x : β) (l : List (List Code × β)) :
    (store name entry x l).length = if (lookup name l).isSome then l.length else l.length + 1 := by
  induction l with
  | nil => rfl
  | cons p l ih =>
    rw [store, lookup]
    by_cases heq : p.1 = name
    · rw [if_pos heq, if_pos heq]
      rfl
    · rw [if_neg heq, if_neg heq, List.length_cons, ih, List.length_cons]
      split <;> rfl

theorem mem_store {p : List Code × β} (h : p ∈ store name entry x l) :
    p ∈ l ∨ p = (entry, x) ∨ ∃ y, (p.1, y) ∈ l ∧ p.2 = x := by
  induction l with
  | nil => exact .inr (.inl (List.mem_singleton.1 h))
  | cons q l ih =>
    rw [store] at h
    split_ifs at h with heq
    · rcases List.mem_cons.1 h with rfl | h
      · exact .inr (.inr ⟨q.2, List.mem_cons_self .., rfl⟩)
      · exact .inl (List.mem_cons_of_mem _ h)
    · rcases List.mem_cons.1 h with rfl | h
      · exact .inl (List.mem_cons_self ..)
      · rcases ih h with hmem | hnew | ⟨y, hmem, hx⟩
        · exact .inl (List.mem_cons_of_mem _ hmem)
        · exact .inr (.inl hnew)
        · exact .inr (.inr ⟨y, List.mem_cons_of_mem _ hmem, hx⟩)

theorem lookup_store_self (x : β) (l : List (List Code × β)) : lookup name (store name name x l) = some x := by
  induction l with
  | nil => rw [store, lookup, if_pos rfl]
  | cons p l ih =>
    rw [store]
    split_ifs with heq
    · rw [lookup, if_pos heq]
    · rw [lookup, if_neg heq, ih]

theorem lookup_store_ne (hne : name' ≠ name) (x : β) (l : List (List Code × β)) :
    lookup name' (store name name x l) = lookup name' l := by
  induction l with
  | nil => exact if_neg hne.symm
  | cons p l ih =>
    rw [store]
    split_ifs with heq
    · rw [lookup, lookup]
      split_ifs with heq'
      · exact absurd (heq'.symm.trans heq) hne
      · rfl
    · rw [lookup, lookup, ih]

end tables

/-! ## The rules -/

section rules
variable {σ β γ : Type} {d : Nat} {Q : β → Prop} {Q' : γ → Prop} {x : Script σ β}
  {f : β → Script σ γ} {s s' s'' : State σ}

theorem Leads.refl (h : Valid s) : Leads s s := ⟨h, rfl, le_rfl, fun _ _ h => h⟩

theorem Leads.trans (h : Leads s s') (h' : Leads s' s'') : Leads s s'' :=
  ⟨h'.valid, h'.depth.trans h.depth, h.resets.trans h'.resets, fun hsame name hn =>
    h'.defined (by have := h.resets; have := h'.resets; omega) name
      (h.defined (by have := h.resets; have := h'.resets; omega) name hn)⟩

theorem Does.bind (hx : Does d Q x) (hf : ∀ a, Q a → Does d Q' (f a)) : Does d Q' (x >>= f) := by
  intro s hs hd
  refine Runs.bindS (hx s hs hd) ?_
  rintro a s' ⟨ha, hs'⟩
  exact (hf a ha s' hs'.valid (hs'.depth.trans hd)).mono fun r hr => ⟨hr.1, hs'.trans hr.2⟩

theorem Does.mono {Q₁ : β → Prop} (hx : Does d Q₁ x) (hQ : ∀ a, Q₁ a → Q a) : Does d Q x := fun s hs hd =>
  (hx s hs hd).mono fun _ hr => ⟨hQ _ hr.1, hr.2⟩

theorem Does.pure {a : β} (h : Q a) : Does d Q (Pure.pure a : Script σ β) := fun _ hs _ => Runs.ok ⟨h, Leads.refl hs⟩

theorem Does.get : Does d (Valid) (MonadState.get : Script σ (State σ)) := fun _ hs _ =>
  Runs.ok ⟨hs, Leads.refl hs⟩

theorem get_bind (f : State σ → Script σ β) (s : State σ) : ((MonadState.get : Script σ (State σ)) >>= f) s = f s s := rfl

theorem Does.modify {f : State σ → State σ} (h : ∀ s, Valid s → Leads s (f s)) :
    Does d (fun _ => True) (modify f : Script σ PUnit) := fun s hs _ => Runs.ok ⟨trivial, h s hs⟩

theorem Does.scan {high : Nat} {cs : List Code} (h : cs.length ≤ high) :
    Does d (· = textOf cs) (liftM (scan high cs) : Script σ (List Code)) := by
  intro s hs _
  rw [Ptcl.scan, if_pos ((length_textOf_le cs).trans h)]
  exact Runs.ok ⟨rfl, Leads.refl hs⟩

theorem Does.ite {p : Prop} [Decidable p] {y : Script σ β} (hx : p → Does d Q x) (hy : ¬ p → Does d Q y) :
    Does d Q (if p then x else y) := by
  split_ifs with h
  · exact hx h
  · exact hy h

end rules

/-! ## Primitive updates -/

section updates
variable {σ : Type} {d : Nat} {name val : List Code} {s : State σ}

/-- The state, but for the variables, the tables and the arguments. -/
theorem Valid.texts (h : Valid s) {result errMsg : List Code} (hresult : result.length ≤ valMax)
    (herr : errMsg.length ≤ valMax) (hasErr : Bool) (depth : Nat) (host : σ) :
    Valid { s with result := result, errMsg := errMsg, hasErr := hasErr, depth := depth, host := host } :=
  ⟨h.vars, h.var, h.cmds, h.procs, h.proc, h.args, h.arg, hresult, herr⟩

theorem length_getVar_le (h : Valid s) {v : List Code} (hv : s.getVar name = some v) : v.length ≤ valMax := by
  have hcopy : copy valMax v = v := (h.var _ (mem_of_lookup hv)).2
  rw [← hcopy]
  exact length_copy_le _ _

theorem length_valueOf_le (h : Valid s) (name : List Code) : (s.valueOf name).length ≤ valMax := by
  rw [State.valueOf]
  rcases hv : s.getVar name with _ | v
  · exact Nat.zero_le _
  · exact length_getVar_le h hv

theorem lookup_store_isSome {β : Type} {n key : List Code} {x : β} {l : List (List Code × β)} (h : (lookup n l).isSome) :
    (lookup n (store key key x l)).isSome := by
  by_cases hn : n = key
  · rw [hn, lookup_store_self]
    rfl
  · rwa [lookup_store_ne hn]

theorem Valid.storeVar (h : Valid s) (hname : name.length ≤ nameMax)
    (hroom : (lookup name s.vars).isSome ∨ s.vars.length < maxVars) (val : List Code) :
    Leads s { s with vars := store name name (copy valMax val) s.vars } := by
  refine ⟨⟨?_, fun v hv => ?_, h.cmds, h.procs, h.proc, h.args, h.arg, h.result, h.errMsg⟩, rfl, le_rfl, fun _ n hn => ?_⟩
  · rw [length_store]
    split_ifs with hsome
    · exact h.vars
    · exact hroom.resolve_left hsome
  · rcases mem_store hv with hmem | rfl | ⟨y, hmem, hy⟩
    · exact h.var v hmem
    · exact ⟨hname, copy_copy _ _⟩
    · exact ⟨(h.var _ hmem).1, hy ▸ copy_copy _ _⟩
  · exact lookup_store_isSome hn

theorem setVar_does (name val : List Code) : Does d (fun _ => True) (setVar name val : Script σ Unit) := by
  intro s hs _
  rw [setVar, get_bind]
  split_ifs with hlong hsome hfull
  · exact Runs.ok ⟨trivial, Leads.refl hs⟩
  · exact Runs.ok ⟨trivial, hs.storeVar (not_lt.1 hlong) (.inl hsome) val⟩
  · exact Runs.ok ⟨trivial, Leads.refl hs⟩
  · have hindex : index (σ := σ) s.vars.length (maxVars - 1) = pure () := if_pos (by omega)
    rw [hindex]
    exact Runs.ok ⟨trivial, hs.storeVar (not_lt.1 hlong) (.inr (by omega)) val⟩

theorem register_does (name : List Code) (proc : Host σ) :
    Does d (fun _ => True) (register name proc : Script σ Unit) := by
  intro s hs _
  have hstore : (lookup (textOf name) s.cmds).isSome ∨ s.cmds.length < maxCmds →
      Leads s { s with cmds := store (textOf name) (copy nameMax name) proc s.cmds } := by
    intro hroom
    refine ⟨⟨hs.vars, hs.var, ?_, hs.procs, hs.proc, hs.args, hs.arg, hs.result, hs.errMsg⟩, rfl,
      le_rfl, fun _ _ hn => hn⟩
    · change (store _ _ _ s.cmds).length ≤ maxCmds
      rw [length_store]
      split_ifs with hsome
      · exact hs.cmds
      · exact hroom.resolve_left hsome
  rw [register, get_bind]
  split_ifs with hsome hfull
  · exact Runs.ok ⟨trivial, hstore (.inl hsome)⟩
  · exact Runs.ok ⟨trivial, Leads.refl hs⟩
  · have hindex : index (σ := σ) s.cmds.length (maxCmds - 1) = pure () := if_pos (by omega)
    rw [hindex]
    exact Runs.ok ⟨trivial, hstore (.inr (not_le.1 hfull))⟩

theorem defProc_does (name parms body : List Code) :
    Does d (fun _ => True) (defProc name parms body : Script σ Unit) := by
  intro s hs _
  have hstore : (lookup (textOf name) s.procs).isSome ∨ s.procs.length < maxProcs → Leads s
      { s with procs := store (textOf name) (copy nameMax name) ⟨copy argMax parms, copy valMax body⟩ s.procs } := by
    intro hroom
    refine ⟨⟨hs.vars, hs.var, hs.cmds, ?_, fun p hp => ?_, hs.args, hs.arg, hs.result, hs.errMsg⟩, rfl,
      le_rfl, fun _ _ hn => hn⟩
    · change (store _ _ _ s.procs).length ≤ maxProcs
      rw [length_store]
      split_ifs with hsome
      · exact hs.procs
      · exact hroom.resolve_left hsome
    · rcases mem_store hp with hmem | rfl | ⟨y, -, hy⟩
      · exact hs.proc p hmem
      · exact ⟨length_copy_le _ _, length_copy_le _ _⟩
      · exact hy ▸ ⟨length_copy_le _ _, length_copy_le _ _⟩
  rw [defProc, get_bind]
  split_ifs with hsome hfull
  · exact Runs.ok ⟨trivial, hstore (.inl hsome)⟩
  · exact Runs.ok ⟨trivial, Leads.refl hs⟩
  · have hindex : index (σ := σ) s.procs.length (maxProcs - 1) = pure () := if_pos (by omega)
    rw [hindex]
    exact Runs.ok ⟨trivial, hstore (.inr (not_le.1 hfull))⟩

theorem setResult_does (cs : List Code) : Does d (fun _ => True) (setResult cs : Script σ Unit) :=
  Does.modify fun s hs => ⟨hs.texts (length_copy_le _ _) hs.errMsg s.hasErr s.depth s.host, rfl, le_rfl, fun _ _ h => h⟩

theorem fail_does (msg : List Code) : Does d (fun _ => True) (fail msg : Script σ Unit) :=
  Does.modify fun s hs => ⟨hs.texts hs.result (length_copy_le _ _) true s.depth s.host, rfl, le_rfl, fun _ _ h => h⟩

theorem failed_does (msg : List Code) : Does d (fun _ => True) (failed msg : Script σ Bool) :=
  (fail_does msg).bind fun _ _ => Does.pure trivial

theorem failedUnlessErr_does (msg : List Code) : Does d (fun _ => True) (failedUnlessErr msg : Script σ Bool) :=
  Does.get.bind fun _ _ => Does.ite (fun _ => Does.pure trivial) fun _ => failed_does msg

theorem length_arg_le (h : Valid s) (i : Nat) : (s.args.getD i []).length ≤ argMax := by
  rw [List.getD_eq_getElem?_getD]
  rcases hget : s.args[i]? with _ | cs
  · exact Nat.zero_le _
  · exact h.arg cs (List.mem_of_getElem? hget)

theorem arg_does (i : Nat) : Does d (fun cs => cs.length ≤ argMax) (arg i : Script σ (List Code)) :=
  Does.get.bind fun _ hs => Does.pure (length_arg_le hs i)

end updates

/-! ## Words -/

section words
variable {σ : Type} {d high : Nat} {self : Nat → List Code → Script σ (Bool × List Code)}
  {cs w : List Code} {subErr : Bool}

/-- The nested evaluation is consistent. -/
def SelfDoes (d : Nat) (self : Nat → List Code → Script σ (Bool × List Code)) : Prop :=
  ∀ high cs, Does d (fun r => r.2.length ≤ high) (self high cs)

theorem substChar_does (hself : SelfDoes d self) (c : Code) (cs : List Code) (hw : w.length ≤ argMax) :
    Does d (fun r => r.1.length ≤ cs.length ∧ r.2.1.length ≤ argMax) (substChar self (c :: cs) w subErr) := by
  rw [substChar]
  refine Does.ite (fun _ => ?_) fun _ => Does.ite (fun _ => ?_) fun _ => Does.pure ⟨le_rfl, length_appCh_le hw c⟩
  · refine Does.get.bind fun s hs => (Does.scan (length_valueOf_le hs _)).bind fun val _ => Does.pure ?_
    exact ⟨(List.dropWhile_suffix _).length_le, length_foldl_appCh_le hw val⟩
  · refine (hself _ _).bind fun r hr => Does.ite (fun _ => ?_) fun _ => ?_
    · refine (Does.scan hr).bind fun val _ => Does.pure ?_
      exact ⟨length_bracket_le 1 cs, length_foldl_appCh_le hw val⟩
    · have herr : Does d (fun _ => True)
          (modify fun s => { s with errMsg := copy valMax r.2 } : Script σ PUnit) :=
        Does.modify fun s hs =>
          ⟨hs.texts hs.result (length_copy_le _ _) s.hasErr s.depth s.host, rfl, le_rfl, fun _ _ hn => hn⟩
      exact herr.bind fun _ _ => Does.pure ⟨length_bracket_le 1 cs, hw⟩

theorem readTo_does (hself : SelfDoes d self) (ends : Code → Bool) (n : Nat) (cs : List Code)
    (hw : w.length ≤ argMax) (hn : cs.length < n) :
    Does d (fun r => r.1.length ≤ cs.length ∧ r.2.1.length ≤ argMax) (readTo self ends n cs w subErr) := by
  induction n generalizing cs w subErr with
  | zero => exact absurd hn (Nat.not_lt_zero _)
  | succ n ih =>
    rw [readTo.eq_def]
    rcases cs with _ | ⟨c, cs⟩
    · exact Does.pure ⟨le_rfl, hw⟩
    · refine Does.ite (fun _ => Does.pure ⟨le_rfl, hw⟩) fun _ => ?_
      refine (substChar_does hself c cs hw).bind fun r hr => ?_
      refine (ih r.1 hr.2 (lt_of_le_of_lt hr.1 (Nat.lt_of_succ_lt_succ hn))).mono fun r' hr' => ⟨?_, hr'.2⟩
      exact hr'.1.trans (hr.1.trans (Nat.le_succ _))

theorem readWord_does (hself : SelfDoes d self) {c : Code} (hc : isSep c = false) (cs : List Code) :
    Does d (fun r => r.1.length ≤ cs.length ∧ r.2.1.length ≤ argMax) (readWord self (c :: cs)) := by
  rw [readWord]
  refine Does.ite (fun _ => ?_) fun _ => Does.ite (fun _ => ?_) fun _ => ?_
  · exact Does.pure (length_readBraces 1 cs [] (Nat.zero_le _))
  · refine (readTo_does hself _ _ cs (Nat.zero_le _) (Nat.lt_succ_self _)).bind fun r hr => Does.pure ⟨?_, hr.2⟩
    exact (List.tail_suffix _).length_le.trans hr.1
  · -- the first character is not a separator, so that it is taken
    rw [readTo, hc]
    refine (substChar_does hself c cs (Nat.zero_le _)).bind fun r hr => ?_
    exact (readTo_does hself isSep _ r.1 hr.2 (Nat.lt_succ_of_le hr.1)).mono fun r' hr' => ⟨hr'.1.trans hr.1, hr'.2⟩

/-- The result of `readWords` behind `words`, with `k` characters at most left. -/
structure Collected (words : List (List Code)) (k : Nat) (r : List Code × List (List Code) × Bool) : Prop where
  rest : r.1.length ≤ k
  kept : words <+: r.2.1
  count : r.2.1.length ≤ maxArgs
  each : ∀ w ∈ r.2.1, w.length ≤ argMax

theorem isSep_eq (c : Code) : isSep c = (isBlank c || isEnd c) := by
  rw [isSep, isBlank, isEnd]
  simp only [← Bool.decide_or, or_assoc]

theorem readWords_does (hself : SelfDoes d self) (n : Nat) (cs : List Code) (words : List (List Code))
    (hn : cs.length < n) (hcount : words.length ≤ maxArgs) (heach : ∀ w ∈ words, w.length ≤ argMax) :
    Does d (Collected words cs.length) (readWords self n cs words) := by
  induction n generalizing cs words with
  | zero => exact absurd hn (Nat.not_lt_zero _)
  | succ n ih =>
    rw [readWords]
    have hle : (cs.dropWhile isBlank).length ≤ cs.length := (List.dropWhile_suffix _).length_le
    rcases hdrop : cs.dropWhile isBlank with _ | ⟨c, cs'⟩
    · exact Does.pure ⟨Nat.zero_le _, List.prefix_rfl, hcount, heach⟩
    have hc : isBlank c = false := by
      simpa [hdrop] using List.head_dropWhile_not (p := isBlank) (l := cs) (by simp [hdrop])
    rw [hdrop] at hle
    refine Does.ite (fun _ => Does.pure ⟨hle, List.prefix_rfl, hcount, heach⟩) fun hend => ?_
    refine Does.ite (fun _ => Does.pure ⟨?_, List.prefix_rfl, hcount, heach⟩) fun hroom => ?_
    · exact (List.dropWhile_suffix _).length_le.trans hle
    have hindex : index (σ := σ) words.length (maxArgs - 1) = pure () := if_pos (by omega)
    have hsep : isSep c = false := by rw [isSep_eq, hc, Bool.eq_false_of_not_eq_true hend]; rfl
    rw [hindex, pure_bind]
    refine (readWord_does hself hsep cs').bind fun r hr => ?_
    have hrest : r.1.length < cs.length := lt_of_le_of_lt hr.1 hle
    refine Does.ite (fun _ => Does.pure ⟨hrest.le, List.prefix_rfl, hcount, heach⟩) fun _ => ?_
    refine (ih r.1 (words ++ [r.2.1]) (by omega) ?_ fun w hw => ?_).mono fun r' hr' => ?_
    · rw [List.length_append, List.length_singleton]
      exact not_le.1 hroom
    · rcases List.mem_append.1 hw with hw | hw
      · exact heach w hw
      · rw [List.mem_singleton.1 hw]
        exact hr.2
    · exact ⟨hr'.rest.trans hrest.le, (List.prefix_append _ _).trans hr'.kept, hr'.count, hr'.each⟩

/-- The first character is not a separator, so that the rest is shorter. -/
theorem readWords_first (hself : SelfDoes d self) {c : Code} (hc : isSep c = false) (cs : List Code) :
    Does d (Collected [] cs.length) (readWords self ((c :: cs).length + 1) (c :: cs) []) := by
  have hclass : isBlank c = false ∧ isEnd c = false := by simpa [isSep_eq] using hc
  have hindex : index (σ := σ) ([] : List (List Code)).length (maxArgs - 1) = pure () := if_pos (Nat.zero_le _)
  rw [readWords, List.dropWhile_cons_of_neg (by simp [hclass.1])]
  refine Does.ite (fun hend => absurd hend (by simp [hclass.2])) fun _ => ?_
  refine Does.ite (fun hfull => absurd hfull (by decide)) fun _ => ?_
  rw [hindex, pure_bind]
  refine (readWord_does hself hc cs).bind fun r hr => ?_
  refine Does.ite (fun _ => Does.pure ⟨hr.1, List.prefix_rfl, Nat.zero_le _, by simp⟩) fun _ => ?_
  have hmore := readWords_does hself (c :: cs).length r.1 [r.2.1] (Nat.lt_succ_of_le hr.1)
    (show 1 ≤ maxArgs by decide) (by simpa using hr.2)
  exact hmore.mono fun r' hr' => ⟨hr'.rest.trans hr.1, List.nil_prefix, hr'.count, hr'.each⟩

/-! ## Expressions -/

/-- What may stand in `gEx`. -/
def Room (acc : List Code) : Prop := acc.length ≤ valMax - 1 ∧ nul ∉ acc

theorem Room.push {acc u : List Code} (h : Room acc) (hu : nul ∉ u) : Room (u.foldl push acc) := by
  rw [Room, push_all u h.1]
  refine ⟨List.length_take_le _ _, fun hmem => ?_⟩
  rcases List.mem_append.1 (List.mem_of_mem_take hmem) with hmem | hmem
  · exact h.2 hmem
  · exact hu hmem

theorem substitute_does {hook : List Code → Script σ (Bool × List Code)}
    (hhook : ∀ sub, Does d (fun r => r.2.length ≤ valMax) (hook sub)) (cs acc : List Code) (err : Bool)
    (hcs : nul ∉ cs) (hacc : Room acc) :
    Does d (fun r => Room r.1) (substitute State.valueOf hook cs acc err) := by
  induction hm : cs.length using Nat.strong_induction_on generalizing cs acc err with
  | h m ih =>
    subst hm
    rw [substitute.eq_def]
    rcases cs with _ | ⟨c, cs⟩
    · exact Does.pure hacc
    have hcs' : nul ∉ cs := fun hmem => hcs (List.mem_cons_of_mem c hmem)
    have hbracket : nul ∉ (bracket 1 cs).2 := fun hmem => hcs' (bracket_subset 1 cs hmem)
    have hshort : (bracket 1 cs).2.length < (c :: cs).length := Nat.lt_succ_of_le (length_bracket_le 1 cs)
    refine Does.ite (fun _ => ?_) fun _ => Does.ite (fun _ => ?_) fun _ => ?_
    · refine Does.get.bind fun s hs => (Does.scan (length_valueOf_le hs _)).bind ?_
      rintro _ rfl
      have hrest : (cs.dropWhile isNameCh).length < (c :: cs).length :=
        Nat.lt_succ_of_le (List.dropWhile_suffix _).length_le
      exact ih _ hrest _ _ _ (fun hmem => hcs' ((List.dropWhile_suffix _).subset hmem)) (hacc.push (noNul_textOf _)) rfl
    · refine (hhook _).bind fun r hr => Does.ite (fun _ => ?_) fun _ => ih _ hshort _ _ _ hbracket hacc rfl
      refine (Does.scan hr).bind ?_
      rintro _ rfl
      exact ih _ hshort _ _ _ hbracket (hacc.push (noNul_textOf _)) rfl
    · have hc : nul ∉ [c] := fun hmem => hcs (List.mem_singleton.1 hmem ▸ List.mem_cons_self ..)
      exact ih _ (Nat.lt_succ_self _) _ _ _ hcs' (hacc.push hc) rfl

theorem expression_does (hself : SelfDoes d self) (fresh cs : List Code) :
    Does d (fun _ => True) (expression fresh self cs) := by
  have hsub := substitute_does (fun sub => hself valMax (textOf sub)) (textOf cs) [] false (noNul_textOf cs)
    ⟨Nat.zero_le _, List.not_mem_nil⟩
  refine hsub.bind fun r hr s hs _ => ?_
  have hlen : r.1.length < valMax := lt_of_le_of_lt hr.1 (by decide)
  have hg : Holds (fill fresh r.1) r.1 := holds_fill hr.2 hlen
  have hn : 2 * r.1.length + 2 ≤ 2 * valMax + 2 := by omega
  rcases (parse_ends hg hg r.2 hn).2 with ⟨v, hv⟩ | hv
  · exact Runs.bind (Q := fun _ => True) (hv ▸ trivial) fun v _ => Runs.ok ⟨trivial, Leads.refl hs⟩
  · exact Runs.bind (Q := fun _ => True) (hv ▸ rfl) fun v _ => Runs.ok ⟨trivial, Leads.refl hs⟩

end words

/-! ## Builtins and commands of the host -/

section builtins
variable {σ : Type} {d : Nat} {self : Nat → List Code → Script σ (Bool × List Code)}

theorem block_does (hself : SelfDoes d self) (body : List Code) :
    Does d (fun _ => True) (block self body) := by
  refine (hself valMax (textOf body)).bind fun r hr => ?_
  have hset : Does d (fun _ => True) (modify fun s => { s with result := r.2 } : Script σ PUnit) :=
    Does.modify fun s hs => ⟨hs.texts hr hs.errMsg s.hasErr s.depth s.host, rfl, le_rfl, fun _ _ hn => hn⟩
  exact hset.bind fun _ _ => Does.pure trivial

theorem run_does (hself : SelfDoes d self) (c : Host σ) :
    Does d (fun _ => True) (c.run self) := by
  induction c with
  | done ok => exact Does.pure trivial
  | get k ih => exact Does.get.bind fun s _ => ih s.host
  | put x k ih =>
    have hput : Does d (fun _ => True) (modify fun s => { s with host := x } : Script σ PUnit) :=
      Does.modify fun s hs => ⟨hs.texts hs.result hs.errMsg s.hasErr s.depth x, rfl, le_rfl, fun _ _ hn => hn⟩
    exact hput.bind fun _ _ => ih
  | argc k ih => exact Does.get.bind fun s _ => ih s.args.length
  | arg i k ih => exact Does.get.bind fun s _ => ih (s.args.getD i [])
  | argInt i k ih =>
    refine Does.get.bind fun s hs => ?_
    exact (Does.scan (length_arg_le hs i)).bind fun cs _ => ih (intOf cs)
  | result cs k ih => exact (setResult_does cs).bind fun _ _ => ih
  | fail msg k ih => exact (fail_does msg).bind fun _ _ => ih
  | setVar name val k ih => exact (setVar_does name val).bind fun _ _ => ih
  | getVar name k ih => exact Does.get.bind fun s _ => ih (s.getVar name)
  | register name proc k _ ih => exact (register_does name proc).bind fun _ _ => ih
  | reset k ih =>
    have hreset : Does d (fun _ => True) (reset : Script σ Unit) := Does.modify fun s hs =>
      ⟨⟨Nat.zero_le _, by simp, hs.cmds, Nat.zero_le _, by simp, hs.args, hs.arg, hs.result, hs.errMsg⟩, rfl,
        Nat.le_succ _, fun hsame => absurd hsame (Nat.succ_ne_self _)⟩
    exact hreset.bind fun _ _ => ih
  | eval script high k ih => exact (hself high (textOf script)).bind fun r _ => ih r.1 r.2

theorem setCmd_does : Does d (fun _ => True) (setCmd : Script σ Bool) := by
  refine Does.get.bind fun s _ => Does.ite (fun _ => ?_) fun _ => Does.ite (fun _ => ?_) fun _ => failed_does _
  · refine (arg_does 1).bind fun name _ => (arg_does 2).bind fun val _ => (setVar_does name val).bind fun _ _ => ?_
    exact (arg_does 2).bind fun val _ => (setResult_does val).bind fun _ _ => Does.pure trivial
  · refine Does.get.bind fun s _ => (arg_does 1).bind fun name _ => ?_
    rcases s.getVar name with _ | v
    · exact failed_does _
    · exact (setResult_does v).bind fun _ _ => Does.pure trivial

theorem putsCmd_does : Does d (fun _ => True) (putsCmd : Script σ Bool) := by
  refine Does.get.bind fun s _ => Does.ite (fun _ => ?_) fun _ => ?_
  · exact (arg_does 1).bind fun val _ => (setResult_does val).bind fun _ _ => Does.pure trivial
  · exact (setResult_does []).bind fun _ _ => Does.pure trivial

theorem incrBy_does (name : List Code) (ev amt : Int) :
    Does d (fun _ => True) (incrBy name ev amt : Script σ Bool) :=
  (setVar_does name _).bind fun _ _ => (setResult_does _).bind fun _ _ => Does.pure trivial

theorem incrCmd_does (hself : SelfDoes d self) (fresh : List Code) :
    Does d (fun _ => True) (incrCmd fresh self) := by
  refine Does.get.bind fun s _ => Does.ite (fun _ => failed_does _) fun _ => ?_
  refine (arg_does 1).bind fun name _ => (arg_does 2).bind fun body _ => Does.get.bind fun s _ => ?_
  refine (expression_does hself fresh _).bind fun r _ => Does.ite (fun _ => failedUnlessErr_does _) fun _ => ?_
  refine Does.ite (fun _ => ?_) fun _ => incrBy_does name r.2 1
  refine (expression_does hself fresh body).bind fun amt _ => ?_
  exact Does.ite (fun _ => failedUnlessErr_does _) fun _ => incrBy_does name r.2 amt.2

theorem exprCmd_does (hself : SelfDoes d self) (fresh : List Code) :
    Does d (fun _ => True) (exprCmd fresh self) := by
  refine Does.get.bind fun s _ => (expression_does hself fresh _).bind fun r _ => ?_
  refine Does.ite (fun _ => ?_) fun _ => failedUnlessErr_does _
  exact (setResult_does _).bind fun _ _ => Does.pure trivial

theorem ifCmd_does (hself : SelfDoes d self) (fresh : List Code) :
    Does d (fun _ => True) (ifCmd fresh self) := by
  refine Does.get.bind fun s _ => Does.ite (fun _ => failed_does _) fun _ => ?_
  refine (arg_does 1).bind fun cond _ => (arg_does 2).bind fun body _ => ?_
  have hchoice : ∀ blk, Does d (fun _ => True) (expression fresh self cond >>= fun r =>
      if !r.1 then failedUnlessErr (word ['i', 'f', ':', ' ', 'b', 'a', 'd', ' ', 'c', 'o', 'n', 'd', 'i', 't', 'i', 'o', 'n'])
      else if r.2 ≠ 0 then block self body
      else if 4 ≤ s.args.length then block self blk
      else do
        setResult []
        return true) := by
    intro blk
    refine (expression_does hself fresh cond).bind fun r _ => Does.ite (fun _ => failedUnlessErr_does _) fun _ => ?_
    refine Does.ite (fun _ => block_does hself body) fun _ => Does.ite (fun _ => block_does hself blk) fun _ => ?_
    exact (setResult_does []).bind fun _ _ => Does.pure trivial
  refine Does.ite (fun _ => (arg_does 3).bind fun blk _ => hchoice blk) fun _ => ?_
  refine Does.ite (fun _ => (arg_does 4).bind fun blk _ => hchoice blk) fun _ => ?_
  exact (Does.pure (Q := fun _ => True) trivial).bind fun blk _ => hchoice blk

theorem whileLoop_does (hself : SelfDoes d self) (fresh cond body : List Code) (rounds : Nat) :
    Does d (fun _ => True) (whileLoop fresh self cond body rounds) := by
  induction rounds with
  | zero => exact failed_does _
  | succ r ih =>
    refine (expression_does hself fresh cond).bind fun r _ => Does.ite (fun _ => failedUnlessErr_does _) fun _ => ?_
    refine Does.ite (fun _ => (setResult_does []).bind fun _ _ => Does.pure trivial) fun _ => ?_
    exact (block_does hself body).bind fun ok _ => Does.ite (fun _ => Does.pure trivial) fun _ => ih

theorem whileCmd_does (hself : SelfDoes d self) (fresh : List Code) :
    Does d (fun _ => True) (whileCmd fresh self) := by
  refine Does.get.bind fun s _ => Does.ite (fun _ => failed_does _) fun _ => ?_
  refine (arg_does 1).bind fun cond _ => (arg_does 2).bind fun body _ => ?_
  exact whileLoop_does hself fresh cond body maxIters

theorem procCmd_does : Does d (fun _ => True) (procCmd : Script σ Bool) := by
  refine Does.get.bind fun s _ => Does.ite (fun _ => failed_does _) fun _ => ?_
  refine (arg_does 1).bind fun name _ => (arg_does 2).bind fun parms _ => (arg_does 3).bind fun body _ => ?_
  exact (defProc_does name parms body).bind fun _ _ => (setResult_does []).bind fun _ _ => Does.pure trivial

end builtins

/-! ## Procedures -/

section procedures
variable {σ : Type} {d : Nat} {self : Nat → List Code → Script σ (Bool × List Code)}
  {name n : List Code} {f : List Code → List Code} {s s' : State σ} {p : UserProc}

/-- The variable has its value in `f`, or the table is full without it. -/
def HasOrFull (f : List Code → List Code) (name : List Code) (s : State σ) : Prop :=
  lookup name s.vars = some (f name) ∨ lookup name s.vars = none ∧ s.vars.length = maxVars

structure IsName (name : List Code) : Prop where
  noNul : nul ∉ name
  short : name.length ≤ nameMax

theorem isName_paramNames {m : Nat} {cs : List Code} (h : name ∈ paramNames m cs) : IsName name := by
  induction m generalizing cs with
  | zero => cases h
  | succ m ih =>
    rw [paramNames] at h
    rcases hdrop : cs.dropWhile (· = blank) with _ | ⟨c, cs'⟩
    · rw [hdrop] at h
      cases h
    · rw [hdrop] at h
      rcases List.mem_cons.1 h with rfl | h
      · refine ⟨fun hmem => ?_, List.length_take_le _ _⟩
        exact absurd (List.mem_takeWhile_imp (List.mem_of_mem_take hmem)) (by decide)
      · exact ih h

theorem setVar_keeps (hname : IsName name) (hf : copy valMax (f name) = f name) (hs : Valid s) :
    Runs overflows (setVar name (f name) s) fun r =>
      Leads s r.2 ∧ HasOrFull f name r.2 ∧ ∀ n, HasOrFull f n s → HasOrFull f n r.2 := by
  have hstored : (lookup name s.vars).isSome ∨ s.vars.length < maxVars → Runs overflows
      (.ok ((), { s with vars := store name name (copy valMax (f name)) s.vars })) fun r : Unit × State σ =>
        Leads s r.2 ∧ HasOrFull f name r.2 ∧ ∀ n, HasOrFull f n s → HasOrFull f n r.2 := by
    intro hroom
    have hset : lookup name (store name name (copy valMax (f name)) s.vars) = some (f name) := by
      rw [lookup_store_self, hf]
    refine Runs.ok ⟨hs.storeVar hname.short hroom (f name), .inl hset, fun n hn => ?_⟩
    by_cases hne : n = name
    · exact .inl (hne ▸ hset)
    rw [HasOrFull, lookup_store_ne hne, length_store]
    rcases hn with hvalue | ⟨hnone, hfull⟩
    · exact .inl hvalue
    · have hsome : (lookup name s.vars).isSome := hroom.resolve_right hfull.not_lt
      exact .inr ⟨hnone, by rw [if_pos hsome, hfull]⟩
  rw [setVar, get_bind, textOf_of_noNul hname.noNul]
  split_ifs with hlong hsome hfull
  · exact absurd hname.short (not_le.2 hlong)
  · exact hstored (.inl hsome)
  · refine Runs.ok ⟨Leads.refl hs, .inr ⟨?_, le_antisymm hs.vars hfull⟩, fun _ hn => hn⟩
    simpa using hsome
  · have hindex : index (σ := σ) s.vars.length (maxVars - 1) = pure () := if_pos (by omega)
    rw [hindex]
    exact hstored (.inr (not_le.1 hfull))

theorem setVars_keeps (names : List (List Code)) (hnames : ∀ name ∈ names, IsName name)
    (hf : ∀ name, copy valMax (f name) = f name) (hs : Valid s) :
    Runs overflows (setVars (names.map fun name => (name, f name)) s) fun r =>
      Leads s r.2 ∧ ∀ n, n ∈ names ∨ HasOrFull f n s → HasOrFull f n r.2 := by
  induction names generalizing s with
  | nil => exact Runs.ok ⟨Leads.refl hs, fun n hn => hn.resolve_left List.not_mem_nil⟩
  | cons name names ih =>
    refine Runs.bindS (setVar_keeps (hnames name (List.mem_cons_self ..)) (hf name) hs) ?_
    rintro _ s₁ ⟨hlead, hset, hkeep⟩
    refine (ih (fun n hn => hnames n (List.mem_cons_of_mem _ hn)) hlead.valid).mono fun r hr => ⟨hlead.trans hr.1, ?_⟩
    intro n hn
    refine hr.2 n ?_
    rcases hn with hmem | hn
    · rcases List.mem_cons.1 hmem with rfl | hmem
      · exact .inr hset
      · exact .inl hmem
    · exact .inr (hkeep n hn)

theorem setVars_does (l : List (List Code × List Code)) : Does d (fun _ => True) (setVars l : Script σ Unit) := by
  induction l with
  | nil => exact Does.pure trivial
  | cons b l ih => exact (setVar_does b.1 b.2).bind fun _ _ => ih

theorem copy_valueOf (h : Valid s) (name : List Code) : copy valMax (s.valueOf name) = s.valueOf name := by
  rw [State.valueOf]
  rcases hv : s.getVar name with _ | v
  · rfl
  · exact (h.var _ (mem_of_lookup hv)).2

/-- What a call leaves of a variable with the name of a parameter. -/
structure Restored (name : List Code) (s s' : State σ) : Prop where
  /-- A variable without a value has the empty one behind the call. -/
  value : HasOrFull (fun name => (lookup name s.vars).getD []) name s'
  /-- Without a `Reset` it has its value again. -/
  defined : s'.resets = s.resets → ∀ v, lookup name s.vars = some v → lookup name s'.vars = some v

theorem callProc_restores (hself : SelfDoes d self) (hp : p.parm.length ≤ argMax) (hs : Valid s)
    (hd : s.depth = d) :
    Runs overflows (callProc self p s) fun r =>
      Leads s r.2 ∧ ∀ name ∈ paramNames maxParams (textOf p.parm), Restored name s r.2 := by
  have hnames : ∀ name ∈ paramNames maxParams (textOf p.parm), IsName name := fun _ hname => isName_paramNames hname
  rw [callProc, scan_run ((length_textOf_le _).trans hp), get_bind]
  -- the arguments, the body, and then the values from before the call
  refine Runs.bindS (setVars_does (bindings _ s.args) s hs hd) ?_
  rintro _ s₁ ⟨-, hlead₁⟩
  refine Runs.bindS (block_does hself _ s₁ hlead₁.valid (hlead₁.depth.trans hd)) ?_
  rintro ok s₂ ⟨-, hlead₂⟩
  refine Runs.bindS (setVars_keeps (f := s.valueOf) _ hnames (copy_valueOf hs) hlead₂.valid) ?_
  rintro _ s₃ ⟨hlead₃, hkeep⟩
  have hlead : Leads s s₃ := hlead₁.trans (hlead₂.trans hlead₃)
  refine Runs.ok ⟨hlead, fun name hname => ?_⟩
  have hvalue : s.valueOf name = (lookup name s.vars).getD [] := by
    rw [State.valueOf, State.getVar, textOf_of_noNul (hnames name hname).noNul]
  have hset : HasOrFull s.valueOf name s₃ := hkeep name (.inl hname)
  rw [HasOrFull, hvalue] at hset
  refine ⟨hset, fun ht v hv => ?_⟩
  have hsome : (lookup name s₃.vars).isSome := hlead.defined ht name (by rw [hv]; rfl)
  rcases hset with hset | ⟨hnone, -⟩
  · rw [hset, hv]
    rfl
  · rw [hnone] at hsome
    cases hsome

theorem callProc_does (hself : SelfDoes d self) (hp : p.parm.length ≤ argMax) :
    Does d (fun _ => True) (callProc self p) := fun _ hs hd =>
  (callProc_restores hself hp hs hd).mono fun _ hr => ⟨trivial, hr.1⟩

theorem otherCmd_does (hself : SelfDoes d self) : Does d (fun _ => True) (otherCmd self) := by
  refine Does.get.bind fun s hs => (arg_does 0).bind fun name _ => ?_
  rcases hproc : lookup (textOf name) s.procs with _ | p
  · rcases hcmd : lookup (textOf name) s.cmds with _ | c
    · exact failed_does _
    · exact run_does hself c
  · exact callProc_does hself (hs.proc _ (mem_of_lookup hproc)).1

theorem dispatch_does (hself : SelfDoes d self) (fresh : List Code) :
    Does d (fun _ => True) (dispatch fresh self) := by
  refine Does.get.bind fun s _ => Does.ite (fun _ => (setResult_does []).bind fun _ _ => Does.pure trivial) fun _ => ?_
  refine (arg_does 0).bind fun name _ => Does.ite (fun _ => setCmd_does) fun _ => Does.ite (fun _ => putsCmd_does) fun _ => ?_
  refine Does.ite (fun _ => incrCmd_does hself fresh) fun _ => Does.ite (fun _ => exprCmd_does hself fresh) fun _ => ?_
  refine Does.ite (fun _ => ifCmd_does hself fresh) fun _ => Does.ite (fun _ => whileCmd_does hself fresh) fun _ => ?_
  exact Does.ite (fun _ => procCmd_does) fun _ => otherCmd_does hself

end procedures

/-! ## The evaluation -/

section evaluation
variable {σ β : Type} {d high : Nat} {self : Nat → List Code → Script σ (Bool × List Code)}
  {Q : β → Prop} {s : State σ} {out : List Code}

/-- The run begins at the nesting `d + 1` and ends at `d`. -/
def Exits (d high : Nat) (x : Script σ (Bool × List Code)) : Prop :=
  ∀ s, Valid s → s.depth = d + 1 →
    Runs overflows (x s) fun r => r.1.2.length ≤ high ∧ Leads { s with depth := d } r.2

theorem Valid.atDepth (h : Valid s) (d : Nat) : Valid { s with depth := d } :=
  h.texts h.result h.errMsg s.hasErr d s.host

theorem Does.exits {x : Script σ β} {f : β → Script σ (Bool × List Code)} (hx : Does (d + 1) Q x)
    (hf : ∀ a, Q a → Exits d high (f a)) : Exits d high (x >>= f) := by
  intro s hs hd
  refine Runs.bindS (hx s hs hd) ?_
  rintro a s' ⟨ha, hs'⟩
  refine (hf a ha s' hs'.valid (hs'.depth.trans hd)).mono fun r hr => ⟨hr.1, ?_⟩
  have hlead : Leads { s with depth := d } { s' with depth := d } :=
    ⟨hs'.valid.atDepth d, rfl, hs'.resets, hs'.defined⟩
  exact hlead.trans hr.2

theorem Exits.ite {p : Prop} [Decidable p] {x y : Script σ (Bool × List Code)} (hx : p → Exits d high x)
    (hy : ¬ p → Exits d high y) : Exits d high (if p then x else y) := by
  split_ifs with h
  · exact hx h
  · exact hy h

theorem leads_left (hs : Valid s) (hd : s.depth = d + 1) :
    Leads { s with depth := d } { s with depth := s.depth - 1 } := by
  have hdepth : s.depth - 1 = d := by omega
  rw [hdepth]
  exact Leads.refl (hs.atDepth d)

theorem leave_exits {r : Bool × List Code} (hr : r.2.length ≤ high) :
    Exits d high (leave >>= fun _ => pure r : Script σ (Bool × List Code)) := fun _ hs hd =>
  Runs.ok ⟨hr, leads_left hs hd⟩

theorem giveUp_exits (high : Nat) : Exits d high (giveUp high : Script σ (Bool × List Code)) := fun s hs hd =>
  Runs.ok ⟨length_copy_le high s.errMsg, leads_left hs hd⟩

theorem commands_exits (hself : SelfDoes (d + 1) self) (fresh : List Code) (n : Nat) (cs : List Code)
    (hn : cs.length < n) (hout : out.length ≤ high) : Exits d high (commands fresh self high n cs out) := by
  induction n generalizing cs out with
  | zero => exact absurd hn (Nat.not_lt_zero _)
  | succ n ih =>
    rw [commands]
    have hle : (cs.dropWhile isSep).length ≤ cs.length := (List.dropWhile_suffix _).length_le
    rcases hdrop : cs.dropWhile isSep with _ | ⟨c, cs'⟩
    · exact leave_exits hout
    have hc : isSep c = false := by
      simpa [hdrop] using List.head_dropWhile_not (p := isSep) (l := cs) (by simp [hdrop])
    rw [hdrop] at hle
    have hshort : cs'.length < n := by
      rw [List.length_cons] at hle
      omega
    refine Exits.ite (fun hcomment => ?_) fun _ => ?_
    · have hskip : (c :: cs').dropWhile (· ≠ 10) = cs'.dropWhile (· ≠ 10) :=
        List.dropWhile_cons_of_pos (by subst hcomment; decide)
      rw [hskip]
      exact ih _ (lt_of_le_of_lt (List.dropWhile_suffix _).length_le hshort) hout
    refine (readWords_first hself hc cs').exits fun r hr => Exits.ite (fun _ => giveUp_exits high) fun _ => ?_
    have hrest : r.1.length < n := lt_of_le_of_lt hr.rest hshort
    refine Exits.ite (fun _ => ih _ hrest hout) fun _ => ?_
    have hargs : Does (d + 1) (fun _ => True) (modify fun s => { s with
        args := r.2.1.map (copy argMax), hasErr := false, result := [] } : Script σ PUnit) := by
      refine Does.modify fun s hs => ⟨⟨hs.vars, hs.var, hs.cmds, hs.procs, hs.proc, ?_, fun a ha => ?_,
        Nat.zero_le _, hs.errMsg⟩, rfl, le_rfl, fun _ _ hn => hn⟩
      · exact (List.length_map _).trans_le hr.count
      · obtain ⟨w, -, rfl⟩ := List.mem_map.1 ha
        exact length_copy_le _ _
    refine hargs.exits fun _ _ => (dispatch_does hself fresh).exits fun ok _ => Does.get.exits fun s _ => ?_
    refine Exits.ite (fun _ => giveUp_exits high) fun _ => Does.get.exits fun s _ => ?_
    exact ih _ hrest (length_copy_le _ _)

/-- The bound is enough, when there are not more than `depthMax` evaluations already. -/
theorem evalRange_does (fresh : List Code) (n : Nat) (hd : d ≤ depthMax) (hn : depthMax < d + n) :
    SelfDoes d (evalRange fresh n : Nat → List Code → Script σ (Bool × List Code)) := by
  induction n generalizing d with
  | zero => exact absurd hn (not_lt.2 hd)
  | succ n ih =>
    intro high cs s hs hdepth
    have hback : { s with depth := d } = s := by rw [← hdepth]
    have hin : Valid { s with depth := s.depth + 1 } := hs.atDepth (s.depth + 1)
    rw [evalRange]
    change Runs overflows ((if depthMax < s.depth + 1 then _ else _ : Script σ (Bool × List Code)) _) _
    split_ifs with hdeep
    · -- the nesting is left, and the message is for the caller
      have hleft : Valid { s with depth := s.depth + 1 - 1 } := hs.atDepth _
      exact Runs.ok ⟨length_copy_le _ _, hleft.texts hleft.result (length_copy_le _ _) true _ s.host, rfl, le_rfl, fun _ _ h => h⟩
    · have hself := ih (d := d + 1) (by omega) (by omega)
      have hout : ([] : List Code).length ≤ high := Nat.zero_le _
      have hrun := commands_exits hself fresh (cs.length + 1) cs (Nat.lt_succ_self _) hout _ hin
        (congrArg (· + 1) hdepth)
      exact hrun.mono fun r hr => ⟨hr.1, hback ▸ hr.2⟩

end evaluation

end NewM2.Ui.Ptcl
