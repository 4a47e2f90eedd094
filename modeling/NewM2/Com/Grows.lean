import NewM2.Com.Guard

/-! # What lowering does to blocks, registers and names

`Grows`: blocks and registers are only added, a loop leaves the loop stack as it found it, and a name is
bound as before or to a slot that lowering allocated. -/

namespace NewM2.Com
open FlowGraph FuncLower

structure Grows (b b' : FuncLower) : Prop where
  numBlocks : b.numBlocks ≤ b'.numBlocks
  nextReg : b.nextReg ≤ b'.nextReg
  loopStack : b'.loopStack = b.loopStack
  retryTarget : b'.retryTarget = b.retryTarget
  locals : ∀ x slot, b'.locals x = some slot →
    b.locals x = some slot ∨ b.nextReg ≤ slot ∧ slot < b'.nextReg

section grows
variable {b b' b'' : FuncLower} {i : Inst} {f : ValueId → Inst} {t : Terminator} {id n : Nat}
  {x : String} {slot : ValueId}

theorem Grows.refl (b : FuncLower) : Grows b b := ⟨le_rfl, le_rfl, rfl, rfl, fun _ _ h => .inl h⟩

theorem Grows.trans (h : Grows b b') (h' : Grows b' b'') : Grows b b'' where
  numBlocks := h.numBlocks.trans h'.numBlocks
  nextReg := h.nextReg.trans h'.nextReg
  loopStack := h'.loopStack.trans h.loopStack
  retryTarget := h'.retryTarget.trans h.retryTarget
  locals x slot hx := by
    rcases h'.locals x slot hx with hx | ⟨hle, hlt⟩
    · rcases h.locals x slot hx with hx | ⟨hle, hlt⟩
      · exact .inl hx
      · exact .inr ⟨hle, hlt.trans_le h'.nextReg⟩
    · exact .inr ⟨h.nextReg.trans hle, hlt⟩

/-- Operations on the graph that do not touch registers, loops and names. -/
theorem Grows.of_builder {g : Builder Inst Terminator} (h : b.numBlocks ≤ g.numBlocks) :
    Grows b { b with toBuilder := g } := ⟨h, le_rfl, rfl, rfl, fun _ _ hx => .inl hx⟩

theorem grows_newBlock : Grows b b.newBlock := .of_builder (Nat.le_succ _)

theorem grows_switchTo : Grows b (b.switchTo id) := .of_builder le_rfl

theorem grows_push : Grows b (b.push i) := .of_builder (b.toBuilder.push_numBlocks i).ge

theorem grows_terminate : Grows b (b.terminate t) := .of_builder (b.toBuilder.terminate_numBlocks t).ge

theorem grows_safePoint : Grows b (if b.mode = .gc then b.push .gcSafePoint else b) := by
  split
  · exact grows_push
  · exact .refl b

theorem grows_emit : Grows b (b.emit f) :=
  ⟨grows_push.numBlocks, Nat.le_succ _, rfl, rfl, fun _ _ hx => .inl hx⟩

theorem grows_evalExpr {e : Action} : Grows b (b.evalExpr e) := grows_emit

theorem grows_newBlocks : Grows b (newBlocks n b) := by
  induction n generalizing b with
  | zero => exact .refl b
  | succ n ih => exact grows_newBlock.trans ih

theorem newBlocks_numBlocks : (newBlocks n b).numBlocks = b.numBlocks + n := by
  induction n generalizing b with
  | zero => rfl
  | succ n ih =>
    have hn : (newBlocks n b.newBlock).numBlocks = b.numBlocks + 1 + n := ih
    unfold newBlocks
    omega

theorem grows_emitComQi {sel : ValueId} : Grows b (b.emitComQi sel).2.2 := by
  unfold FuncLower.emitComQi
  extract_lets iidPtr b₁ ppvSlot b₂ nil b₃ b₄ hr b₅ mask b₆ masked b₇ zeroVal b₈ succeeded b₉ ppv b₁₀ nil2
    b₁₁ notnil b₁₂ matched b₁₃
  have h₅ : Grows b b₅ := (((grows_emit.trans grows_emit).trans grows_emit).trans grows_push).trans grows_emit
  have h₉ : Grows b₅ b₉ := ((grows_emit.trans grows_emit).trans grows_emit).trans grows_emit
  have h₁₃ : Grows b₉ b₁₃ := ((grows_emit.trans grows_emit).trans grows_emit).trans grows_emit
  exact (h₅.trans h₉).trans h₁₃

theorem grows_testArm {sel : ValueId} {head : ArmHead} : Grows b (b.testArm sel head).2.2 := by
  unfold FuncLower.testArm
  split
  · exact grows_emitComQi
  · exact ((grows_emit.trans grows_emit).trans grows_emit).trans grows_push

theorem grows_beginArm {c : Action} {more : Bool} {join : BlockId} : Grows b (b.beginArm c more join) := by
  unfold FuncLower.beginArm
  extract_lets thenBlock falseBlock b₁ b₂ cond
  have h₂ : Grows b₁ b₂ := by
    unfold b₂
    split
    · exact grows_newBlock
    · exact .refl b₁
  exact (grows_newBlock.trans h₂).trans ((grows_evalExpr.trans grows_terminate).trans grows_switchTo)

theorem grows_endArm {join falseBlock : BlockId} : Grows b (b.endArm join falseBlock) :=
  grows_terminate.trans grows_switchTo

theorem grows_releaseSlot : Grows b (b.releaseSlot slot) := by
  unfold FuncLower.releaseSlot
  exact grows_emit.trans grows_emit

/-- The body of a loop is lowered with the frame of the loop on the stack. -/
theorem Grows.loop {frame : Cfg.LoopFrame} (h : Grows (b.pushLoop frame) b') : Grows b b'.popLoop where
  numBlocks := h.numBlocks
  nextReg := h.nextReg
  loopStack := by
    change b'.loopStack.tail = b.loopStack
    rw [h.loopStack]
    rfl
  retryTarget := h.retryTarget
  locals := h.locals

/-- A name that is bound to a fresh slot. -/
theorem grows_bind_fresh (h : Grows b b') (hslot : b.nextReg ≤ slot ∧ slot < b'.nextReg) :
    Grows b (b'.bind x (some slot)) where
  numBlocks := h.numBlocks
  nextReg := h.nextReg
  loopStack := h.loopStack
  retryTarget := h.retryTarget
  locals y slot' hy := by
    by_cases hyx : y = x
    · subst hyx
      rw [show (b'.bind y (some slot)).locals y = some slot from Function.update_self ..] at hy
      cases hy
      exact .inr hslot
    · rw [show (b'.bind x (some slot)).locals y = b'.locals y from Function.update_of_ne hyx ..] at hy
      exact h.locals y slot' hy

/-- A denoter is bound while the arm is lowered, and then as before. -/
theorem Grows.restore {y : Option ValueId} (h : Grows (b.bind x y) b') :
    Grows b (b'.bind x (b.locals x)) where
  numBlocks := h.numBlocks
  nextReg := h.nextReg
  loopStack := h.loopStack
  retryTarget := h.retryTarget
  locals z slot' hz := by
    by_cases hzx : z = x
    · subst hzx
      rw [show (b'.bind z (b.locals z)).locals z = b.locals z from Function.update_self ..] at hz
      exact .inl hz
    · rw [show (b'.bind x (b.locals x)).locals z = b'.locals z from Function.update_of_ne hzx ..] at hz
      rw [← show (b.bind x y).locals z = b.locals z from Function.update_of_ne hzx ..]
      exact h.locals z slot' hz

theorem grows_denoter {d : Option String} {y : Option ValueId}
    (h : Grows (d.elim b (b.bind · y)) b') : Grows b (d.elim b' fun x => b'.bind x (b.locals x)) := by
  cases d with
  | none => exact h
  | some x => exact h.restore

/-- As `grows_denoter`, with a slot of its own for the denoter. -/
theorem grows_view {d : Option String} {y : Option ValueId} {sel : ValueId}
    (h : Grows (d.elim b fun x => ((b.emit .alloca).push (.store slot sel)).bind x y) b') :
    Grows b (d.elim b' fun x => b'.bind x (b.locals x)) := by
  cases d with
  | none => exact h
  | some x =>
    have hstore : Grows b ((b.emit .alloca).push (.store slot sel)) := grows_emit.trans grows_push
    exact hstore.trans h.restore

theorem grows_bindView {d : Option String} {sel : ValueId} :
    Grows b (d.elim b fun x => ((b.emit .alloca).push (.store b.nextReg sel)).bind x (some b.nextReg)) := by
  cases d with
  | none => exact .refl b
  | some x => exact grows_bind_fresh (grows_emit.trans grows_push) ⟨le_rfl, Nat.lt_succ_self _⟩

theorem Grows.guards {guards : List Region} (h : Grows b b') : Grows b { b' with guards } :=
  ⟨h.numBlocks, h.nextReg, h.loopStack, h.retryTarget, h.locals⟩

theorem grows_lowerLabels {val default : Nat} {labels : List (Cfg.CaseLabel × BlockId)} :
    ∀ {singles : List (Int × BlockId)} {b : FuncLower},
      Grows b (lowerLabels val default labels singles b) := by
  induction labels with
  | nil => exact grows_terminate
  | cons l labels ih =>
    intro singles b
    obtain ⟨label, ab⟩ := l
    cases label with
    | single _ | unfolded _ _ => exact ih
    | range lo hi =>
      exact (((grows_newBlock.trans grows_emit).trans grows_terminate).trans grows_switchTo).trans ih

theorem grows_lowerLadder {sel default : Nat} {arms : List (ArmHead × List Stmt)} :
    ∀ {armBlock : BlockId} {b : FuncLower}, Grows b (lowerLadder sel default arms armBlock b).2 := by
  induction arms with
  | nil => exact .refl _
  | cons arm arms ih =>
    intro armBlock b
    unfold lowerLadder
    extract_lets test b₁ after b₂ noMatch b₃ b₄ b₅ ladder
    have h₂ : Grows b₁ b₂ := by
      unfold b₂
      split
      · exact .refl b₁
      · exact grows_newBlock
    have h₄ : Grows b₂ b₄ := (grows_newBlock.trans grows_terminate).trans grows_switchTo
    have h₅ : Grows b₄ b₅ := (grows_releaseSlot.trans grows_terminate).trans grows_switchTo
    exact (((grows_testArm.trans h₂).trans h₄).trans h₅).trans ih

theorem locals_lowerLadder {sel default : Nat} {arms : List (ArmHead × List Stmt)} :
    ∀ {armBlock : BlockId} {b : FuncLower}, (lowerLadder sel default arms armBlock b).2.locals = b.locals := by
  induction arms with
  | nil => exact rfl
  | cons arm arms ih =>
    intro armBlock b
    unfold lowerLadder
    extract_lets test b₁ after b₂ noMatch b₃ b₄ b₅ ladder
    have h₁ : b₁.locals = b.locals := by
      unfold b₁ test FuncLower.testArm
      split <;> rfl
    have h₂ : b₂.locals = b₁.locals := by
      unfold b₂
      split <;> rfl
    exact ih.trans (h₂.trans h₁)

theorem grows_lowerRttiLadder {candTi default : Nat} {arms : List (ArmHead × List Stmt)} :
    ∀ {armBlock : BlockId} {b : FuncLower}, Grows b (lowerRttiLadder candTi default arms armBlock b) := by
  induction arms with
  | nil => exact .refl _
  | cons arm arms ih =>
    intro armBlock b
    unfold lowerRttiLadder
    extract_lets targetTi b₁ matched b₂ next b₃ b₄
    have h₂ : Grows b b₂ := grows_emit.trans grows_emit
    have h₃ : Grows b₂ b₃ := by
      unfold b₃
      split
      · exact .refl b₂
      · exact grows_newBlock
    exact ((h₂.trans h₃).trans (grows_terminate.trans grows_switchTo)).trans ih

end grows

/-! ## Statements -/

mutual
theorem lowerStmt_grows : ∀ (s : Stmt) (b : FuncLower), Grows b (lowerStmt s b)
  | .empty, b => .refl b
  | .simple _, _ => grows_push
  | .halt _, _ => ((grows_evalExpr.trans grows_push).trans grows_newBlock).trans grows_switchTo
  | .if_ c body elsifs els, b => by
    unfold lowerStmt
    extract_lets join b₁ more falseBlock b₁' b₂
    have h₁ : Grows b b₁' := (grows_newBlock.trans grows_beginArm).trans
      ((lowerStmts_grows body _).trans grows_endArm)
    have h₂ : Grows b b₂ := h₁.trans (lowerArms_grows elsifs els.isSome join b₁')
    split
    · exact (h₂.trans (lowerElse_grows els "" join b₂)).trans grows_switchTo
    · exact h₂
  | .case_ e arms els, b => by
    unfold lowerStmt
    extract_lets val b₁ join b₂ default b₃ armBlock b₄ b₅ b₆
    have h₄ : Grows b b₄ := ((grows_evalExpr.trans grows_newBlock).trans grows_newBlock).trans grows_newBlocks
    have h₆ : Grows b₄ b₆ :=
      (grows_lowerLabels.trans (lowerCaseArms_grows arms armBlock join b₅)).trans grows_switchTo
    exact ((h₄.trans h₆).trans (lowerElse_grows els "nm2_raise_m2" join b₆)).trans grows_switchTo
  | .while_ c body, b => by
    unfold lowerStmt
    extract_lets header b₁ bodyBlock b₂ exitBlock b₃ b₄ cond b₅ b₆ b₇
    have h₃ : Grows b b₃ := (grows_newBlock.trans grows_newBlock).trans grows_newBlock
    have h₅ : Grows b₃ b₅ := ((grows_terminate.trans grows_switchTo).trans
      (grows_evalExpr.trans grows_terminate)).trans grows_switchTo
    have h₆ : Grows b₅ b₆ := (lowerStmts_grows body _).loop
    have h₇ : Grows b₆ b₇ := grows_safePoint
    exact (((h₃.trans h₅).trans h₆).trans h₇).trans (grows_terminate.trans grows_switchTo)
  | .repeat_ body c, b => by
    unfold lowerStmt
    extract_lets bodyBlock b₁ exitBlock b₂ b₃ b₄ cond b₅
    have h₃ : Grows b b₃ := (grows_newBlock.trans grows_newBlock).trans (grows_terminate.trans grows_switchTo)
    have h₄ : Grows b₃ b₄ := (lowerStmts_grows body _).loop
    have h₅ : Grows b₄ b₅ := by
      unfold b₅
      split
      · exact .refl b₄
      · exact grows_evalExpr.trans grows_terminate
    exact ((h₃.trans h₄).trans h₅).trans grows_switchTo
  | .for_ var start stop by_ body, b => by
    unfold lowerStmt
    extract_lets ptr b₁ startVal b₂ endVal b₃ stepVal b₄ header b₅ bodyBlock b₆ stepBlock b₇ exitBlock b₈ b₉
      cur b₁₀ cond b₁₁ b₁₂ b₁₃ b₁₄ cur' b₁₅ fits b₁₆ advance b₁₇ b₁₈ next b₁₉
    have h₁ : Grows b b₁ := by
      unfold b₁
      split
      · exact .refl b
      · next hvar =>
        have hptr : ptr = b.nextReg := by
          unfold ptr
          rw [Option.not_isSome_iff_eq_none.1 hvar]
          rfl
        exact grows_bind_fresh grows_emit ⟨hptr.ge, hptr ▸ Nat.lt_succ_self _⟩
    have h₄ : Grows b₁ b₄ := by
      have h₃ : Grows b₁ b₃ := (grows_evalExpr.trans grows_push).trans grows_evalExpr
      unfold b₄
      split
      · exact h₃.trans grows_evalExpr
      · exact h₃.trans grows_emit
    have h₈ : Grows b₄ b₈ := ((grows_newBlock.trans grows_newBlock).trans grows_newBlock).trans grows_newBlock
    have h₁₂ : Grows b₈ b₁₂ := (((grows_terminate.trans grows_switchTo).trans grows_emit).trans
      grows_emit).trans (grows_terminate.trans grows_switchTo)
    have h₁₃ : Grows b₁₂ b₁₃ := (lowerStmts_grows body _).loop
    have h₁₆ : Grows b₁₃ b₁₆ := ((grows_terminate.trans grows_switchTo).trans grows_emit).trans grows_emit
    have h₁₉ : Grows b₁₆ b₁₉ :=
      (grows_newBlock.trans (grows_terminate.trans grows_switchTo)).trans grows_emit
    exact (((((h₁.trans h₄).trans h₈).trans h₁₂).trans h₁₃).trans (h₁₆.trans h₁₉)).trans
      ((grows_push.trans grows_terminate).trans grows_switchTo)
  | .loop body, b => by
    unfold lowerStmt
    extract_lets loopBlock b₁ exitBlock b₂ b₃ b₄ b₅
    have h₃ : Grows b b₃ := (grows_newBlock.trans grows_newBlock).trans (grows_terminate.trans grows_switchTo)
    have h₄ : Grows b₃ b₄ := (lowerStmts_grows body _).loop
    have h₅ : Grows b₄ b₅ := grows_safePoint
    exact ((h₃.trans h₄).trans h₅).trans (grows_terminate.trans grows_switchTo)
  | .with_ _ body, _ => grows_evalExpr.trans (lowerStmts_grows body _)
  | .guard selector selTy arms els, b => by
    unfold lowerStmt
    extract_lets start lo sel b₁ join b₂ default b₃ armBlock b₄ ladder b₅ b₆ candTi c₁ join' c₂ default' c₃
      armBlock' c₄ c₅ c₆ c₇
    have h₁ : Grows b b₁ := grows_evalExpr
    split
    · have h₄ : Grows b₁ b₄ := (grows_newBlock.trans grows_newBlock).trans grows_newBlocks
      have h₅ : Grows b₄ b₅ :=
        (grows_lowerLadder.trans (lowerIfaceArms_grows arms ladder.1 armBlock join ladder.2)).trans
          grows_switchTo
      have h₆ : Grows b₅ b₆ := (lowerElse_grows els "nm2_raise_guard" join b₅).trans grows_switchTo
      exact (((h₁.trans h₄).trans h₅).trans h₆).guards
    · have h₄ : Grows b₁ c₄ := ((grows_emit.trans grows_newBlock).trans grows_newBlock).trans grows_newBlocks
      have h₅ : Grows c₄ c₅ := by
        unfold c₅
        split
        · exact grows_terminate
        · exact .refl c₄
      have h₇ : Grows c₅ c₇ :=
        (grows_lowerRttiLadder.trans (lowerGuardArms_grows arms sel armBlock' join' c₆)).trans grows_switchTo
      exact (((h₁.trans h₄).trans h₅).trans h₇).trans
        ((lowerElse_grows els "nm2_raise_guard" join' c₇).trans grows_switchTo)
  | .exit, b => by
    unfold lowerStmt
    split
    · exact grows_terminate
    · exact .refl b
  | .return_ (some _), _ | .raise (some _), _ => grows_evalExpr.trans grows_terminate
  | .return_ none, _ => grows_terminate
  | .raise none, _ => grows_push
  | .retry, b => by
    unfold lowerStmt
    split
    · exact grows_emit.trans grows_terminate
    · exact .refl b
  | .block ss _ none, b => lowerStmts_grows ss b
  | .block ss _ (some fin), b => by
    unfold lowerStmt
    extract_lets b₁
    have h₁ : Grows b b₁ := lowerStmts_grows ss b
    dsimp only
    split
    · exact h₁
    · exact h₁.trans (lowerStmts_grows fin b₁)
theorem lowerArms_grows : ∀ (arms : List (Action × List Stmt)) (hasElse : Bool) (join : BlockId)
    (b : FuncLower), Grows b (lowerArms arms hasElse join b)
  | [], _, _, b => .refl b
  | (_, body) :: rest, hasElse, join, b => by
    unfold lowerArms
    extract_lets more falseBlock b₁
    have h₁ : Grows b b₁ := grows_beginArm.trans ((lowerStmts_grows body _).trans grows_endArm)
    exact h₁.trans (lowerArms_grows rest hasElse join b₁)
theorem lowerCaseArms_grows : ∀ (arms : List (List Cfg.CaseLabel × List Stmt)) (ab join : BlockId)
    (b : FuncLower), Grows b (lowerCaseArms arms ab join b)
  | [], _, _, b => .refl b
  | (_, body) :: rest, ab, join, _ =>
    ((grows_switchTo.trans (lowerStmts_grows body _)).trans grows_terminate).trans
      (lowerCaseArms_grows rest (ab + 1) join _)
theorem lowerIfaceArms_grows : ∀ (arms : List (ArmHead × List Stmt)) (slots : List ValueId)
    (ab join : BlockId) (b : FuncLower), Grows b (lowerIfaceArms arms slots ab join b)
  | (head, body) :: rest, slot :: slots, ab, join, b => by
    unfold lowerIfaceArms
    extract_lets saved b₁ b₂ b₃ b₄ b₅
    have h₁ : Grows b b₁ := grows_switchTo
    have h₃₄ : Grows b₃ b₄ := by
      unfold b₄
      split
      · exact .refl b₃
      · exact grows_releaseSlot.trans grows_terminate
    have h₂₄ : Grows b₂ b₄ := (lowerStmts_grows body b₂).trans h₃₄
    have h₅ : Grows b₁ b₅ := grows_denoter h₂₄
    exact (h₁.trans h₅).trans (lowerIfaceArms_grows rest slots (ab + 1) join b₅)
  | [], _, _, _, _ => by
    unfold lowerIfaceArms
    exact .refl _
  | _ :: _, [], _, _, b => by
    unfold lowerIfaceArms
    exact .refl b
theorem lowerGuardArms_grows : ∀ (arms : List (ArmHead × List Stmt)) (sel : ValueId)
    (ab join : BlockId) (b : FuncLower), Grows b (lowerGuardArms arms sel ab join b)
  | [], _, _, _, b => .refl b
  | (head, body) :: rest, sel, ab, join, b => by
    unfold lowerGuardArms
    extract_lets saved b₁ slot b₂ b₃ b₄
    have h₁ : Grows b b₁ := grows_switchTo
    have h₂₃ : Grows b₂ b₃ := (lowerStmts_grows body b₂).trans grows_terminate
    have h₄ : Grows b₁ b₄ := grows_view h₂₃
    exact (h₁.trans h₄).trans (lowerGuardArms_grows rest sel (ab + 1) join b₄)
theorem lowerElse_grows : ∀ (els : Option (List Stmt)) (raise : String) (join : BlockId) (b : FuncLower),
    Grows b (lowerElse els raise join b)
  | some ss, _, _, b => (lowerStmts_grows ss b).trans grows_terminate
  | none, _, _, _ => grows_push
theorem lowerStmts_grows : ∀ (ss : List Stmt) (b : FuncLower), Grows b (lowerStmts ss b)
  | [], b => .refl b
  | s :: ss, b => by
    unfold lowerStmts
    split
    · exact .refl b
    · exact (lowerStmt_grows s b).trans (lowerStmts_grows ss _)
end

end NewM2.Com
