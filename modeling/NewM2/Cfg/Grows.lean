import NewM2.Cfg.Lower

/-! # What lowering does to the blocks

A finished graph `Completes` a builder if it has its blocks, with more instructions where they were not
yet terminated. `Grows N c b b'`: the lowering that leads from `b` to `b'` started with the blocks below
`N` and block `c` active. It changes no block below `N` but `c`, it ends in `c` or in a block of its own,
and what completes `b'` completes `b`. -/

namespace NewM2.Cfg

open FuncBuilder

/-- The instructions of block `i` are the first ones in `g`, and all if the block is terminated. -/
def Completes (g : BlockId → BasicBlock) (b : FuncBuilder) : Prop :=
  ∀ i < b.numBlocks, (b.blocks i).insts <+: (g i).insts ∧
    ((b.blocks i).term ≠ .unreachable → g i = b.blocks i)

/-- The active block is `c` or one of the blocks from `N` on. -/
structure Active (N : Nat) (c : BlockId) (b : FuncBuilder) : Prop where
  at_ : b.current = c ∨ N ≤ b.current
  lt : b.current < b.numBlocks
  le : N ≤ b.numBlocks

structure Grows (N : Nat) (c : BlockId) (b b' : FuncBuilder) : Prop where
  active : Active N c b'
  numBlocks : b.numBlocks ≤ b'.numBlocks
  keep : ∀ i < N, i ≠ c → b'.blocks i = b.blocks i
  loopStack : b'.loopStack = b.loopStack
  completes : ∀ g, Completes g b' → Completes g b

section grows
variable {N n : Nat} {c id join : BlockId} {b b' b'' : FuncBuilder} {i : Inst} {t : Terminator}
  {f : LoopFrame} {g : BlockId → BasicBlock}

theorem Grows.refl (ha : Active N c b) : Grows N c b b :=
  ⟨ha, le_rfl, fun _ _ _ => rfl, rfl, fun _ hg => hg⟩

theorem Grows.trans (h : Grows N c b b') (h' : Grows N c b' b'') : Grows N c b b'' where
  active := h'.active
  numBlocks := h.numBlocks.trans h'.numBlocks
  keep i hi hne := (h'.keep i hi hne).trans (h.keep i hi hne)
  loopStack := h'.loopStack.trans h.loopStack
  completes g hg := h.completes g (h'.completes g hg)

/-! ## The operations of the builder -/

/-- Only the active block changes, and only if it is not terminated. -/
theorem Active.update (ha : Active N c b) {block : BasicBlock} (hopen : b.isTerminated = false)
    (hinsts : (b.blocks b.current).insts <+: block.insts) :
    Grows N c b { b with blocks := Function.update b.blocks b.current block } := by
  refine ⟨⟨ha.at_, ha.lt, ha.le⟩, le_rfl, fun i hi hne => Function.update_of_ne ?_ .., rfl,
    fun g hg i hi => ?_⟩
  · rintro rfl
    rcases ha.at_ with h | h
    · exact hne h
    · omega
  · have hgi := hg i hi
    dsimp only at hgi
    by_cases heq : i = b.current
    · subst heq
      rw [Function.update_self] at hgi
      refine ⟨hinsts.trans hgi.1, fun hterm => ?_⟩
      unfold isTerminated at hopen
      exact absurd hterm (of_decide_eq_false hopen)
    · rwa [Function.update_of_ne heq] at hgi

theorem Active.push (ha : Active N c b) : Grows N c b (b.push i) := by
  unfold FuncBuilder.push
  split
  · exact .refl ha
  · next hopen => exact ha.update (Bool.eq_false_iff.2 hopen) (List.prefix_append ..)

theorem Active.terminate (ha : Active N c b) : Grows N c b (b.terminate t) := by
  unfold FuncBuilder.terminate
  split
  · exact .refl ha
  · next hopen => exact ha.update (Bool.eq_false_iff.2 hopen) List.prefix_rfl

theorem Active.freshReg (ha : Active N c b) : Grows N c b b.freshReg :=
  ⟨⟨ha.at_, ha.lt, ha.le⟩, le_rfl, fun _ _ _ => rfl, rfl, fun _ hg => hg⟩

theorem Active.newBlock (ha : Active N c b) : Grows N c b b.newBlock := by
  have hne : ∀ i < b.numBlocks, b.newBlock.blocks i = b.blocks i := fun i hi =>
    Function.update_of_ne hi.ne ..
  refine ⟨⟨ha.at_, Nat.lt_succ_of_lt ha.lt, Nat.le_succ_of_le ha.le⟩, Nat.le_succ _,
    fun i hi _ => hne i (hi.trans_le ha.le), rfl, fun g hg i hi => ?_⟩
  rw [← hne i hi]
  exact hg i (Nat.lt_succ_of_lt hi)

theorem Active.switchTo (ha : Active N c b) (hid : id = c ∨ N ≤ id) (hlt : id < b.numBlocks) :
    Grows N c b (b.switchTo id) :=
  ⟨⟨hid, hlt, ha.le⟩, le_rfl, fun _ _ _ => rfl, rfl, fun _ hg => hg⟩

/-- The body of a loop is lowered with the frame of the loop on the stack. -/
theorem Grows.loop (h : Grows N c (b.pushLoop f) b') : Grows N c b b'.popLoop where
  active := ⟨h.active.at_, h.active.lt, h.active.le⟩
  numBlocks := h.numBlocks
  keep := h.keep
  loopStack := by
    unfold FuncBuilder.popLoop
    rw [h.loopStack]
    rfl
  completes := h.completes

theorem Active.pushLoop (ha : Active N c b) : Active N c (b.pushLoop f) := ⟨ha.at_, ha.lt, ha.le⟩

/-! ## Numbers of blocks and the active block -/

@[simp] theorem push_numBlocks : (b.push i).numBlocks = b.numBlocks := by
  unfold FuncBuilder.push
  split <;> rfl

@[simp] theorem push_current : (b.push i).current = b.current := by
  unfold FuncBuilder.push
  split <;> rfl

@[simp] theorem push_nextReg : (b.push i).nextReg = b.nextReg := by
  unfold FuncBuilder.push
  split <;> rfl

@[simp] theorem terminate_nextReg : (b.terminate t).nextReg = b.nextReg := by
  unfold FuncBuilder.terminate
  split <;> rfl

@[simp] theorem terminate_numBlocks : (b.terminate t).numBlocks = b.numBlocks := by
  unfold FuncBuilder.terminate
  split <;> rfl

@[simp] theorem terminate_current : (b.terminate t).current = b.current := by
  unfold FuncBuilder.terminate
  split <;> rfl

@[simp] theorem newBlock_numBlocks : b.newBlock.numBlocks = b.numBlocks + 1 := rfl

@[simp] theorem evalExpr_numBlocks {e : Nat} : (b.evalExpr e).numBlocks = b.numBlocks :=
  push_numBlocks

@[simp] theorem evalExpr_current {e : Nat} : (b.evalExpr e).current = b.current := push_current

@[simp] theorem newBlocks_numBlocks : (newBlocks n b).numBlocks = b.numBlocks + n := by
  induction n generalizing b with
  | zero => rfl
  | succ n ih =>
    have hn : (newBlocks n b.newBlock).numBlocks = b.numBlocks + 1 + n := ih
    unfold newBlocks
    omega

/-! ## Pieces of the lowering -/

theorem Active.evalExpr {e : Nat} (ha : Active N c b) : Grows N c b (b.evalExpr e) :=
  ha.push.trans ha.push.active.freshReg

theorem Active.newBlocks (ha : Active N c b) : Grows N c b (newBlocks n b) := by
  induction n generalizing b with
  | zero => exact .refl ha
  | succ n ih => exact ha.newBlock.trans (ih ha.newBlock.active)

/-- Terminate the active block and go on in another one, given out before. -/
theorem Active.leave (ha : Active N c b) (hid : N ≤ id) (hlt : id < b.numBlocks) :
    Grows N c b ((b.terminate t).switchTo id) :=
  ha.terminate.trans (ha.terminate.active.switchTo (.inr hid) (by simpa using hlt))

theorem Active.lowerRange {val : ValueId} {lo hi : Int} {arm : BlockId} (ha : Active N c b) :
    Grows N c b (b.lowerRange val lo hi arm) := by
  unfold FuncBuilder.lowerRange
  extract_lets next b₁ inr b₂
  have h₁ : Grows N c b b₁ := ha.newBlock
  have h₂ : Grows N c b₁ b₂ := h₁.active.push.trans h₁.active.push.active.freshReg
  exact (h₁.trans h₂).trans
    (h₂.active.leave ha.le ((Nat.lt_succ_self b.numBlocks).trans_le h₂.numBlocks))

theorem Active.lowerRanges {val : ValueId} {rs : List ((Int × Int) × BlockId)} (ha : Active N c b) :
    Grows N c b (lowerRanges val rs b) := by
  induction rs generalizing b with
  | nil => exact .refl ha
  | cons r rs ih => exact ha.lowerRange.trans (ih ha.lowerRange.active)

end grows

/-! ## Statements -/

mutual
theorem lowerStmt_grows {N : Nat} {k : BlockId} : ∀ (s : Stmt) (b : FuncBuilder), Active N k b →
    Grows N k b (lowerStmt s b)
  | .empty, _, ha => .refl ha
  | .simple _, _, ha => ha.push
  | .if_ arms els, b, ha => by
    unfold lowerStmt
    extract_lets join b₁
    have h₁ : Grows N k b b₁ := ha.newBlock
    have hjoin : join < b₁.numBlocks := Nat.lt_succ_self _
    have h₂ := lowerArms_grows arms els.isSome join b₁ h₁.active ha.le hjoin
    exact h₁.trans (h₂.trans
      (lowerElse_grows els join _ h₂.active ha.le (hjoin.trans_le h₂.numBlocks)))
  | .case_ e arms els, b, ha => by
    unfold lowerStmt
    extract_lets val b₁ join b₂ default b₃ armBlock b₄ labels b₅ b₆ b₇
    have h₁ : Grows N k b b₁ := ha.evalExpr
    have h₂ : Grows N k b₁ b₂ := h₁.active.newBlock
    have h₃ : Grows N k b₂ b₃ := h₂.active.newBlock
    have h₄ : Grows N k b₃ b₄ := h₃.active.newBlocks
    have h₅ : Grows N k b₄ b₅ := h₄.active.lowerRanges
    have h₆ : Grows N k b₅ b₆ := h₅.active.terminate
    have harms : armBlock + arms.length ≤ b₆.numBlocks := by
      have hn : b₄.numBlocks = armBlock + arms.length := newBlocks_numBlocks
      rw [← hn]
      exact h₅.numBlocks.trans h₆.numBlocks
    have h₇ := lowerCaseArms_grows arms armBlock join b₆ h₆.active h₃.active.le harms h₁.active.le
      (((Nat.lt_succ_self _).trans_le h₃.numBlocks).trans_le (Nat.le_of_add_right_le harms))
    have hdefault : default < (lowerCaseArms arms armBlock join b₆).numBlocks :=
      ((Nat.lt_succ_self _).trans_le (Nat.le_of_add_right_le harms)).trans_le h₇.numBlocks
    have h₈ : Grows N k (lowerCaseArms arms armBlock join b₆) b₇ :=
      h₇.active.switchTo (.inr h₂.active.le) hdefault
    have hjoin : join < b₇.numBlocks := (Nat.lt_succ_self _).trans (hdefault.trans_le h₈.numBlocks)
    have h := ((((((h₁.trans h₂).trans h₃).trans h₄).trans h₅).trans h₆).trans h₇).trans h₈
    refine h.trans ?_
    cases els with
    | some ss => exact lowerElse_grows (some ss) join b₇ h₈.active h₁.active.le hjoin
    | none =>
      exact h₈.active.push.trans (h₈.active.push.active.switchTo (.inr h₁.active.le) (by simpa using hjoin))
  | .while_ c body, b, ha => by
    unfold lowerStmt
    extract_lets header b₁ bodyBlock b₂ exitBlock b₃ b₄ cond b₅ b₆ b₇
    have h₁ : Grows N k b b₁ := ha.newBlock
    have h₂ : Grows N k b₁ b₂ := h₁.active.newBlock
    have h₃ : Grows N k b₂ b₃ := h₂.active.newBlock
    have hexit : exitBlock < b₃.numBlocks := Nat.lt_succ_self _
    have hbody : bodyBlock < b₃.numBlocks := (Nat.lt_succ_self _).trans hexit
    have h₄ : Grows N k b₃ b₄ := h₃.active.leave ha.le ((Nat.lt_succ_self _).trans hbody)
    have h₅ : Grows N k b₄ b₅ := h₄.active.evalExpr.trans h₄.active.evalExpr.active.terminate
    have h₆ : Grows N k b₅ b₆ := by
      have hswitch := h₅.active.switchTo (.inr h₁.active.le)
        (hbody.trans_le (h₄.numBlocks.trans h₅.numBlocks))
      exact hswitch.trans (lowerStmts_grows body _ hswitch.active.pushLoop).loop
    have h₇ : Grows N k b₆ b₇ := by
      unfold b₇
      split
      · exact h₆.active.push
      · exact .refl h₆.active
    have h := ((h₃.trans h₄).trans h₅).trans (h₆.trans h₇)
    exact ((h₁.trans h₂).trans h).trans
      (h₇.active.leave h₂.active.le (hexit.trans_le ((h₄.trans h₅).trans (h₆.trans h₇)).numBlocks))
  | .repeat_ body c, b, ha => by
    unfold lowerStmt
    extract_lets bodyBlock b₁ exitBlock b₂ b₃ b₄ cond b₅
    have h₁ : Grows N k b b₁ := ha.newBlock
    have h₂ : Grows N k b₁ b₂ := h₁.active.newBlock
    have hexit : exitBlock < b₂.numBlocks := Nat.lt_succ_self _
    have h₃ : Grows N k b₂ b₃ := h₂.active.leave ha.le ((Nat.lt_succ_self _).trans hexit)
    have h₄ : Grows N k b₃ b₄ := (lowerStmts_grows body _ h₃.active.pushLoop).loop
    have h₅ : Grows N k b₄ b₅ := by
      unfold b₅
      split
      · exact .refl h₄.active
      · exact h₄.active.evalExpr.trans h₄.active.evalExpr.active.terminate
    have h := (h₃.trans h₄).trans h₅
    exact ((h₁.trans h₂).trans h).trans
      (h₅.active.switchTo (.inr h₁.active.le) (hexit.trans_le h.numBlocks))
  | .for_ init c fits advance body, b, ha => by
    unfold lowerStmt
    extract_lets b₁ header b₂ bodyBlock b₃ stepBlock b₄ exitBlock b₅ b₆ cond b₇ b₈ b₉ more b₁₀
      advanceBlock b₁₁ b₁₂
    have h₁ : Grows N k b b₁ := ha.push
    have h₂ : Grows N k b₁ b₂ := h₁.active.newBlock
    have h₃ : Grows N k b₂ b₃ := h₂.active.newBlock
    have h₄ : Grows N k b₃ b₄ := h₃.active.newBlock
    have h₅ : Grows N k b₄ b₅ := h₄.active.newBlock
    have hexit : exitBlock < b₅.numBlocks := Nat.lt_succ_self _
    have hstep : stepBlock < b₅.numBlocks := (Nat.lt_succ_self _).trans hexit
    have hbody : bodyBlock < b₅.numBlocks := (Nat.lt_succ_self _).trans hstep
    have h₆ : Grows N k b₅ b₆ := h₅.active.leave h₁.active.le ((Nat.lt_succ_self _).trans hbody)
    have h₇ : Grows N k b₆ b₇ := h₆.active.evalExpr.trans h₆.active.evalExpr.active.terminate
    have h₈ : Grows N k b₇ b₈ := by
      have hswitch := h₇.active.switchTo (.inr h₂.active.le)
        (hbody.trans_le (h₆.numBlocks.trans h₇.numBlocks))
      exact hswitch.trans (lowerStmts_grows body _ hswitch.active.pushLoop).loop
    have h₆₈ := (h₆.trans h₇).trans h₈
    have h₉ : Grows N k b₈ b₉ := h₈.active.leave h₃.active.le (hstep.trans_le h₆₈.numBlocks)
    have h₁₀ : Grows N k b₉ b₁₀ := h₉.active.evalExpr
    have h₁₁ : Grows N k b₁₀ b₁₁ := h₁₀.active.newBlock
    have h₁₂ : Grows N k b₁₁ b₁₂ := h₁₁.active.leave h₁₀.active.le (Nat.lt_succ_self _)
    have hpush : Grows N k b₁₂ (b₁₂.push (.simple advance)) := h₁₂.active.push
    have hrest := ((h₉.trans h₁₀).trans h₁₁).trans (h₁₂.trans hpush)
    exact ((((h₁.trans h₂).trans h₃).trans (h₄.trans h₅)).trans (h₆₈.trans hrest)).trans
      (hpush.active.leave h₄.active.le (hexit.trans_le (h₆₈.trans hrest).numBlocks))
  | .loop body, b, ha => by
    unfold lowerStmt
    extract_lets loopBlock b₁ exitBlock b₂ b₃ b₄ b₅
    have h₁ : Grows N k b b₁ := ha.newBlock
    have h₂ : Grows N k b₁ b₂ := h₁.active.newBlock
    have hexit : exitBlock < b₂.numBlocks := Nat.lt_succ_self _
    have h₃ : Grows N k b₂ b₃ := h₂.active.leave ha.le ((Nat.lt_succ_self _).trans hexit)
    have h₄ : Grows N k b₃ b₄ := (lowerStmts_grows body _ h₃.active.pushLoop).loop
    have h₅ : Grows N k b₄ b₅ := by
      unfold b₅
      split
      · exact .refl h₄.active
      · split
        · exact h₄.active.push.trans h₄.active.push.active.terminate
        · exact h₄.active.terminate
    have h := (h₃.trans h₄).trans h₅
    exact ((h₁.trans h₂).trans h).trans
      (h₅.active.switchTo (.inr h₁.active.le) (hexit.trans_le h.numBlocks))
  | .with_ d body, b, ha => ha.push.trans (lowerStmts_grows body _ ha.push.active)
  | .exit, b, ha => by
    unfold lowerStmt
    split
    · exact ha.terminate
    · exact .refl ha
  | .return_ none, _, ha => ha.terminate
  | .return_ (some _), _, ha => ha.push.trans ha.push.active.terminate
  | .block ss none, b, ha => lowerStmts_grows ss b ha
  | .block ss (some fin), b, ha => by
    unfold lowerStmt
    extract_lets b₁
    have h₁ : Grows N k b b₁ := lowerStmts_grows ss b ha
    dsimp only
    split
    · exact h₁
    · exact h₁.trans (lowerStmts_grows fin b₁ h₁.active)
theorem lowerArms_grows {N : Nat} {k : BlockId} : ∀ (arms : List (Nat × List Stmt)) (hasElse : Bool)
    (join : BlockId) (b : FuncBuilder), Active N k b → N ≤ join → join < b.numBlocks →
    Grows N k b (lowerArms arms hasElse join b)
  | [], _, _, _, ha, _, _ => .refl ha
  | (c, body) :: rest, hasElse, join, b, ha, hid, hjoin => by
    unfold lowerArms
    extract_lets thenBlock b₁ more falseBlock b₂ cond b₃ b₄
    have h₁ : Grows N k b b₁ := ha.newBlock
    have hthen : thenBlock < b₁.numBlocks := Nat.lt_succ_self _
    have h₂ : Grows N k b₁ b₂ := by
      unfold b₂
      split
      · exact h₁.active.newBlock
      · exact .refl h₁.active
    have hfalse : N ≤ falseBlock ∧ falseBlock < b₂.numBlocks := by
      unfold falseBlock b₂
      split
      · exact ⟨h₁.active.le, Nat.lt_succ_self _⟩
      · exact ⟨hid, hjoin.trans_le h₁.numBlocks⟩
    have h₃ : Grows N k b₂ b₃ := h₂.active.evalExpr.trans h₂.active.evalExpr.active.terminate
    have h₄ : Grows N k b₃ b₄ := by
      have hswitch := h₃.active.switchTo (.inr ha.le)
        (hthen.trans_le (h₂.numBlocks.trans h₃.numBlocks))
      have hbody := lowerStmts_grows body _ hswitch.active
      exact hswitch.trans (hbody.trans hbody.active.terminate)
    have h₅ := h₄.active.switchTo (.inr hfalse.1) (hfalse.2.trans_le (h₃.trans h₄).numBlocks)
    have h := ((h₁.trans h₂).trans h₃).trans (h₄.trans h₅)
    exact h.trans (lowerArms_grows rest hasElse join _ h.active hid (hjoin.trans_le h.numBlocks))
theorem lowerElse_grows {N : Nat} {k : BlockId} : ∀ (els : Option (List Stmt)) (join : BlockId)
    (b : FuncBuilder), Active N k b → N ≤ join → join < b.numBlocks →
    Grows N k b (lowerElse els join b)
  | none, _, _, ha, _, _ => .refl ha
  | some ss, _, b, ha, hid, hjoin =>
    have h := lowerStmts_grows ss b ha
    h.trans (h.active.leave hid (hjoin.trans_le h.numBlocks))
theorem lowerCaseArms_grows {N : Nat} {k : BlockId} : ∀ (arms : List (List CaseLabel × List Stmt))
    (ab join : Nat) (b : FuncBuilder), Active N k b → N ≤ ab → ab + arms.length ≤ b.numBlocks →
    N ≤ join → join < b.numBlocks → Grows N k b (lowerCaseArms arms ab join b)
  | [], _, _, _, ha, _, _, _, _ => .refl ha
  | (_, body) :: rest, ab, join, b, ha, hab, harms, hid, hjoin => by
    unfold lowerCaseArms
    rw [List.length_cons] at harms
    have hlt : ab < b.numBlocks := by omega
    have hswitch := ha.switchTo (.inr hab) hlt
    have hbody := lowerStmts_grows body _ hswitch.active
    have h := hswitch.trans (hbody.trans (hbody.active.terminate (t := .goto join)))
    have hle := h.numBlocks
    exact h.trans (lowerCaseArms_grows rest (ab + 1) join _ h.active (by omega) (by omega) hid (by omega))
theorem lowerStmts_grows {N : Nat} {k : BlockId} : ∀ (ss : List Stmt) (b : FuncBuilder), Active N k b →
    Grows N k b (lowerStmts ss b)
  | [], _, ha => .refl ha
  | s :: ss, b, ha => by
    unfold lowerStmts
    split
    · exact .refl ha
    · have h := lowerStmt_grows s b ha
      exact h.trans (lowerStmts_grows ss _ h.active)
end

end NewM2.Cfg
