import NewM2.Com.Ladder

/-! # GUARDs are balanced

`lowerStmt_lowers`: whatever statement is lowered, the slots come to its end as they were at its start; an
EXIT that would lead elsewhere with a query outstanding is one that sema refuses. `guard_balanced` is about
every GUARD over an interface in every function. -/

namespace NewM2.Com
open FlowGraph FuncLower
open Cfg (CaseLabel MemoryMode)

mutual
theorem lowerStmt_lowers : ∀ (s : Stmt) (b : FuncLower) {start : Nat × Nat} {lo : Nat}
    {τ : List ValueId} {F : List String} {Γ : Nat → State → Prop} {π : Set Nat},
    Ready start lo τ F Γ π b (Inv τ) → b.isTerminated = false → s.Avoids F → s.errors = [] →
    ExitOk lo Γ τ b (s.scan 0) → Lowers start lo τ F Γ π b (lowerStmt s b)
  | .empty, b, _, _, _, _, _, _, h, _, _, _, _ => h.lowers
  | .simple a, b, _, _, _, _, _, _, h, _, hav, _, _ => (h.quiet (quiet_simple (h.side.writes hav))).lowers
  | .halt code, b, start, lo, τ, F, Γ, π, h, _, hav, _, _ => by
    unfold lowerStmt
    extract_lets b₁ after
    have hb₁ : Grows b b₁ := grows_evalExpr.trans grows_push
    have h₁ : Ready start lo τ F Γ π b₁ fun _ => False :=
      (h.evalExpr hav).push fun _ _ _ hexec => by cases hexec
    have hext : ∀ i < b.numBlocks, annotate Γ b₁.numBlocks (fun _ => Inv τ) i = Γ i := fun i hi =>
      annotate_of_lt (hi.trans_le hb₁.numBlocks)
    have h₂ := (h₁.above fun _ => Inv τ).newBlock.park (.inr fun _ hs => hs)
    exact ⟨_, hext, (h₂.resume (Set.mem_insert ..) h₁.side.lo_le (annotate_of_le le_rfl)).filled
      h₁.numBlocks_notMem⟩
  | .if_ c body elsifs els, b, start, lo, τ, F, Γ, π, h, _, hav, herr, hexit => by
    unfold lowerStmt
    extract_lets join b₁ more falseBlock b₂ b₃
    obtain ⟨hc, hbody, helsifs, hels⟩ := hav
    rw [Stmt.errors, List.append_eq_nil_iff, List.append_eq_nil_iff] at herr
    have hext : ∀ i < b.numBlocks, annotate Γ b.numBlocks (fun _ => Inv τ) i = Γ i := fun i hi =>
      annotate_of_lt hi
    have hΓjoin : annotate Γ b.numBlocks (fun _ => Inv τ) join = Inv τ := annotate_of_le le_rfl
    have h₁ : Ready start lo τ F _ (insert join π) b₁ (Inv τ) := (h.above fun _ => Inv τ).newBlock
    have hexit₁ : ExitOk lo _ τ b₁ _ := hexit.congr h.side hext grows_newBlock
    obtain ⟨Γ₂, hext₂, h₂⟩ := arm_lowers more h₁ h.numBlocks_notMem h.side.lo_le hΓjoin hc
      (lowerStmts_grows body) fun Γ' π' hΓ' h' => lowerStmts_lowers body _ h' hbody herr.1.1
        (hexit₁.left.left.congr h₁.side hΓ' grows_beginArm)
    have hb₁ : join < b₁.numBlocks := Nat.lt_succ_self _
    have hb₂ : Grows b₁ b₂ := (grows_beginArm.trans (lowerStmts_grows body _)).trans grows_endArm
    obtain ⟨Γ₃, hext₃, h₃⟩ := lowerArms_lowers elsifs els.isSome join b₂ h₂ h.numBlocks_notMem h.side.lo_le
      (hb₁.trans_le hb₂.numBlocks) ((hext₂ join hb₁).trans hΓjoin) helsifs herr.1.2
      (hexit₁.left.right.congr h₁.side hext₂ hb₂)
    have hb₃ : Grows b₂ b₃ := lowerArms_grows ..
    have hext₀₃ : ∀ i < b₁.numBlocks, Γ₃ i = annotate Γ b.numBlocks (fun _ => Inv τ) i := fun i hi =>
      (hext₃ i (hi.trans_le hb₂.numBlocks)).trans (hext₂ i hi)
    have hext' : ∀ i < b.numBlocks, Γ₃ i = Γ i := fun i hi =>
      (hext₀₃ i (Nat.lt_succ_of_lt hi)).trans (hext i hi)
    cases els with
    | none => exact ⟨Γ₃, hext', h₃⟩
    | some ss =>
      have hΓ₃ : Γ₃ join = Inv τ := (hext₀₃ join hb₁).trans hΓjoin
      obtain ⟨Γ₄, hext₄, h₄⟩ := lowerElse_rests (some ss) "" join b₃ h₃
        ⟨(hb₁.trans_le hb₂.numBlocks).trans_le hb₃.numBlocks, hΓ₃⟩ hels herr.2
        (hexit₁.right.congr h₁.side hext₀₃ (hb₂.trans hb₃))
      have hle : ∀ i < b₁.numBlocks, i < b₃.numBlocks := fun i hi => hi.trans_le (hb₂.trans hb₃).numBlocks
      exact ⟨Γ₄, fun i hi => (hext₄ i (hle i (Nat.lt_succ_of_lt hi))).trans (hext' i hi),
        (h₄.resume (Set.mem_insert ..) h.side.lo_le ((hext₄ join (hle join hb₁)).trans hΓ₃)).filled
          h.numBlocks_notMem⟩
  | .case_ e arms els, b, start, lo, τ, F, Γ, π, h, _, hav, herr, hexit => by
    unfold lowerStmt
    extract_lets val b₁ join b₂ default b₃ armBlock b₄ b₅ b₆
    obtain ⟨he, harms, hels⟩ := hav
    rw [Stmt.errors, List.append_eq_nil_iff] at herr
    have hb₁ : Grows b b₁ := grows_evalExpr
    have hb₄ : Grows b₁ b₄ := (grows_newBlock.trans grows_newBlock).trans grows_newBlocks
    have hdefault : default = join + 1 := rfl
    have harmBlock : armBlock = join + 2 := rfl
    have hΓ : ∀ i, join ≤ i → annotate Γ b₁.numBlocks (fun _ => Inv τ) i = Inv τ := fun i hi =>
      annotate_of_le hi
    have hext : ∀ i < b.numBlocks, annotate Γ b₁.numBlocks (fun _ => Inv τ) i = Γ i := fun i hi =>
      annotate_of_lt (hi.trans_le hb₁.numBlocks)
    have h₁ : Ready start lo τ F _ π b₁ (Inv τ) := (h.evalExpr he).above fun _ => Inv τ
    have h₄ : Ready start lo τ F _ (pendArms (insert default (insert join π)) armBlock arms.length) b₄ (Inv τ) :=
      h₁.newBlock.newBlock.newBlocks
    have hnum : b₄.numBlocks = armBlock + arms.length := newBlocks_numBlocks
    have hlo : lo ≤ join := h₁.side.lo_le
    obtain ⟨Γ₅, hext₅, h₅⟩ := lowerLabels_rests val (labelBlocks arms armBlock) [] b₄ h₄
      ⟨by omega, hΓ default (by omega)⟩
      (fun l hl => ⟨hnum ▸ (mem_labelBlocks l hl).2, hΓ l.2 (le_trans (by omega) (mem_labelBlocks l hl).1)⟩)
      (fun l hl => nomatch hl)
    have hΓ₅ : ∀ i, join ≤ i → i < b₄.numBlocks → Γ₅ i = Inv τ := fun i hle hlt =>
      (hext₅ i hlt).trans (hΓ i hle)
    have hb₅ : Grows b₄ b₅ := grows_lowerLabels
    have hpend : ∀ i ∈ insert default (insert join π), i < armBlock := by
      rintro i (rfl | rfl | hi)
      · omega
      · omega
      · have := h₁.pending_lt hi
        omega
    have hexit₅ : ExitOk lo Γ₅ τ b₅ (scanCase arms 0 || scanElse els 0) :=
      (hexit.congr h.side hext hb₁).congr h₁.side (fun i hi => hext₅ i (hi.trans_le hb₄.numBlocks))
        (hb₄.trans hb₅)
    obtain ⟨Γ₆, hext₆, h₆⟩ := lowerCaseArms_rests arms armBlock join b₅ h₅ (by omega)
      (hnum ▸ hb₅.numBlocks) hpend (fun i hle hlt => hΓ₅ i (by omega) (by omega))
      ⟨(by omega : join < b₄.numBlocks).trans_le hb₅.numBlocks, hΓ₅ join le_rfl (by omega)⟩
      harms herr.1 hexit₅.left
    have hb₆ : Grows b₅ b₆ := (lowerCaseArms_grows ..).trans grows_switchTo
    have hΓ₆ : ∀ i, join ≤ i → i < b₄.numBlocks → Γ₆ i = Inv τ := fun i hle hlt =>
      (hext₆ i (hlt.trans_le hb₅.numBlocks)).trans (hΓ₅ i hle hlt)
    have hext' : ∀ i < b₁.numBlocks, Γ₆ i = annotate Γ b₁.numBlocks (fun _ => Inv τ) i := fun i hi =>
      (hext₆ i ((hi.trans_le hb₄.numBlocks).trans_le hb₅.numBlocks)).trans
        (hext₅ i (hi.trans_le hb₄.numBlocks))
    have h₆' : Ready start lo τ F Γ₆ (insert join π) b₆ (Inv τ) :=
      (h₆.resume (Set.mem_insert ..) (by omega) (hΓ₆ default (by omega) (by omega))).filled
        h₁.newBlock.numBlocks_notMem
    obtain ⟨Γ₇, hext₇, h₇⟩ := lowerElse_rests els "nm2_raise_m2" join b₆ h₆'
      ⟨h₆'.pending_lt (Set.mem_insert ..), hΓ₆ join le_rfl (by omega)⟩ hels herr.2
      ((hexit.right.congr h.side hext hb₁).congr h₁.side hext' ((hb₄.trans hb₅).trans hb₆))
    have hΓ₇ : Γ₇ join = Inv τ :=
      (hext₇ join (h₆'.pending_lt (Set.mem_insert ..))).trans (hΓ₆ join le_rfl (by omega))
    have hle := ((hb₄.trans hb₅).trans hb₆).numBlocks
    refine ⟨Γ₇, fun i hi => ?_, (h₇.resume (Set.mem_insert ..) hlo hΓ₇).filled h₁.numBlocks_notMem⟩
    have hi₁ := hi.trans_le hb₁.numBlocks
    exact (hext₇ i (hi₁.trans_le hle)).trans ((hext' i hi₁).trans (hext i hi))
  | .while_ c body, b, start, lo, τ, F, Γ, π, h, _, hav, herr, _ => by
    unfold lowerStmt
    extract_lets header b₁ bodyBlock b₂ exitBlock b₃ b₄ cond b₅ b₆ b₇
    obtain ⟨Γ₀, hext, hnew, h₀⟩ := h.fresh
    have hbodyBlock : bodyBlock = header + 1 := rfl
    have hexitBlock : exitBlock = header + 2 := rfl
    have hlo : lo ≤ header := h.side.lo_le
    have hπ : ∀ i ∈ π, i < header := fun i hi => h.pending_lt hi
    have hb₃ : b₃.numBlocks = header + 3 := rfl
    have hb₄ : b₄.numBlocks = header + 3 := Builder.terminate_numBlocks _ _
    have hcond : (b₄.evalExpr c).numBlocks = header + 3 := evalExpr_numBlocks.trans hb₄
    have hb₅ : b₅.numBlocks = header + 3 := (Builder.terminate_numBlocks _ _).trans hcond
    have h₃ : Ready start lo τ F Γ₀ _ b₃ (Inv τ) := h₀.newBlock.newBlock.newBlock
    have h₄ : Ready start lo τ F Γ₀ _ b₄ (Inv τ) :=
      h₃.leave (targets_goto ⟨by omega, hnew _ le_rfl⟩) (.inr (.inr (.inl rfl))) hlo (hnew _ le_rfl)
    have h₅ : Ready start lo τ F Γ₀ (insert exitBlock π) b₅ (Inv τ) := by
      refine ((h₄.evalExpr hav.1).leave (targets_condBr (x := bodyBlock) (y := exitBlock)
        ⟨by omega, hnew _ (by omega)⟩ ⟨by omega, hnew _ (by omega)⟩) (k := bodyBlock)
        ⟨.inr (.inl rfl), by simp; omega⟩ (by omega) (hnew _ (by omega))).pend fun i => ?_
      have hi := hπ i
      simp only [Set.mem_sdiff, Set.mem_insert_iff, Set.mem_singleton_iff, newBlock_numBlocks]
      grind
    obtain ⟨Γ₆, hext₆, h₆⟩ := inLoop ⟨exitBlock, header⟩ h₅ (show exitBlock < b₅.numBlocks by omega)
      (hnew exitBlock (by omega)) (lowerStmts_grows body) fun h' hframe =>
        lowerStmts_lowers body _ h' hav.2 herr (.inr hframe)
    have hb₆ : header + 3 ≤ b₆.numBlocks := hb₅ ▸ (lowerStmts_grows body _).loop.numBlocks
    have hΓ₆ : ∀ i, header ≤ i → i < header + 3 → Γ₆ i = Inv τ := fun i hle hlt =>
      (hext₆ i (hb₅ ▸ hlt)).trans (hnew i hle)
    have h₇ : Ready start lo τ F Γ₆ (insert exitBlock π) b₇ (Inv τ) := h₆.safePoint
    have hb₇ : b₆.numBlocks ≤ b₇.numBlocks := grows_safePoint.numBlocks
    have h₈ := h₇.leave (targets_goto ⟨by omega, hΓ₆ header le_rfl (by omega)⟩) (Set.mem_insert ..) (by omega)
      (hΓ₆ exitBlock (by omega) (by omega))
    exact ⟨Γ₆, fun i hi => (hext₆ i (by omega)).trans (hext i hi),
      h₈.filled fun hi => absurd (hπ _ hi) (by omega)⟩
  | .repeat_ body c, b, start, lo, τ, F, Γ, π, h, _, hav, herr, _ => by
    unfold lowerStmt
    extract_lets bodyBlock b₁ exitBlock b₂ b₃ b₄ cond b₅
    obtain ⟨Γ₀, hext, hnew, h₀⟩ := h.fresh
    have hexitBlock : exitBlock = bodyBlock + 1 := rfl
    have hlo : lo ≤ bodyBlock := h.side.lo_le
    have hπ : ∀ i ∈ π, i < bodyBlock := fun i hi => h.pending_lt hi
    have hb₂ : b₂.numBlocks = bodyBlock + 2 := rfl
    have hb₃ : b₃.numBlocks = bodyBlock + 2 := Builder.terminate_numBlocks _ _
    have h₂ : Ready start lo τ F Γ₀ _ b₂ (Inv τ) := h₀.newBlock.newBlock
    have h₃ : Ready start lo τ F Γ₀ (insert exitBlock π) b₃ (Inv τ) := by
      refine (h₂.leave (targets_goto ⟨by omega, hnew _ le_rfl⟩) (k := bodyBlock) (.inr (.inl rfl)) hlo
        (hnew _ le_rfl)).pend fun i => ?_
      have hi := hπ i
      simp only [Set.mem_sdiff, Set.mem_insert_iff, Set.mem_singleton_iff, newBlock_numBlocks]
      grind
    obtain ⟨Γ₄, hext₄, h₄⟩ := inLoop ⟨exitBlock, bodyBlock⟩ h₃
      (show exitBlock < b₃.numBlocks by omega) (hnew exitBlock (by omega)) (lowerStmts_grows body)
      fun h' hframe => lowerStmts_lowers body _ h' hav.2 herr (.inr hframe)
    have hb₄ : bodyBlock + 2 ≤ b₄.numBlocks := hb₃ ▸ (lowerStmts_grows body _).loop.numBlocks
    have hΓ₄ : ∀ i, bodyBlock ≤ i → i < bodyBlock + 2 → Γ₄ i = Inv τ := fun i hle hlt =>
      (hext₄ i (hb₃ ▸ hlt)).trans (hnew i hle)
    have h₅ : Rest start lo τ F Γ₄ (insert exitBlock π) b₅ := by
      unfold b₅
      split
      · next hterm => exact h₄.park (.inl hterm)
      · have h₄ : Ready start lo τ F Γ₄ (insert exitBlock π) b₄ (Inv τ) := h₄
        have hcond : (b₄.evalExpr c).numBlocks = b₄.numBlocks := evalExpr_numBlocks
        exact (h₄.evalExpr hav.1).parkTerminate (targets_condBr
          ⟨by omega, hΓ₄ exitBlock (by omega) (by omega)⟩ ⟨by omega, hΓ₄ bodyBlock le_rfl (by omega)⟩)
    exact ⟨Γ₄, fun i hi => (hext₄ i (by omega)).trans (hext i hi),
      (h₅.resume (Set.mem_insert ..) (by omega) (hΓ₄ exitBlock (by omega) (by omega))).filled
        fun hi => absurd (hπ _ hi) (by omega)⟩
  | .loop body, b, start, lo, τ, F, Γ, π, h, _, hav, herr, _ => by
    unfold lowerStmt
    extract_lets loopBlock b₁ exitBlock b₂ b₃ b₄ b₅
    obtain ⟨Γ₀, hext, hnew, h₀⟩ := h.fresh
    have hexitBlock : exitBlock = loopBlock + 1 := rfl
    have hlo : lo ≤ loopBlock := h.side.lo_le
    have hπ : ∀ i ∈ π, i < loopBlock := fun i hi => h.pending_lt hi
    have hb₂ : b₂.numBlocks = loopBlock + 2 := rfl
    have hb₃ : b₃.numBlocks = loopBlock + 2 := Builder.terminate_numBlocks _ _
    have h₂ : Ready start lo τ F Γ₀ _ b₂ (Inv τ) := h₀.newBlock.newBlock
    have h₃ : Ready start lo τ F Γ₀ (insert exitBlock π) b₃ (Inv τ) := by
      refine (h₂.leave (targets_goto ⟨by omega, hnew _ le_rfl⟩) (k := loopBlock) (.inr (.inl rfl)) hlo
        (hnew _ le_rfl)).pend fun i => ?_
      have hi := hπ i
      simp only [Set.mem_sdiff, Set.mem_insert_iff, Set.mem_singleton_iff, newBlock_numBlocks]
      grind
    obtain ⟨Γ₄, hext₄, h₄⟩ := inLoop ⟨exitBlock, loopBlock⟩ h₃
      (show exitBlock < b₃.numBlocks by omega) (hnew exitBlock (by omega)) (lowerStmts_grows body)
      fun h' hframe => lowerStmts_lowers body _ h' hav herr (.inr hframe)
    have hb₄ : loopBlock + 2 ≤ b₄.numBlocks := hb₃ ▸ (lowerStmts_grows body _).loop.numBlocks
    have hΓ₄ : ∀ i, loopBlock ≤ i → i < loopBlock + 2 → Γ₄ i = Inv τ := fun i hle hlt =>
      (hext₄ i (hb₃ ▸ hlt)).trans (hnew i hle)
    have h₅ : Ready start lo τ F Γ₄ (insert exitBlock π) b₅ (Inv τ) := h₄.safePoint
    have hb₅ : b₄.numBlocks ≤ b₅.numBlocks := grows_safePoint.numBlocks
    have h₆ := h₅.leave (targets_goto ⟨by omega, hΓ₄ loopBlock le_rfl (by omega)⟩) (Set.mem_insert ..)
      (by omega) (hΓ₄ exitBlock (by omega) (by omega))
    exact ⟨Γ₄, fun i hi => (hext₄ i (by omega)).trans (hext i hi),
      h₆.filled fun hi => absurd (hπ _ hi) (by omega)⟩
  | .with_ d body, b, _, _, _, _, _, _, h, _, hav, herr, hexit =>
    .of_ext (fun _ _ => rfl) grows_evalExpr.numBlocks (lowerStmts_lowers body _ (h.evalExpr hav.1) hav.2 herr
      (hexit.congr h.side (fun _ _ => rfl) grows_evalExpr))
  | .exit, b, start, lo, τ, F, Γ, π, h, _, _, _, hexit => by
    unfold lowerStmt
    split
    · next frame hf =>
      have hframe : FrameOk lo Γ τ b := hexit.resolve_left nofun
      exact ⟨Γ, fun _ _ => rfl, h.terminate fun j hj hlo => by
        rw [List.mem_singleton.1 hj] at hlo ⊢
        exact ⟨h.side.frame frame hf, hframe frame hf hlo⟩⟩
    · exact h.lowers
  | .return_ (some e), b, _, _, _, _, Γ, _, h, _, hav, _, _ =>
    ⟨Γ, fun _ _ => rfl, (h.evalExpr hav).terminate fun _ hj => nomatch hj⟩
  | .return_ none, b, _, _, _, _, Γ, _, h, _, _, _, _ =>
    ⟨Γ, fun _ _ => rfl, h.terminate fun _ hj => nomatch hj⟩
  | .raise (some e), b, _, _, _, _, Γ, _, h, _, hav, _, _ =>
    ⟨Γ, fun _ _ => rfl, (h.evalExpr hav).terminate fun _ hj => nomatch hj⟩
  | .raise none, b, _, _, _, _, Γ, _, h, _, _, _, _ => ⟨Γ, fun _ _ => rfl, h.quiet quiet_noreturn⟩
  | .retry, b, start, lo, τ, F, Γ, π, h, _, _, _, _ => by
    unfold lowerStmt
    split
    · next target ht =>
      exact ⟨Γ, fun _ _ => rfl, (h.emitQuiet fun _ => quiet_call).terminate fun j hj hlo => by
        rw [List.mem_singleton.1 hj] at hlo
        exact absurd (h.side.retry target ht) hlo.not_gt⟩
    · exact h.lowers
  | .block ss _ none, b, _, _, _, _, _, _, h, _, hav, herr, hexit => by
    rw [Stmt.errors, List.append_eq_nil_iff, List.append_eq_nil_iff] at herr
    exact lowerStmts_lowers ss b h hav.1 herr.1.1 hexit.left.left
  | .block ss _ (some fin), b, start, lo, τ, F, Γ, π, h, _, hav, herr, hexit => by
    unfold lowerStmt
    extract_lets b₁
    rw [Stmt.errors, List.append_eq_nil_iff, List.append_eq_nil_iff] at herr
    obtain ⟨Γ₁, hext₁, h₁⟩ := lowerStmts_lowers ss b h hav.1 herr.1.1 hexit.left.left
    have hg₁ : Grows b b₁ := lowerStmts_grows ss b
    dsimp only
    split
    · exact ⟨Γ₁, hext₁, h₁⟩
    · exact .of_ext hext₁ hg₁.numBlocks (lowerStmts_lowers fin b₁ h₁ hav.2 herr.2
        (hexit.right.congr h.side hext₁ hg₁))
  | .for_ var st stop by_ body, b, start, lo, τ, F, Γ, π, h, _, hav, herr, _ => by
    unfold lowerStmt
    extract_lets ptr b₁ startVal b₂ endVal b₃ stepVal b₄ header b₅ bodyBlock b₆ stepBlock b₇ exitBlock b₈ b₉
      cur b₁₀ cond b₁₁ b₁₂ b₁₃ b₁₄ cur' b₁₅ fits b₁₆ advance b₁₇ b₁₈ next b₁₉
    obtain ⟨hvar, hst, hstop, hby, hbody⟩ := hav
    -- the bounds and the step, before the first block of the loop
    have hptr : ptr ∉ τ := by
      unfold ptr
      cases hloc : b.locals var with
      | some slot => exact fun hmem => hvar (h.side.bound var slot hloc hmem)
      | none => exact fun hmem => absurd (h.side.lt _ hmem) (lt_irrefl _)
    have h₁ : Ready start lo τ F Γ π b₁ (Inv τ) := by
      unfold b₁
      split
      · exact h
      · next hloc =>
        have hnew : ptr = b.nextReg := by
          unfold ptr
          rw [Option.not_isSome_iff_eq_none.1 hloc]
          rfl
        exact (h.emitQuiet fun _ => quiet_alloca).bindFresh h.side grows_emit
          ⟨hnew.ge, hnew ▸ Nat.lt_succ_self _⟩
    have hg₁ : b.numBlocks ≤ b₁.numBlocks := by
      unfold b₁
      split
      · exact le_rfl
      · exact grows_emit.numBlocks
    have h₃ : Ready start lo τ F Γ π b₃ (Inv τ) := ((h₁.evalExpr hst).quiet (quiet_store hptr)).evalExpr hstop
    have hg₃ : Grows b₁ b₃ := (grows_evalExpr.trans grows_push).trans grows_evalExpr
    have h₄ : Ready start lo τ F Γ π b₄ (Inv τ) ∧ Grows b₃ b₄ := by
      unfold b₄
      cases by_ with
      | some e => exact ⟨h₃.evalExpr (hby e rfl), grows_evalExpr⟩
      | none => exact ⟨h₃.emitQuiet fun _ => quiet_const, grows_emit⟩
    obtain ⟨h₄, hg₄⟩ := h₄
    obtain ⟨Γ₀, hext, hnew, h₀⟩ := h₄.fresh
    have hle : b.numBlocks ≤ header := hg₁.trans (hg₃.trans hg₄).numBlocks
    have hlo : lo ≤ header := h₄.side.lo_le
    have hπ : ∀ i ∈ π, i < header := fun i hi => h₄.pending_lt hi
    have hbodyBlock : header ≤ bodyBlock := Nat.le_add_right header 1
    have hstepBlock : header ≤ stepBlock ∧ stepBlock < header + 4 :=
      ⟨Nat.le_add_right header 2, Nat.add_lt_add_left (by decide : 2 < 4) header⟩
    have hexitBlock : header ≤ exitBlock ∧ exitBlock < header + 4 :=
      ⟨Nat.le_add_right header 3, Nat.lt_succ_self _⟩
    have hnotMem : ∀ i, header ≤ i → i ∉ π := fun i hi hmem => absurd (hπ i hmem) hi.not_gt
    -- the test of the loop
    have hb₉ : b₉.numBlocks = header + 4 := Builder.terminate_numBlocks _ _
    have hb₁₁ : b₁₁.numBlocks = header + 4 :=
      ((Builder.push_numBlocks _ _).trans (Builder.push_numBlocks _ _)).trans hb₉
    have hb₁₂ : b₁₂.numBlocks = header + 4 := (Builder.terminate_numBlocks _ _).trans hb₁₁
    have h₈ : Ready start lo τ F Γ₀ _ b₈ (Inv τ) := h₀.newBlock.newBlock.newBlock.newBlock
    have h₉ : Ready start lo τ F Γ₀ _ b₉ (Inv τ) :=
      h₈.leave (targets_goto ⟨Nat.lt_add_of_pos_right (by decide : 0 < 4), hnew _ le_rfl⟩)
        (.inr (.inr (.inr (.inl rfl)))) hlo (hnew _ le_rfl)
    have h₁₁ : Ready start lo τ F Γ₀ _ b₁₁ (Inv τ) :=
      (h₉.emitQuiet fun _ => quiet_load).emitQuiet fun _ => quiet_compute
    have h₁₂ : Ready start lo τ F Γ₀ (insert stepBlock (insert exitBlock π)) b₁₂ (Inv τ) :=
      (h₁₁.leave (targets_condBr
        ⟨hb₁₁ ▸ Nat.add_lt_add_left (by decide : 1 < 4) header, hnew bodyBlock hbodyBlock⟩
        ⟨hb₁₁ ▸ hexitBlock.2, hnew exitBlock hexitBlock.1⟩)
        ⟨.inr (.inr (.inl rfl)), (Nat.lt_succ_self header).ne'⟩ (hlo.trans hbodyBlock)
        (hnew _ hbodyBlock)).pend (mem_forBlocks hπ)
    obtain ⟨Γ₁₃, hext₁₃, h₁₃⟩ := inLoop ⟨exitBlock, stepBlock⟩ h₁₂ (hb₁₂ ▸ hexitBlock.2)
      (hnew exitBlock hexitBlock.1) (lowerStmts_grows body) fun h' hframe =>
        lowerStmts_lowers body _ h' hbody herr (.inr hframe)
    have hb₁₃ : header + 4 ≤ b₁₃.numBlocks := hb₁₂ ▸ (lowerStmts_grows body _).loop.numBlocks
    have hΓ₁₃ : ∀ i, header ≤ i → i < header + 4 → Γ₁₃ i = Inv τ := fun i hle hlt =>
      (hext₁₃ i (hb₁₂ ▸ hlt)).trans (hnew i hle)
    -- the test whether another step fits, and the step
    have h₁₄ : Ready start lo τ F Γ₁₃ (insert exitBlock π) b₁₄ (Inv τ) :=
      (h₁₃.leave (targets_goto ⟨hstepBlock.2.trans_le hb₁₃, hΓ₁₃ stepBlock hstepBlock.1 hstepBlock.2⟩)
        (Set.mem_insert ..) (hlo.trans hstepBlock.1) (hΓ₁₃ stepBlock hstepBlock.1 hstepBlock.2)).filled (by
          rintro (heq | hi)
          · exact absurd heq (Nat.lt_succ_self _).ne
          · exact hnotMem _ hstepBlock.1 hi)
    have hb₁₆ : b₁₆.numBlocks = b₁₃.numBlocks :=
      ((Builder.push_numBlocks _ _).trans (Builder.push_numBlocks _ _)).trans (Builder.terminate_numBlocks _ _)
    have h₁₆ : Ready start lo τ F Γ₁₃ (insert exitBlock π) b₁₆ (Inv τ) :=
      (h₁₄.emitQuiet fun _ => quiet_load).emitQuiet fun _ => quiet_compute
    obtain ⟨Γ₁₇, hext₁₇, hnew₁₇, h₁₆'⟩ := h₁₆.fresh
    have hlt₁₆ : ∀ i, i < header + 4 → i < advance := fun i hlt => hlt.trans_le (hb₁₃.trans_eq hb₁₆.symm)
    have hΓ₁₇ : ∀ i, header ≤ i → i < header + 4 → Γ₁₇ i = Inv τ := fun i hle hlt =>
      (hext₁₇ i (hlt₁₆ i hlt)).trans (hΓ₁₃ i hle hlt)
    have h₁₈ : Ready start lo τ F Γ₁₇ (insert exitBlock π) b₁₈ (Inv τ) :=
      (h₁₆'.newBlock.leave (targets_condBr ⟨Nat.lt_succ_self _, hnew₁₇ advance le_rfl⟩
        ⟨Nat.lt_succ_of_lt (hlt₁₆ _ hexitBlock.2), hΓ₁₇ exitBlock hexitBlock.1 hexitBlock.2⟩)
        (Set.mem_insert ..) h₁₆.side.lo_le (hnew₁₇ _ le_rfl)).filled h₁₆.numBlocks_notMem
    have hb₁₉ : (b₁₉.push (.store ptr next)).numBlocks = advance + 1 :=
      ((Builder.push_numBlocks _ _).trans (Builder.push_numBlocks _ _)).trans (Builder.terminate_numBlocks _ _)
    have h₁₉ : Ready start lo τ F Γ₁₇ (insert exitBlock π) b₁₉ (Inv τ) := h₁₈.emitQuiet fun _ => quiet_compute
    have hheader : header < header + 4 := Nat.lt_add_of_pos_right (by decide)
    have h₂₀ := (h₁₉.quiet (quiet_store (v := next) hptr)).leave
      (targets_goto ⟨hb₁₉ ▸ Nat.lt_succ_of_lt (hlt₁₆ _ hheader), hΓ₁₇ header le_rfl hheader⟩)
      (Set.mem_insert ..) (hlo.trans hexitBlock.1) (hΓ₁₇ exitBlock hexitBlock.1 hexitBlock.2)
    refine ⟨Γ₁₇, fun i hi => ?_, h₂₀.filled (hnotMem _ hexitBlock.1)⟩
    have hi' : i < header := hi.trans_le hle
    have hi₄ : i < header + 4 := hi'.trans hheader
    exact (hext₁₇ i (hlt₁₆ i hi₄)).trans ((hext₁₃ i (hb₁₂ ▸ hi₄)).trans (hext i hi'))
  | .guard selector selTy arms els, b, start, lo, τ, F, Γ, π, h, hopen, hav, herr, hexit => by
    unfold lowerStmt
    extract_lets pos numBlocks sel b₁ join b₂ default b₃ armBlock b₄ ladder b₅ b₆ candTi c₁ join' c₂ default' c₃
      armBlock' c₄ c₅ c₆ c₇
    obtain ⟨hsel, harms, hels⟩ := hav
    rw [Stmt.errors, List.append_eq_nil_iff, List.append_eq_nil_iff] at herr
    by_cases hiface : armsAreInterface arms = true
    · rw [if_pos hiface] at harms ⊢
      have hselIface : selIsIface selTy = true := selIsIface_of_armsAreInterface herr.1.2 hiface
      have hne : arms ≠ [] := by
        rintro rfl
        cases hiface
      -- the statement as a part of a piece that begins where the GUARD does, or before
      have key : ∀ {start : Nat × Nat} {lo : Nat} {τ : List ValueId} {Γ : Nat → State → Prop} {π : Set Nat},
          Ready start lo τ F Γ π b (Inv τ) → ExitOk lo Γ τ b (scanElse els 0) →
          Lowers start lo τ F Γ π b b₆ ∧ b₆.isTerminated = false := by
        intro start lo τ Γ π h hexit
        have hb₁ : Grows b b₁ := grows_evalExpr
        have hb₄ : Grows b₁ b₄ := (grows_newBlock.trans grows_newBlock).trans grows_newBlocks
        have hdefault : default = join + 1 := rfl
        have harmBlock : armBlock = join + 2 := rfl
        let A : Nat → State → Prop := fun i =>
          if i < armBlock then Inv τ else Inv ((ladder.1[i - armBlock]?).toList ++ τ)
        have hΓ : ∀ i, join ≤ i → i < armBlock → annotate Γ b₁.numBlocks A i = Inv τ := fun i hle hlt =>
          (annotate_of_le hle).trans (if_pos hlt)
        have hslots : ∀ i slot, ladder.1[i]? = some slot →
            annotate Γ b₁.numBlocks A (armBlock + i) = Inv (slot :: τ) := by
          intro i slot hi
          rw [annotate_of_le (by change join ≤ _; omega)]
          change (if armBlock + i < armBlock then _ else _) = _
          rw [if_neg (Nat.le_add_right _ _).not_gt, Nat.add_sub_cancel_left, hi]
          rfl
        have hext : ∀ i < b.numBlocks, annotate Γ b₁.numBlocks A i = Γ i := fun i hi =>
          annotate_of_lt (hi.trans_le hb₁.numBlocks)
        have h₁ : Ready start lo τ F _ π b₁ (Inv τ) := (h.evalExpr hsel).above A
        have h₄ : Ready start lo τ F _ (pendArms (insert default (insert join π)) armBlock arms.length) b₄
            (Inv τ) := h₁.newBlock.newBlock.newBlocks
        have hnum : b₄.numBlocks = armBlock + arms.length := newBlocks_numBlocks
        have hlo : lo ≤ join := h₁.side.lo_le
        obtain ⟨Γ₅, hext₅, h₅⟩ := lowerLadder_rests sel default arms armBlock b₄ hne h₄
          (fun arm harm => by
            obtain ⟨cls, hcls, -⟩ := armErrors_eq_nil (errorsGuard_eq_nil herr.1.2 arm harm).1
            exact Option.isSome_iff_exists.2 ⟨cls, hcls⟩)
          ⟨by omega, hΓ default (by omega) (by omega)⟩ hnum.ge hslots
        have hladder : Grows b₄ ladder.2 := grows_lowerLadder
        have hΓ₅ : ∀ i, join ≤ i → i < armBlock → Γ₅ i = Inv τ := fun i hle hlt =>
          (hext₅ i (by omega)).trans (hΓ i hle hlt)
        have hpend : ∀ i ∈ insert default (insert join π), i < armBlock := by
          rintro i (rfl | rfl | hi)
          · omega
          · omega
          · have := h₁.pending_lt hi
            omega
        have hlen : ladder.1.length = arms.length := slots_lowerLadder.1
        obtain ⟨Γ₆, hext₆, h₆⟩ := lowerIfaceArms_rests arms ladder.1 armBlock join ladder.2 h₅ hlen
          (fun slot hslot => by
            obtain ⟨hle, hlt⟩ := slots_lowerLadder.2 slot hslot
            refine ⟨hlt, fun hmem => absurd (h₄.side.lt slot hmem) hle.not_gt, fun x hx => ?_⟩
            rw [locals_lowerLadder] at hx
            exact absurd (h₄.side.locals_lt x slot hx) hle.not_gt)
          (fun i slot hi => by
            have hlt : i < arms.length := hlen ▸ (List.getElem?_eq_some_iff.1 hi).1
            exact (hext₅ _ (by omega)).trans (hslots i slot hi))
          (by omega) (hnum ▸ hladder.numBlocks) hpend
          ⟨(by omega : join < b₄.numBlocks).trans_le hladder.numBlocks, hΓ₅ join le_rfl (by omega)⟩
          harms herr.1.2 hselIface
        have hb₅ : Grows ladder.2 b₅ := (lowerIfaceArms_grows ..).trans grows_switchTo
        have hΓ₆ : ∀ i, join ≤ i → i < armBlock → Γ₆ i = Inv τ := fun i hle hlt =>
          (hext₆ i ((by omega : i < b₄.numBlocks).trans_le hladder.numBlocks)).trans (hΓ₅ i hle hlt)
        have hext' : ∀ i < b₁.numBlocks, Γ₆ i = annotate Γ b₁.numBlocks A i := fun i hi =>
          (hext₆ i ((hi.trans_le hb₄.numBlocks).trans_le hladder.numBlocks)).trans
            (hext₅ i (hi.trans_le hb₄.numBlocks))
        have h₆' : Ready start lo τ F Γ₆ (insert join π) b₅ (Inv τ) :=
          (h₆.resume (Set.mem_insert ..) (by omega) (hΓ₆ default (by omega) (by omega))).filled
            h₁.newBlock.numBlocks_notMem
        obtain ⟨Γ₇, hext₇, h₇⟩ := lowerElse_rests els "nm2_raise_guard" join b₅ h₆'
          ⟨h₆'.pending_lt (Set.mem_insert ..), hΓ₆ join le_rfl (by omega)⟩ hels herr.2
          ((hexit.congr h.side hext hb₁).congr h₁.side hext' ((hb₄.trans hladder).trans hb₅))
        have hΓ₇ : Γ₇ join = Inv τ :=
          (hext₇ join (h₆'.pending_lt (Set.mem_insert ..))).trans (hΓ₆ join le_rfl (by omega))
        have hle := ((hb₄.trans hladder).trans hb₅).numBlocks
        refine ⟨⟨Γ₇, fun i hi => ?_, (h₇.resume (Set.mem_insert ..) hlo hΓ₇).filled h₁.numBlocks_notMem⟩,
          h₇.isTerminated_switchTo (Set.mem_insert ..) hlo⟩
        have hi₁ := hi.trans_le hb₁.numBlocks
        exact (hext₇ i (hi₁.trans_le hle)).trans ((hext' i hi₁).trans (hext i hi))
      obtain ⟨⟨Γ', hext, h'⟩, hopen'⟩ := key h hexit.right
      -- every path from its start is balanced, whatever slots there are outside
      obtain ⟨⟨Γ₀, hext₀, h₀⟩, -⟩ := key (h.atStart hopen)
        (.inr fun frame hf hle => absurd (h.side.frame frame hf) hle.not_gt)
      have hΓ₀ : Γ₀ b.current = Inv [] := hext₀ _ h.ann.current_lt
      exact ⟨Γ', hext, h'.note fun g hg => h₀.regionOk hΓ₀ hopen' hg⟩
    · rw [if_neg hiface] at harms ⊢
      have hb₁ : Grows b c₁ := grows_evalExpr.trans grows_emit
      have hb₄ : Grows c₁ c₄ := (grows_newBlock.trans grows_newBlock).trans grows_newBlocks
      have hdefault : default' = join' + 1 := rfl
      have harmBlock : armBlock' = join' + 2 := rfl
      have hΓ : ∀ i, join' ≤ i → annotate Γ c₁.numBlocks (fun _ => Inv τ) i = Inv τ := fun i hi =>
        annotate_of_le hi
      have hext : ∀ i < b.numBlocks, annotate Γ c₁.numBlocks (fun _ => Inv τ) i = Γ i := fun i hi =>
        annotate_of_lt (hi.trans_le hb₁.numBlocks)
      have h₁ : Ready start lo τ F _ π c₁ (Inv τ) :=
        ((h.evalExpr hsel).emitQuiet fun _ => quiet_call).above fun _ => Inv τ
      have h₄ : Ready start lo τ F _ (pendArms (insert default' (insert join' π)) armBlock' arms.length) c₄
          (Inv τ) := h₁.newBlock.newBlock.newBlocks
      have hnum : c₄.numBlocks = armBlock' + arms.length := newBlocks_numBlocks
      have hlo : lo ≤ join' := h₁.side.lo_le
      have hb₅ : Grows c₄ c₆ := by
        unfold c₆ c₅
        split
        · exact grows_terminate.trans grows_lowerRttiLadder
        · exact grows_lowerRttiLadder
      obtain ⟨Γ₅, hext₅, h₅⟩ : Rests start lo τ F _ _ c₄ c₆ := by
        by_cases hne : arms = []
        · have hc₆ : c₆ = c₄.terminate (.goto default') := by
            unfold c₆ c₅
            rw [hne]
            rfl
          rw [hc₆]
          exact ⟨_, fun _ _ => rfl, h₄.parkTerminate (targets_goto ⟨by omega, hΓ default' (by omega)⟩)⟩
        · have hc₅ : c₅ = c₄ := if_neg (by simpa using hne)
          unfold c₆
          rw [hc₅]
          exact lowerRttiLadder_rests arms armBlock' c₄ hne h₄ ⟨by omega, hΓ default' (by omega)⟩ hnum.ge
            fun i _ => hΓ _ (by omega)
      have hΓ₅ : ∀ i, join' ≤ i → i < c₄.numBlocks → Γ₅ i = Inv τ := fun i hle hlt =>
        (hext₅ i hlt).trans (hΓ i hle)
      have hpend : ∀ i ∈ insert default' (insert join' π), i < armBlock' := by
        rintro i (rfl | rfl | hi)
        · omega
        · omega
        · have := h₁.pending_lt hi
          omega
      have hexit₅ : ExitOk lo Γ₅ τ c₆ (scanGuard arms 0 || scanElse els 0) :=
        (hexit.congr h.side hext hb₁).congr h₁.side (fun i hi => hext₅ i (hi.trans_le hb₄.numBlocks))
          (hb₄.trans hb₅)
      obtain ⟨Γ₆, hext₆, h₆⟩ := lowerGuardArms_rests arms sel armBlock' join' c₆ h₅ (by omega)
        (hnum ▸ hb₅.numBlocks) hpend (fun i hle hlt => hΓ₅ i (by omega) (by omega))
        ⟨(by omega : join' < c₄.numBlocks).trans_le hb₅.numBlocks, hΓ₅ join' le_rfl (by omega)⟩
        harms herr.1.2 hexit₅.left
      have hb₆ : Grows c₆ c₇ := (lowerGuardArms_grows ..).trans grows_switchTo
      have hΓ₆ : ∀ i, join' ≤ i → i < c₄.numBlocks → Γ₆ i = Inv τ := fun i hle hlt =>
        (hext₆ i (hlt.trans_le hb₅.numBlocks)).trans (hΓ₅ i hle hlt)
      have hext' : ∀ i < c₁.numBlocks, Γ₆ i = annotate Γ c₁.numBlocks (fun _ => Inv τ) i := fun i hi =>
        (hext₆ i ((hi.trans_le hb₄.numBlocks).trans_le hb₅.numBlocks)).trans
          (hext₅ i (hi.trans_le hb₄.numBlocks))
      have h₆' : Ready start lo τ F Γ₆ (insert join' π) c₇ (Inv τ) :=
        (h₆.resume (Set.mem_insert ..) (by omega) (hΓ₆ default' (by omega) (by omega))).filled
          h₁.newBlock.numBlocks_notMem
      obtain ⟨Γ₇, hext₇, h₇⟩ := lowerElse_rests els "nm2_raise_guard" join' c₇ h₆'
        ⟨h₆'.pending_lt (Set.mem_insert ..), hΓ₆ join' le_rfl (by omega)⟩ hels herr.2
        ((hexit.right.congr h.side hext hb₁).congr h₁.side hext' ((hb₄.trans hb₅).trans hb₆))
      have hΓ₇ : Γ₇ join' = Inv τ :=
        (hext₇ join' (h₆'.pending_lt (Set.mem_insert ..))).trans (hΓ₆ join' le_rfl (by omega))
      have hle := ((hb₄.trans hb₅).trans hb₆).numBlocks
      refine ⟨Γ₇, fun i hi => ?_, (h₇.resume (Set.mem_insert ..) hlo hΓ₇).filled h₁.numBlocks_notMem⟩
      have hi₁ := hi.trans_le hb₁.numBlocks
      exact (hext₇ i (hi₁.trans_le hle)).trans ((hext' i hi₁).trans (hext i hi))
theorem lowerArms_lowers : ∀ (arms : List (Action × List Stmt)) (hasElse : Bool) (join : Nat)
    (b : FuncLower) {start : Nat × Nat} {lo : Nat} {τ : List ValueId} {F : List String}
    {Γ : Nat → State → Prop} {π : Set Nat},
    Ready start lo τ F Γ (pendIf (!arms.isEmpty || hasElse) join π) b (Inv τ) → join ∉ π → lo ≤ join →
    join < b.numBlocks → Γ join = Inv τ → AvoidsArms arms F → errorsArms arms = [] →
    ExitOk lo Γ τ b (scanArms arms 0) →
    ∃ Γ', (∀ i < b.numBlocks, Γ' i = Γ i) ∧
      Ready start lo τ F Γ' (pendIf hasElse join π) (lowerArms arms hasElse join b) (Inv τ)
  | [], hasElse, join, b, start, lo, τ, F, Γ, π, h, _, _, _, _, _, _, _ => ⟨Γ, fun _ _ => rfl, h⟩
  | (c, body) :: rest, hasElse, join, b, start, lo, τ, F, Γ, π, h, hjoin, hlo, hlt, hΓ, hav, herr, hexit => by
    unfold lowerArms
    extract_lets more falseBlock b₁
    obtain ⟨hc, hbody, hrest⟩ := hav
    rw [errorsArms, List.append_eq_nil_iff] at herr
    obtain ⟨Γ₁, hext₁, h₁⟩ := arm_lowers more h hjoin hlo hΓ hc (lowerStmts_grows body)
      fun Γ' π' hΓ' h' => lowerStmts_lowers body _ h' hbody herr.1
        (hexit.left.congr h.side hΓ' grows_beginArm)
    have hb₁ : Grows b b₁ := (grows_beginArm.trans (lowerStmts_grows body _)).trans grows_endArm
    obtain ⟨Γ₂, hext₂, h₂⟩ := lowerArms_lowers rest hasElse join b₁ h₁ hjoin hlo (hlt.trans_le hb₁.numBlocks)
      ((hext₁ join hlt).trans hΓ) hrest herr.2 (hexit.right.congr h.side hext₁ hb₁)
    exact ⟨Γ₂, fun i hi => (hext₂ i (hi.trans_le hb₁.numBlocks)).trans (hext₁ i hi), h₂⟩
theorem lowerCaseArms_rests : ∀ (arms : List (List CaseLabel × List Stmt)) (ab join : Nat)
    (b : FuncLower) {start : Nat × Nat} {lo : Nat} {τ : List ValueId} {F : List String}
    {Γ : Nat → State → Prop} {π : Set Nat},
    Rest start lo τ F Γ (pendArms π ab arms.length) b → lo ≤ ab → ab + arms.length ≤ b.numBlocks →
    (∀ i ∈ π, i < ab) → (∀ i, ab ≤ i → i < ab + arms.length → Γ i = Inv τ) →
    (join < b.numBlocks ∧ Γ join = Inv τ) → AvoidsCase arms F → errorsCase arms = [] →
    ExitOk lo Γ τ b (scanCase arms 0) → Rests start lo τ F Γ π b (lowerCaseArms arms ab join b)
  | [], _, _, b, _, _, _, _, Γ, _, h, _, _, _, _, _, _, _, _ => ⟨Γ, fun _ _ => rfl, h.noArms⟩
  | (labels, body) :: rest, ab, join, b, start, lo, τ, F, Γ, π, h, hlo, hab, hπ, hΓ, hjoin, hav, herr, hexit => by
    unfold lowerCaseArms
    rw [errorsCase, List.append_eq_nil_iff] at herr
    rw [List.length_cons] at h hab hΓ
    have hmem : ab ∈ pendArms π ab (rest.length + 1) := .inr ⟨le_rfl, by omega⟩
    have h₁ := h.resume hmem hlo (hΓ ab le_rfl (by omega))
    have hg₁ : Grows b (b.switchTo ab) := grows_switchTo
    obtain ⟨Γ₂, hext₂, h₂⟩ := lowerStmts_lowers body _ h₁ hav.1 herr.1
      (hexit.left.congr h.side (fun _ _ => rfl) hg₁)
    have hg₂ : Grows b (lowerStmts body (b.switchTo ab)) := hg₁.trans (lowerStmts_grows ..)
    have hg₃ : Grows b ((lowerStmts body (b.switchTo ab)).terminate (.goto join)) := hg₂.trans grows_terminate
    have h₃ := (h₂.parkTerminate (targets_goto ⟨hjoin.1.trans_le hg₂.numBlocks,
      (hext₂ join hjoin.1).trans hjoin.2⟩)).pend (pendArms_step fun hi => absurd (hπ ab hi) (lt_irrefl _))
    have hle := hg₃.numBlocks
    have hext₂ : ∀ i < b.numBlocks, Γ₂ i = Γ i := hext₂
    exact .of_ext hext₂ hle (lowerCaseArms_rests rest (ab + 1) join _ h₃ (by omega) (by omega)
      (fun i hi => (hπ i hi).trans (Nat.lt_succ_self _))
      (fun i hi hlt => (hext₂ i (by omega)).trans (hΓ i (by omega) (by omega)))
      ⟨hjoin.1.trans_le hle, (hext₂ join hjoin.1).trans hjoin.2⟩ hav.2 herr.2
      (hexit.right.congr h.side hext₂ hg₃))
/-- An arm of a GUARD over an interface begins with the slot of its query, and ends without it. -/
theorem lowerIfaceArms_rests : ∀ (arms : List (ArmHead × List Stmt)) (slots : List ValueId) (ab join : Nat)
    (b : FuncLower) {selTy : Option (Option ClassSymbol)} {start : Nat × Nat} {lo : Nat} {τ : List ValueId}
    {F : List String} {Γ : Nat → State → Prop} {π : Set Nat},
    Rest start lo τ F Γ (pendArms π ab arms.length) b → slots.length = arms.length →
    (∀ slot ∈ slots, Unbound τ b slot) →
    (∀ i slot, slots[i]? = some slot → Γ (ab + i) = Inv (slot :: τ)) → lo ≤ ab →
    ab + arms.length ≤ b.numBlocks → (∀ i ∈ π, i < ab) → (join < b.numBlocks ∧ Γ join = Inv τ) →
    AvoidsIface arms F → errorsGuard selTy arms = [] → selIsIface selTy = true →
    Rests start lo τ F Γ π b (lowerIfaceArms arms slots ab join b)
  | [], _, _, _, b, _, _, _, _, _, Γ, _, h, _, _, _, _, _, _, _, _, _, _ => by
    unfold lowerIfaceArms
    exact ⟨Γ, fun _ _ => rfl, h.noArms⟩
  | _ :: _, [], _, _, _, _, _, _, _, _, _, _, _, hlen, _, _, _, _, _, _, _, _, _ => nomatch hlen
  | (head, body) :: rest, slot :: slots, ab, join, b, selTy, start, lo, τ, F, Γ, π, h, hlen, hunbound, hslots,
      hlo, hab, hπ, hjoin, hav, herr, hsel => by
    unfold lowerIfaceArms
    extract_lets saved b₁ b₂ b₃ b₄ b₅
    rw [errorsGuard, List.append_eq_nil_iff, List.append_eq_nil_iff] at herr
    obtain ⟨-, -, -, hscan⟩ := armErrors_eq_nil herr.1.1
    rw [List.length_cons] at h hab
    have hab' : ab < b.numBlocks := by omega
    have h₁ : Ready start lo τ F Γ (pendArms π ab (rest.length + 1) \ {ab}) b₁ (Inv (slot :: τ)) :=
      h.resume (.inr ⟨le_rfl, by omega⟩) hlo (hslots 0 slot rfl)
    have h₂ := h₁.bindDenoter ((hunbound slot (List.mem_cons_self ..)).grows grows_switchTo) head.denoter
    have hb₂ : b₂.numBlocks = b.numBlocks := by
      unfold b₂
      cases head.denoter <;> rfl
    obtain ⟨Γ₃, hext₃, h₃⟩ := lowerStmts_lowers body b₂ h₂ hav.1 herr.1.2 (.inl (hscan hsel))
    have hext : ∀ i < b.numBlocks, Γ₃ i = Γ i := fun i hi => hext₃ i (hb₂.symm ▸ hi)
    have hb₃ : Grows b₂ b₃ := lowerStmts_grows body b₂
    have hb₄ : Grows b₃ b₄ := by
      unfold b₄
      split
      · exact .refl b₃
      · exact grows_releaseSlot.trans grows_terminate
    have h₄ : Rest start lo (slot :: τ) (head.denoter.toList ++ F) Γ₃
        (pendArms π ab (rest.length + 1) \ {ab}) b₄ := by
      unfold b₄
      split
      · next hterm => exact h₃.park (.inl hterm)
      · have hle : b.numBlocks ≤ (b₃.releaseSlot slot).numBlocks :=
          hb₂ ▸ (hb₃.trans grows_releaseSlot).numBlocks
        exact h₃.releaseSlot.parkTerminate
          (targets_goto ⟨hjoin.1.trans_le hle, (hext join hjoin.1).trans hjoin.2⟩)
    have hb₅ : Grows b₁ b₅ := grows_denoter (hb₃.trans hb₄)
    have h₅ : Rest start lo τ F Γ₃ (pendArms π (ab + 1) rest.length) b₅ :=
      (h₄.restore h₁.side hb₅).pend (pendArms_step fun hi => absurd (hπ ab hi) (lt_irrefl _))
    have hgrows : Grows b b₅ := grows_switchTo.trans hb₅
    have hle := hgrows.numBlocks
    refine .of_ext hext hle (lowerIfaceArms_rests rest slots (ab + 1) join b₅ h₅ (Nat.succ.inj hlen)
      (fun slot' hslot => (hunbound slot' (List.mem_cons_of_mem _ hslot)).grows hgrows) (fun i slot' hi => ?_)
      (by omega) (by omega) (fun i hi => (hπ i hi).trans (Nat.lt_succ_self _))
      ⟨hjoin.1.trans_le hle, (hext join hjoin.1).trans hjoin.2⟩ hav.2 herr.2 hsel)
    have hlt : i < rest.length := Nat.succ.inj hlen ▸ (List.getElem?_eq_some_iff.1 hi).1
    rw [hext _ (by omega), Nat.add_right_comm]
    exact hslots (i + 1) slot' hi
theorem lowerGuardArms_rests : ∀ (arms : List (ArmHead × List Stmt)) (sel : ValueId) (ab join : Nat)
    (b : FuncLower) {selTy : Option (Option ClassSymbol)} {start : Nat × Nat} {lo : Nat} {τ : List ValueId}
    {F : List String} {Γ : Nat → State → Prop} {π : Set Nat},
    Rest start lo τ F Γ (pendArms π ab arms.length) b → lo ≤ ab → ab + arms.length ≤ b.numBlocks →
    (∀ i ∈ π, i < ab) → (∀ i, ab ≤ i → i < ab + arms.length → Γ i = Inv τ) →
    (join < b.numBlocks ∧ Γ join = Inv τ) → AvoidsGuard arms F → errorsGuard selTy arms = [] →
    ExitOk lo Γ τ b (scanGuard arms 0) → Rests start lo τ F Γ π b (lowerGuardArms arms sel ab join b)
  | [], _, _, _, b, _, _, _, _, _, Γ, _, h, _, _, _, _, _, _, _, _ => ⟨Γ, fun _ _ => rfl, h.noArms⟩
  | (head, body) :: rest, sel, ab, join, b, selTy, start, lo, τ, F, Γ, π, h, hlo, hab, hπ, hΓ, hjoin, hav, herr,
      hexit => by
    unfold lowerGuardArms
    extract_lets saved b₁ slot b₂ b₃ b₄
    rw [errorsGuard, List.append_eq_nil_iff, List.append_eq_nil_iff] at herr
    rw [List.length_cons] at h hab hΓ
    have hab' : ab < b.numBlocks := by omega
    have h₁ : Ready start lo τ F Γ (pendArms π ab (rest.length + 1) \ {ab}) b₁ (Inv τ) :=
      h.resume (.inr ⟨le_rfl, by omega⟩) hlo (hΓ ab le_rfl (by omega))
    have h₂ := h₁.bindView (v := sel) head.denoter
    have hb₂ : Grows b b₂ := grows_switchTo.trans grows_bindView
    obtain ⟨Γ₃, hext₃, h₃⟩ := lowerStmts_lowers body b₂ h₂ hav.1 herr.1.2
      (hexit.left.congr h.side (fun _ _ => rfl) hb₂)
    have hext : ∀ i < b.numBlocks, Γ₃ i = Γ i := fun i hi => hext₃ i (hi.trans_le hb₂.numBlocks)
    have hbody : Grows b₂ (lowerStmts body b₂) := lowerStmts_grows body b₂
    have h₃ : Rest start lo τ _ Γ₃ _ b₃ := h₃.parkTerminate (targets_goto
      ⟨hjoin.1.trans_le (hb₂.trans hbody).numBlocks, (hext join hjoin.1).trans hjoin.2⟩)
    have hb₄ : Grows b₁ b₄ := grows_view (hbody.trans grows_terminate)
    have h₄ : Rest start lo τ F Γ₃ (pendArms π (ab + 1) rest.length) b₄ :=
      (h₃.restore h₁.side hb₄).pend (pendArms_step fun hi => absurd (hπ ab hi) (lt_irrefl _))
    have hgrows : Grows b b₄ := grows_switchTo.trans hb₄
    have hle := hgrows.numBlocks
    exact .of_ext hext hle (lowerGuardArms_rests rest sel (ab + 1) join b₄ h₄ (by omega) (by omega)
      (fun i hi => (hπ i hi).trans (Nat.lt_succ_self _))
      (fun i hi hlt => (hext i (by omega)).trans (hΓ i (by omega) (by omega)))
      ⟨hjoin.1.trans_le hle, (hext join hjoin.1).trans hjoin.2⟩ hav.2 herr.2
      (hexit.right.congr h.side hext hgrows))
theorem lowerElse_rests : ∀ (els : Option (List Stmt)) (raise : String) (join : Nat) (b : FuncLower)
    {start : Nat × Nat} {lo : Nat} {τ : List ValueId} {F : List String} {Γ : Nat → State → Prop}
    {π : Set Nat}, Ready start lo τ F Γ π b (Inv τ) → (join < b.numBlocks ∧ Γ join = Inv τ) →
    AvoidsElse els F → errorsElse els = [] → ExitOk lo Γ τ b (scanElse els 0) →
    Rests start lo τ F Γ π b (lowerElse els raise join b)
  | some ss, _, join, b, start, lo, τ, F, Γ, π, h, hjoin, hav, herr, hexit => by
    unfold lowerElse
    obtain ⟨Γ₁, hext₁, h₁⟩ := lowerStmts_lowers ss b h hav herr hexit
    have hb₁ : Grows b (lowerStmts ss b) := lowerStmts_grows ss b
    exact ⟨Γ₁, hext₁, h₁.parkTerminate (targets_goto
      ⟨hjoin.1.trans_le hb₁.numBlocks, (hext₁ join hjoin.1).trans hjoin.2⟩)⟩
  | none, _, _, b, _, _, _, _, Γ, _, h, _, _, _, _ => ⟨Γ, fun _ _ => rfl, h.parkNoreturn⟩
theorem lowerStmts_lowers : ∀ (ss : List Stmt) (b : FuncLower) {start : Nat × Nat} {lo : Nat}
    {τ : List ValueId} {F : List String} {Γ : Nat → State → Prop} {π : Set Nat},
    Ready start lo τ F Γ π b (Inv τ) → AvoidsStmts ss F → errors ss = [] →
    ExitOk lo Γ τ b (scan ss 0) → Lowers start lo τ F Γ π b (lowerStmts ss b)
  | [], b, _, _, _, _, _, _, h, _, _, _ => h.lowers
  | s :: ss, b, start, lo, τ, F, Γ, π, h, hav, herr, hexit => by
    unfold lowerStmts
    rw [errors, List.append_eq_nil_iff] at herr
    split
    · exact h.lowers
    · next hopen =>
      obtain ⟨Γ₁, hext₁, h₁⟩ := lowerStmt_lowers s b h (Bool.eq_false_iff.2 hopen) hav.1 herr.1 hexit.left
      have hb₁ : Grows b (lowerStmt s b) := lowerStmt_grows s b
      exact .of_ext hext₁ hb₁.numBlocks
        (lowerStmts_lowers ss _ h₁ hav.2 herr.2 (hexit.right.congr h.side hext₁ hb₁))
end

/-! ## Functions -/

section functions
variable {start : Nat × Nat} {lo : Nat} {τ : List ValueId} {F : List String} {Γ : Nat → State → Prop}
  {π : Set Nat} {b : FuncLower} {P : State → Prop} {mode : MemoryMode} {names : List String}

theorem exitOk_of_nil {p : Bool} (h : b.loopStack = []) : ExitOk lo Γ τ b p := by
  refine .inr fun frame hf => ?_
  rw [FuncLower.currentLoop, h] at hf
  cases hf

theorem Ready.setRetry {target : Option BlockId} (h : Ready start lo τ F Γ π b P)
    (ht : ∀ t, target = some t → t < lo) : Ready start lo τ F Γ π { b with retryTarget := target } P :=
  ⟨h.ann, ⟨h.side.lt, h.side.locals_lt, h.side.bound, ht, h.side.frame, h.side.lo_le⟩, h.noted⟩

/-- What holds when the lowering of a function begins. -/
structure Begins (b : FuncLower) : Prop where
  ready : Ready (FuncLower.entryBlock, 0) 2 [] [] (fun _ => Inv []) ∅ b (Inv [])
  isOpen : b.isTerminated = false
  loopStack : b.loopStack = []

theorem begins_new : Begins (.new mode names) := by
  unfold FuncLower.new
  generalize hb : FuncLower.mk _ _ _ _ _ _ _ = b
  have h : Begins b := by
    subst hb
    let entry : Builder Inst Terminator := ⟨fun _ => .new, 2, FuncLower.entryBlock⟩
    have hann : Annotated Exec Terminator.succs entry.pos entry.numBlocks (fun _ => Inv []) ∅ entry (Inv []) :=
      .init entry (by decide : 0 < 2) (Inv []) _ (fun _ hs => hs) rfl
    refine ⟨⟨hann, ?_, fun _ hr => nomatch hr⟩, rfl, rfl⟩
    exact ⟨fun _ hslot => (nomatch hslot), fun _ _ hx => (nomatch hx), fun _ _ _ hslot => (nomatch hslot),
      fun _ ht => (nomatch ht), fun _ hf => (nomatch hf), le_rfl⟩
  clear hb
  induction names generalizing b with
  | nil => exact h
  | cons x names ih =>
    refine ih _ ⟨(h.ready.emitQuiet fun _ => quiet_alloca).bindFresh h.ready.side grows_emit
      ⟨le_rfl, Nat.lt_succ_self _⟩, ?_, h.loopStack⟩
    exact (Builder.isTerminated_push _ _).trans h.isOpen

theorem avoidsStmts_append {ss ts : List Stmt} : AvoidsStmts (ss ++ ts) F → AvoidsStmts ss F ∧ AvoidsStmts ts F := by
  induction ss with
  | nil => exact fun h => ⟨trivial, h⟩
  | cons s ss ih => exact fun h => ⟨⟨h.1, (ih h.2).1⟩, (ih h.2).2⟩

theorem lowerHandlers_lowers : ∀ (arms : List (List Stmt)) (b : FuncLower) {Γ : Nat → State → Prop},
    Ready start lo τ F Γ π b (Inv τ) → b.loopStack = [] → AvoidsStmts arms.flatten F →
    errorsExcept arms = [] → Lowers start lo τ F Γ π b (lowerHandlers arms b)
  | [], _, _, h, _, _, _ => h.lowers
  | arm :: arms, b, Γ, h, hloop, hav, herr => by
    unfold lowerHandlers
    rw [errorsExcept, List.append_eq_nil_iff] at herr
    obtain ⟨harm, harms⟩ := avoidsStmts_append (show AvoidsStmts (arm ++ arms.flatten) F by simpa using hav)
    split
    · exact h.lowers
    · obtain ⟨Γ₁, hext₁, h₁⟩ := lowerStmts_lowers arm b h harm herr.1 (exitOk_of_nil hloop)
      have hb₁ : Grows b (lowerStmts arm b) := lowerStmts_grows arm b
      exact .of_ext hext₁ hb₁.numBlocks
        (lowerHandlers_lowers arms _ h₁ (hb₁.loopStack.trans hloop) harms herr.2)

theorem lowerHandlers_grows : ∀ (arms : List (List Stmt)) (b : FuncLower), Grows b (lowerHandlers arms b)
  | [], b => .refl b
  | arm :: arms, b => by
    unfold lowerHandlers
    split
    · exact .refl b
    · exact (lowerStmts_grows arm b).trans (lowerHandlers_grows arms _)

theorem lowerFinally_lowers {fin : Option (List Stmt)} (h : Ready start lo τ F Γ π b (Inv τ))
    (hloop : b.loopStack = []) (hav : AvoidsElse fin F) (herr : errorsElse fin = []) :
    Lowers start lo τ F Γ π b (lowerFinally fin b) := by
  cases fin with
  | none => exact h.lowers
  | some ss => exact lowerStmts_lowers ss b h hav herr (exitOk_of_nil hloop)

theorem noted_lowerProtectedWrapper {except : List (List Stmt)} {fin : Option (List Stmt)}
    (hb : Begins b) (hav : (Source.wrapper except fin).KeepsDenoters)
    (herr : (Source.wrapper except fin).errors = []) : Noted (lowerProtectedWrapper except fin b) := by
  rw [Source.errors, List.append_eq_nil_iff] at herr
  unfold lowerProtectedWrapper
  extract_lets header b₁ b₂ raised b₃ isNormal b₄ handler b₅ join b₆ b₇ b₈' b₈ b₉ b₁₀ normal b₁₁ reraise b₁₂ b₁₃
  -- the block to which RETRY leads is the first one of a piece
  have h₁ := hb.ready.newBlock.parkTerminate (t := .goto header) (targets_goto ⟨Nat.lt_succ_self _, rfl⟩)
  have hmem : header ∈ insert b.numBlocks (∅ : Set Nat) := .inl rfl
  have h₂ := (h₁.resume hmem hb.ready.side.lo_le rfl).atStart
    (h₁.isTerminated_switchTo hmem hb.ready.side.lo_le)
  have hb₂ : b₂.numBlocks = header + 1 := Builder.terminate_numBlocks _ _
  rw [show (b₁.terminate (.goto header)).switchTo header = b₂ from rfl, hb₂] at h₂
  have h₄ : Ready b₂.pos (header + 1) [] [] (fun _ => Inv []) ∅ b₄ (Inv []) :=
    (h₂.emitQuiet fun _ => quiet_call).emitQuiet fun _ => quiet_compute
  have hloop₄ : b₄.loopStack = [] := hb.loopStack
  split
  · have hfinally : ∀ {Γ : Nat → State → Prop} (b : FuncLower),
        Ready b₂.pos (header + 1) [] [] Γ ∅ b (Inv []) → b.loopStack = [] →
        Noted ((lowerFinally fin b).terminate .ret) := by
      intro Γ b h hloop
      obtain ⟨Γ', -, h'⟩ := lowerFinally_lowers h hloop hav.2 herr.2
      exact (h'.terminate (t := .ret) (Q := Inv []) fun _ hj => nomatch hj).noted
    have hhandler : handler < join := Nat.lt_succ_self _
    have hjoin : join < b₆.numBlocks := Nat.lt_succ_self _
    have hlo : header + 1 ≤ handler := h₄.side.lo_le
    have h₇ : Ready b₂.pos (header + 1) [] [] (fun _ => Inv []) {join} b₇ (Inv []) := by
      refine (h₄.newBlock.newBlock.leave (targets_condBr ⟨hjoin, rfl⟩ ⟨hhandler.trans hjoin, rfl⟩)
        (.inr (.inl rfl)) hlo rfl).pend fun i => ?_
      simp only [Set.mem_sdiff, Set.mem_insert_iff, Set.mem_singleton_iff, Set.mem_empty_iff_false, or_false]
      have hne : b₄.newBlock.numBlocks ≠ handler := hhandler.ne'
      exact ⟨fun ⟨hi, hne⟩ => hi.resolve_right hne, fun hi => ⟨.inl hi, fun heq => hne (hi.symm.trans heq)⟩⟩
    obtain ⟨Γ₈, hext₈, h₈⟩ := lowerHandlers_lowers except { b₇ with retryTarget := some header }
      (h₇.setRetry fun target ht => Option.some.inj ht ▸ Nat.lt_succ_self header) hloop₄ hav.1 herr.1
    have hb₇ : b₇.numBlocks = b₆.numBlocks := Builder.terminate_numBlocks _ _
    have hb₈ : Grows { b₇ with retryTarget := some header } (lowerHandlers except _) := lowerHandlers_grows ..
    have hjoin₇ : join < b₇.numBlocks := hb₇ ▸ hjoin
    have hΓ₈ : Γ₈ join = Inv [] := hext₈ join hjoin₇
    have h₈ : Ready b₂.pos (header + 1) [] [] Γ₈ {join} b₈ (Inv []) := h₈.setRetry h₇.side.retry
    have hloop₈ : b₈.loopStack = [] := hb₈.loopStack.trans hloop₄
    have h₉ : Rest b₂.pos (header + 1) [] [] Γ₈ {join} b₉ ∧ b₉.loopStack = [] := by
      unfold b₉
      split
      · next hterm => exact ⟨h₈.park (.inl hterm), hloop₈⟩
      · have hcall := h₈.emitQuiet (f := (.call "nm2_exception_handled" · [])) fun _ => quiet_call
        exact ⟨hcall.parkTerminate (targets_goto ⟨(hjoin₇.trans_le hb₈.numBlocks).trans_le
          (grows_emit (b := b₈)).numBlocks, hΓ₈⟩), hloop₈⟩
    refine hfinally _ ((h₉.1.resume (Set.mem_singleton _) (hlo.trans hhandler.le) hΓ₈).pend fun i => ?_) h₉.2
    simp
  · obtain ⟨Γ₁₀, hext₁₀, h₁₀⟩ := lowerFinally_lowers h₄ hloop₄ hav.2 herr.2
    have h₁₀ : Ready b₂.pos (header + 1) [] [] Γ₁₀ ∅ b₁₀ (Inv []) := h₁₀
    split
    · exact h₁₀.noted
    · have h₁₁ := (h₁₀.above fun _ => Inv []).newBlock.newBlock
      have hnormal : normal < reraise := Nat.lt_succ_self _
      have hreraise : reraise < b₁₂.numBlocks := Nat.lt_succ_self _
      have hlo : header + 1 ≤ normal := h₁₀.side.lo_le
      have hΓ : ∀ i, normal ≤ i → annotate Γ₁₀ normal (fun _ => Inv []) i = Inv [] := fun i hi =>
        annotate_of_le hi
      have h₁₃ := h₁₁.leave (t := .condBr isNormal normal reraise) (targets_condBr
        ⟨hnormal.trans hreraise, hΓ _ le_rfl⟩ ⟨hreraise, hΓ _ hnormal.le⟩) (.inl rfl) (hlo.trans hnormal.le)
        (hΓ _ hnormal.le)
      have h₁₄ := h₁₃.parkNoreturn (g := "nm2_reraise")
      have h₁₅ := h₁₄.resume (k := normal) ⟨.inr (.inl rfl), hnormal.ne⟩ hlo (hΓ _ le_rfl)
      exact (h₁₅.terminate (t := .ret) (Q := Inv []) fun _ hj => nomatch hj).noted

/-- In every function, on every path through a GUARD over an interface that sema accepts, from its start to
its end. -/
theorem guard_balanced (mode : MemoryMode) (names : List String) (src : Source) (returnsValue : Bool)
    (herr : src.errors = []) (hav : src.KeepsDenoters) :
    ∀ r ∈ (lowerSource mode names src).guards,
      RegionOk ((lowerSource mode names src).finish returnsValue) r := by
  intro r hr
  have hnoted : Noted (lowerSource mode names src) := by
    cases src with
    | body s =>
      have hb : Begins (.new mode names) := begins_new
      obtain ⟨Γ, hext, h⟩ := lowerStmt_lowers s _ hb.ready hb.isOpen hav herr (exitOk_of_nil hb.loopStack)
      exact (h.terminate (Q := Inv []) fun j hj hlo => absurd hlo (by
        rw [List.mem_singleton.1 hj]
        decide)).noted
    | wrapper except fin => exact noted_lowerProtectedWrapper begins_new hav herr
  refine hnoted r hr _ fun i _ => ⟨?_, fun hterm => ?_⟩
  · unfold FuncLower.finish
    dsimp only
    split <;> exact List.prefix_refl _
  · unfold FuncLower.finish
    rw [if_neg (by simp [Option.isSome_iff_ne_none.1 hterm])]

end functions

/-! A GUARD with one arm and an ELSE part. -/

def oneArm : Source :=
  .body (.guard ⟨0, []⟩ (some (some ⟨true, some "IUnknown"⟩)) [(⟨none, some ⟨true, some "IFoo"⟩, true⟩, [])]
    (some []))

def oneArmTest : List Inst :=
  [.eval 0 0 [], .globalRef 1, .alloca 2, .const 3 0, .store 2 3, .queryInterface 4 0 1 2,
    .const 5 0x80000000, .binary 6 .bitAnd 4 5, .const 7 0, .binary 8 .eq 6 7, .load 9 2, .const 10 0,
    .binary 11 .ne 9 10, .binary 12 .bitAnd 8 11]

/-- Its graph: the test, the ELSE part, the arm, and the block behind the failed test. -/
structure IsOneArm (g : BlockId → Block Inst Terminator) : Prop where
  test : (g 0).insts = oneArmTest ∧ (g 0).term = some (.condBr 12 4 5)
  else_ : (g 3).insts = [] ∧ (g 3).term = some (.goto 2)
  arm : (g 4).insts = [.load 15 2, .release 16 15] ∧ (g 4).term = some (.goto 2)
  failed : (g 5).insts = [.load 13 2, .release 14 13] ∧ (g 5).term = some (.goto 3)

theorem isOneArm : IsOneArm ((lowerSource .gc [] oneArm).finish false) :=
  ⟨by decide +kernel, by decide +kernel, by decide +kernel, by decide +kernel⟩

def oneArmRegion : Region := ⟨(0, 0), (2, 0), 2, 6⟩

theorem mem_guards_oneArm : oneArmRegion ∈ (lowerSource .gc [] oneArm).guards := by
  have hguards : (lowerSource .gc [] oneArm).guards = [oneArmRegion] := by decide +kernel
  rw [hguards]
  exact List.mem_singleton_self _

theorem keepsDenoters_oneArm : oneArm.KeepsDenoters :=
  ⟨fun _ hx => (nomatch hx), ⟨trivial, trivial⟩, trivial⟩

/-- Before the GUARD. -/
def oneArmStart : State := ⟨fun _ => 0, fun _ => 0, []⟩

section oneArm
variable {g : BlockId → Block Inst Terminator}

theorem oneArm_block {r p : Word} {s : State} {k j : BlockId} {is : List Inst} {t : Terminator}
    (hk : k ≠ 2) (hblock : (g k).insts = is ∧ (g k).term = some t)
    (hreturns : is.all (!·.isNoreturn) = true) (hj : j ∈ t.succs ∧ 2 ≤ j ∧ j < 6) :
    Relation.ReflTransGen (StepIn Exec Terminator.succs g oneArmRegion) ⟨k, 0, s⟩
      ⟨j, 0, runAll r p is s⟩ := by
  refine steps_block hk ?_ hblock.2 hj.1 hj.2.1 hj.2.2
  rw [hblock.1]
  exact execs_runAll hreturns

/-- Through the arm, whatever the query returned. -/
theorem IsOneArm.taken (h : IsOneArm g) (hr p : Word) : Path Exec Terminator.succs g oneArmRegion oneArmStart
    (runAll hr p [.load 15 2, .release 16 15] (runAll hr p oneArmTest oneArmStart)) :=
  (oneArm_block (by decide) h.test (by decide) (by decide)).trans
    (oneArm_block (by decide) h.arm (by decide) (by decide))

/-- Past the arm, to the ELSE part. -/
theorem IsOneArm.skipped (h : IsOneArm g) (hr p : Word) : Path Exec Terminator.succs g oneArmRegion oneArmStart
    (runAll hr p [.load 13 2, .release 14 13] (runAll hr p oneArmTest oneArmStart)) :=
  ((oneArm_block (by decide) h.test (by decide) (by decide)).trans
    (oneArm_block (by decide) h.failed (by decide) (by decide))).trans
      (oneArm_block (r := hr) (p := p) (by decide) h.else_ (by decide) (by decide))

end oneArm

/-- A query that succeeds, and its arm. -/
theorem guard_balanced_oneArm : ∃ s s', s.trace = [] ∧
    Path Exec Terminator.succs ((lowerSource .gc [] oneArm).finish false) oneArmRegion s s' ∧
    s'.trace = [.queryInterface 0 0x1000, .release 0x1000] ∧ Balanced s'.trace :=
  ⟨_, _, rfl, isOneArm.taken 0 0x1000, rfl, guard_balanced .gc [] oneArm false rfl keepsDenoters_oneArm
    oneArmRegion mem_guards_oneArm _ _ rfl (isOneArm.taken 0 0x1000)⟩

/-- A query that fails stores NIL, and behind it the NIL is released. -/
theorem release_of_failed_query : ¬ ∀ (mode : MemoryMode) (names : List String) (src : Source)
    (returnsValue : Bool), src.errors = [] → src.KeepsDenoters →
    ∀ r ∈ (lowerSource mode names src).guards, ∀ s s', s.trace = [] →
      Path Exec Terminator.succs ((lowerSource mode names src).finish returnsValue) r s s' →
      (released s'.trace).Perm (acquired s'.trace) := by
  intro h
  have hperm := h .gc [] oneArm false rfl keepsDenoters_oneArm oneArmRegion mem_guards_oneArm _ _ rfl
    (isOneArm.skipped 0x80004002 0)
  exact absurd hperm.length_eq (by decide)

end NewM2.Com
