import NewM2.Com.Ready

/-! # Lowering step by step

What a statement must be like (`Avoids`: the denoters are not reassigned; `ExitOk`: where EXIT leads) and
what its lowering then does (`Lowers`), for the parts of statements: tests, labels, the two ladders of GUARD
and the arms of IF. -/

namespace NewM2.Com
open FlowGraph FuncLower
open Cfg (CaseLabel LoopFrame)

/-! ## The denoters are not reassigned -/

def Action.Avoids (a : Action) (F : List String) : Prop := ∀ x ∈ a.writes, x ∉ F

mutual
/-- The statement does not store into the names of `F`, nor an arm of a GUARD over an interface into its
denoter. Inside an arm of a GUARD over a class the denoter is another variable. -/
def Stmt.Avoids : Stmt → List String → Prop
  | .empty, _ | .exit, _ | .retry, _ | .return_ none, _ | .raise none, _ => True
  | .simple a, F | .halt a, F | .return_ (some a), F | .raise (some a), F => a.Avoids F
  | .if_ c body elsifs els, F =>
    c.Avoids F ∧ AvoidsStmts body F ∧ AvoidsArms elsifs F ∧ AvoidsElse els F
  | .case_ e arms els, F => e.Avoids F ∧ AvoidsCase arms F ∧ AvoidsElse els F
  | .while_ c body, F | .repeat_ body c, F | .with_ c body, F => c.Avoids F ∧ AvoidsStmts body F
  | .for_ var start stop by_ body, F =>
    var ∉ F ∧ start.Avoids F ∧ stop.Avoids F ∧ (∀ e ∈ by_, e.Avoids F) ∧ AvoidsStmts body F
  | .loop body, F => AvoidsStmts body F
  | .guard selector _ arms els, F =>
    selector.Avoids F ∧ (if armsAreInterface arms then AvoidsIface arms F else AvoidsGuard arms F) ∧
      AvoidsElse els F
  | .block ss _ fin, F => AvoidsStmts ss F ∧ AvoidsElse fin F
def AvoidsArms : List (Action × List Stmt) → List String → Prop
  | [], _ => True
  | (c, body) :: rest, F => c.Avoids F ∧ AvoidsStmts body F ∧ AvoidsArms rest F
def AvoidsCase : List (List CaseLabel × List Stmt) → List String → Prop
  | [], _ => True
  | (_, body) :: rest, F => AvoidsStmts body F ∧ AvoidsCase rest F
def AvoidsIface : List (ArmHead × List Stmt) → List String → Prop
  | [], _ => True
  | (head, body) :: rest, F => AvoidsStmts body (head.denoter.toList ++ F) ∧ AvoidsIface rest F
def AvoidsGuard : List (ArmHead × List Stmt) → List String → Prop
  | [], _ => True
  | (head, body) :: rest, F => AvoidsStmts body (F.filter (some · ≠ head.denoter)) ∧ AvoidsGuard rest F
def AvoidsElse : Option (List Stmt) → List String → Prop
  | none, _ => True
  | some ss, F => AvoidsStmts ss F
def AvoidsStmts : List Stmt → List String → Prop
  | [], _ => True
  | s :: ss, F => s.Avoids F ∧ AvoidsStmts ss F
end

def Source.KeepsDenoters : Source → Prop
  | .body s => s.Avoids []
  | .wrapper except fin => AvoidsStmts except.flatten [] ∧ AvoidsElse fin []

/-! ## Where EXIT leads -/

variable {start : Nat × Nat} {lo : Nat} {τ : List ValueId} {F : List String} {Γ Γ' : Nat → State → Prop}
  {π : Set Nat} {b b' b'' : FuncLower}

/-- Behind the loop that EXIT leaves the slots are as here. -/
def FrameOk (lo : Nat) (Γ : Nat → State → Prop) (τ : List ValueId) (b : FuncLower) : Prop :=
  ∀ frame, b.currentLoop = some frame → lo ≤ frame.exitBlock → Γ frame.exitBlock = Inv τ

/-- There is no EXIT from here, or it leads to where the slots are as here. -/
def ExitOk (lo : Nat) (Γ : Nat → State → Prop) (τ : List ValueId) (b : FuncLower) (found : Bool) : Prop :=
  found = false ∨ FrameOk lo Γ τ b

theorem ExitOk.left {p q : Bool} (h : ExitOk lo Γ τ b (p || q)) : ExitOk lo Γ τ b p :=
  h.imp_left fun heq => (Bool.or_eq_false_iff.1 heq).1

theorem ExitOk.right {p q : Bool} (h : ExitOk lo Γ τ b (p || q)) : ExitOk lo Γ τ b q :=
  h.imp_left fun heq => (Bool.or_eq_false_iff.1 heq).2

theorem ExitOk.congr {p : Bool} (h : ExitOk lo Γ τ b p) (hside : Side lo τ F b)
    (hΓ : ∀ i < b.numBlocks, Γ' i = Γ i) (hg : Grows b b') : ExitOk lo Γ' τ b' p := by
  refine h.imp_right fun hframe frame hf hlo => ?_
  unfold FuncLower.currentLoop at hf
  rw [hg.loopStack] at hf
  rw [hΓ _ (hside.frame frame hf)]
  exact hframe frame hf hlo

/-! ## What the lowering of a statement does -/

/-- The new blocks can be annotated such that the slots are again as before. -/
def Lowers (start : Nat × Nat) (lo : Nat) (τ : List ValueId) (F : List String)
    (Γ : Nat → State → Prop) (π : Set Nat) (b b' : FuncLower) : Prop :=
  ∃ Γ', (∀ i < b.numBlocks, Γ' i = Γ i) ∧ Ready start lo τ F Γ' π b' (Inv τ)

/-- As `Lowers`, with no block active at the end. -/
def Rests (start : Nat × Nat) (lo : Nat) (τ : List ValueId) (F : List String)
    (Γ : Nat → State → Prop) (π : Set Nat) (b b' : FuncLower) : Prop :=
  ∃ Γ', (∀ i < b.numBlocks, Γ' i = Γ i) ∧ Rest start lo τ F Γ' π b'

theorem Ready.lowers (h : Ready start lo τ F Γ π b' (Inv τ)) : Lowers start lo τ F Γ π b b' :=
  ⟨Γ, fun _ _ => rfl, h⟩

theorem Lowers.of_ext (hΓ : ∀ i < b.numBlocks, Γ' i = Γ i) (hle : b.numBlocks ≤ b'.numBlocks)
    (h : Lowers start lo τ F Γ' π b' b'') : Lowers start lo τ F Γ π b b'' := by
  obtain ⟨Γ'', hext, hready⟩ := h
  exact ⟨Γ'', fun i hi => (hext i (hi.trans_le hle)).trans (hΓ i hi), hready⟩

theorem Rests.of_ext (hΓ : ∀ i < b.numBlocks, Γ' i = Γ i) (hle : b.numBlocks ≤ b'.numBlocks)
    (h : Rests start lo τ F Γ' π b' b'') : Rests start lo τ F Γ π b b'' := by
  obtain ⟨Γ'', hext, hrest⟩ := h
  exact ⟨Γ'', fun i hi => (hext i (hi.trans_le hle)).trans (hΓ i hi), hrest⟩

/-- The blocks of a statement that lead from one of its parts to another have the slots as at its start. -/
theorem Ready.fresh (h : Ready start lo τ F Γ π b (Inv τ)) : ∃ Γ₀, (∀ i < b.numBlocks, Γ₀ i = Γ i) ∧
    (∀ i, b.numBlocks ≤ i → Γ₀ i = Inv τ) ∧ Ready start lo τ F Γ₀ π b (Inv τ) :=
  ⟨_, fun _ hi => annotate_of_lt hi, fun _ hi => annotate_of_le hi, h.above fun _ => Inv τ⟩

/-! ## Notes -/

/-- A piece of its own begins at the active position. -/
theorem Ready.atStart {P : State → Prop} (h : Ready start lo τ F Γ π b P) (hopen : b.isTerminated = false) :
    Ready b.pos b.numBlocks [] F (fun _ => Inv []) ∅ b (Inv []) where
  ann := .init b.toBuilder h.ann.current_lt (Inv []) _ (fun _ hs => hs) hopen
  side := ⟨fun _ hslot => (nomatch hslot), h.side.locals_lt, fun _ _ _ hslot => (nomatch hslot),
    fun target ht => (h.side.retry target ht).trans_le h.side.lo_le, h.side.frame, le_rfl⟩
  noted := h.noted

theorem Ready.regionOk {g : BlockId → Block Inst Terminator} (h : Ready start lo [] F Γ ∅ b (Inv []))
    (hΓ : Γ start.1 = Inv []) (hopen : b.isTerminated = false) (hg : Completes g b.toBuilder) :
    RegionOk g ⟨start, b.pos, lo, b.numBlocks⟩ := by
  intro s s' hs hpath
  refine .of_brackets (h.ann.path hg hopen ?_ hpath)
  rw [hΓ, Inv, hs]
  rfl

theorem Ready.note {r : Region} {P : State → Prop} (h : Ready start lo τ F Γ π b P)
    (hr : ∀ g, Completes g b.toBuilder → RegionOk g r) :
    Ready start lo τ F Γ π { b with guards := b.guards ++ [r] } P := by
  refine ⟨h.ann, h.side.grows (.guards (.refl b)), fun r' hr' g hg => ?_⟩
  rcases List.mem_append.1 hr' with hr' | hr'
  · exact h.noted r' hr' g hg
  · exact List.mem_singleton.1 hr' ▸ hr g hg

/-! ## The ladder -/

/-- The new slot holds what the query stored. -/
theorem Ready.emitComQi {sel : ValueId} (h : Ready start lo τ F Γ π b (Inv τ)) :
    Ready start lo τ F Γ π (b.emitComQi sel).2.2 (Inv ((b.emitComQi sel).2.1 :: τ)) := by
  unfold FuncLower.emitComQi
  extract_lets iidPtr b₁ ppvSlot b₂ nil b₃ b₄ hr b₅ mask b₆ masked b₇ zeroVal b₈ succeeded b₉ ppv b₁₀ nil2
    b₁₁ notnil b₁₂ matched b₁₃
  have hslot : ppvSlot ∉ τ := fun hmem => absurd (h.side.lt _ hmem) (Nat.le_succ _).not_gt
  have h₁ : Ready start lo τ F Γ π b₁ (Inv τ) := h.emitQuiet fun _ => quiet_globalRef
  have h₂ : Ready start lo τ F Γ π b₂ (Inv τ) := h₁.emitQuiet fun _ => quiet_alloca
  have h₃ : Ready start lo τ F Γ π b₃ (Inv τ) := h₂.emitQuiet fun _ => quiet_const
  have h₄ : Ready start lo τ F Γ π b₄ (Inv τ) := h₃.quiet (quiet_store hslot)
  have h₅ : Ready start lo τ F Γ π b₅ (Inv (ppvSlot :: τ)) :=
    h₄.emit fun _ _ hs hexec => hs.queryInterface hslot hexec
  have h₇ : Ready start lo τ F Γ π b₇ (Inv (ppvSlot :: τ)) :=
    (h₅.emitQuiet fun _ => quiet_const).emitQuiet fun _ => quiet_binary
  have h₉ : Ready start lo τ F Γ π b₉ (Inv (ppvSlot :: τ)) :=
    (h₇.emitQuiet fun _ => quiet_const).emitQuiet fun _ => quiet_binary
  have h₁₁ : Ready start lo τ F Γ π b₁₁ (Inv (ppvSlot :: τ)) :=
    (h₉.emitQuiet fun _ => quiet_load).emitQuiet fun _ => quiet_const
  have h₁₃ : Ready start lo τ F Γ π b₁₃ (Inv (ppvSlot :: τ)) :=
    (h₁₁.emitQuiet fun _ => quiet_binary).emitQuiet fun _ => quiet_binary
  exact h₁₃

theorem Ready.releaseSlot {slot : ValueId} {τ' : List ValueId}
    (h : Ready start lo τ F Γ π b (Inv (slot :: τ'))) :
    Ready start lo τ F Γ π (b.releaseSlot slot) (Inv τ') := by
  have hload := h.emit (f := (.load · slot))
    (Q := fun s => Inv (slot :: τ') s ∧ s.regs b.nextReg = s.mem slot) fun s s' hs hexec => by
      refine ⟨hs.quiet quiet_load hexec, ?_⟩
      cases hexec
      exact Function.update_self ..
  exact hload.emit (f := (.release · b.nextReg)) fun s s' hs hexec => hs.1.release hs.2 hexec

theorem Ready.testArm {sel : ValueId} {head : ArmHead} (h : Ready start lo τ F Γ π b (Inv τ))
    (hcls : head.guardedType.isSome) :
    Ready start lo τ F Γ π (b.testArm sel head).2.2 (Inv ((b.testArm sel head).2.1 :: τ)) := by
  obtain ⟨cls, hcls⟩ := Option.isSome_iff_exists.1 hcls
  unfold FuncLower.testArm
  rw [hcls]
  exact h.emitComQi

theorem testArm_slot {sel : ValueId} {head : ArmHead} :
    b.nextReg ≤ (b.testArm sel head).2.1 ∧ (b.testArm sel head).2.1 < (b.testArm sel head).2.2.nextReg := by
  unfold FuncLower.testArm
  split
  · exact ⟨Nat.le_succ _, Nat.lt_add_of_pos_right (show 0 < 11 by decide)⟩
  · exact ⟨Nat.le_succ _, Nat.lt_add_of_pos_right (show 0 < 2 by decide)⟩

/-- Both branches of a test that leads to `x` or to the new block behind the active one. -/
theorem Ready.branchNew {c x : Nat} {A : Nat → State → Prop} {P : State → Prop}
    (h : Ready start lo τ F Γ π b P) (hx : x < b.numBlocks) (hΓx : Γ x = P) (hA : A b.numBlocks = P) :
    Ready start lo τ F (annotate Γ b.numBlocks A) π
      ((b.newBlock.terminate (.condBr c x b.numBlocks)).switchTo b.numBlocks) P := by
  have hnew := (h.above A).newBlock
  have hlo : lo ≤ b.numBlocks := h.side.lo_le
  have hΓn : annotate Γ b.numBlocks A b.numBlocks = P := (annotate_of_le le_rfl).trans hA
  have htargets : ∀ j ∈ (Terminator.condBr c x b.numBlocks).succs, lo ≤ j →
      j < b.newBlock.numBlocks ∧ annotate Γ b.numBlocks A j = P := targets_condBr
    ⟨Nat.lt_succ_of_lt hx, (annotate_of_lt hx).trans hΓx⟩ ⟨Nat.lt_succ_self _, hΓn⟩
  exact (hnew.leave htargets (Set.mem_insert ..) hlo hΓn).filled h.numBlocks_notMem

theorem slots_lowerLadder {sel default : Nat} {arms : List (ArmHead × List Stmt)} :
    ∀ {ab : BlockId} {b : FuncLower}, (lowerLadder sel default arms ab b).1.length = arms.length ∧
      ∀ slot ∈ (lowerLadder sel default arms ab b).1,
        b.nextReg ≤ slot ∧ slot < (lowerLadder sel default arms ab b).2.nextReg := by
  induction arms with
  | nil => exact ⟨rfl, fun _ h => nomatch h⟩
  | cons arm arms ih =>
    intro ab b
    unfold lowerLadder
    extract_lets test b₁ after b₂ noMatch b₃ b₄ b₅ ladder
    have hslot : b.nextReg ≤ test.2.1 ∧ test.2.1 < b₁.nextReg := testArm_slot
    have h₂ : Grows b₁ b₂ := by
      unfold b₂
      split
      · exact .refl b₁
      · exact grows_newBlock
    have h₅ : Grows b₁ b₅ := (h₂.trans ((grows_newBlock.trans grows_terminate).trans grows_switchTo)).trans
      ((grows_releaseSlot.trans grows_terminate).trans grows_switchTo)
    have hladder : Grows b₅ ladder.2 := grows_lowerLadder
    obtain ⟨hlen, hmem⟩ := @ih (ab + 1) b₅
    refine ⟨congrArg Nat.succ hlen, fun slot hs => ?_⟩
    rcases List.mem_cons.1 hs with rfl | hs
    · exact ⟨hslot.1, hslot.2.trans_le (h₅.trans hladder).nextReg⟩
    · obtain ⟨hle, hlt⟩ := hmem slot hs
      exact ⟨(hslot.1.trans hslot.2.le).trans (h₅.nextReg.trans hle), hlt⟩

/-- A failed test releases what it stored; a test that succeeds leads to its arm with the slot to be
released. -/
theorem lowerLadder_rests (sel default : Nat) : ∀ (arms : List (ArmHead × List Stmt)) (ab : Nat)
    (b : FuncLower) {Γ : Nat → State → Prop} {π : Set Nat}, arms ≠ [] →
    Ready start lo τ F Γ π b (Inv τ) → (∀ arm ∈ arms, arm.1.guardedType.isSome) →
    (default < b.numBlocks ∧ Γ default = Inv τ) → ab + arms.length ≤ b.numBlocks →
    (∀ i slot, (lowerLadder sel default arms ab b).1[i]? = some slot → Γ (ab + i) = Inv (slot :: τ)) →
    Rests start lo τ F Γ π b (lowerLadder sel default arms ab b).2
  | [], _, _, _, _, hne, _, _, _, _, _ => absurd rfl hne
  | (head, body) :: rest, ab, b, Γ, π, _, h, hcls, hdefault, hab, hslots => by
    unfold lowerLadder
    extract_lets test b₁ after b₂ noMatch b₃ b₄ b₅ ladder
    have hslots : ∀ i slot, (test.2.1 :: ladder.1)[i]? = some slot → Γ (ab + i) = Inv (slot :: τ) := hslots
    have htest : Ready start lo τ F Γ π b₁ (Inv (test.2.1 :: τ)) := h.testArm (hcls _ (List.mem_cons_self ..))
    have hb₁ : b.numBlocks ≤ b₁.numBlocks := grows_testArm.numBlocks
    have hΓab : Γ ab = Inv (test.2.1 :: τ) := hslots 0 _ rfl
    rw [List.length_cons] at hab
    have hablt : ab < b₁.numBlocks :=
      (Nat.lt_of_lt_of_le (Nat.lt_add_of_pos_right (Nat.succ_pos _)) hab).trans_le hb₁
    by_cases hrest : rest = []
    · subst hrest
      have h₄ := htest.branchNew (c := test.1) (A := fun _ => Inv (test.2.1 :: τ)) hablt hΓab rfl
      refine ⟨annotate Γ b₁.numBlocks fun _ => Inv (test.2.1 :: τ),
        fun i hi => annotate_of_lt (hi.trans_le hb₁), ?_⟩
      have hlt : default < b₁.numBlocks := hdefault.1.trans_le hb₁
      have hb₄ : Grows b₁ b₄ := (grows_newBlock.trans grows_terminate).trans grows_switchTo
      have hrelease : Ready start lo τ F _ π (b₄.releaseSlot test.2.1) (Inv τ) := h₄.releaseSlot
      have h₅ := hrelease.parkTerminate (targets_goto
        ⟨hlt.trans_le (hb₄.trans grows_releaseSlot).numBlocks, (annotate_of_lt hlt).trans hdefault.2⟩)
      exact h₅.switchTo
    · obtain ⟨arm, rest, rfl⟩ := List.exists_cons_of_ne_nil hrest
      let A : Nat → State → Prop := fun i => if i = b₁.numBlocks then Inv τ else Inv (test.2.1 :: τ)
      have h₂ : Ready start lo τ F (annotate Γ b₁.numBlocks A) (insert b₁.numBlocks π) b₂
          (Inv (test.2.1 :: τ)) := (htest.above A).newBlock
      have h₄ := h₂.branchNew (c := test.1) (A := fun _ => Inv (test.2.1 :: τ))
        (hablt.trans (Nat.lt_succ_self _)) ((annotate_of_lt hablt).trans hΓab) rfl
      have hb₂ : Grows b₁ b₂ := grows_newBlock
      have hb₄ : Grows b₂ b₄ := (grows_newBlock.trans grows_terminate).trans grows_switchTo
      have hrelease : Ready start lo τ F _ _ (b₄.releaseSlot test.2.1) (Inv τ) := h₄.releaseSlot
      have hafter : after < b₂.numBlocks := Nat.lt_succ_self _
      have hΓafter : annotate (annotate Γ b₁.numBlocks A) b₂.numBlocks
          (fun _ => Inv (test.2.1 :: τ)) after = Inv τ :=
        (annotate_of_lt hafter).trans ((annotate_of_le le_rfl).trans (if_pos rfl))
      have h₅ : Ready start lo τ F _ π b₅ (Inv τ) :=
        (hrelease.leave (targets_goto ⟨hafter.trans_le (hb₄.trans grows_releaseSlot).numBlocks, hΓafter⟩)
          (Set.mem_insert ..) htest.side.lo_le hΓafter).filled htest.numBlocks_notMem
      have hb₅ : Grows b b₅ := (grows_testArm.trans hb₂).trans (hb₄.trans
        ((grows_releaseSlot.trans grows_terminate).trans grows_switchTo))
      have hext : ∀ i < b.numBlocks, annotate (annotate Γ b₁.numBlocks A) b₂.numBlocks
          (fun _ => Inv (test.2.1 :: τ)) i = Γ i := fun i hi =>
        (annotate_of_lt (hi.trans_le (hb₁.trans hb₂.numBlocks))).trans (annotate_of_lt (hi.trans_le hb₁))
      refine .of_ext hext hb₅.numBlocks (lowerLadder_rests sel default (arm :: rest) (ab + 1) b₅ (List.cons_ne_nil _ _) h₅
        (fun arm' harm => hcls arm' (List.mem_cons_of_mem _ harm)) ⟨?_, ?_⟩ ?_ fun i slot hi => ?_)
      · exact hdefault.1.trans_le hb₅.numBlocks
      · exact (hext default hdefault.1).trans hdefault.2
      · have := hb₅.numBlocks
        rw [List.length_cons] at hab ⊢
        omega
      · have hlt : ab + 1 + i < b.numBlocks := by
          have hlen := (List.getElem?_eq_some_iff.1 hi).1
          rw [slots_lowerLadder.1] at hlen
          rw [List.length_cons] at hab hlen
          omega
        rw [hext _ hlt, Nat.add_right_comm]
        exact hslots (i + 1) slot hi

/-- The ladder of a GUARD over a class, or the jump that is there without arms. -/
theorem lowerRttiLadder_rests {candTi default : Nat} : ∀ (arms : List (ArmHead × List Stmt)) (ab : Nat)
    (b : FuncLower) {Γ : Nat → State → Prop} {π : Set Nat}, arms ≠ [] →
    Ready start lo τ F Γ π b (Inv τ) → (default < b.numBlocks ∧ Γ default = Inv τ) →
    ab + arms.length ≤ b.numBlocks → (∀ i < arms.length, Γ (ab + i) = Inv τ) →
    Rests start lo τ F Γ π b (lowerRttiLadder candTi default arms ab b)
  | [], _, _, _, _, hne, _, _, _, _ => absurd rfl hne
  | _ :: rest, ab, b, Γ, π, _, h, hdefault, hab, hslots => by
    unfold lowerRttiLadder
    extract_lets targetTi b₁ matched b₂ next b₃ b₄
    have h₂ : Ready start lo τ F Γ π b₂ (Inv τ) :=
      (h.emitQuiet fun _ => quiet_globalRef).emitQuiet fun _ => quiet_call
    have hb₂ : Grows b b₂ := grows_emit.trans grows_emit
    rw [List.length_cons] at hab hslots
    have hΓab : Γ ab = Inv τ := hslots 0 (Nat.succ_pos _)
    have hablt : ab < b₂.numBlocks :=
      (Nat.lt_of_lt_of_le (Nat.lt_add_of_pos_right (Nat.succ_pos _)) hab).trans_le hb₂.numBlocks
    by_cases hrest : rest = []
    · subst hrest
      have h₃ : Rest start lo τ F Γ π (b₂.terminate (.condBr matched ab default)) := h₂.parkTerminate
        (targets_condBr ⟨hablt, hΓab⟩ ⟨hdefault.1.trans_le hb₂.numBlocks, hdefault.2⟩)
      exact ⟨Γ, fun _ _ => rfl, h₃.switchTo⟩
    · obtain ⟨arm, rest, rfl⟩ := List.exists_cons_of_ne_nil hrest
      have h₄ : Ready start lo τ F (annotate Γ b₂.numBlocks fun _ => Inv τ) π b₄ (Inv τ) :=
        h₂.branchNew hablt hΓab rfl
      have hb₄ : Grows b b₄ := hb₂.trans ((grows_newBlock.trans grows_terminate).trans grows_switchTo)
      have hext : ∀ i < b.numBlocks, annotate Γ b₂.numBlocks (fun _ => Inv τ) i = Γ i := fun i hi =>
        annotate_of_lt (hi.trans_le hb₂.numBlocks)
      have hle := hb₄.numBlocks
      refine .of_ext hext hle (lowerRttiLadder_rests (arm :: rest) (ab + 1) b₄ (List.cons_ne_nil _ _) h₄
        ⟨hdefault.1.trans_le hle, (hext default hdefault.1).trans hdefault.2⟩ ?_ fun i hi => ?_)
      · rw [List.length_cons] at hab ⊢
        omega
      · rw [hext _ (by omega), Nat.add_right_comm]
        exact hslots (i + 1) (Nat.succ_lt_succ hi)

theorem lowerLabels_rests (val : Nat) {default : Nat} : ∀ (labels : List (CaseLabel × Nat))
    (singles : List (Int × Nat)) (b : FuncLower) {Γ : Nat → State → Prop} {π : Set Nat},
    Ready start lo τ F Γ π b (Inv τ) → (default < b.numBlocks ∧ Γ default = Inv τ) →
    (∀ l ∈ labels, l.2 < b.numBlocks ∧ Γ l.2 = Inv τ) →
    (∀ l ∈ singles, l.2 < b.numBlocks ∧ Γ l.2 = Inv τ) →
    Rests start lo τ F Γ π b (lowerLabels val default labels singles b)
  | [], singles, b, Γ, π, h, hdefault, _, hsingles => by
    refine ⟨Γ, fun _ _ => rfl, h.parkTerminate fun j hj _ => ?_⟩
    rcases List.mem_append.1 hj with hj | hj
    · obtain ⟨l, hl, rfl⟩ := List.mem_map.1 hj
      exact hsingles l hl
    · exact List.mem_singleton.1 hj ▸ hdefault
  | (.single n, ab) :: rest, singles, b, Γ, π, h, hdefault, hlabels, hsingles => by
    refine lowerLabels_rests val rest (singles ++ [(n, ab)]) b h hdefault
      (fun l hl => hlabels l (List.mem_cons_of_mem _ hl)) fun l hl => ?_
    rcases List.mem_append.1 hl with hl | hl
    · exact hsingles l hl
    · rw [List.mem_singleton.1 hl]
      exact hlabels (.single n, ab) (List.mem_cons_self ..)
  | (.unfolded _ _, _) :: rest, singles, b, Γ, π, h, hdefault, hlabels, hsingles =>
    lowerLabels_rests val rest singles b h hdefault (fun l hl => hlabels l (List.mem_cons_of_mem _ hl)) hsingles
  | (.range lo' hi', ab) :: rest, singles, b, Γ, π, h, hdefault, hlabels, hsingles => by
    unfold lowerLabels
    extract_lets next b₁ inr b₂
    obtain ⟨hab, hΓab⟩ := hlabels (.range lo' hi', ab) (List.mem_cons_self ..)
    have hext : ∀ i < b.numBlocks, annotate Γ b.numBlocks (fun _ => Inv τ) i = Γ i := fun i hi =>
      annotate_of_lt hi
    have hΓnext : annotate Γ b.numBlocks (fun _ => Inv τ) next = Inv τ := annotate_of_le le_rfl
    have h₂ : Ready start lo τ F (annotate Γ b.numBlocks fun _ => Inv τ) (insert next π) b₂ (Inv τ) :=
      (h.above _).newBlock.emitQuiet fun _ => quiet_compute
    have hb₂ : b.numBlocks + 1 ≤ b₂.numBlocks := (grows_emit (b := b₁)).numBlocks
    have h₃ : Ready start lo τ F _ π ((b₂.terminate (.condBr inr ab next)).switchTo next) (Inv τ) :=
      (h₂.leave (targets_condBr ⟨hab.trans hb₂, (hext ab hab).trans hΓab⟩ ⟨hb₂, hΓnext⟩)
        (Set.mem_insert ..) h.side.lo_le hΓnext).filled h.numBlocks_notMem
    have hb₃ : Grows b ((b₂.terminate (.condBr inr ab next)).switchTo next) :=
      ((grows_newBlock.trans grows_emit).trans grows_terminate).trans grows_switchTo
    have hold : ∀ x, x < b.numBlocks ∧ Γ x = Inv τ → x < _ ∧ annotate Γ b.numBlocks (fun _ => Inv τ) x = Inv τ :=
      fun x hx => ⟨hx.1.trans_le hb₃.numBlocks, (hext x hx.1).trans hx.2⟩
    exact .of_ext hext hb₃.numBlocks (lowerLabels_rests val rest singles _ h₃ (hold _ hdefault)
      (fun l hl => hold _ (hlabels l (List.mem_cons_of_mem _ hl))) fun l hl => hold _ (hsingles l hl))

/-! ## Blocks that wait for arms -/

def pendArms (π : Set Nat) (ab n : Nat) : Set Nat := {i | i ∈ π ∨ ab ≤ i ∧ i < ab + n}

theorem pendArms_step {ab n : Nat} (hab : ab ∉ π) (i : Nat) :
    i ∈ pendArms π ab (n + 1) \ {ab} ↔ i ∈ pendArms π (ab + 1) n := by
  simp only [pendArms, Set.mem_sdiff, Set.mem_ofPred_eq, Set.mem_singleton_iff]
  constructor
  · rintro ⟨hi | hi, hne⟩
    · exact .inl hi
    · exact .inr (by omega)
  · rintro (hi | hi)
    · exact ⟨.inl hi, fun heq => hab (heq ▸ hi)⟩
    · exact ⟨.inr (by omega), by omega⟩

theorem Rest.noArms {ab : Nat} (h : Rest start lo τ F Γ (pendArms π ab 0) b) : Rest start lo τ F Γ π b :=
  h.pend fun i => by simp [pendArms]

theorem mem_labelBlocks {arms : List (List CaseLabel × List Stmt)} :
    ∀ {ab : Nat}, ∀ l ∈ labelBlocks arms ab, ab ≤ l.2 ∧ l.2 < ab + arms.length := by
  induction arms with
  | nil => exact fun _ h => nomatch h
  | cons arm arms ih =>
    intro ab l hl
    rw [List.length_cons]
    rcases List.mem_append.1 hl with hl | hl
    · obtain ⟨lab, -, rfl⟩ := List.mem_map.1 hl
      exact ⟨le_rfl, Nat.lt_add_of_pos_right (Nat.succ_pos _)⟩
    · obtain ⟨hle, hlt⟩ := ih l hl
      exact ⟨Nat.le_of_succ_le hle, hlt.trans_eq (by rw [Nat.add_assoc, Nat.add_comm 1])⟩

/-! ## The arms of an IF -/

/-- `join` waits for the end of the IF if another arm or an ELSE part leads there. -/
def pendIf (more : Bool) (join : Nat) (π : Set Nat) : Set Nat := if more then insert join π else π

/-- One arm of an IF, given what its statements do. -/
theorem arm_lowers {c : Action} (more : Bool) {join : Nat} {body : FuncLower → FuncLower}
    (h : Ready start lo τ F Γ (insert join π) b (Inv τ)) (hjoin : join ∉ π) (hlo : lo ≤ join)
    (hΓ : Γ join = Inv τ) (hc : c.Avoids F) (hgrows : ∀ b, Grows b (body b))
    (hbody : ∀ Γ' π', (∀ i < b.numBlocks, Γ' i = Γ i) →
      Ready start lo τ F Γ' π' (b.beginArm c more join) (Inv τ) →
      Lowers start lo τ F Γ' π' (b.beginArm c more join) (body (b.beginArm c more join))) :
    ∃ Γ', (∀ i < b.numBlocks, Γ' i = Γ i) ∧ Ready start lo τ F Γ' (pendIf more join π)
      ((body (b.beginArm c more join)).endArm join (b.falseBlock more join)) (Inv τ) := by
  have hjlt : join < b.numBlocks := h.pending_lt (Set.mem_insert ..)
  have hext : ∀ i < b.numBlocks, annotate Γ b.numBlocks (fun _ => Inv τ) i = Γ i := fun i hi =>
    annotate_of_lt hi
  have hΓnew : ∀ i, b.numBlocks ≤ i → annotate Γ b.numBlocks (fun _ => Inv τ) i = Inv τ := fun i hi =>
    annotate_of_le hi
  have hlt : ∀ i ∈ insert join π, i < b.numBlocks := fun i hi => h.pending_lt hi
  have h₁ := (h.above fun _ => Inv τ).newBlock
  have hgrow : Grows b (b.beginArm c more join) := grows_beginArm
  cases more with
  | true =>
    have hn : (b.newBlock.newBlock.evalExpr c).numBlocks = b.numBlocks + 2 := by simp
    have h₂ : Ready start lo τ F _ _ (b.beginArm c true join) (Inv τ) := (h₁.newBlock.evalExpr hc).leave
      (targets_condBr (c := b.nextReg) (y := b.numBlocks + 1) ⟨by omega, hΓnew _ le_rfl⟩
        ⟨by omega, hΓnew _ (Nat.le_succ _)⟩)
      (.inr (Set.mem_insert ..)) h.side.lo_le (hΓnew _ le_rfl)
    obtain ⟨Γ₂, hext₂, h₃⟩ := hbody _ _ hext h₂
    have hfalse : b.numBlocks + 1 < (b.beginArm c true join).numBlocks := by
      change _ < ((b.newBlock.newBlock.evalExpr c).terminate _).numBlocks
      rw [show ((b.newBlock.newBlock.evalExpr c).terminate _).numBlocks =
        (b.newBlock.newBlock.evalExpr c).numBlocks from Builder.terminate_numBlocks _ _, hn]
      exact Nat.lt_succ_self _
    have h₄ := h₃.leave (targets_goto
        ⟨(hjlt.trans_le hgrow.numBlocks).trans_le (hgrows _).numBlocks,
          (hext₂ _ (hjlt.trans_le hgrow.numBlocks)).trans ((hext _ hjlt).trans hΓ)⟩)
      (k := b.numBlocks + 1) (by simp) (h.side.lo_le.trans (Nat.le_succ _))
      ((hext₂ _ hfalse).trans (hΓnew _ (Nat.le_succ _)))
    refine ⟨Γ₂, fun i hi => (hext₂ i (hi.trans_le hgrow.numBlocks)).trans (hext i hi), h₄.pend fun i => ?_⟩
    have hi := hlt i
    simp only [pendIf, if_true, Set.mem_sdiff, Set.mem_insert_iff, Set.mem_singleton_iff,
      newBlock_numBlocks] at hi ⊢
    grind
  | false =>
    have hn : (b.newBlock.evalExpr c).numBlocks = b.numBlocks + 1 := by simp
    have h₂ : Ready start lo τ F _ _ (b.beginArm c false join) (Inv τ) := (h₁.evalExpr hc).leave
      (targets_condBr (c := b.nextReg) (y := join) ⟨by omega, hΓnew _ le_rfl⟩
        ⟨by omega, (hext _ hjlt).trans hΓ⟩)
      (Set.mem_insert ..) h.side.lo_le (hΓnew _ le_rfl)
    obtain ⟨Γ₂, hext₂, h₃⟩ := hbody _ _ hext h₂
    have hΓ₂ : Γ₂ join = Inv τ :=
      (hext₂ _ (hjlt.trans_le hgrow.numBlocks)).trans ((hext _ hjlt).trans hΓ)
    have h₄ := h₃.leave (targets_goto ⟨(hjlt.trans_le hgrow.numBlocks).trans_le (hgrows _).numBlocks, hΓ₂⟩)
      (k := join) (by simpa using hjlt.ne) hlo hΓ₂
    refine ⟨Γ₂, fun i hi => (hext₂ i (hi.trans_le hgrow.numBlocks)).trans (hext i hi), h₄.pend fun i => ?_⟩
    have hi := hlt i
    simp only [pendIf, Bool.false_eq_true, if_false, Set.mem_sdiff, Set.mem_insert_iff,
      Set.mem_singleton_iff] at hi ⊢
    grind

/-! ## Loops -/

/-- Of the four blocks of a FOR the first two are filled when its body is lowered. -/
theorem mem_forBlocks {n : Nat} (hπ : ∀ i ∈ π, i < n) (i : Nat) :
    i ∈ (insert (n + 3) (insert (n + 2) (insert (n + 1) (insert n π))) \ {n}) \ {n + 1} ↔
      i ∈ insert (n + 2) (insert (n + 3) π) := by
  have hi := hπ i
  simp only [Set.mem_sdiff, Set.mem_insert_iff, Set.mem_singleton_iff]
  grind

/-- The body of a loop, given what its statements do with the frame of the loop on the stack. -/
theorem inLoop (frame : LoopFrame) {body : FuncLower → FuncLower} (h : Ready start lo τ F Γ π b (Inv τ))
    (hlt : frame.exitBlock < b.numBlocks) (hΓ : Γ frame.exitBlock = Inv τ)
    (hgrows : ∀ b, Grows b (body b))
    (hbody : Ready start lo τ F Γ π (b.pushLoop frame) (Inv τ) → FrameOk lo Γ τ (b.pushLoop frame) →
      Lowers start lo τ F Γ π (b.pushLoop frame) (body (b.pushLoop frame))) :
    ∃ Γ', (∀ i < b.numBlocks, Γ' i = Γ i) ∧
      Ready start lo τ F Γ' π (body (b.pushLoop frame)).popLoop (Inv τ) := by
  obtain ⟨Γ', hext, h'⟩ := hbody (h.pushLoop hlt) fun frame' hf _ => Option.some.inj hf ▸ hΓ
  exact ⟨Γ', hext, h'.popLoop h.side (hgrows _).loop⟩

/-! ## Arms of a GUARD that sema accepts -/

theorem armErrors_eq_nil {selTy : Option (Option ClassSymbol)} {head : ArmHead} {body : List Stmt}
    (h : armErrors selTy head body = []) : ∃ cls, head.guardedType = some cls ∧
      cls.isInterface = selIsIface selTy ∧ (selIsIface selTy = true → scan body 0 = false) := by
  unfold armErrors at h
  split at h
  · cases h
  · next cls hcls =>
    refine ⟨cls, hcls, ?_⟩
    cases hsel : selIsIface selTy with
    | true =>
      rw [hsel] at h
      cases hi : cls.isInterface with
      | true =>
        rw [hi] at h
        refine ⟨rfl, fun _ => ?_⟩
        by_contra hscan
        have hbody : guardArmNonlocalExit body = true := by simpa [guardArmNonlocalExit] using hscan
        simp [hbody] at h
      | false =>
        rw [hi] at h
        cases h
    | false =>
      rw [hsel] at h
      cases hi : cls.isInterface with
      | true =>
        rw [hi] at h
        cases h
      | false => exact ⟨rfl, nofun⟩

theorem errorsGuard_eq_nil {selTy : Option (Option ClassSymbol)} {arms : List (ArmHead × List Stmt)}
    (h : errorsGuard selTy arms = []) :
    ∀ arm ∈ arms, armErrors selTy arm.1 arm.2 = [] ∧ errors arm.2 = [] := by
  induction arms with
  | nil => exact fun _ h => nomatch h
  | cons arm arms ih =>
    obtain ⟨head, body⟩ := arm
    rw [errorsGuard, List.append_eq_nil_iff, List.append_eq_nil_iff] at h
    intro arm harm
    rcases List.mem_cons.1 harm with rfl | harm
    · exact h.1
    · exact ih h.2 arm harm

/-- Lowering takes the way of interfaces when the selector is one. -/
theorem selIsIface_of_armsAreInterface {selTy : Option (Option ClassSymbol)}
    {arms : List (ArmHead × List Stmt)} (h : errorsGuard selTy arms = [])
    (harms : armsAreInterface arms = true) : selIsIface selTy = true := by
  cases arms with
  | nil => cases harms
  | cons arm arms =>
    obtain ⟨cls, hcls, hi, -⟩ := armErrors_eq_nil (errorsGuard_eq_nil h arm (List.mem_cons_self ..)).1
    rw [← hi]
    change arm.1.guardedType.any ClassSymbol.isInterface = true at harms
    rw [hcls] at harms
    exact harms

end NewM2.Com
