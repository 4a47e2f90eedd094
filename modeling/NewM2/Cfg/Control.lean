import NewM2.Cfg.Simulation

/-! # Structured control flow

`lowerStmt_simulates`: lowered statements do what the statements do, with an EXIT that leaves the nearest
loop of any kind. So the graph of a procedure body behaves as the body does in Modula-2 whenever no EXIT
is executed that has a WHILE, REPEAT or FOR around it before a LOOP (`lowerBody_sameBehaviour`). -/

namespace NewM2.Cfg

open FuncBuilder

section pieces
variable {g : BlockId → BasicBlock} {ω : Oracle} {fuel n : Nat} {b b' : FuncBuilder} {i : Inst}
  {t : Terminator} {next : BlockId × Nat} {exits : Option LoopFrame} {head exit join : BlockId}
  {regs : ValueId → Int} {h : List Event} {N : Nat} {k x : BlockId}

theorem Active.self (hlt : b.current < b.numBlocks) : Active b.numBlocks b.current b :=
  ⟨.inl rfl, hlt, le_rfl⟩

theorem newBlock_blocks_of_lt (hx : x < b.numBlocks) : b.newBlock.blocks x = b.blocks x :=
  Function.update_of_ne hx.ne ..

theorem pos_of_new (hnew : b.blocks b.current = .new) : b.pos = (b.current, 0) := by
  unfold FuncBuilder.pos
  rw [hnew]
  rfl

theorem open_of_new (hnew : b.blocks b.current = .new) : b.isTerminated = false := by
  unfold FuncBuilder.isTerminated
  rw [hnew]
  rfl

/-- The active block is open and execution stands at the position `p`, its end. -/
structure At (b : FuncBuilder) (p : BlockId × Nat) : Prop where
  lt : b.current < b.numBlocks
  opened : b.isTerminated = false
  pos : b.pos = p

/-- New blocks do not touch the active one. -/
theorem At.newBlock {p : BlockId × Nat} (ha : At b p) : At b.newBlock p where
  lt := Nat.lt_succ_of_lt ha.lt
  opened := by
    change decide ((b.newBlock.blocks b.current).term ≠ .unreachable) = _
    rw [newBlock_blocks_of_lt ha.lt]
    exact ha.opened
  pos := by
    change (b.current, (b.newBlock.blocks b.current).insts.length) = _
    rw [newBlock_blocks_of_lt ha.lt]
    exact ha.pos

theorem newBlock_terminate (hlt : b.current < b.numBlocks) :
    b.newBlock.terminate t = (b.terminate t).newBlock := by
  have hopen : b.newBlock.isTerminated = b.isTerminated := by
    change decide ((b.newBlock.blocks b.current).term ≠ .unreachable) = _
    rw [newBlock_blocks_of_lt hlt]
    rfl
  unfold FuncBuilder.terminate
  rw [hopen]
  split
  · rfl
  · unfold FuncBuilder.newBlock
    dsimp only
    rw [Function.update_of_ne hlt.ne, Function.update_comm hlt.ne']

/-! ## Blocks that are given out and not used yet -/

structure Reserved (b : FuncBuilder) (x : BlockId) : Prop where
  new : b.blocks x = .new
  lt : x < b.numBlocks
  ne : x ≠ b.current

theorem Reserved.grows (hr : Reserved b x) (hg : Grows b.numBlocks b.current b b') :
    Reserved b' x where
  new := (hg.keep x hr.lt hr.ne).trans hr.new
  lt := hr.lt.trans_le hg.numBlocks
  ne := by
    rcases hg.active.at_ with h | h
    · exact h ▸ hr.ne
    · exact Nat.ne_of_lt (hr.lt.trans_le h)

theorem Reserved.newBlock (hr : Reserved b x) : Reserved b.newBlock x :=
  ⟨(newBlock_blocks_of_lt hr.lt).trans hr.new, Nat.lt_succ_of_lt hr.lt, hr.ne⟩

theorem Reserved.self (hlt : b.current < b.numBlocks) : Reserved b.newBlock b.numBlocks :=
  ⟨Function.update_self .., Nat.lt_succ_self _, Nat.ne_of_gt hlt⟩

theorem Reserved.switchTo (hr : Reserved b x) (hne : x ≠ k) : Reserved (b.switchTo k) x :=
  ⟨hr.new, hr.lt, hne⟩

theorem Reserved.pushLoop {f : LoopFrame} (hr : Reserved b x) : Reserved (b.pushLoop f) x :=
  ⟨hr.new, hr.lt, hr.ne⟩

theorem Reserved.popLoop (hr : Reserved b x) : Reserved b.popLoop x :=
  ⟨hr.new, hr.lt, hr.ne⟩

/-- Going on in a reserved block. -/
theorem Reserved.enter (hr : Reserved b x) : At (b.switchTo x) (x, 0) where
  lt := hr.lt
  opened := open_of_new (b := b.switchTo x) hr.new
  pos := pos_of_new (b := b.switchTo x) hr.new

theorem Reserved.leave (hr : Reserved b x) (hlt : b.current < b.numBlocks) :
    At ((b.terminate t).switchTo x) (x, 0) :=
  (hr.grows ((Active.self hlt).terminate (t := t))).enter

theorem At.pushLoop {p : BlockId × Nat} {f : LoopFrame} (ha : At b p) : At (b.pushLoop f) p :=
  ⟨ha.lt, ha.opened, ha.pos⟩

theorem Reserved.stay (hr : Reserved b x) (hlt : b.current < b.numBlocks) (hne : x ≠ k) :
    Reserved ((b.terminate t).switchTo k) x :=
  (hr.grows ((Active.self hlt).terminate (t := t))).switchTo hne

/-- The test at the head of a loop, or in front of the advance of a FOR. -/
theorem Turns.testThen {c : Nat} {tBlock : BlockId} {nextTurn : List Event → List Event × Option Outcome}
    (hg : Completes g ((b.evalExpr c).terminate (.condBr b.nextReg tBlock exit)))
    (hlt : b.current < b.numBlocks) (hopen : b.isTerminated = false)
    (hnext : ∀ regs h,
      Turns g ω fuel head (exit, 0) exits (atPos (tBlock, 0) regs h) (nextTurn h)) :
    Turns g ω fuel head (exit, 0) exits (atPos b.pos regs h) (testThen ω c nextTurn h) := by
  have hrun : run g ω 2 (atPos b.pos regs h) = _ := run_branch hg hlt hopen
  unfold Cfg.testThen
  dsimp only
  split
  · next hv =>
    rw [if_pos hv] at hrun
    exact .last (.normal hrun)
  · next hv =>
    rw [if_neg hv] at hrun
    exact (hnext _ _).of_run hrun

theorem At.newBlocks {p : BlockId × Nat} (ha : At b p) : At (newBlocks n b) p := by
  induction n generalizing b with
  | zero => exact ha
  | succ n ih => exact ih ha.newBlock

theorem Reserved.newBlocks (hr : Reserved b x) : Reserved (newBlocks n b) x := by
  induction n generalizing b with
  | zero => exact hr
  | succ n ih => exact ih hr.newBlock

theorem reserved_newBlocks (hlt : b.current < b.numBlocks) {i : Nat} (hi : i < n) :
    Reserved (newBlocks n b) (b.numBlocks + i) := by
  induction n generalizing b i with
  | zero => omega
  | succ n ih =>
    unfold newBlocks
    cases i with
    | zero => exact (Reserved.self hlt).newBlocks
    | succ i =>
      have hr : Reserved (newBlocks n b.newBlock) (b.numBlocks + 1 + i) :=
        ih (Nat.lt_succ_of_lt hlt) (by omega)
      rwa [Nat.add_assoc, Nat.add_comm 1 i] at hr

theorem newBlocks_nextReg : (newBlocks n b).nextReg = b.nextReg := by
  induction n generalizing b with
  | zero => rfl
  | succ n ih => exact ih

/-! ## CASE labels -/

/-- The block of the first arm with a folded label that has the value. -/
def caseTarget : List (List CaseLabel × List Stmt) → Int → Nat → BlockId → BlockId
  | [], _, _, d => d
  | (labels, _) :: rest, v, ab, d =>
    if ∃ lab ∈ labels, lab.folded ∧ lab.Matches v then ab else caseTarget rest v (ab + 1) d

theorem caseTarget_eq {v : Int} {d : BlockId} :
    ∀ (arms : List (List CaseLabel × List Stmt)) (ab : Nat),
    ((labelBlocks arms ab).find? fun l => l.1.folded ∧ l.1.Matches v).elim d Prod.snd = caseTarget arms v ab d
  | [], _ => rfl
  | (labels, body) :: rest, ab => by
    unfold labelBlocks caseTarget
    rw [List.find?_append, ← caseTarget_eq rest (ab + 1), List.find?_map]
    split
    · next hex =>
      obtain ⟨lab, hlab, hm⟩ := hex
      have hsome : (labels.find? fun l => decide (l.folded ∧ l.Matches v)).isSome :=
        List.find?_isSome.2 ⟨lab, hlab, decide_eq_true hm⟩
      obtain ⟨lab', hlab'⟩ := Option.isSome_iff_exists.1 hsome
      change ((Option.map (·, ab) (labels.find? fun l => decide (l.folded ∧ l.Matches v))).or _).elim d Prod.snd = ab
      rw [hlab']
      rfl
    · next hex =>
      have hnone : (labels.find? fun l => decide (l.folded ∧ l.Matches v)) = none :=
        List.find?_eq_none.2 fun l hl hm => hex ⟨l, hl, of_decide_eq_true hm⟩
      change ((Option.map (·, ab) (labels.find? fun l => decide (l.folded ∧ l.Matches v))).or _).elim d Prod.snd = _
      rw [hnone]
      rfl

theorem CaseLabel.overlaps_of_matches {a b : CaseLabel} {v : Int} (ha : a.Matches v)
    (hb : b.Matches v) : a.Overlaps b := by
  unfold CaseLabel.Matches at ha hb
  exact ⟨by omega, by omega⟩

/-- Where the range checks and then the switch lead. -/
def dispatchTarget (labels : List (CaseLabel × BlockId)) (v : Int) (d : BlockId) : BlockId :=
  match (ranges labels).find? fun r => decide (r.1.1 ≤ v ∧ v ≤ r.1.2) with
  | some r => r.2
  | none => ((singles labels).find? (·.1 = v)).elim d Prod.snd

/-- As the labels do not overlap, it does not matter that ranges are tested first. -/
theorem dispatchTarget_eq {v : Int} {d : BlockId} :
    ∀ (labels : List (CaseLabel × BlockId)),
    ((labels.map Prod.fst).filter CaseLabel.folded).Pairwise (¬ CaseLabel.Overlaps · ·) →
    dispatchTarget labels v d = (labels.find? fun l => l.1.folded ∧ l.1.Matches v).elim d Prod.snd
  | [], _ => rfl
  | (.unfolded lo hi, ab) :: rest, hp => by
    have hm : ¬ ((CaseLabel.unfolded lo hi).folded ∧ (CaseLabel.unfolded lo hi).Matches v) := fun h => nomatch h.1
    rw [List.find?_cons, decide_eq_false hm]
    exact dispatchTarget_eq rest hp
  | (.range lo hi, ab) :: rest, hp => by
    have ih := dispatchTarget_eq (v := v) (d := d) rest (List.pairwise_cons.1 hp).2
    unfold dispatchTarget at ih ⊢
    have hranges : ranges ((.range lo hi, ab) :: rest) = ((lo, hi), ab) :: ranges rest := rfl
    have hsingles : singles ((.range lo hi, ab) :: rest) = singles rest := rfl
    rw [hranges, hsingles, List.find?_cons, List.find?_cons]
    by_cases hv : lo ≤ v ∧ v ≤ hi
    · have hm : (CaseLabel.range lo hi).folded ∧ (CaseLabel.range lo hi).Matches v := ⟨rfl, hv⟩
      rw [decide_eq_true hv, decide_eq_true hm]
      rfl
    · have hm : ¬ ((CaseLabel.range lo hi).folded ∧ (CaseLabel.range lo hi).Matches v) := fun h => hv h.2
      rw [decide_eq_false hv, decide_eq_false hm]
      exact ih
  | (.single n, ab) :: rest, hp => by
    have ih := dispatchTarget_eq (v := v) (d := d) rest (List.pairwise_cons.1 hp).2
    have hranges : ranges ((.single n, ab) :: rest) = ranges rest := rfl
    have hsingles : singles ((.single n, ab) :: rest) = (n, ab) :: singles rest := rfl
    by_cases hv : n = v
    · -- no range of the other labels has the value
      have hm : (CaseLabel.single n).Matches v := ⟨Int.le_of_eq hv, Int.le_of_eq hv.symm⟩
      have hm' : (CaseLabel.single n).folded ∧ (CaseLabel.single n).Matches v := ⟨rfl, hm⟩
      have hnone : ((ranges rest).find? fun r => decide (r.1.1 ≤ v ∧ v ≤ r.1.2)) = none := by
        refine List.find?_eq_none.2 fun r hr hin => ?_
        obtain ⟨⟨lab, ab'⟩, hlab, hmap⟩ := List.mem_filterMap.1 hr
        cases lab with
        | single _ | unfolded _ _ => cases hmap
        | range lo hi =>
          cases hmap
          refine (List.pairwise_cons.1 hp).1 _ (List.mem_filter.2 ⟨List.mem_map_of_mem hlab, rfl⟩) ?_
          exact CaseLabel.overlaps_of_matches hm (of_decide_eq_true hin)
      unfold dispatchTarget
      rw [hranges, hsingles, hnone, List.find?_cons, List.find?_cons, decide_eq_true hv,
        decide_eq_true hm']
      rfl
    · have hm : ¬ ((CaseLabel.single n).folded ∧ (CaseLabel.single n).Matches v) := fun h =>
        hv (Int.le_antisymm h.2.1 h.2.2)
      unfold dispatchTarget at ih ⊢
      rw [hranges, hsingles, List.find?_cons, List.find?_cons, decide_eq_false hv,
        decide_eq_false hm]
      exact ih

theorem labelBlocks_fst : ∀ (arms : List (List CaseLabel × List Stmt)) (ab : Nat),
    (labelBlocks arms ab).map Prod.fst = arms.flatMap Prod.fst
  | [], _ => rfl
  | (labels, _) :: rest, ab => by
    unfold labelBlocks
    rw [List.map_append, List.map_map, labelBlocks_fst rest (ab + 1), List.flatMap_cons]
    simp [Function.comp_def]

/-- The check of a range leads to the arm or behind the check. -/
theorem run_range (regs : ValueId → Int) {val : ValueId} {lo hi : Int} {arm : BlockId}
    (hg : Completes g (b.lowerRange val lo hi arm)) (hlt : b.current < b.numBlocks)
    (hopen : b.isTerminated = false) (hval : val < b.nextReg) :
    (b.lowerRange val lo hi arm).blocks b.numBlocks = .new ∧ val < (b.lowerRange val lo hi arm).nextReg ∧
      ∃ regs', regs' val = regs val ∧ run g ω 2 (atPos b.pos regs h) =
        atPos (if lo ≤ regs val ∧ regs val ≤ hi then arm else b.numBlocks, 0) regs' h := by
  have hat : At b.newBlock b.pos := (At.mk hlt hopen rfl).newBlock
  have hlt₁ := hat.lt
  have hopen₁ := hat.opened
  have ha := Active.self hlt₁
  have hpush := ha.push (i := .inRange b.nextReg val lo hi)
  have hterm := hpush.active.freshReg.active.terminate (t := .condBr b.nextReg arm b.numBlocks)
  refine ⟨?_, ?_, Function.update regs b.nextReg (if lo ≤ regs val ∧ regs val ≤ hi then 1 else 0),
    Function.update_of_ne (Nat.ne_of_lt hval) .., ?_⟩
  · exact ((Reserved.self hlt).grows (hpush.trans (hpush.active.freshReg.trans hterm))).new
  · unfold FuncBuilder.lowerRange
    change val < (FuncBuilder.terminate _ _).nextReg
    rw [terminate_nextReg]
    change val < (FuncBuilder.push _ _).nextReg + 1
    rw [push_nextReg]
    exact Nat.lt_succ_of_lt hval
  · have hlt₂ : (b.newBlock.push (.inRange b.nextReg val lo hi)).freshReg.current <
        (b.newBlock.push (.inRange b.nextReg val lo hi)).freshReg.numBlocks := hpush.active.lt
    have hsecond : ∀ regs, step g ω (atPos (b.newBlock.push (.inRange b.nextReg val lo hi)).freshReg.pos
        regs h) = jump ⟨_, _, regs, h⟩ (.condBr b.nextReg arm b.numBlocks) := fun regs =>
      step_terminate hg hlt₂ (isTerminated_push hopen₁) nofun
    have hpos : (b.newBlock.push (.inRange b.nextReg val lo hi)).freshReg.pos =
        (b.newBlock.pos.1, b.newBlock.pos.2 + 1) := pos_push hopen₁
    change step g ω (step g ω (atPos b.pos regs h)) = _
    rw [← hat.pos, step_push (hterm.completes g hg) hlt₁ hopen₁]
    rw [hpos] at hsecond
    refine (hsecond _).trans ?_
    simp only [jump, atPos, Function.update_self]
    split <;> simp

/-- The range checks: execution goes to the first range that has the value, or behind them. -/
theorem run_ranges {val : ValueId} {v : Int} : ∀ (rs : List ((Int × Int) × BlockId)) (b : FuncBuilder)
    (regs : ValueId → Int), Completes g (lowerRanges val rs b) → b.current < b.numBlocks →
    b.isTerminated = false → val < b.nextReg → regs val = v →
    (lowerRanges val rs b).isTerminated = false ∧ ∃ n regs', regs' val = v ∧
      run g ω n (atPos b.pos regs h) =
        atPos (((rs.find? fun r => decide (r.1.1 ≤ v ∧ v ≤ r.1.2)).elim
          (lowerRanges val rs b).pos fun r => (r.2, 0))) regs' h
  | [], b, regs, _, _, hopen, _, hv => ⟨hopen, 0, regs, hv, rfl⟩
  | ((lo, hi), arm) :: rest, b, regs, hg, hlt, hopen, hval, hv => by
    unfold lowerRanges at hg ⊢
    have ha : Active _ _ (b.lowerRange val lo hi arm) := (Active.self hlt).lowerRange.active
    obtain ⟨hnew, hval', regs', hregs', hrun⟩ := run_range regs (h := h)
      (ha.lowerRanges.completes g hg) hlt hopen hval
    have hopen' : (b.lowerRange val lo hi arm).isTerminated = false := open_of_new hnew
    have hpos' : (b.lowerRange val lo hi arm).pos = (b.numBlocks, 0) := pos_of_new hnew
    obtain ⟨hopen'', n, regs'', hv'', hrun'⟩ :=
      run_ranges rest _ regs' hg ha.lt hopen' hval' (hregs'.trans hv)
    refine ⟨hopen'', ?_⟩
    rw [hv] at hrun
    rw [List.find?_cons]
    by_cases hin : lo ≤ v ∧ v ≤ hi
    · rw [if_pos hin] at hrun
      rw [decide_eq_true hin]
      exact ⟨2, regs', hregs'.trans hv, hrun⟩
    · rw [if_neg hin] at hrun
      rw [decide_eq_false hin]
      refine ⟨2 + n, regs'', hv'', ?_⟩
      rw [run_add, hrun, ← hpos']
      exact hrun'

/-- The range checks and the switch lead to the target of the dispatch. -/
theorem run_dispatch {val : ValueId} {labels : List (CaseLabel × BlockId)} {d : BlockId}
    {p : BlockId × Nat} (regs : ValueId → Int) (h : List Event)
    (hg : Completes g ((lowerRanges val (ranges labels) b).terminate (.switch val (singles labels) d)))
    (hat : At b p) (hval : val < b.nextReg) :
    ∃ n regs', run g ω n (atPos p regs h) =
      atPos (dispatchTarget labels (regs val) d, 0) regs' h := by
  have h₁ : Grows b.numBlocks b.current b (lowerRanges val (ranges labels) b) :=
    (Active.self hat.lt).lowerRanges
  obtain ⟨hopen, n, regs', hregs', hrun⟩ := run_ranges (h := h) (ranges labels) b regs
    (h₁.active.terminate.completes g hg) hat.lt hat.opened hval rfl
  rw [hat.pos] at hrun
  unfold dispatchTarget
  split
  · next r hr =>
    rw [hr] at hrun
    exact ⟨n, regs', hrun⟩
  · next hr =>
    rw [hr] at hrun
    have hswitch : step g ω (atPos (lowerRanges val (ranges labels) b).pos regs' h) = _ :=
      step_terminate hg h₁.active.lt hopen nofun
    refine ⟨n + 1, regs', ?_⟩
    rw [run_add, hrun]
    rw [← hregs']
    exact hswitch

end pieces

/-! ## Statements -/

/-- From the active block of `b`, execution does what `sem` says and goes on in that of `b'`. -/
structure Simulates (g : BlockId → BasicBlock) (ω : Oracle) (fuel : Nat) (b b' : FuncBuilder)
    (sem : List Event → List Event × Outcome) : Prop where
  opened : ∀ h, (sem h).2 = .normal → b'.isTerminated = false
  lands : ∀ regs h, Lands g ω fuel b'.pos b.currentLoop (atPos b.pos regs h) (sem h)

section simulation
variable {g : BlockId → BasicBlock} {ω : Oracle} {fuel : Nat} {b b' : FuncBuilder} {x : BlockId}
  {p : BlockId × Nat} {sem : List Event → List Event × Outcome}

theorem Simulates.of_at {p : BlockId × Nat} (hat : At b' p)
    (hlands : ∀ regs h, Lands g ω fuel p b.currentLoop (atPos b.pos regs h) (sem h)) :
    Simulates g ω fuel b b' sem := by
  refine ⟨fun _ _ => hat.opened, fun regs h => ?_⟩
  rw [hat.pos]
  exact hlands regs h

/-- A turn of a loop from the beginning of its body. -/
theorem Simulates.turn {p : BlockId × Nat} {f : LoopFrame} {head : BlockId}
    {exits : Option LoopFrame} {next : List Event → List Event × Option Outcome}
    (hs : Simulates g ω fuel (b.pushLoop f) b' sem) (hat : At b p)
    (hnext : b'.popLoop.isTerminated = false → ∀ regs h,
      Turns g ω fuel head (f.exitBlock, 0) exits (atPos b'.popLoop.pos regs h) (next h)) :
    ∀ regs h, Turns g ω fuel head (f.exitBlock, 0) exits (atPos p regs h)
      (afterBody .normal next (sem h)) := by
  intro regs h
  have hl := hs.lands regs h
  rw [hat.pushLoop.pos] at hl
  exact Turns.afterBody hl fun hn regs => hnext (hs.opened h hn) regs _

/-- Behind the piece execution goes to another block. -/
theorem Simulates.goto (hs : Simulates g ω fuel b b' sem) (hat : At b p)
    (hg : Completes g (b'.terminate (.goto x))) (hlt : b'.current < b'.numBlocks) :
    ∀ regs h, Lands g ω fuel (x, 0) b.currentLoop (atPos p regs h) (sem h) := by
  intro regs h
  have hl := hs.lands regs h
  rw [hat.pos] at hl
  by_cases hn : (sem h).2 = .normal
  · have hopen := hs.opened h hn
    rcases hr : sem h with ⟨h', out⟩
    rw [hr] at hl hn
    subst hn
    exact hl.bind fun regs => .normal (run_goto hg hlt hopen)
  · exact hl.of_not_normal hn

theorem currentLoop_of_grows {N : Nat} {k : BlockId} (hg : Grows N k b b') :
    b'.currentLoop = b.currentLoop := congrArg List.head? hg.loopStack

/-- The end of a loop body. -/
theorem run_safePoint (hg : Completes g
      ((if b.mode = .gc then b.push .gcSafePoint else b).terminate (.goto x)))
    (hlt : b.current < b.numBlocks) (hopen : b.isTerminated = false) {regs : ValueId → Int}
    {h : List Event} : ∃ n, 0 < n ∧ run g ω n (atPos b.pos regs h) = atPos (x, 0) regs h := by
  split at hg
  · have ha := (Active.self hlt).push (i := .gcSafePoint)
    have hopen' : (b.push .gcSafePoint).isTerminated = false := isTerminated_push hopen
    have hgoto : run g ω 1 (atPos (b.push .gcSafePoint).pos regs h) = _ :=
      run_goto hg ha.active.lt hopen'
    rw [pos_push hopen] at hgoto
    refine ⟨2, by omega, ?_⟩
    change run g ω 1 (step g ω (atPos b.pos regs h)) = _
    rw [step_push (ha.active.terminate.completes g hg) hlt hopen]
    exact hgoto
  · exact ⟨1, by omega, run_goto hg hlt hopen⟩

theorem run_simple {a : Nat} (hg : Completes g (b.push (.simple a)))
    (hlt : b.current < b.numBlocks) (hopen : b.isTerminated = false) {regs : ValueId → Int}
    {h : List Event} :
    run g ω 1 (atPos b.pos regs h) = atPos (b.push (.simple a)).pos regs (h ++ [.simple a]) := by
  change step g ω (atPos b.pos regs h) = _
  rw [step_push hg hlt hopen, pos_push hopen]
  rfl

theorem run_ret (hg : Completes g (b.terminate .ret)) (hlt : b.current < b.numBlocks)
    (hopen : b.isTerminated = false) {regs : ValueId → Int} {h : List Event} :
    run g ω 1 (atPos b.pos regs h) = .ended .returned h :=
  step_terminate hg hlt hopen nofun

theorem Simulates.nil (hopen : b.isTerminated = false) :
    Simulates g ω fuel b b fun h => (h, .normal) :=
  ⟨fun _ _ => hopen, fun _ _ => .normal (n := 0) rfl⟩

/-- One piece after another, the second one only if the first one ends normally. -/
theorem Simulates.seq {b'' : FuncBuilder} {sem' : List Event → List Event × Outcome}
    {both : List Event → List Event × Outcome} (hs : Simulates g ω fuel b b' sem)
    (hl : b'.currentLoop = b.currentLoop)
    (hs' : b'.isTerminated = false → Simulates g ω fuel b' b'' sem')
    (hnormal : ∀ h h', sem h = (h', .normal) → both h = sem' h')
    (hout : ∀ h h' out, sem h = (h', out) → out ≠ .normal → both h = (h', out)) :
    Simulates g ω fuel b b'' both := by
  refine ⟨fun h hn => ?_, fun regs h => ?_⟩ <;> rcases hr : sem h with ⟨h', out⟩ <;>
    by_cases hout' : out = .normal
  · subst hout'
    rw [hnormal h h' hr] at hn
    exact (hs' (hs.opened h (by rw [hr]))).opened h' hn
  · rw [hout h h' out hr hout'] at hn
    exact absurd hn hout'
  · subst hout'
    have hl₁ := hs.lands regs h
    rw [hr] at hl₁
    rw [hnormal h h' hr, ← hl]
    rw [← hl] at hl₁
    exact hl₁.bind fun regs => (hs' (hs.opened h (by rw [hr]))).lands regs h'
  · have hl₁ := hs.lands regs h
    rw [hr] at hl₁
    rw [hout h h' out hr hout']
    exact hl₁.of_not_normal hout'

/-! ## What is behind an IF or a CASE -/

/-- The first arm of an IF: the blocks of its statements and of the next arm, and where the lowering
stands when it comes to these. The next arm of the last one is `join` itself if there is no ELSE part. -/
theorem lowerArms_cons {c : Nat} {body : List Stmt} {rest : List (Nat × List Stmt)} {hasElse : Bool}
    {join : BlockId} (hb' : lowerArms ((c, body) :: rest) hasElse join b = b')
    (hat : At b p) (hjoin : Reserved b join) :
    ∃ b₂ t f b₃ b₄, At b₂ p ∧ b₃ = ((b₂.evalExpr c).terminate (.condBr b₂.nextReg t f)).switchTo t ∧
      At b₃ (t, 0) ∧ b₃.currentLoop = b.currentLoop ∧
      b₄ = ((lowerStmts body b₃).terminate (.goto join)).switchTo f ∧ At b₄ (f, 0) ∧
      b₄.currentLoop = b.currentLoop ∧ lowerArms rest hasElse join b₄ = b' ∧ join < b₄.numBlocks ∧
      (rest ≠ [] ∨ hasElse = true → Reserved b₄ join) ∧
      (rest = [] → hasElse = false → f = join) := by
  unfold lowerArms at hb'
  extract_lets thenBlock b₁ more falseBlock b₂ cond b₃ b₄ at hb'
  have at₁ : At b₁ p := hat.newBlock
  have hjt : join < thenBlock := hjoin.lt
  have h₂ : At b₂ p ∧ Grows b₁.numBlocks b₁.current b₁ b₂ ∧ Reserved b₂ falseBlock ∧
      thenBlock ≠ falseBlock ∧ (rest ≠ [] ∨ hasElse = true → falseBlock ≠ join) ∧
      (rest = [] → hasElse = false → falseBlock = join) := by
    unfold b₂ falseBlock
    have hmore : more = true ↔ rest ≠ [] ∨ hasElse = true := by simp [more]
    split
    · next h =>
      refine ⟨at₁.newBlock, (Active.self at₁.lt).newBlock, Reserved.self at₁.lt,
        Nat.ne_of_lt (Nat.lt_succ_self _), fun _ => Nat.ne_of_gt (Nat.lt_succ_of_lt hjt), ?_⟩
      rintro rfl rfl
      exact absurd (hmore.1 h) (by simp)
    · next h =>
      exact ⟨at₁, .refl (Active.self at₁.lt), hjoin.newBlock, Nat.ne_of_gt hjt,
        fun hm => absurd (hmore.2 hm) h, fun _ _ => rfl⟩
  obtain ⟨at₂, hg₂, hfalse, htf, hne, hlast⟩ := h₂
  have hthen : Reserved b₂ thenBlock := (Reserved.self hat.lt).grows hg₂
  have h₃ : Grows b₂.numBlocks b₂.current b₂ b₃ :=
    (Active.self at₂.lt).evalExpr.trans (Active.self at₂.lt).evalExpr.active.terminate
  have at₃ : At (b₃.switchTo thenBlock) (thenBlock, 0) := (hthen.grows h₃).enter
  have h₄ : Grows (b₃.switchTo thenBlock).numBlocks thenBlock (b₃.switchTo thenBlock) b₄ := by
    have hbody := lowerStmts_grows body _ (Active.self at₃.lt)
    exact hbody.trans hbody.active.terminate
  have hfalse₄ : Reserved b₄ falseBlock := ((hfalse.grows h₃).switchTo htf.symm).grows h₄
  have hjoin₄ : Reserved b₄ join :=
    (((hjoin.newBlock.grows hg₂).grows h₃).switchTo (Nat.ne_of_lt hjt)).grows h₄
  have hloop₂ : b₂.currentLoop = b₁.currentLoop := currentLoop_of_grows hg₂
  have hloop₃ : b₃.currentLoop = b.currentLoop := (currentLoop_of_grows h₃).trans hloop₂
  exact ⟨b₂, thenBlock, falseBlock, b₃.switchTo thenBlock, b₄.switchTo falseBlock, at₂, rfl, at₃,
    hloop₃, rfl, hfalse₄.enter, (currentLoop_of_grows h₄).trans hloop₃, hb', hjoin₄.lt,
    fun hm => hjoin₄.switchTo (hne hm).symm, hlast⟩

/-- Behind the arms of an IF `join` is active, or an unused block if the ELSE part is still to come. -/
theorem lowerArms_end {hasElse : Bool} {join : BlockId} : ∀ (arms : List (Nat × List Stmt))
    (b : FuncBuilder) (p : BlockId × Nat), At b p →
    (arms ≠ [] ∨ hasElse = true → Reserved b join) →
    ∃ p', At (lowerArms arms hasElse join b) p' ∧
      (hasElse = true → Reserved (lowerArms arms hasElse join b) join) ∧
      (hasElse = false → p' = if arms = [] then p else (join, 0))
  | [], b, p, hat, hr => ⟨p, hat, fun h => hr (.inr h), fun _ => rfl⟩
  | (c, body) :: rest, b, p, hat, hr => by
    obtain ⟨b₂, t, f, b₃, b₄, -, -, -, -, -, at₄, -, hb', -, hr₄, hlast⟩ :=
      lowerArms_cons rfl hat (hr (.inl nofun))
    obtain ⟨p', hat', hr', hp'⟩ := lowerArms_end rest b₄ (f, 0) at₄ hr₄
    rw [← hb']
    refine ⟨p', hat', hr', fun hels => ?_⟩
    rw [hp' hels, if_neg (List.cons_ne_nil _ rest)]
    split
    · next hrest => rw [hlast hrest hels]
    · rfl

theorem lowerCaseArms_reserved {join : BlockId} : ∀ (arms : List (List CaseLabel × List Stmt))
    (ab : Nat) (b : FuncBuilder), Reserved b x → x < ab → ab + arms.length ≤ b.numBlocks →
    Reserved (lowerCaseArms arms ab join b) x
  | [], _, _, hr, _, _ => hr
  | (_, body) :: rest, ab, b, hr, hlt, harms => by
    rw [List.length_cons] at harms
    unfold lowerCaseArms
    have hab : (b.switchTo ab).current < (b.switchTo ab).numBlocks := by
      change ab < b.numBlocks
      omega
    have h₁ := lowerStmts_grows body _ (Active.self hab)
    have h₂ := h₁.trans (h₁.active.terminate (t := .goto join))
    have hle : b.numBlocks ≤ _ := h₂.numBlocks
    exact lowerCaseArms_reserved rest (ab + 1) _ ((hr.switchTo (Nat.ne_of_lt hlt)).grows h₂)
      (Nat.lt_succ_of_lt hlt) (by omega)

mutual
theorem lowerStmt_simulates : ∀ (s : Stmt) (b b' : FuncBuilder), lowerStmt s b = b' → s.Accepted →
    b.current < b.numBlocks → b.isTerminated = false → Completes g b' →
    Simulates g ω fuel b b' (exec .normal ω fuel s b.currentLoop.isSome)
  | .empty, _, _, rfl, _, _, hopen, _ => .nil hopen
  | .simple a, b, _, rfl, _, hlt, hopen, hg =>
    ⟨fun _ _ => isTerminated_push hopen, fun _ _ => .normal (run_simple hg hlt hopen)⟩
  | .if_ [] none, b, _, rfl, _, hlt, hopen, _ =>
    have at₁ := (At.mk hlt hopen rfl).newBlock
    ⟨fun _ _ => at₁.opened, fun regs h => .normal (n := 0) (congrArg (atPos · regs h) at₁.pos.symm)⟩
  | .if_ (arm :: arms) none, b, _, rfl, hacc, hlt, hopen, hg => by
    have at₁ : At b.newBlock b.pos := (At.mk hlt hopen rfl).newBlock
    have hjoin : Reserved b.newBlock b.numBlocks := Reserved.self hlt
    obtain ⟨p', hat', -, hp'⟩ := lowerArms_end (arm :: arms) b.newBlock b.pos at₁ fun _ => hjoin
    obtain rfl : p' = (b.numBlocks, 0) := hp' rfl
    refine .of_at hat' (lowerArms_simulates (arm :: arms) false b.newBlock _ _ rfl hacc.1 at₁
      (fun _ => hjoin) hg ?_)
    intro p'' hat'' regs h
    obtain rfl := hat'.pos.symm.trans hat''.pos
    exact .normal (n := 0) rfl
  | .if_ arms (some ss), b, _, rfl, hacc, hlt, hopen, hg => by
    have at₁ : At b.newBlock b.pos := (At.mk hlt hopen rfl).newBlock
    have hjoin : Reserved b.newBlock b.numBlocks := Reserved.self hlt
    have h₁ := lowerArms_grows arms true b.numBlocks _ (Active.self hlt).newBlock.active le_rfl hjoin.lt
    obtain ⟨p', hat', hr', -⟩ := lowerArms_end arms b.newBlock b.pos at₁ fun _ => hjoin
    have h₂ := lowerStmts_grows ss _ (Active.self hat'.lt)
    have hg₂ := h₂.active.terminate.completes g hg
    have hs := lowerStmts_simulates ss _ _ rfl hacc.2 hat'.lt hat'.opened hg₂
    have hend : At (lowerStmt (.if_ arms (some ss)) b) (b.numBlocks, 0) :=
      ((hr' rfl).grows h₂).leave h₂.active.lt
    refine .of_at hend (lowerArms_simulates arms true b.newBlock _ _ rfl hacc.1 at₁ (fun _ => hjoin)
      (h₂.completes g hg₂) ?_)
    intro p'' hat''
    obtain rfl := hat'.pos.symm.trans hat''.pos
    have hloop : _ = b.newBlock.currentLoop := currentLoop_of_grows h₁
    change (lowerArms arms (some ss).isSome b.numBlocks b.newBlock).currentLoop = b.currentLoop at hloop
    rw [hloop] at hs
    have hl := hs.goto hat' hg h₂.active.lt
    rw [hloop] at hl
    exact hl
  | .case_ e arms els, b, b', hb', hacc, hlt, hopen, hg => by
    unfold lowerStmt at hb'
    extract_lets val b₁ join b₂ default b₃ armBlock b₄ labels b₅ b₆ b₇ at hb'
    have h₁ : Grows b.numBlocks b.current b b₁ := (Active.self hlt).evalExpr
    have at₁ : At b₁ (b.pos.1, b.pos.2 + 1) := ⟨h₁.active.lt, isTerminated_push hopen, pos_push hopen⟩
    have at₂ : At b₂ (b.pos.1, b.pos.2 + 1) := at₁.newBlock
    have at₃ : At b₃ (b.pos.1, b.pos.2 + 1) := at₂.newBlock
    have at₄ : At b₄ (b.pos.1, b.pos.2 + 1) := at₃.newBlocks
    have h₆ : Grows b₄.numBlocks b₄.current b₄ b₆ :=
      (Active.self at₄.lt).lowerRanges.trans (Active.self at₄.lt).lowerRanges.active.terminate
    have hjoin : Reserved b₆ join := ((Reserved.self at₁.lt).newBlock.newBlocks).grows h₆
    have hdefault : Reserved b₆ default := (Reserved.self at₂.lt).newBlocks.grows h₆
    have harms : ∀ i < arms.length, Reserved b₆ (armBlock + i) := fun i hi =>
      (reserved_newBlocks at₃.lt hi).grows h₆
    have hlen : armBlock + arms.length ≤ b₆.numBlocks := by
      have hn : b₄.numBlocks = armBlock + arms.length := newBlocks_numBlocks
      rw [← hn]
      exact h₆.numBlocks
    have hjd : join < default := Nat.lt_succ_self _
    have hda : default < armBlock := Nat.lt_succ_self _
    have at₇ : At b₇ (default, 0) := (lowerCaseArms_reserved arms armBlock b₆ hdefault hda hlen).enter
    have hjoin₇ : Reserved b₇ join :=
      (lowerCaseArms_reserved arms armBlock b₆ hjoin (hjd.trans hda) hlen).switchTo (Nat.ne_of_lt hjd)
    have h₂ : Grows b₁.numBlocks b₁.current b₁ b₂ := (Active.self at₁.lt).newBlock
    have h₃ : Grows b₁.numBlocks b₁.current b₁ b₃ := h₂.trans h₂.active.newBlock
    have h₄ : Grows b₁.numBlocks b₁.current b₁ b₄ := h₃.trans h₃.active.newBlocks
    have hloop₆ : b₆.currentLoop = b.currentLoop :=
      (currentLoop_of_grows h₆).trans ((currentLoop_of_grows h₄).trans (currentLoop_of_grows h₁))
    have h₇ := lowerCaseArms_grows arms armBlock join b₆ ⟨.inl rfl, h₆.active.lt, Nat.zero_le _⟩
      (Nat.zero_le _) hlen (Nat.zero_le _) hjoin.lt
    have hloop₇ : b₇.currentLoop = b.currentLoop := (currentLoop_of_grows h₇).trans hloop₆
    -- the ELSE part
    have hels : At b' (join, 0) ∧ Completes g b₇ ∧ ∀ regs h, Lands g ω fuel (join, 0) b.currentLoop
        (atPos (default, 0) regs h) (execElse .normal ω fuel els .raise b.currentLoop.isSome h) := by
      cases els with
      | none =>
        have hpush : Grows b₇.numBlocks b₇.current b₇ (b₇.push (.raiseM2 2)) :=
          (Active.self at₇.lt).push
        subst hb'
        refine ⟨(hjoin₇.grows hpush).enter, hpush.completes g hg, fun regs h => ?_⟩
        have hraise : run g ω 1 (atPos b₇.pos regs h) = _ := step_push hg at₇.lt at₇.opened
        rw [at₇.pos] at hraise
        exact .raise hraise
      | some ss =>
        have hss := lowerStmts_grows ss b₇ (Active.self at₇.lt)
        subst hb'
        have hgss := hss.active.terminate.completes g hg
        have hs := lowerStmts_simulates ss b₇ _ rfl hacc.2.2 at₇.lt at₇.opened hgss
        rw [hloop₇] at hs
        have hl := hs.goto at₇ hg hss.active.lt
        rw [hloop₇] at hl
        exact ⟨(hjoin₇.grows hss).leave hss.active.lt, hss.completes g hgss, hl⟩
    obtain ⟨hat', hg₇, hels⟩ := hels
    have hg₆ : Completes g b₆ := h₇.completes g hg₇
    have hg₄ : Completes g b₄ := h₆.completes g hg₆
    have hval : val < b₄.nextReg := by
      have hreg : b₄.nextReg = (b.push (.eval val e)).nextReg + 1 := newBlocks_nextReg
      rw [hreg, push_nextReg]
      exact Nat.lt_succ_self _
    refine .of_at hat' fun regs h => ?_
    have heval : run g ω 1 (atPos b.pos regs h) = _ :=
      step_push (h₄.completes g hg₄) hlt hopen
    have hdispatch : ∃ n regs', run g ω n _ = _ :=
      run_dispatch (Function.update regs val (eval ω e h).2) (eval ω e h).1 hg₆ at₄ hval
    obtain ⟨n, regs', hdispatch⟩ := hdispatch
    rw [Function.update_self, dispatchTarget_eq _ ((labelBlocks_fst ..).symm ▸ hacc.1),
      caseTarget_eq] at hdispatch
    rw [← hloop₆] at hels ⊢
    exact ((lowerCaseArms_simulates arms armBlock b₆ _ rfl hacc.2.1 harms hjoin.lt hg₇ hels _ _).of_run
      hdispatch).of_run heval
  | .while_ c body, b, b', hb', hacc, hlt, hopen, hg => by
    unfold lowerStmt at hb'
    extract_lets header b₁ bodyBlock b₂ exitBlock b₃ b₄ cond b₅ b₆ b₇ at hb'
    subst hb'
    have at₁ : At b₁ b.pos := (At.mk hlt hopen rfl).newBlock
    have at₂ : At b₂ b.pos := at₁.newBlock
    have at₃ : At b₃ b.pos := at₂.newBlock
    have hhb : header < bodyBlock := Nat.lt_succ_self _
    have hbe : bodyBlock < exitBlock := Nat.lt_succ_self _
    have hheader : Reserved b₃ header := (Reserved.self hlt).newBlock.newBlock
    have hbody : Reserved b₃ bodyBlock := (Reserved.self at₁.lt).newBlock
    have hexit : Reserved b₃ exitBlock := Reserved.self at₂.lt
    -- the header
    have at₄ : At b₄ (header, 0) := hheader.leave at₃.lt
    have h₅ : Grows b₄.numBlocks b₄.current b₄ b₅ :=
      (Active.self at₄.lt).evalExpr.trans (Active.self at₄.lt).evalExpr.active.terminate
    have hbody₅ := (hbody.stay at₃.lt (Nat.ne_of_gt hhb)).grows h₅
    have hexit₅ := (hexit.stay at₃.lt (Nat.ne_of_gt (hhb.trans hbe))).grows h₅
    -- the body
    have atβ : At (b₅.switchTo bodyBlock) (bodyBlock, 0) := hbody₅.enter
    have hβ := atβ.pushLoop (f := ⟨exitBlock, header⟩)
    have h₆ := lowerStmts_grows body _ (Active.self hβ.lt)
    have hexit₆ : Reserved b₆ exitBlock :=
      ((hexit₅.switchTo (Nat.ne_of_gt hbe)).pushLoop.grows h₆).popLoop
    have hlt₆ : b₆.current < b₆.numBlocks := h₆.active.lt
    have h₇ : Grows b₆.numBlocks b₆.current b₆ b₇ := by
      unfold b₇
      split
      · exact (Active.self hlt₆).push
      · exact .refl (Active.self hlt₆)
    have hg₆ : Completes g b₆ := h₇.completes g (h₇.active.terminate.completes g hg)
    have hs := lowerStmts_simulates body _ _ rfl hacc hβ.lt hβ.opened hg₆
    have hg₅ : Completes g b₅ := h₆.completes g hg₆
    have hg₄ : Completes g b₄ := h₅.completes g hg₅
    refine .of_at ((hexit₆.grows h₇).leave h₇.active.lt) fun regs h => ?_
    have hrun : run g ω 1 (atPos b₃.pos regs h) = _ := run_goto hg₄ at₃.lt at₃.opened
    rw [at₃.pos] at hrun
    refine (Lands.iterate (fun regs h => ?_) fuel le_rfl regs h).of_run hrun
    rw [← at₄.pos]
    refine Turns.testThen hg₅ at₄.lt at₄.opened (hs.turn atβ fun hopen₆ regs h => ?_)
    obtain ⟨n, hn, hrun⟩ := run_safePoint hg hlt₆ hopen₆
    exact .again hn hrun
  | .repeat_ body c, b, b', hb', hacc, hlt, hopen, hg => by
    unfold lowerStmt at hb'
    extract_lets bodyBlock b₁ exitBlock b₂ b₃ b₄ cond b₅ at hb'
    subst hb'
    have at₁ : At b₁ b.pos := (At.mk hlt hopen rfl).newBlock
    have at₂ : At b₂ b.pos := at₁.newBlock
    have hbe : bodyBlock < exitBlock := Nat.lt_succ_self _
    have hbody : Reserved b₂ bodyBlock := (Reserved.self hlt).newBlock
    have hexit : Reserved b₂ exitBlock := Reserved.self at₁.lt
    have at₃ : At b₃ (bodyBlock, 0) := hbody.leave at₂.lt
    have hexit₃ : Reserved b₃ exitBlock := hexit.stay at₂.lt (Nat.ne_of_gt hbe)
    -- the body
    have hβ := at₃.pushLoop (f := ⟨exitBlock, bodyBlock⟩)
    have h₄ := lowerStmts_grows body _ (Active.self hβ.lt)
    have hexit₄ : Reserved b₄ exitBlock := (hexit₃.pushLoop.grows h₄).popLoop
    have hlt₄ : b₄.current < b₄.numBlocks := h₄.active.lt
    have h₅ : Grows b₄.numBlocks b₄.current b₄ b₅ := by
      unfold b₅
      split
      · exact .refl (Active.self hlt₄)
      · exact (Active.self hlt₄).evalExpr.trans (Active.self hlt₄).evalExpr.active.terminate
    have hg₅ : Completes g b₅ := hg
    have hg₄ : Completes g b₄ := h₅.completes g hg₅
    have hs := lowerStmts_simulates body _ _ rfl hacc hβ.lt hβ.opened hg₄
    have hg₃ : Completes g b₃ := h₄.completes g hg₄
    refine .of_at (hexit₄.grows h₅).enter fun regs h => ?_
    have hrun : run g ω 1 (atPos b₂.pos regs h) = _ := run_goto hg₃ at₂.lt at₂.opened
    rw [at₂.pos] at hrun
    refine (Lands.iterate (hs.turn at₃ fun hopen₄ regs h => ?_) fuel le_rfl regs h).of_run hrun
    -- the test
    change b₄.isTerminated = false at hopen₄
    unfold b₅ at hg₅
    rw [hopen₄, if_neg Bool.false_ne_true] at hg₅
    have hrun : run g ω 2 (atPos b₄.pos regs h) = _ := run_branch hg₅ hlt₄ hopen₄
    dsimp only
    split
    · next hv =>
      rw [if_pos hv] at hrun
      exact .again Nat.zero_lt_two hrun
    · next hv =>
      rw [if_neg hv] at hrun
      exact .last (.normal hrun)
  | .for_ init c fits advance body, b, b', hb', hacc, hlt, hopen, hg => by
    unfold lowerStmt at hb'
    extract_lets b₁ header b₂ bodyBlock b₃ stepBlock b₄ exitBlock b₅ b₆ cond b₇ b₈ b₉ more b₁₀
      advanceBlock b₁₁ b₁₂ at hb'
    subst hb'
    have h₁ : Grows b.numBlocks b.current b b₁ := (Active.self hlt).push
    have at₁ : At b₁ b₁.pos := ⟨h₁.active.lt, isTerminated_push hopen, rfl⟩
    have at₂ : At b₂ b₁.pos := at₁.newBlock
    have at₃ : At b₃ b₁.pos := at₂.newBlock
    have at₄ : At b₄ b₁.pos := at₃.newBlock
    have at₅ : At b₅ b₁.pos := at₄.newBlock
    have hhb : header < bodyBlock := Nat.lt_succ_self _
    have hbs : bodyBlock < stepBlock := Nat.lt_succ_self _
    have hse : stepBlock < exitBlock := Nat.lt_succ_self _
    have hheader : Reserved b₅ header := (Reserved.self at₁.lt).newBlock.newBlock.newBlock
    have hbody : Reserved b₅ bodyBlock := (Reserved.self at₂.lt).newBlock.newBlock
    have hstep : Reserved b₅ stepBlock := (Reserved.self at₃.lt).newBlock
    have hexit : Reserved b₅ exitBlock := Reserved.self at₄.lt
    -- the header
    have at₆ : At b₆ (header, 0) := hheader.leave at₅.lt
    have h₇ : Grows b₆.numBlocks b₆.current b₆ b₇ :=
      (Active.self at₆.lt).evalExpr.trans (Active.self at₆.lt).evalExpr.active.terminate
    have hbody₇ := (hbody.stay at₅.lt (Nat.ne_of_gt hhb)).grows h₇
    have hstep₇ := (hstep.stay at₅.lt (Nat.ne_of_gt (hhb.trans hbs))).grows h₇
    have hexit₇ := (hexit.stay at₅.lt (Nat.ne_of_gt ((hhb.trans hbs).trans hse))).grows h₇
    -- the body
    have atβ : At (b₇.switchTo bodyBlock) (bodyBlock, 0) := hbody₇.enter
    have hβ := atβ.pushLoop (f := ⟨exitBlock, stepBlock⟩)
    have h₈ := lowerStmts_grows body _ (Active.self hβ.lt)
    have hlt₈ : b₈.current < b₈.numBlocks := h₈.active.lt
    have hstep₈ : Reserved b₈ stepBlock :=
      ((hstep₇.switchTo (Nat.ne_of_gt hbs)).pushLoop.grows h₈).popLoop
    have hexit₈ : Reserved b₈ exitBlock :=
      ((hexit₇.switchTo (Nat.ne_of_gt (hbs.trans hse))).pushLoop.grows h₈).popLoop
    -- the test before the advance, and the advance
    have at₉ : At b₉ (stepBlock, 0) := hstep₈.leave hlt₈
    have h₁₀ : Grows b₉.numBlocks b₉.current b₉ b₁₀ := (Active.self at₉.lt).evalExpr
    have hlt₁₁ : b₁₁.current < b₁₁.numBlocks := Nat.lt_succ_of_lt h₁₀.active.lt
    have at₁₂ : At b₁₂ (advanceBlock, 0) := (Reserved.self h₁₀.active.lt).leave hlt₁₁
    have hexit₁₀ : Reserved b₁₀ exitBlock := (hexit₈.stay hlt₈ (Nat.ne_of_gt hse)).grows h₁₀
    have hexit₁₂ : Reserved b₁₂ exitBlock :=
      hexit₁₀.newBlock.stay hlt₁₁ (Nat.ne_of_lt hexit₁₀.lt)
    have hpush : Grows b₁₂.numBlocks b₁₂.current b₁₂ (b₁₂.push (.simple advance)) :=
      (Active.self at₁₂.lt).push
    -- what the finished graph has of each piece
    have hgpush : Completes g (b₁₂.push (.simple advance)) := hpush.active.terminate.completes g hg
    have hg₁₁ : Completes g (b₁₁.terminate (.condBr more advanceBlock exitBlock)) :=
      hpush.completes g hgpush
    rw [newBlock_terminate h₁₀.active.lt] at hg₁₁
    have hgtest : Completes g (b₁₀.terminate (.condBr more advanceBlock exitBlock)) :=
      h₁₀.active.terminate.active.newBlock.completes g hg₁₁
    have hg₉ : Completes g b₉ := h₁₀.completes g (h₁₀.active.terminate.completes g hgtest)
    have hg₈ : Completes g b₈ := (Active.self hlt₈).terminate.completes g hg₉
    have hs := lowerStmts_simulates body _ _ rfl hacc hβ.lt hβ.opened hg₈
    have hg₇ : Completes g b₇ := h₈.completes g hg₈
    have hg₆ : Completes g b₆ := h₇.completes g hg₇
    have hg₅ : Completes g b₅ := (Active.self at₅.lt).terminate.completes g hg₆
    have hg₁ : Completes g b₁ := ((Active.self at₁.lt).newBlocks (n := 4)).completes g hg₅
    refine .of_at ((hexit₁₂.grows hpush).leave hpush.active.lt) fun regs h => ?_
    have hinit : run g ω 1 (atPos b.pos regs h) = _ := run_simple hg₁ hlt hopen
    have hrun : run g ω 1 (atPos b₅.pos regs (h ++ [.simple init])) = _ :=
      run_goto hg₆ at₅.lt at₅.opened
    rw [at₅.pos] at hrun
    refine ((Lands.iterate (fun regs h => ?_) fuel le_rfl regs _).of_run hrun).of_run hinit
    rw [← at₆.pos]
    refine Turns.testThen hg₇ at₆.lt at₆.opened (hs.turn atβ fun hopen₈ regs h => ?_)
    refine .of_run (run_goto hg₉ hlt₈ hopen₈) ?_
    rw [← at₉.pos]
    refine Turns.testThen hgtest at₉.lt at₉.opened fun regs h => ?_
    have hadvance : run g ω 1 (atPos b₁₂.pos regs h) = _ := run_simple hgpush at₁₂.lt at₁₂.opened
    rw [at₁₂.pos] at hadvance
    exact .of_run hadvance (.again Nat.one_pos
      (run_goto hg hpush.active.lt (isTerminated_push at₁₂.opened)))
  | .loop body, b, b', hb', hacc, hlt, hopen, hg => by
    unfold lowerStmt at hb'
    extract_lets loopBlock b₁ exitBlock b₂ b₃ b₄ b₅ at hb'
    subst hb'
    have at₁ : At b₁ b.pos := (At.mk hlt hopen rfl).newBlock
    have at₂ : At b₂ b.pos := at₁.newBlock
    have hle : loopBlock < exitBlock := Nat.lt_succ_self _
    have hloop : Reserved b₂ loopBlock := (Reserved.self hlt).newBlock
    have hexit : Reserved b₂ exitBlock := Reserved.self at₁.lt
    have at₃ : At b₃ (loopBlock, 0) := hloop.leave at₂.lt
    have hexit₃ : Reserved b₃ exitBlock := hexit.stay at₂.lt (Nat.ne_of_gt hle)
    -- the body
    have hβ := at₃.pushLoop (f := ⟨exitBlock, loopBlock⟩)
    have h₄ := lowerStmts_grows body _ (Active.self hβ.lt)
    have hexit₄ : Reserved b₄ exitBlock := (hexit₃.pushLoop.grows h₄).popLoop
    have hlt₄ : b₄.current < b₄.numBlocks := h₄.active.lt
    have h₅ : Grows b₄.numBlocks b₄.current b₄ b₅ := by
      unfold b₅
      split
      · exact .refl (Active.self hlt₄)
      · split
        · exact (Active.self hlt₄).push.trans (Active.self hlt₄).push.active.terminate
        · exact (Active.self hlt₄).terminate
    have hg₅ : Completes g b₅ := hg
    have hg₄ : Completes g b₄ := h₅.completes g hg₅
    have hs := lowerStmts_simulates body _ _ rfl hacc hβ.lt hβ.opened hg₄
    have hg₃ : Completes g b₃ := h₄.completes g hg₄
    refine .of_at (hexit₄.grows h₅).enter fun regs h => ?_
    have hrun : run g ω 1 (atPos b₂.pos regs h) = _ := run_goto hg₃ at₂.lt at₂.opened
    rw [at₂.pos] at hrun
    refine (Lands.iterate (hs.turn at₃ fun hopen₄ regs h => ?_) fuel le_rfl regs h).of_run hrun
    change b₄.isTerminated = false at hopen₄
    unfold b₅ at hg₅
    rw [hopen₄, if_neg Bool.false_ne_true] at hg₅
    obtain ⟨n, hn, hrun⟩ := run_safePoint hg₅ hlt₄ hopen₄
    exact .again hn hrun
  | .with_ d body, b, _, rfl, hacc, hlt, hopen, hg => by
    have h₁ := (Active.self hlt).push (i := .simple d)
    have hs : Simulates g ω fuel b (b.push (.simple d)) fun h => (h ++ [.simple d], .normal) :=
      ⟨fun _ _ => isTerminated_push hopen, fun _ _ => .normal
        (run_simple ((lowerStmts_grows body _ h₁.active).completes g hg) hlt hopen)⟩
    refine hs.seq (currentLoop_of_grows h₁)
      (fun hopen' => lowerStmts_simulates body _ _ rfl hacc h₁.active.lt hopen' hg) ?_ ?_
    · rintro h _ ⟨⟩
      rw [currentLoop_of_grows h₁]
      rfl
    · rintro h _ _ ⟨⟩ hne
      exact absurd rfl hne
  | .exit, b, b', hb', _, hlt, hopen, hg => by
    unfold lowerStmt at hb'
    rcases hl : b.currentLoop with _ | f <;> rw [hl] at hb' <;> subst hb'
    · exact .nil hopen
    · refine ⟨nofun, fun regs h => ?_⟩
      rw [hl]
      exact .exit rfl (run_goto hg hlt hopen)
  | .return_ none, _, _, rfl, _, hlt, hopen, hg =>
    ⟨nofun, fun _ _ => .return_ (run_ret hg hlt hopen)⟩
  | .return_ (some e), b, _, rfl, _, hlt, hopen, hg => by
    have h₁ := (Active.self hlt).push (i := .simple e)
    exact ⟨nofun, fun _ _ => (Lands.return_ (run_ret hg h₁.active.lt (isTerminated_push hopen))).of_run
      (run_simple (h₁.active.terminate.completes g hg) hlt hopen)⟩
  | .block ss none, b, _, rfl, hacc, hlt, hopen, hg => by
    have hs := lowerStmts_simulates ss b _ rfl hacc.1 hlt hopen hg
    refine hs.seq (currentLoop_of_grows (lowerStmts_grows ss b (Active.self hlt))) .nil ?_ ?_
    · intro h h' hr
      rw [exec, hr]
      rfl
    · intro h h' out hr hne
      rw [exec, hr]
      cases out <;> trivial
  | .block ss (some fin), b, b', hb', hacc, hlt, hopen, hg => by
    unfold lowerStmt at hb'
    extract_lets b₁ at hb'
    dsimp only at hb'
    have h₁ : Grows b.numBlocks b.current b b₁ := lowerStmts_grows ss b (Active.self hlt)
    have hg₁ : Completes g b₁ := by
      subst hb'
      split at hg
      · exact hg
      · exact (lowerStmts_grows fin b₁ h₁.active).completes g hg
    have hs := lowerStmts_simulates ss b b₁ rfl hacc.1 hlt hopen hg₁
    by_cases hopen₁ : b₁.isTerminated = false
    · rw [hopen₁, if_neg Bool.false_ne_true] at hb'
      refine hs.seq (currentLoop_of_grows h₁)
        (fun hopen' => lowerStmts_simulates fin _ _ hb' hacc.2 h₁.active.lt hopen' hg) ?_ ?_
      · intro h h' hr
        rw [currentLoop_of_grows h₁, exec, hr]
        rfl
      · intro h h' out hr hne
        rw [exec, hr]
        cases out <;> trivial
    · -- the statements never end normally
      rw [Bool.not_eq_false] at hopen₁
      rw [hopen₁, if_pos rfl] at hb'
      subst hb'
      have hne : ∀ h, (execStmts .normal ω fuel ss b.currentLoop.isSome h).2 ≠ .normal := fun h hn =>
        Bool.false_ne_true ((hs.opened h hn).symm.trans hopen₁)
      have hend : b₁.isTerminated = false → Simulates g ω fuel b₁ b₁ fun h => (h, .normal) := .nil
      refine hs.seq (currentLoop_of_grows h₁) hend ?_ ?_
      · intro h h' hr
        exact absurd (by rw [hr]) (hne h)
      · intro h h' out hr hne
        rw [exec, hr]
        cases out <;> trivial
theorem lowerArms_simulates {join : BlockId} {els : List Event → List Event × Outcome} :
    ∀ (arms : List (Nat × List Stmt)) (hasElse : Bool) (b b' : FuncBuilder) (p : BlockId × Nat),
    lowerArms arms hasElse join b = b' → acceptedArms arms → At b p →
    (arms ≠ [] ∨ hasElse = true → Reserved b join) → Completes g b' →
    (∀ p', At b' p' → ∀ regs h, Lands g ω fuel (join, 0) b.currentLoop (atPos p' regs h) (els h)) →
    ∀ regs h, Lands g ω fuel (join, 0) b.currentLoop (atPos p regs h)
      (execArms .normal ω fuel arms els b.currentLoop.isSome h)
  | [], _, _, _, p, rfl, _, hat, _, _, hels => hels p hat
  | (c, body) :: rest, hasElse, b, b', p, hb', hacc, hat, hr, hg, hels => by
    obtain ⟨b₂, t, f, b₃, b₄, at₂, rfl, at₃, hloop₃, rfl, at₄, hloop₄, hb', hjoin, hr₄, -⟩ :=
      lowerArms_cons hb' hat (hr (.inl nofun))
    have hrest : Active 0 f _ := ⟨.inl rfl, at₄.lt, Nat.zero_le _⟩
    have hg₄ := (lowerArms_grows rest hasElse join _ hrest (Nat.zero_le _) hjoin).completes g (hb' ▸ hg)
    have h₃ := lowerStmts_grows body _ (Active.self at₃.lt)
    have hg₃ := h₃.active.terminate.completes g hg₄
    have hs := lowerStmts_simulates body _ _ rfl hacc.1 at₃.lt at₃.opened hg₃
    rw [hloop₃] at hs
    intro regs h
    have hrun : run g ω 2 (atPos b₂.pos regs h) = _ := run_branch (h₃.completes g hg₃) at₂.lt at₂.opened
    rw [at₂.pos] at hrun
    unfold execArms
    dsimp only
    split
    · next hv =>
      rw [if_pos hv] at hrun
      refine Lands.of_run hrun ?_
      rw [← hloop₄] at hels ⊢
      exact lowerArms_simulates rest hasElse _ _ _ hb' hacc.2 at₄ hr₄ hg hels _ _
    · next hv =>
      rw [if_neg hv] at hrun
      have hl := hs.goto at₃ hg₄ h₃.active.lt
      rw [hloop₃] at hl
      exact (hl _ _).of_run hrun
theorem lowerCaseArms_simulates {join d : BlockId} {v : Int}
    {els : List Event → List Event × Outcome} :
    ∀ (arms : List (List CaseLabel × List Stmt)) (ab : Nat) (b b' : FuncBuilder),
    lowerCaseArms arms ab join b = b' → acceptedCase arms →
    (∀ i < arms.length, Reserved b (ab + i)) → join < b.numBlocks → Completes g b' →
    (∀ regs h, Lands g ω fuel (join, 0) b.currentLoop (atPos (d, 0) regs h) (els h)) →
    ∀ regs h, Lands g ω fuel (join, 0) b.currentLoop (atPos (caseTarget arms v ab d, 0) regs h)
      (execCase .normal ω fuel arms v els b.currentLoop.isSome h)
  | [], _, _, _, _, _, _, _, _, hels => hels
  | (labels, body) :: rest, ab, b, b', hb', hacc, hr, hjoin, hg, hels => by
    unfold lowerCaseArms at hb'
    have hat : At (b.switchTo ab) (ab, 0) := (hr 0 (Nat.succ_pos _)).enter
    have h₁ := lowerStmts_grows body _ (Active.self hat.lt)
    have h₂ := h₁.trans (h₁.active.terminate (t := .goto join))
    have hr₂ : ∀ i < rest.length, Reserved ((lowerStmts body (b.switchTo ab)).terminate (.goto join))
        (ab + 1 + i) := by
      intro i hi
      have hri := hr (i + 1) (Nat.succ_lt_succ hi)
      rw [Nat.add_comm i 1, ← Nat.add_assoc] at hri
      exact (hri.switchTo (Nat.ne_of_gt (Nat.lt_of_lt_of_le (Nat.lt_succ_self ab)
        (Nat.le_add_right ..)))).grows h₂
    have hlen : ab + 1 + rest.length ≤ b.numBlocks := by
      rw [Nat.add_right_comm]
      exact (hr rest.length (Nat.lt_succ_self _)).lt
    have hjoin₂ : join < _ := hjoin.trans_le h₂.numBlocks
    have hg₂ := (lowerCaseArms_grows rest (ab + 1) join _ ⟨.inl rfl, h₂.active.lt, Nat.zero_le _⟩
      (Nat.zero_le _) (hlen.trans h₂.numBlocks) (Nat.zero_le _) hjoin₂).completes g (hb' ▸ hg)
    have hloop : _ = (b.switchTo ab).currentLoop := currentLoop_of_grows h₂
    change _ = b.currentLoop at hloop
    unfold caseTarget execCase
    split
    · have hs := lowerStmts_simulates body _ _ rfl hacc.1 hat.lt hat.opened
        (h₁.active.terminate.completes g hg₂)
      exact hs.goto hat hg₂ h₁.active.lt
    · simp only [ne_eq, not_true_eq_false, and_false, if_false]
      rw [← hloop] at hels ⊢
      exact lowerCaseArms_simulates rest (ab + 1) _ _ hb' hacc.2 hr₂ hjoin₂ hg hels
theorem lowerStmts_simulates : ∀ (ss : List Stmt) (b b' : FuncBuilder), lowerStmts ss b = b' →
    acceptedStmts ss → b.current < b.numBlocks → b.isTerminated = false → Completes g b' →
    Simulates g ω fuel b b' (execStmts .normal ω fuel ss b.currentLoop.isSome)
  | [], b, _, rfl, _, _, hopen, _ => .nil hopen
  | s :: ss, b, b', hb', hacc, hlt, hopen, hg => by
    unfold lowerStmts at hb'
    rw [hopen, if_neg Bool.false_ne_true] at hb'
    have h₁ := lowerStmt_grows s b (Active.self hlt)
    have h₂ := lowerStmts_grows ss _ h₁.active
    have hs := lowerStmt_simulates s b _ rfl hacc.1 hlt hopen (h₂.completes g (hb' ▸ hg))
    refine hs.seq (currentLoop_of_grows h₁)
      (fun hopen' => lowerStmts_simulates ss _ _ hb' hacc.2 h₁.active.lt hopen' hg) ?_ ?_
    · intro h h' hr
      rw [currentLoop_of_grows h₁, execStmts, hr]
    · intro h h' out hr hne
      rw [execStmts, hr]
      cases out <;> trivial
end

end simulation

/-! ## Procedure bodies -/

theorem finish_completes (b : FuncBuilder) (returnsValue : Bool) :
    Completes (b.finish returnsValue) b := by
  intro i _
  unfold FuncBuilder.finish
  dsimp only
  split
  · next hterm => exact ⟨List.prefix_rfl, fun hne => absurd hterm hne⟩
  · exact ⟨List.prefix_rfl, fun _ => rfl⟩

/-- The exit block is not used by the lowering, so `finish` seals it. -/
theorem lowerBody_exitBlock (mode : MemoryMode) (returnsValue : Bool) (body : Stmt) :
    lowerBody mode returnsValue body exitBlock =
      ⟨[], if returnsValue then .unreachable else .ret⟩ := by
  have hlt : (FuncBuilder.new mode).current < (FuncBuilder.new mode).numBlocks := Nat.zero_lt_two
  have hexit : Reserved (FuncBuilder.new mode) exitBlock := ⟨rfl, Nat.lt_succ_self _, Nat.one_ne_zero⟩
  have hbody := lowerStmt_grows body _ (Active.self hlt)
  have hnew := (hexit.grows (hbody.trans (hbody.active.terminate (t := .goto exitBlock)))).new
  unfold lowerBody FuncBuilder.finish
  rw [hnew]
  cases returnsValue <;> rfl

/-- The graph of a procedure body behaves as the body does when an EXIT leaves the nearest loop of any
kind. -/
theorem lowerBody_simulates (mode : MemoryMode) (returnsValue : Bool) (body : Stmt) (ω : Oracle)
    (hacc : body.Accepted) :
    Obs.SameBehaviour
      (fun fuel => observe (if returnsValue then .trapped else .returned)
        (exec .normal ω fuel body false []))
      (behaviour (lowerBody mode returnsValue body) ω) := by
  refine .of_simulation behaviour_monotone fun fuel => ?_
  have hat : At (FuncBuilder.new mode) (entryBlock, 0) := ⟨Nat.zero_lt_two, rfl, rfl⟩
  have hbody := lowerStmt_grows body _ (Active.self hat.lt)
  have hg : Completes (lowerBody mode returnsValue body)
    ((lowerStmt body (.new mode)).terminate (.goto exitBlock)) := finish_completes _ returnsValue
  have hs : Simulates _ ω fuel _ _ _ := lowerStmt_simulates body _ _ rfl hacc hat.lt hat.opened
    (hbody.active.terminate.completes _ hg)
  have hl := hs.goto hat hg hbody.active.lt (fun _ => 0) []
  change Lands _ ω fuel _ none _ (exec .normal ω fuel body false []) at hl
  generalize exec .normal ω fuel body false [] = r at hl
  cases hl with
  | @normal h n regs hn =>
    refine ⟨n + 1, ?_, by simp [observe]⟩
    have hend : step (lowerBody mode returnsValue body) ω (atPos (exitBlock, 0) regs h) =
        .ended (if returnsValue then .trapped else .returned) h := by
      have hblock := lowerBody_exitBlock mode returnsValue body
      unfold atPos
      rw [step_term (by rw [hblock]; rfl), hblock]
      cases returnsValue <;> rfl
    change (run _ ω (n + 1) (atPos (entryBlock, 0) (fun _ => 0) [])).observe = _
    rw [run_add, hn]
    exact congrArg MachineState.observe hend
  | exit hf => cases hf
  | @return_ h n hn => exact ⟨n, congrArg MachineState.observe hn, nofun⟩
  | @raise h n hn => exact ⟨n, congrArg MachineState.observe hn, nofun⟩
  | @outOfFuel n c hle hn => exact ⟨n, congrArg MachineState.observe hn, fun _ => hle⟩

/-- Without stray EXITs and labels that are not folded the graph of a procedure body behaves as the body does in
Modula-2. -/
theorem lowerBody_sameBehaviour (mode : MemoryMode) (returnsValue : Bool) (body : Stmt) (ω : Oracle)
    (hacc : body.Accepted) (hstray : NoStray ω body) :
    Obs.SameBehaviour (structured ω (if returnsValue then .trapped else .returned) body)
      (behaviour (lowerBody mode returnsValue body) ω) := by
  have hexec : ∀ esc fuel, exec esc ω fuel body false [] = exec .stray ω fuel body false [] :=
    fun esc fuel => exec_of_not_stray body false [] (hstray fuel)
  have hsame := lowerBody_simulates mode returnsValue body ω hacc
  unfold structured
  simp only [hexec] at hsame ⊢
  exact hsame

/-- `LOOP IF c THEN EXIT END END`, where `c` holds. -/
theorem lowerBody_sameBehaviour_loop :
    Obs.SameBehaviour (structured (fun _ _ => 1) .returned (.loop [.if_ [(0, [.exit])] none]))
      (behaviour (lowerBody .gc false (.loop [.if_ [(0, [.exit])] none])) fun _ _ => 1) := by
  refine lowerBody_sameBehaviour .gc false _ _ ⟨⟨⟨⟨trivial, trivial⟩, trivial⟩, trivial⟩, trivial⟩ fun fuel => ?_
  cases fuel <;> exact nofun

/-- The EXIT of `LOOP WHILE c DO EXIT END; s END` leaves the WHILE: the code goes on with `s`, and the
LOOP never ends. -/
theorem exit_leaves_while :
    ¬ Obs.SameBehaviour
      (structured (fun _ _ => 1) .returned (.loop [.while_ 0 [.exit], .simple 7]))
      (behaviour (lowerBody .gc false (.loop [.while_ 0 [.exit], .simple 7])) fun _ _ => 1) := by
  intro hsame
  obtain ⟨m, -, hended⟩ := hsame.1 1
  have hm : behaviour (lowerBody .gc false (.loop [.while_ 0 [.exit], .simple 7])) (fun _ _ => 1) m =
      ([.eval 0 1], some .returned) := hended rfl
  have hlater : behaviour (lowerBody .gc false (.loop [.while_ 0 [.exit], .simple 7])) (fun _ _ => 1) 7 =
      ([.eval 0 1, .simple 7], none) := by decide +kernel
  have hmono := behaviour_monotone (g := lowerBody .gc false (.loop [.while_ 0 [.exit], .simple 7]))
    (ω := fun _ _ => 1)
  rcases Nat.le_total m 7 with hle | hle
  · have hend := hmono.ended hle (by rw [hm]; rfl)
    rw [hm, hlater] at hend
    cases hend
  · have hprefix := (hmono.prefix_of_le hle).length_le
    rw [hm, hlater] at hprefix
    exact absurd hprefix (by decide)

end NewM2.Cfg
