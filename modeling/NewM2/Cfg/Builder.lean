import Mathlib.Logic.Function.Basic
import NewM2.Cfg.Stmt

/-! # Basic blocks and `FuncBuilder` (`newm2-ir/src/inst.rs`, `newm2-ir/src/builder.rs`)

The blocks of a function under construction are a function from block ids with the number of ids given
out; the instructions are those that the lowering of statements emits around simple statements,
conditions and selectors. `run` executes a finished graph one instruction at a time. -/

namespace NewM2.Cfg

abbrev BlockId := Nat
abbrev ValueId := Nat

inductive Inst
  | simple (a : Nat)
  | eval (dst : ValueId) (e : Nat)
  /-- `lo <= val AND val <= hi`. -/
  | inRange (dst val : ValueId) (lo hi : Int)
  | raiseM2 (n : Nat)
  | gcSafePoint
deriving Repr, DecidableEq

inductive Terminator
  | goto (b : BlockId)
  | condBr (cond : ValueId) (tBlock fBlock : BlockId)
  | switch (val : ValueId) (arms : List (Int × BlockId)) (default : BlockId)
  | ret
  | unreachable
deriving Repr, DecidableEq

structure BasicBlock where
  insts : List Inst
  term : Terminator
deriving Repr, DecidableEq

def BasicBlock.new : BasicBlock := ⟨[], .unreachable⟩

structure LoopFrame where
  exitBlock : BlockId
  continueBlock : BlockId
deriving Repr, DecidableEq

inductive MemoryMode
  | gc | noGc
deriving Repr, DecidableEq

structure FuncBuilder where
  blocks : BlockId → BasicBlock
  numBlocks : Nat
  current : BlockId
  nextReg : ValueId
  loopStack : List LoopFrame
  mode : MemoryMode

namespace FuncBuilder

def entryBlock : BlockId := 0
def exitBlock : BlockId := 1

/-- `FuncBuilder::new`: the blocks `entry` and `exit`, the entry is active. -/
def new (mode : MemoryMode) : FuncBuilder where
  blocks _ := .new
  numBlocks := 2
  current := entryBlock
  nextReg := 0
  loopStack := []
  mode := mode

variable (b : FuncBuilder)

def freshReg : FuncBuilder := { b with nextReg := b.nextReg + 1 }

/-- `new_block`; the id it returns is the `numBlocks` before. -/
def newBlock : FuncBuilder :=
  { b with blocks := Function.update b.blocks b.numBlocks .new, numBlocks := b.numBlocks + 1 }

def switchTo (id : BlockId) : FuncBuilder := { b with current := id }

def isTerminated : Bool := (b.blocks b.current).term ≠ .unreachable

/-- Instructions behind a terminator are dropped. -/
def push (i : Inst) : FuncBuilder :=
  if b.isTerminated then b
  else
    let block := b.blocks b.current
    { b with blocks := Function.update b.blocks b.current { block with insts := block.insts ++ [i] } }

/-- The first terminator wins. -/
def terminate (t : Terminator) : FuncBuilder :=
  if b.isTerminated then b
  else
    { b with blocks := Function.update b.blocks b.current { b.blocks b.current with term := t } }

def pushLoop (frame : LoopFrame) : FuncBuilder := { b with loopStack := frame :: b.loopStack }

def popLoop : FuncBuilder := { b with loopStack := b.loopStack.tail }

def currentLoop : Option LoopFrame := b.loopStack.head?

/-- `finish` seals the blocks that have no terminator. -/
def finish (returnsValue : Bool) : BlockId → BasicBlock := fun i =>
  let block := b.blocks i
  if block.term = .unreachable then
    { block with term := if returnsValue then .unreachable else .ret }
  else block

end FuncBuilder

/-! ## Execution -/

structure Config where
  block : BlockId
  pc : Nat
  regs : ValueId → Int
  hist : List Event

inductive MachineState
  | running (c : Config)
  | ended (e : Ending) (hist : List Event)

section machine
variable (g : BlockId → BasicBlock) (ω : Oracle)

def execInst (c : Config) : Inst → MachineState
  | .simple a => .running { c with pc := c.pc + 1, hist := c.hist ++ [.simple a] }
  | .eval dst e =>
    match eval ω e c.hist with
    | (hist, v) => .running ⟨c.block, c.pc + 1, Function.update c.regs dst v, hist⟩
  | .inRange dst val lo hi =>
    let v := if lo ≤ c.regs val ∧ c.regs val ≤ hi then 1 else 0
    .running { c with pc := c.pc + 1, regs := Function.update c.regs dst v }
  | .raiseM2 _ => .ended .raised c.hist
  | .gcSafePoint => .running { c with pc := c.pc + 1 }

def jump (c : Config) : Terminator → MachineState
  | .goto b => .running { c with block := b, pc := 0 }
  | .condBr cond t f => .running { c with block := if c.regs cond = 0 then f else t, pc := 0 }
  | .switch val arms default =>
    let target := (arms.find? (·.1 = c.regs val)).elim default Prod.snd
    .running { c with block := target, pc := 0 }
  | .ret => .ended .returned c.hist
  | .unreachable => .ended .trapped c.hist

def step : MachineState → MachineState
  | .ended e h => .ended e h
  | .running c =>
    match (g c.block).insts[c.pc]? with
    | some i => execInst ω c i
    | none => jump c (g c.block).term

def run : Nat → MachineState → MachineState
  | 0, s => s
  | n + 1, s => run n (step g ω s)

def MachineState.observe : MachineState → List Event × Option Ending
  | .running c => (c.hist, none)
  | .ended e h => (h, some e)

/-- What is seen of a graph from its entry. -/
def behaviour : Obs Event Ending := fun n =>
  (run g ω n (.running ⟨FuncBuilder.entryBlock, 0, fun _ => 0, []⟩)).observe

variable {g ω}

theorem run_add (n m : Nat) (s : MachineState) : run g ω (n + m) s = run g ω m (run g ω n s) := by
  induction n generalizing s with
  | zero => rw [Nat.zero_add]; rfl
  | succ n ih => rw [Nat.succ_add]; exact ih _

@[simp] theorem run_ended (n : Nat) (e : Ending) (h : List Event) :
    run g ω n (.ended e h) = .ended e h := by
  induction n with
  | zero => rfl
  | succ n ih => exact ih

theorem step_inst {c : Config} {i : Inst} (hi : (g c.block).insts[c.pc]? = some i) :
    step g ω (.running c) = execInst ω c i := by
  unfold step
  dsimp only
  rw [hi]

theorem step_term {c : Config} (hi : (g c.block).insts[c.pc]? = none) :
    step g ω (.running c) = jump c (g c.block).term := by
  unfold step
  dsimp only
  rw [hi]

theorem observe_le_step (s : MachineState) : s.observe.1 <+: (step g ω s).observe.1 := by
  rcases s with c | ⟨e, h⟩
  · rcases hi : (g c.block).insts[c.pc]? with _ | i
    · rw [step_term hi]
      cases (g c.block).term <;> exact List.prefix_rfl
    · rw [step_inst hi]
      cases i with
      | simple a => exact List.prefix_append ..
      | eval dst e => exact List.prefix_append ..
      | inRange dst val lo hi => exact List.prefix_rfl
      | raiseM2 n => exact List.prefix_rfl
      | gcSafePoint => exact List.prefix_rfl
  · exact List.prefix_rfl

/-- The machine does not take events back. -/
theorem behaviour_monotone : (behaviour g ω).Monotone := by
  have hprefix : ∀ n s, s.observe.1 <+: (run g ω n s).observe.1 := by
    intro n
    induction n with
    | zero => exact fun s => List.prefix_rfl
    | succ n ih => exact fun s => (observe_le_step s).trans (ih _)
  refine ⟨fun {n m} hle => ?_, fun {n m} hle hsome => ?_⟩
  · obtain ⟨k, rfl⟩ := Nat.exists_eq_add_of_le hle
    unfold behaviour
    rw [run_add]
    exact hprefix k _
  · obtain ⟨k, rfl⟩ := Nat.exists_eq_add_of_le hle
    unfold behaviour at hsome ⊢
    rw [run_add]
    generalize run g ω n _ = s at hsome ⊢
    rcases s with c | ⟨e, h⟩
    · cases hsome
    · rw [run_ended]

end machine

end NewM2.Cfg
