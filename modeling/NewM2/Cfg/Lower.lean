import NewM2.Cfg.Builder

/-! # Lowering of statements (`newm2-ir/src/lower.rs`, `lower_stmt`)

The lowering of conditions, selectors and simple statements is abstract: each emits one instruction.
`Grows` says what a piece of lowering does to the blocks that exist before it: it only adds to the active
block, and ends in that block or in one of its own. -/

namespace NewM2.Cfg

namespace FuncBuilder
variable (b : FuncBuilder)

/-- `eval_expr`; the value it returns is the `nextReg` before. -/
def evalExpr (e : Nat) : FuncBuilder := (b.push (.eval b.nextReg e)).freshReg

/-- The check of one label range; behind it a new block is active. -/
def lowerRange (val : ValueId) (lo hi : Int) (arm : BlockId) : FuncBuilder :=
  let next := b.numBlocks
  let b := b.newBlock
  let inr := b.nextReg
  let b := (b.push (.inRange inr val lo hi)).freshReg
  (b.terminate (.condBr inr arm next)).switchTo next

def lowerRanges (val : ValueId) : List ((Int × Int) × BlockId) → FuncBuilder → FuncBuilder
  | [], b => b
  | ((lo, hi), arm) :: rest, b => lowerRanges val rest (b.lowerRange val lo hi arm)

/-- One block per CASE arm. -/
def newBlocks : Nat → FuncBuilder → FuncBuilder
  | 0, b => b
  | n + 1, b => newBlocks n b.newBlock

end FuncBuilder

/-- The labels of the arms with their blocks, from block `ab` on. -/
def labelBlocks : List (List CaseLabel × List Stmt) → BlockId → List (CaseLabel × BlockId)
  | [], _ => []
  | (labels, _) :: rest, ab => labels.map (·, ab) ++ labelBlocks rest (ab + 1)

/-- A label that `case_label_int` does not fold is dropped. -/
def singles (labels : List (CaseLabel × BlockId)) : List (Int × BlockId) :=
  labels.filterMap fun
    | (.single n, ab) => some (n, ab)
    | (.range .., _) | (.unfolded .., _) => none

def ranges (labels : List (CaseLabel × BlockId)) : List ((Int × Int) × BlockId) :=
  labels.filterMap fun
    | (.single _, _) | (.unfolded .., _) => none
    | (.range lo hi, ab) => some ((lo, hi), ab)

open FuncBuilder

mutual
def lowerStmt : Stmt → FuncBuilder → FuncBuilder
  | .empty, b => b
  | .simple a, b => b.push (.simple a)
  | .if_ arms els, b =>
    let join := b.numBlocks
    let b := b.newBlock
    lowerElse els join (lowerArms arms els.isSome join b)
  | .case_ e arms els, b =>
    let val := b.nextReg
    let b := b.evalExpr e
    let join := b.numBlocks
    let b := b.newBlock
    let default := b.numBlocks
    let b := b.newBlock
    let armBlock := b.numBlocks
    let b := newBlocks arms.length b
    let labels := labelBlocks arms armBlock
    let b := lowerRanges val (ranges labels) b
    let b := b.terminate (.switch val (singles labels) default)
    let b := (lowerCaseArms arms armBlock join b).switchTo default
    match els with
    | some ss => lowerElse (some ss) join b
    | none => (b.push (.raiseM2 2)).switchTo join
  | .while_ c body, b =>
    let header := b.numBlocks
    let b := b.newBlock
    let bodyBlock := b.numBlocks
    let b := b.newBlock
    let exitBlock := b.numBlocks
    let b := b.newBlock
    let b := (b.terminate (.goto header)).switchTo header
    let cond := b.nextReg
    let b := (b.evalExpr c).terminate (.condBr cond bodyBlock exitBlock)
    let b := (lowerStmts body ((b.switchTo bodyBlock).pushLoop ⟨exitBlock, header⟩)).popLoop
    let b := if b.mode = .gc then b.push .gcSafePoint else b
    (b.terminate (.goto header)).switchTo exitBlock
  | .repeat_ body c, b =>
    let bodyBlock := b.numBlocks
    let b := b.newBlock
    let exitBlock := b.numBlocks
    let b := b.newBlock
    let b := (b.terminate (.goto bodyBlock)).switchTo bodyBlock
    let b := (lowerStmts body (b.pushLoop ⟨exitBlock, bodyBlock⟩)).popLoop
    let b :=
      if b.isTerminated then b
      else
        let cond := b.nextReg
        (b.evalExpr c).terminate (.condBr cond exitBlock bodyBlock)
    b.switchTo exitBlock
  | .for_ init c fits advance body, b =>
    let b := b.push (.simple init)
    let header := b.numBlocks
    let b := b.newBlock
    let bodyBlock := b.numBlocks
    let b := b.newBlock
    let stepBlock := b.numBlocks
    let b := b.newBlock
    let exitBlock := b.numBlocks
    let b := b.newBlock
    let b := (b.terminate (.goto header)).switchTo header
    let cond := b.nextReg
    let b := (b.evalExpr c).terminate (.condBr cond bodyBlock exitBlock)
    let b := (lowerStmts body ((b.switchTo bodyBlock).pushLoop ⟨exitBlock, stepBlock⟩)).popLoop
    let b := (b.terminate (.goto stepBlock)).switchTo stepBlock
    let more := b.nextReg
    let b := b.evalExpr fits
    let advanceBlock := b.numBlocks
    let b := b.newBlock
    let b := (b.terminate (.condBr more advanceBlock exitBlock)).switchTo advanceBlock
    ((b.push (.simple advance)).terminate (.goto header)).switchTo exitBlock
  | .loop body, b =>
    let loopBlock := b.numBlocks
    let b := b.newBlock
    let exitBlock := b.numBlocks
    let b := b.newBlock
    let b := (b.terminate (.goto loopBlock)).switchTo loopBlock
    let b := (lowerStmts body (b.pushLoop ⟨exitBlock, loopBlock⟩)).popLoop
    let b :=
      if b.isTerminated then b
      else (if b.mode = .gc then b.push .gcSafePoint else b).terminate (.goto loopBlock)
    b.switchTo exitBlock
  | .with_ d body, b => lowerStmts body (b.push (.simple d))
  | .exit, b =>
    match b.currentLoop with
    | some frame => b.terminate (.goto frame.exitBlock)
    | none => b
  | .return_ (some e), b => (b.push (.simple e)).terminate .ret
  | .return_ none, b => b.terminate .ret
  | .block ss fin, b =>
    let b := lowerStmts ss b
    match fin with
    | some ss => if b.isTerminated then b else lowerStmts ss b
    | none => b
/-- The arms of an IF; behind the last one the ELSE part or `join` is active. -/
def lowerArms : List (Nat × List Stmt) → Bool → BlockId → FuncBuilder → FuncBuilder
  | [], _, _, b => b
  | (c, body) :: rest, hasElse, join, b =>
    let thenBlock := b.numBlocks
    let b := b.newBlock
    let more := !rest.isEmpty || hasElse
    let falseBlock := if more then b.numBlocks else join
    let b := if more then b.newBlock else b
    let cond := b.nextReg
    let b := (b.evalExpr c).terminate (.condBr cond thenBlock falseBlock)
    let b := (lowerStmts body (b.switchTo thenBlock)).terminate (.goto join)
    lowerArms rest hasElse join (b.switchTo falseBlock)
/-- The ELSE part of an IF or a CASE. -/
def lowerElse : Option (List Stmt) → BlockId → FuncBuilder → FuncBuilder
  | none, _, b => b
  | some ss, join, b => ((lowerStmts ss b).terminate (.goto join)).switchTo join
def lowerCaseArms : List (List CaseLabel × List Stmt) → BlockId → BlockId → FuncBuilder →
    FuncBuilder
  | [], _, _, b => b
  | (_, body) :: rest, ab, join, b =>
    lowerCaseArms rest (ab + 1) join ((lowerStmts body (b.switchTo ab)).terminate (.goto join))
/-- Statements behind an EXIT or RETURN are not lowered. -/
def lowerStmts : List Stmt → FuncBuilder → FuncBuilder
  | [], b => b
  | s :: ss, b => if b.isTerminated then b else lowerStmts ss (lowerStmt s b)
end

/-- The graph of a procedure body. -/
def lowerBody (mode : MemoryMode) (returnsValue : Bool) (body : Stmt) : BlockId → BasicBlock :=
  ((lowerStmt body (.new mode)).terminate (.goto FuncBuilder.exitBlock)).finish returnsValue

end NewM2.Cfg
