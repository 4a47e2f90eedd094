import Mathlib
import NewM2.Cfg.Builder
import NewM2.Lib.FlowGraph

/-! # GUARD over COM interfaces (`newm2-sema/src/analyze.rs`, `newm2-ir/src/lower.rs`)

A GUARD with an interface selector asks for the interface of one arm after the other by QueryInterface,
and releases what a query stored: in the block behind a test that failed, and at the end of the arm. Sema
refuses arms that leave otherwise (`guardArmNonlocalExit`).

The lowering of expressions and of simple statements is one instruction, with the variables that it may
store into; the query and the release that an ISMEMBER makes on its own account within one are no events. The
branches of the graph are free: a path may take either side of a test. -/

namespace NewM2.Com
open FlowGraph
open Cfg (CaseLabel LoopFrame MemoryMode)

abbrev ValueId := Nat
abbrev BlockId := Nat
abbrev Word := BitVec 64

/-! ## Statements -/

/-- A simple statement or an expression, with the variables that it may store into. -/
structure Action where
  id : Nat
  writes : List String
deriving Repr, DecidableEq

structure ClassSymbol where
  isInterface : Bool
  iid : Option String
deriving Repr, DecidableEq

/-- `[x :] T` of an arm: the class that the type name denotes, and whether it is related to the class of
the selector. -/
structure ArmHead where
  denoter : Option String
  guardedType : Option ClassSymbol
  related : Bool
deriving Repr, DecidableEq

inductive Stmt
  | empty
  | simple (a : Action)
  | halt (code : Action)
  | if_ (cond : Action) (body : List Stmt) (elsifs : List (Action × List Stmt))
    (elseArm : Option (List Stmt))
  | case_ (scrutinee : Action) (arms : List (List CaseLabel × List Stmt)) (elseArm : Option (List Stmt))
  | while_ (cond : Action) (body : List Stmt)
  | repeat_ (body : List Stmt) (cond : Action)
  | for_ (var : String) (start stop : Action) (by_ : Option Action) (body : List Stmt)
  | loop (body : List Stmt)
  | with_ (d : Action) (body : List Stmt)
  /-- The selector has a type, and its type may be a class. -/
  | guard (selector : Action) (selTy : Option (Option ClassSymbol)) (arms : List (ArmHead × List Stmt))
    (elseArm : Option (List Stmt))
  | exit
  | return_ (e : Option Action)
  | raise (e : Option Action)
  | retry
  | block (stmts : List Stmt) (except : List (List Stmt)) (finally_ : Option (List Stmt))

/-! ## Sema -/

mutual
/-- The loop of `guard_arm_nonlocal_exit`: whether there is a RETURN, a RAISE, a RETRY or an EXIT from a
loop that is not inside the arm. -/
def Stmt.scan : Stmt → Nat → Bool
  | .return_ _, _ | .raise _, _ | .retry, _ => true
  | .exit, loopDepth => loopDepth == 0
  | .if_ _ body elsifs els, loopDepth =>
    scan body loopDepth || scanArms elsifs loopDepth || scanElse els loopDepth
  | .case_ _ arms els, loopDepth => scanCase arms loopDepth || scanElse els loopDepth
  | .guard _ _ arms els, loopDepth => scanGuard arms loopDepth || scanElse els loopDepth
  | .while_ _ body, loopDepth | .repeat_ body _, loopDepth | .for_ _ _ _ _ body, loopDepth
  | .loop body, loopDepth => scan body (loopDepth + 1)
  | .with_ _ body, loopDepth => scan body loopDepth
  | .block ss except fin, loopDepth =>
    scan ss loopDepth || scanExcept except loopDepth || scanElse fin loopDepth
  | .empty, _ | .simple _, _ | .halt _, _ => false
def scanArms : List (Action × List Stmt) → Nat → Bool
  | [], _ => false
  | (_, body) :: rest, loopDepth => scan body loopDepth || scanArms rest loopDepth
def scanCase : List (List CaseLabel × List Stmt) → Nat → Bool
  | [], _ => false
  | (_, body) :: rest, loopDepth => scan body loopDepth || scanCase rest loopDepth
def scanGuard : List (ArmHead × List Stmt) → Nat → Bool
  | [], _ => false
  | (_, body) :: rest, loopDepth => scan body loopDepth || scanGuard rest loopDepth
def scanExcept : List (List Stmt) → Nat → Bool
  | [], _ => false
  | body :: rest, loopDepth => scan body loopDepth || scanExcept rest loopDepth
def scanElse : Option (List Stmt) → Nat → Bool
  | none, _ => false
  | some ss, loopDepth => scan ss loopDepth
def scan : List Stmt → Nat → Bool
  | [], _ => false
  | s :: ss, loopDepth => s.scan loopDepth || scan ss loopDepth
end

def guardArmNonlocalExit (body : List Stmt) : Bool := scan body 0

/-- What `analyse_guard` says about the selector. -/
def selectorErrors : Option (Option ClassSymbol) → List String
  | some none => ["GUARD selector must be an object reference"]
  | _ => []

def selIsIface (selTy : Option (Option ClassSymbol)) : Bool := selTy.join.any ClassSymbol.isInterface

/-- What `analyse_guard` says about an arm before it looks into its body. -/
def armErrors (selTy : Option (Option ClassSymbol)) (head : ArmHead) (body : List Stmt) : List String :=
  match head.guardedType with
  | none => ["GUARD arm type must be a class"]
  | some cls =>
    if selIsIface selTy then
      if !cls.isInterface then
        ["GUARD arm on an interface selector must be an interface " ++
          "(narrowing a COM object to a native class is not supported)"]
      else
        (if cls.iid.isNone then ["GUARD interface arm: the interface must declare an IID"] else []) ++
        (if guardArmNonlocalExit body then
          ["RETURN/EXIT/RAISE inside a GUARD interface arm is not supported yet " ++
            "(it would skip the COM Release) — assign to a variable and fall through"]
        else [])
    else if cls.isInterface then ["GUARD to an interface requires an interface selector"]
    else if selTy.join.isSome && !head.related then
      ["GUARD arm type is unrelated to the selector's class"]
    else []

mutual
/-- What `analyse_guard` reports for the GUARDs of a statement. -/
def Stmt.errors : Stmt → List String
  | .if_ _ body elsifs els => errors body ++ errorsArms elsifs ++ errorsElse els
  | .case_ _ arms els => errorsCase arms ++ errorsElse els
  | .guard _ selTy arms els => selectorErrors selTy ++ errorsGuard selTy arms ++ errorsElse els
  | .while_ _ body | .repeat_ body _ | .for_ _ _ _ _ body | .loop body | .with_ _ body => errors body
  | .block ss except fin => errors ss ++ errorsExcept except ++ errorsElse fin
  | .empty | .simple _ | .halt _ | .exit | .return_ _ | .raise _ | .retry => []
def errorsArms : List (Action × List Stmt) → List String
  | [] => []
  | (_, body) :: rest => errors body ++ errorsArms rest
def errorsCase : List (List CaseLabel × List Stmt) → List String
  | [] => []
  | (_, body) :: rest => errors body ++ errorsCase rest
def errorsGuard (selTy : Option (Option ClassSymbol)) : List (ArmHead × List Stmt) → List String
  | [] => []
  | (head, body) :: rest => armErrors selTy head body ++ errors body ++ errorsGuard selTy rest
def errorsExcept : List (List Stmt) → List String
  | [] => []
  | body :: rest => errors body ++ errorsExcept rest
def errorsElse : Option (List Stmt) → List String
  | none => []
  | some ss => errors ss
def errors : List Stmt → List String
  | [] => []
  | s :: ss => s.errors ++ errors ss
end

/-! ## Instructions -/

inductive BinOp
  | bitAnd | eq | ne
deriving Repr, DecidableEq

inductive Inst
  | alloca (dst : ValueId)
  | const (dst : ValueId) (val : Word)
  | globalRef (dst : ValueId)
  | load (dst ptr : ValueId)
  | store (ptr val : ValueId)
  | binary (dst : ValueId) (op : BinOp) (lhs rhs : ValueId)
  /-- The arithmetic of FOR and of label ranges. -/
  | compute (dst : ValueId) (uses : List ValueId)
  | eval (dst : ValueId) (e : Nat) (writes : List ValueId)
  | simple (a : Nat) (writes : List ValueId)
  /-- A runtime function that stores into no variable. -/
  | call (f : String) (dst : ValueId) (args : List ValueId)
  /-- A runtime function that does not come back. -/
  | noreturn (f : String)
  | queryInterface (dst this iid out : ValueId)
  | release (dst this : ValueId)
  | gcSafePoint
deriving Repr, DecidableEq

/-- `Unreachable` is the absence of a terminator. -/
inductive Terminator
  | goto (b : BlockId)
  | condBr (cond : ValueId) (tBlock fBlock : BlockId)
  | switch (val : ValueId) (arms : List (Int × BlockId)) (default : BlockId)
  | ret
  | raise (val : ValueId)
deriving Repr, DecidableEq

def Terminator.succs : Terminator → List BlockId
  | .goto b => [b]
  | .condBr _ t f => [t, f]
  | .switch _ arms default => arms.map Prod.snd ++ [default]
  | .ret | .raise _ => []

def BinOp.apply : BinOp → Word → Word → Word
  | .bitAnd, x, y => x &&& y
  | .eq, x, y => if x = y then 1 else 0
  | .ne, x, y => if x = y then 0 else 1

inductive Event
  | queryInterface (hr out : Word)
  | release (this : Word)
deriving Repr, DecidableEq

/-- `mem` holds what is in the slots. -/
structure State where
  regs : ValueId → Word
  mem : ValueId → Word
  trace : List Event

namespace State
variable (s : State)

def setReg (dst : ValueId) (v : Word) : State := { s with regs := Function.update s.regs dst v }

def setMem (ptr : ValueId) (v : Word) : State := { s with mem := Function.update s.mem ptr v }

def add (e : Event) : State := { s with trace := s.trace ++ [e] }

end State

/-- What an instruction may do. Slots are allocated on entry of the procedure. -/
inductive Exec : Inst → State → State → Prop
  | alloca {s : State} {dst : ValueId} : Exec (.alloca dst) s s
  | const {s : State} {dst : ValueId} {val : Word} : Exec (.const dst val) s (s.setReg dst val)
  | globalRef {s : State} {dst : ValueId} (v : Word) : Exec (.globalRef dst) s (s.setReg dst v)
  | load {s : State} {dst ptr : ValueId} : Exec (.load dst ptr) s (s.setReg dst (s.mem ptr))
  | store {s : State} {ptr val : ValueId} : Exec (.store ptr val) s (s.setMem ptr (s.regs val))
  | binary {s : State} {dst lhs rhs : ValueId} {op : BinOp} :
      Exec (.binary dst op lhs rhs) s (s.setReg dst (op.apply (s.regs lhs) (s.regs rhs)))
  | compute {s : State} {dst : ValueId} {uses : List ValueId} (v : Word) :
      Exec (.compute dst uses) s (s.setReg dst v)
  | eval {s : State} {dst : ValueId} {e : Nat} {writes : List ValueId} (v : Word) (mem : ValueId → Word) :
      (∀ ptr, ptr ∉ writes → mem ptr = s.mem ptr) →
      Exec (.eval dst e writes) s ({ s with mem }.setReg dst v)
  | simple {s : State} {a : Nat} {writes : List ValueId} (mem : ValueId → Word) :
      (∀ ptr, ptr ∉ writes → mem ptr = s.mem ptr) → Exec (.simple a writes) s { s with mem }
  | call {s : State} {f : String} {dst : ValueId} {args : List ValueId} (v : Word) :
      Exec (.call f dst args) s (s.setReg dst v)
  | queryInterface {s : State} {dst this iid out : ValueId} (hr p : Word) :
      Exec (.queryInterface dst this iid out) s
        (((s.setMem out p).setReg dst hr).add (.queryInterface hr p))
  | release {s : State} {dst this : ValueId} (count : Word) :
      Exec (.release dst this) s ((s.setReg dst count).add (.release (s.regs this)))
  | gcSafePoint {s : State} : Exec .gcSafePoint s s

/-! ## Lowering -/

/-- The state of lowering. `guards` notes where the lowering of each GUARD over an interface began and
ended; nothing reads it. -/
structure FuncLower extends Builder Inst Terminator where
  nextReg : ValueId
  loopStack : List LoopFrame
  mode : MemoryMode
  locals : String → Option ValueId
  retryTarget : Option BlockId
  guards : List Region

namespace FuncLower
variable (b : FuncLower)

def newBlock : FuncLower := { b with toBuilder := b.toBuilder.newBlock }

def newBlocks : Nat → FuncLower → FuncLower
  | 0, b => b
  | n + 1, b => newBlocks n b.newBlock

def switchTo (id : BlockId) : FuncLower := { b with toBuilder := b.toBuilder.switchTo id }

def push (i : Inst) : FuncLower := { b with toBuilder := b.toBuilder.push i }

def terminate (t : Terminator) : FuncLower := { b with toBuilder := b.toBuilder.terminate t }

/-- `fresh` and `push`; the register is the `nextReg` before. -/
def emit (i : ValueId → Inst) : FuncLower := { b.push (i b.nextReg) with nextReg := b.nextReg + 1 }

def pushLoop (frame : LoopFrame) : FuncLower := { b with loopStack := frame :: b.loopStack }

def popLoop : FuncLower := { b with loopStack := b.loopStack.tail }

def currentLoop : Option LoopFrame := b.loopStack.head?

def bind (x : String) (slot : Option ValueId) : FuncLower :=
  { b with locals := Function.update b.locals x slot }

/-- The slots of the local variables among `names`. -/
def slots (names : List String) : List ValueId := names.filterMap b.locals

/-- The value it returns is the `nextReg` before. -/
def evalExpr (e : Action) : FuncLower := b.emit (.eval · e.id (b.slots e.writes))

/-- `emit_com_qi`: the register with the result of the test, and the slot. -/
def emitComQi (sel : ValueId) : ValueId × ValueId × FuncLower :=
  let iidPtr := b.nextReg
  let b := b.emit .globalRef
  let ppvSlot := b.nextReg
  let b := b.emit .alloca
  let nil := b.nextReg
  let b := b.emit (.const · 0)
  let b := b.push (.store ppvSlot nil)
  let hr := b.nextReg
  let b := b.emit (.queryInterface · sel iidPtr ppvSlot)
  let mask := b.nextReg
  let b := b.emit (.const · 0x80000000)
  let masked := b.nextReg
  let b := b.emit (.binary · .bitAnd hr mask)
  let zeroVal := b.nextReg
  let b := b.emit (.const · 0)
  let succeeded := b.nextReg
  let b := b.emit (.binary · .eq masked zeroVal)
  let ppv := b.nextReg
  let b := b.emit (.load · ppvSlot)
  let nil2 := b.nextReg
  let b := b.emit (.const · 0)
  let notnil := b.nextReg
  let b := b.emit (.binary · .ne ppv nil2)
  let matched := b.nextReg
  let b := b.emit (.binary · .bitAnd succeeded notnil)
  (matched, ppvSlot, b)

/-- The test of an arm; without a class it fails. -/
def testArm (sel : ValueId) (head : ArmHead) : ValueId × ValueId × FuncLower :=
  match head.guardedType with
  | some _ => b.emitComQi sel
  | none =>
    let f := b.nextReg
    let b := b.emit (.const · 0)
    let slot := b.nextReg
    let b := b.emit .alloca
    let nil := b.nextReg
    let b := b.emit (.const · 0)
    (f, slot, b.push (.store slot nil))

/-- Where an IF goes on when the condition of an arm does not hold; `more`: there is another arm or an ELSE
part. -/
def falseBlock (more : Bool) (join : BlockId) : BlockId := if more then b.numBlocks + 1 else join

/-- The condition of an arm of an IF. -/
def beginArm (c : Action) (more : Bool) (join : BlockId) : FuncLower :=
  let thenBlock := b.numBlocks
  let falseBlock := b.falseBlock more join
  let b := b.newBlock
  let b := if more then b.newBlock else b
  let cond := b.nextReg
  ((b.evalExpr c).terminate (.condBr cond thenBlock falseBlock)).switchTo thenBlock

/-- The end of an arm of an IF. -/
def endArm (join falseBlock : BlockId) : FuncLower := (b.terminate (.goto join)).switchTo falseBlock

/-- Load the slot and call `nm2_com_release`. -/
def releaseSlot (slot : ValueId) : FuncLower :=
  let ppv := b.nextReg
  let b := b.emit (.load · slot)
  b.emit (.release · ppv)

end FuncLower

open FuncLower

/-- `guard_arm_is_interface` of the first arm. -/
def armsAreInterface : List (ArmHead × List Stmt) → Bool
  | (head, _) :: _ => head.guardedType.any ClassSymbol.isInterface
  | [] => false

/-- The labels of the arms with their blocks, from block `ab` on. -/
def labelBlocks : List (List CaseLabel × List Stmt) → BlockId → List (CaseLabel × BlockId)
  | [], _ => []
  | (labels, _) :: rest, ab => labels.map (·, ab) ++ labelBlocks rest (ab + 1)

/-- The range checks of a CASE, and the switch over the single labels behind them. -/
def lowerLabels (val : ValueId) (default : BlockId) :
    List (CaseLabel × BlockId) → List (Int × BlockId) → FuncLower → FuncLower
  | [], singles, b => b.terminate (.switch val singles default)
  | (.single n, ab) :: rest, singles, b => lowerLabels val default rest (singles ++ [(n, ab)]) b
  | (.unfolded _ _, _) :: rest, singles, b => lowerLabels val default rest singles b
  | (.range _ _, ab) :: rest, singles, b =>
    let next := b.numBlocks
    let b := b.newBlock
    let inr := b.nextReg
    let b := b.emit (.compute · [val])
    lowerLabels val default rest singles ((b.terminate (.condBr inr ab next)).switchTo next)

/-- The QueryInterface ladder: the slots of the arms from block `armBlock` on. -/
def lowerLadder (sel : ValueId) (default : BlockId) :
    List (ArmHead × List Stmt) → BlockId → FuncLower → List ValueId × FuncLower
  | [], _, b => ([], b)
  | (head, _) :: rest, armBlock, b =>
    let test := b.testArm sel head
    let b := test.2.2
    let after := if rest.isEmpty then default else b.numBlocks
    let b := if rest.isEmpty then b else b.newBlock
    let noMatch := b.numBlocks
    let b := b.newBlock
    let b := (b.terminate (.condBr test.1 armBlock noMatch)).switchTo noMatch
    let b := ((b.releaseSlot test.2.1).terminate (.goto after)).switchTo after
    let ladder := lowerLadder sel default rest (armBlock + 1) b
    (test.2.1 :: ladder.1, ladder.2)

/-- The ladder of a GUARD over a class. -/
def lowerRttiLadder (candTi : ValueId) (default : BlockId) :
    List (ArmHead × List Stmt) → BlockId → FuncLower → FuncLower
  | [], _, b => b
  | _ :: rest, armBlock, b =>
    let targetTi := b.nextReg
    let b := b.emit .globalRef
    let matched := b.nextReg
    let b := b.emit (.call "nm2_rtti_isa" · [candTi, targetTi])
    let next := if rest.isEmpty then default else b.numBlocks
    let b := if rest.isEmpty then b else b.newBlock
    let b := (b.terminate (.condBr matched armBlock next)).switchTo next
    lowerRttiLadder candTi default rest (armBlock + 1) b

mutual
def lowerStmt : Stmt → FuncLower → FuncLower
  | .empty, b => b
  | .simple a, b => b.push (.simple a.id (b.slots a.writes))
  | .halt code, b =>
    let b := (b.evalExpr code).push (.noreturn "nm2_halt")
    let after := b.numBlocks
    b.newBlock.switchTo after
  | .if_ c body elsifs els, b =>
    let join := b.numBlocks
    let b := b.newBlock
    let more := !elsifs.isEmpty || els.isSome
    let falseBlock := b.falseBlock more join
    let b := (lowerStmts body (b.beginArm c more join)).endArm join falseBlock
    let b := lowerArms elsifs els.isSome join b
    if els.isSome then (lowerElse els "" join b).switchTo join else b
  | .case_ e arms els, b =>
    let val := b.nextReg
    let b := b.evalExpr e
    let join := b.numBlocks
    let b := b.newBlock
    let default := b.numBlocks
    let b := b.newBlock
    let armBlock := b.numBlocks
    let b := newBlocks arms.length b
    let b := lowerLabels val default (labelBlocks arms armBlock) [] b
    let b := (lowerCaseArms arms armBlock join b).switchTo default
    (lowerElse els "nm2_raise_m2" join b).switchTo join
  | .while_ c body, b =>
    let header := b.numBlocks
    let b := b.newBlock
    let bodyBlock := b.numBlocks
    let b := b.newBlock
    let exitBlock := b.numBlocks
    let b := b.newBlock
    let b := (b.terminate (.goto header)).switchTo header
    let cond := b.nextReg
    let b := ((b.evalExpr c).terminate (.condBr cond bodyBlock exitBlock)).switchTo bodyBlock
    let b := (lowerStmts body (b.pushLoop ⟨exitBlock, header⟩)).popLoop
    let b := if b.mode = .gc then b.push .gcSafePoint else b
    (b.terminate (.goto header)).switchTo exitBlock
  | .repeat_ body c, b =>
    let bodyBlock := b.numBlocks
    let b := b.newBlock
    let exitBlock := b.numBlocks
    let b := b.newBlock
    let b := (b.terminate (.goto bodyBlock)).switchTo bodyBlock
    let b := (lowerStmts body (b.pushLoop ⟨exitBlock, bodyBlock⟩)).popLoop
    let cond := b.nextReg
    let b := if b.isTerminated then b else (b.evalExpr c).terminate (.condBr cond exitBlock bodyBlock)
    b.switchTo exitBlock
  | .for_ var start stop by_ body, b =>
    let ptr := (b.locals var).getD b.nextReg
    let b := if (b.locals var).isSome then b else (b.emit .alloca).bind var (some ptr)
    let startVal := b.nextReg
    let b := (b.evalExpr start).push (.store ptr startVal)
    let endVal := b.nextReg
    let b := b.evalExpr stop
    let stepVal := b.nextReg
    let b := match by_ with
      | some e => b.evalExpr e
      | none => b.emit (.const · 1)
    let header := b.numBlocks
    let b := b.newBlock
    let bodyBlock := b.numBlocks
    let b := b.newBlock
    let stepBlock := b.numBlocks
    let b := b.newBlock
    let exitBlock := b.numBlocks
    let b := b.newBlock
    let b := (b.terminate (.goto header)).switchTo header
    let cur := b.nextReg
    let b := b.emit (.load · ptr)
    let cond := b.nextReg
    let b := b.emit (.compute · [cur, endVal, stepVal])
    let b := (b.terminate (.condBr cond bodyBlock exitBlock)).switchTo bodyBlock
    let b := (lowerStmts body (b.pushLoop ⟨exitBlock, stepBlock⟩)).popLoop
    let b := (b.terminate (.goto stepBlock)).switchTo stepBlock
    let cur := b.nextReg
    let b := b.emit (.load · ptr)
    let fits := b.nextReg
    let b := b.emit (.compute · [cur, endVal, stepVal])
    let advance := b.numBlocks
    let b := b.newBlock
    let b := (b.terminate (.condBr fits advance exitBlock)).switchTo advance
    let next := b.nextReg
    let b := b.emit (.compute · [cur, stepVal])
    ((b.push (.store ptr next)).terminate (.goto header)).switchTo exitBlock
  | .loop body, b =>
    let loopBlock := b.numBlocks
    let b := b.newBlock
    let exitBlock := b.numBlocks
    let b := b.newBlock
    let b := (b.terminate (.goto loopBlock)).switchTo loopBlock
    let b := (lowerStmts body (b.pushLoop ⟨exitBlock, loopBlock⟩)).popLoop
    let b := if b.mode = .gc then b.push .gcSafePoint else b
    (b.terminate (.goto loopBlock)).switchTo exitBlock
  | .with_ d body, b => lowerStmts body (b.evalExpr d)
  | .guard selector _ arms els, b =>
    let start := b.pos
    let lo := b.numBlocks
    let sel := b.nextReg
    let b := b.evalExpr selector
    if armsAreInterface arms then
      let join := b.numBlocks
      let b := b.newBlock
      let default := b.numBlocks
      let b := b.newBlock
      let armBlock := b.numBlocks
      let b := newBlocks arms.length b
      let ladder := lowerLadder sel default arms armBlock b
      let b := (lowerIfaceArms arms ladder.1 armBlock join ladder.2).switchTo default
      let b := (lowerElse els "nm2_raise_guard" join b).switchTo join
      { b with guards := b.guards ++ [⟨start, b.pos, lo, b.numBlocks⟩] }
    else
      let candTi := b.nextReg
      let b := b.emit (.call "nm2_typeinfo_of" · [sel])
      let join := b.numBlocks
      let b := b.newBlock
      let default := b.numBlocks
      let b := b.newBlock
      let armBlock := b.numBlocks
      let b := newBlocks arms.length b
      let b := if arms.isEmpty then b.terminate (.goto default) else b
      let b := lowerRttiLadder candTi default arms armBlock b
      let b := (lowerGuardArms arms sel armBlock join b).switchTo default
      (lowerElse els "nm2_raise_guard" join b).switchTo join
  | .exit, b =>
    match b.currentLoop with
    | some frame => b.terminate (.goto frame.exitBlock)
    | none => b
  | .return_ (some e), b => (b.evalExpr e).terminate .ret
  | .return_ none, b => b.terminate .ret
  | .raise (some e), b => (b.evalExpr e).terminate (.raise b.nextReg)
  | .raise none, b => b.push (.noreturn "nm2_reraise")
  | .retry, b =>
    match b.retryTarget with
    | some target => (b.emit (.call "nm2_exception_handled" · [])).terminate (.goto target)
    | none => b
  | .block ss _ fin, b =>
    let b := lowerStmts ss b
    match fin with
    | some ss => if b.isTerminated then b else lowerStmts ss b
    | none => b
/-- The ELSIF arms; behind the last one the ELSE part or `join` is active. -/
def lowerArms : List (Action × List Stmt) → Bool → BlockId → FuncLower → FuncLower
  | [], _, _, b => b
  | (c, body) :: rest, hasElse, join, b =>
    let more := !rest.isEmpty || hasElse
    let falseBlock := b.falseBlock more join
    let b := (lowerStmts body (b.beginArm c more join)).endArm join falseBlock
    lowerArms rest hasElse join b
def lowerCaseArms : List (List CaseLabel × List Stmt) → BlockId → BlockId → FuncLower → FuncLower
  | [], _, _, b => b
  | (_, body) :: rest, ab, join, b =>
    lowerCaseArms rest (ab + 1) join ((lowerStmts body (b.switchTo ab)).terminate (.goto join))
/-- The arms of a GUARD over an interface, with the slots of the ladder. -/
def lowerIfaceArms : List (ArmHead × List Stmt) → List ValueId → BlockId → BlockId → FuncLower → FuncLower
  | (head, body) :: rest, slot :: slots, ab, join, b =>
    let saved := b.locals
    let b := b.switchTo ab
    let b := head.denoter.elim b (b.bind · (some slot))
    let b := lowerStmts body b
    let b := if b.isTerminated then b else (b.releaseSlot slot).terminate (.goto join)
    let b := head.denoter.elim b fun x => b.bind x (saved x)
    lowerIfaceArms rest slots (ab + 1) join b
  | _, _, _, _, b => b
/-- The arms of a GUARD over a class. -/
def lowerGuardArms : List (ArmHead × List Stmt) → ValueId → BlockId → BlockId → FuncLower → FuncLower
  | [], _, _, _, b => b
  | (head, body) :: rest, sel, ab, join, b =>
    let saved := b.locals
    let b := b.switchTo ab
    let slot := b.nextReg
    let b := head.denoter.elim b fun x => ((b.emit .alloca).push (.store slot sel)).bind x (some slot)
    let b := (lowerStmts body b).terminate (.goto join)
    let b := head.denoter.elim b fun x => b.bind x (saved x)
    lowerGuardArms rest sel (ab + 1) join b
/-- The ELSE part, or without one the call of the runtime function that raises. -/
def lowerElse : Option (List Stmt) → String → BlockId → FuncLower → FuncLower
  | some ss, _, join, b => (lowerStmts ss b).terminate (.goto join)
  | none, raise, _, b => b.push (.noreturn raise)
/-- Statements behind an EXIT or RETURN are not lowered. -/
def lowerStmts : List Stmt → FuncLower → FuncLower
  | [], b => b
  | s :: ss, b => if b.isTerminated then b else lowerStmts ss (lowerStmt s b)
end

/-! ## Functions -/

def FuncLower.entryBlock : BlockId := 0
def FuncLower.exitBlock : BlockId := 1

/-- `FuncLower::new`: each parameter and variable of `names` gets a slot. -/
def FuncLower.new (mode : MemoryMode) (names : List String) : FuncLower :=
  names.foldl (fun b x => (b.emit .alloca).bind x (some b.nextReg))
    { blocks := fun _ => .new, numBlocks := 2, current := entryBlock, nextReg := 0, loopStack := [],
      mode, locals := fun _ => none, retryTarget := none, guards := [] }

/-- The functions that come from a procedure or module body: the body itself or its protected part, and
the wrapper with its EXCEPT and FINALLY parts. -/
inductive Source
  | body (s : Stmt)
  | wrapper (except : List (List Stmt)) (finally_ : Option (List Stmt))

def Source.errors : Source → List String
  | .body s => s.errors
  | .wrapper except fin => errorsExcept except ++ errorsElse fin

def lowerHandlers : List (List Stmt) → FuncLower → FuncLower
  | [], b => b
  | arm :: arms, b => if b.isTerminated then b else lowerHandlers arms (lowerStmts arm b)

def lowerFinally : Option (List Stmt) → FuncLower → FuncLower
  | none, b => b
  | some ss, b => lowerStmts ss b

/-- `lower_protected_wrapper`; RETRY in a handler goes back to `header`. -/
def lowerProtectedWrapper (except : List (List Stmt)) (fin : Option (List Stmt)) (b : FuncLower) :
    FuncLower :=
  let header := b.numBlocks
  let b := b.newBlock
  let b := (b.terminate (.goto header)).switchTo header
  let raised := b.nextReg
  let b := b.emit (.call "nm2_run_protected" · [])
  let isNormal := b.nextReg
  let b := b.emit (.compute · [raised])
  if !except.isEmpty then
    let handler := b.numBlocks
    let b := b.newBlock
    let join := b.numBlocks
    let b := b.newBlock
    let b := (b.terminate (.condBr isNormal join handler)).switchTo handler
    let b := { lowerHandlers except { b with retryTarget := some header } with retryTarget := b.retryTarget }
    let b := if b.isTerminated then b
      else (b.emit (.call "nm2_exception_handled" · [])).terminate (.goto join)
    (lowerFinally fin (b.switchTo join)).terminate .ret
  else
    let b := lowerFinally fin b
    if b.isTerminated then b
    else
      let normal := b.numBlocks
      let b := b.newBlock
      let reraise := b.numBlocks
      let b := b.newBlock
      let b := (b.terminate (.condBr isNormal normal reraise)).switchTo reraise
      ((b.push (.noreturn "nm2_reraise")).switchTo normal).terminate .ret

def lowerSource (mode : MemoryMode) (names : List String) : Source → FuncLower
  | .body s => (lowerStmt s (.new mode names)).terminate (.goto exitBlock)
  | .wrapper except fin => lowerProtectedWrapper except fin (.new mode names)

/-- `finish` seals the blocks that have no terminator. -/
def FuncLower.finish (b : FuncLower) (returnsValue : Bool) : BlockId → Block Inst Terminator := fun i =>
  let block := b.blocks i
  if block.term.isNone && !returnsValue then { block with term := some .ret } else block

end NewM2.Com
