import Mathlib
import NewM2.Lib.Digits
import NewM2.Ui.Ptcl.Expr

/-!
# The evaluator of the script language (`library/uimod/Ptcl.mod`)

The variables, the commands, the procedures and the arguments are global; the words of a command are not. A host
command is a tree of calls of this module, so that it ends. `evalRange` is given a bound for its nesting; what it
calls is defined over `self`, the evaluation that is nested in it. -/

namespace NewM2.Ui.Ptcl

def maxVars : Nat := 64
def maxCmds : Nat := 48
def maxArgs : Nat := 16
def argMax : Nat := 511
def depthMax : Nat := 16
def maxProcs : Nat := 24
def maxParams : Nat := 6
def maxIters : Nat := 1000000

/-- `Copy` and `CopyLit` into an ARRAY [0..high] OF CHAR. -/
def copy (high : Nat) (cs : List Code) : List Code := (textOf cs).take high

def word (cs : List Char) : List Code := cs.map code

/-- A command of the host, with the state of the host. -/
inductive Host (σ : Type)
  | done (ok : Bool)
  | get (k : σ → Host σ)
  | put (x : σ) (k : Host σ)
  | argc (k : Nat → Host σ)
  | arg (i : Nat) (k : List Code → Host σ)
  | argInt (i : Nat) (k : Int → Host σ)
  | result (s : List Code) (k : Host σ)
  | fail (msg : List Code) (k : Host σ)
  | setVar (name val : List Code) (k : Host σ)
  | getVar (name : List Code) (k : Option (List Code) → Host σ)
  | register (name : List Code) (proc : Host σ) (k : Host σ)
  | reset (k : Host σ)
  | eval (script : List Code) (high : Nat) (k : Bool → List Code → Host σ)

structure UserProc where
  parm : List Code
  body : List Code

/-- The global variables, and the state of the host. -/
structure State (σ : Type) where
  vars : List (List Code × List Code)
  cmds : List (List Code × Host σ)
  procs : List (List Code × UserProc)
  /-- The first `gArgc` ones. -/
  args : List (List Code)
  result : List Code
  errMsg : List Code
  hasErr : Bool
  depth : Nat
  host : σ
  /-- How often `Reset` was called. No procedure reads it. -/
  resets : Nat

abbrev Script (σ β : Type) := StateT (State σ) (Except Stop) β

def stop {σ β : Type} (e : Stop) : Script σ β := fun _ => .error e

/-- The index `i` of an array with the last index `high`. -/
def index {σ : Type} (i high : Nat) : Script σ Unit := if i ≤ high then pure () else stop .indexException

/-! ## Tables -/

section tables
variable {β : Type}

def lookup (name : List Code) : List (List Code × β) → Option β
  | [] => none
  | (n, x) :: l => if n = name then some x else lookup name l

/-- The entry with the name gets `x`; without one there is a new entry. -/
def store (name entry : List Code) (x : β) : List (List Code × β) → List (List Code × β)
  | [] => [(entry, x)]
  | (n, y) :: l => if n = name then (n, x) :: l else (n, y) :: store name entry x l

end tables

namespace State
variable {σ : Type}

/-- `FindVar` and `GetVar` -/
def getVar (s : State σ) (name : List Code) : Option (List Code) := lookup (textOf name) s.vars

/-- `val` after `GetVar` -/
def valueOf (s : State σ) (name : List Code) : List Code := (s.getVar name).getD []

end State

section globals
variable {σ : Type}

def setVar (name val : List Code) : Script σ Unit := do
  let s ← get
  if nameMax < (textOf name).length then return ()
  else if (lookup (textOf name) s.vars).isSome then
    set { s with vars := store (textOf name) (textOf name) (copy valMax val) s.vars }
  else if maxVars ≤ s.vars.length then return ()
  else do
    index s.vars.length (maxVars - 1)
    set { s with vars := store (textOf name) (textOf name) (copy valMax val) s.vars }

def register (name : List Code) (proc : Host σ) : Script σ Unit := do
  let s ← get
  if (lookup (textOf name) s.cmds).isSome then
    set { s with cmds := store (textOf name) (copy nameMax name) proc s.cmds }
  else if maxCmds ≤ s.cmds.length then return ()
  else do
    index s.cmds.length (maxCmds - 1)
    set { s with cmds := store (textOf name) (copy nameMax name) proc s.cmds }

def defProc (name parms body : List Code) : Script σ Unit := do
  let s ← get
  let p : UserProc := ⟨copy argMax parms, copy valMax body⟩
  if (lookup (textOf name) s.procs).isSome then
    set { s with procs := store (textOf name) (copy nameMax name) p s.procs }
  else if maxProcs ≤ s.procs.length then return ()
  else do
    index s.procs.length (maxProcs - 1)
    set { s with procs := store (textOf name) (copy nameMax name) p s.procs }

def reset : Script σ Unit := modify fun s => { s with vars := [], procs := [], resets := s.resets + 1 }

def setResult (cs : List Code) : Script σ Unit := modify fun s => { s with result := copy valMax cs }

def fail (msg : List Code) : Script σ Unit := modify fun s => { s with errMsg := copy valMax msg, hasErr := true }

/-- `ArgInt` of a word. -/
def intOf (cs : List Code) : Int :=
  match cs with
  | [] => 0
  | c :: cs' =>
    if c = code '-' then -((cs'.takeWhile (isDigit ·)).foldl (fun n d => step n (digit d)) 0)
    else ((c :: cs').takeWhile (isDigit ·)).foldl (fun n d => step n (digit d)) 0

end globals

/-! ## Host commands -/

section eval
variable {σ : Type}

/-- `self high cs`: the text `cs` is evaluated, and `out` is an ARRAY [0..high] OF CHAR. -/
def Host.run (self : Nat → List Code → Script σ (Bool × List Code)) : Host σ → Script σ Bool
  | done ok => return ok
  | get k => do (k (← MonadState.get).host).run self
  | put x k => do
    modify fun s => { s with host := x }
    k.run self
  | argc k => do (k (← MonadState.get).args.length).run self
  | arg i k => do (k (((← MonadState.get).args.getD i []))).run self
  | argInt i k => do
    let cs ← scan argMax ((← MonadState.get).args.getD i [])
    (k (intOf cs)).run self
  | result s k => do
    setResult s
    k.run self
  | fail msg k => do
    Ptcl.fail msg
    k.run self
  | setVar name val k => do
    Ptcl.setVar name val
    k.run self
  | getVar name k => do (k ((← MonadState.get).getVar name)).run self
  | register name proc k => do
    Ptcl.register name proc
    k.run self
  | reset k => do
    Ptcl.reset
    k.run self
  | eval script high k => do
    let (ok, out) ← self high (textOf script)
    (k ok out).run self

/-! ## Words -/

/-- A blank, a tab, a semicolon or the end of a line. -/
def isSep (c : Code) : Bool := c = blank ∨ c = 9 ∨ c = code ';' ∨ c = 10 ∨ c = 13

def isBlank (c : Code) : Bool := c = blank ∨ c = 9

/-- A semicolon or the end of a line. -/
def isEnd (c : Code) : Bool := c = code ';' ∨ c = 10 ∨ c = 13

/-- `AppCh` -/
def appCh (w : List Code) (c : Code) : List Code := if w.length < argMax then w ++ [c] else w

/-- The characters in braces, up to the closing one, and those behind that. -/
def readBraces : Nat → List Code → List Code → List Code × List Code
  | _, [], w => ([], w)
  | br, c :: cs, w =>
    if c = code '{' then readBraces (br + 1) cs (appCh w c)
    else if c = code '}' then if br ≤ 1 then (cs, w) else readBraces (br - 1) cs (appCh w c)
    else readBraces br cs (appCh w c)

section words
variable (self : Nat → List Code → Script σ (Bool × List Code))

/-- `SubstChar`: what is behind the element, the word, and `subErr`. -/
def substChar (cs w : List Code) (subErr : Bool) : Script σ (List Code × List Code × Bool) :=
  match cs with
  | [] => stop .indexException
  | c :: cs =>
    if c = code '$' then do
      let name := (cs.takeWhile isNameCh).take nameMax
      let val ← scan valMax ((← get).valueOf name)
      return (cs.dropWhile isNameCh, val.foldl appCh w, subErr)
    else if c = code '[' then do
      let (ok, val) ← self valMax (bracket 1 cs).1
      if ok then do
        let val ← scan valMax val
        return ((bracket 1 cs).2, val.foldl appCh w, subErr)
      else do
        modify fun s => { s with errMsg := copy valMax val }
        return ((bracket 1 cs).2, w, true)
    else return (cs, appCh w c, subErr)

/-- `SubstChar` up to a character that ends the word. -/
def readTo (ends : Code → Bool) : Nat → List Code → List Code → Bool → Script σ (List Code × List Code × Bool)
  | 0, _, _, _ => stop .rounds
  | n + 1, cs, w, subErr =>
    match cs with
    | [] => return ([], w, subErr)
    | c :: cs' =>
      if ends c then return (c :: cs', w, subErr)
      else do
        let (cs, w, subErr) ← substChar self (c :: cs') w subErr
        readTo ends n cs w subErr

def readWord (cs : List Code) : Script σ (List Code × List Code × Bool) :=
  match cs with
  | [] => stop .indexException
  | c :: cs' =>
    if c = code '\x7b' then
      let (cs, w) := readBraces 1 cs' []
      return (cs, w, false)
    else if c = code '"' then do
      let (cs, w, subErr) ← readTo self (· = code '"') (cs'.length + 1) cs' [] false
      return (cs.tail, w, subErr)
    else readTo self isSep ((c :: cs').length + 1) (c :: cs') [] false

/-- The words of a command behind those in `words`, and `subErr`. -/
def readWords : Nat → List Code → List (List Code) → Script σ (List Code × List (List Code) × Bool)
  | 0, _, _ => stop .rounds
  | n + 1, cs, words =>
    match cs.dropWhile isBlank with
    | [] => return ([], words, false)
    | c :: cs =>
      if isEnd c then return (c :: cs, words, false)
      else if maxArgs ≤ words.length then return ((c :: cs).dropWhile (!isEnd ·), words, false)
      else do
        index words.length (maxArgs - 1)
        let (cs, w, subErr) ← readWord self (c :: cs)
        if subErr then return (cs, words, true) else readWords n cs (words ++ [w])

end words

/-! ## Commands -/

section commands
variable (fresh : List Code) (self : Nat → List Code → Script σ (Bool × List Code))

/-- `EvalExpr`; `gEvalHook` is `Eval`, and `val` is an ARRAY [0..ValMax] OF CHAR. -/
def expression (cs : List Code) : Script σ (Bool × Int) :=
  evalText State.valueOf (fun sub => self valMax (textOf sub)) fresh (2 * valMax + 2) (textOf cs)

def arg (i : Nat) : Script σ (List Code) := do return (← get).args.getD i []

def failed (msg : List Code) : Script σ Bool := do
  fail msg
  return false

/-- `IF NOT gHasErr THEN Fail(..) END; RETURN FALSE` -/
def failedUnlessErr (msg : List Code) : Script σ Bool := do
  if (← get).hasErr then return false else failed msg

/-- `IntToStr` -/
def intText (n : Int) : List Code := (if n < 0 then [code '-'] else []) ++ Digits.decimal n.natAbs

def satAdd (ev amt : Int) : Int :=
  if 0 ≤ amt then if maxInt - amt < ev then maxInt else ev + amt
  else if ev < minInt - amt then minInt else ev + amt

/-- `EvalRange(body, 0, Len(body), gResult)` -/
def block (body : List Code) : Script σ Bool := do
  let (ok, out) ← self valMax (textOf body)
  modify fun s => { s with result := out }
  return ok

def setCmd : Script σ Bool := do
  let argc := (← get).args.length
  if 3 ≤ argc then do
    setVar (← arg 1) (← arg 2)
    setResult (← arg 2)
    return true
  else if argc = 2 then
    match (← get).getVar (← arg 1) with
    | some v => do
      setResult v
      return true
    | none => failed (word ['n', 'o', ' ', 's', 'u', 'c', 'h', ' ', 'v', 'a', 'r', 'i', 'a', 'b', 'l', 'e'])
  else failed (word ['s', 'e', 't', ':', ' ', 'w', 'r', 'o', 'n', 'g', ' ', '#', ' ', 'a', 'r', 'g', 's'])

def putsCmd : Script σ Bool := do
  if 2 ≤ (← get).args.length then setResult (← arg 1) else setResult []
  return true

/-- What is left of `incr` when `ev` and `amt` are known. -/
def incrBy (name : List Code) (ev amt : Int) : Script σ Bool := do
  let m := intText (satAdd ev amt)
  setVar name m
  setResult m
  return true

def incrCmd : Script σ Bool := do
  let argc := (← get).args.length
  if argc < 2 then failed (word ['i', 'n', 'c', 'r', ':', ' ', 'w', 'r', 'o', 'n', 'g', ' ', '#', ' ', 'a', 'r', 'g', 's'])
  else do
    let name ← arg 1
    let body ← arg 2
    let v := ((← get).getVar name).getD [code '0']
    let (ok, ev) ← expression fresh self v
    if !ok then
      failedUnlessErr (word ['i', 'n', 'c', 'r', ':', ' ', 'n', 'o', 't', ' ', 'a', 'n', ' ', 'i', 'n', 't', 'e', 'g', 'e', 'r'])
    else if 3 ≤ argc then do
      let (ok, amt) ← expression fresh self body
      if !ok then failedUnlessErr (word ['i', 'n', 'c', 'r', ':', ' ', 'b', 'a', 'd', ' ', 'a', 'm', 'o', 'u', 'n', 't'])
      else incrBy name ev amt
    else incrBy name ev 1

/-- The arguments from 1 on, with blanks between them, as far as they fit into `m`. -/
def joined (args : List (List Code)) : List Code := ([blank].intercalate ((args.drop 1).map textOf)).take valMax

def exprCmd : Script σ Bool := do
  let m := joined (← get).args
  let (ok, ev) ← expression fresh self m
  if ok then do
    setResult (intText ev)
    return true
  else
    failedUnlessErr (word ['e', 'x', 'p', 'r', ':', ' ', 's', 'y', 'n', 't', 'a', 'x', ' ', 'e', 'r', 'r', 'o', 'r'])

def ifCmd : Script σ Bool := do
  let argc := (← get).args.length
  if argc < 3 then failed (word ['i', 'f', ':', ' ', 'w', 'r', 'o', 'n', 'g', ' ', '#', ' ', 'a', 'r', 'g', 's'])
  else do
    let cond ← arg 1
    let body ← arg 2
    let blk ← if argc = 4 then arg 3 else if 5 ≤ argc then arg 4 else pure []
    let (ok, ev) ← expression fresh self cond
    if !ok then failedUnlessErr (word ['i', 'f', ':', ' ', 'b', 'a', 'd', ' ', 'c', 'o', 'n', 'd', 'i', 't', 'i', 'o', 'n'])
    else if ev ≠ 0 then block self body
    else if 4 ≤ argc then block self blk
    else do
      setResult []
      return true

/-- The loop of `while`, with so many rounds before it is given up. -/
def whileLoop (cond body : List Code) : Nat → Script σ Bool
  | 0 =>
    failed (word ['w', 'h', 'i', 'l', 'e', ':', ' ', 't', 'o', 'o', ' ', 'm', 'a', 'n', 'y', ' ', 'i', 't', 'e', 'r', 'a',
      't', 'i', 'o', 'n', 's'])
  | r + 1 => do
    let (ok, ev) ← expression fresh self cond
    if !ok then
      failedUnlessErr (word ['w', 'h', 'i', 'l', 'e', ':', ' ', 'b', 'a', 'd', ' ', 'c', 'o', 'n', 'd', 'i', 't', 'i', 'o', 'n'])
    else if ev = 0 then do
      setResult []
      return true
    else do
      let ok ← block self body
      if !ok then return false else whileLoop cond body r

def whileCmd : Script σ Bool := do
  if (← get).args.length < 3 then
    failed (word ['w', 'h', 'i', 'l', 'e', ':', ' ', 'w', 'r', 'o', 'n', 'g', ' ', '#', ' ', 'a', 'r', 'g', 's'])
  else do
    let cond ← arg 1
    let body ← arg 2
    whileLoop fresh self cond body maxIters

def procCmd : Script σ Bool := do
  if (← get).args.length < 4 then
    failed (word ['p', 'r', 'o', 'c', ':', ' ', 'w', 'r', 'o', 'n', 'g', ' ', '#', ' ', 'a', 'r', 'g', 's'])
  else do
    defProc (← arg 1) (← arg 2) (← arg 3)
    setResult []
    return true

/-- The names of the parameters, so many at most. -/
def paramNames : Nat → List Code → List (List Code)
  | 0, _ => []
  | m + 1, cs =>
    match cs.dropWhile (· = blank) with
    | [] => []
    | c :: cs => ((c :: cs).takeWhile isNameCh).take nameMax :: paramNames m ((c :: cs).dropWhile isNameCh)

def setVars : List (List Code × List Code) → Script σ Unit
  | [] => return ()
  | (name, val) :: l => do
    setVar name val
    setVars l

/-- The parameters, with the arguments behind the name of the command. -/
def bindings (names : List (List Code)) (args : List (List Code)) : List (List Code × List Code) :=
  names.zipIdx.map fun p => (p.1, args.getD (p.2 + 1) [])

def callProc (p : UserProc) : Script σ Bool := do
  let parm ← scan argMax p.parm
  let names := paramNames maxParams parm
  let s ← get
  let saved := names.map fun name => (name, s.valueOf name)
  setVars (bindings names s.args)
  let ok ← block self (copy valMax p.body)
  setVars saved
  return ok

/-- A procedure of the script, a command of the host, or none. -/
def otherCmd : Script σ Bool := do
  let s ← get
  let name ← arg 0
  match lookup (textOf name) s.procs with
  | some p => callProc self p
  | none =>
    match lookup (textOf name) s.cmds with
    | some c => c.run self
    | none =>
      failed (word ['u', 'n', 'k', 'n', 'o', 'w', 'n', ' ', 'c', 'o', 'm', 'm', 'a', 'n', 'd', ':', ' '] ++ textOf name)

def dispatch : Script σ Bool := do
  if (← get).args.length = 0 then do
    setResult []
    return true
  else do
    let name := textOf (← arg 0)
    if name = word ['s', 'e', 't'] then setCmd
    else if name = word ['p', 'u', 't', 's'] then putsCmd
    else if name = word ['i', 'n', 'c', 'r'] then incrCmd fresh self
    else if name = word ['e', 'x', 'p', 'r'] then exprCmd fresh self
    else if name = word ['i', 'f'] then ifCmd fresh self
    else if name = word ['w', 'h', 'i', 'l', 'e'] then whileCmd fresh self
    else if name = word ['p', 'r', 'o', 'c'] then procCmd
    else otherCmd self

def leave : Script σ Unit := modify fun s => { s with depth := s.depth - 1 }

/-- `DEC(gDepth); Copy(out, gErrMsg); RETURN FALSE` -/
def giveUp (high : Nat) : Script σ (Bool × List Code) := do
  leave
  return (false, copy high (← get).errMsg)

/-- The loop of `EvalRange`; the last argument is `out`. -/
def commands (high : Nat) : Nat → List Code → List Code → Script σ (Bool × List Code)
  | 0, _, _ => stop .rounds
  | n + 1, cs, out =>
    match cs.dropWhile isSep with
    | [] => do
      leave
      return (true, out)
    | c :: cs =>
      if c = code '#' then commands high n ((c :: cs).dropWhile (· ≠ 10)) out
      else do
        let (cs, words, subErr) ← readWords self ((c :: cs).length + 1) (c :: cs) []
        if subErr then giveUp high
        else if words.length = 0 then commands high n cs out
        else do
          modify fun s => { s with args := words.map (copy argMax), hasErr := false, result := [] }
          let ok ← dispatch fresh self
          if !ok || (← get).hasErr then giveUp high
          else do
            let out := copy high (← get).result
            commands high n cs out

end commands

/-- `EvalRange`; the number bounds the nesting. -/
def evalRange (fresh : List Code) : Nat → Nat → List Code → Script σ (Bool × List Code)
  | 0, _, _ => stop .rounds
  | n + 1, high, cs => do
    modify fun s => { s with depth := s.depth + 1 }
    if depthMax < (← get).depth then do
      leave
      fail (word ['r', 'e', 'c', 'u', 'r', 's', 'i', 'o', 'n', ' ', 't', 'o', 'o', ' ', 'd', 'e', 'e', 'p'])
      return (false, copy high (← get).errMsg)
    else commands fresh (evalRange fresh n) high (cs.length + 1) cs []

/-- `Eval` of the text in `script`, where `out` is an ARRAY [0..high] OF CHAR. -/
def eval (fresh : List Code) (high : Nat) (script : List Code) : Script σ (Bool × List Code) :=
  evalRange fresh (depthMax + 1) high (textOf script)

end eval

end NewM2.Ui.Ptcl
