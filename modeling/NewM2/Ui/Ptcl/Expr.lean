import Mathlib
import NewM2.Lib.Chars

/-!
# Expressions of the script language (`library/uimod/Ptcl.mod`)

`evalExpr` replaces the variables and the commands in an expression and evaluates the result while it parses it. The
result stands in the array `gEx`; what is behind its NUL is not defined. INTEGER arithmetic is wrapped around, but
for the quotient that does not fit, which stops the program. -/

namespace NewM2.Ui.Ptcl

def valMax : Nat := 1023

def nameMax : Nat := 47

inductive Stop
  | indexException
  /-- The quotient of MIN(INTEGER) and -1. -/
  | divOverflow
  /-- The recursion does not come to an end. -/
  | rounds
deriving DecidableEq

/-- MIN(INTEGER) -/
def minInt : Int := -2 ^ 63

/-- MAX(INTEGER) -/
def maxInt : Int := 2 ^ 63 - 1

/-- An INTEGER that is wrapped around. -/
def norm (x : Int) : Int := x.bmod (2 ^ 64)

def isDigit (c : Code) : Bool := code '0' ≤ c ∧ c ≤ code '9'

def digit (c : Code) : Int := c.toNat - 48

def blank : Code := code ' '

/-! ## Operators -/

/-- The operators, in the order of their `opc`. -/
inductive Op
  | or | and | eq | ne | lt | le | gt | ge | add | sub | mul | div | mod
deriving DecidableEq

namespace Op

def prec : Op → Nat
  | or => 1
  | and => 2
  | eq | ne => 3
  | lt | le | gt | ge => 4
  | add | sub => 5
  | mul | div | mod => 6

/-- `oplen` -/
def length : Op → Nat
  | or | and | eq | ne | le | ge => 2
  | lt | gt | add | sub | mul | div | mod => 1

/-- The operator that `c` begins, with `c2` behind it. -/
def ofChars (c c2 : Code) : Option Op :=
  if c = code '|' ∧ c2 = code '|' then some or
  else if c = code '&' ∧ c2 = code '&' then some and
  else if c = code '=' ∧ c2 = code '=' then some eq
  else if c = code '!' ∧ c2 = code '=' then some ne
  else if c = code '<' ∧ c2 = code '=' then some le
  else if c = code '>' ∧ c2 = code '=' then some ge
  else if c = code '<' then some lt
  else if c = code '>' then some gt
  else if c = code '+' then some add
  else if c = code '-' then some sub
  else if c = code '*' then some mul
  else if c = code '/' then some div
  else if c = code '%' then some mod
  else none

end Op

def truth (p : Prop) [Decidable p] : Int := if p then 1 else 0

/-- The new `lhs`, and whether it is an error. -/
def Op.apply (op : Op) (lhs rhs : Int) : Except Stop (Int × Bool) :=
  match op with
  | or => .ok (truth (lhs ≠ 0 ∨ rhs ≠ 0), false)
  | and => .ok (truth (lhs ≠ 0 ∧ rhs ≠ 0), false)
  | eq => .ok (truth (lhs = rhs), false)
  | ne => .ok (truth (lhs ≠ rhs), false)
  | lt => .ok (truth (lhs < rhs), false)
  | le => .ok (truth (lhs ≤ rhs), false)
  | gt => .ok (truth (rhs < lhs), false)
  | ge => .ok (truth (rhs ≤ lhs), false)
  | add => .ok (norm (lhs + rhs), false)
  | sub => .ok (norm (lhs - rhs), false)
  | mul => .ok (norm (lhs * rhs), false)
  | div =>
    if rhs = 0 then .ok (lhs, true)
    else if lhs = minInt ∧ rhs = -1 then .error .divOverflow
    else .ok (lhs.fdiv rhs, false)
  | mod =>
    if rhs = 0 then .ok (lhs, true)
    else if lhs = minInt ∧ rhs = -1 then .error .divOverflow
    else .ok (lhs.fmod rhs, false)

/-! ## The parser -/

/-- `gExPos` and `gExErr` -/
structure Cursor where
  pos : Nat
  err : Bool
deriving DecidableEq

abbrev Parser (β : Type) := StateT Cursor (Except Stop) β

section parser
variable (gEx : List Code)

/-- `gEx[i]` -/
def charAt (i : Nat) : Except Stop Code := if i ≤ valMax then .ok (gEx.getD i nul) else .error .indexException

/-- `gEx[gExPos]` -/
def here : Parser Code := fun w => do
  let c ← charAt gEx w.pos
  .ok (c, w)

def advance (n : Nat) : Parser Unit := fun w => .ok ((), { w with pos := w.pos + n })

def setErr : Parser Unit := fun w => .ok ((), { w with err := true })

/-- `WHILE gEx[gExPos] = ' ' DO INC(gExPos) END` -/
def skipBlanks (w : Cursor) : Except Stop (Unit × Cursor) :=
  if w.pos ≤ valMax then
    if gEx.getD w.pos nul = blank then skipBlanks { w with pos := w.pos + 1 } else .ok ((), w)
  else .error .indexException
termination_by valMax + 1 - w.pos

/-- One more digit; a number that is too large is MAX(INTEGER). -/
def step (v d : Int) : Int := if (maxInt - d) / 10 < v then maxInt else v * 10 + d

/-- The loop over the digits. -/
def digits (v : Int) (w : Cursor) : Except Stop (Int × Cursor) :=
  if w.pos ≤ valMax then
    if isDigit (gEx.getD w.pos nul) then digits (step v (digit (gEx.getD w.pos nul))) { w with pos := w.pos + 1 }
    else .ok (v, w)
  else .error .indexException
termination_by valMax + 1 - w.pos

/-- The operator at the cursor. -/
def operatorHere : Parser (Option Op) := fun w => do
  let c ← charAt gEx w.pos
  let c2 ← if w.pos < valMax then charAt gEx (w.pos + 1) else .ok nul
  .ok (Op.ofChars c c2, w)

def applyOp (op : Op) (lhs rhs : Int) : Parser Int := fun w => do
  let (v, err) ← op.apply lhs rhs
  .ok (v, { w with err := w.err || err })

mutual

/-- `ParseBin`; the first number bounds the depth of the recursion. -/
def parseBin : Nat → Nat → Parser Int
  | 0, _ => fun _ => .error .rounds
  | n + 1, minPrec => do
    let lhs ← parseAtom n
    parseLoop n minPrec lhs

/-- The loop of `ParseBin`. -/
def parseLoop : Nat → Nat → Int → Parser Int
  | 0, _, _ => fun _ => .error .rounds
  | n + 1, minPrec, lhs => do
    if (← get).err then return 0
    else do
      skipBlanks gEx
      match ← operatorHere gEx with
      | none => return lhs
      | some op =>
        if op.prec < minPrec then return lhs
        else do
          advance op.length
          let rhs ← parseBin n (op.prec + 1)
          let lhs ← applyOp op lhs rhs
          parseLoop n minPrec lhs

def parseAtom : Nat → Parser Int
  | 0 => fun _ => .error .rounds
  | n + 1 => do
    skipBlanks gEx
    let c ← here gEx
    if c = code '-' then do
      advance 1
      let v ← parseAtom n
      return norm (-v)
    else if c = code '!' then do
      advance 1
      let v ← parseAtom n
      return truth (v = 0)
    else if c = code '(' then do
      advance 1
      let v ← parseBin n 0
      skipBlanks gEx
      let c ← here gEx
      if c = code ')' then advance 1 else setErr
      return v
    else if isDigit c then digits gEx 0
    else do
      setErr
      return 0

end

/-- From `gExPos := 0` on: whether there is no error, and `result`. -/
def parse (n : Nat) (err : Bool) : Except Stop (Bool × Int) := do
  let (result, w) ← parseBin gEx n 0 ⟨0, err⟩
  let ((), w) ← skipBlanks gEx w
  let c ← charAt gEx w.pos
  return (!(w.err || c ≠ nul), result)

end parser

/-! ## Substitution -/

def isNameCh (c : Code) : Bool :=
  (code 'A' ≤ c ∧ c ≤ code 'Z') ∨ (code 'a' ≤ c ∧ c ≤ code 'z') ∨ (code '0' ≤ c ∧ c ≤ code '9') ∨ c = code '_'

/-- The characters before the NUL. -/
def textOf (cs : List Code) : List Code := cs.takeWhile (· ≠ nul)

/-- The loop up to the NUL of an ARRAY [0..high] OF CHAR. -/
def scan (high : Nat) (cs : List Code) : Except Stop (List Code) :=
  if (textOf cs).length ≤ high then .ok (textOf cs) else .error .indexException

/-- `IF dp < ValMax-1 THEN gEx[dp] := c; INC(dp) END`, with the characters that are written. -/
def push (acc : List Code) (c : Code) : List Code := if acc.length < valMax - 1 then acc ++ [c] else acc

/-- The characters of a command, up to its closing bracket, and those behind that. -/
def bracket : Nat → List Code → List Code × List Code
  | _, [] => ([], [])
  | brk, c :: cs =>
    if c = code '[' then
      let (inner, rest) := bracket (brk + 1) cs
      (c :: inner, rest)
    else if c = code ']' then
      if brk ≤ 1 then ([], cs)
      else
        let (inner, rest) := bracket (brk - 1) cs
        (c :: inner, rest)
    else
      let (inner, rest) := bracket brk cs
      (c :: inner, rest)

theorem length_bracket_le (brk : Nat) (cs : List Code) : (bracket brk cs).2.length ≤ cs.length := by
  induction cs generalizing brk with
  | nil => exact le_rfl
  | cons c cs ih =>
    have hcons : ∀ m, (bracket m cs).2.length ≤ (c :: cs).length := fun m => (ih m).trans (Nat.le_succ _)
    rw [bracket]
    split_ifs
    · exact hcons _
    · exact Nat.le_succ _
    · exact hcons _
    · exact hcons _

section substitution
variable {σ : Type} (getVar : σ → List Code → List Code) (hook : List Code → StateT σ (Except Stop) (Bool × List Code))

/-- The first loop of `EvalExpr`, over the characters of `e` before its NUL: what is written to `gEx`, and `gExErr`. -/
def substitute : List Code → List Code → Bool → StateT σ (Except Stop) (List Code × Bool)
  | [], acc, err => return (acc, err)
  | c :: cs, acc, err =>
    if c = code '$' then do
      let name := (cs.takeWhile isNameCh).take nameMax
      let val ← scan valMax (getVar (← get) name)
      substitute (cs.dropWhile isNameCh) (val.foldl push acc) err
    else if c = code '[' then do
      let (ok, val) ← hook ((bracket 1 cs).1.take valMax)
      if ok then do
        let val ← scan valMax val
        substitute (bracket 1 cs).2 (val.foldl push acc) err
      else substitute (bracket 1 cs).2 acc true
    else substitute cs (push acc c) err
termination_by cs => cs.length
decreasing_by
  · exact Nat.lt_succ_of_le (List.dropWhile_suffix _).length_le
  · exact Nat.lt_succ_of_le (length_bracket_le 1 cs)
  · exact Nat.lt_succ_of_le (length_bracket_le 1 cs)
  · exact Nat.lt_succ_self _

/-- `gEx`, with `fresh` in it before. -/
def fill (fresh acc : List Code) : List Code := acc ++ nul :: fresh.drop (acc.length + 1)

/-- `EvalExpr` on the characters of `e` before its NUL: the result, and `result`. -/
def evalText (fresh : List Code) (n : Nat) (cs : List Code) : StateT σ (Except Stop) (Bool × Int) := do
  let (acc, err) ← substitute getVar hook cs [] false
  fun s => do
    let r ← parse (fill fresh acc) n err
    .ok (r, s)

def evalExpr (fresh : List Code) (n : Nat) (e : Chars) : StateT σ (Except Stop) (Bool × Int) :=
  evalText getVar hook fresh n e.text

end substitution

end NewM2.Ui.Ptcl
