import Mathlib.Logic.Function.Basic

/-! # Conditional compilation (`newm2-lexer/src/preprocess.rs`)

`%IF` … `%END` over the symbols of an environment. Directives and dead branches become blanks, so that
every byte keeps its place. Error positions are left out. -/

namespace NewM2.Lexer

abbrev Bytes := List UInt8

/-- The bytes of an ASCII literal. -/
def ascii (s : String) : Bytes := s.toList.map fun c => c.toNat.toUInt8

def newline : UInt8 := 10
def space : UInt8 := 32
def percent : UInt8 := 37
def lparen : UInt8 := 40
def rparen : UInt8 := 41
def star : UInt8 := 42
def slash : UInt8 := 47
def less : UInt8 := 60
def greater : UInt8 := 62
def quote : UInt8 := 39
def doubleQuote : UInt8 := 34

def isAsciiUpper (c : UInt8) : Bool := 65 ≤ c && c ≤ 90
def isAsciiLower (c : UInt8) : Bool := 97 ≤ c && c ≤ 122
def isAsciiAlphabetic (c : UInt8) : Bool := isAsciiUpper c || isAsciiLower c
def isAsciiDigit (c : UInt8) : Bool := 48 ≤ c && c ≤ 57
def isWordByte (c : UInt8) : Bool := isAsciiAlphabetic c || isAsciiDigit c || c = 95
def toAsciiLower (c : UInt8) : UInt8 := if isAsciiUpper c then c + 32 else c

/-! ## The environment -/

structure Env where
  symbols : Bytes → Option Bytes

namespace Env

def empty : Env := ⟨fun _ => none⟩

def defineValue (env : Env) (name value : Bytes) : Env :=
  ⟨Function.update env.symbols name (some value)⟩

def defineBool (env : Env) (name : Bytes) (value : Bool) : Env :=
  env.defineValue name (if value then ascii "true" else ascii "false")

def lookupValue (env : Env) (name : Bytes) : Option Bytes := env.symbols name

end Env

def truthyValue (value : Bytes) : Bool :=
  !(value = [] || value = ascii "0") && value.map toAsciiLower != ascii "false"

/-- A symbol that is not defined is false. -/
def Env.lookup (env : Env) (name : Bytes) : Bool := (env.lookupValue name).any truthyValue

/-- `--adw-win64-unicode`, and what the driver starts from. -/
def Env.adwWin64Unicode : Env :=
  [("AMD64", "true"), ("IA32", "false"), ("Bits64", "true"), ("Bits32", "false"), ("WordSize", "64"),
    ("WINDOWS", "true"), ("Windows", "true"), ("UNIX", "false"), ("MAC", "false"), ("UNICODE", "true"),
    ("DLL", "false"), ("PROTECT", "true"), ("ALIGN8", "true"), ("InlineFpp", "false")].foldl
    (fun env (s : String × String) => env.defineValue (ascii s.1) (ascii s.2)) .empty

def Env.targetDefault : Env := .adwWin64Unicode

/-! ## Directive expressions

`%AND`, `%OR` and `%NOT` were translated to `&&`, `||` and `!` before. -/

inductive ExprValue
  | bool (value : Bool)
  | ident (name : Bytes)
  | text (value : Bytes)

namespace ExprValue

def asBool : ExprValue → Bool
  | bool value => value
  | ident name => truthyValue name
  | text value => truthyValue value

def asCompareText (env : Env) : ExprValue → Bytes
  | bool value => if value then ascii "true" else ascii "false"
  | ident name => (env.lookupValue name).getD name
  | text value => value

end ExprValue

/-- The rest of a text behind `s`. -/
def matches? (s src : Bytes) : Option Bytes :=
  if s.isPrefixOf src then some (src.drop s.length) else none

namespace ExprParser

def skipWs (src : Bytes) : Bytes :=
  src.dropWhile fun c => c = space || c = 9 || c = 13 || c = newline

def parseStringValue (delimiter : UInt8) (src : Bytes) : Except String (ExprValue × Bytes) :=
  match src.dropWhile (· != delimiter) with
  | [] => .error "unterminated string literal in directive expression"
  | _ :: rest => .ok (.text (src.takeWhile (· != delimiter)), rest)

def parseValue (src : Bytes) : Except String (ExprValue × Bytes) :=
  match skipWs src with
  | [] => .error "unexpected end of directive expression"
  | c :: rest =>
    if isAsciiAlphabetic c || c = 95 then
      .ok (.ident ((c :: rest).takeWhile isWordByte), (c :: rest).dropWhile isWordByte)
    else if isAsciiDigit c then
      .ok (.text ((c :: rest).takeWhile isWordByte), (c :: rest).dropWhile isWordByte)
    else if c = quote || c = doubleQuote then parseStringValue c rest
    else .error "unexpected character in directive expression"

def parseComparison (env : Env) (src : Bytes) : Except String (ExprValue × Bytes) := do
  let (left, src) ← parseValue src
  let src := skipWs src
  match matches? (ascii "=") src with
  | some src =>
    let (right, src) ← parseValue src
    return (.bool (left.asCompareText env = right.asCompareText env), src)
  | none =>
    match matches? (ascii "#") src with
    | some src =>
      let (right, src) ← parseValue src
      return (.bool (left.asCompareText env ≠ right.asCompareText env), src)
    | none =>
      match left with
      | .ident name => return (.bool (env.lookup name), src)
      | _ => return (left, src)

mutual
/-- `parse_or`, `parse_and`, `parse_unary` and `parse_primary`, at most `fuel` calls deep; a turn of a
loop counts as one. -/
def parseOr (env : Env) : Nat → Bytes → Except String (Bool × Bytes)
  | 0, _ => .error "directive expression nested too deeply"
  | fuel + 1, src => do
    let (left, src) ← parseAnd env fuel src
    parseOrRest env fuel left src
def parseOrRest (env : Env) : Nat → Bool → Bytes → Except String (Bool × Bytes)
  | 0, _, _ => .error "directive expression nested too deeply"
  | fuel + 1, left, src =>
    match matches? (ascii "||") (skipWs src) with
    | some src => do
      let (right, src) ← parseAnd env fuel src
      parseOrRest env fuel (left || right) src
    | none => .ok (left, skipWs src)
def parseAnd (env : Env) : Nat → Bytes → Except String (Bool × Bytes)
  | 0, _ => .error "directive expression nested too deeply"
  | fuel + 1, src => do
    let (left, src) ← parseUnary env fuel src
    parseAndRest env fuel left src
def parseAndRest (env : Env) : Nat → Bool → Bytes → Except String (Bool × Bytes)
  | 0, _, _ => .error "directive expression nested too deeply"
  | fuel + 1, left, src =>
    match matches? (ascii "&&") (skipWs src) with
    | some src => do
      let (right, src) ← parseUnary env fuel src
      parseAndRest env fuel (left && right) src
    | none => .ok (left, skipWs src)
def parseUnary (env : Env) : Nat → Bytes → Except String (Bool × Bytes)
  | 0, _ => .error "directive expression nested too deeply"
  | fuel + 1, src =>
    match matches? (ascii "!") (skipWs src) with
    | some src => do
      let (value, src) ← parseUnary env fuel src
      return (!value, src)
    | none => parsePrimary env fuel (skipWs src)
def parsePrimary (env : Env) : Nat → Bytes → Except String (Bool × Bytes)
  | 0, _ => .error "directive expression nested too deeply"
  | _ + 1, [] => .error "unexpected end of directive expression"
  | fuel + 1, c :: rest =>
    if c = lparen then do
      let (value, src) ← parseOr env fuel rest
      match skipWs src with
      | c :: src => if c = rparen then return (value, src) else .error "expected ')' in directive expression"
      | [] => .error "expected ')' in directive expression"
    else do
      let (value, src) ← parseComparison env (c :: rest)
      return (value.asBool, src)
end

end ExprParser

/-- Every level of an expression takes at most four calls and leaves a shorter text. -/
def evalExpr (env : Env) (src : Bytes) : Except String Bool := do
  let (value, rest) ← ExprParser.parseOr env (4 * (src.length + 2)) src
  if ExprParser.skipWs rest = [] then return value
  else .error "trailing garbage in directive expression"

/-! ## The pass over the text -/

/-- The code points that `trim` takes off, in UTF-8. -/
def whitespace : List Bytes :=
  [[9], [10], [11], [12], [13], [32], [0xC2, 0x85], [0xC2, 0xA0], [0xE1, 0x9A, 0x80], [0xE2, 0x80, 0x80],
    [0xE2, 0x80, 0x81], [0xE2, 0x80, 0x82], [0xE2, 0x80, 0x83], [0xE2, 0x80, 0x84], [0xE2, 0x80, 0x85],
    [0xE2, 0x80, 0x86], [0xE2, 0x80, 0x87], [0xE2, 0x80, 0x88], [0xE2, 0x80, 0x89], [0xE2, 0x80, 0x8A],
    [0xE2, 0x80, 0xA8], [0xE2, 0x80, 0xA9], [0xE2, 0x80, 0xAF], [0xE2, 0x81, 0x9F], [0xE3, 0x80, 0x80]]

/-- Take off every leading `sp` of `sps`; `skip` bytes of the last one are still to go. -/
def trimStartOf (sps : List Bytes) : Nat → Bytes → Bytes
  | _, [] => []
  | skip + 1, _ :: text => trimStartOf sps skip text
  | 0, c :: text =>
    match sps.find? (·.isPrefixOf (c :: text)) with
    | some sp => trimStartOf sps (sp.length - 1) text
    | none => c :: text

def trim (text : Bytes) : Bytes :=
  (trimStartOf (whitespace.map List.reverse) 0 (trimStartOf whitespace 0 text).reverse).reverse

/-- One `%IF` … `%END` block. -/
structure BranchState where
  parentActive : Bool
  anyTaken : Bool
  currentTake : Bool
deriving Repr, DecidableEq

/-- The innermost block is the head of `stack`. -/
structure Preproc where
  out : Bytes
  env : Env
  stack : List BranchState

namespace Preproc

def active (p : Preproc) : Bool := p.stack.all (·.currentTake)

def blank (c : UInt8) : UInt8 := if c = newline then newline else space

def emitByte : Preproc → UInt8 → Preproc
  | ⟨out, env, stack⟩, c => ⟨out ++ [if stack.all (·.currentTake) then c else blank c], env, stack⟩

def eraseBytes : Preproc → Bytes → Preproc
  | ⟨out, env, stack⟩, cs => ⟨out ++ cs.map blank, env, stack⟩

def applyVersionNames (p : Preproc) (names : Bytes) : Preproc :=
  let define (env : Env) (name : Bytes) := if name = [] then env else env.defineBool name true
  { p with env := ((names.splitOn 44).map trim).foldl define p.env }

/-- Of the pragmas with a version only `VERSION:` has an effect. -/
def applyPragmaBody (p : Preproc) (body : Bytes) : Preproc :=
  match matches? (ascii "/VERSION:") (trim body) with
  | some names => p.applyVersionNames names
  | none => p

def copyLineComment : Preproc → Bytes → Preproc × Bytes
  | p, [] => (p, [])
  | p, c :: cs => if c = newline then (p.emitByte c, cs) else copyLineComment (p.emitByte c) cs

/-- A string literal behind its opening quote. -/
def copyString (delimiter : UInt8) : Preproc → Bytes → Except String (Preproc × Bytes)
  | _, [] => .error "unterminated string literal"
  | p, c :: cs =>
    if c = newline then .error "unterminated string literal"
    else if c = delimiter then .ok (p.emitByte c, cs)
    else copyString delimiter (p.emitByte c) cs

/-- A pragma behind its `<*`, of which `body` was copied. -/
def copyPragma : Bytes → Preproc → Bytes → Except String (Preproc × Bytes)
  | _, _, [] => .error "unterminated pragma"
  | body, p, c :: cs =>
    if c = star ∧ cs.head? = some greater then
      let p := if p.active then p.applyPragmaBody body else p
      .ok ((p.emitByte star).emitByte greater, cs.tail)
    else copyPragma (body ++ [c]) (p.emitByte c) cs

/-- Behind a `<*` in a comment: the pragma ends before the comment does. -/
def pragmaClosesWithinComment : Bytes → Bool
  | c :: d :: cs =>
    if c = star ∧ d = greater then true
    else if c = star ∧ d = rparen then false
    else pragmaClosesWithinComment (d :: cs)
  | _ => false

/-- A block comment behind its `(*`, nested `depth` deep. The next `skip` bytes were copied. -/
def copyBlockComment : Nat → Nat → Preproc → Bytes → Except String (Preproc × Bytes)
  | _, _, _, [] => .error "unterminated block comment"
  | depth, skip + 1, p, _ :: cs => copyBlockComment depth skip p cs
  | depth, 0, p, c :: cs =>
    if c = lparen ∧ cs.head? = some star then
      copyBlockComment (depth + 1) 1 ((p.emitByte c).emitByte star) cs
    else if c = less ∧ cs.head? = some star then
      if pragmaClosesWithinComment cs.tail then do
        let (p, rest) ← copyPragma [] ((p.emitByte c).emitByte star) cs.tail
        copyBlockComment depth (cs.length - rest.length) p cs
      else copyBlockComment depth 0 (p.emitByte c) cs
    else if c = star ∧ cs.head? = some rparen then
      let p := (p.emitByte c).emitByte rparen
      if depth = 1 then .ok (p, cs.tail) else copyBlockComment (depth - 1) 1 p cs
    else copyBlockComment depth 0 (p.emitByte c) cs

/-- `c as char`, in UTF-8. -/
def latin1 (c : UInt8) : Bytes :=
  if c < 128 then [c] else [(0xC0 : UInt8) ||| (c >>> 6), (0x80 : UInt8) ||| (c &&& 0x3F)]

def keywordText (kw : Bytes) : String := String.ofList (kw.map fun c => Char.ofNat c.toNat)

/-- Read a condition up to its `%THEN`. -/
def readExprThen : Nat → Bytes → Preproc → Bytes → Except String (Bool × Preproc × Bytes)
  | _, _, _, [] => .error "unterminated %IF expression (missing %THEN)"
  | skip + 1, buf, p, _ :: cs => readExprThen skip buf p cs
  | 0, buf, p, c :: cs =>
    if c = percent then
      let kw := cs.takeWhile isAsciiAlphabetic
      let p := p.eraseBytes (c :: kw)
      if kw = ascii "THEN" then do
        let value ← evalExpr p.env buf
        return (value, p, cs.drop kw.length)
      else if kw = ascii "AND" then readExprThen kw.length (buf ++ ascii " && ") p cs
      else if kw = ascii "OR" then readExprThen kw.length (buf ++ ascii " || ") p cs
      else if kw = ascii "NOT" then readExprThen kw.length (buf ++ ascii " ! ") p cs
      else .error ("unexpected %" ++ keywordText kw ++ " in %IF expression")
    else readExprThen 0 (buf ++ latin1 c) (p.eraseBytes [c]) cs

/-- A directive behind its `%`. -/
def handleDirective (p : Preproc) (cs : Bytes) : Except String (Preproc × Bytes) :=
  let kw := cs.takeWhile isAsciiAlphabetic
  let cs := cs.drop kw.length
  let p := p.eraseBytes (percent :: kw)
  if kw = ascii "IF" then do
    let (cond, p, cs) ← readExprThen 0 [] p cs
    let take := p.active && cond
    return ({ p with stack := ⟨p.active, take, take⟩ :: p.stack }, cs)
  else if kw = ascii "ELSIF" then
    match p.stack with
    | [] => .error "%ELSIF outside of %IF"
    | top :: stack => do
      let (cond, p, cs) ← readExprThen 0 [] p cs
      let take := top.parentActive && !top.anyTaken && cond
      return ({ p with stack := ⟨top.parentActive, top.anyTaken || take, take⟩ :: stack }, cs)
  else if kw = ascii "ELSE" then
    match p.stack with
    | [] => .error "%ELSE outside of %IF"
    | top :: stack =>
      let take := top.parentActive && !top.anyTaken
      .ok ({ p with stack := ⟨top.parentActive, top.anyTaken || take, take⟩ :: stack }, cs)
  else if kw = ascii "END" then
    match p.stack with
    | [] => .error "%END outside of %IF"
    | _ :: stack => .ok ({ p with stack := stack }, cs)
  else .error ("unknown directive %" ++ keywordText kw)

/-- The next `skip` bytes were dealt with. -/
def run : Nat → Preproc → Bytes → Except String Preproc
  | _, p, [] =>
    if p.stack = [] then .ok p else .error "unterminated %IF directive (missing %END)"
  | skip + 1, p, _ :: cs => run skip p cs
  | 0, p, c :: cs =>
    if c = lparen ∧ cs.head? = some star then do
      let (p, rest) ← copyBlockComment 1 0 ((p.emitByte c).emitByte star) cs.tail
      run (cs.length - rest.length) p cs
    else if c = slash ∧ cs.head? = some slash then
      let (p, rest) := copyLineComment p (c :: cs)
      run (cs.length - rest.length) p cs
    else if c = doubleQuote ∨ c = quote then do
      let (p, rest) ← copyString c (p.emitByte c) cs
      run (cs.length - rest.length) p cs
    else if c = less ∧ cs.head? = some star then do
      let (p, rest) ← copyPragma [] ((p.emitByte c).emitByte star) cs.tail
      run (cs.length - rest.length) p cs
    else if c = percent then do
      let (p, rest) ← handleDirective p cs
      run (cs.length - rest.length) p cs
    else run 0 (p.emitByte c) cs

end Preproc

/-- A text without a `%` is taken as it is. -/
def preprocess (src : Bytes) (env : Env) : Except String Bytes :=
  if percent ∉ src then .ok src
  else do
    let p ← Preproc.run 0 ⟨[], env, []⟩ src
    return p.out

example : (preprocess (ascii "%IF A %OR %NOT (B = 'x') %THEN p %ELSE q %END") .empty).toOption =
    some (ascii "                               p             ") := by
  decide +kernel

theorem bind_eq_ok {ε α β : Type} {x : Except ε α} {f : α → Except ε β} {b : β} (h : x >>= f = .ok b) :
    ∃ a, x = .ok a ∧ f a = .ok b := by
  cases x with
  | error e => cases h
  | ok a => exact ⟨a, rfl, h⟩

end NewM2.Lexer
