import Mathlib
import NewM2.Lib.Utf8
import NewM2.Lexer.Preprocess
import NewM2.Lexer.Token

/-!
# The lexer (`newm2-lexer/src/lib.rs`)

A cursor stands in the text with the rest of the bytes before it. A scanner looks at that rest and
gives the kind of the token and the bytes it takes, over which the cursor then advances. A failed
`unwrap` is `Failure.panic`. `tokenize` asks for one token after another; `Failure.timeout` would say
that it asks for more than there are bytes.
-/

namespace NewM2.Lexer
open Utf8

/-- The byte of an ASCII character. -/
def byte (c : Char) : UInt8 := c.toNat.toUInt8

/-! ## Positions -/

structure SourcePosition where
  line : Nat
  column : Nat
  offset : Nat
deriving Repr, DecidableEq

def SourcePosition.start : SourcePosition := ⟨1, 1, 0⟩

/-- Behind the byte `c`. -/
def SourcePosition.next (p : SourcePosition) (c : UInt8) : SourcePosition :=
  if c = newline then ⟨p.line + 1, 1, p.offset + 1⟩ else ⟨p.line, p.column + 1, p.offset + 1⟩

structure Span where
  start : SourcePosition
  stop : SourcePosition
deriving Repr, DecidableEq

structure Token where
  kind : TokenKind
  span : Span
deriving DecidableEq

/-- `LexError`, or an outcome no text should have. -/
inductive Failure
  | error (message : String) (position : SourcePosition)
  | panic
  | timeout
deriving Repr, DecidableEq

/-- `Lexer`: what is left of the text, and where that begins. -/
structure Cursor where
  rest : Bytes
  pos : SourcePosition

/-- `advance`, `n` times. -/
def Cursor.advance (c : Cursor) (n : Nat) : Cursor :=
  ⟨c.rest.drop n, (c.rest.take n).foldl SourcePosition.next c.pos⟩

/-- `std::str::from_utf8(..).unwrap()`. -/
def unwrapText (b : Bytes) : Except Failure String :=
  match decode b with
  | some s => .ok s
  | none => .error .panic

/-- `std::str::from_utf8(..).unwrap_or("")`. -/
def textOrEmpty (b : Bytes) : String := (decode b).getD ""

/-! ## Space and comments -/

def isSpace (c : UInt8) : Bool := c = space || c = 9 || c = 13 || c = newline

/-- Behind the `(*` of a comment, nested `depth` deep; the next `skip` bytes were looked at. What is
left behind the end of the comment, if it has one. -/
def skipBlockComment : Nat → Nat → Bytes → Option Bytes
  | _, _, [] => none
  | depth, skip + 1, _ :: cs => skipBlockComment depth skip cs
  | depth, 0, c :: cs =>
    if c = lparen ∧ cs.head? = some star then skipBlockComment (depth + 1) 1 cs
    else if c = star ∧ cs.head? = some greater then skipBlockComment depth 0 cs
    else if c = star ∧ cs.head? = some rparen then
      if depth = 1 then some cs.tail else skipBlockComment (depth - 1) 1 cs
    else skipBlockComment depth 0 cs

/-- The next `skip` bytes were dealt with. -/
def skipTrivia : Nat → SourcePosition → Bytes → Except Failure Cursor
  | _, pos, [] => .ok ⟨[], pos⟩
  | skip + 1, pos, c :: cs => skipTrivia skip (pos.next c) cs
  | 0, pos, c :: cs =>
    if isSpace c then skipTrivia 0 (pos.next c) cs
    else if c = lparen ∧ cs.head? = some star then
      match skipBlockComment 1 0 cs.tail with
      | none => .error (.error "unterminated block comment" pos)
      | some rest => skipTrivia (cs.length - rest.length) (pos.next c) cs
    else if c = slash ∧ cs.head? = some slash then
      skipTrivia (cs.takeWhile (· != newline)).length (pos.next c) cs
    else .ok ⟨c :: cs, pos⟩

/-! ## Scanners -/

def isIdentStart (c : UInt8) : Bool := isAsciiAlphabetic c || c = 95

def isHexDigit (c : UInt8) : Bool :=
  isAsciiDigit c || (byte 'A' ≤ c && c ≤ byte 'F') || (byte 'a' ≤ c && c ≤ byte 'f')

/-- The bytes before the first `*>`. -/
def pragmaBody : Bytes → Option Bytes
  | [] => none
  | c :: cs => if c = star ∧ cs.head? = some greater then some [] else (pragmaBody cs).map (c :: ·)

/-- `lex_pragma`, behind the `<*`. -/
def lexPragma (start : SourcePosition) (src : Bytes) : Except Failure (TokenKind × Nat) :=
  match pragmaBody src with
  | none => .error (.error "unterminated pragma" start)
  | some body => .ok (.pragma (textOrEmpty body), body.length + 4)

def lexIdent (src : Bytes) : Except Failure (TokenKind × Nat) := do
  let name := src.takeWhile isWordByte
  let s ← unwrapText name
  match Keyword.fromStr s with
  | some k => return (.keyword k, name.length)
  | none => return (.ident s, name.length)

/-- The bytes of the line before the next `delimiter`. -/
def stringBody (delimiter : UInt8) : Bytes → Option Bytes
  | [] => none
  | c :: cs =>
    if c = newline then none
    else if c = delimiter then some []
    else (stringBody delimiter cs).map (c :: ·)

/-- The suffix behind a closing quote, and its length. -/
def literalFlavor : Bytes → LiteralFlavor × Nat
  | [] => (.default, 0)
  | c :: _ =>
    if c = byte 'U' ∨ c = byte 'u' then (.uchar, 1)
    else if c = byte 'A' ∨ c = byte 'a' then (.achar, 1)
    else (.default, 0)

/-- `lex_string`, behind the opening quote. -/
def lexString (start : SourcePosition) (delimiter : UInt8) (src : Bytes) :
    Except Failure (TokenKind × Nat) :=
  match stringBody delimiter src with
  | none => .error (.error "unterminated string literal" start)
  | some body =>
    let (flavor, n) := literalFlavor (src.drop (body.length + 1))
    let value := textOrEmpty body
    match value.toList with
    | [c] => .ok (.char c flavor, body.length + 2 + n)
    | _ => .ok (.string value flavor, body.length + 2 + n)

/-! ### Numbers -/

def digitValue (c : UInt8) : Nat :=
  if isAsciiDigit c then c.toNat - 48 else if isAsciiUpper c then c.toNat - 55 else c.toNat - 87

/-- The number that digits denote. -/
def ofDigits (radix : Nat) (digits : Bytes) : Nat :=
  digits.foldl (fun n d => n * radix + digitValue d) 0

/-- `from_str_radix` of an unsigned type with numbers below `bound`, on digits of the radix. -/
def fromStrRadix (bound radix : Nat) (digits : Bytes) : Option Nat :=
  if ofDigits radix digits < bound then some (ofDigits radix digits) else none

/-- A u64 literal, or the complaint that it is too large. -/
def parseU64 (start : SourcePosition) (what : String) (radix : Nat) (digits : Bytes) (n : Nat) :
    Except Failure (TokenKind × Nat) :=
  match fromStrRadix (2 ^ 64) radix digits with
  | some value => .ok (.integer value.toUInt64, n)
  | none => .error (.error (what ++ ": number too large to fit in target type") start)

/-- The length of a scale factor, and whether it has a digit. -/
def scaleFactor : Bytes → Nat × Bool
  | [] => (0, true)
  | c :: cs =>
    if c = byte 'E' ∨ c = byte 'e' then
      let sign := if cs.head? = some (byte '+') ∨ cs.head? = some (byte '-') then 1 else 0
      let digits := ((cs.drop sign).takeWhile isAsciiDigit).length
      (1 + sign + digits, digits != 0)
    else (0, true)

/-- A real literal with the integer part `run`; `frac` is what stands behind its point. -/
def lexReal (start : SourcePosition) (src run frac : Bytes) : Except Failure (TokenKind × Nat) :=
  if !run.all isAsciiDigit then
    .error (.error "real literal integer part must be decimal" start)
  else do
    let digits := (frac.takeWhile isAsciiDigit).length
    let (scale, parses) := scaleFactor (frac.drop digits)
    let n := run.length + 1 + digits + scale
    let s ← unwrapText (src.take n)
    if parses then return (.real s, n)
    else .error (.error ("invalid real literal '" ++ s ++ "': invalid float literal") start)

/-- A number with the letter B, C or A at its end, which is the last byte of `run`. -/
def lexSuffixed (start : SourcePosition) (run : Bytes) (text : String) (kind : Char) :
    Except Failure (TokenKind × Nat) :=
  let digits := run.dropLast
  if kind = 'A' then
    if digits = [] then .error (.error "empty binary literal" start)
    else if !digits.all (fun b => b = byte '0' || b = byte '1') then
      .error (.error ("binary literal '" ++ text ++ "' contains a non-binary digit") start)
    else parseU64 start ("invalid binary literal '" ++ text ++ "'") 2 digits run.length
  else
    let name := if kind = 'B' then "octal" else "char"
    if !digits.all (fun b => byte '0' ≤ b && b ≤ byte '7') then
      .error (.error (name ++ " literal '" ++ text ++ "' contains a non-octal digit") start)
    else if digits = [] then .error (.error ("empty " ++ name ++ " literal") start)
    else if kind = 'B' then
      parseU64 start ("invalid octal literal '" ++ text ++ "'") 8 digits run.length
    else
      match fromStrRadix (2 ^ 32) 8 digits with
      | none =>
        .error (.error ("invalid char literal '" ++ text ++
          "': number too large to fit in target type") start)
      | some code =>
        if code.isValidChar then .ok (.char (Char.ofNat code) .default, run.length)
        else
          .error (.error ("invalid char code 0o" ++ textOrEmpty digits ++ " = " ++ toString code) start)

/-- The literal kind that the last byte of a run of hexadecimal digits may say. -/
def suffixKind : Option UInt8 → Option Char
  | none => none
  | some c =>
    if c = byte 'B' ∨ c = byte 'b' then some 'B'
    else if c = byte 'C' ∨ c = byte 'c' then some 'C'
    else if c = byte 'A' ∨ c = byte 'a' then some 'A'
    else none

/-- `lex_number`: all hexadecimal digits belong to the number, and what follows says what they are. -/
def lexNumber (start : SourcePosition) (src : Bytes) : Except Failure (TokenKind × Nat) := do
  let run := src.takeWhile isHexDigit
  let text ← unwrapText run
  let after := src.drop run.length
  if after.head? = some (byte 'H') ∨ after.head? = some (byte 'h') then
    let suffix := textOrEmpty (after.take 1)
    parseU64 start ("invalid hex literal '" ++ text ++ suffix ++ "'") 16 run (run.length + 1)
  else if after.head? = some (byte '.') ∧ after.tail.head? ≠ some (byte '.') then
    lexReal start src run after.tail
  else
    match suffixKind run.getLast? with
    | some kind => lexSuffixed start run text kind
    | none =>
      if run.all isAsciiDigit then
        parseU64 start ("invalid integer '" ++ text ++ "'") 10 run run.length
      else
        .error (.error ("numeric literal '" ++ text ++
          "' has hex digits but no 'H', 'B', or 'C' suffix") start)

/-! ### Operators -/

/-- The operators of one character that begin no longer one. -/
def punctuation : List (Char × TokenKind) :=
  [('+', .plus), ('-', .minus), ('*', .star), ('/', .slash), ('&', .amp), ('~', .tilde), ('=', .equal),
    ('#', .hash), (',', .comma), (';', .semicolon), ('(', .lParen), (')', .rParen), ('[', .lBracket),
    (']', .rBracket), ('\x7b', .lBrace), ('\x7d', .rBrace), ('|', .pipe), ('!', .pipe), ('^', .caret),
    ('@', .at_)]

/-- A two-digit hexadecimal numeral without a leading zero. -/
def hexByte (c : UInt8) : String := String.ofList (Nat.toDigits 16 c.toNat)

/-- `format!("{:?}", c as char)`. -/
def debugChar (c : UInt8) : String :=
  let body :=
    if c = 0 then "\\0" else if c = 9 then "\\t" else if c = 13 then "\\r" else if c = 10 then "\\n"
    else if c = quote then "\\'" else if c = byte '\\' then "\\\\"
    else if c < 32 ∨ 127 ≤ c ∧ c < 160 ∨ c = 173 then "\\u\x7b" ++ hexByte c ++ "\x7d"
    else String.ofList [Char.ofNat c.toNat]
  "'" ++ body ++ "'"

/-- `lex_punct`: `next` is the byte behind `c`. -/
def lexPunct (start : SourcePosition) (c : UInt8) (next : Option UInt8) :
    Except Failure (TokenKind × Nat) :=
  if c = less then
    if next = some (byte '=') then .ok (.lessEq, 2)
    else if next = some greater then .ok (.notEqual, 2)
    else .ok (.less, 1)
  else if c = greater then
    if next = some (byte '=') then .ok (.greaterEq, 2) else .ok (.greater, 1)
  else if c = byte ':' then
    if next = some (byte '=') then .ok (.assign, 2) else .ok (.colon, 1)
  else if c = byte '.' then
    if next = some (byte '.') then .ok (.dotDot, 2) else .ok (.dot, 1)
  else
    match punctuation.find? (byte ·.1 = c) with
    | some (_, kind) => .ok (kind, 1)
    | none => .error (.error ("unexpected character " ++ debugChar c) start)

/-! ## Tokens -/

/-- The token at `c :: cs`, and its length. -/
def lexToken (start : SourcePosition) (c : UInt8) (cs : Bytes) : Except Failure (TokenKind × Nat) :=
  if c = less ∧ cs.head? = some star then lexPragma start cs.tail
  else if isIdentStart c then lexIdent (c :: cs)
  else if isAsciiDigit c then lexNumber start (c :: cs)
  else if c = doubleQuote ∨ c = quote then lexString start c cs
  else lexPunct start c cs.head?

def nextToken (c : Cursor) : Except Failure (Token × Cursor) := do
  let c ← skipTrivia 0 c.pos c.rest
  match c.rest with
  | [] => return (⟨.eof, ⟨c.pos, c.pos⟩⟩, c)
  | b :: bs =>
    let (kind, n) ← lexToken c.pos b bs
    let c' := c.advance n
    return (⟨kind, ⟨c.pos, c'.pos⟩⟩, c')

/-- At most `fuel` tokens. -/
def tokens : Nat → Cursor → Except Failure (List Token)
  | 0, _ => .error .timeout
  | fuel + 1, c => do
    let (token, c) ← nextToken c
    if token.kind = .eof then return [token]
    else return token :: (← tokens fuel c)

def tokenize (src : Bytes) : Except Failure (List Token) := tokens (src.length + 1) ⟨src, .start⟩

end NewM2.Lexer
