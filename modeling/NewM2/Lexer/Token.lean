import Mathlib

/-!
# Tokens (`newm2-lexer/src/token.rs`)

The kinds of token and the reserved words. A REAL literal keeps its digits: its value is the number
of type f64 nearest to them.
-/

namespace NewM2.Lexer

inductive LiteralFlavor
  | default | achar | uchar
deriving Repr, DecidableEq

/-- The reserved words. -/
inductive Keyword
  | and_ | array | begin_ | by_ | case_ | const_ | definition | div | do_ | else_ | elsif | end_
  | except | exit_ | export_ | finally_ | for_ | forward_ | from_ | generic | if_
  | implementation | import_ | in_ | loop | mod_ | module_ | not_ | of_ | or_ | packedset
  | pointer | procedure | qualified | record | rem | repeat_ | retry | return_ | set_ | then_
  | to_ | type_ | until_ | var | while_ | with_ | abstract_ | asm | bor | band | bxor | bnot
  | shl | shr
deriving DecidableEq

def keywords : List (String × Keyword) :=
  [("AND", .and_), ("ARRAY", .array), ("BEGIN", .begin_), ("BY", .by_), ("CASE", .case_),
    ("CONST", .const_), ("DEFINITION", .definition), ("DIV", .div), ("DO", .do_),
    ("ELSE", .else_), ("ELSIF", .elsif), ("END", .end_), ("EXCEPT", .except), ("EXIT", .exit_),
    ("EXPORT", .export_), ("FINALLY", .finally_), ("FOR", .for_), ("FORWARD", .forward_),
    ("FROM", .from_), ("GENERIC", .generic), ("IF", .if_), ("IMPLEMENTATION", .implementation),
    ("IMPORT", .import_), ("IN", .in_), ("LOOP", .loop), ("MOD", .mod_), ("MODULE", .module_),
    ("NOT", .not_), ("OF", .of_), ("OR", .or_), ("PACKEDSET", .packedset), ("POINTER", .pointer),
    ("PROCEDURE", .procedure), ("QUALIFIED", .qualified), ("RECORD", .record), ("REM", .rem),
    ("REPEAT", .repeat_), ("RETRY", .retry), ("RETURN", .return_), ("SET", .set_),
    ("THEN", .then_), ("TO", .to_), ("TYPE", .type_), ("UNTIL", .until_), ("VAR", .var),
    ("WHILE", .while_), ("WITH", .with_), ("ABSTRACT", .abstract_), ("ASM", .asm), ("BOR", .bor),
    ("BAND", .band), ("BXOR", .bxor), ("BNOT", .bnot), ("SHL", .shl), ("SHR", .shr)]

/-- `Keyword::from_str`. -/
def Keyword.fromStr (s : String) : Option Keyword := (keywords.find? (·.1 == s)).map Prod.snd

inductive TokenKind
  | ident (name : String)
  | keyword (k : Keyword)
  | integer (value : UInt64)
  | real (digits : String)
  | char (value : Char) (flavor : LiteralFlavor)
  | string (value : String) (flavor : LiteralFlavor)
  | pragma (body : String)
  | plus | minus | star | slash | amp | tilde | equal | hash | less | lessEq | greater | greaterEq
  | notEqual | assign | dot | dotDot | comma | semicolon | colon | lParen | rParen | lBracket
  | rBracket | lBrace | rBrace | pipe | caret | at_
  | eof
deriving DecidableEq

end NewM2.Lexer
