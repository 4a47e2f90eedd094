import Mathlib.Data.List.Destutter
import NewM2.Lib.Worklist
import NewM2.Loader.Cache

/-! # The module graph (`newm2-loader/src/graph.rs`, `loader.rs`) -/

namespace NewM2.Loader
open Lexer

/-! ## Reading a file -/

def isContinuation (c : UInt8) : Bool := 0x80 ≤ c && c ≤ 0xBF

/-- The bytes that may follow the first byte `c` of a code point. -/
def isSecondOf (c d : UInt8) : Bool :=
  if c = 0xE0 then 0xA0 ≤ d && d ≤ 0xBF
  else if c = 0xED then 0x80 ≤ d && d ≤ 0x9F
  else if c = 0xF0 then 0x90 ≤ d && d ≤ 0xBF
  else if c = 0xF4 then 0x80 ≤ d && d ≤ 0x8F
  else isContinuation d

/-- How many of the next `k` bytes continue a code point. -/
def continuations (k : Nat) (cs : Bytes) : Nat := ((cs.take k).takeWhile isContinuation).length

/-- Whether a code point starts with `c`, and the length of it or of the part that is taken as one error. -/
def utf8Step (c : UInt8) (cs : Bytes) : Bool × Nat :=
  let tail (k : Nat) : Bool × Nat :=
    match cs with
    | [] => (false, 1)
    | d :: cs =>
      if isSecondOf c d then (continuations k cs = k, 2 + continuations k cs) else (false, 1)
  if c < 0x80 then (true, 1)
  else if 0xC2 ≤ c && c ≤ 0xDF then tail 0
  else if 0xE0 ≤ c && c ≤ 0xEF then tail 1
  else if 0xF0 ≤ c && c ≤ 0xF4 then tail 2
  else (false, 1)

/-- `String::from_utf8_lossy`; the next `skip` bytes are behind it. -/
def fromUtf8Lossy : Nat → Bytes → Bytes
  | _, [] => []
  | skip + 1, _ :: cs => fromUtf8Lossy skip cs
  | 0, c :: cs =>
    let (valid, k) := utf8Step c cs
    (if valid then (c :: cs).take k else [0xEF, 0xBF, 0xBD]) ++ fromUtf8Lossy (k - 1) cs

/-- The lexer and the parser. An `Ast` is what the interfaces are made from: imports and declarations, no
bodies. -/
structure FrontEnd (Ast : Type) where
  parse : Bytes → Except String Ast
  collectTopImports : Ast → List Ident

section graph
variable {Ast : Type} {n : Nat}

def parseBytesWithEnv (F : FrontEnd Ast) (env : Env) (bytes : Bytes) : Except String Ast := do
  let preprocessed ← preprocess (fromUtf8Lossy 0 bytes) env
  F.parse preprocessed

structure ModuleNode (Ast : Type) (n : Nat) where
  name : Ident
  defAst : Option Ast
  implAst : Option Ast
  /-- Of the text of the DEF as it was read. -/
  defHash : Option ContentHash
  imports : List (Fin n)
  isIntrinsic : Bool

/-- Modules are looked up by their names. -/
structure ModuleGraph (Ast : Type) (n : Nat) where
  modules : Fin n → ModuleNode Ast n
  name_inj : Function.Injective fun i => (modules i).name

/-- What the loader follows from a module: the imports of its DEF and of its IMPL. -/
def importNames (F : FrontEnd Ast) (defAst implAst : Option Ast) : List Ident :=
  (((defAst.elim [] F.collectTopImports) ++ (implAst.elim [] F.collectTopImports)).mergeSort
    fun a b => decide (a.name ≤ b.name)).destutter (· ≠ ·)

namespace ModuleGraph
variable (g : ModuleGraph Ast n)

def importsOf (i : Fin n) : List (Fin n) := (g.modules i).imports

/-- The graph is what the loader makes of these files. -/
structure Loaded (F : FrontEnd Ast) (env : Env) where
  defFile : Fin n → Option Bytes
  implFile : Fin n → Option Bytes
  defHash : ∀ i, (g.modules i).defHash = (defFile i).map hashSource
  defAst : ∀ i, (defFile i).map (parseBytesWithEnv F env) = (g.modules i).defAst.map .ok
  implAst : ∀ i, (implFile i).map (parseBytesWithEnv F env) = (g.modules i).implAst.map .ok
  imports : ∀ i, (g.importsOf i).map (fun j => (g.modules j).name) =
    importNames F (g.modules i).defAst (g.modules i).implAst

end ModuleGraph

end graph

end NewM2.Loader
