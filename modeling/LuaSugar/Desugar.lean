import LuaSugar.Desugar.Assignment
import LuaSugar.Desugar.Compound
import LuaSugar.Desugar.Element
import LuaSugar.Desugar.Import
import LuaSugar.Desugar.Intrinsic
import LuaSugar.Parser
import LuaSugar.Token.Lexer

/-!
# Compiling to plain Lua

`desugar` runs the passes in an order that matters: assignment expressions leave compound
assignments behind, which the next pass lowers, and elements come last because intrinsics may
hold them. Only intrinsics can fail.

`compile` is reading, parsing and desugaring; its error says on which line the first of them that
fails does so.
-/

namespace LuaSugar

/-- The constructor of elements unless another is chosen. -/
def defaultConstructor : String := "h"

/-- Run every pass. The chunk also comes back after an error, as far as it was changed. -/
def desugar (constructor : String) (c : Chunk) : Chunk × Option IntrinsicError :=
  match expandIntrinsics (expandImports (expandCompound (hoistAssignments c))) with
  | (c, some e) => (c, some e)
  | (c, none) => (expandElements constructor c, none)

/-- Why a source text does not compile. -/
inductive CompileError where
  | lex (e : LexError)
  | parse (e : ParseError)
  | intrinsic (e : IntrinsicError)
deriving DecidableEq, Repr

namespace CompileError

/-- The line the error points at. -/
def line : CompileError → Nat
  | lex e => e.line
  | parse e => e.line
  | intrinsic e => e.line

/-- What is wrong, without the line. -/
def description : CompileError → String
  | lex e => e.fault.message
  | parse e => e.fault.message
  | intrinsic e => e.message

/-- The error with its place. -/
def message (e : CompileError) : String :=
  "script:" ++ String.ofList (Nat.toDigits 10 e.line) ++ ": " ++ e.description

end CompileError

/-- Read and parse a source text. -/
def parseSource (source : String) : Except CompileError Chunk := do
  let tokens ← (tokenize source).mapError .lex
  (parse tokens).mapError .parse

/-- Read, parse and desugar a source text. -/
def compile (constructor source : String) : Except CompileError Chunk := do
  match desugar constructor (← parseSource source) with
  | (c, none) => .ok c
  | (_, some e) => .error (.intrinsic e)

end LuaSugar
