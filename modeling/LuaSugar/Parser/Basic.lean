import LuaSugar.Syntax.Arena

/-!
# Parsers

A parser reads from the tokens that are left, allocates nodes in the arena under construction,
and answers or fails at the token it stands before. At the end of the tokens errors carry the
line of the last one.

Repetition is one combinator, `loop`: its step answers either a new value to go on with or a
result. A step that goes on has read a token, so a loop takes at most one step more than there
are tokens left; a step that goes on without reading would stall and is cut off there.
-/

namespace LuaSugar

/-- What a parser may want to see next. -/
inductive Expectation where
  | operator (op : Operator)
  | keyword (word : Keyword)
  | name
  /-- The word `from` of an import, which is an ordinary name elsewhere. -/
  | fromWord
  /-- The value of an element's property. -/
  | propertyValue (property : String)
  /-- A child or the closing tag of an element. -/
  | elementContent (element : String)
deriving DecidableEq, Repr

def Expectation.text : Expectation → String
  | operator op => "'" ++ op.text ++ "'"
  | keyword word => "'" ++ word.text ++ "'"
  | name => "name"
  | fromWord => "'from'"
  | propertyValue property => "string or \x7bexpression\x7d for property '" ++ property ++ "'"
  | elementContent element => "'\x7b', '<' or '</" ++ element ++ ">'"

/-- Why tokens are not a chunk. -/
inductive ParseFault where
  /-- Something else stands here; `none` is the end of the tokens. -/
  | expected (what : Expectation) (found : Option TokenKind)
  | expressionEnded
  | noExpression (found : TokenKind)
  | noStatement (word : Keyword)
  | notAStatement
  | notAssignable
  | mismatchedTag (opened closed : String)
  /-- A repetition went on without reading. No parser of a chunk does. -/
  | stalled
deriving DecidableEq, Repr

namespace ParseFault

private def quoteToken (kind : TokenKind) : String := " '" ++ kind.text ++ "'"

/-- Wording of a syntactic fault. -/
def message : ParseFault → String
  | expected what none => "Expected " ++ what.text ++ ", got <eof>"
  | expected what (some found) =>
    "Expected " ++ what.text ++ ", got " ++ found.className ++ " near" ++ quoteToken found
  | expressionEnded => "Expression ended unexpectedly"
  | noExpression found => "Unexpected " ++ found.className ++ quoteToken found ++ " in expression"
  | noStatement word => "Unexpected '" ++ word.text ++ "' in statement"
  | notAStatement => "Syntax error: expression is not a statement"
  | notAssignable => "Syntax error: cannot assign to this expression"
  | mismatchedTag opened closed =>
    "Mismatched closing tag: expected </" ++ opened ++ ">, got </" ++ closed ++ ">"
  | stalled => "Syntax error: no progress"

end ParseFault

/-- A syntactic fault and the line it was found on. -/
structure ParseError where
  line : Nat
  fault : ParseFault
deriving DecidableEq, Repr

/-- What a parser reads from and builds. -/
structure ParseState where
  /-- Significant tokens not yet read. -/
  rest : List Token
  /-- The line of errors behind the last token. -/
  endLine : Nat
  arena : Arena

/-- Parsers with a result. -/
abbrev Parser (α : Type) := StateT ParseState (Except ParseError) α

namespace Parser

/-! ## Looking and reading -/

/-- The kind of the next token, if there is one. -/
def current : Parser (Option TokenKind) := do
  pure ((← get).rest.head?.map Token.kind)

/-- The kinds of the next two tokens. -/
def lookAhead : Parser (Option TokenKind × Option TokenKind) := do
  let rest := (← get).rest
  pure (rest.head?.map Token.kind, rest.tail.head?.map Token.kind)

/-- The line of the next token. -/
def line : Parser Nat := do
  let s ← get
  pure (match s.rest with
    | token :: _ => token.line
    | [] => s.endLine)

/-- Read one token. -/
def advance : Parser Unit := modify fun s => { s with rest := s.rest.tail }

/-- Fail before the next token. -/
def fail {α : Type} (fault : ParseFault) : Parser α := do
  throw ⟨← line, fault⟩

/-- Fail for want of something. -/
def unexpected {α : Type} (what : Expectation) : Parser α := do
  fail (.expected what (← current))

/-- Read a token of this kind if it is next. -/
def eat (kind : TokenKind) : Parser Bool := do
  let found := (← current) == some kind
  if found then advance
  pure found

def eatOp (op : Operator) : Parser Bool := eat (.operator op)

def eatKeyword (word : Keyword) : Parser Bool := eat (.keyword word)

/-- Read an operator that has to be next. -/
def expectOp (op : Operator) : Parser Unit := do
  if !(← eatOp op) then unexpected (.operator op)

/-- Read a keyword that has to be next. -/
def expectKeyword (word : Keyword) : Parser Unit := do
  if !(← eatKeyword word) then unexpected (.keyword word)

/-- Read a name that has to be next. -/
def expectName : Parser String := do
  match ← current with
  | some (.name text) => advance; pure text
  | _ => unexpected .name

/-! ## Building and repeating -/

/-- Allocate nodes. -/
def build {α : Type} (b : Build α) : Parser α :=
  modifyGet fun s =>
    let (value, arena) := b.run s.arena
    (value, { s with arena })

/-- Allocate one node. -/
def alloc (e : Expr) : Parser ExprId := build (Build.alloc e)

/-- At most `count` steps. -/
def loopWithin {σ α : Type} (step : σ → Parser (σ ⊕ α)) : Nat → σ → Parser α
  | 0, _ => fail .stalled
  | count + 1, value => do
    match ← step value with
    | .inl next => loopWithin step count next
    | .inr result => pure result

/-- Repeat a step until it answers a result. -/
def loop {σ α : Type} (step : σ → Parser (σ ⊕ α)) (start : σ) : Parser α := do
  loopWithin step ((← get).rest.length + 1) start

/-- One or more items with commas between them. -/
def commaSeparated {α : Type} (item : Parser α) : Parser (List α) := do
  let first ← item
  loop (fun items => do
    if ← eatOp .comma then pure (.inl (items ++ [← item])) else pure (.inr items)) [first]

/-- A parameter list between two operators: the names, and whether `...` ends it. -/
def parameters (opening closing : Operator) : Parser (List String × Bool) := do
  expectOp opening
  if ← eatOp closing then pure ([], false)
  else
    loop (fun names => do
      if ← eatOp .ellipsis then
        expectOp closing
        pure (.inr (names, true))
      else
        let names := names ++ [← expectName]
        if ← eatOp closing then pure (.inr (names, false))
        else
          expectOp .comma
          pure (.inl names)) []

end Parser

end LuaSugar
