import LuaSugar.Parser.Basic

/-!
# The grammar

Recursive descent with precedence climbing. The grammar's recursion is tied once: each parser
here takes the recursive ones as a `Grammar` and may use them only behind a token it has read
itself. So `Grammar.level n`, the grammar unrolled `n` times, parses any `n` tokens, and the
unrolling of `parse`, one level per token, is never exhausted.

Nodes are allocated children first, in source order; the key of a `name = value` entry is
allocated behind its value.
-/

namespace LuaSugar

/-- What ends the statement list being parsed. -/
inductive BlockEnd where
  /-- The end of the tokens. -/
  | tokens
  /-- The keyword `end`, which is read. -/
  | endWord
  /-- The keyword `until`, which is read. -/
  | untilWord
  /-- `elseif`, `else` or `end`, which are left to be read. -/
  | arm
deriving DecidableEq, Repr

/-- The recursive parsers. -/
structure Grammar where
  /-- An expression of operators that bind at least as tightly as a precedence. -/
  expression : Nat → Parser ExprId
  /-- An expression or assignment, as it may stand in parentheses. -/
  assignment : Parser ExprId
  element : Parser Element
  block : BlockEnd → Parser Block
  /-- A condition, its statements and the arms that follow; the line is that of its keyword. -/
  ifArm : Nat → Parser IfArm

namespace Grammar

open LuaSugar.Parser

/-! ## Expressions -/

/-- Operands of `not`, `#` and `-` bind tighter than any operator but `^`. -/
def unaryOperandPrecedence : Nat := 8

variable (g : Grammar)

/-- One or more expressions with commas between them. -/
def expressionList : Parser (List ExprId) := commaSeparated (g.expression 1)

/-- Parameters in parentheses and a body up to `end`. -/
def funcBody : Parser FuncBody := do
  let (params, variadic) ← parameters .leftParen .rightParen
  let body ← g.block .endWord
  pure ⟨params, variadic, body⟩

/-- `|a, b| value`, short for a function that returns the value; `line` is that of the first
`|`. -/
def lambda (line : Nat) : Parser ExprId := do
  let (params, variadic) ← parameters .pipe .pipe
  let value ← g.expression 1
  alloc (.atom (.func ⟨params, variadic, [.ret [value] line]⟩))

/-- One entry of a table constructor. -/
def tableEntry (t : Table) : Parser Table := do
  match ← lookAhead with
  | (some (.name key), some (.operator .assign)) =>
    advance
    advance
    let value ← g.expression 1
    build (Build.pushNamed t key value)
  | (some (.operator .leftBracket), _) =>
    advance
    let key ← g.expression 1
    expectOp .rightBracket
    expectOp .assign
    let value ← g.expression 1
    pure (t.pushKeyed key value)
  | (some (.keyword .function_), some (.name key)) =>
    advance
    advance
    let func ← g.funcBody
    let value ← alloc (.atom (.func func))
    build (Build.pushNamed t key value)
  | _ =>
    let value ← g.expression 1
    pure (t.pushPositional value)

/-- A table constructor. -/
def table : Parser ExprId := do
  expectOp .leftBrace
  let t ← loop (fun t => do
    if ← eatOp .rightBrace then pure (.inr t)
    else
      let t ← g.tableEntry t
      if ← eatOp .comma then pure (.inl t)
      else if ← eatOp .semicolon then pure (.inl t)
      else
        expectOp .rightBrace
        pure (.inr t)) Table.empty
  build (Build.table t)

/-- The value of an element's property, if it has one; otherwise `true`. -/
def propertyValue (property : String) : Parser ExprId := do
  if ← eatOp .assign then
    match ← current with
    | some (.string bytes) =>
      advance
      build (Build.string bytes)
    | some (.operator .leftBrace) =>
      advance
      let value ← g.expression 1
      expectOp .rightBrace
      pure value
    | _ => unexpected (.propertyValue property)
  else build (Build.boolean true)

/-- The properties of an element. -/
def properties : Parser (List (String × ExprId)) :=
  loop (fun found => do
    match ← current with
    | some (.name property) =>
      advance
      let value ← g.propertyValue property
      pure (.inl (found ++ [(property, value)]))
    | _ => pure (.inr found)) []

/-- The children of an element up to the start of its closing tag, which is read. -/
def elementChildren (name : String) : Parser (List ExprId) :=
  loop (fun found => do
    match ← lookAhead with
    | (some (.operator .leftBrace), _) =>
      advance
      let child ← g.expression 1
      expectOp .rightBrace
      pure (.inl (found ++ [child]))
    | (some (.operator .lt), some (.operator .slash)) =>
      advance
      advance
      pure (.inr found)
    | (some (.operator .lt), _) =>
      let child ← g.element
      let child ← alloc (.atom (.element child))
      pure (.inl (found ++ [child]))
    | _ => unexpected (.elementContent name)) []

/-- An element literal. -/
def elementLiteral : Parser Element := do
  expectOp .lt
  let name ← expectName
  let properties ← g.properties
  if ← eatOp .slash then
    expectOp .gt
    pure ⟨name, properties, none⟩
  else
    expectOp .gt
    let children ← g.elementChildren name
    let closing ← expectName
    if closing != name then fail (.mismatchedTag name closing)
    expectOp .gt
    pure ⟨name, properties, some children⟩

/-- Allocate an atom spelled by one token. -/
def readAtom (atom : Atom) : Parser ExprId := do
  advance
  alloc (.atom atom)

/-- A literal, a name, or anything that opens with a token of its own. -/
def primary : Parser ExprId := do
  let line ← line
  match ← current with
  | some (.operator .leftParen) =>
    advance
    let inner ← g.assignment
    expectOp .rightParen
    pure inner
  | some (.operator .leftBrace) => g.table
  | some (.operator .lt) =>
    let element ← g.elementLiteral
    alloc (.atom (.element element))
  | some (.operator .pipe) => g.lambda line
  | some (.operator .ellipsis) => readAtom .vararg
  | some (.number value) => readAtom (.number value)
  | some (.string bytes) => readAtom (.string bytes)
  | some (.name text) => readAtom (.name text)
  | some (.keyword .true_) => readAtom (.boolean true)
  | some (.keyword .false_) => readAtom (.boolean false)
  | some (.keyword .nil_) => readAtom .nil
  | some (.keyword .function_) =>
    advance
    let func ← g.funcBody
    alloc (.atom (.func func))
  | none | some .invalid => fail .expressionEnded
  | some other => fail (.noExpression other)

/-- Arguments in parentheses. -/
def parenthesizedArguments : Parser (List ExprId) := do
  expectOp .leftParen
  if ← eatOp .rightParen then pure []
  else
    let args ← g.expressionList
    expectOp .rightParen
    pure args

/-- The arguments of a call: in parentheses, or one string literal or table constructor. -/
def callArguments : Parser (List ExprId) := do
  match ← current with
  | some (.string bytes) =>
    advance
    pure [← build (Build.string bytes)]
  | some (.operator .leftBrace) => pure [← g.table]
  | _ => g.parenthesizedArguments

/-- One suffix of a primary expression, if there is one. -/
def suffix (calls : Bool) (expr : ExprId) : Parser (ExprId ⊕ ExprId) := do
  match ← current, calls with
  | some (.operator .dot), _ =>
    advance
    let name ← expectName
    .inl <$> build (Build.member expr name)
  | some (.operator .leftBracket), _ =>
    advance
    let key ← g.expression 1
    expectOp .rightBracket
    .inl <$> build (Build.subscript expr key)
  | some (.operator .colon), true =>
    advance
    let method ← expectName
    let args ← g.callArguments
    .inl <$> alloc (.arith (.call expr (some method) args))
  | some (.operator .leftParen), true | some (.operator .leftBrace), true
  | some (.string _), true =>
    let args ← g.callArguments
    .inl <$> build (Build.call expr args)
  | _, _ => pure (.inr expr)

/-- A primary expression and its suffixes. Calls are left out at the head of an intrinsic, whose
argument list belongs to the intrinsic. -/
def suffixed (calls : Bool) : Parser ExprId := do
  let head ← g.primary
  loop (g.suffix calls) head

/-- An operand with the operators before it. -/
def unary : Parser ExprId := do
  match ← current with
  | some (.operator op) =>
    match UnaryOp.ofOperator? op with
    | some unaryOp =>
      advance
      let operand ← g.expression unaryOperandPrecedence
      alloc (.arith (.unary unaryOp operand))
    | none => g.suffixed true
  | _ => g.suffixed true

/-- The operation that an operator continues an expression with, and its precedence. -/
def continuation? (minimum : Nat) (kind : Option TokenKind) : Option (BinaryOp × Operator × Nat) :=
  match kind with
  | some (.operator op) =>
    if op.endsExpression then none
    else do
      let precedence ← op.precedence?
      let binary ← BinaryOp.ofOperator? op
      if precedence < minimum then none else some (binary, op, precedence)
  | _ => none

/-- One more operator and its right operand, if the operator binds tightly enough. -/
def binaryStep (minimum : Nat) (left : ExprId) : Parser (ExprId ⊕ ExprId) := do
  match continuation? minimum (← current) with
  | some (binary, op, precedence) =>
    advance
    let right ← g.expression (if op.isRightAssociative then precedence else precedence + 1)
    .inl <$> build (Build.binary binary left right)
  | none => pure (.inr left)

/-- Operands and the operators between them. -/
def operation (minimum : Nat) : Parser ExprId := do
  let left ← g.unary
  loop (g.binaryStep minimum) left

/-- The assignment an operator denotes. -/
def assignOp? : Option TokenKind → Option AssignOp
  | some (.operator .assign) => some .set
  | some (.operator op) => (BinaryOp.ofCompound? op).map .compound
  | _ => none

/-- An expression, or an assignment used as one; assignments associate to the right. -/
def assignmentOrExpression : Parser ExprId := do
  let target ← g.operation 1
  match assignOp? (← current) with
  | some op =>
    advance
    let value ← g.assignment
    alloc (.arith (.assign op target value))
  | none => pure target

/-! ## Statements -/

/-- Only names, members and subscripts can be assigned to. -/
def checkAssignable (target : ExprId) : Parser Unit := do
  match (← get).arena.get target with
  | .atom (.name _) | .arith (.member _ _) | .arith (.subscript _ _) => pure ()
  | _ => fail .notAssignable

/-- A bare `return` stands before the end, a `;` or a keyword that begins no expression. -/
def returnIsBare : Option TokenKind → Bool
  | none | some .invalid => true
  | some (.operator .semicolon) => true
  | some (.keyword .true_) | some (.keyword .false_) | some (.keyword .nil_)
  | some (.keyword .function_) => false
  | some (.keyword _) => true
  | some _ => false

/-- A condition, its statements, and what applies otherwise. -/
def conditionalArm (line : Nat) : Parser IfArm := do
  let condition ← g.operation 1
  expectKeyword .then_
  let body ← g.block .arm
  let elseLine ← Parser.line
  if ← eatKeyword .elseif_ then
    let arm ← g.ifArm elseLine
    pure ⟨condition, body, line, .elseIf arm⟩
  else if ← eatKeyword .else_ then
    let otherwise ← g.block .endWord
    pure ⟨condition, body, line, .elseBlock otherwise elseLine⟩
  else
    expectKeyword .end_
    pure ⟨condition, body, line, .absent⟩

/-- A loop after `for`. -/
def forLoop : Parser StmtKind := do
  let first ← expectName
  if ← eatOp .assign then
    let start ← g.expression 1
    expectOp .comma
    let limit ← g.expression 1
    let step ← if ← eatOp .comma then some <$> g.expression 1 else pure none
    expectKeyword .do_
    let body ← g.block .endWord
    pure (.forNumeric first start limit step body)
  else
    let more ← if ← eatOp .comma then commaSeparated expectName else pure []
    expectKeyword .in_
    let iterators ← g.expressionList
    expectKeyword .do_
    let body ← g.block .endWord
    pure (.forGeneric (first :: more) iterators body)

/-- The dotted name of a function statement. -/
def functionPath : Parser FunctionPath := do
  let first ← expectName
  loop (fun segments => do
    if ← eatOp .dot then pure (.inl (segments ++ [← expectName]))
    else if ← eatOp .colon then pure (.inr ⟨segments ++ [← expectName], true⟩)
    else pure (.inr ⟨segments, false⟩)) [first]

/-- A declaration after `local`. -/
def localDeclaration : Parser StmtKind := do
  if ← eatKeyword .function_ then
    let name ← expectName
    let func ← g.funcBody
    pure (.localFunction name func)
  else
    let names ← commaSeparated expectName
    let values ← if ← eatOp .assign then g.expressionList else pure []
    pure (.localDecl names values)

/-- An import after `import`. -/
def importStatement : Parser StmtKind := do
  let binding ← if ← eatOp .leftBrace then do
      let names ← commaSeparated expectName
      expectOp .rightBrace
      pure (ImportBinding.named names)
    else ImportBinding.default <$> expectName
  if !(← eat (.name "from")) then unexpected .fromWord
  let source ← g.expression 1
  pure (.importFrom binding source)

/-- An assignment, a compound assignment or a call. -/
def expressionStatement : Parser StmtKind := do
  let first ← g.suffixed true
  let next ← current
  if next == some (.operator .assign) || next == some (.operator .comma) then
    let more ← if ← eatOp .comma then commaSeparated (g.suffixed true) else pure []
    let targets := first :: more
    targets.forM checkAssignable
    expectOp .assign
    let values ← g.expressionList
    pure (.assign targets values)
  else match assignOp? next with
    | some (.compound op) =>
      checkAssignable first
      advance
      let value ← g.expression 1
      pure (.compoundAssign first op value)
    | _ =>
      match (← get).arena.get first with
      | .arith (.call _ _ _) => pure (.call first)
      | _ => fail .notAStatement

/-- The statement that a keyword opens; `line` is the keyword's. -/
def keywordStatement (line : Nat) (word : Keyword) : Parser StmtKind := do
  match word with
  | .do_ =>
    advance
    .doBlock <$> g.block .endWord
  | .break_ =>
    advance
    pure .break_
  | .if_ =>
    advance
    .ifChain <$> g.ifArm line
  | .return_ =>
    advance
    if returnIsBare (← current) then pure (.ret []) else .ret <$> g.expressionList
  | .while_ =>
    advance
    let condition ← g.expression 1
    expectKeyword .do_
    .whileLoop condition <$> g.block .endWord
  | .repeat_ =>
    advance
    let body ← g.block .untilWord
    .repeatLoop body <$> g.expression 1
  | .for_ =>
    advance
    g.forLoop
  | .function_ =>
    advance
    let path ← functionPath
    .function path <$> g.funcBody
  | .local_ =>
    advance
    g.localDeclaration
  | .import_ =>
    advance
    g.importStatement
  | other => fail (.noStatement other)

/-- An intrinsic after `@`. -/
def intrinsicStatement : Parser StmtKind := do
  let expr ← g.suffixed false
  if (← current) == some (.operator .leftParen) then .intrinsic expr <$> g.parenthesizedArguments
  else pure (.intrinsic expr [])

/-- One statement. -/
def statement : Parser Stmt := do
  let line ← line
  let kind ← match ← current with
    | some (.keyword word) => g.keywordStatement line word
    | some (.operator .atSign) =>
      advance
      g.intrinsicStatement
    | _ => g.expressionStatement
  pure ⟨kind, line⟩

/-- Whether a list ends before the next token, which is read if it belongs to the list. -/
def blockEnds (stop : BlockEnd) : Parser Bool := do
  match stop, ← current with
  | .tokens, none => pure true
  | .untilWord, none => unexpected (.keyword .until_)
  | .endWord, none | .arm, none => unexpected (.keyword .end_)
  | .endWord, some (.keyword .end_) | .untilWord, some (.keyword .until_) =>
    advance
    pure true
  | .arm, some (.keyword .end_) | .arm, some (.keyword .else_)
  | .arm, some (.keyword .elseif_) => pure true
  | _, _ => pure false

/-- Semicolons may stand anywhere between statements. -/
def skipSemicolons : Parser Unit :=
  modify fun s => { s with rest := s.rest.dropWhile fun t => t.kind == .operator .semicolon }

/-- Statements up to the end of their list. -/
def statements (stop : BlockEnd) : Parser Block :=
  loop (fun found => do
    skipSemicolons
    if ← blockEnds stop then pure (.inr found) else pure (.inl (found ++ [← g.statement]))) []

/-! ## Tying the recursion -/

/-- The grammar unrolled once more. -/
def unroll : Grammar where
  expression := g.operation
  assignment := g.assignmentOrExpression
  element := g.elementLiteral
  block := g.statements
  ifArm := g.conditionalArm

/-- The grammar unrolled not at all: every parser stalls. -/
def stalled : Grammar where
  expression := fun _ => fail .stalled
  assignment := fail .stalled
  element := fail .stalled
  block := fun _ => fail .stalled
  ifArm := fun _ => fail .stalled

/-- The grammar unrolled so many times. -/
def level : Nat → Grammar
  | 0 => stalled
  | n + 1 => (level n).unroll

end Grammar

/-- Parse tokens into a chunk; trivia are skipped. -/
def parse (tokens : List Token) : Except ParseError Chunk :=
  let tokens := significant tokens
  let endLine := (tokens.getLast?.map Token.line).getD 1
  match ((Grammar.level tokens.length).statements .tokens).run ⟨tokens, endLine, .empty⟩ with
  | .ok (body, s) => .ok ⟨s.arena, body⟩
  | .error e => .error e

end LuaSugar
