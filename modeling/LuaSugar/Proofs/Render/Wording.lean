import Mathlib
import LuaSugar.Render
import LuaSugar.Proofs.Token.Fragment
/-!
# The wording of plain Lua

The tokens of a chunk, whatever the layout: what rendering writes with the
gaps left out. Like a printer, a wording says what expressions are worded
with, and everything else follows the structure of statements.

Only plain Lua has a wording here. Sugar is worded with no tokens.
-/

namespace LuaSugar

/-- What wording statements and nodes needs to know about expressions. -/
structure Wording where
  /-- The node of an id. -/
  node : ExprId → Expr
  /-- The tokens of an expression. -/
  expr : ExprId → List TokenKind

namespace Wording

/-- Items with commas between them. -/
def listed (items : List (List TokenKind)) : List TokenKind :=
  [.operator .comma].intercalate items

/-- Tokens in parentheses. -/
def parenthesized (ts : List TokenKind) : List TokenKind :=
  .operator .leftParen :: ts ++ [.operator .rightParen]

/-- Statements one after the other; those without tokens are left out, and
a semicolon stands before a parenthesis. -/
def sequence (statements : List (List TokenKind)) : List TokenKind :=
  match statements.filter (· ≠ []) with
  | [] => []
  | first :: rest =>
    first ++ rest.flatMap fun next =>
      if next.head? = some (.operator .leftParen) then .operator .semicolon :: next else next

variable (w : Wording)

def exprs (ids : List ExprId) : List TokenKind := listed (ids.map w.expr)

def names (names : List String) : List TokenKind :=
  listed (names.map fun name => [.name name])

def params (params : List String) (variadic : Bool) : List TokenKind :=
  parenthesized (listed (params.map (fun name => [.name name]) ++
    if variadic then [[.operator .ellipsis]] else []))

/-! ## Statements -/

mutual

def statement : Stmt → List TokenKind
  | ⟨kind, _⟩ => statementKind kind

def statementKind : StmtKind → List TokenKind
  | .ret values => .keyword .return_ :: w.exprs values
  | .localFunction name func => .keyword .local_ :: funcBody [.name name] func
  | .function path func => funcBody path.lexemes.tokens func
  | .localDecl names' [] => .keyword .local_ :: names names'
  | .localDecl names' (first :: rest) =>
    .keyword .local_ :: names names' ++ .operator .assign :: w.exprs (first :: rest)
  | .assign targets values => w.exprs targets ++ .operator .assign :: w.exprs values
  | .call call => w.expr call
  | .break_ => [.keyword .break_]
  | .doBlock body => .keyword .do_ :: block body ++ [.keyword .end_]
  | .whileLoop condition body =>
    .keyword .while_ :: w.expr condition ++ .keyword .do_ :: block body ++ [.keyword .end_]
  | .repeatLoop body condition =>
    .keyword .repeat_ :: block body ++ .keyword .until_ :: w.expr condition
  | .ifChain arm => ifArm .if_ arm
  | .forNumeric var start limit step body =>
    .keyword .for_ :: .name var :: .operator .assign :: w.exprs (start :: limit :: step.toList) ++
      .keyword .do_ :: block body ++ [.keyword .end_]
  | .forGeneric names' iterators body =>
    .keyword .for_ :: names names' ++ .keyword .in_ :: w.exprs iterators ++
      .keyword .do_ :: block body ++ [.keyword .end_]
  | .compoundAssign _ _ _ | .importFrom _ _ | .intrinsic _ _ | .ignore => []

def funcBody (name : List TokenKind) : FuncBody → List TokenKind
  | ⟨params', variadic, body⟩ =>
    .keyword .function_ :: name ++ params params' variadic ++ block body ++ [.keyword .end_]

def ifArm (word : Keyword) : IfArm → List TokenKind
  | ⟨condition, body, _, otherwise⟩ =>
    .keyword word :: w.expr condition ++ .keyword .then_ :: block body ++ elseArm otherwise

def elseArm : ElseArm → List TokenKind
  | .absent => [.keyword .end_]
  | .elseIf arm => ifArm .elseif_ arm
  | .elseBlock body _ => .keyword .else_ :: block body ++ [.keyword .end_]

def statements : List Stmt → List (List TokenKind)
  | [] => []
  | s :: rest => statement s :: statements rest

def block : List Stmt → List TokenKind
  | [] => []
  | s :: rest => sequence (statement s :: statements rest)

end

theorem statementKind_ignore : w.statementKind .ignore = [] := by rw [statementKind]

/-! ## Expressions -/

def subject (id : ExprId) : List TokenKind :=
  match w.node id with
  | .atom (.name _) => w.expr id
  | .arith (.unary _ _) | .atom _ => parenthesized (w.expr id)
  | .arith _ => w.expr id

def leftOperand (op : BinaryOp) (id : ExprId) : List TokenKind :=
  match op, w.node id with
  | .pow, .arith (.unary _ _) => parenthesized (w.expr id)
  | _, _ => w.expr id

def arith : Arith → List TokenKind
  | .binary op left right =>
    parenthesized (w.leftOperand op left ++ .operator op.operator :: w.expr right)
  | .unary op operand => .operator op.operator :: w.expr operand
  | .member object name => w.subject object ++ [.operator .dot, .name name]
  | .subscript object key =>
    w.subject object ++ .operator .leftBracket :: w.expr key ++ [.operator .rightBracket]
  | .call target method args =>
    w.subject target ++
      (match method with
        | some name => [.operator .colon, .name name]
        | none => []) ++
      parenthesized (w.exprs args)
  | .assign _ _ _ => []

/-- The key of an entry: a name if it can be one. -/
def key (id : ExprId) : List TokenKind :=
  let bracketed := .operator .leftBracket :: w.expr id ++ [.operator .rightBracket]
  match w.node id with
  | .atom (.string bytes) =>
    ((Printer.fieldName? bytes).map fun name => [.name name]).getD bracketed
  | _ => bracketed

def field (entry : ExprId × ExprId) : List TokenKind :=
  w.key entry.1 ++ .operator .assign :: w.expr entry.2

/-- The entries of a table: keyed ones first, and semicolons between them
and before the positional ones. -/
def entries (t : Table) : List TokenKind :=
  [.operator .semicolon].intercalate
    (t.keyed.map w.field ++ if w.exprs t.positional = [] then [] else [w.exprs t.positional])

def atom : Atom → List TokenKind
  | .number value => (Fragment.number value).tokens
  | .string bytes => [.string bytes]
  | .boolean true => [.keyword .true_]
  | .boolean false => [.keyword .false_]
  | .nil => [.keyword .nil_]
  | .name text => [.name text]
  | .vararg => [.operator .ellipsis]
  | .table t => .operator .leftBrace :: w.entries t ++ [.operator .rightBrace]
  | .element _ => []
  | .func f => w.funcBody [] f

def expression : Expr → List TokenKind
  | .atom a => w.atom a
  | .arith a => w.arith a

end Wording

/-- The wording of an arena: what it is printed as, without gaps. -/
def Arena.wording (a : Arena) : Wording :=
  ⟨a.get, fun id => Fragment.tokens ((a.printer .minify).expr 0 id)⟩

end LuaSugar
