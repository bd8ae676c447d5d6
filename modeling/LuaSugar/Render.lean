import LuaSugar.Lexeme
import LuaSugar.Syntax.Arena

/-!
# Rendering

Syntax back to source text in two layouts. Binary operations are always parenthesized, so the
output never depends on precedence; the one operand that needs parentheses of its own is a unary
operation before `^`. Constructs that plain Lua lacks are written in the dialect's syntax, so
that a chunk can be shown at any stage.

**The layouts differ in gaps only.** Both print a statement whose text begins with a parenthesis
behind a semicolon, because it would otherwise continue the statement before it, and both write
the keyed entries of a table before the positional ones with semicolons between them.

A `Printer` knows how to print an expression by id; everything it prints follows the structure of
statements. `Arena.printer` ties the two together, as deep as chains of ids can be.
-/

namespace LuaSugar

inductive Layout where
  /-- Two-space indentation, one statement per line. -/
  | pretty
  /-- One line with as few gaps as possible. -/
  | minify
deriving DecidableEq, Repr

namespace Layout

/-- The layouts in the order in which they are listed to users. -/
def all : List Layout := [pretty, minify]

/-- The name of the style of a layout. -/
def style : Layout → String
  | pretty => "pretty"
  | minify => "minify"

/-- The layout of a style. -/
def ofStyle? (style : String) : Option Layout := all.find? fun layout => layout.style == style

variable (ℓ : Layout)

/-- A gap that only the pretty layout has. -/
def gap (text : String) : Fragment :=
  match ℓ with
  | pretty => [.gap text]
  | minify => []

def indentation (indent : Nat) : String := String.ofList (List.replicate (2 * indent) ' ')

/-- A line break and indentation, or a blank. -/
def lineBreak (indent : Nat) : Fragment :=
  match ℓ with
  | pretty => [.gap ("\n" ++ indentation indent)]
  | minify => [.blank]

def comma : Fragment := .op .comma :: ℓ.gap " "

def equals : Fragment := ℓ.gap " " ++ .op .assign :: ℓ.gap " "

/-- Items with commas between them. -/
def listed (items : List Fragment) : Fragment := Fragment.joined ℓ.comma items

/-- An operator between its operands, apart only as far as the layout wants or the characters
need. -/
def infixed (left op right : Fragment) : Fragment :=
  if ℓ = pretty ∨ op.first?.any Char.isAlpha then left ++ .blank :: op ++ .blank :: right
  else Fragment.glue (Fragment.glue left op) right

/-- Statements one after the other; those that write nothing are left out. -/
def sequence (indent : Nat) (statements : List Fragment) : Fragment :=
  match statements.filter (!·.isBlank) with
  | [] => []
  | first :: rest =>
    first ++ rest.flatMap fun next =>
      if next.first? = some '(' then
        .op .semicolon :: (match ℓ with
          | pretty => ℓ.lineBreak indent
          | minify => []) ++ next
      else ℓ.lineBreak indent ++ next

/-- A body between the lines that open and close it; `body` is a `sequence` one level deeper. -/
def enclosed (indent : Nat) (head body : Fragment) (tail : Fragment) : Fragment :=
  if body.isBlank then head ++ .blank :: tail
  else head ++ ℓ.lineBreak (indent + 1) ++ body ++ ℓ.lineBreak indent ++ tail

/-- A body behind the line that opens it. -/
def opened (indent : Nat) (head body : Fragment) : Fragment :=
  if body.isBlank then head else head ++ ℓ.lineBreak (indent + 1) ++ body

end Layout

/-- What printing statements and nodes needs to know about expressions. -/
structure Printer where
  layout : Layout
  /-- The node of an id. -/
  node : ExprId → Expr
  /-- An expression at an indentation. -/
  expr : Nat → ExprId → Fragment

/-- The spelling of an assignment operator. -/
def AssignOp.lexemes : AssignOp → Fragment
  | .set => [.op .assign]
  | .compound .add => [.op .plusAssign]
  | .compound .sub => [.op .minusAssign]
  | .compound .mul => [.op .starAssign]
  | .compound .div => [.op .slashAssign]
  | .compound .mod => [.op .percentAssign]
  | .compound .pow => [.op .caretAssign]
  | .compound .concat => [.op .concatAssign]
  | .compound op => [.op op.operator, .op .assign]

/-- A function path as written. -/
def FunctionPath.lexemes (p : FunctionPath) : Fragment :=
  let dotted (names : List String) : Fragment :=
    Fragment.joined [.op .dot] (names.map fun name => [.name name])
  match p.method, p.segments.getLast?, p.segments.dropLast with
  | true, some last, first :: more => dotted (first :: more) ++ [.op .colon, .name last]
  | _, _, _ => dotted p.segments

namespace Printer

variable (p : Printer)

/-- Expressions with commas between them. -/
def exprs (indent : Nat) (ids : List ExprId) : Fragment :=
  p.layout.listed (ids.map (p.expr indent))

def names (names : List String) : Fragment :=
  p.layout.listed (names.map fun name => [.name name])

/-! ## Statements -/

/-- `function name(params)`, or without a name. -/
def funcHead (name : Option Fragment) (params : List String) (variadic : Bool) : Fragment :=
  let params := params.map (fun name => [Lexeme.name name]) ++
    if variadic then [[Lexeme.op .ellipsis]] else []
  .word .function_ :: (match name with
      | some name => .blank :: name
      | none => []) ++
    Fragment.parenthesized (p.layout.listed params)

/-- A keyword, a blank, and what follows. -/
def after (word : Keyword) (f : Fragment) : Fragment := .word word :: .blank :: f

/-- `if condition then` and its kind. -/
def armHead (indent : Nat) (word : Keyword) (condition : ExprId) : Fragment :=
  after word (p.expr indent condition ++ [.blank, .word .then_])

/-- `keyword head do`. -/
def loopHead (word : Keyword) (head : Fragment) : Fragment :=
  after word (head ++ [.blank, .word .do_])

def importHead : ImportBinding → Fragment
  | .default name => [.word .import_, .blank, .name name]
  | .named names =>
    [.word .import_, .blank, .op .leftBrace, .blank] ++ p.names names ++
      [.blank, .op .rightBrace]

mutual

/-- A statement without the indentation of its first line. -/
def statement (indent : Nat) : Stmt → Fragment
  | ⟨kind, _⟩ => statementKind indent kind

def statementKind (indent : Nat) : StmtKind → Fragment
  | .ret [] => [.word .return_]
  | .ret (first :: rest) => after .return_ (p.exprs indent (first :: rest))
  | .localFunction name func => after .local_ (funcBody indent (some [.name name]) func)
  | .function path func => funcBody indent (some path.lexemes) func
  | .localDecl names [] => after .local_ (p.names names)
  | .localDecl names (first :: rest) =>
    after .local_ (p.names names ++ p.layout.equals ++ p.exprs indent (first :: rest))
  | .compoundAssign target op value =>
    p.layout.infixed (p.expr indent target) (AssignOp.compound op).lexemes (p.expr indent value)
  | .assign targets values =>
    p.exprs indent targets ++ p.layout.equals ++ p.exprs indent values
  | .call call => p.expr indent call
  | .break_ => [.word .break_]
  | .doBlock body => p.layout.enclosed indent [.word .do_] (block (indent + 1) body) [.word .end_]
  | .whileLoop condition body =>
    p.layout.enclosed indent (loopHead .while_ (p.expr indent condition))
      (block (indent + 1) body) [.word .end_]
  | .repeatLoop body condition =>
    p.layout.enclosed indent [.word .repeat_] (block (indent + 1) body)
      (after .until_ (p.expr indent condition))
  | .ifChain arm => ifArm indent .if_ arm
  | .forNumeric var start limit step body =>
    let range := p.exprs indent (start :: limit :: step.toList)
    p.layout.enclosed indent (loopHead .for_ (.name var :: p.layout.equals ++ range))
      (block (indent + 1) body) [.word .end_]
  | .forGeneric names iterators body =>
    let head := p.names names ++ [.blank, .word .in_, .blank] ++ p.exprs indent iterators
    p.layout.enclosed indent (loopHead .for_ head) (block (indent + 1) body) [.word .end_]
  | .importFrom binding source =>
    p.importHead binding ++ [.blank, .name "from", .blank] ++ p.expr indent source
  | .intrinsic expr [] => .op .atSign :: p.expr indent expr
  | .intrinsic expr (first :: rest) =>
    .op .atSign :: p.expr indent expr ++
      Fragment.parenthesized (p.exprs indent (first :: rest))
  | .ignore => []

/-- A function literal, or a named function if it has a name. -/
def funcBody (indent : Nat) (name : Option Fragment) : FuncBody → Fragment
  | ⟨params, variadic, body⟩ =>
    p.layout.enclosed indent (p.funcHead name params variadic) (block (indent + 1) body)
      [.word .end_]

/-- An arm with those that follow and the closing `end`. -/
def ifArm (indent : Nat) (word : Keyword) : IfArm → Fragment
  | ⟨condition, body, _, otherwise⟩ =>
    p.layout.opened indent (p.armHead indent word condition) (block (indent + 1) body) ++
      p.layout.lineBreak indent ++ elseArm indent otherwise

def elseArm (indent : Nat) : ElseArm → Fragment
  | .absent => [.word .end_]
  | .elseIf arm => ifArm indent .elseif_ arm
  | .elseBlock body _ =>
    p.layout.opened indent [.word .else_] (block (indent + 1) body) ++
      p.layout.lineBreak indent ++ [.word .end_]

/-- The statements of a list, each in its own fragment. -/
def statements (indent : Nat) : List Stmt → List Fragment
  | [] => []
  | s :: rest => statement indent s :: statements indent rest

/-- A statement list without the indentation of its first line. -/
def block (indent : Nat) : List Stmt → Fragment
  | [] => []
  | s :: rest =>
    p.layout.sequence indent (statement indent s :: statements indent rest)

end

/-! ## Expressions -/

/-- An expression before a suffix; only names and other suffixed or binary expressions can stand
there without parentheses. -/
def subject (indent : Nat) (id : ExprId) : Fragment :=
  match p.node id with
  | .atom (.name _) => p.expr indent id
  | .arith (.unary _ _) | .atom _ => Fragment.parenthesized (p.expr indent id)
  | .arith _ => p.expr indent id

/-- The left operand of a binary operation; `-a ^ b` would read as `-(a ^ b)`. -/
def leftOperand (indent : Nat) (op : BinaryOp) (id : ExprId) : Fragment :=
  match op, p.node id with
  | .pow, .arith (.unary _ _) => Fragment.parenthesized (p.expr indent id)
  | _, _ => p.expr indent id

def arith (indent : Nat) : Arith → Fragment
  | .binary op left right =>
    Fragment.parenthesized
      (p.layout.infixed (p.leftOperand indent op left) [.op op.operator] (p.expr indent right))
  | .unary .not operand => [.op .not, .blank] ++ p.expr indent operand
  | .unary op operand => Fragment.glue [.op op.operator] (p.expr indent operand)
  | .member object name => p.subject indent object ++ [.op .dot, .name name]
  | .subscript object key =>
    p.subject indent object ++ .op .leftBracket :: p.expr indent key ++ [.op .rightBracket]
  | .call target method args =>
    p.subject indent target ++
      (match method with
        | some name => [.op .colon, .name name]
        | none => []) ++
      Fragment.parenthesized (p.exprs indent args)
  | .assign op target value =>
    Fragment.parenthesized
      (p.layout.infixed (p.expr indent target) op.lexemes (p.expr indent value))

/-- The text of a string that can be written as a name before an equals sign. -/
def fieldName? (bytes : List UInt8) : Option String :=
  (Utf8.decode? bytes).filter Word.isName

/-- `key = value` in a table. -/
def field (indent : Nat) (key value : ExprId) : Fragment :=
  let bracketed := .op .leftBracket :: p.expr indent key ++ [.op .rightBracket]
  let key := match p.node key with
    | .atom (.string bytes) => ((fieldName? bytes).map fun name => [.name name]).getD bracketed
    | _ => bracketed
  key ++ p.layout.equals ++ p.expr indent value

/-- A table constructor. Keyed entries each have a line of their own in the pretty layout, and
the positional values share the last. -/
def table (indent : Nat) (t : Table) : Fragment :=
  let fields := t.keyed.map fun (key, value) => p.field (indent + 1) key value
  let values := p.exprs (indent + 1) t.positional
  let lines := fields ++ if values.isBlank then [] else [values]
  let inside := match fields with
    | [] => values
    | _ :: _ =>
      match p.layout with
      | .pretty =>
        p.layout.lineBreak (indent + 1) ++
          Fragment.joined (.op .semicolon :: p.layout.lineBreak (indent + 1)) lines ++
          p.layout.lineBreak indent
      | .minify => Fragment.joined [.op .semicolon] lines
  .op .leftBrace :: inside ++ [.op .rightBrace]

/-- An expression in braces. -/
def braced (indent : Nat) (id : ExprId) : Fragment :=
  .op .leftBrace :: p.expr indent id ++ [.op .rightBrace]

/-- A property of an element, with the blank before it. -/
def property (indent : Nat) (name : String) (value : ExprId) : Fragment :=
  [.blank, .name name] ++
    match p.node value with
    | .atom (.boolean true) => []
    | .atom (.string bytes) => [.op .assign, .token (.string bytes)]
    | _ => .op .assign :: p.braced indent value

/-- A child of an element; elements stand for themselves. -/
def child (indent : Nat) (id : ExprId) : Fragment :=
  match p.node id with
  | .atom (.element _) => p.expr indent id
  | _ => p.braced indent id

def element (indent : Nat) (e : Element) : Fragment :=
  [.op .lt, .name e.name] ++ (e.properties.flatMap fun (name, value) =>
      p.property indent name value) ++
    match e.children with
    | none => [.op .slash, .op .gt]
    | some children =>
      .op .gt :: children.flatMap (p.child indent) ++
        [.op .lt, .op .slash, .name e.name, .op .gt]

def atom (indent : Nat) : Atom → Fragment
  | .number value => Fragment.number value
  | .string bytes => [.token (.string bytes)]
  | .boolean true => [.word .true_]
  | .boolean false => [.word .false_]
  | .nil => [.word .nil_]
  | .name text => [.name text]
  | .vararg => [.op .ellipsis]
  | .table t => p.table indent t
  | .element e => p.element indent e
  | .func f => p.funcBody indent none f

/-- A node. -/
def expression (indent : Nat) : Expr → Fragment
  | .atom a => p.atom indent a
  | .arith a => p.arith indent a

end Printer

/-! ## Chunks -/

namespace Arena

/-- The printer that follows at most so many ids in a row. -/
def printerWithin (a : Arena) (ℓ : Layout) : Nat → Printer
  | 0 => ⟨ℓ, a.get, fun _ _ => []⟩
  | depth + 1 =>
    let p := a.printerWithin ℓ depth
    ⟨ℓ, a.get, fun indent id => p.expression indent (a.get id)⟩

/-- The printer of an arena. -/
def printer (a : Arena) (ℓ : Layout) : Printer := a.printerWithin ℓ (a.size + 1)

end Arena

namespace Layout

variable (ℓ : Layout)

/-- A statement list as text. -/
def renderBlock (a : Arena) (block : Block) : String := ((a.printer ℓ).block 0 block).text

/-- A statement as text. -/
def renderStmt (a : Arena) (s : Stmt) : String := ((a.printer ℓ).statement 0 s).text

/-- An expression as text. -/
def renderExpr (a : Arena) (id : ExprId) : String := ((a.printer ℓ).expr 0 id).text

/-- A function literal as text, or a named function. -/
def renderFunc (a : Arena) (name : Option FunctionPath) (f : FuncBody) : String :=
  ((a.printer ℓ).funcBody 0 (name.map FunctionPath.lexemes) f).text

/-- A chunk as text, which ends with a line feed unless it is empty. -/
def render (c : Chunk) : String :=
  let text := ℓ.renderBlock c.arena c.body
  if text.isEmpty then text else text ++ "\n"

end Layout

end LuaSugar
