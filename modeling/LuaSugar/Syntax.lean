import LuaSugar.Token

/-!
# Syntax

A chunk is an arena of expressions and a list of statements. Expressions refer to each other by
`ExprId`, their position in the arena, so a pass may change one node and every holder of its
id sees the change; statements own their nested statement lists outright.

Because ids carry the sharing, the statement types are the only recursive ones. They are declared
together and everything that has to look into nested statement lists recurses on them
structurally; an expression is a flat record of ids, except that a function literal holds a
statement list.
-/

namespace LuaSugar

/-- The position of an expression in its arena. -/
structure ExprId where
  index : Nat
deriving DecidableEq, Repr, Inhabited

/-! ## Operators of expressions -/

inductive BinaryOp where
  | add | sub | mul | div | mod | pow | concat
  | eq | ne | lt | le | gt | ge
  | and | or
deriving DecidableEq, Repr

namespace BinaryOp

/-- The operator that is written for it. -/
def operator : BinaryOp → Operator
  | add => .plus
  | sub => .minus
  | mul => .star
  | div => .slash
  | mod => .percent
  | pow => .caret
  | concat => .dotDot
  | eq => .eq
  | ne => .ne
  | lt => .lt
  | le => .le
  | gt => .gt
  | ge => .ge
  | and => .and
  | or => .or

def all : List BinaryOp :=
  [add, sub, mul, div, mod, pow, concat, eq, ne, lt, le, gt, ge, and, or]

/-- The operation that an operator between two operands denotes. -/
def ofOperator? (op : Operator) : Option BinaryOp := all.find? fun b => b.operator == op

/-- The arithmetic behind a compound assignment such as `+=`. -/
def ofCompound? : Operator → Option BinaryOp
  | .plusAssign => some add
  | .minusAssign => some sub
  | .starAssign => some mul
  | .slashAssign => some div
  | .percentAssign => some mod
  | .caretAssign => some pow
  | .concatAssign => some concat
  | _ => none

end BinaryOp

inductive UnaryOp where
  | not | len | neg
deriving DecidableEq, Repr

namespace UnaryOp

/-- The operator that is written for it. -/
def operator : UnaryOp → Operator
  | not => .not
  | len => .hash
  | neg => .minus

/-- The operation that an operator before an operand denotes. -/
def ofOperator? : Operator → Option UnaryOp
  | .not => some not
  | .hash => some len
  | .minus => some neg
  | _ => none

end UnaryOp

/-- `=` or a compound form such as `+=`. -/
inductive AssignOp where
  | set
  | compound (op : BinaryOp)
deriving DecidableEq, Repr

/-- The spelling of an assignment operator; every binary operator has a compound form here,
although only arithmetic and concatenation have a token for it. -/
def AssignOp.text : AssignOp → String
  | set => "="
  | compound op => op.operator.text ++ "="

/-! ## Names of functions and imports -/

/-- `a.b.c` or `a.b:c` in a function statement. -/
structure FunctionPath where
  segments : List String
  /-- The last segment follows a colon. -/
  method : Bool
deriving DecidableEq, Repr

namespace FunctionPath

/-- The segments with dots between them. -/
def dotted (p : FunctionPath) : String := ".".intercalate p.segments

/-- The path as written. -/
def text (p : FunctionPath) : String :=
  match p.method, p.segments.getLast?, p.segments.dropLast with
  | true, some last, first :: more => ".".intercalate (first :: more) ++ ":" ++ last
  | _, _, _ => p.dotted

end FunctionPath

inductive ImportBinding where
  /-- `import name from source` -/
  | default (name : String)
  /-- `import`, names in braces, `from source` -/
  | named (names : List String)
deriving DecidableEq, Repr

/-! ## Statements -/

mutual

/-- A statement and the line it begins on. -/
structure Stmt where
  kind : StmtKind
  line : Nat

inductive StmtKind where
  | ret (values : List ExprId)
  | localFunction (name : String) (func : FuncBody)
  | function (path : FunctionPath) (func : FuncBody)
  | localDecl (names : List String) (values : List ExprId)
  | compoundAssign (target : ExprId) (op : BinaryOp) (value : ExprId)
  | assign (targets : List ExprId) (values : List ExprId)
  | call (call : ExprId)
  | break_
  | doBlock (body : List Stmt)
  | whileLoop (condition : ExprId) (body : List Stmt)
  | repeatLoop (body : List Stmt) (condition : ExprId)
  | ifChain (arm : IfArm)
  | forNumeric (var : String) (start limit : ExprId) (step : Option ExprId) (body : List Stmt)
  | forGeneric (names : List String) (iterators : List ExprId) (body : List Stmt)
  | importFrom (binding : ImportBinding) (source : ExprId)
  /-- `@expr(args)`, attached to the declaration that follows. -/
  | intrinsic (expr : ExprId) (args : List ExprId)
  /-- What a deletion leaves behind; it is never written. -/
  | ignore

/-- Parameters and body of a function. -/
structure FuncBody where
  params : List String
  variadic : Bool
  body : List Stmt

/-- A condition with its statements and what applies otherwise. -/
structure IfArm where
  condition : ExprId
  body : List Stmt
  line : Nat
  otherwise : ElseArm

inductive ElseArm where
  | absent
  | elseIf (arm : IfArm)
  | elseBlock (body : List Stmt) (line : Nat)

end

/-- A statement list. -/
abbrev Block := List Stmt

instance : Inhabited Stmt := ⟨⟨.ignore, 0⟩⟩

/-- Parameter names as written, a trailing `...` included. -/
def FuncBody.signature (f : FuncBody) : List String :=
  if f.variadic then f.params ++ ["..."] else f.params

/-! ## Expressions -/

inductive TableKey where
  /-- The position among the positional entries, from one. -/
  | positional (index : Nat)
  | expr (key : ExprId)
deriving DecidableEq, Repr

/-- The entries of a table constructor in source order. -/
structure Table where
  entries : List (TableKey × ExprId)
deriving DecidableEq, Repr

/-- An element literal, `<Name prop="v" other={e}>{child}<Nested/></Name>`. -/
structure Element where
  name : String
  properties : List (String × ExprId)
  /-- `none` if the element closes itself. -/
  children : Option (List ExprId)
deriving DecidableEq, Repr

inductive Atom where
  | number (value : Double)
  | string (bytes : List UInt8)
  | boolean (value : Bool)
  | nil
  | name (text : String)
  | vararg
  | table (table : Table)
  | element (element : Element)
  | func (func : FuncBody)

inductive Arith where
  | binary (op : BinaryOp) (left right : ExprId)
  | unary (op : UnaryOp) (operand : ExprId)
  | member (object : ExprId) (name : String)
  | subscript (object key : ExprId)
  /-- `target(args)`, or `target:method(args)`. -/
  | call (target : ExprId) (method : Option String) (args : List ExprId)
  /-- An assignment used as a value. -/
  | assign (op : AssignOp) (target value : ExprId)
deriving DecidableEq, Repr

inductive Expr where
  | atom (atom : Atom)
  | arith (arith : Arith)

/-- The expressions of a chunk, by id. -/
structure Arena where
  nodes : Array Expr

/-- A parsed source text. -/
structure Chunk where
  arena : Arena
  body : Block

namespace Table

def empty : Table := ⟨[]⟩

/-- How many entries are positional. -/
def positionalCount (t : Table) : Nat :=
  t.entries.countP fun entry => match entry.1 with
    | .positional _ => true
    | .expr _ => false

/-- Add a value at the next position. -/
def pushPositional (t : Table) (value : ExprId) : Table :=
  ⟨t.entries ++ [(.positional (t.positionalCount + 1), value)]⟩

/-- Add a value under a key. -/
def pushKeyed (t : Table) (key value : ExprId) : Table := ⟨t.entries ++ [(.expr key, value)]⟩

/-- The keyed entries in order. -/
def keyed (t : Table) : List (ExprId × ExprId) :=
  t.entries.filterMap fun entry => match entry.1 with
    | .positional _ => none
    | .expr key => some (key, entry.2)

/-- The positional values in order. -/
def positional (t : Table) : List ExprId :=
  t.entries.filterMap fun entry => match entry.1 with
    | .positional _ => some entry.2
    | .expr _ => none

end Table

end LuaSugar
