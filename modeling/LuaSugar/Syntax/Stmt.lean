import LuaSugar.Syntax

/-!
# Statements and what they hold

A statement holds expressions (`roots`), nested statement lists (`blocks`) and, through both, ids
at any depth. `roots` and `blocks` are disjoint views: what stands in a nested list belongs to
that list's statements. An `if` with all its arms is one statement, so the conditions of its
later arms are roots of it.
-/

namespace LuaSugar

/-! ## Direct contents -/

mutual

/-- The conditions of a chain of arms, in order. -/
def IfArm.conditions : IfArm → List ExprId
  | ⟨condition, _, _, otherwise⟩ => condition :: otherwise.conditions

def ElseArm.conditions : ElseArm → List ExprId
  | .absent => []
  | .elseIf arm => arm.conditions
  | .elseBlock _ _ => []

end

mutual

/-- The statement lists of a chain of arms, in order. -/
def IfArm.bodies : IfArm → List Block
  | ⟨_, body, _, otherwise⟩ => body :: otherwise.bodies

def ElseArm.bodies : ElseArm → List Block
  | .absent => []
  | .elseIf arm => arm.bodies
  | .elseBlock body _ => [body]

end

namespace StmtKind

/-- Expressions that the statement owns directly. -/
def roots : StmtKind → List ExprId
  | ret values => values
  | localDecl _ values => values
  | compoundAssign target _ value => [target, value]
  | assign targets values => targets ++ values
  | call c => [c]
  | whileLoop condition _ => [condition]
  | repeatLoop _ condition => [condition]
  | ifChain arm => arm.conditions
  | forNumeric _ start limit step _ => start :: limit :: step.toList
  | forGeneric _ iterators _ => iterators
  | importFrom _ source => [source]
  | intrinsic expr args => expr :: args
  | localFunction _ _ | function _ _ | break_ | doBlock _ | ignore => []

/-- Nested statement lists. -/
def blocks : StmtKind → List Block
  | localFunction _ f | function _ f => [f.body]
  | doBlock body | whileLoop _ body | repeatLoop body _ | forNumeric _ _ _ _ body
  | forGeneric _ _ body => [body]
  | ifChain arm => arm.bodies
  | _ => []

/-- What messages call the statement. -/
def describe : StmtKind → String
  | ret _ => "return statement"
  | localFunction _ _ => "local function"
  | function _ _ => "function definition"
  | localDecl _ _ => "local declaration"
  | compoundAssign _ _ _ => "compound assignment"
  | assign _ _ => "assignment"
  | call _ => "call"
  | break_ => "break"
  | doBlock _ => "do block"
  | whileLoop _ _ => "while loop"
  | repeatLoop _ _ => "repeat loop"
  | ifChain _ => "if statement"
  | forNumeric _ _ _ _ _ | forGeneric _ _ _ => "for loop"
  | importFrom _ _ => "import"
  | intrinsic _ _ => "intrinsic"
  | ignore => "nothing"

end StmtKind

namespace Stmt

/-- Deletions leave ignored statements behind. -/
def isIgnored (s : Stmt) : Bool :=
  match s.kind with
  | .ignore => true
  | _ => false

def localDecl (names : List String) (values : List ExprId) (line : Nat) : Stmt :=
  ⟨.localDecl names values, line⟩

def assign (targets values : List ExprId) (line : Nat) : Stmt := ⟨.assign targets values, line⟩

def call (c : ExprId) (line : Nat) : Stmt := ⟨.call c, line⟩

def ret (values : List ExprId) (line : Nat) : Stmt := ⟨.ret values, line⟩

def ignore (line : Nat) : Stmt := ⟨.ignore, line⟩

end Stmt

/-! ## Changing nested lists -/

section MapBlocks

variable {m : Type → Type} [Monad m] (f : Block → m Block)

mutual

def IfArm.mapBodiesM : IfArm → m IfArm
  | ⟨condition, body, line, otherwise⟩ => do
    let body ← f body
    let otherwise ← otherwise.mapBodiesM
    pure ⟨condition, body, line, otherwise⟩

def ElseArm.mapBodiesM : ElseArm → m ElseArm
  | .absent => pure .absent
  | .elseIf arm => do pure (.elseIf (← arm.mapBodiesM))
  | .elseBlock body line => do pure (.elseBlock (← f body) line)

end

def FuncBody.mapBodyM (func : FuncBody) : m FuncBody := do
  let body ← f func.body
  pure { func with body }

/-- Replace the nested statement lists, in the order of `blocks`. -/
def StmtKind.mapBlocksM : StmtKind → m StmtKind
  | .localFunction name func => do pure (.localFunction name (← func.mapBodyM f))
  | .function path func => do pure (.function path (← func.mapBodyM f))
  | .doBlock body => do pure (.doBlock (← f body))
  | .whileLoop condition body => do pure (.whileLoop condition (← f body))
  | .repeatLoop body condition => do pure (.repeatLoop (← f body) condition)
  | .ifChain arm => do pure (.ifChain (← arm.mapBodiesM f))
  | .forNumeric var start limit step body => do
    pure (.forNumeric var start limit step (← f body))
  | .forGeneric names iterators body => do pure (.forGeneric names iterators (← f body))
  | kind => pure kind

end MapBlocks

/-! ## Recursion through every level -/

mutual

/-- Rename every id of a statement, nested lists included. -/
def Stmt.mapIds (f : ExprId → ExprId) : Stmt → Stmt
  | ⟨kind, line⟩ => ⟨kind.mapIds f, line⟩

def StmtKind.mapIds (f : ExprId → ExprId) : StmtKind → StmtKind
  | .ret values => .ret (values.map f)
  | .localFunction name func => .localFunction name (func.mapIds f)
  | .function path func => .function path (func.mapIds f)
  | .localDecl names values => .localDecl names (values.map f)
  | .compoundAssign target op value => .compoundAssign (f target) op (f value)
  | .assign targets values => .assign (targets.map f) (values.map f)
  | .call c => .call (f c)
  | .break_ => .break_
  | .doBlock body => .doBlock (Block.mapIds f body)
  | .whileLoop condition body => .whileLoop (f condition) (Block.mapIds f body)
  | .repeatLoop body condition => .repeatLoop (Block.mapIds f body) (f condition)
  | .ifChain arm => .ifChain (arm.mapIds f)
  | .forNumeric var start limit step body =>
    .forNumeric var (f start) (f limit) (step.map f) (Block.mapIds f body)
  | .forGeneric names iterators body => .forGeneric names (iterators.map f) (Block.mapIds f body)
  | .importFrom binding source => .importFrom binding (f source)
  | .intrinsic expr args => .intrinsic (f expr) (args.map f)
  | .ignore => .ignore

def FuncBody.mapIds (f : ExprId → ExprId) : FuncBody → FuncBody
  | ⟨params, variadic, body⟩ => ⟨params, variadic, Block.mapIds f body⟩

def IfArm.mapIds (f : ExprId → ExprId) : IfArm → IfArm
  | ⟨condition, body, line, otherwise⟩ =>
    ⟨f condition, Block.mapIds f body, line, otherwise.mapIds f⟩

def ElseArm.mapIds (f : ExprId → ExprId) : ElseArm → ElseArm
  | .absent => .absent
  | .elseIf arm => .elseIf (arm.mapIds f)
  | .elseBlock body line => .elseBlock (Block.mapIds f body) line

/-- Rename every id of a statement list. -/
def Block.mapIds (f : ExprId → ExprId) : List Stmt → List Stmt
  | [] => []
  | s :: rest => s.mapIds f :: Block.mapIds f rest

end

mutual

/-- How many statements a statement is, itself and all nested ones. -/
def Stmt.size : Stmt → Nat
  | ⟨kind, _⟩ => kind.size + 1

def StmtKind.size : StmtKind → Nat
  | .localFunction _ func => func.size
  | .function _ func => func.size
  | .doBlock body => Block.size body
  | .whileLoop _ body => Block.size body
  | .repeatLoop body _ => Block.size body
  | .ifChain arm => arm.size
  | .forNumeric _ _ _ _ body => Block.size body
  | .forGeneric _ _ body => Block.size body
  | _ => 0

def FuncBody.size : FuncBody → Nat
  | ⟨_, _, body⟩ => Block.size body

def IfArm.size : IfArm → Nat
  | ⟨_, body, _, otherwise⟩ => Block.size body + otherwise.size

def ElseArm.size : ElseArm → Nat
  | .absent => 0
  | .elseIf arm => arm.size
  | .elseBlock body _ => Block.size body

/-- How many statements a list holds at any depth. -/
def Block.size : List Stmt → Nat
  | [] => 0
  | s :: rest => s.size + Block.size rest

end

end LuaSugar
