import LuaSugar.Syntax.Stmt

/-!
# Arenas

Allocation, lookup, replacement, the nodes below a node, and moving one arena into another.

An arena only grows: a pass allocates new nodes behind the old ones and overwrites slots in
place. Reading below a node follows ids, and in an arena without cycles a chain of ids is no
longer than the arena; that length is the depth to which `descendants` looks, so the bound never
shows.
-/

namespace LuaSugar

namespace Expr

/-- Child expressions in source order. The body of a function literal consists of statements and
is not looked into. -/
def children : Expr → List ExprId
  | atom (.table t) => t.entries.flatMap fun (key, value) => match key with
    | .positional _ => [value]
    | .expr key => [key, value]
  | atom (.element e) => e.properties.map (·.2) ++ e.children.getD []
  | atom _ => []
  | arith (.binary _ left right) => [left, right]
  | arith (.unary _ operand) => [operand]
  | arith (.member object _) => [object]
  | arith (.subscript object key) => [object, key]
  | arith (.call target _ args) => target :: args
  | arith (.assign _ target value) => [target, value]

/-- Atoms are the leaves of expressions, also those with children of their own. -/
def isAtom : Expr → Bool
  | atom _ => true
  | arith _ => false

/-- Rename every id of a node, those in the body of a function literal included. -/
def mapIds (f : ExprId → ExprId) : Expr → Expr
  | atom (.table t) => atom (.table ⟨t.entries.map fun (key, value) => match key with
    | .positional index => (.positional index, f value)
    | .expr key => (.expr (f key), f value)⟩)
  | atom (.element e) => atom (.element
    { e with
      properties := e.properties.map fun (name, value) => (name, f value)
      children := e.children.map (·.map f) })
  | atom (.func func) => atom (.func (func.mapIds f))
  | atom a => atom a
  | arith (.binary op left right) => arith (.binary op (f left) (f right))
  | arith (.unary op operand) => arith (.unary op (f operand))
  | arith (.member object name) => arith (.member (f object) name)
  | arith (.subscript object key) => arith (.subscript (f object) (f key))
  | arith (.call target method args) => arith (.call (f target) method (args.map f))
  | arith (.assign op target value) => arith (.assign op (f target) (f value))

/-- The literal or name `nil`, `true`, `x`, … -/
def ofName (text : String) : Expr := .atom (.name text)

/-- A string literal with the bytes of a text. -/
def ofText (text : String) : Expr := .atom (.string (Utf8.encode text))

/-- A call without a method name. -/
def call (target : ExprId) (args : List ExprId) : Expr := .arith (.call target none args)

end Expr

namespace Arena

def empty : Arena := ⟨#[]⟩

def size (a : Arena) : Nat := a.nodes.size

/-- The node of an id; ids outside the arena read as `nil`. -/
def get (a : Arena) (id : ExprId) : Expr := a.nodes.getD id.index (.atom .nil)

/-- Overwrite the node of an id. -/
def set (a : Arena) (id : ExprId) (e : Expr) : Arena := ⟨a.nodes.setIfInBounds id.index e⟩

/-- The body of a function literal. -/
def body? (a : Arena) (id : ExprId) : Option Block :=
  match a.get id with
  | .atom (.func func) => some func.body
  | _ => none

/-- Give a function literal another body; other nodes stay as they are. -/
def setBody (a : Arena) (id : ExprId) (body : Block) : Arena :=
  match a.get id with
  | .atom (.func func) => a.set id (.atom (.func { func with body }))
  | _ => a

/-- Add a node behind the others. -/
def alloc (a : Arena) (e : Expr) : ExprId × Arena := (⟨a.nodes.size⟩, ⟨a.nodes.push e⟩)

/-- The nodes below `id` along chains of at most `depth` ids, children before parents. -/
def descendantsWithin (a : Arena) : Nat → ExprId → List ExprId
  | 0, _ => []
  | depth + 1, id => (a.get id).children.flatMap (a.descendantsWithin depth) ++ [id]

/-- Every node reachable from `id`, children before parents and a shared node once per path. -/
def descendants (a : Arena) (id : ExprId) : List ExprId := a.descendantsWithin (a.size + 1) id

/-- The atoms reachable from `id`. -/
def leaves (a : Arena) (id : ExprId) : List ExprId :=
  (a.descendants id).filter fun id => (a.get id).isAtom

/-- The id of a node that moved behind `offset` others. -/
def shift (offset : Nat) (id : ExprId) : ExprId := ⟨id.index + offset⟩

/-- Move the nodes of a chunk behind those of the arena; its body comes back with the ids its
nodes have there. -/
def graft (a : Arena) (chunk : Chunk) : Block × Arena :=
  let rename := shift a.size
  (Block.mapIds rename chunk.body, ⟨a.nodes ++ chunk.arena.nodes.map (Expr.mapIds rename)⟩)

end Arena

/-- Statements of a chunk at any depth, those in function literals included. -/
def Chunk.statementCount (c : Chunk) : Nat :=
  Block.size c.body + c.arena.nodes.foldl (fun n e => match e with
    | .atom (.func func) => n + func.size
    | _ => n) 0

/-! ## Building nodes -/

/-- Computations that allocate nodes. -/
abbrev Build := StateM Arena

namespace Build

def alloc (e : Expr) : Build ExprId := modifyGet fun a => a.alloc e

def name (text : String) : Build ExprId := alloc (.ofName text)

def string (bytes : List UInt8) : Build ExprId := alloc (.atom (.string bytes))

def text (text : String) : Build ExprId := alloc (.ofText text)

def number (value : Double) : Build ExprId := alloc (.atom (.number value))

def boolean (value : Bool) : Build ExprId := alloc (.atom (.boolean value))

def nil : Build ExprId := alloc (.atom .nil)

def table (t : Table) : Build ExprId := alloc (.atom (.table t))

/-- A function literal with fixed parameters. -/
def closure (params : List String) (body : Block) : Build ExprId :=
  alloc (.atom (.func ⟨params, false, body⟩))

/-- A function literal whose only parameter is `...`. -/
def varargClosure (body : Block) : Build ExprId := alloc (.atom (.func ⟨[], true, body⟩))

def binary (op : BinaryOp) (left right : ExprId) : Build ExprId :=
  alloc (.arith (.binary op left right))

def member (object : ExprId) (name : String) : Build ExprId := alloc (.arith (.member object name))

def subscript (object key : ExprId) : Build ExprId := alloc (.arith (.subscript object key))

def call (target : ExprId) (args : List ExprId) : Build ExprId := alloc (.call target args)

/-- `a.b.c` from its segments. -/
def path : List String → Build (Option ExprId)
  | [] => pure none
  | first :: rest => do
    let root ← name first
    pure (some (← rest.foldlM member root))

/-- Add an entry under a name to a table under construction; the key is a node of its own. -/
def pushNamed (t : Table) (key : String) (value : ExprId) : Build Table := do
  pure (t.pushKeyed (← text key) value)

end Build

end LuaSugar
