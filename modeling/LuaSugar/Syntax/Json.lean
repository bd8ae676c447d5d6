import LuaSugar.Json
import LuaSugar.Syntax

/-!
# Syntax as JSON

The form in which a chunk is shown to other tools: every node of the arena by position, and the
statements with the ids they hold. An alternative without data is a string, any other an object
with one member. How numbers are shown is left to the caller, because JSON has no infinities.
-/

namespace LuaSugar

/-- An alternative with data. -/
private def tagged (tag : String) (value : Json) : Json := .object [(tag, value)]

def ExprId.toJson (id : ExprId) : Json := .nat id.index

private def ids (list : List ExprId) : Json := .array (list.map ExprId.toJson)

private def optionalId (id : Option ExprId) : Json := Json.ofOption ExprId.toJson id

def BinaryOp.toJson : BinaryOp → Json
  | add => .string "Add"
  | sub => .string "Sub"
  | mul => .string "Mul"
  | div => .string "Div"
  | mod => .string "Mod"
  | pow => .string "Pow"
  | concat => .string "Concat"
  | eq => .string "Eq"
  | ne => .string "Ne"
  | lt => .string "Lt"
  | le => .string "Le"
  | gt => .string "Gt"
  | ge => .string "Ge"
  | and => .string "And"
  | or => .string "Or"

def UnaryOp.toJson : UnaryOp → Json
  | not => .string "Not"
  | len => .string "Len"
  | neg => .string "Neg"

def AssignOp.toJson : AssignOp → Json
  | set => .string "Set"
  | compound op => tagged "Compound" op.toJson

def FunctionPath.toJson (p : FunctionPath) : Json :=
  .object [("segments", Json.ofStrings p.segments), ("method", .bool p.method)]

def ImportBinding.toJson : ImportBinding → Json
  | default name => tagged "Default" (.string name)
  | named names => tagged "Named" (Json.ofStrings names)

mutual

def Stmt.toJson : Stmt → Json
  | ⟨kind, line⟩ => .object [("kind", kind.toJson), ("line", .nat line)]

def StmtKind.toJson : StmtKind → Json
  | .ret values => tagged "Return" (ids values)
  | .localFunction name func =>
    tagged "LocalFunction" (.object [("name", .string name), ("func", func.toJson)])
  | .function path func =>
    tagged "Function" (.object [("path", path.toJson), ("func", func.toJson)])
  | .localDecl names values =>
    tagged "Local" (.object [("names", Json.ofStrings names), ("values", ids values)])
  | .compoundAssign target op value =>
    tagged "CompoundAssign"
      (.object [("target", target.toJson), ("op", op.toJson), ("value", value.toJson)])
  | .assign targets values =>
    tagged "Assign" (.object [("targets", ids targets), ("values", ids values)])
  | .call call => tagged "Call" call.toJson
  | .break_ => .string "Break"
  | .doBlock body => tagged "Do" (.array (Block.toJson body))
  | .whileLoop condition body =>
    tagged "While"
      (.object [("condition", condition.toJson), ("body", .array (Block.toJson body))])
  | .repeatLoop body condition =>
    tagged "Repeat"
      (.object [("body", .array (Block.toJson body)), ("condition", condition.toJson)])
  | .ifChain arm => tagged "If" arm.toJson
  | .forNumeric var start limit step body =>
    tagged "ForNumeric"
      (.object [("var", .string var), ("start", start.toJson), ("limit", limit.toJson),
        ("step", optionalId step), ("body", .array (Block.toJson body))])
  | .forGeneric names iterators body =>
    tagged "ForGeneric"
      (.object [("names", Json.ofStrings names), ("iterators", ids iterators),
        ("body", .array (Block.toJson body))])
  | .importFrom binding source =>
    tagged "Import" (.object [("binding", binding.toJson), ("source", source.toJson)])
  | .intrinsic expr args =>
    tagged "Intrinsic" (.object [("expr", expr.toJson), ("args", ids args)])
  | .ignore => .string "Ignore"

def FuncBody.toJson : FuncBody → Json
  | ⟨params, variadic, body⟩ =>
    .object [("params", Json.ofStrings params), ("variadic", .bool variadic),
      ("body", .array (Block.toJson body))]

def IfArm.toJson : IfArm → Json
  | ⟨condition, body, line, otherwise⟩ =>
    .object [("condition", condition.toJson), ("body", .array (Block.toJson body)),
      ("line", .nat line), ("otherwise", otherwise.toJson)]

def ElseArm.toJson : ElseArm → Json
  | .absent => .null
  | .elseIf arm => tagged "ElseIf" arm.toJson
  | .elseBlock body line =>
    tagged "Else" (.object [("body", .array (Block.toJson body)), ("line", .nat line)])

def Block.toJson : List Stmt → List Json
  | [] => []
  | s :: rest => s.toJson :: Block.toJson rest

end

def TableKey.toJson : TableKey → Json
  | positional index => tagged "Positional" (.nat index)
  | expr key => tagged "Expr" key.toJson

def Table.toJson (t : Table) : Json :=
  .object [("entries", .array (t.entries.map fun (key, value) =>
    .array [key.toJson, value.toJson]))]

def Element.toJson (e : Element) : Json :=
  .object [("name", .string e.name),
    ("properties", .array (e.properties.map fun (name, value) =>
      .array [.string name, value.toJson])),
    ("children", Json.ofOption ids e.children)]

/-- A byte string, which need not be a text. -/
def bytesToJson (bytes : List UInt8) : Json := .array (bytes.map fun b => .nat b.toNat)

section Numbers

variable (number : Double → Json)

def Atom.toJson : Atom → Json
  | .number value => tagged "Number" (number value)
  | .string bytes => tagged "String" (bytesToJson bytes)
  | .boolean value => tagged "Boolean" (.bool value)
  | .nil => .string "Nil"
  | .name text => tagged "Name" (.string text)
  | .vararg => .string "Vararg"
  | .table t => tagged "Table" t.toJson
  | .element e => tagged "Element" e.toJson
  | .func f => tagged "Func" f.toJson

def Arith.toJson : Arith → Json
  | .binary op left right =>
    tagged "Binary"
      (.object [("op", op.toJson), ("left", left.toJson), ("right", right.toJson)])
  | .unary op operand =>
    tagged "Unary" (.object [("op", op.toJson), ("operand", operand.toJson)])
  | .member object name =>
    tagged "Member" (.object [("object", object.toJson), ("name", .string name)])
  | .subscript object key =>
    tagged "Index" (.object [("object", object.toJson), ("key", key.toJson)])
  | .call target method args =>
    tagged "Call" (.object [("target", target.toJson), ("method", Json.ofOption .string method),
      ("args", ids args)])
  | .assign op target value =>
    tagged "Assign"
      (.object [("op", op.toJson), ("target", target.toJson), ("value", value.toJson)])

def Expr.toJson : Expr → Json
  | .atom a => tagged "Atom" (a.toJson number)
  | .arith a => tagged "Arith" a.toJson

/-- A chunk, unreachable nodes included. -/
def Chunk.toJson (c : Chunk) : Json :=
  .object [("arena", .object [("nodes", .array (c.arena.nodes.toList.map (Expr.toJson number)))]),
    ("body", .array (Block.toJson c.body))]

end Numbers

end LuaSugar
