import LuaSugar.Pass

/-!
# Intrinsics

`@intrinsic(args)` decorates the declaration that follows it:

* of a local declaration the intrinsic is called behind it, with a descriptor for each name: a
  table of the name, a getter and a setter;
* a function definition becomes an assignment of the decorated function, where decorating calls
  the intrinsic with the function's signature and the function;
* a local function is declared first, in place of the intrinsic, and then assigned likewise.

Before anything else an intrinsic is an error.
-/

namespace LuaSugar

/-- Why an intrinsic decorates nothing. -/
inductive IntrinsicError where
  /-- The statement that follows cannot be decorated. -/
  | target (line : Nat) (found : String)
  /-- No statement follows in the list. -/
  | dangling (line : Nat)
deriving DecidableEq, Repr

namespace IntrinsicError

def line : IntrinsicError → Nat
  | target line _ => line
  | dangling line => line

/-- Wording of the error. -/
def message : IntrinsicError → String
  | target _ found =>
    "intrinsic must precede a local declaration or a function definition, found " ++ found
  | dangling _ => "intrinsic is not followed by a statement"

end IntrinsicError

namespace Intrinsic

/-- A function literal that returns a variable. -/
def getter (name : String) (line : Nat) : Build ExprId := do
  Build.closure [] [.ret [← Build.name name] line]

/-- A function literal that assigns its argument to a variable. -/
def setter (name : String) (line : Nat) : Build ExprId := do
  let target ← Build.name name
  let value ← Build.name "v"
  Build.closure ["v"] [.assign [target] [value] line]

/-- The table of a variable's name, getter and setter. -/
def descriptor (line : Nat) (name : String) : Build ExprId := do
  let get ← getter name line
  let set ← setter name line
  let label ← Build.text name
  let t ← Build.pushNamed .empty "name" label
  let t ← Build.pushNamed t "get" get
  let t ← Build.pushNamed t "set" set
  Build.table t

/-- `name(params)`, the text that an intrinsic sees of a function. -/
def signature (name : String) (func : FuncBody) : String :=
  name ++ "(" ++ ", ".intercalate func.signature ++ ")"

/-- The call of an intrinsic with a signature and a function behind its own arguments. -/
def decorate (intrinsic : ExprId) (args : List ExprId) (signature : String) (func : FuncBody) :
    Build ExprId := do
  let text ← Build.text signature
  let literal ← Build.alloc (.atom (.func func))
  Build.call intrinsic (args ++ [text, literal])

/-- The function of a definition; a method has a parameter `self` in front. -/
def definedFunction (path : FunctionPath) (func : FuncBody) : FuncBody :=
  if path.method then { func with params := "self" :: func.params } else func

/-- Decorate the statement behind an intrinsic. The answer is the cursor on that statement, and
what stays in place of the intrinsic. -/
def decorateNext (line : Nat) (intrinsic : ExprId) (args : List ExprId) (next : Cursor) :
    Edit Unit IntrinsicError (Cursor × Stmt) := do
  match next.stmt.kind with
  | .localDecl names _ =>
    let call ← Edit.build do
      let descriptors ← names.mapM (descriptor next.line)
      Build.call intrinsic (args ++ descriptors)
    pure (next.insertAfter (.call call next.line), .ignore line)
  | .function path func =>
    let func := definedFunction path func
    match ← Edit.build (Build.path path.segments) with
    | some target =>
      let call ← Edit.build (decorate intrinsic args (signature path.dotted func) func)
      pure (next.replace (.assign [target] [call] next.line), .ignore line)
    | none => pure (next.remove, ⟨.intrinsic intrinsic args, line⟩)
  | .localFunction name func =>
    let target ← Edit.build (Build.name name)
    let call ← Edit.build (decorate intrinsic args (signature name func) func)
    pure (next.replace (.assign [target] [call] next.line), .localDecl [name] [] line)
  | other => throw (.target line other.describe)

def pass : Pass Unit IntrinsicError := .ofStatement fun cursor => do
  match cursor.stmt.kind with
  | .intrinsic intrinsic args =>
    match cursor.next? with
    | none => throw (.dangling cursor.line)
    | some next =>
      let (next, left) ← decorateNext cursor.line intrinsic args next
      pure ((next.backTo cursor.index).replace left)
  | _ => pure cursor

end Intrinsic

/-- Apply every intrinsic to the declaration behind it. The chunk also comes back after an
error, as far as it was changed by then. -/
def expandIntrinsics (c : Chunk) : Chunk × Option IntrinsicError :=
  let outcome := Intrinsic.pass.run () c
  (outcome.chunk, outcome.failure)

end LuaSugar
