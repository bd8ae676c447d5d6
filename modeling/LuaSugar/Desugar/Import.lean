import LuaSugar.Pass

/-!
# Imports

An import becomes a call of `require`:

* `import a from "m"` becomes `local a = require("m")`;
* an import of several names binds the module to a holder first and then reads the names from
  it, `local __import0 = require("m")` and `local b, c = __import0.b, __import0.c`.

Holders are numbered over the whole chunk.
-/

namespace LuaSugar

namespace Import

/-- The name of a holder. -/
def holder (count : Nat) : String := "__import" ++ String.ofList (Nat.toDigits 10 count)

/-- `holder.name`. -/
def readMember (holder name : String) : Build ExprId := do
  Build.member (← Build.name holder) name

/-- The state is the number of holders so far. -/
def pass : Pass Nat Empty := .ofStatement fun cursor => do
  let line := cursor.line
  match cursor.stmt.kind with
  | .importFrom binding source =>
    let module ← Edit.build do Build.call (← Build.name "require") [source]
    match binding with
    | .default name => pure (cursor.replace (.localDecl [name] [module] line))
    | .named names =>
      let count ← Edit.state
      Edit.setState (count + 1)
      let values ← Edit.build (names.mapM (readMember (holder count)))
      pure ((cursor.insertBefore (.localDecl [holder count] [module] line)).replace
        (.localDecl names values line))
  | _ => pure cursor

end Import

/-- Replace every import by declarations. -/
def expandImports (c : Chunk) : Chunk := (Import.pass.run 0 c).chunk

end LuaSugar
