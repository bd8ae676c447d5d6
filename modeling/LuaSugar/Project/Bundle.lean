import LuaSugar.Syntax.Arena

/-!
# Bundles

A bundle is an entry with other modules in front of it and a `require` of its own that finds them:

```
local __LU_REQUIRE, __LU_UNPACK, __LU_IMPORT_CACHE = require, unpack or table.unpack, {}
local __LU_IMPORT_TABLE = { ["mod"] = function(...) ... end }
require = function(input)
  local tryCache = __LU_IMPORT_CACHE[input]
  if tryCache then
    return __LU_UNPACK(tryCache)
  else
    local module = __LU_IMPORT_TABLE[input]
    if module then
      tryCache = { module(input) }
      __LU_IMPORT_CACHE[input] = tryCache
    else
      return __LU_REQUIRE(input)
    end
  end
  return __LU_UNPACK(tryCache)
end
```

**A module runs once.** What it returns is remembered in a table, so a module that returns nothing
is remembered as well. A module is a function with the name it was required with for its `...`,
as it would be without a bundle. What is not in the bundle is left to the `require` there was.
-/

namespace LuaSugar

namespace Bundle

/-- The name of the `require` there was. -/
def outerRequire : String := "__LU_REQUIRE"

def unpack : String := "__LU_UNPACK"

/-- The name of the table of results. -/
def cache : String := "__LU_IMPORT_CACHE"

/-- The name of the table of modules. -/
def modules : String := "__LU_IMPORT_TABLE"

/-- Move the nodes of a chunk into the arena under construction. -/
def graft (c : Chunk) : Build Block := modifyGet fun a => a.graft c

/-- Add a module to the table of modules. -/
def addModule (t : Table) (name : String) (c : Chunk) : Build Table := do
  let body ← graft c
  let key ← Build.text name
  let loader ← Build.varargClosure body
  pure (t.pushKeyed key loader)

/-- The statement that keeps what the bundle replaces. -/
def captures : Build Stmt := do
  let require ← Build.name "require"
  let global ← Build.name "unpack"
  let table ← Build.name "table"
  let member ← Build.member table "unpack"
  let either ← Build.binary .or global member
  let results ← Build.table .empty
  pure (.localDecl [outerRequire, unpack, cache] [require, either, results] 0)

/-- `table[input]`. -/
def lookup (table : String) : Build ExprId := do
  let table ← Build.name table
  let input ← Build.name "input"
  Build.subscript table input

/-- `return __LU_UNPACK(tryCache)`. -/
def returnCached : Build Stmt := do
  let unpack ← Build.name unpack
  let cached ← Build.name "tryCache"
  let call ← Build.call unpack [cached]
  pure (.ret [call] 0)

/-- An `if` with both branches. -/
def branch (condition : ExprId) (body otherwise : Block) : Stmt :=
  ⟨.ifChain ⟨condition, body, 0, .elseBlock otherwise 0⟩, 0⟩

/-- The statements that run a module and remember what it returns. -/
def runModule : Build Block := do
  let module ← Build.name "module"
  let input ← Build.name "input"
  let run ← Build.call module [input]
  let wrapper ← Build.table (Table.empty.pushPositional run)
  let target ← Build.name "tryCache"
  let slot ← lookup cache
  let value ← Build.name "tryCache"
  pure [.assign [target] [wrapper] 0, .assign [slot] [value] 0]

/-- `return __LU_REQUIRE(input)`. -/
def fallback : Build Stmt := do
  let outer ← Build.name outerRequire
  let input ← Build.name "input"
  let call ← Build.call outer [input]
  pure (.ret [call] 0)

/-- The statement that replaces `require`. -/
def override : Build Stmt := do
  let cached ← lookup cache
  let tryCache := Stmt.localDecl ["tryCache"] [cached] 0
  let run ← runModule
  let fallback ← fallback
  let loader ← lookup modules
  let find := Stmt.localDecl ["module"] [loader] 0
  let found ← Build.name "module"
  let load := branch found run [fallback]
  let hit ← Build.name "tryCache"
  let again ← returnCached
  let check := branch hit [again] [find, load]
  let last ← returnCached
  let func ← Build.closure ["input"] [tryCache, check, last]
  let require ← Build.name "require"
  pure (.assign [require] [func] 0)

/-- The statements in front of the entry. -/
def prelude (contents : List (String × Chunk)) : Build Block := do
  let table ← contents.foldlM (fun t (name, c) => addModule t name c) Table.empty
  let captures ← captures
  let table ← Build.table table
  let override ← override
  pure [captures, .localDecl [modules] [table] 0, override]

end Bundle

/-- An entry with modules in front of it, each under the name it is required with. -/
def bundle (entry : Chunk) (modules : List (String × Chunk)) : Chunk :=
  let (prelude, arena) := (Bundle.prelude modules).run entry.arena
  ⟨arena, prelude ++ entry.body⟩

end LuaSugar
