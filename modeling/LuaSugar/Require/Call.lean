import LuaSugar.Pass

/-!
# Calls of `require`

Which modules a chunk requires can be seen only where `require` is called by its own name with
one text and nothing else. Such calls are found wherever they stand, in function literals and in
nested statements; they are listed by line, and those of one line in the order of the walk.
-/

namespace LuaSugar.Require

/-- A call of `require` and the line of the statement that it stands in. -/
structure Call where
  specifier : String
  line : Nat
deriving DecidableEq, Repr

namespace Call

/-- Whether a node is the name `require`. -/
def isRequire : Expr → Bool
  | .atom (.name text) => text == "require"
  | _ => false

/-- The text of a string literal. -/
def literal? : Expr → Option String
  | .atom (.string bytes) => Utf8.decode? bytes
  | _ => none

/-- The text that a node requires. -/
def specifier? (a : Arena) : Expr → Option String
  | .arith (.call target none [arg]) =>
    if isRequire (a.get target) then literal? (a.get arg) else none
  | _ => none

/-- What is required below a node, children before parents. -/
def below (a : Arena) (root : ExprId) : List String :=
  (a.descendants root).filterMap fun id => specifier? a (a.get id)

/-- Collect the calls; the state is what was found so far. -/
def collecting : Pass (List Call) Empty := .ofExpression fun root owner => do
  let found := (below (← Edit.arena) root).map fun specifier => ⟨specifier, owner.line⟩
  Edit.setState ((← Edit.state) ++ found)

/-- The calls of a chunk by line. -/
def ofChunk (c : Chunk) : List Call :=
  (collecting.run [] c).state.mergeSort fun a b => a.line ≤ b.line

end Call

end LuaSugar.Require
