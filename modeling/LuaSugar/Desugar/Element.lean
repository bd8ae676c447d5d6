import LuaSugar.Pass

/-!
# Elements

An element literal becomes a call of the constructor with the tag, a table of the properties and
a table of the children: `<Button label="ok"><span/></Button>` becomes
`h(Button, {label = "ok"}, {h("span", {}, {})})`. A tag that begins with an upper-case letter is
a variable, any other is a string.
-/

namespace LuaSugar

namespace Element

/-- The tag as an expression. Upper-case letters are those of ASCII. -/
def tag (name : String) : Expr :=
  if name.toList.head?.any Char.isUpper then .ofName name else .ofText name

/-- Replace an element and the elements inside it, at most so many levels deep. -/
def lower (constructor : String) : Nat → ExprId → Build Unit
  | 0, _ => pure ()
  | depth + 1, id => do
    match (← get).get id with
    | .atom (.element e) =>
      let within (root : ExprId) : Build Unit := do
        ((← get).leaves root).forM (lower constructor depth)
      modify (·.set id (.atom .nil))
      let tag ← Build.alloc (tag e.name)
      let properties ← e.properties.foldlM (fun t (name, value) => do
        within value
        Build.pushNamed t name value) Table.empty
      let properties ← Build.table properties
      let children ← (e.children.getD []).foldlM (fun t child => do
        within child
        pure (t.pushPositional child)) Table.empty
      let children ← Build.table children
      let target ← Build.name constructor
      modify (·.set id (.call target [tag, properties, children]))
    | _ => pure ()

/-- Elements nest no deeper than there are nodes. -/
def pass (constructor : String) : Pass Unit Empty := .ofExpression fun root _ => do
  let arena ← Edit.arena
  Edit.build ((arena.leaves root).forM (lower constructor (arena.size + 1)))

end Element

/-- Replace every element literal by a call of the constructor. -/
def expandElements (constructor : String) (c : Chunk) : Chunk :=
  ((Element.pass constructor).run () c).chunk

end LuaSugar
