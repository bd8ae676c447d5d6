import LuaSugar.Pass

/-!
# Compound assignments

`a += b` becomes `a = a + b`. Both sides share the target's node, so a target such as `t[f()]` is
evaluated twice.
-/

namespace LuaSugar

namespace CompoundAssignment

def pass : Pass Unit Empty := .ofStatement fun cursor => do
  match cursor.stmt.kind with
  | .compoundAssign target op value =>
    let result ← Edit.build (Build.binary op target value)
    pure (cursor.replace (.assign [target] [result] cursor.line))
  | _ => pure cursor

end CompoundAssignment

/-- Replace every compound assignment by an assignment. -/
def expandCompound (c : Chunk) : Chunk := (CompoundAssignment.pass.run () c).chunk

end LuaSugar
