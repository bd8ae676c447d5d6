import LuaSugar.Pass

/-!
# Assignments used as values

`print((a = 1))` becomes `print((function() a = 1 return a end)())`: an assignment expression
turns into a call of a function literal that assigns and returns the target. A compound form such
as `(a += 1)` becomes a compound assignment inside the literal, which is lowered like any other.
-/

namespace LuaSugar

namespace AssignmentExpr

/-- The statement that an assignment expression performs. -/
def statement (op : AssignOp) (target value : ExprId) (line : Nat) : Stmt :=
  match op with
  | .set => .assign [target] [value] line
  | .compound op => ⟨.compoundAssign target op value, line⟩

/-- Replace one node if it is an assignment. -/
def hoist (line : Nat) (id : ExprId) : Edit Unit Empty Unit := do
  match (← Edit.arena).get id with
  | .arith (.assign op target value) =>
    let closure ← Edit.build
      (Build.closure [] [statement op target value line, .ret [target] line])
    Edit.replace id (.call closure [])
  | _ => pure ()

/-- Inner assignments are replaced before those that hold them. -/
def pass : Pass Unit Empty := .ofExpression fun root owner => do
  ((← Edit.arena).descendants root).forM (hoist owner.line)

end AssignmentExpr

/-- Replace every assignment expression by the call of a function literal. -/
def hoistAssignments (c : Chunk) : Chunk := (AssignmentExpr.pass.run () c).chunk

end LuaSugar
