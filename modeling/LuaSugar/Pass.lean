import LuaSugar.Pass.Cursor
import LuaSugar.Syntax.Arena

/-!
# Passes over a chunk

One walk serves every pass over a chunk. It visits the statement lists of a chunk, those inside
function literals included; for each statement first the lists nested in it, then its root
expressions, each behind the function literals below it, and last the statement itself. Three
rules make the order well defined although callbacks edit what is being walked:

* **A list is visited by the positions it had on entry.** Statements inserted meanwhile are
  skipped.
* **The body of a function literal is walked once**, also when the literal is reachable from
  several roots. While it is walked its node holds an empty body; afterwards the walked body is
  put back.
* **After a failure nothing is called any more**, and the walk unwinds without further change.
  What the callback that failed had done to the arena and to the list stays.

A walk need not end: a callback may put a statement with a nested list in place of one that is
still ahead, and do so again in that list. So a walk is given a number of lists that it may be
inside of, and a walk that would be inside of more is **exhausted** and says so. What a walk
leaves that is not exhausted, it leaves with any greater number as well
(`Pass.walkBlock_of_le`). A run is given `Pass.depth`, which is enough for every pass of this
library (`parse_passed_ends`, `Pass.Observing.ends`).
-/

namespace LuaSugar

/-- What callbacks may change besides the statement they are called with. -/
structure Workspace (σ : Type) where
  arena : Arena
  state : σ

/-- Callbacks that change a workspace and may fail. -/
abbrev Edit (σ ε α : Type) := ExceptT ε (StateM (Workspace σ)) α

namespace Edit

variable {σ ε α : Type}

/-- The arena as it is. -/
def arena : Edit σ ε Arena := do pure (← get).arena

/-- Allocate nodes. -/
def build (b : Build α) : Edit σ ε α :=
  modifyGet fun w =>
    let (value, arena) := b.run w.arena
    (value, { w with arena })

/-- Overwrite a node. -/
def replace (id : ExprId) (e : Expr) : Edit σ ε Unit :=
  modify fun w => { w with arena := w.arena.set id e }

/-- The state of the pass. -/
def state : Edit σ ε σ := do pure (← get).state

def setState (s : σ) : Edit σ ε Unit := modify fun w => { w with state := s }

end Edit

/-- A pass over a chunk, with a state of its own and a kind of failure. -/
structure Pass (σ ε : Type) where
  /-- Called with the cursor on each statement; answers where the walk goes on from. -/
  statement : Cursor → Edit σ ε Cursor
  /-- Called with each root expression and the statement that owns it. -/
  expression : ExprId → Stmt → Edit σ ε Unit
  /-- The cursor as a failing call of `statement` leaves it, with what was done to the list until
  then. A pass fails before it edits the list, unless it says otherwise. -/
  left : Cursor → Workspace σ → Cursor := fun cursor _ => cursor

/-- The state of a walk. -/
structure Walk (σ ε : Type) where
  space : Workspace σ
  /-- Function literals whose bodies were walked. -/
  seen : List ExprId
  failure : Option ε
  /-- A list was passed over, since the walk was inside of as many as it may be. -/
  exhausted : Bool

/-- A walk that has come by nothing yet. -/
def Walk.start {σ ε : Type} (space : Workspace σ) : Walk σ ε := ⟨space, [], none, false⟩

namespace Pass

variable {σ ε α : Type}

/-- Call back, unless something has failed before. When the call fails the answer is `left`, of
the workspace that the call started from. -/
def call (edit : Edit σ ε α) (default : α) (left : Workspace σ → α) : StateM (Walk σ ε) α := do
  let walk ← get
  if walk.failure.isSome then pure default
  else match edit.run.run walk.space with
    | (.ok value, space) =>
      set { walk with space }
      pure value
    | (.error e, space) =>
      set { walk with space, failure := some e }
      pure (left walk.space)

/-- Call back with the same answer when the call fails as when it is not made. -/
def attempt (edit : Edit σ ε α) (default : α) : StateM (Walk σ ε) α :=
  call edit default fun _ => default

/-- Change the arena. -/
def modifyArena (f : Arena → Arena) : StateM (Walk σ ε) Unit :=
  modify fun walk => { walk with space := { walk.space with arena := f walk.space.arena } }

/-- Walk the body of a function literal unless it was walked before. -/
def walkLiteral (enter : Block → StateM (Walk σ ε) Block) (id : ExprId) :
    StateM (Walk σ ε) Unit := do
  let walk ← get
  match walk.space.arena.body? id with
  | some body =>
    if id ∈ walk.seen then pure ()
    else
      set { walk with seen := id :: walk.seen }
      modifyArena (·.setBody id [])
      let body ← enter body
      modifyArena (·.setBody id body)
  | none => pure ()

/-- Pass over a list, which exhausts the walk unless the list is empty. -/
def passOver (block : Block) : StateM (Walk σ ε) Block :=
  modifyGet fun walk => (block, { walk with exhausted := walk.exhausted || !block.isEmpty })

variable (r : Pass σ ε)

/-- Call back with the cursor on a statement. -/
def visit (cursor : Cursor) : StateM (Walk σ ε) Cursor :=
  call (r.statement cursor) cursor (r.left cursor)

/-- Visit a root expression of a statement, behind the function literals below it. -/
def walkRoot (enter : Block → StateM (Walk σ ε) Block) (owner : Stmt) (root : ExprId) :
    StateM (Walk σ ε) Unit := do
  let below := (← get).space.arena.descendants root
  below.forM (walkLiteral enter)
  attempt (r.expression root owner) ()

/-- Visit a list by slots: at most `visits` slots of `todo` that are not fresh, behind the slots
`done`, nearest first. Callbacks insert fresh slots only, so there need not be more visits than
the list has statements on entry. -/
def walkSlots (enter : Block → StateM (Walk σ ε) Block) :
    Nat → List Slot → List Slot → StateM (Walk σ ε) (List Slot)
  | 0, done, todo => pure (done.reverse ++ todo)
  | visits + 1, done, todo =>
    let done := (todo.takeWhile Slot.fresh).reverse ++ done
    match todo.dropWhile Slot.fresh with
    | [] => pure done.reverse
    | slot :: after => do
      let kind ← slot.stmt.kind.mapBlocksM enter
      let stmt := { slot.stmt with kind }
      stmt.kind.roots.forM (r.walkRoot enter stmt)
      let cursor : Cursor := ⟨done, { slot with stmt }, after⟩
      let cursor ← r.visit cursor
      walkSlots enter visits (cursor.focus :: cursor.before) cursor.after

/-- Walk a statement list and what is nested in it, inside of at most so many lists. -/
def walkBlock : Nat → Block → StateM (Walk σ ε) Block
  | 0, block => passOver block
  | depth + 1, block => do
    let slots ← r.walkSlots (walkBlock depth) block.length [] (block.map fun s => ⟨s, false⟩)
    pure (slots.map Slot.stmt)

/-- What a pass leaves: the chunk, also after a failure as it was then, the state, the failure,
and whether the walk was exhausted. -/
structure Outcome (σ ε : Type) where
  chunk : Chunk
  state : σ
  failure : Option ε
  exhausted : Bool

/-- How many lists a run may be inside of. Every list that a walk enters belongs to a statement
or a function literal of its own, and a pass that turns expressions into function literals adds
at most one per node. -/
def depth (c : Chunk) : Nat := c.statementCount + c.arena.size + 1

/-- Run a pass over a chunk. -/
def run (state : σ) (c : Chunk) : Outcome σ ε :=
  let (body, walk) := (r.walkBlock (depth c) c.body).run (.start ⟨c.arena, state⟩)
  ⟨⟨walk.space.arena, body⟩, walk.space.state, walk.failure, walk.exhausted⟩

/-- A pass over statements only. -/
def ofStatement (statement : Cursor → Edit σ ε Cursor) : Pass σ ε where
  statement := statement
  expression _ _ := pure ()

/-- A pass over expressions only. -/
def ofExpression (expression : ExprId → Stmt → Edit σ ε Unit) : Pass σ ε where
  statement cursor := pure cursor
  expression := expression

end Pass

end LuaSugar
