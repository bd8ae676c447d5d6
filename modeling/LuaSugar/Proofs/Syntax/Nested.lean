import Mathlib
import LuaSugar.Syntax.Arena
/-!
# Statements at every depth

A statement owns its nested lists, a function literal owns its body, and
ids tie the two. `Block.deep` lists the statements of a list at every
depth, `Block.ids` the ids they hold, and `Expr.refs` what a node refers
to, the body of a function literal included. A walk replaces the nested
lists of a statement and nothing else; what that leaves alone is its
`hollow`, the statement with its lists emptied.
-/

namespace LuaSugar

/-! ## Statements and ids of a list -/

mutual

/-- A statement and all nested in it. -/
def Stmt.deep : Stmt → List Stmt
  | ⟨kind, line⟩ => ⟨kind, line⟩ :: kind.nested

/-- The statements nested in a statement. -/
def StmtKind.nested : StmtKind → List Stmt
  | .localFunction _ func | .function _ func => func.nested
  | .doBlock body | .whileLoop _ body | .repeatLoop body _ | .forNumeric _ _ _ _ body
  | .forGeneric _ _ body => Block.deep body
  | .ifChain arm => arm.nested
  | _ => []

def FuncBody.nested : FuncBody → List Stmt
  | ⟨_, _, body⟩ => Block.deep body

def IfArm.nested : IfArm → List Stmt
  | ⟨_, body, _, otherwise⟩ => Block.deep body ++ otherwise.nested

def ElseArm.nested : ElseArm → List Stmt
  | .absent => []
  | .elseIf arm => arm.nested
  | .elseBlock body _ => Block.deep body

/-- The statements of a list at every depth. -/
def Block.deep : List Stmt → List Stmt
  | [] => []
  | s :: rest => s.deep ++ Block.deep rest

end

/-- The ids a statement list holds at every depth. -/
def Block.ids (block : Block) : List ExprId := (Block.deep block).flatMap fun s => s.kind.roots

/-- The ids a statement holds, nested lists included. -/
def StmtKind.ids (kind : StmtKind) : List ExprId :=
  kind.roots ++ kind.nested.flatMap fun s => s.kind.roots

/-- What a node refers to: its children, and the ids in the body of a
function literal. -/
def Expr.refs (e : Expr) : List ExprId :=
  e.children ++ match e with
    | .atom (.func func) => Block.ids func.body
    | _ => []

/-- What is nested in a function is its body at every depth. -/
theorem FuncBody.nested_eq (func : FuncBody) : func.nested = Block.deep func.body := by
  cases func
  rfl

mutual

/-- What is nested in an `if` are its bodies at every depth. -/
theorem IfArm.nested_eq : ∀ arm : IfArm, arm.nested = arm.bodies.flatMap Block.deep
  | ⟨_, body, _, otherwise⟩ => by
    simp only [IfArm.nested, IfArm.bodies, List.flatMap_cons, ElseArm.nested_eq otherwise]

theorem ElseArm.nested_eq : ∀ arm : ElseArm, arm.nested = arm.bodies.flatMap Block.deep
  | .absent => by simp [ElseArm.nested, ElseArm.bodies]
  | .elseIf arm => by simp only [ElseArm.nested, ElseArm.bodies, IfArm.nested_eq arm]
  | .elseBlock body _ => by simp [ElseArm.nested, ElseArm.bodies]

end

/-- **What is nested in a statement is what is in its lists.** -/
theorem StmtKind.nested_eq (kind : StmtKind) : kind.nested = kind.blocks.flatMap Block.deep := by
  cases kind <;>
    simp [StmtKind.nested, StmtKind.blocks, FuncBody.nested_eq, IfArm.nested_eq]

@[simp] theorem Block.deep_nil : Block.deep [] = [] := rfl

/-- A statement stands in front of what is nested in it. -/
@[simp] theorem Block.deep_cons (s : Stmt) (rest : Block) :
    Block.deep (s :: rest) = s :: (s.kind.nested ++ Block.deep rest) := by
  cases s
  simp [Block.deep, Stmt.deep]

@[simp] theorem Block.deep_append (a b : Block) :
    Block.deep (a ++ b) = Block.deep a ++ Block.deep b := by
  induction a with
  | nil => rfl
  | cons s rest ih => simp [ih]

/-- A statement of a list at some depth is one of its own or nested in
one. -/
theorem Block.mem_deep {t : Stmt} {block : Block} :
    t ∈ Block.deep block ↔ ∃ s ∈ block, t = s ∨ ∃ b ∈ s.kind.blocks, t ∈ Block.deep b := by
  induction block with
  | nil => simp
  | cons s rest ih => simp [ih, StmtKind.nested_eq, or_assoc]

/-- A statement of a list is in it at some depth. -/
theorem Block.mem_deep_of_mem {s : Stmt} {block : Block} (h : s ∈ block) : s ∈ Block.deep block :=
  Block.mem_deep.2 ⟨s, h, .inl rfl⟩

@[simp] theorem Block.ids_nil : Block.ids [] = [] := rfl

@[simp] theorem Block.ids_cons (s : Stmt) (rest : Block) :
    Block.ids (s :: rest) = s.kind.ids ++ Block.ids rest := by
  simp [Block.ids, StmtKind.ids]

@[simp] theorem Block.ids_append (a b : Block) :
    Block.ids (a ++ b) = Block.ids a ++ Block.ids b := by
  simp [Block.ids]

/-- An id of a list is one of a statement, at any depth. -/
theorem Block.mem_ids_iff {x : ExprId} {block : Block} :
    x ∈ Block.ids block ↔ ∃ s ∈ block, x ∈ s.kind.ids := by
  induction block with
  | nil => simp
  | cons s rest ih => simp [ih]

/-- **The ids of a statement are its roots and the ids of its lists.** -/
theorem StmtKind.ids_eq (kind : StmtKind) :
    kind.ids = kind.roots ++ kind.blocks.flatMap Block.ids := by
  rw [StmtKind.ids, StmtKind.nested_eq, List.flatMap_assoc]
  rfl

/-- An id of a statement is a root of it or stands in a nested list. -/
theorem StmtKind.mem_ids {x : ExprId} {kind : StmtKind} :
    x ∈ kind.ids ↔ x ∈ kind.roots ∨ ∃ b ∈ kind.blocks, x ∈ Block.ids b := by
  simp [StmtKind.ids_eq]

namespace Table

/-- The ids in a table constructor. -/
def ids (t : Table) : List ExprId := (Expr.atom (.table t)).refs

@[simp] theorem ids_empty : empty.ids = [] := rfl

/-- An entry that is added last has its id last. -/
theorem ids_pushPositional (t : Table) (value : ExprId) :
    (t.pushPositional value).ids = t.ids ++ [value] := by
  simp [ids, pushPositional, Expr.refs, Expr.children]

theorem ids_pushKeyed (t : Table) (key value : ExprId) :
    (t.pushKeyed key value).ids = t.ids ++ [key, value] := by
  simp [ids, pushKeyed, Expr.refs, Expr.children]

end Table

/-! ## A property of every statement -/

/-- Every statement of a list has a property, at every depth. -/
def Block.Everywhere (P : StmtKind → Prop) (block : Block) : Prop :=
  ∀ s ∈ Block.deep block, P s.kind

/-- A statement has a property, and all nested in it. -/
def StmtKind.Throughout (P : StmtKind → Prop) (kind : StmtKind) : Prop :=
  P kind ∧ ∀ b ∈ kind.blocks, Block.Everywhere P b

/-- What holds everywhere holds throughout each statement. -/
theorem Block.everywhere_iff {P : StmtKind → Prop} {block : Block} :
    Block.Everywhere P block ↔ ∀ s ∈ block, s.kind.Throughout P := by
  constructor
  · intro h s hs
    exact ⟨h s (Block.mem_deep_of_mem hs), fun b hb t ht =>
      h t (Block.mem_deep.2 ⟨s, hs, .inr ⟨b, hb, ht⟩⟩)⟩
  · intro h t ht
    obtain ⟨s, hs, rfl | ⟨b, hb, htb⟩⟩ := Block.mem_deep.1 ht
    · exact (h t hs).1
    · exact (h s hs).2 b hb t htb

/-- What holds everywhere can be weakened. -/
theorem Block.Everywhere.mono {P Q : StmtKind → Prop} {block : Block}
    (h : Block.Everywhere P block) (hpq : ∀ k, P k → Q k) : Block.Everywhere Q block :=
  fun s hs => hpq _ (h s hs)

/-! ## Statements without their lists -/

mutual

/-- An arm with its lists emptied. -/
def IfArm.hollow : IfArm → IfArm
  | ⟨condition, _, line, otherwise⟩ => ⟨condition, [], line, otherwise.hollow⟩

def ElseArm.hollow : ElseArm → ElseArm
  | .absent => .absent
  | .elseIf arm => .elseIf arm.hollow
  | .elseBlock _ line => .elseBlock [] line

end

/-- A statement with its lists emptied. -/
def StmtKind.hollow : StmtKind → StmtKind
  | .localFunction name func => .localFunction name { func with body := [] }
  | .function path func => .function path { func with body := [] }
  | .doBlock _ => .doBlock []
  | .whileLoop condition _ => .whileLoop condition []
  | .repeatLoop _ condition => .repeatLoop [] condition
  | .ifChain arm => .ifChain arm.hollow
  | .forNumeric var start limit step _ => .forNumeric var start limit step []
  | .forGeneric names iterators _ => .forGeneric names iterators []
  | kind => kind

mutual

theorem IfArm.conditions_hollow : ∀ arm : IfArm, arm.hollow.conditions = arm.conditions
  | ⟨condition, _, _, otherwise⟩ => by
    simp only [IfArm.hollow, IfArm.conditions, ElseArm.conditions_hollow otherwise]

theorem ElseArm.conditions_hollow : ∀ arm : ElseArm, arm.hollow.conditions = arm.conditions
  | .absent => rfl
  | .elseIf arm => by
    simp only [ElseArm.hollow, ElseArm.conditions, IfArm.conditions_hollow arm]
  | .elseBlock _ _ => rfl

end

/-- The roots of a statement do not stand in its lists. -/
@[simp] theorem StmtKind.roots_hollow (kind : StmtKind) : kind.hollow.roots = kind.roots := by
  cases kind <;> simp [StmtKind.hollow, StmtKind.roots, IfArm.conditions_hollow]

mutual

/-- Hollow lists are as many as there were. -/
theorem IfArm.length_bodies_hollow : ∀ arm : IfArm, arm.hollow.bodies.length = arm.bodies.length
  | ⟨_, _, _, otherwise⟩ => by
    simp only [IfArm.hollow, IfArm.bodies, List.length_cons, ElseArm.length_bodies_hollow otherwise]

theorem ElseArm.length_bodies_hollow : ∀ arm : ElseArm,
    arm.hollow.bodies.length = arm.bodies.length
  | .absent => rfl
  | .elseIf arm => by
    simp only [ElseArm.hollow, ElseArm.bodies, IfArm.length_bodies_hollow arm]
  | .elseBlock _ _ => rfl

end

/-- Emptied lists are still there. -/
theorem StmtKind.length_blocks_hollow (kind : StmtKind) :
    kind.hollow.blocks.length = kind.blocks.length := by
  cases kind <;> simp [StmtKind.hollow, StmtKind.blocks, IfArm.length_bodies_hollow]

theorem StmtKind.hollow_of_blocks {kind : StmtKind} (h : kind.blocks = []) :
    kind.hollow = kind := by
  cases kind with
  | ifChain arm =>
    cases arm
    simp [StmtKind.blocks, IfArm.bodies] at h
  | _ => first | rfl | simp [StmtKind.blocks] at h

/-! ## Other lists in the same places -/

mutual

/-- Arms with other lists, of which there are as many. -/
def IfArm.putBodies : IfArm → List Block → IfArm
  | ⟨condition, _, line, otherwise⟩, bs =>
    ⟨condition, bs.headD [], line, otherwise.putBodies bs.tail⟩

def ElseArm.putBodies : ElseArm → List Block → ElseArm
  | .absent, _ => .absent
  | .elseIf arm, bs => .elseIf (arm.putBodies bs)
  | .elseBlock _ line, bs => .elseBlock (bs.headD []) line

end

/-- A statement with other lists, of which there are as many. -/
def StmtKind.putBlocks : StmtKind → List Block → StmtKind
  | .localFunction name func, bs => .localFunction name { func with body := bs.headD [] }
  | .function path func, bs => .function path { func with body := bs.headD [] }
  | .doBlock _, bs => .doBlock (bs.headD [])
  | .whileLoop condition _, bs => .whileLoop condition (bs.headD [])
  | .repeatLoop _ condition, bs => .repeatLoop (bs.headD []) condition
  | .ifChain arm, bs => .ifChain (arm.putBodies bs)
  | .forNumeric var start limit step _, bs => .forNumeric var start limit step (bs.headD [])
  | .forGeneric names iterators _, bs => .forGeneric names iterators (bs.headD [])
  | kind, _ => kind

mutual

/-- Putting back the bodies that were there changes nothing. -/
theorem IfArm.putBodies_bodies : ∀ arm : IfArm, arm.putBodies arm.bodies = arm
  | ⟨_, _, _, otherwise⟩ => by
    simp [IfArm.putBodies, IfArm.bodies, ElseArm.putBodies_bodies otherwise]

theorem ElseArm.putBodies_bodies : ∀ arm : ElseArm, arm.putBodies arm.bodies = arm
  | .absent => rfl
  | .elseIf arm => by simp only [ElseArm.putBodies, ElseArm.bodies, IfArm.putBodies_bodies arm]
  | .elseBlock _ _ => rfl

end

/-- **Lists that are put back** where they were. -/
@[simp] theorem StmtKind.putBlocks_blocks (kind : StmtKind) : kind.putBlocks kind.blocks = kind := by
  cases kind with
  | ifChain arm => exact congrArg _ arm.putBodies_bodies
  | localFunction _ func | function _ func =>
    cases func
    rfl
  | _ => rfl

mutual

/-- Bodies are put into the hollow ones, so nothing else changes. -/
theorem IfArm.hollow_putBodies : ∀ (arm : IfArm) (bs : List Block),
    (arm.putBodies bs).hollow = arm.hollow
  | ⟨_, _, _, otherwise⟩, _ => by
    simp only [IfArm.putBodies, IfArm.hollow, ElseArm.hollow_putBodies otherwise]

theorem ElseArm.hollow_putBodies : ∀ (arm : ElseArm) (bs : List Block),
    (arm.putBodies bs).hollow = arm.hollow
  | .absent, _ => rfl
  | .elseIf arm, _ => by simp only [ElseArm.putBodies, ElseArm.hollow, IfArm.hollow_putBodies arm]
  | .elseBlock _ _, _ => rfl

end

/-- Putting lists into a statement changes nothing but lists. -/
@[simp] theorem StmtKind.hollow_putBlocks (kind : StmtKind) (bs : List Block) :
    (kind.putBlocks bs).hollow = kind.hollow := by
  cases kind <;> simp [StmtKind.putBlocks, StmtKind.hollow, IfArm.hollow_putBodies]

mutual

theorem IfArm.bodies_putBodies : ∀ (arm : IfArm) {bs : List Block},
    bs.length = arm.bodies.length → (arm.putBodies bs).bodies = bs
  | ⟨_, _, _, otherwise⟩, [], h => by simp [IfArm.bodies] at h
  | ⟨_, _, _, otherwise⟩, b :: bs, h => by
    rw [IfArm.bodies, List.length_cons, List.length_cons, Nat.add_right_cancel_iff] at h
    simp [IfArm.putBodies, IfArm.bodies, ElseArm.bodies_putBodies otherwise h]

theorem ElseArm.bodies_putBodies : ∀ (arm : ElseArm) {bs : List Block},
    bs.length = arm.bodies.length → (arm.putBodies bs).bodies = bs
  | .absent, _, h => (List.length_eq_zero_iff.1 h).symm
  | .elseIf arm, _, h => by
    rw [ElseArm.bodies] at h
    simp only [ElseArm.putBodies, ElseArm.bodies, IfArm.bodies_putBodies arm h]
  | .elseBlock _ _, bs, h => by
    obtain ⟨b, rfl⟩ := List.length_eq_one_iff.1 h
    rfl

end

/-- **Lists that were put in** are found again, if they are as many. -/
theorem StmtKind.blocks_putBlocks (kind : StmtKind) {bs : List Block}
    (h : bs.length = kind.blocks.length) : (kind.putBlocks bs).blocks = bs := by
  cases kind with
  | ifChain arm => exact arm.bodies_putBodies h
  | localFunction | function | doBlock | whileLoop | repeatLoop | forNumeric | forGeneric =>
    obtain ⟨b, rfl⟩ := List.length_eq_one_iff.1 h
    rfl
  | _ => exact (List.length_eq_zero_iff.1 h).symm

section Maps

variable {m : Type → Type} [Monad m] [LawfulMonad m] (f : Block → m Block)

mutual

/-- Going through the bodies is going through their list and putting the results back. -/
theorem IfArm.mapBodiesM_eq : ∀ arm : IfArm,
    arm.mapBodiesM f = arm.putBodies <$> arm.bodies.mapM f
  | ⟨_, _, _, otherwise⟩ => by
    simp [IfArm.mapBodiesM, IfArm.bodies, IfArm.putBodies, ElseArm.mapBodiesM_eq otherwise]

theorem ElseArm.mapBodiesM_eq : ∀ arm : ElseArm,
    arm.mapBodiesM f = arm.putBodies <$> arm.bodies.mapM f
  | .absent => by simp [ElseArm.mapBodiesM, ElseArm.bodies, ElseArm.putBodies]
  | .elseIf arm => by
    simp [ElseArm.mapBodiesM, ElseArm.bodies, ElseArm.putBodies, IfArm.mapBodiesM_eq arm]
  | .elseBlock _ _ => by simp [ElseArm.mapBodiesM, ElseArm.bodies, ElseArm.putBodies]

end

/-- **Nested lists are gone through one after the other**, and put where
they were. -/
theorem StmtKind.mapBlocksM_eq (kind : StmtKind) :
    kind.mapBlocksM f = kind.putBlocks <$> kind.blocks.mapM f := by
  cases kind with
  | ifChain arm =>
    rw [StmtKind.mapBlocksM, IfArm.mapBodiesM_eq, bind_pure_comp, Functor.map_map]
    rfl
  | _ => simp [StmtKind.mapBlocksM, FuncBody.mapBodyM, StmtKind.blocks, StmtKind.putBlocks]

end Maps

/-- Statements that look the same have lists in the same places. -/
theorem exists_mem_zip {kind kind' : StmtKind} (h : kind'.hollow = kind.hollow) {b : Block}
    (hb : b ∈ kind.blocks) : ∃ b', (b, b') ∈ kind.blocks.zip kind'.blocks := by
  have hlength : kind.blocks.length = kind'.blocks.length := by
    rw [← StmtKind.length_blocks_hollow, ← h, StmtKind.length_blocks_hollow]
  obtain ⟨n, hn, rfl⟩ := List.mem_iff_getElem.1 hb
  have hn' : n < kind'.blocks.length := hlength ▸ hn
  exact ⟨kind'.blocks[n], List.mem_iff_getElem.2 ⟨n, by simp [hn, hn'], List.getElem_zip⟩⟩

/-- No other statement looks like one without lists. -/
theorem Stmt.eq_of_hollow {s s' : Stmt} (hline : s'.line = s.line)
    (hhollow : s'.kind.hollow = s.kind.hollow) (hblocks : s.kind.blocks = []) : s' = s := by
  obtain ⟨kind, line⟩ := s
  obtain ⟨kind', line'⟩ := s'
  obtain rfl : line' = line := hline
  rw [StmtKind.hollow_of_blocks hblocks] at hhollow
  dsimp only at hhollow hblocks
  subst hhollow
  cases kind' with
  | ifChain arm =>
    cases arm
    simp [StmtKind.hollow, IfArm.hollow, StmtKind.blocks, IfArm.bodies] at hblocks
  | _ => first | rfl | simp [StmtKind.hollow, StmtKind.blocks] at hblocks

end LuaSugar
