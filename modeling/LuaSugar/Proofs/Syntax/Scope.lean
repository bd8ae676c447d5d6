import Mathlib
import LuaSugar.Proofs.Syntax.Rank
/-!
# The scope of further arguments

`...` stands for the further arguments of the nearest function around it.
It has a place in a variadic function, inside loops and branches too, and
in the chunk itself, which takes arguments as well; in a function with
fixed parameters it has none. A chunk is **scoped** if no `...` occurs
where it has no place.

A function that a statement defines is a list nested in the statement, so
the scope changes on the way into the list. The body of a function literal
is in the arena, and what occurs in it has the scope that the literal
gives it.
-/

namespace LuaSugar

/-! ## Ids with their scope -/

/-- Whether the lists of a statement are in a variadic scope, from whether
the statement is. -/
def StmtKind.scope (v : Bool) : StmtKind → Bool
  | .localFunction _ func | .function _ func => func.variadic
  | _ => v

@[simp] theorem StmtKind.scope_hollow (v : Bool) (kind : StmtKind) :
    kind.hollow.scope v = kind.scope v := by
  cases kind <;> rfl

mutual

/-- The ids of a statement at every depth, each with its scope. -/
def Stmt.scoped (v : Bool) : Stmt → List (Bool × ExprId)
  | ⟨kind, _⟩ => kind.roots.map (v, ·) ++ kind.scopedInside v

/-- The ids in the lists of a statement. -/
def StmtKind.scopedInside (v : Bool) : StmtKind → List (Bool × ExprId)
  | .localFunction _ func | .function _ func => func.scoped
  | .doBlock body | .whileLoop _ body | .repeatLoop body _ | .forNumeric _ _ _ _ body
  | .forGeneric _ _ body => Block.scoped v body
  | .ifChain arm => arm.scoped v
  | _ => []

/-- A function decides for its body. -/
def FuncBody.scoped : FuncBody → List (Bool × ExprId)
  | ⟨_, variadic, body⟩ => Block.scoped variadic body

def IfArm.scoped (v : Bool) : IfArm → List (Bool × ExprId)
  | ⟨_, body, _, otherwise⟩ => Block.scoped v body ++ otherwise.scoped v

def ElseArm.scoped (v : Bool) : ElseArm → List (Bool × ExprId)
  | .absent => []
  | .elseIf arm => arm.scoped v
  | .elseBlock body _ => Block.scoped v body

/-- The ids of a list at every depth, each with whether the nearest
function around it is variadic. -/
def Block.scoped (v : Bool) : List Stmt → List (Bool × ExprId)
  | [] => []
  | s :: rest => s.scoped v ++ Block.scoped v rest

end

variable {u v : Bool} {x : ExprId}

theorem FuncBody.scoped_eq (func : FuncBody) :
    func.scoped = Block.scoped func.variadic func.body := by
  cases func
  rfl

mutual

theorem IfArm.scoped_eq (v : Bool) : ∀ arm : IfArm,
    arm.scoped v = arm.bodies.flatMap (Block.scoped v)
  | ⟨_, body, _, otherwise⟩ => by
    simp only [IfArm.scoped, IfArm.bodies, List.flatMap_cons, ElseArm.scoped_eq v otherwise]

theorem ElseArm.scoped_eq (v : Bool) : ∀ arm : ElseArm,
    arm.scoped v = arm.bodies.flatMap (Block.scoped v)
  | .absent => by simp [ElseArm.scoped, ElseArm.bodies]
  | .elseIf arm => by simp only [ElseArm.scoped, ElseArm.bodies, IfArm.scoped_eq v arm]
  | .elseBlock body _ => by simp [ElseArm.scoped, ElseArm.bodies]

end

theorem StmtKind.scopedInside_eq (v : Bool) (kind : StmtKind) :
    kind.scopedInside v = kind.blocks.flatMap (Block.scoped (kind.scope v)) := by
  cases kind <;>
    simp [StmtKind.scopedInside, StmtKind.blocks, StmtKind.scope, FuncBody.scoped_eq,
      IfArm.scoped_eq]

/-- **The roots of a statement have its scope**, the ids in its lists the
one inside. -/
theorem Stmt.mem_scoped {s : Stmt} : (u, x) ∈ s.scoped v ↔
    (u = v ∧ x ∈ s.kind.roots) ∨ ∃ b ∈ s.kind.blocks, (u, x) ∈ Block.scoped (s.kind.scope v) b := by
  cases s
  simp [Stmt.scoped, StmtKind.scopedInside_eq, and_comm, eq_comm]

theorem Block.mem_scoped {block : Block} :
    (u, x) ∈ Block.scoped v block ↔ ∃ s ∈ block, (u, x) ∈ s.scoped v := by
  induction block with
  | nil => simp [Block.scoped]
  | cons s rest ih => simp [Block.scoped, ih]

mutual

theorem StmtKind.snd_scopedInside (v : Bool) : ∀ kind : StmtKind,
    (kind.scopedInside v).map Prod.snd = kind.nested.flatMap fun s => s.kind.roots
  | .localFunction _ ⟨_, variadic, body⟩ | .function _ ⟨_, variadic, body⟩ =>
    Block.snd_scoped variadic body
  | .doBlock body | .whileLoop _ body | .repeatLoop body _ | .forNumeric _ _ _ _ body
  | .forGeneric _ _ body => Block.snd_scoped v body
  | .ifChain arm => IfArm.snd_scoped v arm
  | .ret _ | .localDecl _ _ | .compoundAssign _ _ _ | .assign _ _ | .call _ | .break_
  | .importFrom _ _ | .intrinsic _ _ | .ignore => rfl

theorem IfArm.snd_scoped (v : Bool) : ∀ arm : IfArm,
    (arm.scoped v).map Prod.snd = arm.nested.flatMap fun s => s.kind.roots
  | ⟨_, body, _, otherwise⟩ => by
    rw [IfArm.scoped, IfArm.nested, List.map_append, List.flatMap_append,
      ElseArm.snd_scoped v otherwise, Block.snd_scoped v body, Block.ids]

theorem ElseArm.snd_scoped (v : Bool) : ∀ arm : ElseArm,
    (arm.scoped v).map Prod.snd = arm.nested.flatMap fun s => s.kind.roots
  | .absent => rfl
  | .elseIf arm => IfArm.snd_scoped v arm
  | .elseBlock body _ => Block.snd_scoped v body

/-- **The ids with a scope are the ids of the list.** -/
theorem Block.snd_scoped (v : Bool) : ∀ block : Block,
    (Block.scoped v block).map Prod.snd = Block.ids block
  | [] => rfl
  | ⟨kind, _⟩ :: rest => by
    rw [Block.scoped, Stmt.scoped, Block.ids_cons, StmtKind.ids, List.map_append, List.map_append,
      StmtKind.snd_scopedInside v kind, Block.snd_scoped v rest, List.map_map]
    simp [Function.comp_def]

end

theorem Block.mem_ids_of_scoped {block : Block} (h : (u, x) ∈ Block.scoped v block) :
    x ∈ Block.ids block := by
  rw [← Block.snd_scoped v]
  exact List.mem_map_of_mem h

theorem Block.exists_scoped {block : Block} (v : Bool) (h : x ∈ Block.ids block) :
    ∃ u, (u, x) ∈ Block.scoped v block := by
  rw [← Block.snd_scoped v] at h
  obtain ⟨⟨u, _⟩, hp, rfl⟩ := List.mem_map.1 h
  exact ⟨u, hp⟩

/-- The ids in the body of a function literal, each with its scope. -/
def Expr.scoped : Expr → List (Bool × ExprId)
  | .atom (.func func) => func.scoped
  | _ => []

/-- A node refers to its children and to what its body holds. -/
theorem Expr.exists_scoped {e : Expr} (h : x ∈ e.refs) :
    x ∈ e.children ∨ ∃ u, (u, x) ∈ e.scoped := by
  rcases List.mem_append.1 h with h | h
  · exact .inl h
  · split at h
    · rename_i func _
      rw [Expr.scoped, FuncBody.scoped_eq]
      exact .inr (Block.exists_scoped func.variadic h)
    · simp at h

theorem Expr.mem_refs_of_scoped {e : Expr} (h : (u, x) ∈ e.scoped) : x ∈ e.refs := by
  unfold Expr.scoped at h
  split at h
  · rename_i func
    rw [FuncBody.scoped_eq] at h
    exact List.mem_append_right _ (Block.mem_ids_of_scoped h)
  · simp at h

/-! ## Occurrences -/

def Expr.isVararg : Expr → Bool
  | .atom .vararg => true
  | _ => false

namespace Chunk

variable {c : Chunk} {i : ExprId}

/-- An id occurs in a chunk, where the nearest function around it is
variadic or not. The chunk itself is as good as variadic. -/
inductive Occurs (c : Chunk) : Bool → ExprId → Prop
  | body {v : Bool} {x : ExprId} : (v, x) ∈ Block.scoped true c.body → c.Occurs v x
  | child {v : Bool} {i x : ExprId} : c.Occurs v i → x ∈ (c.arena.get i).children → c.Occurs v x
  | literal {u v : Bool} {i x : ExprId} : c.Occurs u i → (v, x) ∈ (c.arena.get i).scoped →
    c.Occurs v x

/-- Every `...` has a place where it occurs. -/
def Scoped (c : Chunk) : Prop := ∀ v i, c.Occurs v i → (c.arena.get i).isVararg → v = true

/-- The ids that stand where `...` has no place, without those below
them. -/
def fixedIds (c : Chunk) : List ExprId :=
  ((Block.scoped true c.body ++ c.arena.nodes.toList.flatMap Expr.scoped).filter
    fun p => !p.1).map Prod.snd

theorem mem_fixedIds : x ∈ c.fixedIds ↔ (false, x) ∈ Block.scoped true c.body ∨
    ∃ i, (false, x) ∈ (c.arena.get i).scoped := by
  have hnode : (∃ e ∈ c.arena.nodes.toList, (false, x) ∈ e.scoped) ↔
      ∃ i, (false, x) ∈ (c.arena.get i).scoped := by
    constructor
    · rintro ⟨e, he, hx⟩
      obtain ⟨i, -, rfl⟩ := Arena.mem_nodes.1 he
      exact ⟨i, hx⟩
    · rintro ⟨i, hx⟩
      have hi := Arena.inside_of_refers (Expr.mem_refs_of_scoped hx)
      exact ⟨_, Arena.mem_nodes.2 ⟨i, hi, rfl⟩, hx⟩
  simp [fixedIds, ← hnode]

/-- **To see that a chunk is scoped** it is enough to look below its fixed
ids. -/
theorem scoped_of_fixedIds {ρ : ExprId → ℚ} (hr : c.arena.Ranked ρ)
    (h : ∀ x ∈ c.fixedIds, ∀ j ∈ c.arena.descendants x, (c.arena.get j).isVararg = false) :
    c.Scoped := by
  have hbelow : ∀ v i, c.Occurs v i → v = false → ∃ x ∈ c.fixedIds, i ∈ c.arena.descendants x := by
    intro v i hi
    induction hi with
    | body hx =>
      rintro rfl
      exact ⟨_, mem_fixedIds.2 (.inl hx), c.arena.self_mem_descendants _⟩
    | child _ hx ih =>
      intro hv
      obtain ⟨y, hy, hiy⟩ := ih hv
      exact ⟨y, hy, hr.mem_descendants_of_child hiy _ hx⟩
    | literal _ hx _ =>
      rintro rfl
      exact ⟨_, mem_fixedIds.2 (.inr ⟨_, hx⟩), c.arena.self_mem_descendants _⟩
  intro v i hi hvararg
  by_contra hv
  obtain ⟨x, hx, hix⟩ := hbelow v i hi (Bool.eq_false_of_not_eq_true hv)
  rw [h x hx i hix] at hvararg
  cases hvararg

end Chunk

end LuaSugar
