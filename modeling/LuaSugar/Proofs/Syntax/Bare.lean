import Mathlib
import LuaSugar.Syntax.Arena
/-!
# Syntax without lines

Statements and arms carry the line they begin on. What is **bare** has
line zero in place of every line, at every depth and in the bodies of
function literals. Whatever else there is to read of a chunk, its ids,
names, shapes and sizes, reads the same of the bare one.
-/

namespace LuaSugar

/-! ## Statements -/

mutual

/-- A statement without lines. -/
def Stmt.bare : Stmt → Stmt
  | ⟨kind, _⟩ => ⟨kind.bare, 0⟩

def StmtKind.bare : StmtKind → StmtKind
  | .localFunction name func => .localFunction name func.bare
  | .function path func => .function path func.bare
  | .doBlock body => .doBlock (Block.bare body)
  | .whileLoop condition body => .whileLoop condition (Block.bare body)
  | .repeatLoop body condition => .repeatLoop (Block.bare body) condition
  | .ifChain arm => .ifChain arm.bare
  | .forNumeric var start limit step body => .forNumeric var start limit step (Block.bare body)
  | .forGeneric names iterators body => .forGeneric names iterators (Block.bare body)
  | kind => kind

def FuncBody.bare : FuncBody → FuncBody
  | ⟨params, variadic, body⟩ => ⟨params, variadic, Block.bare body⟩

def IfArm.bare : IfArm → IfArm
  | ⟨condition, body, _, otherwise⟩ => ⟨condition, Block.bare body, 0, otherwise.bare⟩

def ElseArm.bare : ElseArm → ElseArm
  | .absent => .absent
  | .elseIf arm => .elseIf arm.bare
  | .elseBlock body _ => .elseBlock (Block.bare body) 0

/-- A statement list without lines. -/
def Block.bare : List Stmt → List Stmt
  | [] => []
  | s :: rest => s.bare :: Block.bare rest

end

theorem Block.bare_eq_map (block : Block) : Block.bare block = block.map Stmt.bare := by
  induction block with
  | nil => rfl
  | cons s rest ih => rw [Block.bare, ih, List.map_cons]

/-- An empty list has no lines to lose. -/
@[simp] theorem Block.bare_nil : Block.bare [] = [] := rfl

/-- Lists lose their lines one by one. -/
@[simp] theorem Block.bare_append (a b : Block) :
    Block.bare (a ++ b) = Block.bare a ++ Block.bare b := by
  simp [Block.bare_eq_map]

/-- Without lines a list is as long as before. -/
@[simp] theorem Block.length_bare (block : Block) : (Block.bare block).length = block.length := by
  simp [Block.bare_eq_map]

/-- The kind of a statement loses the lines of its own nested lists. -/
@[simp] theorem Stmt.bare_kind (s : Stmt) : s.bare.kind = s.kind.bare := by
  cases s
  rfl

@[simp] theorem Stmt.bare_line (s : Stmt) : s.bare.line = 0 := by
  cases s
  rfl

/-- The body of a function is all that loses lines in it. -/
@[simp] theorem FuncBody.bare_body (func : FuncBody) : func.bare.body = Block.bare func.body := by
  cases func
  rfl

@[simp] theorem FuncBody.bare_params (func : FuncBody) : func.bare.params = func.params := by
  cases func
  rfl

@[simp] theorem FuncBody.bare_variadic (func : FuncBody) : func.bare.variadic = func.variadic := by
  cases func
  rfl

mutual

/-- Conditions are ids, and ids have no lines. -/
theorem IfArm.conditions_bare : ∀ arm : IfArm, arm.bare.conditions = arm.conditions
  | ⟨_, _, _, otherwise⟩ => by
    simp only [IfArm.bare, IfArm.conditions, ElseArm.conditions_bare otherwise]

theorem ElseArm.conditions_bare : ∀ arm : ElseArm, arm.bare.conditions = arm.conditions
  | .absent => rfl
  | .elseIf arm => by simp only [ElseArm.bare, ElseArm.conditions, IfArm.conditions_bare arm]
  | .elseBlock _ _ => rfl

end

/-- What a statement evaluates is the same without lines. -/
@[simp] theorem StmtKind.roots_bare (kind : StmtKind) : kind.bare.roots = kind.roots := by
  cases kind <;> simp [StmtKind.bare, StmtKind.roots, IfArm.conditions_bare]

@[simp] theorem StmtKind.describe_bare (kind : StmtKind) : kind.bare.describe = kind.describe := by
  cases kind <;> rfl

mutual

/-- **Nothing is lost but lines**: a statement has as many parts as before.
Measures by size are the same, so recursions by them are. -/
theorem Stmt.size_bare : ∀ s : Stmt, s.bare.size = s.size
  | ⟨kind, _⟩ => by rw [Stmt.bare, Stmt.size, Stmt.size, StmtKind.size_bare kind]

theorem StmtKind.size_bare : ∀ kind : StmtKind, kind.bare.size = kind.size
  | .localFunction _ func | .function _ func => by
    simp only [StmtKind.bare, StmtKind.size, FuncBody.size_bare func]
  | .doBlock body | .whileLoop _ body | .repeatLoop body _ | .forNumeric _ _ _ _ body
  | .forGeneric _ _ body => by
    simp only [StmtKind.bare, StmtKind.size, Block.size_bare body]
  | .ifChain arm => by simp only [StmtKind.bare, StmtKind.size, IfArm.size_bare arm]
  | .ret _ | .localDecl _ _ | .compoundAssign _ _ _ | .assign _ _ | .call _ | .break_
  | .importFrom _ _ | .intrinsic _ _ | .ignore => rfl

theorem FuncBody.size_bare : ∀ func : FuncBody, func.bare.size = func.size
  | ⟨_, _, body⟩ => by simp only [FuncBody.bare, FuncBody.size, Block.size_bare body]

theorem IfArm.size_bare : ∀ arm : IfArm, arm.bare.size = arm.size
  | ⟨_, body, _, otherwise⟩ => by
    simp only [IfArm.bare, IfArm.size, Block.size_bare body, ElseArm.size_bare otherwise]

theorem ElseArm.size_bare : ∀ arm : ElseArm, arm.bare.size = arm.size
  | .absent => rfl
  | .elseIf arm => by simp only [ElseArm.bare, ElseArm.size, IfArm.size_bare arm]
  | .elseBlock body _ => by simp only [ElseArm.bare, ElseArm.size, Block.size_bare body]

theorem Block.size_bare : ∀ block : List Stmt, Block.size (Block.bare block) = Block.size block
  | [] => rfl
  | s :: rest => by
    simp only [Block.bare, Block.size, Stmt.size_bare s, Block.size_bare rest]

end

/-! ## Nodes and arenas -/

/-- A node without lines; only function literals have some. -/
def Expr.bare : Expr → Expr
  | .atom (.func func) => .atom (.func func.bare)
  | e => e

/-- A node without lines is the node itself or a function literal. -/
theorem Expr.bare_cases (e : Expr) :
    e.bare = e ∨ ∃ func, e = .atom (.func func) ∧ e.bare = .atom (.func func.bare) := by
  match e with
  | .atom (.func func) => exact .inr ⟨func, rfl, rfl⟩
  | .atom (.number _) | .atom (.string _) | .atom (.boolean _) | .atom .nil | .atom (.name _)
  | .atom .vararg | .atom (.table _) | .atom (.element _) | .arith _ => exact .inl rfl

@[simp] theorem Expr.children_bare (e : Expr) : e.bare.children = e.children := by
  rcases e.bare_cases with h | ⟨func, rfl, h⟩ <;> rw [h]
  rfl

@[simp] theorem Expr.isAtom_bare (e : Expr) : e.bare.isAtom = e.isAtom := by
  rcases e.bare_cases with h | ⟨func, rfl, h⟩ <;> rw [h]
  rfl

namespace Arena

/-- An arena without lines. -/
def bare (a : Arena) : Arena := ⟨a.nodes.map Expr.bare⟩

variable (a : Arena) (i : ExprId)

@[simp] theorem size_bare : a.bare.size = a.size := by simp [bare, size]

/-- A node is looked up and then loses its lines, or the other way about. -/
@[simp] theorem get_bare : a.bare.get i = (a.get i).bare := by
  simp only [get, bare, Array.getD_eq_getD_getElem?, Array.getElem?_map]
  cases a.nodes[i.index]? <;> rfl

/-- A new node gets the same id. -/
@[simp] theorem bare_alloc (e : Expr) : a.bare.alloc e.bare = ((a.alloc e).1, (a.alloc e).2.bare) := by
  simp [alloc, bare]

@[simp] theorem bare_set (e : Expr) : a.bare.set i e.bare = (a.set i e).bare := by
  simp [set, bare, Array.map_setIfInBounds]

/-- The function body at an id, if there is one. -/
@[simp] theorem body?_bare : a.bare.body? i = (a.body? i).map Block.bare := by
  unfold body?
  rw [get_bare]
  match a.get i with
  | .atom (.func func) => simp [Expr.bare]
  | .atom (.number _) | .atom (.string _) | .atom (.boolean _) | .atom .nil | .atom (.name _)
  | .atom .vararg | .atom (.table _) | .atom (.element _) | .arith _ => rfl

/-- A body is put back without its lines. -/
@[simp] theorem bare_setBody (body : Block) :
    a.bare.setBody i (Block.bare body) = (a.setBody i body).bare := by
  unfold setBody
  rw [get_bare]
  match a.get i with
  | .atom (.func ⟨params, variadic, _⟩) =>
    exact bare_set a i (.atom (.func ⟨params, variadic, body⟩))
  | .atom (.number _) | .atom (.string _) | .atom (.boolean _) | .atom .nil | .atom (.name _)
  | .atom .vararg | .atom (.table _) | .atom (.element _) | .arith _ => rfl

/-- What is below an id is found by ids alone. -/
theorem descendantsWithin_bare : ∀ (depth : ℕ) (i : ExprId),
    a.bare.descendantsWithin depth i = a.descendantsWithin depth i
  | 0, _ => rfl
  | depth + 1, i => by
    rw [descendantsWithin, descendantsWithin, get_bare, Expr.children_bare]
    exact congrArg (· ++ [i]) (List.flatMap_congr fun c _ => descendantsWithin_bare depth c)

@[simp] theorem descendants_bare : a.bare.descendants i = a.descendants i := by
  rw [descendants, descendants, size_bare, descendantsWithin_bare]

@[simp] theorem leaves_bare : a.bare.leaves i = a.leaves i := by
  simp [leaves]

end Arena

/-! ## Computations -/

/-- From the image of a state `m'` leads to the image of where `m` leads, with
the image of its answer. -/
def Mirrors {S α β : Type} (image : S → S) (f : α → β) (m : StateM S α) (m' : StateM S β) : Prop :=
  ∀ s, m' (image s) = (f (m s).1, image (m s).2)

namespace Mirrors

variable {S α β γ δ : Type} {image : S → S}

/-- A value that is the image of another. -/
theorem pure {f : α → β} {v : α} {v' : β} (h : v' = f v) :
    Mirrors image f (Pure.pure v) (Pure.pure v') :=
  fun s => congrArg (·, image s) h

/-- **One after the other**: a step on what is mirrored mirrors the step. -/
theorem bind {f : α → β} {g : γ → δ} {m : StateM S α} {m' : StateM S β} {k : α → StateM S γ}
    {k' : β → StateM S δ} (hm : Mirrors image f m m')
    (hk : ∀ v, Mirrors image g (k v) (k' (f v))) : Mirrors image g (m >>= k) (m' >>= k') := by
  intro s
  show k' (m' (image s)).1 (m' (image s)).2 = _
  rw [hm s]
  exact hk _ _

/-- Looking at the state gives its image. -/
theorem get : Mirrors image image (MonadState.get : StateM S S) MonadState.get := fun _ => rfl

/-- A change of the state that goes with taking images. -/
theorem modify {f f' : S → S} (h : ∀ s, f' (image s) = image (f s)) :
    Mirrors image id (modify f : StateM S PUnit) (modify f') :=
  fun s => congrArg (PUnit.unit, ·) (h s)

/-- One by one over a list of which each item is mirrored. -/
theorem forM {f f' : α → StateM S PUnit} {l : List α} (h : ∀ v ∈ l, Mirrors image id (f v) (f' v)) :
    Mirrors image id (l.forM f) (l.forM f') := by
  induction l with
  | nil => exact pure rfl
  | cons v l ih =>
    rw [List.forall_mem_cons] at h
    exact bind h.1 fun _ => ih h.2

/-- The same with a result for each item. -/
theorem mapM {f f' : α → StateM S β} {l : List α} (h : ∀ v ∈ l, Mirrors image id (f v) (f' v)) :
    Mirrors image id (l.mapM f) (l.mapM f') := by
  induction l with
  | nil => exact pure rfl
  | cons v l ih =>
    rw [List.forall_mem_cons] at h
    rw [List.mapM_cons, List.mapM_cons]
    exact bind h.1 fun _ => bind (ih h.2) fun _ => pure rfl

/-- The same with an accumulated result. -/
theorem foldlM {f f' : β → α → StateM S β} {l : List α}
    (h : ∀ v ∈ l, ∀ acc, Mirrors image id (f acc v) (f' acc v)) (start : β) :
    Mirrors image id (l.foldlM f start) (l.foldlM f' start) := by
  induction l generalizing start with
  | nil => exact pure rfl
  | cons v l ih =>
    rw [List.forall_mem_cons] at h
    rw [List.foldlM_cons, List.foldlM_cons]
    exact bind (h.1 start) fun acc => ih h.2 acc

end Mirrors

namespace Build

/-- What builds a node builds the bare one in a bare arena. -/
theorem mirrors_alloc (e : Expr) : Mirrors Arena.bare id (alloc e) (alloc e.bare) :=
  fun a => a.bare_alloc e

/-- A name has no lines. -/
theorem mirrors_name (text : String) : Mirrors Arena.bare id (name text) (name text) :=
  mirrors_alloc _

theorem mirrors_text (s : String) : Mirrors Arena.bare id (text s) (text s) :=
  mirrors_alloc _

/-- A closure has the lines of its body. -/
theorem mirrors_closure (params : List String) (body : Block) :
    Mirrors Arena.bare id (closure params body) (closure params (Block.bare body)) :=
  mirrors_alloc _

theorem mirrors_pushNamed (t : Table) (key : String) (value : ExprId) :
    Mirrors Arena.bare id (pushNamed t key value) (pushNamed t key value) :=
  (mirrors_text key).bind fun _ => .pure rfl

/-- A path of names is made without a line. -/
theorem mirrors_path : ∀ segments : List String, Mirrors Arena.bare id (path segments) (path segments)
  | [] => .pure rfl
  | first :: _ =>
    (mirrors_name first).bind fun root =>
      (Mirrors.foldlM (fun name _ object => mirrors_alloc (.arith (.member object name))) root).bind
        fun _ => .pure rfl

end Build

/-- A chunk without lines. -/
def Chunk.bare (c : Chunk) : Chunk := ⟨c.arena.bare, Block.bare c.body⟩

/-- There are as many statements at every depth. -/
@[simp] theorem Chunk.statementCount_bare (c : Chunk) : c.bare.statementCount = c.statementCount := by
  have hnode : (fun (n : ℕ) (e : Expr) => match e.bare with
      | .atom (.func func) => n + func.size
      | _ => n) = fun n e => match e with
      | .atom (.func func) => n + func.size
      | _ => n := by
    funext n e
    rcases e.bare_cases with h | ⟨func, rfl, h⟩ <;> rw [h]
    simp only [FuncBody.size_bare]
  simp only [statementCount, bare, Arena.bare, Block.size_bare, Array.foldl_map]
  exact congrArg (fun count => Block.size c.body + c.arena.nodes.foldl count 0) hnode

end LuaSugar
