import Mathlib
import LuaSugar.Proofs.Pass.Building
import LuaSugar.Proofs.Syntax.Bare
/-!
# Walks do not look at lines

A walk hands the lines of statements to callbacks and does nothing else
with them. So if the callbacks of a pass do not look at lines, but for
copying them, neither does a run of the pass: on the bare chunk it leaves
the bare chunk of what it leaves, and fails if it does, with the error
without its lines.
-/

namespace LuaSugar

/-! ## Cursors and workspaces -/

/-- A slot without lines. -/
def Slot.bare (slot : Slot) : Slot := { slot with stmt := slot.stmt.bare }

/-- A position in the list without lines. -/
def Cursor.bare (c : Cursor) : Cursor := ⟨c.before.map Slot.bare, c.focus.bare, c.after.map Slot.bare⟩

def Workspace.bare {σ : Type} (w : Workspace σ) : Workspace σ := { w with arena := w.arena.bare }

/-- A walk without lines; `image` takes them from a failure. -/
def Walk.bare {σ ε : Type} (image : ε → ε) (walk : Walk σ ε) : Walk σ ε :=
  { walk with space := walk.space.bare, failure := walk.failure.map image }

namespace Cursor

variable (c : Cursor)

/-- The current statement without its line. -/
@[simp] theorem bare_stmt : c.bare.stmt = c.stmt.bare := rfl

@[simp] theorem bare_line : c.bare.line = 0 := Stmt.bare_line _

/-- A cursor stands where it stood. -/
@[simp] theorem bare_index : c.bare.index = c.index := List.length_map _

/-- A replacement without lines is what is left of a replacement without them. -/
@[simp] theorem bare_replace (s : Stmt) : c.bare.replace s.bare = (c.replace s).bare := rfl

@[simp] theorem bare_insertBefore (s : Stmt) :
    c.bare.insertBefore s.bare = (c.insertBefore s).bare := rfl

@[simp] theorem bare_insertAfter (s : Stmt) :
    c.bare.insertAfter s.bare = (c.insertAfter s).bare := rfl

/-- What is next does not depend on lines. -/
@[simp] theorem bare_next? : c.bare.next? = c.next?.map bare := by
  rcases c with ⟨before, focus, _ | ⟨slot, after⟩⟩ <;> rfl

/-- Going back goes to the same statement. -/
@[simp] theorem bare_backTo (index : ℕ) : c.bare.backTo index = (c.backTo index).bare := by
  obtain ⟨before, focus, after⟩ := c
  induction before generalizing focus after with
  | nil => simp [bare, backTo]
  | cons slot before ih =>
    have hnext := ih slot (focus :: after)
    simp only [bare, List.map_cons] at hnext
    simp only [bare, List.map_cons, backTo, List.length_map]
    split
    · rfl
    · exact hnext

end Cursor

/-! ## Edits -/

namespace Edit

variable {σ ε α β γ δ : Type} {image : ε → ε}

/-- `m'` does without lines what `m` does with them. -/
def Bares (image : ε → ε) (f : α → β) (m : Edit σ ε α) (m' : Edit σ ε β) : Prop :=
  Mirrors Workspace.bare (fun r => (r.map f).mapError image) m.run m'.run

/-- A value that is the image of another. -/
theorem Bares.pure {f : α → β} {v : α} {v' : β} (h : v' = f v) :
    Bares (σ := σ) image f (Pure.pure v) (Pure.pure v') := by
  subst h
  exact fun _ => rfl

/-- A failure is mirrored by that with the image of its cause. -/
theorem Bares.throw {f : α → β} {e e' : ε} (h : e' = image e) :
    Bares (σ := σ) image f (MonadExcept.throw e) (MonadExcept.throw e') := by
  subst h
  exact fun _ => rfl

/-- **One after the other**, as far as the first does not fail. -/
theorem Bares.bind {f : α → β} {g : γ → δ} {m : Edit σ ε α} {m' : Edit σ ε β} {k : α → Edit σ ε γ}
    {k' : β → Edit σ ε δ} (hm : Bares image f m m') (hk : ∀ v, Bares image g (k v) (k' (f v))) :
    Bares image g (m >>= k) (m' >>= k') := by
  intro space
  have hspace := hm space
  rw [run_bind, run_bind, hspace]
  rcases m.run space with ⟨r, space'⟩
  cases r with
  | error e => rfl
  | ok v => exact hk v space'

/-- The arena is seen without lines. -/
theorem bares_arena : Bares (σ := σ) image Arena.bare arena arena := fun _ => rfl

/-- The state of a pass has no lines. -/
theorem bares_state : Bares (σ := σ) image id state state := fun _ => rfl

theorem bares_setState (s : σ) : Bares image id (setState s) (setState s) := fun _ => rfl

theorem bares_replace (id : ExprId) (e : Expr) :
    Bares (σ := σ) image (fun _ => ()) (replace id e) (replace id e.bare) := by
  intro space
  show (Except.ok (), ({ space.bare with arena := space.bare.arena.set id e.bare } : Workspace σ)) = _
  rw [Workspace.bare, Arena.bare_set]
  rfl

/-- What is built for a pass, it builds without lines as well. -/
theorem bares_build {f : α → β} {m : Build α} {m' : Build β} (h : Mirrors Arena.bare f m m') :
    Bares (σ := σ) image f (build m) (build m') := by
  intro space
  have hm := h space.arena
  show (Except.ok (m' space.arena.bare).1,
    ({ space with arena := (m' space.arena.bare).2 } : Workspace σ)) = _
  rw [hm]
  rfl

/-- One by one over a list. -/
theorem Bares.forM {f f' : α → Edit σ ε PUnit} {l : List α}
    (h : ∀ v ∈ l, Bares image id (f v) (f' v)) : Bares image id (l.forM f) (l.forM f') := by
  induction l with
  | nil => exact .pure rfl
  | cons v l ih =>
    rw [List.forall_mem_cons] at h
    exact h.1.bind fun _ => ih h.2

end Edit

/-! ## Walks -/

namespace Pass

variable {σ ε α β : Type} {image : ε → ε}

/-- The callbacks of a pass do not look at lines. -/
structure Bare (image : ε → ε) (r : Pass σ ε) : Prop where
  first : r.FailsFirst
  statement : ∀ c, Edit.Bares image Cursor.bare (r.statement c) (r.statement c.bare)
  expression : ∀ x owner, Edit.Bares image id (r.expression x owner) (r.expression x owner.bare)

/-- A pass that looks at statements only. -/
theorem Bare.ofStatement {statement : Cursor → Edit σ ε Cursor}
    (h : ∀ c, Edit.Bares image Cursor.bare (statement c) (statement c.bare)) :
    (Pass.ofStatement statement).Bare image :=
  ⟨fun _ _ => rfl, h, fun _ _ => .pure rfl⟩

/-- A pass that looks at expressions only; it sees the owner without its line. -/
theorem Bare.ofExpression {expression : ExprId → Stmt → Edit σ ε Unit}
    (h : ∀ x owner, Edit.Bares image id (expression x owner) (expression x owner.bare)) :
    (Pass.ofExpression expression).Bare image :=
  ⟨fun _ _ => rfl, fun _ => .pure rfl, h⟩

/-- An attempt fails on one side if it does on the other, and what it has done stays on both. -/
theorem mirrors_attempt {f : α → β} {edit : Edit σ ε α} {edit' : Edit σ ε β}
    (h : Edit.Bares image f edit edit') (default : α) :
    Mirrors (Walk.bare image) f (attempt edit default) (attempt edit' (f default)) := by
  intro walk
  have hspace := h walk.space
  rw [attempt_eq, attempt_eq]
  have hfailure : (walk.bare image).failure.isSome = walk.failure.isSome := Option.isSome_map
  rw [hfailure]
  by_cases hf : walk.failure.isSome
  · rw [if_pos hf, if_pos hf]
  · rw [if_neg hf, if_neg hf]
    rw [Walk.bare, hspace]
    rcases edit.run walk.space with ⟨r, space⟩
    cases r <;> rfl

/-- Out of depth a list is passed over on both sides. -/
theorem mirrors_passOver (block : Block) : Mirrors (Walk.bare image) Block.bare
    (passOver block : StateM (Walk σ ε) Block) (passOver (Block.bare block)) := by
  intro walk
  have hempty : (Block.bare block).isEmpty = block.isEmpty := by simp [Block.bare_eq_map]
  show (Block.bare block, { walk.bare image with
    exhausted := walk.exhausted || !(Block.bare block).isEmpty }) = _
  rw [hempty]
  rfl

/-- A walk of lists does not look at lines. -/
def Unlined (image : ε → ε) (enter : Block → StateM (Walk σ ε) Block) : Prop :=
  ∀ block, Mirrors (Walk.bare image) Block.bare (enter block) (enter (Block.bare block))

variable {enter : Block → StateM (Walk σ ε) Block} (he : Unlined image enter)
include he

mutual

/-- The lists of an `if` one after another. -/
theorem mirrors_mapBodies : ∀ arm : IfArm,
    Mirrors (Walk.bare image) IfArm.bare (arm.mapBodiesM enter) (arm.bare.mapBodiesM enter)
  | ⟨_, body, _, otherwise⟩ =>
    (he body).bind fun _ => (mirrors_mapElseBodies otherwise).bind fun _ => .pure rfl

theorem mirrors_mapElseBodies : ∀ arm : ElseArm,
    Mirrors (Walk.bare image) ElseArm.bare (arm.mapBodiesM enter) (arm.bare.mapBodiesM enter)
  | .absent => .pure rfl
  | .elseIf arm => (mirrors_mapBodies arm).bind fun _ => .pure rfl
  | .elseBlock body _ => (he body).bind fun _ => .pure rfl

end

/-- The body of a function is entered, and put back. -/
theorem mirrors_mapBody (func : FuncBody) :
    Mirrors (Walk.bare image) FuncBody.bare (func.mapBodyM enter) (func.bare.mapBodyM enter) := by
  obtain ⟨params, variadic, body⟩ := func
  exact (he body).bind fun _ => .pure rfl

/-- **The nested lists of a statement**, of whatever kind. -/
theorem mirrors_mapBlocks (kind : StmtKind) :
    Mirrors (Walk.bare image) StmtKind.bare (kind.mapBlocksM enter) (kind.bare.mapBlocksM enter) := by
  cases kind with
  | localFunction _ func | function _ func =>
    exact (mirrors_mapBody he func).bind fun _ => .pure rfl
  | doBlock body | whileLoop _ body | repeatLoop body _ | forNumeric _ _ _ _ body
  | forGeneric _ _ body => exact (he body).bind fun _ => .pure rfl
  | ifChain arm => exact (mirrors_mapBodies he arm).bind fun _ => .pure rfl
  | ret _ | localDecl _ _ | compoundAssign _ _ _ | assign _ _ | call _ | break_ | importFrom _ _
  | intrinsic _ _ | ignore => exact .pure rfl

/-- A function literal is entered by its body, which loses its lines. -/
theorem mirrors_walkLiteral (x : ExprId) :
    Mirrors (Walk.bare image) id (walkLiteral enter x) (walkLiteral enter x) := by
  intro walk
  have hbody : (walk.bare image).space.arena.body? x = (walk.space.arena.body? x).map Block.bare :=
    walk.space.arena.body?_bare x
  rw [Contract.walkLiteral_eq, Contract.walkLiteral_eq, hbody]
  cases walk.space.arena.body? x with
  | none => rfl
  | some body =>
    have hseen : (walk.bare image).seen = walk.seen := rfl
    simp only [Option.map_some, hseen]
    by_cases hx : x ∈ walk.seen
    · rw [if_pos hx, if_pos hx]
    · rw [if_neg hx, if_neg hx]
      have hout : (walk.bare image).space.arena.setBody x [] = (walk.space.arena.setBody x []).bare :=
        walk.space.arena.bare_setBody x []
      have henter := he body { walk with
        seen := x :: walk.seen
        space := { walk.space with arena := walk.space.arena.setBody x [] } }
      simp only [Walk.bare, Workspace.bare] at henter hout ⊢
      rw [hout, henter]
      simp only [id, Arena.bare_setBody]

variable {r : Pass σ ε} (hr : r.Bare image)
include hr

/-- An expression of a statement with all below it, before and behind the callback. -/
theorem mirrors_walkRoot (owner : Stmt) (root : ExprId) :
    Mirrors (Walk.bare image) id (r.walkRoot enter owner root) (r.walkRoot enter owner.bare root) := by
  intro walk
  have hdescendants : (walk.bare image).space.arena.descendants root =
      walk.space.arena.descendants root :=
    walk.space.arena.descendants_bare root
  show (((walk.bare image).space.arena.descendants root).forM (walkLiteral enter) >>= fun _ =>
    attempt (r.expression root owner.bare) ()) (walk.bare image) = _
  rw [hdescendants]
  exact (Mirrors.forM fun x _ => mirrors_walkLiteral he x).bind
    (fun _ => mirrors_attempt (hr.expression root owner) ()) walk

/-- **A list from a place on**: by the visits that are left, as the walk itself goes. -/
theorem mirrors_walkSlots : ∀ (visits : ℕ) (behind ahead : List Slot),
    Mirrors (Walk.bare image) (List.map Slot.bare) (r.walkSlots enter visits behind ahead)
      (r.walkSlots enter visits (behind.map Slot.bare) (ahead.map Slot.bare))
  | 0, behind, ahead => .pure (by simp)
  | visits + 1, behind, ahead => by
    have hfresh : Slot.fresh ∘ Slot.bare = Slot.fresh := rfl
    rw [walkSlots, walkSlots]
    simp only [List.takeWhile_map, List.dropWhile_map, hfresh, ← List.map_reverse, ← List.map_append]
    cases ahead.dropWhile Slot.fresh with
    | nil => exact .pure rfl
    | cons slot after =>
      have hkind : slot.bare.stmt.kind = slot.stmt.kind.bare := Stmt.bare_kind _
      have hline : slot.bare.stmt.line = 0 := Stmt.bare_line _
      simp only [List.map_cons, hkind, hline]
      refine (mirrors_mapBlocks he slot.stmt.kind).bind fun kind => ?_
      rw [StmtKind.roots_bare]
      refine (Mirrors.forM fun x _ => mirrors_walkRoot he hr ⟨kind, slot.stmt.line⟩ x).bind fun _ => ?_
      rw [hr.first.visit, hr.first.visit]
      refine (mirrors_attempt (hr.statement _) _).bind fun c => ?_
      exact mirrors_walkSlots visits (c.focus :: c.before) c.after

omit he in
/-- **A walk of any depth** does without lines what it does with them. -/
theorem unlined_walkBlock : ∀ depth : ℕ, Unlined image (r.walkBlock depth)
  | 0, block => mirrors_passOver block
  | depth + 1, block => by
    have hslots := mirrors_walkSlots (unlined_walkBlock depth) hr block.length []
      (block.map fun s => ⟨s, false⟩)
    have hstart : (block.map fun s => (⟨s, false⟩ : Slot)).map Slot.bare =
        (Block.bare block).map fun s => ⟨s, false⟩ := by
      simp [Block.bare_eq_map, Slot.bare, Function.comp_def]
    rw [hstart] at hslots
    rw [walkBlock, walkBlock, Block.length_bare]
    refine hslots.bind fun slots => .pure ?_
    simp [Block.bare_eq_map, Slot.bare, Function.comp_def]

omit he in
/-- **A run does not look at lines** if callbacks do not. -/
theorem Bare.run (state : σ) (c : Chunk) :
    (r.run state c.bare).chunk = (r.run state c).chunk.bare ∧
      (r.run state c.bare).failure = (r.run state c).failure.map image := by
  have hdepth : depth c.bare = depth c := by
    rw [depth, depth, Chunk.statementCount_bare, Chunk.bare, Arena.size_bare]
  have hwalk := unlined_walkBlock hr (depth c) c.body (.start ⟨c.arena, state⟩)
  have hstart : Walk.bare image (.start ⟨c.arena, state⟩) = .start ⟨c.bare.arena, state⟩ := rfl
  rw [hstart] at hwalk
  unfold Pass.run StateT.run
  rw [hdepth]
  dsimp only [Chunk.bare] at hwalk ⊢
  rw [hwalk]
  exact ⟨rfl, rfl⟩

end Pass

end LuaSugar
