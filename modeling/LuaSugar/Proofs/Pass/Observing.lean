import Mathlib
import LuaSugar.Proofs.Desugar.Sequence
import LuaSugar.Proofs.Pass.Visits
import LuaSugar.Proofs.Syntax.Growth
import LuaSugar.Require.Requirements
/-!
# Passes that only look

A pass whose callbacks edit nothing leaves the chunk as it was, also if one
of them fails. On the way the body of every function literal is taken out
of its node, so the arena is not the same throughout; but what one step of
the walk has taken out it has put back when it ends, and it ends in the
same way after a failure. So each step is **quiet**: behind it the arena is
what it was before, and lists come out as they went in.

Nothing is asked of the chunk. A literal may be reached by several ways, or
from its own body.
-/

namespace LuaSugar

namespace Pass

variable {σ ε α β : Type}

/-! ## Quiet steps -/

/-- From every walk, failed or not, `m` answers `v` and leaves the arena as
it was. -/
def Quiet (m : StateM (Walk σ ε) α) (v : α) : Prop :=
  ∀ walk, (m walk).1 = v ∧ (m walk).2.space.arena = walk.space.arena

namespace Quiet

/-- A value is quiet. -/
theorem pure (v : α) : Quiet (Pure.pure v : StateM (Walk σ ε) α) v := fun _ => ⟨rfl, rfl⟩

/-- **One after the other.** Quiet steps have one value each, whatever the walk. -/
theorem bind {m : StateM (Walk σ ε) α} {k : α → StateM (Walk σ ε) β} {v : α} {u : β}
    (hm : Quiet m v) (hk : Quiet (k v) u) : Quiet (m >>= k) u := by
  intro walk
  obtain ⟨hv, harena⟩ := hm walk
  show (k (m walk).1 (m walk).2).1 = u ∧ (k (m walk).1 (m walk).2).2.space.arena = walk.space.arena
  rw [hv, ← harena]
  exact hk _

/-- One by one over a list. -/
theorem forM {f : α → StateM (Walk σ ε) PUnit} (hf : ∀ v, Quiet (f v) ⟨⟩) (l : List α) :
    Quiet (l.forM f) ⟨⟩ := by
  induction l with
  | nil => exact pure _
  | cons v l ih => exact (hf v).bind ih

/-- Lists are put back as they were. -/
theorem mapM {f : α → StateM (Walk σ ε) α} (hf : ∀ v, Quiet (f v) v) (l : List α) :
    Quiet (l.mapM f) l := by
  induction l with
  | nil => exact pure _
  | cons v l ih =>
    rw [List.mapM_cons]
    exact (hf v).bind (ih.bind (pure _))

/-- A callback that edits nothing: what it changes is its state, also if it
fails. -/
theorem call {edit : Edit σ ε α} {default : α} {left : Workspace σ → α} (hedit : ∀ space,
    (∀ v, (edit.run space).1 = .ok v → v = default) ∧ left space = default ∧
      (edit.run space).2.arena = space.arena) : Quiet (call edit default left) default := by
  intro walk
  rw [call_eq]
  split
  · exact ⟨rfl, rfl⟩
  · have hspace := hedit walk.space
    rcases hrun : edit.run walk.space with ⟨e | v, space⟩
    · rw [hrun] at hspace
      exact ⟨hspace.2.1, hspace.2.2⟩
    · rw [hrun] at hspace
      exact ⟨hspace.1 v rfl, hspace.2.2⟩

end Quiet

/-! ## The walk -/

/-- The callbacks of `r` edit nothing: neither the list that the cursor is
in, which stays where it is, nor the arena. They may change their state, and
may fail. -/
structure Observing (r : Pass σ ε) : Prop where
  statement : ∀ c space, (∀ c', ((r.statement c).run space).1 = .ok c' → c' = c) ∧
    r.left c space = c ∧ ((r.statement c).run space).2.arena = space.arena
  expression : ∀ x owner space, ((r.expression x owner).run space).2.arena = space.arena

namespace Quiet

variable {enter : Block → StateM (Walk σ ε) Block} (he : ∀ block, Quiet (enter block) block)
include he

/-- **The body of a function literal is put back.** -/
theorem walkLiteral (x : ExprId) : Quiet (walkLiteral enter x) ⟨⟩ := by
  intro walk
  rw [Contract.walkLiteral_eq]
  cases hbody : walk.space.arena.body? x with
  | none => exact ⟨rfl, rfl⟩
  | some body =>
    dsimp only
    split
    · exact ⟨rfl, rfl⟩
    · obtain ⟨hsame, harena⟩ := he body { walk with
        seen := x :: walk.seen
        space := { walk.space with arena := walk.space.arena.setBody x [] } }
      refine ⟨rfl, ?_⟩
      dsimp only
      rw [hsame, harena, Arena.setBody_setBody hbody]

/-- A statement gets back the lists that it had. -/
theorem mapBlocks (kind : StmtKind) : Quiet (kind.mapBlocksM enter) kind := by
  rw [StmtKind.mapBlocksM_eq, map_eq_pure_bind]
  refine (mapM he kind.blocks).bind ?_
  rw [kind.putBlocks_blocks]
  exact pure _

variable {r : Pass σ ε} (hr : r.Observing)
include hr

/-- Callbacks for an expression and all that is below it. -/
theorem walkRoot (owner : Stmt) (x : ExprId) : Quiet (r.walkRoot enter owner x) ⟨⟩ := by
  intro walk
  have hbelow := forM (walkLiteral he) (walk.space.arena.descendants x)
  have hroot : Quiet (attempt (r.expression x owner) ()) ⟨⟩ :=
    call fun space => ⟨fun _ _ => rfl, rfl, hr.expression x owner space⟩
  exact bind (k := fun _ => attempt (r.expression x owner) ()) hbelow hroot walk

/-- A statement with its expressions and its lists. -/
theorem inner (s : Stmt) : Quiet (r.inner enter s) s := by
  cases s with | mk kind line =>
  refine (mapBlocks he kind).bind ?_
  refine (forM (walkRoot he hr ⟨kind, line⟩) kind.roots).bind ?_
  exact pure _

/-- **A list from a place on** is as it was. -/
theorem walkSlots : ∀ (visits : ℕ) (behind ahead : List Slot),
    Quiet (r.walkSlots enter visits behind ahead) (behind.reverse ++ ahead)
  | 0, _, _ => pure _
  | visits + 1, behind, ahead => by
    rcases ahead_cases ahead with hfresh | ⟨skipped, s, after, rfl, hskipped⟩
    · rw [walkSlots_skip hfresh]
      exact pure _
    · rw [walkSlots_visit hskipped]
      refine (inner he hr s).bind ?_
      refine (call (hr.statement _)).bind ?_
      have hrest := walkSlots visits (⟨s, false⟩ :: (skipped.reverse ++ behind)) after
      rw [List.reverse_cons, List.reverse_append, List.reverse_reverse, List.append_assoc,
        List.append_assoc, List.singleton_append] at hrest
      exact hrest

omit he in
/-- **Every list**, at whatever depth, comes out as it went in. -/
theorem walkBlock : ∀ (depth : ℕ) (block : Block), Quiet (r.walkBlock depth block) block
  | 0, _ => fun _ => ⟨rfl, rfl⟩
  | depth + 1, block => by
    let slots : List Slot := block.map fun s => ⟨s, false⟩
    have hstmts : slots.map Slot.stmt = block := by simp [slots, Function.comp_def]
    refine (walkSlots (walkBlock depth) hr block.length [] slots).bind ?_
    show Quiet (Pure.pure (slots.map Slot.stmt)) block
    rw [hstmts]
    exact pure block

end Quiet

/-! ## The chunk behind it -/

/-- **Passes that observe** leave the chunk as it is. -/
theorem run_chunk_of_observing {r : Pass σ ε} (hr : r.Observing) (state : σ) (c : Chunk) :
    (r.run state c).chunk = c := by
  obtain ⟨hbody, harena⟩ := Quiet.walkBlock hr (depth c) c.body (.start ⟨c.arena, state⟩)
  show (⟨_, _⟩ : Chunk) = ⟨c.arena, c.body⟩
  exact Chunk.mk.injEq .. ▸ ⟨harena, hbody⟩

/-- **And it ends.** -/
theorem Observing.ends {r : Pass σ ε} (hr : r.Observing) (state : σ) (c : Chunk) :
    (r.run state c).exhausted = false := by
  have hlevel : Level r fun _ => True :=
    { lasts := lasting_true r
      after := fun c walk _ => congrArg Cursor.after (Quiet.call (hr.statement c) walk).1
      statement := fun n c => Spare.call fun {seen space} hroom =>
        ⟨(), le_rfl, by rwa [(hr.statement c space).2.2], fun _ _ => trivial⟩
      expression := fun n x owner => Spare.call fun {seen space} hroom =>
        ⟨(), le_rfl, by rwa [hr.expression x owner space], fun _ _ => trivial⟩ }
  exact hlevel.run state c

end Pass

/-! ## Requirements are read off -/

namespace Require.Call

/-- Collecting calls is observing. -/
theorem collecting_observing : collecting.Observing where
  statement _ _ := ⟨fun _ h => (Except.ok.inj h).symm, rfl, rfl⟩
  expression _ _ _ := rfl

/-- The calls of a chunk, and the chunk as it is after they were
collected. -/
def collect (c : Chunk) : List Call × Chunk :=
  let left := collecting.run [] c
  (left.state.mergeSort fun a b => a.line ≤ b.line, left.chunk)

/-- Collecting has the calls for its result, and the chunk is still there. -/
theorem collect_eq (c : Chunk) : collect c = (ofChunk c, c) :=
  Prod.ext rfl (Pass.run_chunk_of_observing collecting_observing [] c)

end Require.Call

/-- What a module requires, and its chunk as it is after that was found
out. -/
def Requirements.trace (p : Project) (view : FileView) (file : Path) (c : Chunk) :
    (Requirements × List Notice) × Chunk :=
  let (calls, c) := Require.Call.collect c
  let sorted := calls.foldl (Sorting.add p view file) ⟨empty, .empty, []⟩
  ((sorted.requirements, sorted.notices), c)

/-- So does tracing requirements. -/
theorem Requirements.trace_eq (p : Project) (view : FileView) (file : Path) (c : Chunk) :
    Requirements.trace p view file c = (Requirements.ofModule p view file c, c) := by
  unfold trace
  rw [Require.Call.collect_eq]
  rfl

namespace Pass

variable {σ ε : Type}

/-- **A pass that only looks changes nothing**, whether or not it fails:
every list that the walk is in, at any depth, comes out as it went in, with
every body that was taken out put back, and so the chunk is left as it was.
Nothing else is done when the calls of `require` are collected and what a
module requires is found out. -/
theorem observing_changes_nothing {r : Pass σ ε} (hr : r.Observing) :
    (∀ depth block walk, (r.walkBlock depth block walk).1 = block ∧
      (r.walkBlock depth block walk).2.space.arena = walk.space.arena) ∧
    (∀ state c, (r.run state c).chunk = c) ∧
    ∀ c, Require.Call.collect c = (Require.Call.ofChunk c, c) ∧
      ∀ p view file, Requirements.trace p view file c = (Requirements.ofModule p view file c, c) :=
  ⟨Quiet.walkBlock hr, run_chunk_of_observing hr, fun c => ⟨Require.Call.collect_eq c,
    fun p view file => Requirements.trace_eq p view file c⟩⟩

/-- A pass that fails where `require` stands by itself. -/
def refusing : Pass Unit ℕ := .ofExpression fun root owner => do
  if Require.Call.isRequire ((← Edit.arena).get root) then throw owner.line

/-- So is refusing. -/
theorem refusing_observing : refusing.Observing where
  statement _ _ := ⟨fun _ h => (Except.ok.inj h).symm, rfl, rfl⟩
  expression x owner space := by
    show ((if Require.Call.isRequire (space.arena.get x) then throw owner.line else Pure.pure () :
      Edit Unit ℕ Unit).run space).2.arena = space.arena
    split <;> rfl

/-- The walk fails in a literal that stands in another one. -/
theorem observing_changes_nothing_refused : ∃ tokens c,
    tokenize "f(function() g(function() return require end) end)" = .ok tokens ∧
      parse tokens = .ok c ∧ (refusing.run () c).failure = some 1 ∧ refusing.Observing ∧
      (refusing.run () c).chunk = c ∧ Requirements.trace ⟨.ofText "/p", .named "p"⟩
        (.listed .empty) (.ofText "/p/a.lu") c = ((.empty, []), c) := by
  obtain ⟨tokens, c, htokens, hparse, hfailure, hnone⟩ := exists_parsed
    (P := fun _ c => (refusing.run () c).failure = some 1 ∧ Require.Call.ofChunk c = [])
    "f(function() g(function() return require end) end)" (by decide +kernel)
  obtain ⟨-, hchunk, hrequires⟩ := observing_changes_nothing refusing_observing
  refine ⟨tokens, c, htokens, hparse, hfailure, refusing_observing, hchunk () c, ?_⟩
  rw [(hrequires c).2, Requirements.ofModule, hnone]
  rfl

end Pass

end LuaSugar
