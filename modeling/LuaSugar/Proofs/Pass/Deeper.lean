import Mathlib
import LuaSugar.Proofs.Pass.Lasting
/-!
# Walks that may go deeper

A walk is given a number of lists that it may be inside of, and says so
when it was not enough. What the number is worth is told here: a walk that
is not exhausted is the same with any greater one (`walkBlock_of_le`). So
there is one thing that a walk without any bound leaves, if it leaves
something at all: what the bounded ones leave that are not exhausted
(`Pass.Ends`).

The relation that carries this says of two steps that the second does what
the first does, or the first exhausts the walk. It goes through `bind` for
the reason that no step takes exhaustion back.
-/

namespace LuaSugar

namespace Pass

variable {σ ε α β : Type}

/-- No callback exhausts a walk. -/
theorem call_exhausted (edit : Edit σ ε α) (default : α) (left : Workspace σ → α)
    (walk : Walk σ ε) : (call edit default left walk).2.exhausted = walk.exhausted := by
  rw [call_eq]
  by_cases hf : walk.failure.isSome
  · rw [if_pos hf]
  · rw [if_neg hf]
    rcases edit.run walk.space with ⟨v | e, space⟩ <;> rfl

/-- **Exhaustion is not taken back.** -/
theorem lasting_exhausted (r : Pass σ ε) : Lasting r fun walk => walk.exhausted = true :=
  ⟨fun _ _ h => h, fun _ _ _ h => h, fun _ _ => rfl,
    fun c walk h => (call_exhausted _ c _ walk).trans h,
    fun _ _ walk h => (call_exhausted _ () _ walk).trans h⟩

/-- The second step does what the first does, unless that exhausts the
walk. -/
structure Deepens (m m' : StateM (Walk σ ε) α) : Prop where
  stays : Stays (fun walk => walk.exhausted = true) m
  same : ∀ walk, (m walk).2.exhausted = false → m' walk = m walk

namespace Deepens

/-- A step that does not exhaust the walk was not exhausted before. -/
theorem before {m m' : StateM (Walk σ ε) α} (h : Deepens m m') {walk : Walk σ ε}
    (hleft : (m walk).2.exhausted = false) : walk.exhausted = false := by
  by_contra hwalk
  rw [h.stays walk (Bool.eq_true_of_not_eq_false hwalk)] at hleft
  cases hleft

/-- A step that does not go down deepens itself, as long as it does not take exhaustion back. -/
theorem refl {m : StateM (Walk σ ε) α} (h : Stays (fun walk => walk.exhausted = true) m) :
    Deepens m m :=
  ⟨h, fun _ _ => rfl⟩

theorem pure (v : α) : Deepens (Pure.pure v : StateM (Walk σ ε) α) (Pure.pure v) := refl (.pure v)

/-- **One after the other.** If the first was not exhausted both went the same
way, and if it was, so is all of it. -/
theorem bind {m m' : StateM (Walk σ ε) α} {k k' : α → StateM (Walk σ ε) β} (hm : Deepens m m')
    (hk : ∀ v, Deepens (k v) (k' v)) : Deepens (m >>= k) (m' >>= k') := by
  refine ⟨hm.stays.bind fun v => (hk v).stays, fun walk hleft => ?_⟩
  have hrest : (k (m walk).1 (m walk).2).2.exhausted = false := hleft
  show k' (m' walk).1 (m' walk).2 = k (m walk).1 (m walk).2
  rw [hm.same walk ((hk _).before hrest)]
  exact (hk _).same _ hrest

/-- One by one over a list. -/
theorem forM {f f' : α → StateM (Walk σ ε) PUnit} (h : ∀ v, Deepens (f v) (f' v)) (l : List α) :
    Deepens (l.forM f) (l.forM f') := by
  induction l with
  | nil => exact pure _
  | cons v l ih => exact (h v).bind fun _ => ih

variable {enter enter' : Block → StateM (Walk σ ε) Block}
variable (he : ∀ block, Deepens (enter block) (enter' block))
include he

theorem mapM : ∀ bs : List Block, Deepens (bs.mapM enter) (bs.mapM enter')
  | [] => pure _
  | b :: bs => by
    rw [List.mapM_cons, List.mapM_cons]
    exact (he b).bind fun _ => (mapM bs).bind fun _ => pure _

/-- The nested lists of a statement. -/
theorem mapBlocks (kind : StmtKind) : Deepens (kind.mapBlocksM enter) (kind.mapBlocksM enter') := by
  rw [StmtKind.mapBlocksM_eq, StmtKind.mapBlocksM_eq, map_eq_pure_bind, map_eq_pure_bind]
  exact (mapM he kind.blocks).bind fun _ => pure _

/-- The body of a literal. -/
theorem walkLiteral (r : Pass σ ε) (x : ExprId) :
    Deepens (Pass.walkLiteral enter x) (Pass.walkLiteral enter' x) := by
  refine ⟨(lasting_exhausted r).walkLiteral (fun block => (he block).stays) x, fun walk hleft => ?_⟩
  rw [Contract.walkLiteral_eq] at hleft
  rw [Contract.walkLiteral_eq, Contract.walkLiteral_eq]
  cases hbody : walk.space.arena.body? x with
  | none => rfl
  | some body =>
    by_cases hx : x ∈ walk.seen
    · simp only [hx, if_true]
    · simp only [hbody, hx, if_false] at hleft ⊢
      rw [(he body).same _ hleft]

variable (r : Pass σ ε)

/-- What is below an expression. -/
theorem walkRoot (owner : Stmt) (root : ExprId) :
    Deepens (r.walkRoot enter owner root) (r.walkRoot enter' owner root) := by
  refine ⟨(lasting_exhausted r).walkRoot (fun block => (he block).stays) owner root, fun walk => ?_⟩
  exact ((forM (walkLiteral he r) (walk.space.arena.descendants root)).bind fun _ =>
    refl ((lasting_exhausted r).expression root owner)).same walk

theorem inner (s : Stmt) : Deepens (r.inner enter s) (r.inner enter' s) := by
  refine (mapBlocks he s.kind).bind fun kind => ?_
  exact (forM (walkRoot he r { s with kind }) _).bind fun _ => pure _

/-- **A list from a place on.** The visits are the same at every depth. -/
theorem walkSlots : ∀ (visits : ℕ) (behind ahead : List Slot),
    Deepens (r.walkSlots enter visits behind ahead) (r.walkSlots enter' visits behind ahead)
  | 0, _, _ => pure _
  | visits + 1, behind, ahead => by
    rcases ahead_cases ahead with hfresh | ⟨skipped, s, after, rfl, hskipped⟩
    · rw [walkSlots_skip hfresh, walkSlots_skip hfresh]
      exact pure _
    · rw [walkSlots_visit hskipped, walkSlots_visit hskipped]
      refine (inner he r s).bind fun s' => ?_
      exact (refl ((lasting_exhausted r).statement _)).bind fun c => walkSlots visits _ _

omit he in
/-- **One list more** makes no difference where it is not needed. -/
theorem walkBlock (r : Pass σ ε) : ∀ (depth : ℕ) (block : Block),
    Deepens (r.walkBlock depth block) (r.walkBlock (depth + 1) block)
  | 0, block => by
    refine ⟨(lasting_exhausted r).walkBlock 0 block, fun walk hleft => ?_⟩
    -- only an empty list is passed over without exhausting the walk
    cases block with
    | nil => exact (passOver_nil walk).symm
    | cons s rest =>
      rw [Pass.walkBlock, passOver_cons] at hleft
      cases hleft
  | depth + 1, block => by
    rw [Pass.walkBlock, Pass.walkBlock]
    exact (walkSlots (walkBlock r depth) r block.length [] _).bind fun _ => pure _

end Deepens

variable (r : Pass σ ε)

/-- **A walk that is not exhausted** is the same with any greater depth. -/
theorem deepens_of_le {depth depth' : ℕ} (h : depth ≤ depth') (block : Block) :
    Deepens (r.walkBlock depth block) (r.walkBlock depth' block) := by
  refine ⟨(lasting_exhausted r).walkBlock depth block, ?_⟩
  induction h with
  | refl => exact fun _ _ => rfl
  | @step depth' _ ih =>
    intro walk hleft
    rw [(Deepens.walkBlock r depth' block).same walk (by rwa [ih walk hleft])]
    exact ih walk hleft

/-- **More depth changes nothing** where there was enough. -/
theorem walkBlock_of_le {depth depth' : ℕ} (h : depth ≤ depth') {block : Block} {walk : Walk σ ε}
    (hleft : (r.walkBlock depth block walk).2.exhausted = false) :
    r.walkBlock depth' block walk = r.walkBlock depth block walk :=
  (r.deepens_of_le h block).same walk hleft

end Pass

end LuaSugar
