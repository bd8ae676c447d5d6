import Mathlib
import LuaSugar.Proofs.Pass.Literals
/-!
# What a walk cannot lose

A property of walks that every callback keeps, and that does not change
when the body of a literal is taken out or put back, lasts through the walk
of a list, to whatever depth it goes and whatever the lists are. That a
walk has failed, and how, is such a property, and so is what a node is, the
body of a literal aside, if callbacks overwrite none.
-/

namespace LuaSugar

namespace Pass

variable {σ ε α β : Type} {P : Walk σ ε → Prop}

/-- A step that does not lead out of a property. -/
def Stays (P : Walk σ ε → Prop) (m : StateM (Walk σ ε) α) : Prop := ∀ walk, P walk → P (m walk).2

namespace Stays

/-- A value leaves the walk as it is. -/
theorem pure (v : α) : Stays P (Pure.pure v) := fun _ h => h

/-- **One after the other.** -/
theorem bind {m : StateM (Walk σ ε) α} {k : α → StateM (Walk σ ε) β} (hm : Stays P m)
    (hk : ∀ v, Stays P (k v)) : Stays P (m >>= k) := fun walk h => hk _ _ (hm walk h)

/-- A step beside itself, on walks with the property. -/
theorem relates_iff {m : StateM (Walk σ ε) α} :
    Relates (fun walk walk' => walk' = walk ∧ P walk) m m ↔ Stays P m := by
  constructor
  · exact fun h walk hwalk => (h walk walk ⟨rfl, hwalk⟩).2.2
  · rintro h _ walk ⟨rfl, hwalk⟩
    exact ⟨rfl, rfl, h walk hwalk⟩

theorem forM {f : α → StateM (Walk σ ε) PUnit} {l : List α} (h : ∀ v ∈ l, Stays P (f v)) :
    Stays P (l.forM f) :=
  relates_iff.1 (Relates.forM fun v hv => relates_iff.2 (h v hv))

theorem mapM {f : α → StateM (Walk σ ε) β} {l : List α} (h : ∀ v ∈ l, Stays P (f v)) :
    Stays P (l.mapM f) := by
  induction l with
  | nil => exact pure _
  | cons v l ih =>
    rw [List.forall_mem_cons] at h
    rw [List.mapM_cons]
    exact h.1.bind fun _ => (ih h.2).bind fun _ => pure _

/-- The nested lists of a statement, each of which is entered. -/
theorem mapBlocks {enter : Block → StateM (Walk σ ε) Block} (he : ∀ block, Stays P (enter block))
    (kind : StmtKind) : Stays P (kind.mapBlocksM enter) :=
  relates_iff.1 (Relates.mapBlocks (fun block => relates_iff.2 (he block)) kind)

/-- A callback that is not called after a failure; what it left is judged by its outcome. -/
theorem call {edit : Edit σ ε α} {default : α} {left : Workspace σ → α}
    (hedit : ∀ walk, walk.failure = none → P walk →
      P (match edit.run walk.space with
        | (.ok _, space) => { walk with space }
        | (.error e, space) => { walk with space, failure := some e })) :
    Stays P (call edit default left) := by
  intro walk h
  rw [call_eq]
  by_cases hf : walk.failure.isSome
  · rwa [if_pos hf]
  · rw [if_neg hf]
    have hleft := hedit walk (by simpa using hf) h
    rcases hrun : edit.run walk.space with ⟨v | e, space⟩ <;> rw [hrun] at hleft <;> exact hleft

end Stays

/-- A property that lasts through a walk. -/
structure Lasting (r : Pass σ ε) (P : Walk σ ε → Prop) : Prop where
  seen : ∀ walk x, P walk → P { walk with seen := x :: walk.seen }
  body : ∀ (walk : Walk σ ε) x body, P walk →
    P { walk with space := { walk.space with arena := walk.space.arena.setBody x body } }
  exhausted : ∀ walk, P walk → P { walk with exhausted := true }
  statement : ∀ c, Stays P (r.visit c)
  expression : ∀ x owner, Stays P (attempt (r.expression x owner) ())

namespace Lasting

variable {r : Pass σ ε} {enter : Block → StateM (Walk σ ε) Block}

/-- A literal is entered, and its body put back. -/
theorem walkLiteral (h : Lasting r P) (he : ∀ block, Stays P (enter block)) (x : ExprId) :
    Stays P (walkLiteral enter x) := by
  intro walk hwalk
  rw [Contract.walkLiteral_eq]
  cases walk.space.arena.body? x with
  | none => exact hwalk
  | some body =>
    by_cases hx : x ∈ walk.seen
    · simpa only [hx, if_true] using hwalk
    · simp only [hx, if_false]
      exact h.body _ x _ (he body _ (h.body _ x [] (h.seen walk x hwalk)))

/-- Callbacks and literals below an expression. -/
theorem walkRoot (h : Lasting r P) (he : ∀ block, Stays P (enter block)) (owner : Stmt)
    (root : ExprId) : Stays P (r.walkRoot enter owner root) := by
  intro walk hwalk
  have hbelow : Stays P ((walk.space.arena.descendants root).forM (Pass.walkLiteral enter)) :=
    .forM fun x _ => h.walkLiteral he x
  exact hbelow.bind (fun _ => h.expression root owner) walk hwalk

/-- **A list from a place on**, by the visits that are left. -/
theorem walkSlots (h : Lasting r P) (he : ∀ block, Stays P (enter block)) :
    ∀ (visits : ℕ) (behind ahead : List Slot), Stays P (r.walkSlots enter visits behind ahead)
  | 0, _, _ => .pure _
  | visits + 1, behind, ahead => by
    rw [Pass.walkSlots]
    cases ahead.dropWhile Slot.fresh with
    | nil => exact .pure _
    | cons slot after =>
      refine (Stays.mapBlocks he _).bind fun kind => ?_
      refine (Stays.forM fun x _ => h.walkRoot he _ x).bind fun _ => ?_
      exact (h.statement _).bind fun c => h.walkSlots he visits (c.focus :: c.before) c.after

/-- **What lasts lasts through the walk** of a list. -/
theorem walkBlock (h : Lasting r P) : ∀ (depth : ℕ) (block : Block),
    Stays P (r.walkBlock depth block)
  | 0, [] => fun walk hwalk => by rwa [Pass.walkBlock, passOver_nil]
  | 0, s :: rest => fun walk hwalk => by
    rw [Pass.walkBlock, passOver_cons]
    exact h.exhausted walk hwalk
  | depth + 1, block =>
    (h.walkSlots (h.walkBlock depth) block.length [] _).bind fun _ => .pure _

/-- A failure is not taken back, nor is another put in its place. -/
theorem failure (r : Pass σ ε) (e : ε) : Lasting r fun walk => walk.failure = some e := by
  have call {α : Type} {edit : Edit σ ε α} {default : α} {left : Workspace σ → α} :
      Stays (fun walk : Walk σ ε => walk.failure = some e) (Pass.call edit default left) := by
    refine .call fun walk hnone h => ?_
    simp [hnone] at h
  exact ⟨fun _ _ h => h, fun _ _ _ h => h, fun _ h => h, fun _ => call, fun _ _ => call⟩

end Lasting

end Pass

end LuaSugar
