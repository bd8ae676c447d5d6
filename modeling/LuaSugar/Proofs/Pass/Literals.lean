import Mathlib
import LuaSugar.Proofs.Pass.Building
/-!
# The body of a function literal is walked once

A literal may be reachable from several roots, and from one root several
times. To say that its body is walked at most once, the walk is run beside
a **record** of the literals whose bodies it enters. The record does not
change what the walk does (`recordBlock_relates`), and no literal is in
it twice: what is in the record was seen, and a walk passes over what was
seen.
-/

namespace LuaSugar

/-! ## Walks beside one another -/

/-- From related states two computations give the same answer and leave
related states. -/
def Relates {S S' α : Type} (R : S → S' → Prop) (m : StateM S α) (m' : StateM S' α) : Prop :=
  ∀ s s', R s s' → (m' s').1 = (m s).1 ∧ R (m s).2 (m' s').2

namespace Relates

variable {S S' α β : Type} {R : S → S' → Prop}

/-- A value on both sides. -/
theorem pure (v : α) : Relates R (Pure.pure v) (Pure.pure v) := fun _ _ h => ⟨rfl, h⟩

/-- **One after the other**, on both sides. -/
theorem bind {m : StateM S α} {m' : StateM S' α} {k : α → StateM S β} {k' : α → StateM S' β}
    (hm : Relates R m m') (hk : ∀ v, Relates R (k v) (k' v)) : Relates R (m >>= k) (m' >>= k') := by
  intro s s' h
  obtain ⟨hv, hs⟩ := hm s s' h
  have hrest := hk (m s).1 _ _ hs
  show (k' (m' s').1 (m' s').2).1 = (k (m s).1 (m s).2).1 ∧
    R (k (m s).1 (m s).2).2 (k' (m' s').1 (m' s').2).2
  rw [hv]
  exact hrest

/-- One by one over a list. -/
theorem forM {f : α → StateM S PUnit} {f' : α → StateM S' PUnit} {l : List α}
    (h : ∀ v ∈ l, Relates R (f v) (f' v)) : Relates R (l.forM f) (l.forM f') := by
  induction l with
  | nil => exact pure _
  | cons v l ih =>
    rw [List.forall_mem_cons] at h
    exact bind h.1 fun _ => ih h.2

variable {enter : Block → StateM S Block} {enter' : Block → StateM S' Block}
variable (he : ∀ block, Relates R (enter block) (enter' block))
include he

/-- Lists are entered on both sides. -/
theorem mapM : ∀ bs : List Block, Relates R (bs.mapM enter) (bs.mapM enter')
  | [] => pure _
  | b :: bs => by
    rw [List.mapM_cons, List.mapM_cons]
    exact (he b).bind fun _ => (mapM bs).bind fun _ => pure _

/-- The nested lists of a statement. -/
theorem mapBlocks (kind : StmtKind) :
    Relates R (kind.mapBlocksM enter) (kind.mapBlocksM enter') := by
  rw [StmtKind.mapBlocksM_eq, StmtKind.mapBlocksM_eq, map_eq_pure_bind, map_eq_pure_bind]
  exact (mapM he kind.blocks).bind fun _ => pure _

end Relates

/-! ## The record -/

namespace Pass

variable {σ ε α : Type}

/-- A walk, and the literals whose bodies it has entered, the latest first. -/
abbrev Recorded (σ ε : Type) := Walk σ ε × List ExprId

/-- A step of a walk beside the record. -/
def besides (m : StateM (Walk σ ε) α) : StateM (Recorded σ ε) α :=
  fun s => ((m s.1).1, (m s.1).2, s.2)

def recordLiteral (enter : Block → StateM (Recorded σ ε) Block) (id : ExprId) :
    StateM (Recorded σ ε) Unit := do
  let (walk, record) ← get
  match walk.space.arena.body? id with
  | some body =>
    if id ∈ walk.seen then pure ()
    else
      set ({ walk with seen := id :: walk.seen }, id :: record)
      besides (modifyArena (·.setBody id []))
      let body ← enter body
      besides (modifyArena (·.setBody id body))
  | none => pure ()

variable (r : Pass σ ε)

def recordRoot (enter : Block → StateM (Recorded σ ε) Block) (owner : Stmt) (root : ExprId) :
    StateM (Recorded σ ε) Unit := do
  let below := (← get).1.space.arena.descendants root
  below.forM (recordLiteral enter)
  besides (attempt (r.expression root owner) ())

def recordSlots (enter : Block → StateM (Recorded σ ε) Block) :
    Nat → List Slot → List Slot → StateM (Recorded σ ε) (List Slot)
  | 0, done, todo => pure (done.reverse ++ todo)
  | visits + 1, done, todo =>
    let done := (todo.takeWhile Slot.fresh).reverse ++ done
    match todo.dropWhile Slot.fresh with
    | [] => pure done.reverse
    | slot :: after => do
      let kind ← slot.stmt.kind.mapBlocksM enter
      let stmt := { slot.stmt with kind }
      stmt.kind.roots.forM (r.recordRoot enter stmt)
      let cursor : Cursor := ⟨done, { slot with stmt }, after⟩
      let cursor ← besides (r.visit cursor)
      recordSlots enter visits (cursor.focus :: cursor.before) cursor.after

/-- The walk of a list, with a record. -/
def recordBlock : Nat → Block → StateM (Recorded σ ε) Block
  | 0, block => besides (passOver block)
  | depth + 1, block => do
    let slots ← r.recordSlots (recordBlock depth) block.length [] (block.map fun s => ⟨s, false⟩)
    pure (slots.map Slot.stmt)

/-- The walk with the record is the same walk, and the record holds
literals that were seen, each once. -/
def Along (walk : Walk σ ε) (recorded : Recorded σ ε) : Prop :=
  recorded.1 = walk ∧ recorded.2.Nodup ∧ ∀ x ∈ recorded.2, x ∈ walk.seen

/-- A step that leaves what was seen as it was. -/
theorem relates_besides {m : StateM (Walk σ ε) α} (hm : ∀ walk, (m walk).2.seen = walk.seen) :
    Relates Along m (besides m) := by
  rintro walk ⟨walk', record⟩ ⟨rfl, hnodup, hseen⟩
  exact ⟨rfl, rfl, hnodup, fun x hx => by rw [hm]; exact hseen x hx⟩

/-- No callback changes what was seen. -/
theorem call_seen (edit : Edit σ ε α) (default : α) (left : Workspace σ → α) (walk : Walk σ ε) :
    (call edit default left walk).2.seen = walk.seen := by
  rw [call_eq]
  by_cases hf : walk.failure.isSome
  · rw [if_pos hf]
  · rw [if_neg hf]
    rcases edit.run walk.space with ⟨v | e, space⟩ <;> rfl

variable {enter : Block → StateM (Walk σ ε) Block} {enter' : Block → StateM (Recorded σ ε) Block}
variable (he : ∀ block, Relates Along (enter block) (enter' block))
include he

omit he in
/-- A visit with the record, as one function of both. -/
theorem recordLiteral_eq (x : ExprId) (walk : Walk σ ε) (record : List ExprId) :
    recordLiteral enter' x (walk, record) =
      match walk.space.arena.body? x with
      | none => ((), walk, record)
      | some body =>
        if x ∈ walk.seen then ((), walk, record)
        else
          let left := enter' body ({ walk with
            seen := x :: walk.seen
            space := { walk.space with arena := walk.space.arena.setBody x [] } }, x :: record)
          ((), { left.2.1 with
            space := { left.2.1.space with arena := left.2.1.space.arena.setBody x left.1 } },
            left.2.2) := by
  simp only [recordLiteral, bind, StateT.bind, get, getThe, MonadStateOf.get, StateT.get, pure]
  cases walk.space.arena.body? x with
  | none => rfl
  | some body =>
    by_cases hseen : x ∈ walk.seen
    · simp only [hseen, if_true]
      rfl
    · simp only [hseen, if_false]
      rfl

/-- The literal enters the record as it enters what was seen. -/
theorem recordLiteral_relates (x : ExprId) :
    Relates Along (walkLiteral enter x) (recordLiteral enter' x) := by
  rintro _ ⟨walk, record⟩ ⟨rfl, hnodup, hseen⟩
  rw [Contract.walkLiteral_eq, recordLiteral_eq]
  cases hbody : walk.space.arena.body? x with
  | none => exact ⟨rfl, rfl, hnodup, hseen⟩
  | some body =>
    by_cases hx : x ∈ walk.seen
    · dsimp only
      rw [if_pos hx, if_pos hx]
      exact ⟨rfl, rfl, hnodup, hseen⟩
    · dsimp only
      rw [if_neg hx, if_neg hx]
      -- both walks note the literal and take its body out
      have hstart : Along { walk with
          seen := x :: walk.seen
          space := { walk.space with arena := walk.space.arena.setBody x [] } }
          ({ walk with
            seen := x :: walk.seen
            space := { walk.space with arena := walk.space.arena.setBody x [] } }, x :: record) := by
        refine ⟨rfl, List.nodup_cons.2 ⟨fun h => hx (hseen x h), hnodup⟩, ?_⟩
        intro y hy
        rcases List.mem_cons.1 hy with rfl | hy
        · exact List.mem_cons_self
        · exact List.mem_cons_of_mem _ (hseen y hy)
      obtain ⟨hvalue, hwalk, hnodup', hseen'⟩ := he body _ _ hstart
      refine ⟨rfl, ?_, hnodup', hseen'⟩
      simp only [hvalue, hwalk]

variable {r}

/-- The literals below an expression are recorded as they are entered. -/
theorem recordRoot_relates (owner : Stmt) (root : ExprId) :
    Relates Along (r.walkRoot enter owner root) (r.recordRoot enter' owner root) := by
  rintro _ ⟨walk, record⟩ ⟨rfl, hgood⟩
  have hbelow := Relates.forM (l := walk.space.arena.descendants root)
    fun x _ => recordLiteral_relates he x
  have hroot := hbelow.bind fun _ =>
    relates_besides (call_seen (r.expression root owner) () fun _ => ())
  exact hroot walk (walk, record) ⟨rfl, hgood⟩

/-- **A list from a place on.** -/
theorem recordSlots_relates : ∀ (visits : ℕ) (behind ahead : List Slot),
    Relates Along (r.walkSlots enter visits behind ahead)
      (r.recordSlots enter' visits behind ahead)
  | 0, behind, ahead => .pure _
  | visits + 1, behind, ahead => by
    rw [walkSlots, recordSlots]
    cases ahead.dropWhile Slot.fresh with
    | nil => exact .pure _
    | cons slot after =>
      refine (Relates.mapBlocks he slot.stmt.kind).bind fun kind => ?_
      refine (Relates.forM fun x _ => recordRoot_relates he _ x).bind fun _ => ?_
      refine (relates_besides (call_seen _ _ _)).bind fun c => ?_
      exact recordSlots_relates visits (c.focus :: c.before) c.after

omit he in
/-- **The record stays beside the walk.** -/
theorem recordBlock_relates : ∀ (depth : ℕ) (block : Block),
    Relates Along (r.walkBlock depth block) (r.recordBlock depth block)
  | 0, _ => relates_besides fun _ => rfl
  | depth + 1, block =>
    (recordSlots_relates (recordBlock_relates depth) block.length [] _).bind fun _ => .pure _

end Pass

end LuaSugar
