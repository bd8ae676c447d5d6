import Mathlib
import LuaSugar.Proofs.Syntax.Growth
import LuaSugar.Proofs.Syntax.Scope
import LuaSugar.Proofs.Pass.Building
/-!
# Scopes under passes

A chunk stays scoped under a pass if the callbacks see to it for what they
touch. Where an id occurs is nothing a callback can look up, so a world
says which ids are **closed**: below those no `...` stands in the same
function. Closed ids may be moved anywhere. What a list holds in a
function with fixed parameters is closed, and so is what an assignment
holds, which is moved into a literal of its own.

The frame of a list is its scope. A literal keeps the scope of its body
while that is out for its visit.
-/

namespace LuaSugar

/-- Whether a function literal is variadic. -/
def Expr.variadic? : Expr → Option Bool
  | .atom (.func func) => some func.variadic
  | _ => none

/-- What an assignment expression puts into a literal of its own. -/
def Expr.assigned : Expr → List ExprId
  | .arith (.assign _ target value) => [target, value]
  | _ => []

/-- An arena, and ids below which no `...` stands in the same function. -/
structure Scopes where
  arena : Arena
  closed : Set ExprId

namespace Scopes

/-- Nothing below the node is a `...` of the same function. -/
def Shut (w : Scopes) (e : Expr) : Prop := e.isVararg = false ∧ ∀ x ∈ e.children, x ∈ w.closed

/-- What a statement holds where `...` has no place is closed. -/
def Fits (w : Scopes) (v : Bool) (s : Stmt) : Prop := ∀ x, (false, x) ∈ s.scoped v → x ∈ w.closed

/-- A node that does not depend on where it occurs. -/
structure Node (w : Scopes) (e : Expr) : Prop where
  body : ∀ x, (false, x) ∈ e.scoped → x ∈ w.closed
  assigned : ∀ x ∈ e.assigned, x ∈ w.closed

structure Good (w : Scopes) (a : Arena) : Prop where
  arena : a = w.arena
  inside : ∀ i ∈ w.closed, i.index < a.size
  shut : ∀ i ∈ w.closed, w.Shut (a.get i)
  nodes : ∀ i, w.Node (a.get i)

/-- No old id becomes closed or stops being so, and literals keep their
scope. -/
structure Before (w w' : Scopes) : Prop where
  size : w.arena.size ≤ w'.arena.size
  closed : w.closed ⊆ w'.closed
  old : ∀ i : ExprId, i.index < w.arena.size → i ∈ w'.closed → i ∈ w.closed
  variadic : ∀ i : ExprId, i.index < w.arena.size →
    (w'.arena.get i).variadic? = (w.arena.get i).variadic?

instance : Preorder Scopes where
  le := Before
  le_refl w := ⟨le_rfl, subset_rfl, fun _ _ => id, fun _ _ => rfl⟩
  le_trans _ _ _ h h' := ⟨h.size.trans h'.size, h.closed.trans h'.closed,
    fun i hi hc => h.old i hi (h'.old i (hi.trans_le h.size) hc),
    fun i hi => (h'.variadic i (hi.trans_le h.size)).trans (h.variadic i hi)⟩

variable {w w' : Scopes} {a b : Arena} {u v : Bool} {s s' : Stmt} {e : Expr} {x i : ExprId}

/-! ## Statements -/

theorem Fits.mono (h : w.closed ⊆ w'.closed) (hs : w.Fits v s) : w'.Fits v s :=
  fun x hx => h (hs x hx)

/-- **What a statement holds** is closed where `...` has no place, and its
lists fit the scope inside. -/
theorem fits_iff : w.Fits v s ↔ (v = false → ∀ x ∈ s.kind.roots, x ∈ w.closed) ∧
    ∀ b ∈ s.kind.blocks, ∀ t ∈ b, w.Fits (s.kind.scope v) t := by
  constructor
  · intro h
    refine ⟨?_, fun b hb t ht x hx => h x (Stmt.mem_scoped.2 (.inr ⟨b, hb, ?_⟩))⟩
    · rintro rfl x hx
      exact h x (Stmt.mem_scoped.2 (.inl ⟨rfl, hx⟩))
    · exact Block.mem_scoped.2 ⟨t, ht, hx⟩
  · rintro ⟨hroots, hblocks⟩ x hx
    rcases Stmt.mem_scoped.1 hx with ⟨hv, hx⟩ | ⟨b, hb, hx⟩
    · exact hroots hv.symm x hx
    · obtain ⟨t, ht, hx⟩ := Block.mem_scoped.1 hx
      exact hblocks b hb t ht x hx

/-- A statement without lists. -/
theorem Fits.simple (hblocks : s.kind.blocks = [])
    (hroots : v = false → ∀ x ∈ s.kind.roots, x ∈ w.closed) : w.Fits v s :=
  fits_iff.2 ⟨hroots, by simp [hblocks]⟩

/-- A function literal does not depend on where it occurs if the statements
of its body fit its scope. -/
theorem node_func {func : FuncBody} :
    w.Node (.atom (.func func)) ↔ ∀ s ∈ func.body, w.Fits func.variadic s := by
  have hscoped : (Expr.atom (.func func)).scoped = Block.scoped func.variadic func.body :=
    func.scoped_eq
  constructor
  · exact fun h s hs x hx => h.body x (hscoped ▸ Block.mem_scoped.2 ⟨s, hs, hx⟩)
  · refine fun h => ⟨fun x hx => ?_, by simp [Expr.assigned]⟩
    obtain ⟨s, hs, hx⟩ := Block.mem_scoped.1 (hscoped ▸ hx)
    exact h s hs x hx

theorem Shut.mono (h : w.closed ⊆ w'.closed) (he : w.Shut e) : w'.Shut e :=
  ⟨he.1, fun x hx => h (he.2 x hx)⟩

theorem Node.mono (h : w.closed ⊆ w'.closed) (he : w.Node e) : w'.Node e :=
  ⟨fun x hx => h (he.body x hx), fun x hx => h (he.assigned x hx)⟩

/-! ## Arenas -/

namespace Good

/-- **One node** is new, closed if `p` says so, or another than before. -/
theorem update (h : w.Good a) (p : Prop) (hsize : a.size ≤ b.size) (hx : x.index < b.size)
    (hother : ∀ j, j ≠ x → b.get j = a.get j) (hnode : w.Node (b.get x))
    (hshut : x ∈ w.closed ∨ p → w.Shut (b.get x)) (hnew : p → a.size ≤ x.index)
    (hvariadic : x.index < a.size → (b.get x).variadic? = (a.get x).variadic?) :
    ∃ w', w ≤ w' ∧ (p → x ∈ w'.closed) ∧ w'.Good b := by
  obtain rfl := h.arena
  let w' : Scopes := ⟨b, {y | y ∈ w.closed ∨ y = x ∧ p}⟩
  have hclosed : w.closed ⊆ w'.closed := fun y hy => .inl hy
  refine ⟨w', ⟨hsize, hclosed, ?_, fun j hj => ?_⟩, fun hp => .inr ⟨rfl, hp⟩, rfl, ?_, ?_, ?_⟩
  -- of the nodes that were there none is shut now that was not
  · rintro j hj (hc | ⟨rfl, hp⟩)
    · exact hc
    · exact absurd hj (hnew hp).not_gt
  · by_cases hjx : j = x
    · subst hjx
      exact hvariadic hj
    · exact congrArg Expr.variadic? (hother j hjx)
  -- what is shut is inside
  · rintro j (hj | ⟨rfl, -⟩)
    · exact (h.inside j hj).trans_le hsize
    · exact hx
  -- shut nodes, then all nodes; only `x` has changed
  · intro j hj
    by_cases hjx : j = x
    · subst hjx
      exact (hshut (hj.imp_right And.right)).mono hclosed
    · rw [hother j hjx]
      exact (h.shut j (hj.resolve_right fun hj => hjx hj.1)).mono hclosed
  · intro j
    by_cases hjx : j = x
    · subst hjx
      exact hnode.mono hclosed
    · rw [hother j hjx]
      exact (h.nodes j).mono hclosed

/-- **A new node** is closed if it is shut. -/
theorem alloc (h : w.Good a) (hnode : w.Node e) :
    Builds Good (Build.alloc e) (fun w' i => w.Shut e → i ∈ w'.closed) w a := by
  have hfresh : (⟨a.size⟩ : ExprId) ∉ w.closed := fun hc => lt_irrefl _ (h.inside _ hc)
  have hget : (a.alloc e).2.get ⟨a.size⟩ = e := Arena.get_alloc_self a e
  obtain ⟨w', hle, hmem, hgood⟩ := h.update (b := (a.alloc e).2) (x := ⟨a.size⟩) (w.Shut e)
    (Arena.extends_alloc a e).size_le (by rw [Arena.size_alloc]; exact Nat.lt_succ_self _)
    (fun j hj => (Arena.get_alloc_cases a e j).resolve_right fun h => hj h.1)
    (by rwa [hget]) (fun hs => by rw [hget]; exact hs.resolve_left hfresh) (fun _ => le_rfl)
    (fun hlt => absurd hlt (lt_irrefl _))
  exact ⟨w', hle, hgood, hmem⟩

/-- **An overwritten node** is as closed as it was. -/
theorem set (h : w.Good a) (hx : x.index < a.size) (hnode : w.Node e)
    (hshut : x ∈ w.closed → w.Shut e) (hvariadic : e.variadic? = (a.get x).variadic?) :
    ∃ w', w ≤ w' ∧ w'.Good (a.set x e) := by
  have hget : (a.set x e).get x = e := Arena.get_set_self e hx
  obtain ⟨w', hle, -, hgood⟩ := h.update (b := a.set x e) False (Arena.size_set a x e).ge
    (by rwa [Arena.size_set]) (fun _ hj => Arena.get_set_of_ne e hj) (by rwa [hget])
    (fun hs => by rw [hget]; exact hshut (hs.resolve_right id)) False.elim
    (fun _ => by rw [hget, hvariadic])
  exact ⟨w', hle, hgood⟩

/-- Another body for a function literal. -/
theorem setBody (h : w.Good a) (body : Block)
    (hbody : ∀ s ∈ body, ∀ v, (a.get x).variadic? = some v → w.Fits v s) :
    ∃ w', w ≤ w' ∧ w'.Good (a.setBody x body) := by
  unfold Arena.setBody
  split
  · rename_i func hget
    have hx : x.index < a.size := Arena.inside_of_get_ne x fun hn => by simp [hget] at hn
    exact h.set hx (node_func.2 fun s hs => hbody s hs func.variadic (by rw [hget]; rfl))
      (fun _ => ⟨rfl, by simp [Expr.children]⟩) (by rw [hget]; rfl)
  · exact ⟨w, le_rfl, h⟩

end Good

end Scopes

/-! ## The contract -/

open Scopes

/-- What a pass has to show of its callbacks. -/
structure Pass.KeepsScope {σ ε : Type} (r : Pass σ ε) : Prop where
  first : r.FailsFirst
  expression : ∀ {w : Scopes} {x} (owner : Stmt) {space}, w.Good space.arena →
    Edits Scopes.Good (r.expression x owner) (fun _ _ => True) w space
  statement : ∀ {w : Scopes} {v} (c : Cursor) {space}, w.Good space.arena →
    (∀ slot ∈ c.slots, w.Fits v slot.stmt) →
    Edits Scopes.Good (r.statement c) (fun w' c' =>
      (∀ slot ∈ c'.slots, w'.Fits v slot.stmt) ∧
      (c'.after.countP fun slot => !slot.fresh) ≤ c.after.countP fun slot => !slot.fresh) w space

namespace Pass

variable {σ ε : Type} {r : Pass σ ε}

/-- **Scopes as a contract.** -/
def KeepsScope.contract (hr : r.KeepsScope) : Contract r Scopes Bool where
  inv w walk := w.Good walk.space.arena
  todo w _ v s := w.Fits v s
  half w _ v s := w.Fits v s
  done w v s := w.Fits v s
  rootTodo _ _ _ _ := True
  rootDone _ _ _ := True
  below _ _ _ _ := True
  seen _ _ := True
  within v kind := kind.scope v
  shape _ := True
  todo_mono h hs := hs.mono h.closed
  half_mono h hs := hs.mono h.closed
  done_mono h hs := hs.mono h.closed
  rootDone_mono _ _ := trivial
  below_mono _ _ := trivial
  seen_mono _ _ := trivial
  shape_of_hollow _ _ := trivial
  exhausted h hs := ⟨hs, h⟩
  nested h hb := ⟨trivial, (fits_iff.1 h).2 _ hb⟩
  half_of_nested {w d v s s'} h hhollow _ hb := by
    have hroots : s'.kind.roots = s.kind.roots := by
      rw [← StmtKind.roots_hollow, hhollow, StmtKind.roots_hollow]
    have hscope : s'.kind.scope v = s.kind.scope v := by
      rw [← StmtKind.scope_hollow, hhollow, StmtKind.scope_hollow]
    refine fits_iff.2 ⟨hroots ▸ (fits_iff.1 h).1, fun b hm t ht => ?_⟩
    rw [hscope]
    exact (hb b hm).2 t ht
  root _ _ := trivial
  below_of_root _ _ _ := trivial
  seen_of_inv _ _ _ := trivial
  literal {w walk d v x body} h _ _ hbody := by
    obtain ⟨func, hfunc, rfl⟩ := Arena.body?_eq_some.1 hbody
    have hx : x.index < w.arena.size := h.arena ▸ Arena.inside_of_get_ne x fun hn => by
      simp [hfunc] at hn
    have hvariadic : (w.arena.get x).variadic? = some func.variadic := by
      rw [← h.arena, hfunc]
      rfl
    obtain ⟨w', hle, hgood⟩ := h.setBody (x := x) [] (by simp)
    have hnode := h.nodes x
    rw [hfunc] at hnode
    refine ⟨w', func.variadic, hle, hgood, ⟨trivial, fun s hs =>
      (node_func.1 hnode s hs).mono hle.closed⟩, fun w₁ walk₁ body₁ hle₁ hgood₁ hbody₁ => ?_⟩
    -- the literal is as variadic as it was when its body was taken out
    obtain ⟨w₂, hle₂, hgood₂⟩ := hgood₁.setBody (x := x) body₁ fun s hs u hu => by
      rw [hgood₁.arena, (hle.trans hle₁).variadic x hx, hvariadic] at hu
      exact Option.some.inj hu ▸ hbody₁.2 s hs
    exact ⟨w₂, hle₂, trivial, hgood₂⟩
  expression owner _ _ _ h _ := .attempt h (hr.expression owner h) fun _ _ => trivial
  statement {w walk d v} c h hfocus _ hbefore hafter _ := by
    have hslots : ∀ slot ∈ c.slots, w.Fits v slot.stmt :=
      Cursor.forall_slots.2 ⟨List.forall_mem_cons.2 ⟨hfocus, hbefore⟩, by simpa using hafter⟩
    rw [hr.first.visit]
    refine (Leads.attempt h (hr.statement c h hslots) fun w' hle => ?_).mono fun w' c' _ hc' => ?_
    · exact ⟨fun slot hs => (hslots slot hs).mono hle.closed, le_rfl⟩
    · obtain ⟨hdone, hahead⟩ := Cursor.forall_slots.1 hc'.1
      exact ⟨hdone, by simpa using hahead, trivial, hc'.2⟩

end Pass

/-! ## Scoped chunks -/

/-- Some ids of a chunk are closed, among them all it holds where `...`
has no place. -/
def Chunk.Closes (c : Chunk) : Prop :=
  ∃ closed, (⟨c.arena, closed⟩ : Scopes).Good c.arena ∧
    ∀ s ∈ c.body, (⟨c.arena, closed⟩ : Scopes).Fits true s

/-- **A pass keeps it so**, also when it fails. -/
theorem Pass.KeepsScope.run {σ ε : Type} {r : Pass σ ε} (hr : r.KeepsScope) {c : Chunk}
    (h : c.Closes) (state : σ) : (r.run state c).chunk.Closes := by
  obtain ⟨closed, hgood, hfits⟩ := h
  obtain ⟨⟨arena, closed'⟩, walk', -, hgood', harena, -, -, -, hfits'⟩ :=
    Pass.Contract.run (K := hr.contract) (w := ⟨c.arena, closed⟩) (f := true) state hgood trivial
      hfits
  have hgood' : (⟨arena, closed'⟩ : Scopes).Good (r.run state c).chunk.arena := harena ▸ hgood'
  obtain rfl : (r.run state c).chunk.arena = arena := hgood'.arena
  exact ⟨closed', hgood', hfits'⟩

/-- **Such a chunk is scoped.** -/
theorem Chunk.Closes.scoped {c : Chunk} (h : c.Closes) : c.Scoped := by
  obtain ⟨closed, hgood, hfits⟩ := h
  have hclosed : ∀ v i, c.Occurs v i → v = false → i ∈ closed := by
    intro v i hi
    induction hi with
    | body hx =>
      rintro rfl
      obtain ⟨s, hs, hx⟩ := Block.mem_scoped.1 hx
      exact hfits s hs _ hx
    | child _ hx ih => exact fun hv => (hgood.shut _ (ih hv)).2 _ hx
    | literal _ hx _ =>
      rintro rfl
      exact (hgood.nodes _).body _ hx
  intro v i hi hvararg
  by_contra hv
  have hshut := (hgood.shut i (hclosed v i hi (Bool.eq_false_of_not_eq_true hv))).1
  rw [hvararg] at hshut
  cases hshut

end LuaSugar
