import Mathlib
import LuaSugar.Proofs.Syntax.Bare
import LuaSugar.Proofs.Syntax.Growth
import LuaSugar.Proofs.Syntax.Renamed
/-!
# Arenas behind others

An arena can be moved behind another, with its ids shifted past those that
are there (`Arena.behind`). Grafting a chunk does that, and so does every
computation that only builds nodes: in an arena that was moved it builds
what it would build where it was, moved (`Build.mirrors_behind`).

What a list of statements was before it was moved is a chunk that the arena
`Carries`; it compares as that chunk does, also after the arena has grown.
-/

namespace LuaSugar

namespace Arena

variable {a b c : Arena} {i : ExprId}

/-- An arena with another behind it. -/
def behind (a b : Arena) : Arena := ⟨a.nodes ++ b.nodes.map (Expr.mapIds (shift a.size))⟩

/-- Grafting adds as many nodes as there are. -/
@[simp] theorem size_behind (a b : Arena) : (a.behind b).size = a.size + b.size := by
  simp [behind, size]

theorem behind_empty (a : Arena) : a.behind .empty = a := by
  simp [behind, empty]

/-- Nodes of the host stay. -/
theorem get_behind_of_lt (b : Arena) (hi : i.index < a.size) : (a.behind b).get i = a.get i := by
  simp only [get, behind, Array.getD_eq_getD_getElem?]
  rw [Array.getElem?_append_left hi]

/-- **A grafted node** is the one that it was, with its ids shifted. -/
theorem get_behind_shift (a : Arena) (hi : i.index < b.size) :
    (a.behind b).get (shift a.size i) = (b.get i).mapIds (shift a.size) := by
  have hi' : i.index < b.nodes.size := hi
  have hle : a.nodes.size ≤ i.index + a.size := Nat.le_add_left _ _
  simp only [get, behind, shift, Array.getD_eq_getD_getElem?]
  rw [Array.getElem?_append_right hle]
  simp [size, hi']

theorem extends_behind (a b : Arena) : a.Extends (a.behind b) :=
  ⟨by rw [size_behind]; omega, fun _ hi => get_behind_of_lt b hi⟩

/-! ## Carried chunks -/

/-- Statements of an arena are those of a chunk, under other ids. -/
structure Carries (a : Arena) (body : Block) (c : Chunk) : Prop where
  size_le : c.arena.size ≤ a.size
  renamed : ∃ f, body = Block.mapIds f c.body ∧ c.arena.Renames f a ∧
    ∀ i : ExprId, i.index < c.arena.size → (f i).index < a.size

/-- A chunk is carried by an arena that it was grafted behind, -/
theorem carries_behind (a : Arena) (c : Chunk) :
    (a.behind c.arena).Carries (Block.mapIds (shift a.size) c.body) c := by
  refine ⟨by rw [size_behind]; omega, shift a.size, rfl, fun i hi => get_behind_shift a hi, ?_⟩
  intro i hi
  rw [size_behind]
  show i.index + a.size < _
  omega

/-- and by every larger one. -/
theorem Carries.mono {body : Block} {c : Chunk} (h : a.Carries body c) (hab : a.Extends b) :
    b.Carries body c := by
  obtain ⟨hsize, f, hbody, hf, hinside⟩ := h
  refine ⟨hsize.trans hab.size_le, f, hbody, fun i hi => ?_, fun i hi =>
    (hinside i hi).trans_le hab.size_le⟩
  rw [hab.get_eq _ (hinside i hi), hf i hi]

/-- **What an arena carries compares as it did.** -/
theorem Carries.same_eq {body : Block} {c : Chunk} {ρ : ExprId → ℚ} (h : a.Carries body c)
    (hr : c.arena.Ranked ρ) (hids : ∀ x ∈ Block.ids c.body, x.index < c.arena.size) (d : Chunk) :
    Chunk.same ⟨a, body⟩ d = c.same d := by
  obtain ⟨hsize, f, rfl, hf, -⟩ := h
  exact hf.same_eq hr hids hsize d

end Arena

/-! ## Building behind another arena -/

namespace Build

variable {a : Arena}

/-- **What builds a node builds it behind an arena** as well. -/
theorem mirrors_behind (a : Arena) (e : Expr) :
    Mirrors a.behind (Arena.shift a.size) (alloc e) (alloc (e.mapIds (Arena.shift a.size))) := by
  intro b
  refine Prod.ext (congrArg ExprId.mk ?_) (congrArg Arena.mk ?_)
  · rw [← Arena.size, Arena.size_behind, Nat.add_comm]
    rfl
  · show (a.nodes ++ b.nodes.map _).push _ = a.nodes ++ (b.nodes.push e).map _
    rw [Array.map_push, Array.append_push]

/-- A statement that was built is one that was built in the empty arena,
moved. -/
theorem carries_of_mirrors {m : Build Stmt}
    (h : Mirrors a.behind (Stmt.mapIds (Arena.shift a.size)) m m) :
    (m a).2.Carries [(m a).1] ⟨(m .empty).2, [(m .empty).1]⟩ ∧ a.Extends (m a).2 := by
  have hrun := h .empty
  rw [Arena.behind_empty] at hrun
  rw [hrun]
  exact ⟨a.carries_behind ⟨(m .empty).2, [(m .empty).1]⟩, a.extends_behind _⟩

end Build

end LuaSugar
