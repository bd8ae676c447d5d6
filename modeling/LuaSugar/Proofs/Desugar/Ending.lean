import Mathlib
import LuaSugar.Proofs.Desugar.Expanded
import LuaSugar.Proofs.Desugar.Making
import LuaSugar.Proofs.Desugar.Sequence
import LuaSugar.Proofs.Pass.Ending
/-!
# The passes end

No pass over a parsed chunk is exhausted, whatever passes have been over it
before (`parse_passed_ends`): the depth that a run is given is enough.

All but one are level: they put plain nodes in place of others, and where an
assignment expression makes room for a literal, its own room goes. Only
intrinsics put statements ahead of the cursor, with the literals of
descriptors below them; but they turn every list by a rule, which bounds how
deep these go.
-/

namespace LuaSugar

open Pass

/-- There is no more room than that, where what has been seen is given. -/
abbrev Arena.RoomLe (seen : List ExprId) (n : ℕ) (_ : Unit) (a : Arena) : Prop := a.room seen ≤ n

variable {seen : List ExprId} {n : ℕ} {a : Arena}

/-- A plain node has no room, as it is no literal and turns into none. -/
theorem Expr.room_of_isPlain {e : Expr} (h : e.isPlain) (seen : Prop) [Decidable seen] :
    e.room seen = 0 := by
  unfold room
  split
  · cases h
  · cases h
  · rfl

/-- **Plain nodes** take no room. -/
theorem makes_room (seen : List ExprId) (n : ℕ) : Makes (Arena.RoomLe seen n) fun _ _ => True where
  mono _ _ := trivial
  node {_ a e} h hplain _ := by
    have hle := Arena.room_alloc_le a seen e
    rw [Expr.room_of_isPlain hplain, Nat.add_zero] at hle
    exact ⟨(), le_rfl, hle.trans h, trivial⟩

/-- Nor does one in place of another. -/
theorem Arena.room_set_le (h : a.room seen ≤ n) (i : ExprId) {e : Expr} (hplain : e.isPlain) :
    (a.set i e).room seen ≤ n := by
  by_cases hi : i.index < a.size
  · have hset := room_set_add hi e seen
    rw [Expr.room_of_isPlain hplain] at hset
    omega
  · have hsame : a.set i e = a := by
      refine ext_get (size_set a i e) fun j => ?_
      obtain hget | ⟨rfl, -⟩ := get_set_cases a i j e
      · exact hget
      · rw [get_of_size_le (Nat.le_of_not_lt hi), get_of_size_le (by simpa using hi)]
    rwa [hsame]

/-! ## The level passes -/

/-- The call of a literal in place of an assignment expression takes as much
room as that had. -/
theorem AssignmentExpr.hoist_room {space : Workspace Unit} (h : space.arena.room seen ≤ n)
    (line : ℕ) (i : ExprId) :
    Edits (Arena.RoomLe seen n) (hoist line i) (fun _ _ => True) () space := by
  refine .arena ?_
  split
  · rename_i op target value hget
    let closure : FuncBody := ⟨[], false, [statement op target value line, .ret [target] line]⟩
    let left : Arena := (space.arena.alloc (.atom (.func closure))).2
    have hi : i.index < space.arena.size := Arena.inside_of_get_ne i (by simp [hget])
    have hbuilt : left.room seen ≤ space.arena.room seen + 1 := by
      refine (Arena.room_alloc_le _ seen _).trans (Nat.add_le_add_left (Block.height_le ?_) _)
      cases op <;>
        simp [Block.NestsWithin, closure, statement, Stmt.assign, Stmt.ret, StmtKind.blocks]
    have hset := Arena.room_set_add (hi.trans (Arena.size_lt_alloc _ (.atom (.func closure))))
      (.call ⟨space.arena.size⟩ []) seen
    rw [Arena.get_alloc_of_lt _ hi, hget] at hset
    have hleft : (left.set i (.call ⟨space.arena.size⟩ [])).room seen + 1 = left.room seen := hset
    refine ⟨(), le_rfl, ?_, fun _ _ => trivial⟩
    show (left.set i (.call ⟨space.arena.size⟩ [])).room seen ≤ n
    omega
  · exact .pure h trivial

/-- What assignment expressions make room for was their own. -/
theorem AssignmentExpr.level : Level AssignmentExpr.pass fun _ => True :=
  level_ofExpression fun _ owner _ h =>
    .arena (.forM h fun _ i _ _ _ h => hoist_room h owner.line i)

/-- Compound assignments give way to plain nodes. -/
theorem CompoundAssignment.level : Level CompoundAssignment.pass fun _ => True := by
  refine level_ofStatement fun {n seen} c _ h => ?_
  split
  · exact (Edits.build ((makes_room seen n).binary h _ trivial trivial)).bind
      fun _ _ _ _ h _ => .pure h rfl
  · exact .pure h rfl

/-- So do imports. -/
theorem Import.level : Level Import.pass fun _ => True := by
  refine level_ofStatement fun {n seen} c _ h => ?_
  have hm := makes_room seen n
  dsimp only
  split
  · refine (Edits.build ((hm.name h "require").bind fun _ target _ _ h _ =>
      hm.call h trivial fun _ _ => trivial)).bind fun _ module _ _ h _ => ?_
    split
    · exact .pure h rfl
    · refine (Edits.state h).bind fun _ count _ _ h _ => ?_
      refine (Edits.setState h).bind fun _ _ _ _ h _ => ?_
      refine (Edits.build (Builds.mapM (Q := fun _ _ => True) (fun _ h => h) h
        fun _ name _ _ _ h => hm.readMember h (holder count) name)).bind fun _ _ _ _ h _ => ?_
      exact .pure h rfl
  · exact .pure h rfl

/-- Lowering an element takes no room at any depth. -/
theorem Element.lower_room (constructor : String) : ∀ (depth : ℕ) (i : ExprId) {a : Arena},
    a.room seen ≤ n → Builds (Arena.RoomLe seen n) (lower constructor depth i) (fun _ _ => True) () a
  | 0, _, _, h => .pure h trivial
  | depth + 1, i, a, h => by
    rw [lower_succ]
    refine .get ?_
    split
    · refine (Builds.modify (le_refl ()) (Arena.room_set_le h i rfl)).bind
        fun _ _ a₁ _ h₁ _ => ?_
      refine ((makes_room seen n).element h₁ (fun _ _ => trivial) fun _ h₂ _ => ?_).bind
        fun _ node a₂ _ h₂ hnode => .modify (le_refl ()) (Arena.room_set_le h₂ i hnode.1)
      exact .get (.forM h₂ fun _ z _ _ _ h => lower_room constructor depth z h)
    · exact .pure h trivial

/-- So do elements, with all that they hold. -/
theorem Element.level (constructor : String) : Level (Element.pass constructor) fun _ => True :=
  level_ofExpression fun _ _ _ h =>
    .arena (.build (.forM h fun _ i _ _ _ h => lower_room constructor _ i h))

theorem Project.naming_level (name : String) : Level (naming name) fun _ => True := by
  refine level_ofExpression fun _ _ _ h => .arena (.forM h fun _ i _ _ _ h => .arena ?_)
  split
  · exact .replace (le_refl ()) (Arena.room_set_le h i rfl)
  · exact .pure h trivial

/-! ## Every pass -/

/-- Whether a pass over a chunk is exhausted. -/
def ChunkPass.exhausted : ChunkPass → Chunk → Bool
  | assignments, c => (AssignmentExpr.pass.run () c).exhausted
  | compound, c => (CompoundAssignment.pass.run () c).exhausted
  | imports, c => (Import.pass.run 0 c).exhausted
  | intrinsics, c => (Intrinsic.pass.run () c).exhausted
  | elements constructor, c => ((Element.pass constructor).run () c).exhausted
  | naming name, c => ((Project.naming name).run () c).exhausted

/-- **No pass over a sound chunk is exhausted.** -/
theorem Chunk.Sound.ends {V : Vocabulary} {R : Prop} {c : Chunk} (h : c.Sound V R)
    (pass : ChunkPass) : pass.exhausted c = false := by
  cases pass with
  | assignments => exact AssignmentExpr.level.run () c
  | compound => exact CompoundAssignment.level.run () c
  | imports => exact Import.level.run 0 c
  | intrinsics =>
    obtain ⟨rank, hsound⟩ := h.arena
    exact Intrinsic.ruled.ends hsound.ranked h.inside ()
  | elements constructor => exact (Element.level constructor).run () c
  | naming name => exact (Project.naming_level name).run () c

/-- **No pass over a parsed chunk is exhausted**, whatever passes have been
over it before. -/
theorem parse_passed_ends {tokens : List Token} {c : Chunk} (h : parse tokens = .ok c)
    (passes : List ChunkPass) (pass : ChunkPass) : pass.exhausted (c.passed passes) = false :=
  ((parse_chunk_sound h).passed passes).ends pass

end LuaSugar
