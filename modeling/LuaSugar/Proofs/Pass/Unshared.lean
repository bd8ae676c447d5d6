import Mathlib
import LuaSugar.Proofs.Parser.Sound
import LuaSugar.Proofs.Pass.Tour
/-!
# Unshared chunks

A chunk shares nothing where every id that is reached stands in one place
(`Chunk.Unshared`). Then what different nodes refer to is different
(`Unshared.refs_nodup`). Parsed chunks share nothing (`parse_unshared`).
-/

namespace LuaSugar

/-- The ids in the body of a function literal. -/
def Arena.bodyIds (a : Arena) (i : ExprId) : List ExprId := Block.ids ((a.body? i).getD [])

theorem Arena.refs_get (a : Arena) (i : ExprId) :
    (a.get i).refs = (a.get i).children ++ a.bodyIds i := by
  unfold Expr.refs Arena.bodyIds Arena.body?
  split <;> rename_i h <;> simp [h]

namespace Chunk

variable (c : Chunk)

/-- No node is shared: every id that is reached stands in one place, of the
body or of one node. -/
structure Unshared : Prop where
  body : (Block.ids c.body).Nodup
  node : ∀ i, c.Reaches i → (c.arena.get i).refs.Nodup
  apart : ∀ i j, c.Reaches i → c.arena.Refers i j → j ∉ Block.ids c.body
  parent : ∀ i i' j, c.Reaches i → c.Reaches i' → c.arena.Refers i j → c.arena.Refers i' j → i = i'

end Chunk

/-! ## What is reached -/

namespace Chunk

variable {c : Chunk}

/-- What the statements of a list hold is reached. -/
theorem HasList.reaches {l : Block} (hl : c.HasList l) : ∀ x ∈ Block.ids l, c.Reaches x := by
  induction hl with
  | body => exact fun x hx => ⟨x, hx, .refl⟩
  | nested _ hs hb ih =>
    exact fun x hx => ih x (Block.mem_ids_iff.2 ⟨_, hs, StmtKind.mem_ids.2 (.inr ⟨_, hb, hx⟩)⟩)
  | @literal l s x y b _ hs hx hy hbody ih =>
    intro z hz
    obtain ⟨w, hw, hwx⟩ := ih x (Block.mem_ids_iff.2 ⟨s, hs, StmtKind.mem_ids.2 (.inl hx)⟩)
    refine ⟨w, hw, (hwx.trans (Arena.reaches_of_mem_descendants hy)).tail ?_⟩
    rw [Arena.Refers, Arena.refs_get, Arena.bodyIds, hbody]
    exact List.mem_append_right _ hz

/-- What is below a root is reached. -/
theorem HasList.reaches_below {l : Block} {s : Stmt} {x y : ExprId} (hl : c.HasList l) (hs : s ∈ l)
    (hx : x ∈ s.kind.roots) (hy : y ∈ c.arena.descendants x) : c.Reaches y := by
  obtain ⟨w, hw, hwx⟩ := hl.reaches x (Block.mem_ids_iff.2 ⟨s, hs, StmtKind.mem_ids.2 (.inl hx)⟩)
  exact ⟨w, hw, hwx.trans (Arena.reaches_of_mem_descendants hy)⟩

end Chunk

/-! ## Nothing is shared -/

namespace Chunk.Unshared

variable {c : Chunk} (h : c.Unshared)
include h

/-- Of what different nodes refer to nothing is there twice, nor in the
body. -/
theorem refs_nodup {l : List ExprId} (hl : l.Nodup) (hreach : ∀ i ∈ l, c.Reaches i) :
    (Block.ids c.body ++ l.flatMap fun i => (c.arena.get i).refs).Nodup := by
  refine List.nodup_append'.2 ⟨h.body, List.nodup_flatMap.2 ⟨fun i hi => h.node i (hreach i hi), ?_⟩,
    fun j hj hmem => ?_⟩
  · refine hl.imp_of_mem fun {i i'} hi hi' hne => ?_
    exact fun j hj hj' => hne (h.parent i i' j (hreach i hi) (hreach i' hi') hj hj')
  · obtain ⟨i, hi, hij⟩ := List.mem_flatMap.1 hmem
    exact h.apart i j (hreach i hi) hij hj

end Chunk.Unshared

/-- Nothing is shared where the body and all nodes hold every id once. -/
theorem Chunk.unshared_of_nodup {c : Chunk} (h : (Block.ids c.body ++ c.arena.references).Nodup) :
    c.Unshared := by
  rw [Arena.references, c.arena.nodes_eq, List.flatMap_map] at h
  obtain ⟨hbody, hnodes, hapart⟩ := List.nodup_append'.1 h
  obtain ⟨hnode, hparent⟩ := List.nodup_flatMap.1 hnodes
  have hmem {i j : ExprId} (hij : c.arena.Refers i j) : i.index ∈ List.range c.arena.size :=
    List.mem_range.2 (Arena.inside_of_refers hij)
  refine ⟨hbody, fun i _ => ?_, fun i j _ hij hj => ?_, fun i i' j _ _ hij hij' => ?_⟩
  · by_cases hi : ∃ j, c.arena.Refers i j
    · obtain ⟨j, hij⟩ := hi
      exact hnode i.index (hmem hij)
    · rw [List.eq_nil_iff_forall_not_mem.2 fun j hij => hi ⟨j, hij⟩]
      exact List.nodup_nil
  · exact hapart hj (List.mem_flatMap.2 ⟨i.index, hmem hij, hij⟩)
  · by_contra hne
    have : Std.Symm (Function.onFun List.Disjoint fun n => (c.arena.get ⟨n⟩).refs) :=
      ⟨fun _ _ hdisjoint => hdisjoint.symm⟩
    exact hparent.forall (hmem hij) (hmem hij') (fun heq => hne (congrArg ExprId.mk heq)) hij hij'

/-! ## Parsed chunks -/

variable {tokens : List Token} {c : Chunk}

/-- **A parsed chunk shares nothing**: there every id has one place. -/
theorem parse_unshared (h : parse tokens = .ok c) : c.Unshared := by
  have hperm := (parse_owned h).once
  rw [add_comm, Multiset.coe_add, Multiset.coe_eq_coe] at hperm
  exact Chunk.unshared_of_nodup
    (hperm.nodup_iff.2 (List.nodup_range.map fun _ _ hij => congrArg ExprId.index hij))

end LuaSugar
