import Mathlib
import LuaSugar.Proofs.Desugar.Sequence
/-!
# Well-formed chunks

A chunk is well-formed if the ids that its body leads to are inside its
arena and none of them leads back to itself. Nothing is said of their order
or of nodes that the body does not lead to, so chunks that passes have left
such nodes in are well-formed as well.

How many ids an id leads to falls along every reference (`exists_height`).
That is what an induction along chains of ids is by: what holds of an id
at one depth if it holds of all that the id refers to at the depth below,
holds at every depth beyond the arena's size (`induction_depth`).
-/

namespace LuaSugar

/-- The ids of a chunk are inside its arena, and following them comes to an
end. -/
structure Chunk.WellFormed (c : Chunk) : Prop where
  inside : ∀ i, c.Reaches i → i.index < c.arena.size
  acyclic : ∀ i, c.Reaches i → ¬ Relation.TransGen c.arena.Refers i i

namespace Chunk

variable {c : Chunk}

theorem reaches_of_mem_body {x : ExprId} (h : x ∈ Block.ids c.body) : c.Reaches x := ⟨x, h, .refl⟩

theorem Reaches.refers {i j : ExprId} (h : c.Reaches i) (hij : c.arena.Refers i j) : c.Reaches j := by
  obtain ⟨x, hx, hxi⟩ := h
  exact ⟨x, hx, hxi.tail hij⟩

/-- References to earlier nodes come to an end. -/
theorem WellFormed.of_lower (hbody : ∀ x ∈ Block.ids c.body, x.index < c.arena.size)
    (hlower : ∀ k < c.arena.size, ∀ j ∈ (c.arena.get ⟨k⟩).refs, j.index < k) : c.WellFormed := by
  have hfalls {i j : ExprId} (h : Relation.TransGen c.arena.Refers i j) : j.index < i.index := by
    induction h with
    | single hij => exact hlower _ (Arena.inside_of_refers hij) _ hij
    | tail _ hjk ih => exact (hlower _ (Arena.inside_of_refers hjk) _ hjk).trans ih
  refine ⟨?_, fun i _ hi => lt_irrefl _ (hfalls hi)⟩
  rintro i ⟨x, hx, hxi⟩
  rcases Relation.reflTransGen_iff_eq_or_transGen.1 hxi with rfl | hxi
  · exact hbody i hx
  · exact (hfalls hxi).trans (hbody x hx)

namespace WellFormed

/-- **Heights fall along references**, and none exceeds the arena's size. -/
theorem exists_height (h : c.WellFormed) : ∃ height : ExprId → ℕ,
    (∀ i, height i ≤ c.arena.size) ∧
      ∀ i j, c.Reaches i → c.arena.Refers i j → height j < height i := by
  classical
  let below (i : ExprId) : Finset ℕ :=
    (Finset.range c.arena.size).filter fun k => Relation.TransGen c.arena.Refers i ⟨k⟩
  refine ⟨fun i => (below i).card, fun i => ?_, fun i j hi hij => ?_⟩
  · exact (Finset.card_filter_le _ _).trans (Finset.card_range _).le
  · -- all that `j` leads to, `i` leads to as well, and to `j` besides
    refine Finset.card_lt_card ⟨fun k hk => ?_, fun hsub => ?_⟩
    · obtain ⟨hk, hjk⟩ := Finset.mem_filter.1 hk
      exact Finset.mem_filter.2 ⟨hk, .head hij hjk⟩
    · have hj : j.index ∈ below i :=
        Finset.mem_filter.2 ⟨Finset.mem_range.2 (h.inside j (hi.refers hij)), .single hij⟩
      exact h.acyclic j (hi.refers hij) (Finset.mem_filter.1 (hsub hj)).2

/-- **Induction along chains of ids.** -/
theorem induction_depth {P : ℕ → ExprId → Prop} (h : c.WellFormed)
    (step : ∀ n i, c.Reaches i → (∀ j, c.arena.Refers i j → P n j) → P (n + 1) i) {n : ℕ}
    (hn : c.arena.size < n) {i : ExprId} (hi : c.Reaches i) : P n i := by
  obtain ⟨height, hle, hfalls⟩ := h.exists_height
  have hdepth : ∀ n i, c.Reaches i → height i < n → P n i := by
    intro n
    induction n with
    | zero =>
      intro i _ hlt
      omega
    | succ n ih =>
      intro i hi hlt
      refine step n i hi fun j hij => ?_
      have hj := hfalls i j hi hij
      exact ih j (hi.refers hij) (by omega)
  have hi' := hle i
  exact hdepth n i hi (by omega)

/-- **No depth makes a difference** beyond the arena's size, if what is read
of an id at one depth is read off what it refers to at the depth below. -/
theorem depth_eq {α : Type} {F : ℕ → ExprId → α} (h : c.WellFormed)
    (step : ∀ n m i, (∀ j, c.arena.Refers i j → F n j = F m j) → F (n + 1) i = F (m + 1) i)
    {n m : ℕ} (hn : c.arena.size < n) (hm : c.arena.size < m) {i : ExprId} (hi : c.Reaches i) :
    F n i = F m i := by
  have hmore (more : ℕ) {n : ℕ} (hn : c.arena.size < n) : F (n + more) i = F n i :=
    h.induction_depth (P := fun n i => F (n + more) i = F n i)
      (fun n i _ ih => by
        rw [Nat.add_right_comm]
        exact step (n + more) n i ih) hn hi
  rcases Nat.le_total n m with hle | hle
  · obtain ⟨more, rfl⟩ := Nat.exists_eq_add_of_le hle
    exact (hmore more hn).symm
  · obtain ⟨more, rfl⟩ := Nat.exists_eq_add_of_le hle
    exact hmore more hm

end WellFormed

end Chunk

end LuaSugar
