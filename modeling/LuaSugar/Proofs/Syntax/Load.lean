import Mathlib
import LuaSugar.Proofs.Syntax.Rank
/-!
# How much a walk has before it

A walk goes down into lists: those nested in a statement, and the bodies of
the literals below its roots. How deep that may go is bounded by the
**load** of an id, the number of statements in the literals of no higher
rank, which falls along references by what the literal left behind holds.
-/

namespace LuaSugar

/-! ## Sizes -/

/-- How many statements the body of a literal holds. -/
def Expr.bodySize : Expr → ℕ
  | .atom (.func func) => func.size
  | _ => 0

theorem Block.size_le_of_mem {t : Stmt} : ∀ {block : Block}, t ∈ block → t.size ≤ Block.size block
  | s :: rest, h => by
    rw [Block.size]
    rcases List.mem_cons.1 h with rfl | h
    · omega
    · have := Block.size_le_of_mem h
      omega

theorem FuncBody.size_eq (func : FuncBody) : func.size = Block.size func.body := by
  cases func
  rfl

mutual

theorem IfArm.size_le : ∀ (arm : IfArm) {b : Block}, b ∈ arm.bodies → Block.size b ≤ arm.size
  | ⟨_, body, _, otherwise⟩, b, h => by
    rw [IfArm.size]
    rcases List.mem_cons.1 h with rfl | h
    · omega
    · have := otherwise.size_le h
      omega

theorem ElseArm.size_le : ∀ (arm : ElseArm) {b : Block}, b ∈ arm.bodies → Block.size b ≤ arm.size
  | .absent, b, h => by simp [ElseArm.bodies] at h
  | .elseIf arm, b, h => by
    rw [ElseArm.size]
    exact arm.size_le h
  | .elseBlock body _, b, h => by
    obtain rfl := List.mem_singleton.1 h
    exact le_rfl

end

/-- A list nested in a statement holds fewer statements than that. -/
theorem StmtKind.size_le {kind : StmtKind} {b : Block} (h : b ∈ kind.blocks) :
    Block.size b ≤ kind.size := by
  cases kind with
  | ifChain arm => exact arm.size_le h
  | localFunction name func =>
    obtain rfl := List.mem_singleton.1 h
    exact func.size_eq.ge
  | function path func =>
    obtain rfl := List.mem_singleton.1 h
    exact func.size_eq.ge
  | doBlock | whileLoop | repeatLoop | forNumeric | forGeneric =>
    obtain rfl := List.mem_singleton.1 h
    exact le_rfl
  | _ => simp [StmtKind.blocks] at h

/-- **Induction on lists**, from the lists nested in their statements. -/
theorem Block.induction {P : Block → Prop}
    (step : ∀ block, (∀ s ∈ block, ∀ b ∈ s.kind.blocks, P b) → P block) (block : Block) :
    P block := by
  induction hn : Block.size block using Nat.strong_induction_on generalizing block with
  | _ n ih =>
    refine step block fun s hs b hb => ih _ ?_ b rfl
    have hle := StmtKind.size_le hb
    have hmem := Block.size_le_of_mem hs
    cases s
    rw [Stmt.size] at hmem
    dsimp only at hle
    omega

/-- A chunk holds the statements of its body and those of its literals. -/
theorem Chunk.statementCount_eq (c : Chunk) : c.statementCount =
    Block.size c.body + ∑ n ∈ Finset.range c.arena.size, (c.arena.get ⟨n⟩).bodySize := by
  have hfold : c.statementCount =
      Block.size c.body + c.arena.nodes.foldl (fun n e => n + e.bodySize) 0 := by
    unfold Chunk.statementCount
    congr 2
    funext n e
    cases e with
    | atom x => cases x <;> rfl
    | arith x => rfl
  rw [hfold, ← Array.foldl_toList, ← List.foldl_map, ← List.sum_eq_foldl, c.arena.nodes_eq,
    List.map_map]
  rfl

/-- **What holds d lists deep**: by induction on statements that go no deeper
than `d`, of which `m` are for the literals below. -/
theorem Stmt.deep_induction {μ : ExprId → ℕ} {m : ℕ} {P : ℕ → Stmt → Prop}
    (step : ∀ d s, (∀ x ∈ s.kind.roots, μ x ≤ d) → (∀ b ∈ s.kind.blocks, ∀ t ∈ b, P d t) →
      P (d + 1) s) : ∀ {d : ℕ} {s : Stmt}, m + s.size ≤ d → (∀ x ∈ s.kind.ids, μ x ≤ m) → P d s
  | 0, ⟨kind, line⟩, hd, _ => by
    rw [Stmt.size] at hd
    omega
  | d + 1, ⟨kind, line⟩, hd, hids => by
    rw [Stmt.size] at hd
    refine step d _ (fun x hx => ?_) fun b hb t ht =>
      Stmt.deep_induction step ?_ fun x hx => hids x ?_
    · have := hids x (StmtKind.mem_ids.2 (.inl hx))
      omega
    · have h₁ := Block.size_le_of_mem ht
      have h₂ : Block.size b ≤ kind.size := StmtKind.size_le hb
      omega
    · exact StmtKind.mem_ids.2 (.inr ⟨b, hb, Block.mem_ids_iff.2 ⟨t, ht, hx⟩⟩)

/-! ## Loads -/

namespace Arena

variable {a : Arena} {ρ : ExprId → ℚ} {i j : ExprId}

/-- How many statements are in literals of no higher rank. -/
noncomputable def load (a : Arena) (ρ : ExprId → ℚ) (i : ExprId) : ℕ :=
  ∑ n ∈ (Finset.range a.size).filter fun n => ρ ⟨n⟩ ≤ ρ i, (a.get ⟨n⟩).bodySize

theorem load_le (a : Arena) (ρ : ExprId → ℚ) (i : ExprId) :
    a.load ρ i ≤ ∑ n ∈ Finset.range a.size, (a.get ⟨n⟩).bodySize :=
  Finset.sum_le_sum_of_subset (Finset.filter_subset _ _)

theorem bodySize_le_load (ρ : ExprId → ℚ) (hi : i.index < a.size) :
    (a.get i).bodySize ≤ a.load ρ i :=
  Finset.single_le_sum (f := fun n => (a.get ⟨n⟩).bodySize) (fun _ _ => Nat.zero_le _)
    (Finset.mem_filter.2 ⟨Finset.mem_range.2 hi, le_rfl⟩)

/-- **The load falls** along references, by the body that is left. -/
theorem Ranked.load_add_le (hr : a.Ranked ρ) (hij : a.Refers i j) :
    a.load ρ j + (a.get i).bodySize ≤ a.load ρ i := by
  have hlt := hr.lt i j hij
  have hnot : i.index ∉ (Finset.range a.size).filter fun n => ρ ⟨n⟩ ≤ ρ j := by
    intro h
    exact absurd (Finset.mem_filter.1 h).2 (not_le.2 hlt)
  rw [load, load, Nat.add_comm, ← Finset.sum_insert (f := fun n => (a.get ⟨n⟩).bodySize) hnot]
  refine Finset.sum_le_sum_of_subset fun n hn => ?_
  rcases Finset.mem_insert.1 hn with rfl | hn
  · exact Finset.mem_filter.2 ⟨Finset.mem_range.2 (inside_of_refers hij), le_rfl⟩
  · obtain ⟨hrange, hle⟩ := Finset.mem_filter.1 hn
    exact Finset.mem_filter.2 ⟨hrange, hle.trans hlt.le⟩

end Arena

end LuaSugar
