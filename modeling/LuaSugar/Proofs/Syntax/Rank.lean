import Mathlib
import LuaSugar.Syntax.Arena
import LuaSugar.Proofs.Syntax.Nested
/-!
# Ranks of an arena

Passes point old slots at newer nodes, so the order of ids does not bound
how deep a chain of ids can be. What does is a **rank**: a rational for
each id that falls along every reference. Rationals are dense, so a pass
finds ranks for the nodes it adds without touching those of the others.

A ranked arena has no cycles, and a chain of ids is no longer than the
arena: the number of ids of lower rank falls along every reference as
well. So what reads an arena along chains of ids reads the same at every
depth beyond the arena's size, which is to say that the bound never shows.
-/

namespace LuaSugar

namespace Arena

variable {a : Arena} {ρ : ExprId → ℚ} {i j : ExprId}

/-- A node has a child, or an id in its function body. -/
def Refers (a : Arena) (i j : ExprId) : Prop := j ∈ (a.get i).refs

/-- What an id leads to along references, itself included. -/
def Reaches (a : Arena) : ExprId → ExprId → Prop := Relation.ReflTransGen a.Refers

/-- Ids stay inside the arena, and ranks fall along references. -/
structure Ranked (a : Arena) (ρ : ExprId → ℚ) : Prop where
  inside : ∀ i j, a.Refers i j → j.index < a.size
  lt : ∀ i j, a.Refers i j → ρ j < ρ i

/-- Outside the arena there is `nil`. -/
theorem get_of_size_le (h : a.size ≤ i.index) : a.get i = .atom .nil := by
  unfold Arena.get
  rw [Array.getD_eq_getD_getElem?, Array.getElem?_eq_none h]
  rfl

/-- The nodes of an arena are what it reads as. -/
theorem nodes_eq (a : Arena) : a.nodes.toList = (List.range a.size).map fun n => a.get ⟨n⟩ := by
  refine List.ext_getElem (by simp [size]) fun n h₁ h₂ => ?_
  have hn : n < a.nodes.size := by simpa using h₁
  simp [get, Array.getD_eq_getD_getElem?, hn]

/-- The nodes are what stands at ids inside. -/
theorem mem_nodes {e : Expr} : e ∈ a.nodes.toList ↔ ∃ i : ExprId, i.index < a.size ∧ a.get i = e := by
  rw [nodes_eq, List.mem_map]
  constructor
  · rintro ⟨n, hn, rfl⟩
    exact ⟨⟨n⟩, List.mem_range.1 hn, rfl⟩
  · rintro ⟨i, hi, rfl⟩
    exact ⟨i.index, List.mem_range.2 hi, rfl⟩

/-- Beyond the nodes of an arena there is `nil`. -/
theorem forall_get {P : Expr → Prop} (hnil : P (.atom .nil)) :
    (∀ i, P (a.get i)) ↔ ∀ e ∈ a.nodes.toList, P e := by
  constructor
  · intro h e he
    obtain ⟨i, -, rfl⟩ := mem_nodes.1 he
    exact h i
  · intro h i
    by_cases hi : i.index < a.size
    · exact h _ (mem_nodes.2 ⟨i, hi, rfl⟩)
    · rwa [get_of_size_le (Nat.le_of_not_lt hi)]

/-- What refers to something is inside. -/
theorem inside_of_refers (h : a.Refers i j) : i.index < a.size := by
  by_contra hi
  rw [Refers, get_of_size_le (Nat.le_of_not_lt hi)] at h
  simp [Expr.refs, Expr.children] at h

namespace Ranked

/-- Ranks fall along chains of references. -/
theorem lt_of_transGen (h : a.Ranked ρ) (hij : Relation.TransGen a.Refers i j) : ρ j < ρ i := by
  induction hij with
  | single hj => exact h.lt _ _ hj
  | tail _ hj ih => exact (h.lt _ _ hj).trans ih

/-- **A ranked arena has no cycles.** -/
theorem acyclic (h : a.Ranked ρ) (i : ExprId) : ¬ Relation.TransGen a.Refers i i :=
  fun hi => lt_irrefl _ (h.lt_of_transGen hi)

/-- What is reached from inside is inside. -/
theorem inside_of_reaches (h : a.Ranked ρ) (hi : i.index < a.size) (hij : a.Reaches i j) :
    j.index < a.size := by
  induction hij with
  | refl => exact hi
  | tail _ hj _ => exact h.inside _ _ hj

end Ranked

/-! ## Heights -/

/-- How many ids have a lower rank. -/
noncomputable def height (a : Arena) (ρ : ExprId → ℚ) (i : ExprId) : ℕ :=
  ((Finset.range a.size).filter fun k => ρ ⟨k⟩ < ρ i).card

/-- A height is no more than the number of nodes. -/
theorem height_le (a : Arena) (ρ : ExprId → ℚ) (i : ExprId) : a.height ρ i ≤ a.size := by
  have h := Finset.card_filter_le (Finset.range a.size) fun k => ρ ⟨k⟩ < ρ i
  rwa [Finset.card_range] at h

/-- A number for each id that falls along references. -/
def Graded (a : Arena) (h : ExprId → ℕ) : Prop := ∀ i j, a.Refers i j → h j < h i

/-- **Heights fall along references.** -/
theorem Ranked.graded (h : a.Ranked ρ) : a.Graded (a.height ρ) := by
  intro i j hij
  refine Finset.card_lt_card ⟨fun k hk => ?_, fun hsub => ?_⟩
  · rw [Finset.mem_filter] at hk ⊢
    exact ⟨hk.1, hk.2.trans (h.lt _ _ hij)⟩
  · have hj : j.index ∈ (Finset.range a.size).filter fun k => ρ ⟨k⟩ < ρ i :=
      Finset.mem_filter.2 ⟨Finset.mem_range.2 (h.inside _ _ hij), h.lt _ _ hij⟩
    exact lt_irrefl _ (Finset.mem_filter.1 (hsub hj)).2

/-! ## Descendants -/

/-- A node refers to its children. -/
theorem refers_of_mem_children (h : j ∈ (a.get i).children) : a.Refers i j := by
  unfold Refers Expr.refs
  exact List.mem_append_left _ h

variable {h : ExprId → ℕ} {n m : ℕ}

/-- **Descendants at every depth** beyond the height are the same. -/
theorem Graded.descendantsWithin_eq (hg : a.Graded h) :
    h i < n → h i < m → a.descendantsWithin n i = a.descendantsWithin m i := by
  induction n generalizing i m with
  | zero => intro hn; omega
  | succ n ih =>
    intro hn hm
    obtain ⟨m, rfl⟩ : ∃ k, m = k + 1 := ⟨m - 1, by omega⟩
    have hchildren : ∀ c ∈ (a.get i).children,
        a.descendantsWithin n c = a.descendantsWithin m c := by
      intro c hc
      have hlt := hg _ _ (refers_of_mem_children hc)
      exact ih (by omega) (by omega)
    rw [descendantsWithin, descendantsWithin]
    congr 1
    exact List.flatMap_congr hchildren

/-- **Depth beyond the arena's size finds no more.** -/
theorem Ranked.descendantsWithin_eq (hr : a.Ranked ρ) (hn : a.size < n) (i : ExprId) :
    a.descendantsWithin n i = a.descendants i := by
  have hle := height_le a ρ i
  exact hr.graded.descendantsWithin_eq (by omega) (by omega)

/-- The descendants of an id are those of its children, and itself. -/
theorem Ranked.descendants_eq (hr : a.Ranked ρ) (i : ExprId) :
    a.descendants i = (a.get i).children.flatMap a.descendants ++ [i] := by
  rw [← hr.descendantsWithin_eq (n := a.size + 2) (by omega), descendantsWithin]
  rfl

/-- What is found below an id is reached from it. -/
theorem reaches_of_mem_descendantsWithin : ∀ {n : ℕ} {i : ExprId},
    j ∈ a.descendantsWithin n i → a.Reaches i j
  | 0, _, hj => by simp [descendantsWithin] at hj
  | n + 1, i, hj => by
    rw [descendantsWithin, List.mem_append, List.mem_flatMap, List.mem_singleton] at hj
    obtain ⟨c, hc, hj⟩ | rfl := hj
    · exact .head (refers_of_mem_children hc) (reaches_of_mem_descendantsWithin hj)
    · exact .refl

/-- Descendants stay where children stay. -/
theorem mem_of_mem_descendants {S : Set ExprId}
    (h : ∀ i ∈ S, ∀ c ∈ (a.get i).children, c ∈ S) (hi : i ∈ S) (hj : j ∈ a.descendants i) :
    j ∈ S := by
  have hwithin : ∀ (n : ℕ) (i : ExprId), i ∈ S → ∀ j ∈ a.descendantsWithin n i, j ∈ S := by
    intro n
    induction n with
    | zero => simp [descendantsWithin]
    | succ n ih =>
      intro i hi j hj
      rw [descendantsWithin, List.mem_append, List.mem_flatMap, List.mem_singleton] at hj
      obtain ⟨c, hc, hj⟩ | rfl := hj
      · exact ih c (h i hi c hc) j hj
      · exact hi
  exact hwithin _ i hi j hj

/-- An id is among those that are below it. -/
theorem self_mem_descendants (a : Arena) (i : ExprId) : i ∈ a.descendants i := by
  rw [descendants, descendantsWithin]
  simp

/-- In a list, children stand before their parents. -/
def ChildrenFirst (a : Arena) (l : List ExprId) : Prop :=
  ∀ l₁ y l₂, l = l₁ ++ y :: l₂ → ∀ c ∈ (a.get y).children, c ∈ l₁

/-- Children come first in a list behind another, if they do in either or stand in the first. -/
theorem ChildrenFirst.append {l l' : List ExprId} (h : a.ChildrenFirst l)
    (h' : ∀ l₁ y l₂, l' = l₁ ++ y :: l₂ → ∀ c ∈ (a.get y).children, c ∈ l ++ l₁) :
    a.ChildrenFirst (l ++ l') := by
  intro l₁ y l₂ hl c hc
  rcases List.append_eq_append_iff.1 hl with ⟨m, rfl, hm⟩ | ⟨m, rfl, hm⟩
  · exact h' m y l₂ hm c hc
  · cases m with
    | nil => simpa using h' [] y l₂ hm.symm c hc
    | cons z m =>
      obtain ⟨rfl, -⟩ := List.cons.inj hm
      exact h l₁ y m rfl c hc

/-- So they do in lists one behind the other. -/
theorem ChildrenFirst.flatMap {f : ExprId → List ExprId} : ∀ {l : List ExprId},
    (∀ i ∈ l, a.ChildrenFirst (f i)) → a.ChildrenFirst (l.flatMap f)
  | [], _ => fun l₁ y l₂ hl => by simp at hl
  | i :: l, h => by
    rw [List.flatMap_cons]
    refine (h i List.mem_cons_self).append fun l₁ y l₂ hl c hc => ?_
    have hrest := ChildrenFirst.flatMap fun j hj => h j (List.mem_cons_of_mem i hj)
    exact List.mem_append_right _ (hrest l₁ y l₂ hl c hc)

/-- In any front of such a list are the children of all that is in it. -/
theorem ChildrenFirst.mem_of_prefix {l₁ l₂ : List ExprId} (h : a.ChildrenFirst (l₁ ++ l₂))
    (hi : i ∈ l₁) : ∀ c ∈ (a.get i).children, c ∈ l₁ := by
  intro c hc
  obtain ⟨m₁, m₂, rfl⟩ := List.append_of_mem hi
  exact List.mem_append_left _ (h m₁ i (m₂ ++ l₂) (by simp) c hc)

/-- **Descendants are listed from below.** -/
theorem Ranked.childrenFirst (hr : a.Ranked ρ) (i : ExprId) :
    a.ChildrenFirst (a.descendants i) := by
  induction hn : a.height ρ i using Nat.strong_induction_on generalizing i with
  | _ n ih =>
    rw [hr.descendants_eq]
    refine ChildrenFirst.append (ChildrenFirst.flatMap fun c hc => ?_) fun l₁ y l₂ hl c hc => ?_
    · exact ih _ (hn ▸ hr.graded _ _ (refers_of_mem_children hc)) c rfl
    · obtain ⟨rfl, rfl, -⟩ : l₁ = [] ∧ y = i ∧ l₂ = [] := by
        cases l₁ <;> simp_all
      rw [List.append_nil]
      exact List.mem_flatMap.2 ⟨c, hc, a.self_mem_descendants c⟩

/-- The children of what is below an id are below it. -/
theorem Ranked.mem_descendants_of_child (hr : a.Ranked ρ) (hj : j ∈ a.descendants i) :
    ∀ c ∈ (a.get j).children, c ∈ a.descendants i := by
  intro c hc
  obtain ⟨l₁, l₂, hl⟩ := List.append_of_mem hj
  rw [hl]
  exact List.mem_append_left _ (hr.childrenFirst i l₁ j l₂ hl c hc)

theorem reaches_of_mem_descendants (hj : j ∈ a.descendants i) : a.Reaches i j :=
  reaches_of_mem_descendantsWithin hj

end Arena

end LuaSugar
