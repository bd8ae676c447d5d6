import Mathlib
import LuaSugar.Proofs.Syntax.Growth
import LuaSugar.Proofs.Syntax.Renamed
/-!
# Agreement with a growing arena

While a parser runs its arena grows, and what it has read so far is to be
the same as some of a given arena. So agreement is told of a whole
**comparison**: it holds between the given arena and whatever the other
grows into, at every depth that the given ids need. What one node agrees
with is then put together from what the ids it refers to agree with.
-/

namespace LuaSugar

namespace Comparison

variable {e : Comparison}

/-- No statement is the same as an ignored one. -/
theorem not_isIgnored_of_stmtKind {kind : StmtKind} {s : Stmt} (h : e.stmtKind kind s.kind) :
    s.isIgnored = false := by
  by_contra hs
  rw [Bool.not_eq_false, Stmt.isIgnored] at hs
  split at hs
  · rename_i hkind
    rw [hkind] at h
    cases kind <;> simp [stmtKind] at h
  · cases hs

/-- **Lists are the same** if their statements are, ignored ones aside. -/
theorem block_of_forall₂ {body : List Stmt} : ∀ {body' : List Stmt},
    List.Forall₂ (fun s s' : Stmt => e.stmtKind s.kind s'.kind)
      (body.filter fun s => !s.isIgnored) body' → e.block body body' := by
  induction body with
  | nil =>
    rintro _ ⟨⟩
    simp [block]
  | cons s rest ih =>
    intro body' h
    obtain ⟨kind, line⟩ := s
    by_cases hignored : Stmt.isIgnored ⟨kind, line⟩
    · rw [List.filter_cons_of_neg (by simp [hignored])] at h
      rw [block, if_pos hignored]
      exact ih h
    · rw [List.filter_cons_of_pos (by simp [hignored])] at h
      obtain ⟨s', rest', hs, hrest, rfl⟩ := List.forall₂_cons_left_iff.1 h
      have hs' := not_isIgnored_of_stmtKind hs
      rw [block, if_neg hignored, List.dropWhile_cons_of_neg (by simp [hs'])]
      exact Bool.and_eq_true_iff.2 ⟨hs, ih hrest⟩

/-- What is the same as a call is one. -/
theorem isCall_of_expr {x y : Expr} (h : e.expr x y) (hx : x.isCall) : y.isCall := by
  rcases x with x | x
  · cases hx
  · cases x with
    | call target method args =>
      rcases y with y | y
      · cases h
      · cases y <;> first | rfl | cases h
    | _ => cases hx

theorem isAssignable_of_expr {x y : Expr} (h : e.expr x y) (hx : x.isAssignable) :
    y.isAssignable := by
  rcases x with x | x
  · cases x with
    | name text =>
      rcases y with y | y <;> cases y <;> first | rfl | cases h
    | _ => cases hx
  · cases x with
    | member object name | subscript object key =>
      rcases y with y | y <;> cases y <;> first | rfl | cases h
    | _ => cases hx

end Comparison

namespace Arena

variable {a b b' : Arena} {h : ExprId → ℕ} {ids ids' : List ExprId} {φ ψ : Comparison → Prop}

/-- What holds of comparing with an arena and with all it grows into, at
every depth beyond that of some ids. -/
def Compares (a : Arena) (h : ExprId → ℕ) (ids : List ExprId) (φ : Comparison → Prop) (b : Arena) :
    Prop :=
  ∀ b', b.Extends b' → ∀ n, (∀ x ∈ ids, h x < n) → φ (a.sameWithin b' n)

/-- An id is the same as one of a growing arena. -/
def Same (a : Arena) (h : ExprId → ℕ) (b : Arena) (i j : ExprId) : Prop :=
  a.Compares h [i] (fun e => e i j) b

/-- A statement is the same as one over a growing arena. -/
def SameKind (a : Arena) (h : ExprId → ℕ) (b : Arena) (kind kind' : StmtKind) : Prop :=
  a.Compares h kind.ids (fun e => e.stmtKind kind kind') b

def SameBlock (a : Arena) (h : ExprId → ℕ) (b : Arena) (body body' : Block) : Prop :=
  a.Compares h (Block.ids body) (fun e => e.block body body') b

namespace Compares

theorem grow (hc : a.Compares h ids φ b) (hb : b.Extends b') : a.Compares h ids φ b' :=
  fun b'' hb'' => hc b'' (hb.trans hb'')

theorem mono (hc : a.Compares h ids φ b) (hs : ids ⊆ ids') : a.Compares h ids' φ b :=
  fun b' hb' n hn => hc b' hb' n fun x hx => hn x (hs hx)

theorem imp (hc : a.Compares h ids φ b) (hφ : ∀ e, φ e → ψ e) : a.Compares h ids ψ b :=
  fun b' hb' n hn => hφ _ (hc b' hb' n hn)

theorem and (hc : a.Compares h ids φ b) (hc' : a.Compares h ids' ψ b) :
    a.Compares h (ids ++ ids') (fun e => φ e ∧ ψ e) b :=
  fun b' hb' n hn => ⟨hc b' hb' n fun x hx => hn x (List.mem_append_left _ hx),
    hc' b' hb' n fun x hx => hn x (List.mem_append_right _ hx)⟩

/-- What of a statement compares makes the statement the same. -/
theorem sameKind {kind kind' : StmtKind} (hc : a.Compares h ids φ b) (hs : ids ⊆ kind.ids)
    (hφ : ∀ e, φ e → e.stmtKind kind kind') : a.SameKind h b kind kind' :=
  (hc.mono hs).imp hφ

theorem of_forall (hφ : ∀ e, φ e) : a.Compares h ids φ b := fun _ _ _ _ => hφ _

end Compares

/-- **A new node** is the same as one of the given arena, if what they refer
to is. -/
theorem same_alloc {i : ExprId} {e e' : Expr} (hi : a.get i = e) (hrefs : ∀ x ∈ e.refs, h x < h i)
    (hc : a.Compares h e.refs (fun cmp => cmp.expr e e') b) :
    a.Same h (b.alloc e').2 i (b.alloc e').1 := by
  intro b' hb' n hn
  obtain ⟨n, rfl⟩ : ∃ m, n = m + 1 := ⟨n - 1, by have := hn i (by simp); omega⟩
  have hget : b'.get (b.alloc e').1 = e' :=
    (hb'.get_eq _ (size_lt_alloc b e')).trans (get_alloc_self b e')
  have hlt := hn i (List.mem_singleton_self i)
  show (a.sameWithin b' n).expr (a.get i) (b'.get (b.alloc e').1)
  rw [hget, hi]
  exact hc b' ((extends_alloc b e').trans hb') n fun x hx => by
    have := hrefs x hx
    omega

namespace Same

variable {i j : ExprId}

theorem grow (hs : a.Same h b i j) (hb : b.Extends b') : a.Same h b' i j := Compares.grow hs hb

/-- The nodes of ids that are the same are the same. -/
theorem expr (hs : a.Same h b i j) : ∃ e : Comparison, e.expr (a.get i) (b.get j) :=
  ⟨_, hs b (.refl b) (h i + 1) (by simp)⟩

end Same

/-- Lists compare if their members do. -/
theorem Compares.forall₂ {α β : Type} {I : α → List ExprId} {R : α → β → Comparison → Prop}
    {xs : List α} {ys : List β} (hc : List.Forall₂ (fun x y => a.Compares h (I x) (R x y) b) xs ys) :
    a.Compares h (xs.flatMap I) (fun e => List.Forall₂ (fun x y => R x y e) xs ys) b := by
  induction hc with
  | nil => exact .of_forall fun _ => .nil
  | cons hxy _ ih => exact (hxy.and ih).imp fun _ he => .cons he.1 he.2

theorem compares_exprs {is js : List ExprId} (hs : List.Forall₂ (a.Same h b) is js) :
    a.Compares h is (fun e => e.exprs is js) b := by
  have hc := Compares.forall₂ (I := fun i => [i]) hs
  rw [List.flatMap_singleton'] at hc
  exact hc.imp fun _ => Comparison.isEqv_iff_forall₂.2

/-- A list is the same as one of the statements that are not ignored. -/
theorem sameBlock_of_forall₂ {body body' : Block}
    (hs : List.Forall₂ (fun s s' : Stmt => a.SameKind h b s.kind s'.kind)
      (body.filter fun s => !s.isIgnored) body') :
    a.SameBlock h b body body' := by
  have hc := (Compares.forall₂ hs).imp fun _ => Comparison.block_of_forall₂
  refine hc.mono fun x hx => ?_
  obtain ⟨s, hs, hx⟩ := List.mem_flatMap.1 hx
  exact Block.mem_ids_iff.2 ⟨s, List.mem_of_mem_filter hs, hx⟩

end Arena

end LuaSugar
