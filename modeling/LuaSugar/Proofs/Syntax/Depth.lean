import Mathlib
import LuaSugar.Render
import LuaSugar.Proofs.Syntax.Rank
/-!
# Printing at every depth

What is printed of a statement or a node depends on the printing of the
ids it refers to and on nothing else. In a ranked arena it therefore does
not depend on the depth to which ids are followed, once it exceeds the
arena's size.
-/

namespace LuaSugar

/-! ## Printing -/

namespace Printer

variable {p q : Printer}

/-- Two printers print some ids alike. -/
def Agree (p q : Printer) (ids : List ExprId) : Prop :=
  ∀ indent, ∀ x ∈ ids, p.expr indent x = q.expr indent x

/-- Printers that agree on some ids agree on fewer. -/
theorem Agree.mono {ids ids' : List ExprId} (h : Agree p q ids') (hs : ids ⊆ ids') :
    Agree p q ids :=
  fun indent x hx => h indent x (hs hx)

theorem Agree.of_mem {ids : List ExprId} {x : ExprId} (h : Agree p q ids) (hx : x ∈ ids)
    (indent : ℕ) : p.expr indent x = q.expr indent x :=
  h indent x hx

/-- Names are printed by the layout alone. -/
theorem names_congr (hl : p.layout = q.layout) (names : List String) : p.names names = q.names names := by
  unfold Printer.names
  rw [hl]

/-- Lists of ids that are printed alike. -/
theorem exprs_congr (hl : p.layout = q.layout) {indent : ℕ} {ids : List ExprId}
    (h : Agree p q ids) : p.exprs indent ids = q.exprs indent ids := by
  unfold exprs
  rw [hl, List.map_congr_left (h indent)]

mutual

/-- **A statement is printed alike** by printers that agree on its ids, at
every depth. By the recursion of the printer. -/
theorem statement_congr (hl : p.layout = q.layout) (indent : ℕ) : ∀ s : Stmt, Agree p q s.kind.ids →
    p.statement indent s = q.statement indent s
  | ⟨kind, _⟩, h => by
    unfold statement
    exact statementKind_congr hl indent kind h

/-- **Printing a statement** reads the ids that it holds and no others. -/
theorem statementKind_congr (hl : p.layout = q.layout) (indent : ℕ) (kind : StmtKind) (h : Agree p q kind.ids) :
    p.statementKind indent kind = q.statementKind indent kind := by
  rw [StmtKind.ids_eq] at h
  have hroots : Agree p q kind.roots := h.mono (List.subset_append_left _ _)
  have hblocks : ∀ b ∈ kind.blocks, Agree p q (Block.ids b) := fun b hb =>
    h.mono fun x hx => List.mem_append_right _ (List.mem_flatMap.2 ⟨b, hb, hx⟩)
  have hexprs (ids : List ExprId) (hs : ids ⊆ kind.roots) :
      p.exprs indent ids = q.exprs indent ids :=
    exprs_congr hl (hroots.mono hs)
  -- the ids of a statement are its roots and those of its nested lists; each
  -- case names the ones that it prints
  match kind with
  | .ret [] => rfl
  | .ret (first :: rest) =>
    unfold statementKind
    rw [hexprs (first :: rest) (List.Subset.refl _)]
  | .localFunction name func =>
    unfold statementKind
    rw [funcBody_congr hl indent _ func (hblocks _ (List.mem_singleton_self _))]
  | .function path func =>
    unfold statementKind
    rw [funcBody_congr hl indent _ func (hblocks _ (List.mem_singleton_self _))]
  | .localDecl names [] =>
    unfold statementKind
    rw [names_congr hl]
  | .localDecl names (first :: rest) =>
    unfold statementKind
    rw [hexprs (first :: rest) (List.Subset.refl _), names_congr hl, hl]
  | .compoundAssign target op value =>
    unfold statementKind
    rw [hroots.of_mem (x := target) (by simp [StmtKind.roots]),
      hroots.of_mem (x := value) (by simp [StmtKind.roots]), hl]
  | .assign targets values =>
    unfold statementKind
    rw [hexprs targets (List.subset_append_left _ _), hexprs values (List.subset_append_right _ _),
      hl]
  | .call c =>
    unfold statementKind
    exact hroots.of_mem (List.mem_singleton_self c) indent
  | .break_ => rfl
  | .doBlock body =>
    unfold statementKind
    rw [block_congr hl _ body (hblocks _ (List.mem_singleton_self _)), hl]
  | .whileLoop condition body =>
    unfold statementKind
    rw [block_congr hl _ body (hblocks _ (List.mem_singleton_self _)), hl,
      hroots.of_mem (List.mem_singleton_self condition)]
  | .repeatLoop body condition =>
    unfold statementKind
    rw [block_congr hl _ body (hblocks _ (List.mem_singleton_self _)), hl,
      hroots.of_mem (List.mem_singleton_self condition)]
  | .ifChain arm =>
    unfold statementKind
    exact ifArm_congr hl indent .if_ arm hroots hblocks
  | .forNumeric var start limit step body =>
    unfold statementKind
    rw [block_congr hl _ body (hblocks _ (List.mem_singleton_self _)), hl,
      hexprs (start :: limit :: step.toList) (List.Subset.refl _)]
  | .forGeneric names iterators body =>
    unfold statementKind
    rw [block_congr hl _ body (hblocks _ (List.mem_singleton_self _)), names_congr hl, hl,
      hexprs iterators (List.Subset.refl _)]
  | .importFrom binding source =>
    unfold statementKind
    have hhead : p.importHead binding = q.importHead binding := by
      cases binding with
      | default name => rfl
      | named names => simp only [importHead, names_congr hl]
    rw [hhead, hroots.of_mem (List.mem_singleton_self source)]
  | .intrinsic expr [] =>
    unfold statementKind
    rw [hroots.of_mem (List.mem_singleton_self expr)]
  | .intrinsic expr (first :: rest) =>
    unfold statementKind
    rw [hroots.of_mem (x := expr) List.mem_cons_self,
      hexprs (first :: rest) (List.subset_cons_self _ _)]
  | .ignore => rfl

theorem funcBody_congr (hl : p.layout = q.layout) (indent : ℕ) (name : Option Fragment) : ∀ func : FuncBody,
    Agree p q (Block.ids func.body) → p.funcBody indent name func = q.funcBody indent name func
  | ⟨params, variadic, body⟩, h => by
    unfold funcBody funcHead
    rw [block_congr hl (indent + 1) body h, hl]

theorem ifArm_congr (hl : p.layout = q.layout) (indent : ℕ) (word : Keyword) : ∀ arm : IfArm, Agree p q arm.conditions →
    (∀ b ∈ arm.bodies, Agree p q (Block.ids b)) →
    p.ifArm indent word arm = q.ifArm indent word arm
  | ⟨condition, body, _, otherwise⟩, hc, hb => by
    unfold ifArm armHead
    rw [block_congr hl _ body (hb body List.mem_cons_self), hl,
      hc.of_mem (x := condition) List.mem_cons_self,
      elseArm_congr hl indent otherwise (hc.mono (List.subset_cons_self _ _))
        fun b hm => hb b (List.mem_cons_of_mem _ hm)]

theorem elseArm_congr (hl : p.layout = q.layout) (indent : ℕ) : ∀ arm : ElseArm, Agree p q arm.conditions →
    (∀ b ∈ arm.bodies, Agree p q (Block.ids b)) → p.elseArm indent arm = q.elseArm indent arm
  | .absent, _, _ => rfl
  | .elseIf arm, hc, hb => by
    unfold elseArm
    exact ifArm_congr hl indent .elseif_ arm hc hb
  | .elseBlock body _, _, hb => by
    unfold elseArm
    rw [block_congr hl _ body (hb _ (List.mem_singleton_self _)), hl]

/-- Statements one after another, with what the layout puts between them. -/
theorem statements_congr (hl : p.layout = q.layout) (indent : ℕ) : ∀ body : List Stmt, Agree p q (Block.ids body) →
    p.statements indent body = q.statements indent body
  | [], _ => rfl
  | s :: rest, h => by
    rw [Block.ids_cons] at h
    unfold statements
    rw [statement_congr hl indent s (h.mono (List.subset_append_left _ _)),
      statements_congr hl indent rest (h.mono (List.subset_append_right _ _))]

theorem block_congr (hl : p.layout = q.layout) (indent : ℕ) : ∀ body : List Stmt, Agree p q (Block.ids body) →
    p.block indent body = q.block indent body
  | [], _ => rfl
  | s :: rest, h => by
    rw [Block.ids_cons] at h
    unfold block
    rw [statement_congr hl indent s (h.mono (List.subset_append_left _ _)), hl,
      statements_congr hl indent rest (h.mono (List.subset_append_right _ _))]

end

theorem subject_congr (hn : p.node = q.node) {indent : ℕ} {x : ExprId}
    (h : p.expr indent x = q.expr indent x) : p.subject indent x = q.subject indent x := by
  unfold subject
  rw [hn, h]

/-- An operation is printed by its node and by what its operands are printed as. -/
theorem arith_congr (hl : p.layout = q.layout) (hn : p.node = q.node) (indent : ℕ) (e : Arith)
    (h : Agree p q (Expr.arith e).children) : p.arith indent e = q.arith indent e := by
  have hexpr (x : ExprId) (hx : x ∈ (Expr.arith e).children) : p.expr indent x = q.expr indent x :=
    h.of_mem hx indent
  cases e with
  | binary op left right =>
    have hleft := hexpr left (by simp [Expr.children])
    have hright := hexpr right (by simp [Expr.children])
    simp only [arith, leftOperand, hn, hl, hleft, hright]
  | unary op operand =>
    have hx := hexpr operand (by simp [Expr.children])
    cases op <;> simp only [arith, hx]
  | member object name =>
    have hobject := subject_congr hn (hexpr object (by simp [Expr.children]))
    simp only [arith, hobject]
  | subscript object key =>
    have hobject := subject_congr hn (hexpr object (by simp [Expr.children]))
    have hkey := hexpr key (by simp [Expr.children])
    simp only [arith, hobject, hkey]
  | call target method args =>
    have htarget := subject_congr hn (hexpr target (by simp [Expr.children]))
    have hargs : p.exprs indent args = q.exprs indent args :=
      exprs_congr hl (h.mono (List.subset_cons_self _ _))
    simp only [arith, htarget, hargs]
  | assign op target value =>
    have htarget := hexpr target (by simp [Expr.children])
    have hvalue := hexpr value (by simp [Expr.children])
    simp only [arith, hl, htarget, hvalue]

/-- A table is printed entry by entry, the keyed ones first. -/
theorem table_congr (hl : p.layout = q.layout) (hn : p.node = q.node) (indent : ℕ) (t : Table)
    (h : Agree p q (Expr.atom (.table t)).children) : p.table indent t = q.table indent t := by
  have hkeyed : ∀ entry ∈ t.keyed,
      p.field (indent + 1) entry.1 entry.2 = q.field (indent + 1) entry.1 entry.2 := by
    rintro ⟨key, value⟩ hentry
    obtain ⟨⟨k, v⟩, he, hk⟩ := List.mem_filterMap.1 hentry
    cases k with
    | positional index => simp at hk
    | expr k =>
      simp only [Option.some.injEq, Prod.mk.injEq] at hk
      obtain ⟨rfl, rfl⟩ := hk
      have hmem : ∀ x ∈ [k, v], x ∈ (Expr.atom (.table t)).children := fun x hx =>
        List.mem_flatMap.2 ⟨_, he, hx⟩
      unfold field
      rw [hn, hl, h.of_mem (hmem k (by simp)), h.of_mem (hmem v (by simp))]
  have hpositional : Agree p q t.positional := by
    intro indent x hx
    obtain ⟨⟨k, v⟩, he, hk⟩ := List.mem_filterMap.1 hx
    cases k with
    | positional index =>
      obtain rfl := Option.some.inj hk
      exact h.of_mem (List.mem_flatMap.2 ⟨_, he, List.mem_singleton_self _⟩) indent
    | expr k => simp at hk
  unfold table
  rw [hl, exprs_congr hl hpositional, List.map_congr_left hkeyed]

theorem element_congr (hn : p.node = q.node) (indent : ℕ) (e : Element)
    (h : Agree p q (Expr.atom (.element e)).children) : p.element indent e = q.element indent e := by
  have hbraced : ∀ x ∈ (Expr.atom (.element e)).children,
      p.braced indent x = q.braced indent x := by
    intro x hx
    unfold braced
    rw [h.of_mem hx]
  have hproperties : ∀ entry ∈ e.properties,
      p.property indent entry.1 entry.2 = q.property indent entry.1 entry.2 := by
    intro entry he
    unfold property
    rw [hn, hbraced entry.2 (List.mem_append_left _ (List.mem_map_of_mem he))]
  unfold element
  rw [List.flatMap_congr hproperties]
  cases hc : e.children with
  | none => rfl
  | some children =>
    have hchild : ∀ x ∈ children, p.child indent x = q.child indent x := by
      intro x hx
      have hx : x ∈ (Expr.atom (.element e)).children :=
        List.mem_append_right _ (by simpa [hc] using hx)
      unfold child
      rw [hn, h.of_mem hx, hbraced x hx]
    simp only [List.flatMap_congr hchild]

/-- **Printing a node** reads what the node refers to and nothing else. -/
theorem expression_congr (hl : p.layout = q.layout) (hn : p.node = q.node) (indent : ℕ)
    (e : Expr) (h : Agree p q e.refs) : p.expression indent e = q.expression indent e := by
  have hchildren : Agree p q e.children := h.mono (List.subset_append_left _ _)
  match e with
  | .arith e => exact arith_congr hl hn indent e hchildren
  | .atom (.table t) => exact table_congr hl hn indent t hchildren
  | .atom (.element e) => exact element_congr hn indent e hchildren
  | .atom (.func func) =>
    exact funcBody_congr hl indent none func (h.mono (List.subset_append_right _ _))
  | .atom (.number _) | .atom (.string _) | .atom (.boolean true) | .atom (.boolean false)
  | .atom .nil | .atom (.name _) | .atom .vararg => rfl

end Printer

namespace Arena

variable {a : Arena} {ρ : ExprId → ℚ} {h : ExprId → ℕ} {ℓ : Layout}

/-- **Printing at every depth** beyond the height is the same. -/
theorem Graded.printerWithin_expr (hg : a.Graded h) : ∀ {n m : ℕ} {i : ExprId}, h i < n →
    h i < m → ∀ indent, (a.printerWithin ℓ n).expr indent i = (a.printerWithin ℓ m).expr indent i
  | n + 1, m + 1, i, hn, hm, indent => by
    refine Printer.expression_congr (by cases n <;> cases m <;> rfl)
      (by cases n <;> cases m <;> rfl) indent (a.get i) fun indent x hx => ?_
    have hlt := hg i x hx
    exact hg.printerWithin_expr (by omega) (by omega) indent

/-- **Depth beyond the arena's size is not used.** -/
theorem Ranked.printerWithin_expr (hr : a.Ranked ρ) {n : ℕ} (hn : a.size < n) (indent : ℕ)
    (i : ExprId) : (a.printerWithin ℓ n).expr indent i = (a.printer ℓ).expr indent i := by
  have hle := height_le a ρ i
  exact hr.graded.printerWithin_expr (by omega) (by omega) indent

/-- The printer of a ranked arena prints an id as its node. -/
theorem Ranked.printer_expr (hr : a.Ranked ρ) (indent : ℕ) (i : ExprId) :
    (a.printer ℓ).expr indent i = (a.printer ℓ).expression indent (a.get i) := by
  rw [← hr.printerWithin_expr (n := a.size + 2) (by omega)]
  rfl

end Arena

end LuaSugar
