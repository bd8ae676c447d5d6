import Mathlib
import LuaSugar.Proofs.Render.Tokens
import LuaSugar.Proofs.Syntax.Holds
/-!
# The wording of a part stands in that of the whole

What a chunk leads to is worded somewhere in it: the tokens of an expression
stand, in one piece, among those of the statement or the node it stands in,
and so on up to the body of the chunk. So what rendering writes of a node is
read back where the node stands.

A string is an exception where it is the key of a table, since it may be
written as a name there.
-/

namespace LuaSugar

open List Printer

namespace Wording

variable {ts : List TokenKind} {items : List (List TokenKind)} {w : Wording} {a : Arena}
variable {x : ExprId}

/-- An item stands in the items with separators between them. -/
theorem infix_intercalate (sep : List TokenKind) (h : ts ∈ items) :
    ts <:+: sep.intercalate items := by
  induction items with
  | nil => cases h
  | cons first rest ih =>
    cases rest with
    | nil =>
      obtain rfl := List.mem_singleton.1 h
      rw [List.intercalate_singleton]
    | cons second rest =>
      rw [List.intercalate_cons_cons]
      rcases List.mem_cons.1 h with rfl | h
      · exact infix_append_of_infix_left (infix_append_of_infix_left infix_rfl)
      · exact infix_append_of_infix_right (ih h)

/-- What is in parentheses stands between them. -/
theorem infix_parenthesized (ts : List TokenKind) : ts <:+: parenthesized ts :=
  infix_append [_] ts [_]

/-- No statement is lost in a sequence, since those that are left out have
no tokens. -/
theorem infix_sequence (h : ts ∈ items) : ts <:+: sequence items := by
  by_cases hnil : ts = []
  · exact hnil ▸ nil_infix
  have hmem : ts ∈ items.filter (· ≠ []) := List.mem_filter.2 ⟨h, decide_eq_true hnil⟩
  unfold sequence
  split
  · rename_i hnone
    rw [hnone] at hmem
    cases hmem
  · rename_i first rest hsome
    rw [hsome] at hmem
    rcases List.mem_cons.1 hmem with rfl | hmem
    · exact infix_append_of_infix_left infix_rfl
    · refine infix_append_of_infix_right (IsInfix.trans ?_
        (infix_of_mem_flatten (List.mem_map_of_mem hmem)))
      split
      · exact infix_cons infix_rfl
      · exact infix_rfl

/-- An expression of a list stands in the list. -/
theorem infix_exprs {ids : List ExprId} (h : x ∈ ids) : w.expr x <:+: w.exprs ids :=
  infix_intercalate _ (List.mem_map_of_mem h)

/-! ## Statements -/

/-- A statement of a list stands in the list. -/
theorem infix_statement {s : Stmt} {block : Block} (h : s ∈ block) :
    w.statementKind s.kind <:+: w.block block := by
  cases block with
  | nil => cases h
  | cons first rest =>
    rw [Wording.block, ← Wording.statements, statements_eq]
    have hmem : w.statement s ∈ (first :: rest).map w.statement := List.mem_map_of_mem h
    cases s
    rw [Wording.statement] at hmem
    exact infix_sequence hmem

/-- The body of a function stands in its wording. -/
theorem infix_body (name : List TokenKind) (func : FuncBody) :
    w.block func.body <:+: w.funcBody name func := by
  cases func
  rw [funcBody]
  exact infix_append_of_infix_left (infix_append_of_infix_right infix_rfl)

mutual

/-- **What stands in a statement** is worded in it. -/
theorem infix_statementKind : ∀ {kind : StmtKind}, kind.Holds x →
    kind.Throughout (Worded a) → w.expr x <:+: w.statementKind kind
  | _, .result h, _ => infix_cons (infix_exprs h)
  | .localDecl _ (_ :: _), .initial h, _ => infix_append_of_infix_right (infix_cons (infix_exprs h))
  | _, .target h, _ => infix_append_of_infix_left (infix_exprs h)
  | _, .assigned h, _ => infix_append_of_infix_right (infix_cons (infix_exprs h))
  | _, .call, _ => infix_rfl
  | _, .localFunction h, hk =>
    infix_cons ((infix_block h (hk.2 _ (.head _))).trans (infix_body _ _))
  | _, .function h, hk => (infix_block h (hk.2 _ (.head _))).trans (infix_body _ _)
  | _, .doBody h, hk => infix_append_of_infix_left (infix_cons (infix_block h (hk.2 _ (.head _))))
  | _, .whileCondition, _ =>
    infix_append_of_infix_left (infix_append_of_infix_left (infix_cons infix_rfl))
  | _, .whileBody h, hk => infix_append_of_infix_left
    (infix_append_of_infix_right (infix_cons (infix_block h (hk.2 _ (.head _)))))
  | _, .repeatBody h, hk =>
    infix_append_of_infix_left (infix_cons (infix_block h (hk.2 _ (.head _))))
  | _, .repeatCondition, _ => infix_append_of_infix_right (infix_cons infix_rfl)
  | _, .arm h, hk => infix_ifArm h hk.2 .if_
  | _, .start, _ | _, .limit, _ | _, .step, _ => infix_append_of_infix_left
    (infix_append_of_infix_left (infix_cons (infix_cons (infix_cons (infix_exprs (by simp))))))
  | _, .numericBody h, hk => infix_append_of_infix_left
    (infix_append_of_infix_right (infix_cons (infix_block h (hk.2 _ (.head _)))))
  | _, .iterator h, _ => infix_append_of_infix_left
    (infix_append_of_infix_left (infix_append_of_infix_right (infix_cons (infix_exprs h))))
  | _, .genericBody h, hk => infix_append_of_infix_left
    (infix_append_of_infix_right (infix_cons (infix_block h (hk.2 _ (.head _)))))
  | .compoundAssign _ _ _, _, hk | .importFrom _ _, _, hk | .intrinsic _ _, _, hk =>
    nomatch hk.1.2

/-- So is what stands in an arm, behind whichever word opens it. -/
theorem infix_ifArm : ∀ {arm : IfArm}, arm.Holds x →
    (∀ b ∈ arm.bodies, Block.Everywhere (Worded a) b) → ∀ word, w.expr x <:+: w.ifArm word arm
  | _, .condition, _, word => by
    rw [ifArm]
    exact infix_append_of_infix_left (infix_append_of_infix_left (infix_cons infix_rfl))
  | _, .body h, hbodies, word => by
    rw [ifArm]
    have hbody := infix_block h (hbodies _ (.head _))
    exact infix_append_of_infix_left (infix_append_of_infix_right (infix_cons hbody))
  | _, .otherwise h, hbodies, word => by
    rw [ifArm]
    exact infix_append_of_infix_right (infix_elseArm h fun b hb => hbodies b (.tail _ hb))

/-- And what stands in the arms behind it. -/
theorem infix_elseArm : ∀ {arm : ElseArm}, arm.Holds x →
    (∀ b ∈ arm.bodies, Block.Everywhere (Worded a) b) → w.expr x <:+: w.elseArm arm
  | _, .elseIf h, hbodies => by
    rw [elseArm]
    exact infix_ifArm h hbodies .elseif_
  | _, .elseBlock h, hbodies => by
    rw [elseArm]
    exact infix_append_of_infix_left (infix_cons (infix_block h (hbodies _ (.head _))))

/-- **What stands in a list of statements** is worded in it. -/
theorem infix_block : ∀ {block : Block}, Block.Holds x block →
    Block.Everywhere (Worded a) block → w.expr x <:+: w.block block
  | _, .stmt hs h, hblock => by
    have hkind := infix_statementKind h (Block.everywhere_iff.1 hblock _ hs)
    exact hkind.trans (infix_statement hs)

end

/-! ## Nodes -/

/-- A subject may be put in parentheses, and stands there all the same. -/
theorem infix_subject (x : ExprId) : w.expr x <:+: w.subject x := by
  unfold subject
  split
  · exact infix_rfl
  · exact infix_parenthesized _
  · exact infix_parenthesized _
  · exact infix_rfl

/-- So may an operand on the left. -/
theorem infix_leftOperand (op : BinaryOp) (x : ExprId) : w.expr x <:+: w.leftOperand op x := by
  unfold leftOperand
  split
  · exact infix_parenthesized _
  · exact infix_rfl

/-- A key is worded as the expression it is, unless it is a string. -/
theorem infix_key (hstring : ∀ bytes, w.node x ≠ .atom (.string bytes)) :
    w.expr x <:+: w.key x := by
  unfold key
  split
  · rename_i bytes hnode
    exact absurd hnode (hstring bytes)
  · exact infix_append_of_infix_left (infix_cons infix_rfl)

/-- A keyed entry stands in the entries of its table. -/
theorem infix_keyed {t : Table} {entry : ExprId × ExprId} (h : entry ∈ t.keyed) :
    w.field entry <:+: w.entries t :=
  infix_intercalate _ (List.mem_append_left _ (List.mem_map_of_mem h))

/-- So does a positional one. -/
theorem infix_positional {t : Table} (h : x ∈ t.positional) : w.expr x <:+: w.entries t := by
  have hvalue : w.expr x <:+: w.exprs t.positional := infix_exprs h
  by_cases hnil : w.exprs t.positional = []
  · rw [hnil, infix_nil] at hvalue
    exact hvalue ▸ nil_infix
  · refine hvalue.trans (infix_intercalate _ (List.mem_append_right _ ?_))
    rw [if_neg hnil]
    exact List.mem_singleton_self _

/-- **What stands in a node** is worded in it; a string may be a key, which
is worded as a name. -/
theorem infix_expression {e : Expr} (hx : e.Holds x) (he : WordedNode a e)
    (hstring : ∀ bytes, w.node x ≠ .atom (.string bytes)) : w.expr x <:+: w.expression e := by
  have hentries (t : Table) : w.entries t <:+: w.expression (.atom (.table t)) :=
    infix_append_of_infix_left (infix_cons infix_rfl)
  cases hx with
  | @key t value h =>
    have hkeyed : (x, value) ∈ t.keyed := List.mem_filterMap.2 ⟨_, h, rfl⟩
    have hfield : w.expr x <:+: w.field (x, value) :=
      infix_append_of_infix_left (infix_key hstring)
    exact (hfield.trans (infix_keyed hkeyed)).trans (hentries t)
  | @value t key h =>
    cases key with
    | positional index =>
      have hpositional : x ∈ t.positional := List.mem_filterMap.2 ⟨_, h, rfl⟩
      exact (infix_positional hpositional).trans (hentries t)
    | expr key =>
      have hkeyed : (key, x) ∈ t.keyed := List.mem_filterMap.2 ⟨_, h, rfl⟩
      have hfield : w.expr x <:+: w.field (key, x) :=
        infix_append_of_infix_right (infix_cons infix_rfl)
      exact (hfield.trans (infix_keyed hkeyed)).trans (hentries t)
  | @body func h => exact (infix_block h (he.2.2 func rfl)).trans (infix_body _ _)
  | left =>
    exact (infix_append_of_infix_left (infix_leftOperand _ x)).trans (infix_parenthesized _)
  | right =>
    exact (infix_append_of_infix_right (infix_cons infix_rfl)).trans (infix_parenthesized _)
  | operand => exact infix_cons infix_rfl
  | owner => exact infix_append_of_infix_left (infix_subject x)
  | container => exact infix_append_of_infix_left (infix_append_of_infix_left (infix_subject x))
  | index => exact infix_append_of_infix_left (infix_append_of_infix_right (infix_cons infix_rfl))
  | callee => exact infix_append_of_infix_left (infix_append_of_infix_left (infix_subject x))
  | argument h =>
    exact infix_append_of_infix_right ((infix_exprs h).trans (infix_parenthesized _))
  | property | child | target | assigned => cases he.2.1

end Wording

/-! ## Chunks -/

namespace Chunk

variable {c : Chunk} {R : Prop} {i : ExprId}

/-- What a plain chunk leads to has the wording of its node. -/
theorem Sound.wording_expr (h : c.Sound .lexed R) (hplain : c.Plain) (hi : c.Reaches i) :
    c.arena.wording.expr i = c.arena.wording.expression (c.arena.get i) :=
  (h.words hplain hi .minify i (List.mem_singleton_self i)).2.1

/-- **What a plain chunk leads to is worded in it.** -/
theorem Sound.wording_infix (h : c.Sound .lexed R) (hplain : c.Plain) (hi : c.Reaches i)
    (hstring : ∀ bytes, c.arena.get i ≠ .atom (.string bytes)) :
    c.arena.wording.expr i <:+: c.wording := by
  rw [← within_iff] at hi
  induction hi with
  | body hx => exact Wording.infix_block hx (h.worded hplain)
  | @node j i hj hx ih =>
    have hreached := within_iff.1 hj
    have hnode : c.arena.wording.expr i <:+: c.arena.wording.expr j := by
      rw [h.wording_expr hplain hreached]
      exact Wording.infix_expression hx (h.wordedNode hplain hreached) hstring
    refine hnode.trans (ih fun bytes hbytes => ?_)
    rw [hbytes] at hx
    cases hx

end Chunk

end LuaSugar
