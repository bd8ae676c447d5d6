import Mathlib
import LuaSugar.Proofs.Pass.Sound
import LuaSugar.Proofs.Desugar.Plain
import LuaSugar.Proofs.Render.Wording
import LuaSugar.Proofs.Syntax.Places
/-!
# Scripts

A **script** is what can be written and read back: some ids of an arena,
with all that they refer to, worded as their nodes, without sugar and with
numbers, targets and returns as they can be written.

What is written of a call, a member or a subscript begins with what it
goes on from. So an expression is a **primary** part, which is read in one
go, and the **suffixes** behind it, which are read in a loop. No call and no
`...` stands in parentheses unless a suffix follows.
-/

namespace LuaSugar

/-- Names that are read as names, numbers that are written as one token,
and targets that may be assigned to. -/
def Vocabulary.readable : Vocabulary :=
  ⟨fun text => Word.isName text, fun value => value.isNegative = false ∧ value.isFinite,
    fun e => e.isAssignable⟩

/-- A statement that is read back, if its lists are. -/
def StmtKind.Readable (a : Arena) (kind : StmtKind) : Prop :=
  Vocabulary.readable.Stmt a kind ∧ kind.isSugar = false ∧ kind.Orderly

def Block.Readable (a : Arena) (body : Block) : Prop :=
  Block.ReturnsLast body ∧ Block.Everywhere (StmtKind.Readable a) body

@[simp] theorem Arena.wording_node (a : Arena) : a.wording.node = a.get := rfl

/-- Some ids of an arena that can be written and read back. -/
structure Arena.Script (a : Arena) (h : ExprId → ℕ) (known : ExprId → Prop) : Prop where
  worded : ∀ i, known i → a.wording.expr i = a.wording.expression (a.get i)
  node : ∀ i, known i → Vocabulary.readable.Node a (a.get i)
  plain : ∀ i, known i → (a.get i).isSugar = false
  body : ∀ i, known i → ∀ func, a.get i = .atom (.func func) → Block.Readable a func.body
  refers : ∀ i, known i → ∀ j ∈ (a.get i).refs, known j ∧ h j < h i

/-! ## Suffixes -/

/-- Tokens that a suffix begins with. -/
def TokenKind.opensSuffix : TokenKind → Bool
  | operator .dot | operator .leftBracket | operator .colon | operator .leftParen
  | operator .leftBrace | string _ => true
  | _ => false

/-- A suffix stands in front. -/
def OpensSuffix (us : List TokenKind) : Prop := ∃ k, us.head? = some k ∧ k.opensSuffix

namespace Expr

/-- What a call, a member or a subscript goes on from. -/
def stem? : Expr → Option ExprId
  | arith (.member object _) | arith (.subscript object _) | arith (.call object _ _) => some object
  | _ => none

/-- A unary operation. -/
def isUnary : Expr → Bool
  | arith (.unary _ _) => true
  | _ => false

/-- A call is no prefix operation. -/
theorem isUnary_of_isCall {e : Expr} (h : e.isCall) : e.isUnary = false := by
  rcases e with e | e <;> cases e <;> first | rfl | cases h

/-- Neither is a target. -/
theorem isUnary_of_isAssignable {e : Expr} (h : e.isAssignable) : e.isUnary = false := by
  rcases e with e | e <;> cases e <;> first | rfl | cases h

/-- A prefix operation gives one value. -/
theorem spreads_of_isUnary {e : Expr} (h : e.isUnary) : e.spreads = false := by
  rcases e with e | e <;> cases e <;> first | rfl | cases h

/-- The stem of a suffix is a child of the node. -/
theorem stem?_mem_children {e : Expr} {i : ExprId} (h : e.stem? = some i) : i ∈ e.children := by
  rcases e with e | e
  · cases h
  · cases e with
    | member _ _ | subscript _ _ | call _ _ _ =>
      obtain rfl := Option.some.inj h
      simp [children]
    | _ => cases h

end Expr

namespace Wording

variable (w : Wording)

/-- What is written behind the stem. -/
def suffix : Expr → List TokenKind
  | .arith (.member _ name) => [.operator .dot, .name name]
  | .arith (.subscript _ key) =>
    .operator .leftBracket :: w.expr key ++ [.operator .rightBracket]
  | .arith (.call _ method args) =>
    (match method with
      | some name => [.operator .colon, .name name]
      | none => []) ++ parenthesized (w.exprs args)
  | _ => []

/-- What is written between an expression and one that goes on from it. -/
inductive Suffixes : ExprId → ExprId → List TokenKind → Prop
  | refl (i : ExprId) : Suffixes i i []
  | cons {x y i : ExprId} {ts : List TokenKind} : (w.node y).stem? = some x → Suffixes y i ts →
      Suffixes x i (w.suffix (w.node y) ++ ts)

/-- What may stand in the parentheses of an expression. -/
inductive Inside (i : ExprId) : List TokenKind → Prop
  | expr : Inside i (w.expr i)
  | binary {op : BinaryOp} {left right : ExprId} : w.node i = .arith (.binary op left right) →
      Inside i (w.leftOperand op left ++ .operator op.operator :: w.expr right)

/-- What is read of an expression without suffixes, and whether it stands in
parentheses. -/
inductive Primary (i : ExprId) : Bool → List TokenKind → Prop
  | atom : (w.node i).isAtom → Primary i false (w.expr i)
  | parenthesized {ts : List TokenKind} : w.Inside i ts → Primary i true (parenthesized ts)

variable {w}

/-- A suffix begins as one. -/
theorem opensSuffix_suffix {e : Expr} {x : ExprId} (h : e.stem? = some x) (us : List TokenKind) :
    OpensSuffix (w.suffix e ++ us) := by
  rcases e with e | e
  · cases h
  · cases e with
    | member _ _ | subscript _ _ => exact ⟨_, rfl, rfl⟩
    | call _ method _ => cases method <;> exact ⟨_, rfl, rfl⟩
    | _ => cases h

/-- A suffix is written with a token at least. -/
theorem suffix_ne_nil {e : Expr} {x : ExprId} (h : e.stem? = some x) : w.suffix e ≠ [] := by
  obtain ⟨_, hhead, -⟩ := opensSuffix_suffix (w := w) h []
  rintro hnil
  rw [hnil] at hhead
  cases hhead

/-- Some suffixes begin as one. -/
theorem Suffixes.opens {x i : ExprId} {ts : List TokenKind} (h : w.Suffixes x i ts) (hts : ts ≠ [])
    (us : List TokenKind) : OpensSuffix (ts ++ us) := by
  cases h with
  | refl _ => exact absurd rfl hts
  | cons hy _ =>
    rw [List.append_assoc]
    exact opensSuffix_suffix hy _

/-- One suffix more, behind those there are. -/
theorem Suffixes.concat {x y i : ExprId} {ts : List TokenKind} (h : w.Suffixes x y ts)
    (hi : (w.node i).stem? = some y) : w.Suffixes x i (ts ++ w.suffix (w.node i)) := by
  induction h with
  | refl _ => simpa using Suffixes.cons hi (.refl i)
  | cons hy _ ih =>
    rw [List.append_assoc]
    exact .cons hy (ih hi)

end Wording

namespace Arena.Script

variable {a : Arena} {h : ExprId → ℕ} {known : ExprId → Prop} {i j : ExprId}

/-- A child of a known node is known, and lower. -/
theorem child (hw : a.Script h known) (hi : known i) (hj : j ∈ (a.get i).children) :
    known j ∧ h j < h i :=
  hw.refers i hi j (List.mem_append_left _ hj)

/-- What suffixes begin with is known. -/
theorem known_of_suffixes (hw : a.Script h known) (hi : known i) {x : ExprId} {ts : List TokenKind}
    (hx : a.wording.Suffixes x i ts) : known x := by
  induction hx with
  | refl _ => exact hi
  | cons hy _ ih => exact (hw.child (ih hi) (Expr.stem?_mem_children hy)).1

/-- The wording of what has a stem. -/
theorem expr_of_stem (hw : a.Script h known) (hi : known i) (hj : (a.get i).stem? = some j) :
    a.wording.expr i = a.wording.subject j ++ a.wording.suffix (a.get i) := by
  rw [hw.worded i hi]
  rcases hnode : a.get i with x | x <;> rw [hnode] at hj
  · cases hj
  · cases x with
    | member _ _ | subscript _ _ =>
      obtain rfl := Option.some.inj hj
      simp [Wording.expression, Wording.arith, Wording.suffix]
    | call _ method _ =>
      obtain rfl := Option.some.inj hj
      cases method <;> simp [Wording.expression, Wording.arith, Wording.suffix]
    | _ => cases hj

/-- **What stands before a suffix** is primary with suffixes of its own. -/
theorem exists_primary_subject (hw : a.Script h known) (hi : known i) : ∃ x grouped ps ts,
    a.wording.Primary x grouped ps ∧ a.wording.Suffixes x i ts ∧ a.wording.subject i = ps ++ ts ∧
      (grouped → (a.get x).spreads → ts = [] → (a.get i).isAtom) := by
  -- along the stems, each of which is lower
  induction hn : h i using Nat.strong_induction_on generalizing i with
  | _ n ih =>
    have hparenthesized (hnode : (a.get i).spreads → (a.get i).isAtom) : ∃ x grouped ps ts,
        a.wording.Primary x grouped ps ∧ a.wording.Suffixes x i ts ∧
          Wording.parenthesized (a.wording.expr i) = ps ++ ts ∧
            (grouped → (a.get x).spreads → ts = [] → (a.get i).isAtom) :=
      ⟨i, _, _, [], .parenthesized .expr, .refl i, (List.append_nil _).symm, fun _ h _ => hnode h⟩
    -- what has a stem has the stem's primary part and one suffix more
    have hstem {j : ExprId} (hj : (a.get i).stem? = some j) : ∃ x grouped ps ts,
        a.wording.Primary x grouped ps ∧ a.wording.Suffixes x i ts ∧ a.wording.expr i = ps ++ ts ∧
          (grouped → (a.get x).spreads → ts = [] → (a.get i).isAtom) := by
      obtain ⟨hj', hlt⟩ := hw.child hi (Expr.stem?_mem_children hj)
      obtain ⟨x, grouped, ps, ts, hx, hts, hsubject, -⟩ := ih _ (hn ▸ hlt) hj' rfl
      refine ⟨x, grouped, ps, _, hx, hts.concat hj, ?_, fun _ _ hnil => ?_⟩
      · rw [hw.expr_of_stem hi hj, hsubject, List.append_assoc]
        rfl
      · exact absurd (List.append_eq_nil_iff.1 hnil).2 (Wording.suffix_ne_nil hj)
    have hplain := hw.plain i hi
    unfold Wording.subject
    rw [Arena.wording_node]
    rcases hnode : a.get i with node | node
    · rw [hnode] at hparenthesized
      cases node with
      | name text =>
        exact ⟨i, _, _, [], .atom (by rw [Arena.wording_node, hnode]; rfl), .refl i,
          (List.append_nil _).symm, fun _ _ _ => rfl⟩
      | _ => exact hparenthesized fun _ => rfl
    · rw [hnode] at hparenthesized hstem
      cases node with
      | unary op operand => exact hparenthesized fun hspreads => hspreads
      | binary op left right =>
        refine ⟨i, _, _, [], .parenthesized (.binary hnode), .refl i, ?_, fun _ hspreads => ?_⟩
        · rw [List.append_nil]
          show a.wording.expr i = _
          rw [hw.worded i hi, hnode]
          rfl
        · rw [hnode] at hspreads
          cases hspreads
      | member _ _ | subscript _ _ | call _ _ _ => exact hstem rfl
      | assign op target value =>
        rw [hnode] at hplain
        cases hplain

/-- **An expression** that is not a unary operation is primary with
suffixes. -/
theorem exists_primary (hw : a.Script h known) (hi : known i) (hunary : (a.get i).isUnary = false) :
    ∃ x grouped ps ts, a.wording.Primary x grouped ps ∧ a.wording.Suffixes x i ts ∧
      a.wording.expr i = ps ++ ts ∧ (grouped → (a.get x).spreads → ts ≠ []) := by
  have hplain := hw.plain i hi
  obtain ⟨x, grouped, ps, ts, hx, hts, hsubject, hgrouped⟩ := hw.exists_primary_subject hi
  unfold Wording.subject at hsubject
  rw [Arena.wording_node] at hsubject
  rcases hnode : a.get i with node | node
  · exact ⟨i, _, _, [], .atom (by rw [Arena.wording_node, hnode]; rfl), .refl i,
      (List.append_nil _).symm, fun hfalse => absurd hfalse Bool.false_ne_true⟩
  · rw [hnode] at hsubject hplain hunary hgrouped
    have hsome : grouped → (a.get x).spreads → ts ≠ [] := fun h h' hnil =>
      absurd (hgrouped h h' hnil) Bool.false_ne_true
    cases node with
    | unary op operand => cases hunary
    | assign op target value => cases hplain
    | _ => exact ⟨x, grouped, ps, ts, hx, hts, hsubject, hsome⟩

end Arena.Script

end LuaSugar
