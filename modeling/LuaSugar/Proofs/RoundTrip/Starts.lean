import Mathlib
import LuaSugar.Parser
import LuaSugar.Proofs.RoundTrip.Script
/-!
# How wordings begin and what ends them

A parser decides what to read by one token, or two, and stops before a
token that does not go on from what it has read. Here is what the tokens
of a script begin with, and what may stand behind an expression so that
reading it ends there.
-/

namespace LuaSugar

namespace TokenKind

/-- Tokens that a primary expression begins with. -/
def opensPrimary : TokenKind → Bool
  | name _ | number _ | string _ | keyword .true_ | keyword .false_ | keyword .nil_
  | keyword .function_ | operator .leftParen | operator .leftBrace | operator .ellipsis => true
  | _ => false

/-- Tokens that an expression begins with. -/
def opensExpression : TokenKind → Bool
  | operator .not | operator .hash | operator .minus => true
  | kind => kind.opensPrimary

/-- Tokens behind an expression that end it, whatever operators it is made
of. -/
def endsExpression : TokenKind → Bool
  | keyword _ | name _ | operator .rightParen | operator .rightBracket | operator .rightBrace
  | operator .comma | operator .semicolon | operator .assign => true
  | _ => false

/-- Tokens that a call or something to assign to begins with. -/
def opensSubject : TokenKind → Bool
  | name _ | operator .leftParen => true
  | _ => false

theorem opensExpression_of_opensPrimary {k : TokenKind} (h : k.opensPrimary) : k.opensExpression := by
  unfold opensExpression
  split <;> first | rfl | exact h

end TokenKind

/-- A number that is not negative is written as one token. -/
theorem Fragment.tokens_number {value : Double} (hsign : value.isNegative = false)
    (hfinite : value.isFinite) : (Fragment.number value).tokens = [.number value] := by
  have hlt : value.magnitude < Double.infiniteMagnitude := of_decide_eq_true hfinite
  have hnan : value.isNaN = false := decide_eq_false (by omega)
  have hinfinite : value.isInfinite = false := decide_eq_false (by omega)
  have habs : value.abs = value := Double.ofMagnitude_magnitude hsign hfinite
  have hnumber : Fragment.number value = [.token (.number value)] := by
    by_cases hzero : value.isZero
    · have hvalue : Double.zero = value := by
        rw [← habs, Double.abs, of_decide_eq_true hzero]
        rfl
      simp [Fragment.number, hnan, hinfinite, hzero, hvalue]
    · simp [Fragment.number, hnan, hinfinite, hzero, hsign, habs]
  rw [hnumber]
  rfl

namespace Arena.Script

variable {a : Arena} {h : ExprId → ℕ} {known : ExprId → Prop} {i : ExprId}
  {ts us : List TokenKind}

/-- **A primary part** begins with a token of its own. -/
theorem primary_opens {grouped : Bool} (hw : a.Script h known) (hi : known i)
    (hts : a.wording.Primary i grouped ts) : ∃ k rest, ts = k :: rest ∧ k.opensPrimary := by
  cases hts with
  | parenthesized _ => exact ⟨_, _, rfl, rfl⟩
  | atom hatom =>
    have hplain := hw.plain i hi
    have hnode := hw.node i hi
    rw [Arena.wording_node] at hatom
    rw [hw.worded i hi]
    generalize a.get i = e at hplain hnode hatom
    rcases e with x | x
    · cases x with
      | number value => exact ⟨_, _, Fragment.tokens_number hnode.1 hnode.2, rfl⟩
      | boolean value => cases value <;> exact ⟨_, _, rfl, rfl⟩
      | element e => cases hplain
      | func func =>
        obtain ⟨params, variadic, body⟩ := func
        exact ⟨_, _, rfl, rfl⟩
      | _ => exact ⟨_, _, rfl, rfl⟩
    · cases hatom

/-- **An expression** begins with its primary part or a unary operator. -/
theorem expr_opens (hw : a.Script h known) (hi : known i) :
    ∃ k rest, a.wording.expr i = k :: rest ∧ k.opensExpression := by
  by_cases hunary : (a.get i).isUnary
  · rw [hw.worded i hi]
    generalize a.get i = e at hunary
    rcases e with x | x
    · cases hunary
    · cases x with
      | unary op operand => cases op <;> exact ⟨_, _, rfl, rfl⟩
      | _ => cases hunary
  · obtain ⟨x, _, ps, ts, hx, hts, hexpr, -⟩ := hw.exists_primary hi (by simpa using hunary)
    obtain ⟨k, rest, rfl, hk⟩ := hw.primary_opens (hw.known_of_suffixes hi hts) hx
    exact ⟨k, rest ++ ts, hexpr, TokenKind.opensExpression_of_opensPrimary hk⟩

theorem exprs_opens (hw : a.Script h known) {i : ExprId} {is : List ExprId}
    (his : ∀ j ∈ i :: is, known j) :
    ∃ k rest, a.wording.exprs (i :: is) = k :: rest ∧ k.opensExpression := by
  obtain ⟨k, rest, hexpr, hk⟩ := hw.expr_opens (his i List.mem_cons_self)
  unfold Wording.exprs Wording.listed
  rw [List.map_cons, hexpr]
  cases is with
  | nil => exact ⟨k, rest, by simp, hk⟩
  | cons j is => exact ⟨k, _, by rw [List.map_cons, List.intercalate_cons_cons]; rfl, hk⟩

/-- **What stands before a suffix** begins with a name or a parenthesis. -/
theorem subject_opens (hw : a.Script h known) (hi : known i) :
    ∃ k rest, a.wording.subject i = k :: rest ∧ k.opensSubject := by
  induction hn : h i using Nat.strong_induction_on generalizing i with
  | _ n ih =>
    have hstem {j : ExprId} (hj : (a.get i).stem? = some j) :
        ∃ k rest, a.wording.expr i = k :: rest ∧ k.opensSubject := by
      obtain ⟨hj', hlt⟩ := hw.child hi (Expr.stem?_mem_children hj)
      obtain ⟨k, rest, hsubject, hk⟩ := ih _ (hn ▸ hlt) hj' rfl
      exact ⟨k, rest ++ a.wording.suffix (a.get i), by rw [hw.expr_of_stem hi hj, hsubject]; rfl, hk⟩
    have hplain := hw.plain i hi
    have hworded := hw.worded i hi
    unfold Wording.subject
    rw [Arena.wording_node]
    rcases hnode : a.get i with node | node <;> rw [hnode] at hworded hplain
    · cases node with
      | name text => exact ⟨_, _, hworded, rfl⟩
      | _ => exact ⟨_, _, rfl, rfl⟩
    · cases node with
      | unary op operand => exact ⟨_, _, rfl, rfl⟩
      | binary op left right => exact ⟨_, _, hworded, rfl⟩
      | member _ _ | subscript _ _ | call _ _ _ => exact hstem (by rw [hnode]; rfl)
      | assign op target value => cases hplain

/-- A call and what may be assigned to begin in the same way. -/
theorem expr_opensSubject (hw : a.Script h known) (hi : known i)
    (hnode : (a.get i).isCall ∨ (a.get i).isAssignable) :
    ∃ k rest, a.wording.expr i = k :: rest ∧ k.opensSubject := by
  have hsubject := hw.subject_opens hi
  unfold Wording.subject at hsubject
  rw [Arena.wording_node] at hsubject
  rcases hget : a.get i with node | node <;> rw [hget] at hnode hsubject
  · cases node <;> first | exact hsubject | simp [Expr.isCall, Expr.isAssignable] at hnode
  · cases node <;> first | exact hsubject | simp [Expr.isCall, Expr.isAssignable] at hnode

end Arena.Script

/-! ## Suffixes and entries -/

namespace Wording

variable {w : Wording} {x i : ExprId} {ts us : List TokenKind}

/-- What stands before suffixes stands before one, or before what is behind
them. -/
theorem Suffixes.head? (h : w.Suffixes x i ts) (us : List TokenKind) :
    (ts ++ us).head? = us.head? ∨ OpensSuffix (ts ++ us) := by
  by_cases hts : ts = []
  · exact .inl (by rw [hts, List.nil_append])
  · exact .inr (h.opens hts us)

end Wording

/-- An entry of a table: a key and a value, or a value. -/
abbrev Wording.Entry := (ExprId × ExprId) ⊕ ExprId

namespace Wording

namespace Entry

def ids : Entry → List ExprId
  | .inl (key, value) => [key, value]
  | .inr value => [value]

/-- The mark between an entry and the next. -/
def mark : Entry → Operator
  | .inl _ => .semicolon
  | .inr _ => .comma

end Entry

variable (w : Wording)

def entry : Entry → List TokenKind
  | .inl e => w.field e
  | .inr value => w.expr value

/-- Entries with their marks between them. -/
def marked : List Entry → List TokenKind
  | [] => []
  | [e] => w.entry e
  | e :: next :: rest => w.entry e ++ .operator e.mark :: marked (next :: rest)

variable {w}

theorem marked_cons {e : Entry} {rest : List Entry} (hrest : rest ≠ []) :
    w.marked (e :: rest) = w.entry e ++ .operator e.mark :: w.marked rest := by
  obtain ⟨next, rest, rfl⟩ := List.exists_cons_of_ne_nil hrest
  rfl

theorem marked_positional : ∀ values : List ExprId, w.marked (values.map .inr) = w.exprs values
  | [] => rfl
  | [value] => by simp [marked, entry, exprs, listed]
  | value :: next :: values => by
    have hrest := marked_positional (next :: values)
    rw [List.map_cons, marked_cons (by simp), hrest]
    simp [entry, Entry.mark, exprs, listed, List.intercalate_cons_cons]

/-- **The entries of a table** are written with marks between them, if
values are written with tokens. -/
theorem entries_eq_marked (t : Table) (hvalues : t.positional ≠ [] → w.exprs t.positional ≠ []) :
    w.entries t = w.marked (t.keyed.map .inl ++ t.positional.map .inr) := by
  unfold entries
  by_cases hnone : t.positional = []
  · rw [hnone, if_pos (show w.exprs [] = [] from rfl), List.append_nil, List.map_nil, List.append_nil]
    induction t.keyed with
    | nil => rfl
    | cons e rest ih =>
      cases rest with
      | nil => simp [marked, entry]
      | cons next rest =>
        have hrest : w.marked (List.map Sum.inl (e :: next :: rest)) =
            w.field e ++ .operator .semicolon :: w.marked (List.map Sum.inl (next :: rest)) := rfl
        rw [hrest, ← ih]
        simp [List.intercalate_cons_cons]
  · rw [if_neg (hvalues hnone)]
    induction t.keyed with
    | nil => simp [marked_positional]
    | cons e rest ih =>
      rw [List.map_cons, List.map_cons, List.cons_append, List.cons_append,
        marked_cons (by simp [hnone]), ← ih]
      cases rest <;> simp [entry, Entry.mark, List.intercalate_cons_cons]

end Wording

/-- No table entry with a key stands in front. -/
def NoKey (ts : List TokenKind) : Prop :=
  match ts.head?, ts.tail.head? with
  | some (.name _), some (.operator .assign) => False
  | some (.operator .leftBracket), _ => False
  | some (.keyword .function_), some (.name _) => False
  | _, _ => True

/-- **An expression is no entry with a key**, unless it is a name and an
equals sign stands behind it. -/
theorem Arena.Script.noKey {a : Arena} {h : ExprId → ℕ} {known : ExprId → Prop} {i : ExprId}
    {us : List TokenKind} (hw : a.Script h known) (hi : known i)
    (hus : us.head? ≠ some (.operator .assign)) : NoKey (a.wording.expr i ++ us) := by
  by_cases hunary : (a.get i).isUnary
  · rw [hw.worded i hi]
    generalize a.get i = e at hunary
    rcases e with x | x
    · cases hunary
    · cases x with
      | unary op operand => cases op <;> trivial
      | _ => cases hunary
  -- any other expression starts with its primary part, and only a name with
  -- nothing behind it could be taken for a key
  obtain ⟨x, _, ps, ts, hx, hts, hexpr, -⟩ := hw.exists_primary hi (by simpa using hunary)
  have hknown := hw.known_of_suffixes hi hts
  rw [hexpr, List.append_assoc]
  have hnext : (ts ++ us).head? ≠ some (.operator .assign) := by
    rcases hts.head? us with hhead | ⟨k, hhead, hk⟩ <;> rw [hhead]
    · exact hus
    · rintro hassign
      obtain rfl := Option.some.inj hassign
      cases hk
  cases hx with
  | parenthesized _ => trivial
  | atom hatom =>
    have hplain := hw.plain x hknown
    have hnode := hw.node x hknown
    rw [Arena.wording_node] at hatom
    rw [hw.worded x hknown]
    generalize a.get x = e at hplain hnode hatom
    rcases e with e | e
    · cases e with
      | number value =>
        have hnumber : a.wording.expression (.atom (.number value)) = [.number value] :=
          Fragment.tokens_number hnode.1 hnode.2
        rw [hnumber]
        trivial
      | name text =>
        show NoKey (.name text :: (ts ++ us))
        unfold NoKey
        rw [List.head?_cons, List.tail_cons]
        split <;> simp_all
      | boolean value => cases value <;> trivial
      | element e => cases hplain
      | func func =>
        obtain ⟨params, variadic, body⟩ := func
        trivial
      | _ => trivial
    · cases hatom

/-! ## What ends an expression -/

/-- No suffix stands in front. -/
def NoSuffix (us : List TokenKind) : Prop := ∀ k ∈ us.head?, k.opensSuffix = false

/-- An expression of operators that bind at least as tightly ends here. -/
structure Ends (minimum : ℕ) (us : List TokenKind) : Prop where
  suffix : NoSuffix us
  operator : Grammar.continuation? minimum us.head? = none

theorem ends_nil (minimum : ℕ) : Ends minimum [] := ⟨by rintro _ ⟨⟩, rfl⟩

theorem ends_cons (minimum : ℕ) {k : TokenKind} (hk : k.endsExpression) (us : List TokenKind) :
    Ends minimum (k :: us) := by
  cases k with
  | keyword word => exact ⟨by rintro _ ⟨⟩; rfl, rfl⟩
  | name text => exact ⟨by rintro _ ⟨⟩; rfl, rfl⟩
  | operator op => cases op <;> first | exact ⟨by rintro _ ⟨⟩; rfl, rfl⟩ | cases hk
  | _ => cases hk

/-- The precedence of a binary operation. -/
def BinaryOp.precedence (op : BinaryOp) : ℕ := op.operator.precedence?.getD 0

/-- The precedence its right operand is read at. -/
def BinaryOp.rightPrecedence (op : BinaryOp) : ℕ :=
  if op.operator.isRightAssociative then op.precedence else op.precedence + 1

theorem BinaryOp.rightPrecedence_le (op : BinaryOp) : op.rightPrecedence ≤ 8 := by
  cases op <;> decide

theorem noSuffix_operator (op : BinaryOp) (us : List TokenKind) :
    NoSuffix (.operator op.operator :: us) := by
  rintro _ ⟨⟩
  cases op <;> rfl

/-- Every binary operator goes on from an expression in parentheses. -/
theorem continuation?_operator (op : BinaryOp) : Grammar.continuation? 1 (some (.operator op.operator)) =
    some (op, op.operator, op.precedence) := by
  cases op <;> rfl

/-- **Only a power binds tighter** than a unary operation. -/
theorem continuation?_unary {us : List TokenKind} (hus : us.head? ≠ some (.operator .caret)) :
    Grammar.continuation? Grammar.unaryOperandPrecedence us.head? = none := by
  cases us with
  | nil => rfl
  | cons k us =>
    rw [List.head?_cons] at hus ⊢
    cases k with
    | operator op => cases op <;> first | rfl | exact absurd rfl hus
    | _ => rfl

/-- No power goes on from what ends at a precedence up to that of one. -/
theorem Ends.ne_caret {minimum : ℕ} {us : List TokenKind} (h : Ends minimum us)
    (hm : minimum ≤ 8) : us.head? ≠ some (.operator .caret) := by
  intro hcaret
  have hnone := h.operator
  rw [hcaret] at hnone
  have hpower : (if 8 < minimum then none else some (BinaryOp.pow, Operator.caret, 8)) = none := hnone
  rw [if_neg (by omega)] at hpower
  cases hpower

end LuaSugar
