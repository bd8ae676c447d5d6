import Mathlib
import LuaSugar.Parser
/-!
# Grammars that refuse more

A parser **refines** another if it answers as the other does whenever it
answers. A grammar that refines another does so in whatever is parsed with
it: every parser hands on what the recursive ones answer and fails where
they fail.
-/

namespace LuaSugar

namespace Parser

variable {α β σ : Type}

/-- What `p` answers, `q` answers. -/
def Refines (p q : Parser α) : Prop := ∀ s r, p s = .ok r → q s = .ok r

namespace Refines

/-- A parser answers what it answers itself. -/
theorem refl (p : Parser α) : p.Refines p := fun _ _ h => h

/-- **One after the other**: parsers refine others if the first does and, for
each of its answers, what follows does. -/
theorem bind {p q : Parser α} {f g : α → Parser β} (hp : p.Refines q) (hf : ∀ v, (f v).Refines (g v)) :
    (p >>= f).Refines (q >>= g) := by
  intro s r h
  change (p s >>= fun x => f x.1 x.2) = .ok r at h
  show (q s >>= fun x => g x.1 x.2) = .ok r
  cases hrun : p s with
  | error e =>
    rw [hrun] at h
    cases h
  | ok x =>
    rw [hrun] at h
    rw [hp s x hrun]
    exact hf x.1 x.2 r h

theorem map {p q : Parser α} (f : α → β) (hp : p.Refines q) : Refines (f <$> p) (f <$> q) := by
  rw [map_eq_pure_bind, map_eq_pure_bind]
  exact hp.bind fun _ => .refl _

/-- A choice that does not depend on the parsers. -/
theorem ite {c : Prop} [Decidable c] {p p' q q' : Parser α} (h : p.Refines q) (h' : p'.Refines q') :
    Refines (if c then p else p') (if c then q else q') := by
  split
  · exact h
  · exact h'

/-- **Loops** refine each other if their steps do, whatever bound they are given. -/
theorem loop {step step' : σ → Parser (σ ⊕ α)} (h : ∀ v, (step v).Refines (step' v)) (start : σ) :
    (Parser.loop step start).Refines (Parser.loop step' start) := by
  have hwithin : ∀ count v, (loopWithin step count v).Refines (loopWithin step' count v) := by
    intro count
    induction count with
    | zero => exact fun _ => .refl _
    | succ count ih =>
      refine fun v => (h v).bind fun r => ?_
      cases r with
      | inl next => exact ih next
      | inr result => exact .refl _
  exact fun s => hwithin _ start s

/-- Items between commas, of which one at least. -/
theorem commaSeparated {item item' : Parser α} (h : item.Refines item') :
    (Parser.commaSeparated item).Refines (Parser.commaSeparated item') :=
  h.bind fun _ => loop (fun _ => (refl _).bind fun _ => .ite (h.bind fun _ => .refl _) (.refl _)) _

end Refines

end Parser

/-- The recursive parsers refine others. -/
structure Grammar.Refines (g g' : Grammar) : Prop where
  expression : ∀ n, (g.expression n).Refines (g'.expression n)
  assignment : g.assignment.Refines g'.assignment
  element : g.element.Refines g'.element
  block : ∀ stop, (g.block stop).Refines (g'.block stop)
  ifArm : ∀ line, (g.ifArm line).Refines (g'.ifArm line)

namespace Grammar.Refines

open LuaSugar.Parser

variable {g g' : Grammar} (h : g.Refines g')
include h

/-! ## Expressions -/

theorem expressionList : g.expressionList.Refines g'.expressionList :=
  .commaSeparated (h.expression 1)

theorem funcBody : g.funcBody.Refines g'.funcBody :=
  .bind (.refl _) fun _ => .bind (h.block _) fun _ => .refl _

/-- An arrow and the expression behind it, which is returned. -/
theorem lambda (line : ℕ) : (g.lambda line).Refines (g'.lambda line) :=
  .bind (.refl _) fun _ => .bind (h.expression 1) fun _ => .refl _

/-- An entry of a table: a named one, one with a key in brackets, a method, or
a positional one. The tokens ahead say which, so both grammars go the same
way. -/
theorem tableEntry (t : Table) : (g.tableEntry t).Refines (g'.tableEntry t) := by
  refine .bind (.refl _) fun kinds => ?_
  split
  · exact .bind (.refl _) fun _ => .bind (.refl _) fun _ => .bind (h.expression 1) fun _ => .refl _
  · exact .bind (.refl _) fun _ => .bind (h.expression 1) fun _ => .bind (.refl _) fun _ =>
      .bind (.refl _) fun _ => .bind (h.expression 1) fun _ => .refl _
  · exact .bind (.refl _) fun _ => .bind (.refl _) fun _ => .bind h.funcBody fun _ => .refl _
  · exact .bind (h.expression 1) fun _ => .refl _

theorem table : g.table.Refines g'.table :=
  .bind (.refl _) fun _ => .bind (.loop (fun t => .bind (.refl _) fun _ => .ite (.refl _)
    (.bind (h.tableEntry t) fun _ => .refl _)) _) fun _ => .refl _

/-- What a property is set to, behind an equals sign; without one it is `true`. -/
theorem propertyValue (property : String) :
    (g.propertyValue property).Refines (g'.propertyValue property) := by
  refine .bind (.refl _) fun _ => .ite (.bind (.refl _) fun kind => ?_) (.refl _)
  split
  · exact .refl _
  · exact .bind (.refl _) fun _ => .bind (h.expression 1) fun _ => .refl _
  · exact .refl _

theorem properties : g.properties.Refines g'.properties := by
  refine .loop (fun found => .bind (.refl _) fun kind => ?_) _
  split
  · exact .bind (.refl _) fun _ => .bind (h.propertyValue _) fun _ => .refl _
  · exact .refl _

/-- What stands between two tags, up to the second. -/
theorem elementChildren (name : String) :
    (g.elementChildren name).Refines (g'.elementChildren name) := by
  refine .loop (fun found => .bind (.refl _) fun kinds => ?_) _
  split
  · exact .bind (.refl _) fun _ => .bind (h.expression 1) fun _ => .refl _
  · exact .refl _
  · exact .bind h.element fun _ => .refl _
  · exact .refl _

theorem elementLiteral : g.elementLiteral.Refines g'.elementLiteral :=
  .bind (.refl _) fun _ => .bind (.refl _) fun _ => .bind h.properties fun _ => .bind (.refl _) fun _ =>
    .ite (.refl _) (.bind (.refl _) fun _ => .bind (h.elementChildren _) fun _ => .refl _)

theorem primary : g.primary.Refines g'.primary := by
  refine .bind (.refl _) fun line => .bind (.refl _) fun kind => ?_
  split
  case h_1 => exact .bind (.refl _) fun _ => .bind h.assignment fun _ => .refl _
  case h_2 => exact h.table
  case h_3 => exact .bind h.elementLiteral fun _ => .refl _
  case h_4 => exact h.lambda line
  case h_12 => exact .bind (.refl _) fun _ => .bind h.funcBody fun _ => .refl _
  all_goals exact .refl _

theorem parenthesizedArguments : g.parenthesizedArguments.Refines g'.parenthesizedArguments :=
  .bind (.refl _) fun _ => .bind (.refl _) fun _ => .ite (.refl _)
    (.bind h.expressionList fun _ => .refl _)

theorem callArguments : g.callArguments.Refines g'.callArguments := by
  refine .bind (.refl _) fun kind => ?_
  split
  · exact .refl _
  · exact .bind h.table fun _ => .refl _
  · exact h.parenthesizedArguments

/-- One suffix of an expression, if there is any: a member, a subscript, a method or a call. -/
theorem suffix (calls : Bool) (expr : ExprId) : (g.suffix calls expr).Refines (g'.suffix calls expr) := by
  refine .bind (.refl _) fun kind => ?_
  split
  · exact .refl _
  · exact .bind (.refl _) fun _ => .bind (h.expression 1) fun _ => .refl _
  · exact .bind (.refl _) fun _ => .bind (.refl _) fun _ => .bind h.callArguments fun _ => .refl _
  · exact .bind h.callArguments fun _ => .refl _
  · exact .bind h.callArguments fun _ => .refl _
  · exact .bind h.callArguments fun _ => .refl _
  · exact .refl _

theorem suffixed (calls : Bool) : (g.suffixed calls).Refines (g'.suffixed calls) :=
  .bind h.primary fun _ => .loop (h.suffix calls) _

/-- Prefix operators, which may be many, in front of one expression. -/
theorem unary : g.unary.Refines g'.unary := by
  refine .bind (.refl _) fun kind => ?_
  split
  · split
    · exact .bind (.refl _) fun _ => .bind (h.expression _) fun _ => .refl _
    · exact h.suffixed true
  · exact h.suffixed true

/-- Operations that bind at least as tightly as asked for. -/
theorem operation (minimum : ℕ) : (g.operation minimum).Refines (g'.operation minimum) := by
  refine .bind h.unary fun left => .loop (fun left => .bind (.refl _) fun kind => ?_) left
  split
  · exact .bind (.refl _) fun _ => .bind (h.expression _) fun _ => .refl _
  · exact .refl _

/-- What stands in parentheses or is returned: an expression, or a target with a value. -/
theorem assignmentOrExpression : g.assignmentOrExpression.Refines g'.assignmentOrExpression := by
  refine .bind (h.operation 1) fun target => .bind (.refl _) fun kind => ?_
  split
  · exact .bind (.refl _) fun _ => .bind h.assignment fun _ => .refl _
  · exact .refl _

/-! ## Statements -/

theorem conditionalArm (line : ℕ) : (g.conditionalArm line).Refines (g'.conditionalArm line) :=
  .bind (h.operation 1) fun _ => .bind (.refl _) fun _ => .bind (h.block _) fun _ =>
    .bind (.refl _) fun elseLine => .bind (.refl _) fun _ =>
      .ite (.bind (h.ifArm elseLine) fun _ => .refl _)
        (.bind (.refl _) fun _ => .ite (.bind (h.block _) fun _ => .refl _) (.refl _))

/-- The body of a loop. -/
theorem loopBody (k : Block → StmtKind) :
    Parser.Refines (do expectKeyword .do_; let body ← g.block .endWord; pure (k body))
      (do expectKeyword .do_; let body ← g'.block .endWord; pure (k body)) :=
  .bind (.refl _) fun _ => .bind (h.block _) fun _ => .refl _

/-- Both kinds of loop. Which one it is shows behind the first name. -/
theorem forLoop : g.forLoop.Refines g'.forLoop := by
  refine .bind (.refl _) fun _ => .bind (.refl _) fun _ => .ite ?_ (.bind (.refl _) fun _ => ?_)
  · exact .bind (h.expression 1) fun _ => .bind (.refl _) fun _ => .bind (h.expression 1) fun _ =>
      .bind (.refl _) fun _ => .ite (.bind (.map _ (h.expression 1)) fun _ => h.loopBody _) (h.loopBody _)
  · have hiterators (names : List String) : Parser.Refines
        (do
          expectKeyword .in_
          let iterators ← g.expressionList
          expectKeyword .do_
          let body ← g.block .endWord
          pure (StmtKind.forGeneric names iterators body))
        (do
          expectKeyword .in_
          let iterators ← g'.expressionList
          expectKeyword .do_
          let body ← g'.block .endWord
          pure (.forGeneric names iterators body)) :=
      .bind (.refl _) fun _ => .bind h.expressionList fun _ => h.loopBody _
    exact .ite (.bind (.refl _) fun _ => hiterators _) (hiterators _)

theorem localDeclaration : g.localDeclaration.Refines g'.localDeclaration :=
  .bind (.refl _) fun _ => .ite (.bind (.refl _) fun _ => .bind h.funcBody fun _ => .refl _)
    (.bind (.refl _) fun _ => .bind (.refl _) fun _ =>
      .ite (.bind h.expressionList fun _ => .refl _) (.refl _))

/-- Both kinds of import, of one name and of several. -/
theorem importStatement : g.importStatement.Refines g'.importStatement := by
  have hsource (binding : ImportBinding) : Parser.Refines
      (do
        if !(← eat (.name "from")) then unexpected .fromWord
        let source ← g.expression 1
        pure (StmtKind.importFrom binding source))
      (do
        if !(← eat (.name "from")) then unexpected .fromWord
        let source ← g'.expression 1
        pure (.importFrom binding source)) :=
    .bind (.refl _) fun _ => .ite
      (.bind (.refl _) fun _ => .bind (h.expression 1) fun _ => .refl _)
      (.bind (h.expression 1) fun _ => .refl _)
  refine .bind (.refl _) fun _ => .ite ?_ ?_
  · exact .bind (.refl _) fun _ => .bind (.refl _) fun _ => hsource _
  · exact .bind (.refl _) fun _ => hsource _

/-- A statement that begins with an expression. What it is, a call or one of
the assignments, shows behind that. -/
theorem expressionStatement : g.expressionStatement.Refines g'.expressionStatement := by
  have hvalues (targets : List ExprId) : Parser.Refines
      (do
        targets.forM checkAssignable
        expectOp .assign
        let values ← g.expressionList
        pure (StmtKind.assign targets values))
      (do
        targets.forM checkAssignable
        expectOp .assign
        let values ← g'.expressionList
        pure (.assign targets values)) :=
    .bind (.refl _) fun _ => .bind (.refl _) fun _ => .bind h.expressionList fun _ => .refl _
  refine .bind (h.suffixed true) fun first => .bind (.refl _) fun next => .ite ?_ ?_
  · exact .bind (.refl _) fun _ => .ite
      (.bind (.commaSeparated (h.suffixed true)) fun _ => hvalues _) (hvalues [first])
  · split
    · exact .bind (.refl _) fun _ => .bind (.refl _) fun _ => .bind (h.expression 1) fun _ => .refl _
    · exact .refl _

/-- A statement that begins with a word of the language. -/
theorem keywordStatement (line : ℕ) (word : Keyword) :
    (g.keywordStatement line word).Refines (g'.keywordStatement line word) := by
  cases word with
  | do_ => exact .bind (.refl _) fun _ => .map _ (h.block _)
  | if_ => exact .bind (.refl _) fun _ => .map _ (h.ifArm line)
  | return_ =>
    exact .bind (.refl _) fun _ => .bind (.refl _) fun _ => .ite (.refl _) (.map _ h.expressionList)
  | while_ =>
    exact .bind (.refl _) fun _ => .bind (h.expression 1) fun _ => .bind (.refl _) fun _ =>
      .map _ (h.block _)
  | repeat_ => exact .bind (.refl _) fun _ => .bind (h.block _) fun _ => .map _ (h.expression 1)
  | for_ => exact .bind (.refl _) fun _ => h.forLoop
  | function_ => exact .bind (.refl _) fun _ => .bind (.refl _) fun _ => .map _ h.funcBody
  | local_ => exact .bind (.refl _) fun _ => h.localDeclaration
  | import_ => exact .bind (.refl _) fun _ => h.importStatement
  | break_ | else_ | elseif_ | end_ | false_ | in_ | nil_ | then_ | true_ | until_ => exact .refl _

theorem intrinsicStatement : g.intrinsicStatement.Refines g'.intrinsicStatement :=
  .bind (h.suffixed false) fun _ => .bind (.refl _) fun _ =>
    .ite (.map _ h.parenthesizedArguments) (.refl _)

/-- **Any statement.** -/
theorem statement : g.statement.Refines g'.statement := by
  refine .bind (.refl _) fun line => .bind (.refl _) fun kind => ?_
  split
  · exact .bind (h.keywordStatement line _) fun _ => .refl _
  · exact .bind (.refl _) fun _ => .bind h.intrinsicStatement fun _ => .refl _
  · exact .bind h.expressionStatement fun _ => .refl _

/-- **Statements up to the end of their block**, so all that is read is refined. -/
theorem statements (stop : BlockEnd) : (g.statements stop).Refines (g'.statements stop) :=
  .loop (fun _ => .bind (.refl _) fun _ => .bind (.refl _) fun _ =>
    .ite (.refl _) (.bind h.statement fun _ => .refl _)) _

/-- **One unrolling** of what refines refines one. -/
theorem unroll : g.unroll.Refines g'.unroll :=
  ⟨h.operation, h.assignmentOrExpression, h.elementLiteral, h.statements, h.conditionalArm⟩

end Grammar.Refines

end LuaSugar
