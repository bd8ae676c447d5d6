import Mathlib
import LuaSugar.Proofs.Parser.Progress
/-!
# The grammar goes on

Each parser of the grammar takes a token or fails, but for those of lists
that may be empty; and each step of a loop that goes on takes a token. So
the recursion of the grammar is never used up: its parsers call on the
others behind a token that they have taken (`Advancing.unroll`).
-/

namespace LuaSugar

open LuaSugar.Parser

/-! ## The steps of loops -/

namespace Parser

variable {α : Type} {m bound : ℕ}

/-- One more item if there is a comma. -/
def commaStep (item : Parser α) (items : List α) : Parser (List α ⊕ List α) := do
  if ← eatOp .comma then pure (.inl (items ++ [← item])) else pure (.inr items)

theorem commaSeparated_eq (item : Parser α) :
    commaSeparated item = item >>= fun first => loop (commaStep item) [first] := rfl

/-- One more parameter, or the end of the parameters. -/
def parameterStep (closing : Operator) (names : List String) :
    Parser (List String ⊕ List String × Bool) := do
  if ← eatOp .ellipsis then
    expectOp closing
    pure (.inr (names, true))
  else
    let names := names ++ [← expectName]
    if ← eatOp closing then pure (.inr (names, false))
    else
      expectOp .comma
      pure (.inl names)

theorem parameters_eq (opening closing : Operator) : parameters opening closing = (do
    expectOp opening
    if ← eatOp closing then pure ([], false) else loop (parameterStep closing) []) := rfl

/-- A comma is read in each round, so the loop comes to its end. -/
theorem Iterates.comma {item : Parser α} (h : Advances 0 bound (fun _ => true) item) :
    Iterates bound (commaStep item) := fun _ =>
  (Advances.eatOp .comma).ifTaken ((h.behind (Nat.sub_le _ _)).andThen fun _ => .pure rfl)
    (.pure rfl)

/-- A parameter reads a name at least. -/
theorem Iterates.parameter (closing : Operator) : Iterates bound (parameterStep closing) := fun _ =>
  (Advances.eatOp .ellipsis).ifTaken ((Advances.expectOp closing).andThen fun _ => .pure rfl)
    (Advances.expectName.opens fun _ => (Advances.eatOp closing).ifTaken (.pure rfl)
      ((Advances.expectOp .comma).andThen fun _ => .pure rfl))

/-- Items between commas read as much as the first item does. -/
theorem Advances.commaSeparated {item : Parser α} (h : Advances 0 bound (fun _ => true) item) :
    Advances m bound (fun _ => true) (Parser.commaSeparated item) := by
  rw [commaSeparated_eq]
  exact h.seen.opens fun _ => (Advances.loop (Iterates.comma h) _).behind (Nat.sub_le _ _)

/-- A list of parameters reads the token that opens it. -/
theorem Advances.parameters (opening closing : Operator) :
    Advances m bound (fun _ => true) (Parser.parameters opening closing) := by
  rw [parameters_eq]
  exact (Advances.expectOp opening).opens fun _ =>
    (Advances.eatOp closing).ifTaken (.pure rfl) (.loop (Iterates.parameter closing) [])

end Parser

namespace Grammar

variable (g : Grammar)

/-- One more entry of a table, or its end. -/
def tableStep (t : Table) : Parser (Table ⊕ Table) := do
  if ← eatOp .rightBrace then pure (.inr t)
  else
    let t ← g.tableEntry t
    if ← eatOp .comma then pure (.inl t)
    else if ← eatOp .semicolon then pure (.inl t)
    else
      expectOp .rightBrace
      pure (.inr t)

/-- A table is a loop over entries between braces. -/
theorem table_eq : g.table = (do
    expectOp .leftBrace
    let t ← loop g.tableStep Table.empty
    build (Build.table t)) := rfl

/-- One more property of an element, if there is one. -/
def propertyStep (found : List (String × ExprId)) :
    Parser (List (String × ExprId) ⊕ List (String × ExprId)) := do
  match ← current with
  | some (.name property) =>
    advance
    let value ← g.propertyValue property
    pure (.inl (found ++ [(property, value)]))
  | _ => pure (.inr found)

theorem properties_eq : g.properties = loop g.propertyStep [] := rfl

/-- One more child of an element, or the start of its closing tag. -/
def childStep (name : String) (found : List ExprId) : Parser (List ExprId ⊕ List ExprId) := do
  match ← lookAhead with
  | (some (.operator .leftBrace), _) =>
    advance
    let child ← g.expression 1
    expectOp .rightBrace
    pure (.inl (found ++ [child]))
  | (some (.operator .lt), some (.operator .slash)) =>
    advance
    advance
    pure (.inr found)
  | (some (.operator .lt), _) =>
    let child ← g.element
    let child ← alloc (.atom (.element child))
    pure (.inl (found ++ [child]))
  | _ => unexpected (.elementContent name)

/-- What stands between tags is a loop over expressions, texts and elements. -/
theorem elementChildren_eq (name : String) : g.elementChildren name = loop (g.childStep name) [] :=
  rfl

/-- One more segment of a path, if there is one. -/
def pathStep (segments : List String) : Parser (List String ⊕ FunctionPath) := do
  if ← eatOp .dot then pure (.inl (segments ++ [← expectName]))
  else if ← eatOp .colon then pure (.inr ⟨segments ++ [← expectName], true⟩)
  else pure (.inr ⟨segments, false⟩)

theorem functionPath_eq : functionPath = expectName >>= fun first => loop pathStep [first] := rfl

/-- One more statement, or the end of the list. -/
def statementStep (stop : BlockEnd) (found : Block) : Parser (Block ⊕ Block) := do
  skipSemicolons
  if ← blockEnds stop then pure (.inr found) else pure (.inl (found ++ [← g.statement]))

/-- A block is a loop over statements. -/
theorem statements_eq (stop : BlockEnd) : g.statements stop = loop (g.statementStep stop) [] := rfl

/-! ## What the recursion is asked for -/

/-- The recursive parsers take a token, and stall only if there were so many
tokens to come. -/
structure Advancing (n : ℕ) (g : Grammar) : Prop where
  expression : ∀ minimum, Advances 0 n (fun _ => true) (g.expression minimum)
  assignment : Advances 0 n (fun _ => true) g.assignment
  element : Advances 0 n (fun _ => true) g.element
  ifArm : ∀ line, Advances 0 n (fun _ => true) (g.ifArm line)
  block : ∀ stop, Advances 0 n (fun _ => false) (g.block stop)

namespace Advancing

variable {g : Grammar} {m n : ℕ} (hg : g.Advancing n)
include hg

/-- An expression at least is read. -/
theorem expressionList : Advances m n (fun _ => true) g.expressionList :=
  .commaSeparated (hg.expression 1)

/-- The parameters are read before the block, which may be empty. -/
theorem funcBody : Advances m n (fun _ => true) g.funcBody :=
  (Advances.parameters .leftParen .rightParen).opens fun _ =>
    ((hg.block .endWord).behind (Nat.sub_le _ _)).andThen fun _ => .pure rfl

/-! ## Expressions -/

/-- A lambda stands behind its parameters, and its body is an expression. -/
theorem lambda (line : ℕ) : Advances m (n + 1) (fun _ => true) (g.lambda line) :=
  (Advances.parameters .pipe .pipe).opens fun _ =>
    (hg.expression 1).andThen fun _ => .alloc _

/-- An entry without a key begins with its value, so nothing stands between
the brace and the recursion. -/
theorem tableEntry (t : Table) : Advances 0 n (fun _ => false) (g.tableEntry t) := by
  refine .peekTwo fun first second => ?_
  split
  -- a named value
  · exact Advances.skip.andThen fun _ => Advances.skip.andThen fun _ =>
      (hg.expression 1).andThen fun _ => .build _
  -- a key in brackets
  · exact Advances.skip.andThen fun _ => (hg.expression 1).andThen fun _ =>
      (Advances.expectOp .rightBracket).andThen fun _ =>
        (Advances.expectOp .assign).andThen fun _ => (hg.expression 1).andThen fun _ => .pure rfl
  -- a named function
  · exact Advances.skip.andThen fun _ => Advances.skip.andThen fun _ =>
      hg.funcBody.andThen fun _ => (Advances.alloc _).andThen fun _ => .build _
  -- a value
  · exact (hg.expression 1).seen.andThen fun _ => .pure rfl

/-- An entry is read in each round, or the loop stops at the brace. -/
theorem tableStep : Iterates n g.tableStep := fun t =>
  (Advances.eatOp .rightBrace).ifTaken (.pure rfl) <| (hg.tableEntry t).andThen fun _ =>
    (Advances.eatOp .comma).ifTaken (.pure rfl) <|
      (Advances.eatOp .semicolon).ifTaken (.pure rfl) <|
        (Advances.expectOp .rightBrace).andThen fun _ => .pure rfl

/-- The brace is read before anything recurs. -/
theorem table : Advances m (n + 1) (fun _ => true) g.table := by
  rw [table_eq]
  exact (Advances.expectOp .leftBrace).opens fun _ => (Advances.loop hg.tableStep _).andThen
    fun _ => .build _

/-- A property may have no value, and then nothing is read. -/
theorem propertyValue (property : String) :
    Advances 0 n (fun _ => false) (g.propertyValue property) := by
  refine (Advances.eatOp .assign).ifTaken (.peek fun kind? => ?_) (.build _)
  split
  · exact Advances.skip.andThen fun _ => .build _
  · exact Advances.skip.andThen fun _ =>
      ((hg.expression 1).behind (Nat.sub_le _ _)).andThen fun _ =>
        (Advances.expectOp .rightBrace).andThen fun _ => .pure rfl
  · exact .unexpected _

/-- The name of a property is read in each round. -/
theorem propertyStep : Iterates (n + 1) g.propertyStep := by
  refine fun found => .peek fun kind? => ?_
  split
  · exact Advances.advance.opens fun _ => (hg.propertyValue _).andThen fun _ => .pure rfl
  · exact .pure rfl

/-- There may be no properties. -/
theorem properties : Advances m (n + 1) (fun _ => false) g.properties := by
  rw [properties_eq]
  exact .loop hg.propertyStep []

/-- A child that is an element is left to the recursion from its first token
on. -/
theorem childStep (name : String) : Iterates n (g.childStep name) := by
  refine fun found => .peekTwo fun first second => ?_
  split
  · exact Advances.skip.andThen fun _ => (hg.expression 1).andThen fun _ =>
      (Advances.expectOp .rightBrace).opens fun _ => .pure rfl
  · exact Advances.skip.andThen fun _ => Advances.skip.andThen fun _ => .pure rfl
  · exact hg.element.seen.opens fun _ => (Advances.alloc _).andThen fun _ => .pure rfl
  · exact .unexpected _

/-- There may be nothing between two tags. -/
theorem elementChildren (name : String) :
    Advances m n (fun _ => false) (g.elementChildren name) := by
  rw [elementChildren_eq]
  exact .loop (hg.childStep name) []

/-- The angle bracket is read before anything recurs. -/
theorem elementLiteral : Advances m (n + 1) (fun _ => true) g.elementLiteral := by
  refine (Advances.expectOp .lt).opens fun _ => Advances.expectName.andThen fun name =>
    (hg.properties.behind n.le_succ).andThen fun properties => ?_
  refine (Advances.eatOp .slash).ifTaken
    ((Advances.expectOp .gt).andThen fun _ => .pure rfl) ?_
  refine (Advances.expectOp .gt).andThen fun _ => (hg.elementChildren name).andThen fun children =>
    Advances.expectName.andThen fun closing => ?_
  split
  · have hfail : Advances 0 n (fun _ => false) (fail (α := Unit) (.mismatchedTag name closing)) :=
      .fail (by simp)
    exact hfail.andThen fun _ => (Advances.expectOp .gt).andThen fun _ => .pure rfl
  · exact (Advances.expectOp .gt).andThen fun _ => .pure rfl

omit hg in
/-- An atom is one token, if there is one. -/
theorem readAtom (atom : Atom) : Advances (m + 1) n (fun _ => true) (readAtom atom) :=
  Advances.advance.opens fun _ => .alloc _

/-- **A primary expression** takes a token. -/
theorem primary : Advances m (n + 1) (fun _ => true) g.primary := by
  refine Advances.line.andThen fun line => .peek fun kind? => ?_
  split
  · exact Advances.advance.opens fun _ => hg.assignment.andThen fun _ =>
      (Advances.expectOp .rightParen).andThen fun _ => .pure rfl
  · exact hg.table
  · exact hg.elementLiteral.opens fun _ => .alloc _
  · exact hg.lambda line
  · exact readAtom _
  · exact readAtom _
  · exact readAtom _
  · exact readAtom _
  · exact readAtom _
  · exact readAtom _
  · exact readAtom _
  · exact Advances.advance.opens fun _ => hg.funcBody.andThen fun _ => .alloc _
  · exact .fail (by simp)
  · exact .fail (by simp)
  · exact .fail (by simp)

/-- The parenthesis is read before anything recurs. -/
theorem parenthesizedArguments : Advances m (n + 1) (fun _ => true) g.parenthesizedArguments :=
  (Advances.expectOp .leftParen).opens fun _ => (Advances.eatOp .rightParen).ifTaken (.pure rfl)
    (hg.expressionList.andThen fun _ => (Advances.expectOp .rightParen).andThen fun _ => .pure rfl)

theorem callArguments : Advances m (n + 1) (fun _ => true) g.callArguments := by
  refine .peek fun kind? => ?_
  split
  · exact Advances.advance.opens fun _ => (Advances.build _).andThen fun _ => .pure rfl
  · exact hg.table.opens fun _ => .pure rfl
  · exact hg.parenthesizedArguments

/-- A suffix reads its first token, or the loop over suffixes stops. -/
theorem suffix (calls : Bool) : Iterates (n + 1) (g.suffix calls) := by
  refine fun expr => .peek fun kind? => ?_
  split
  · exact Advances.advance.opens fun _ => Advances.expectName.andThen fun _ => .map (.build _)
  · exact Advances.advance.opens fun _ => (hg.expression 1).andThen fun _ =>
      (Advances.expectOp .rightBracket).andThen fun _ => .map (.build _)
  · exact Advances.advance.opens fun _ => Advances.expectName.andThen fun _ =>
      (hg.callArguments.behind n.le_succ).andThen fun _ => .map (.alloc _)
  · exact hg.callArguments.opens fun _ => .map (.build _)
  · exact hg.callArguments.opens fun _ => .map (.build _)
  · exact hg.callArguments.opens fun _ => .map (.build _)
  · exact .pure rfl

/-- What suffixes follow is read first. -/
theorem suffixed (calls : Bool) : Advances m (n + 1) (fun _ => true) (g.suffixed calls) :=
  hg.primary.opens fun _ => (Advances.loop (hg.suffix calls) _).behind n.le_succ

/-- A prefix operator is read in front of what recurs. -/
theorem unary : Advances m (n + 1) (fun _ => true) g.unary := by
  refine .peek fun kind? => ?_
  split
  · split
    · exact Advances.advance.opens fun _ => (hg.expression _).andThen fun _ => .alloc _
    · exact hg.suffixed true
  · exact hg.suffixed true

/-- An operator is read before its right operand. -/
theorem binaryStep (minimum : ℕ) : Iterates (n + 1) (g.binaryStep minimum) := by
  refine fun left => .peek fun kind? => ?_
  cases kind? with
  | none => exact .pure rfl
  | some kind =>
    split
    · exact Advances.advance.opens fun _ => (hg.expression _).andThen fun _ => .map (.build _)
    · exact .pure rfl

theorem operation (minimum : ℕ) : Advances m (n + 1) (fun _ => true) (g.operation minimum) :=
  hg.unary.opens fun _ => (Advances.loop (hg.binaryStep minimum) _).behind n.le_succ

/-- The expression is read before what may be assigned to it. -/
theorem assignmentOrExpression : Advances m (n + 1) (fun _ => true) g.assignmentOrExpression := by
  refine (hg.operation 1).opens fun target => .peek fun kind? => ?_
  split
  · exact Advances.skip.andThen fun _ => hg.assignment.andThen fun _ => .alloc _
  · exact .pure rfl

/-! ## Statements -/

omit hg in
/-- A check reads nothing. -/
theorem checkAssignable (target : ExprId) :
    Advances m n (fun _ => false) (checkAssignable target) := by
  refine Advances.get.andThen fun s => ?_
  split
  · exact .pure rfl
  · exact .pure rfl
  · exact .pure rfl
  · exact .fail (by simp)

omit hg in
theorem checkAll (targets : List ExprId) :
    Advances m n (fun _ => false) (targets.forM Grammar.checkAssignable) := by
  induction targets generalizing m with
  | nil => exact .pure rfl
  | cons target targets ih => exact (checkAssignable target).andThen fun _ => ih

/-- The condition of an arm is read before its block. -/
theorem conditionalArm (line : ℕ) : Advances m (n + 1) (fun _ => true) (g.conditionalArm line) :=
  (hg.operation 1).opens fun _ => (Advances.expectKeyword .then_).andThen fun _ =>
    (hg.block .arm).andThen fun _ => Advances.line.andThen fun _ =>
      (Advances.eatKeyword .elseif_).ifTaken
        (((hg.ifArm _).behind (Nat.sub_le _ _)).andThen fun _ => .pure rfl) <|
      (Advances.eatKeyword .else_).ifTaken
        (((hg.block .endWord).behind (Nat.sub_le _ _)).andThen fun _ => .pure rfl) <|
      (Advances.expectKeyword .end_).andThen fun _ => .pure rfl

/-- The word is read already, so nothing need be read here. -/
theorem forLoop : Advances 0 n (fun _ => false) g.forLoop := by
  refine Advances.expectName.andThen fun first => (Advances.eatOp .assign).ifEither ?_ ?_
  -- over numbers, with or without a step
  · have hbody : ∀ start limit step, Advances 0 n (fun _ => false) (do
        expectKeyword .do_
        let body ← g.block .endWord
        pure (StmtKind.forNumeric first start limit step body)) := fun _ _ _ =>
      (Advances.expectKeyword .do_).andThen fun _ => (hg.block .endWord).andThen fun _ => .pure rfl
    have hstep : Advances 0 n (fun _ => false) (some <$> g.expression 1) :=
      .map ((hg.expression 1).behind le_rfl)
    exact (hg.expression 1).andThen fun start => (Advances.expectOp .comma).andThen fun _ =>
      (hg.expression 1).andThen fun limit => (Advances.eatOp .comma).ifEither
        (hstep.andThen fun step => hbody start limit step) (hbody start limit none)
  -- over iterators
  · have hbody : ∀ more, Advances 0 n (fun _ => false) (do
        expectKeyword .in_
        let iterators ← g.expressionList
        expectKeyword .do_
        let body ← g.block .endWord
        pure (StmtKind.forGeneric (first :: more) iterators body)) := fun _ =>
      (Advances.expectKeyword .in_).andThen fun _ => hg.expressionList.andThen fun _ =>
        (Advances.expectKeyword .do_).andThen fun _ =>
          (hg.block .endWord).andThen fun _ => .pure rfl
    exact (Advances.eatOp .comma).ifEither
      ((Advances.commaSeparated Advances.expectName).andThen hbody) (hbody [])

omit hg in
/-- A dot is read with each name of a path. -/
theorem pathStep : Iterates n Grammar.pathStep := fun _ =>
  (Advances.eatOp .dot).ifTaken (Advances.expectName.andThen fun _ => .pure rfl) <|
    (Advances.eatOp .colon).ifTaken (Advances.expectName.andThen fun _ => .pure rfl) (.pure rfl)

omit hg in
theorem functionPath : Advances m n (fun _ => true) Grammar.functionPath := by
  rw [functionPath_eq]
  exact Advances.expectName.opens fun _ => (Advances.loop pathStep _).behind (Nat.sub_le _ _)

theorem localDeclaration : Advances 0 n (fun _ => false) g.localDeclaration := by
  refine (Advances.eatKeyword .function_).ifEither ?_ ?_
  · exact Advances.expectName.andThen fun _ => hg.funcBody.andThen fun _ => .pure rfl
  · exact (Advances.commaSeparated Advances.expectName).andThen fun names =>
      (Advances.eatOp .assign).ifEither (hg.expressionList.andThen fun _ => .pure rfl) (.pure rfl)

/-- The word is read before, as for every statement of a word. -/
theorem importStatement : Advances 0 n (fun _ => false) g.importStatement := by
  have hsource : ∀ binding, Advances 0 n (fun _ => false) (do
      if !(← eat (.name "from")) then unexpected .fromWord
      let source ← g.expression 1
      pure (StmtKind.importFrom binding source)) := by
    refine fun binding => (Advances.eat _).andThen fun found => ?_
    split
    · exact (Advances.unexpected _ : Advances 0 n (fun _ => false) _).andThen fun _ =>
        (hg.expression 1).andThen fun _ => .pure rfl
    · exact (hg.expression 1).andThen fun _ => .pure rfl
  refine (Advances.eatOp .leftBrace).ifEither ?_ ?_
  · exact (Advances.commaSeparated Advances.expectName).andThen fun names =>
      (Advances.expectOp .rightBrace).andThen fun _ => hsource _
  · have hname : Advances 0 n (fun _ => false) (ImportBinding.default <$> expectName) :=
      .map (Advances.expectName.behind le_rfl)
    exact hname.andThen fun _ => hsource _

/-- **A statement without a word** reads its expression. -/
theorem expressionStatement : Advances m (n + 1) (fun _ => true) g.expressionStatement := by
  refine (hg.suffixed true).opens fun first => .peek fun next => ?_
  split
  · have hvalues : ∀ more, Advances 0 n (fun _ => false) (do
        (first :: more).forM Grammar.checkAssignable
        expectOp .assign
        let values ← g.expressionList
        pure (StmtKind.assign (first :: more) values)) := fun more =>
      (checkAll _).andThen fun _ => (Advances.expectOp .assign).andThen fun _ =>
        hg.expressionList.andThen fun _ => .pure rfl
    exact (Advances.eatOp .comma).ifEither
      (((Advances.commaSeparated (hg.suffixed true)).behind n.le_succ).andThen hvalues) (hvalues [])
  · split
    · exact (checkAssignable first).andThen fun _ => Advances.skip.andThen fun _ =>
        (hg.expression 1).andThen fun _ => .pure rfl
    · refine Advances.get.andThen fun s => ?_
      split
      · exact .pure rfl
      · exact .fail (by simp)

/-- A statement that begins with a keyword reads that, if it is one. -/
theorem keywordStatement (line : ℕ) (word : Keyword) :
    Advances 1 (n + 1) (fun _ => true) (g.keywordStatement line word) := by
  unfold Grammar.keywordStatement
  split
  · exact Advances.advance.opens fun _ => .map (hg.block .endWord)
  · exact Advances.advance.opens fun _ => .pure rfl
  · exact Advances.advance.opens fun _ => .map ((hg.ifArm line).behind le_rfl)
  · refine Advances.advance.opens fun _ => .peek fun kind? => ?_
    split
    · exact .pure rfl
    · exact .map (hg.expressionList.behind le_rfl)
  · exact Advances.advance.opens fun _ => (hg.expression 1).andThen fun _ =>
      (Advances.expectKeyword .do_).andThen fun _ => .map (hg.block .endWord)
  · exact Advances.advance.opens fun _ => (hg.block .untilWord).andThen fun _ =>
      .map ((hg.expression 1).behind le_rfl)
  · exact Advances.advance.opens fun _ => hg.forLoop
  · exact Advances.advance.opens fun _ => functionPath.andThen fun _ =>
      .map (hg.funcBody.behind le_rfl)
  · exact Advances.advance.opens fun _ => hg.localDeclaration
  · exact Advances.advance.opens fun _ => hg.importStatement
  · exact .fail (by simp)

theorem intrinsicStatement : Advances 0 n (fun _ => false) g.intrinsicStatement := by
  refine ((hg.suffixed false).behind n.le_succ).andThen fun expr => .peek fun kind? => ?_
  split
  · exact .map (hg.parenthesizedArguments.behind n.le_succ)
  · exact .pure rfl

/-- **A statement** takes a token. -/
theorem statement : Advances m (n + 1) (fun _ => true) g.statement := by
  refine Advances.line.andThen fun line => .peek fun kind? => ?_
  split
  · exact (hg.keywordStatement line _).opens fun _ => .pure rfl
  · exact Advances.advance.opens fun _ => hg.intrinsicStatement.andThen fun _ => .pure rfl
  · exact hg.expressionStatement.opens fun _ => .pure rfl

omit hg in
/-- There may be no semicolons. -/
theorem skipSemicolons : Advances m n (fun _ => false) Grammar.skipSemicolons := by
  intro s _
  have hsuffix := s.rest.dropWhile_suffix (p := fun t => t.kind == .operator .semicolon)
  exact ⟨hsuffix, hsuffix.length_le, rfl⟩

omit hg in
/-- No token need be read where a block ends. -/
theorem blockEnds (stop : BlockEnd) : Advances m n (fun _ => false) (Grammar.blockEnds stop) := by
  refine .peek fun kind? => ?_
  split
  all_goals first
    | exact .pure rfl
    | exact .unexpected _
    | exact Advances.skip.andThen fun _ => .pure rfl

/-- **A statement is read in each round**, so a block comes to its end. -/
theorem statementStep (stop : BlockEnd) : Iterates (n + 1) (g.statementStep stop) := fun _ =>
  skipSemicolons.andThen fun _ => (blockEnds stop).andThen fun ends => match ends with
    | true => .pure rfl
    | false => hg.statement.opens fun _ => .pure rfl

theorem statements (stop : BlockEnd) :
    Advances m (n + 1) (fun _ => false) (g.statements stop) := by
  rw [statements_eq]
  exact .loop (hg.statementStep stop) []

/-! ## The recursion -/

/-- **One more level**: the parsers of an unrolled grammar call on the others
behind a token they have taken. -/
theorem unroll : g.unroll.Advancing (n + 1) where
  expression := hg.operation
  assignment := hg.assignmentOrExpression
  element := hg.elementLiteral
  ifArm := hg.conditionalArm
  block := hg.statements

end Advancing

/-- A grammar that is not unrolled reads nothing, since it fails. -/
theorem stalled_advancing : stalled.Advancing 0 := by
  have hstalled : ∀ {α : Type} {goes : α → Bool}, Advances 0 0 goes (fail .stalled) :=
    fun s _ => ⟨⟨s, .refl s, rfl⟩, fun _ => Nat.zero_le _⟩
  exact ⟨fun _ => hstalled, hstalled, hstalled, fun _ => hstalled, fun _ => hstalled⟩

/-- **Every level** stalls only if there are as many tokens. -/
theorem level_advancing (n : ℕ) : (level n).Advancing n := by
  induction n with
  | zero => exact stalled_advancing
  | succ n ih => exact ih.unroll

/-- The parsers that take a token, and the steps of loops that take one each
if they go on. Values, and what stands in a table or between tags, are read
behind a token that opens them, so `n` levels are enough for `n` tokens. -/
structure GoesOn (n : ℕ) (g : Grammar) : Prop where
  statement : Advances 0 (n + 1) (fun _ => true) g.statement
  primary : Advances 0 (n + 1) (fun _ => true) g.primary
  suffixes : ∀ calls, Iterates (n + 1) (g.suffix calls)
  operators : ∀ minimum, Iterates (n + 1) (g.binaryStep minimum)
  entries : Iterates n g.tableStep
  properties : Iterates (n + 1) g.propertyStep
  children : ∀ name, Iterates n (g.childStep name)
  names : Iterates (n + 1) (commaStep expectName)
  values : Iterates n (commaStep (g.expression 1))
  targets : Iterates (n + 1) (commaStep (g.suffixed true))
  parameters : ∀ closing, Iterates (n + 1) (parameterStep closing)
  paths : Iterates (n + 1) pathStep
  statements : ∀ stop, Iterates (n + 1) (g.statementStep stop)

theorem Advancing.goesOn {g : Grammar} {n : ℕ} (hg : g.Advancing n) : g.GoesOn n where
  statement := hg.statement
  primary := hg.primary
  suffixes := hg.suffix
  operators := hg.binaryStep
  entries := hg.tableStep
  properties := hg.propertyStep
  children := hg.childStep
  names := .comma Advances.expectName
  values := .comma (hg.expression 1)
  targets := .comma (hg.suffixed true)
  parameters := Iterates.parameter
  paths := pathStep
  statements := hg.statementStep

/-- Nothing but the last token ends the list of a whole text. -/
theorem leaves_blockEnds_tokens (s : ParseState) :
    Leaves True (blockEnds .tokens) (fun ends s' => ends → s'.rest = []) s := by
  unfold blockEnds
  rw [leaves_bind, leaves_current]
  cases hkind : s.kind? with
  | none => exact fun _ => List.head?_eq_none_iff.1 (Option.map_eq_none_iff.1 hkind)
  | some kind => exact fun h => nomatch h

/-- A whole text is read to its last token, or not at all. -/
theorem leaves_statements_tokens (g : Grammar) (s : ParseState) :
    Leaves True (g.statements .tokens) (fun _ s' => s'.rest = []) s := by
  rw [statements_eq]
  refine Leaves.loop (I := fun _ _ => True) (fun found s _ => ?_) trivial
  have hskip : Leaves True skipSemicolons (fun _ _ => True) s := trivial
  unfold statementStep
  rw [leaves_bind]
  refine hskip.mono fun _ s _ => ?_
  rw [leaves_bind]
  refine (leaves_blockEnds_tokens s).mono fun ends s hends => ?_
  cases ends with
  | true => exact hends rfl
  | false =>
    rw [if_neg Bool.false_ne_true, leaves_bind]
    unfold Leaves
    split <;> trivial

end Grammar

/-! ## Whole texts -/

/-- Before the first token of a text. -/
def ParseState.start (tokens : List Token) : ParseState :=
  ⟨significant tokens, ((significant tokens).getLast?.map Token.line).getD 1, .empty⟩

/-- The statements of a text, and what is left behind them. -/
def readText (tokens : List Token) : Except ParseError (Block × ParseState) :=
  (Grammar.level (significant tokens).length).statements .tokens (.start tokens)

/-- A parse is a reading of the text with what it left. -/
theorem parse_eq (tokens : List Token) :
    parse tokens = (readText tokens).map fun (body, s) => ⟨s.arena, body⟩ := by
  unfold parse readText
  dsimp only [StateT.run, ParseState.start]
  split <;> rename_i hrun <;> rw [hrun] <;> rfl

/-- There are as many levels as tokens, and the statements stall only if
there is one token more. -/
theorem readText_goes_on (tokens : List Token) : match readText tokens with
    | .ok (_, s) => s.rest = []
    | .error e => e.fault ≠ .stalled ∧
        ∃ s, (ParseState.start tokens).Takes 0 s ∧ e.line = s.here := by
  have hadvances := (Grammar.level_advancing (significant tokens).length).statements (m := 0)
    .tokens (.start tokens) (Nat.zero_le _)
  have hleaves := Grammar.leaves_statements_tokens (Grammar.level (significant tokens).length)
    (.start tokens)
  unfold Leaves at hleaves
  unfold readText
  cases hrun : (Grammar.level (significant tokens).length).statements .tokens (.start tokens) with
  | ok r =>
    rw [hrun] at hleaves
    exact hleaves
  | error e =>
    rw [hrun] at hadvances
    exact ⟨fun hstalled => Nat.not_succ_le_self _ (hadvances.stalls hstalled), hadvances.line⟩

/-- **Parsing goes on.** Whatever the tokens, and wherever among them, a
statement or a primary expression takes a token or fails, and so does each
step of a loop that goes on; the places reached are ends of the tokens. A
text is read to its last token, or there is a fault at a place that was
reached, and never for want of steps. -/
theorem parse_goes_on :
    (∀ n, (Grammar.level n).Advancing n ∧ (Grammar.level n).GoesOn n) ∧
    ∀ tokens : List Token,
      (∃ body s, readText tokens = .ok (body, s) ∧ s.rest = [] ∧
        parse tokens = .ok ⟨s.arena, body⟩) ∨
      ∃ e s, parse tokens = .error e ∧ e.fault ≠ .stalled ∧
        (ParseState.start tokens).Takes 0 s ∧ e.line = s.here := by
  refine ⟨fun n => ⟨Grammar.level_advancing n, (Grammar.level_advancing n).goesOn⟩,
    fun tokens => ?_⟩
  have hread := readText_goes_on tokens
  rw [parse_eq]
  cases hrun : readText tokens with
  | ok r =>
    rw [hrun] at hread
    exact .inl ⟨r.1, r.2, rfl, hread, rfl⟩
  | error e =>
    rw [hrun] at hread
    obtain ⟨hfault, s, hs, hline⟩ := hread
    exact .inr ⟨e, s, rfl, hfault, hs, hline⟩

end LuaSugar
