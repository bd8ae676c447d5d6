import Mathlib
import LuaSugar.Parser
import LuaSugar.Proofs.Syntax.Bare
/-!
# Parsing does not look at lines

A parser copies the lines of tokens into statements, arms and errors, and
does nothing else with them. So on tokens without lines and spellings it
does the same and answers the bare syntax: `Bares f p q` says that `q`
does there what `p` does on the tokens as they are, and answers the image
under `f`.
-/

namespace LuaSugar

/-- A token of which only the kind is left. -/
def Token.bare (t : Token) : Token := ⟨t.kind, 0, .plain⟩

/-- A syntactic fault without its line. -/
def ParseError.bare (e : ParseError) : ParseError := { e with line := 0 }

def ParseState.bare (s : ParseState) : ParseState := ⟨s.rest.map Token.bare, 0, s.arena.bare⟩

namespace Parser

variable {α β γ δ σ τ : Type}

/-- `q` does without lines what `p` does with them. -/
def Bares (f : α → β) (p : Parser α) (q : Parser β) : Prop :=
  ∀ s : ParseState, q s.bare = match p s with
    | .ok (v, s') => .ok (f v, s'.bare)
    | .error e => .error e.bare

namespace Bares

/-- A value that is the image of another. -/
theorem pure {f : α → β} {v : α} {v' : β} (h : v' = f v) : Bares f (Pure.pure v) (Pure.pure v') := by
  subst h
  exact fun _ => rfl

/-- **One after the other**: what follows is mirrored for each value of the first. -/
theorem bind {f : α → β} {g : γ → δ} {p : Parser α} {q : Parser β} {k : α → Parser γ}
    {l : β → Parser δ} (hp : Bares f p q) (hk : ∀ v, Bares g (k v) (l (f v))) :
    Bares g (p >>= k) (q >>= l) := by
  intro s
  show (q s.bare >>= fun r => l r.1 r.2) = match (p s >>= fun r => k r.1 r.2) with
    | .ok (v, s') => .ok (g v, s'.bare)
    | .error e => .error e.bare
  rw [hp s]
  cases p s with
  | error e => rfl
  | ok r => exact hk r.1 r.2

theorem map {f : α → β} {g : γ → δ} {h : α → γ} {k : β → δ} {p : Parser α} {q : Parser β}
    (hp : Bares f p q) (hk : ∀ v, k (f v) = g (h v)) : Bares g (h <$> p) (k <$> q) := by
  rw [map_eq_pure_bind, map_eq_pure_bind]
  exact hp.bind fun v => pure (hk v)

/-- A choice that does not look at lines. -/
theorem ite {f : α → β} {c : Prop} [Decidable c] {p p' : Parser α} {q q' : Parser β}
    (h : Bares f p q) (h' : Bares f p' q') :
    Bares f (if c then p else p') (if c then q else q') := by
  split
  · exact h
  · exact h'

end Bares

/-- One by one over a list. -/
theorem Bares.forM {f f' : α → Parser PUnit} {l : List α} (h : ∀ v ∈ l, Bares id (f v) (f' v)) :
    Bares id (l.forM f) (l.forM f') := by
  induction l with
  | nil => exact .pure rfl
  | cons v l ih =>
    rw [List.forall_mem_cons] at h
    exact h.1.bind fun _ => ih h.2

/-! ## Looking and reading -/

theorem bares_get : Bares ParseState.bare get get := fun _ => rfl

/-- The token ahead is the same but for its line. -/
theorem bares_current : Bares id current current := by
  rintro ⟨_ | ⟨token, rest⟩, endLine, arena⟩ <;> rfl

theorem bares_lookAhead : Bares id lookAhead lookAhead := by
  rintro ⟨_ | ⟨token, _ | ⟨token', rest⟩⟩, endLine, arena⟩ <;> rfl

/-- The line is lost: it is 0. -/
theorem bares_line : Bares (fun _ => 0) line line := by
  rintro ⟨_ | ⟨token, rest⟩, endLine, arena⟩ <;> rfl

theorem bares_advance : Bares id advance advance := by
  rintro ⟨_ | ⟨token, rest⟩, endLine, arena⟩ <;> rfl

/-- Faults are the same; an error has its line apart from them. -/
theorem bares_fail {f : α → β} (fault : ParseFault) : Bares f (fail fault) (fail fault) := by
  rintro ⟨_ | ⟨token, rest⟩, endLine, arena⟩ <;> rfl

theorem bares_unexpected {f : α → β} (what : Expectation) :
    Bares f (unexpected what) (unexpected what) :=
  bares_current.bind fun _ => bares_fail _

/-- A token is eaten for its kind, whatever its line. -/
theorem bares_eat (kind : TokenKind) : Bares id (eat kind) (eat kind) :=
  bares_current.bind fun _ => .ite (bares_advance.bind fun _ => .pure rfl) (.pure rfl)

theorem bares_expectOp (op : Operator) : Bares id (expectOp op) (expectOp op) :=
  (bares_eat _).bind fun _ => .ite (bares_unexpected _) (.pure rfl)

theorem bares_expectKeyword (word : Keyword) : Bares id (expectKeyword word) (expectKeyword word) :=
  (bares_eat _).bind fun _ => .ite (bares_unexpected _) (.pure rfl)

/-- A name is a kind of token, and so has no line. -/
theorem bares_expectName : Bares id expectName expectName := by
  refine bares_current.bind fun kind => ?_
  dsimp only [id]
  split
  · exact bares_advance.bind fun _ => .pure rfl
  · exact bares_unexpected _

/-! ## Building and repeating -/

/-- What is built, is built without lines. -/
theorem bares_build {m : Build α} {m' : Build β} {f : α → β} (h : Mirrors Arena.bare f m m') :
    Bares f (build m) (build m') := by
  intro s
  have hm := h s.arena
  show Except.ok ((m' s.arena.bare).1, (⟨_, _, (m' s.arena.bare).2⟩ : ParseState)) = _
  rw [hm]
  rfl

theorem bares_alloc (e : Expr) : Bares id (alloc e) (alloc e.bare) :=
  bares_build (Build.mirrors_alloc e)

/-- **A loop**, whose bound is what is left to read. -/
theorem bares_loop {f : σ → τ} {g : α → β} {step : σ → Parser (σ ⊕ α)} {step' : τ → Parser (τ ⊕ β)}
    (h : ∀ v, Bares (Sum.map f g) (step v) (step' (f v))) (start : σ) :
    Bares g (loop step start) (loop step' (f start)) := by
  have hwithin : ∀ count v, Bares g (loopWithin step count v) (loopWithin step' count (f v)) := by
    intro count
    induction count with
    | zero => exact fun _ => bares_fail _
    | succ count ih =>
      refine fun v => (h v).bind fun r => ?_
      cases r with
      | inl next => exact ih next
      | inr result => exact .pure rfl
  intro s
  have hlength : s.bare.rest.length = s.rest.length := List.length_map _
  show loopWithin step' (s.bare.rest.length + 1) (f start) s.bare = _
  rw [hlength]
  exact hwithin _ start s

/-- A loop over values without lines. -/
theorem bares_loop_id {step : σ → Parser (σ ⊕ α)} (h : ∀ v, Bares id (step v) (step v)) (start : σ) :
    Bares id (loop step start) (loop step start) :=
  bares_loop (f := id) (fun v => by rw [Sum.map_id_id]; exact h v) start

/-- Items without lines between commas. -/
theorem bares_commaSeparated {item : Parser α} (h : Bares id item item) :
    Bares id (commaSeparated item) (commaSeparated item) :=
  h.bind fun first => bares_loop_id (fun _ => (bares_eat _).bind fun _ =>
    .ite (h.bind fun _ => .pure rfl) (.pure rfl)) [first]

theorem bares_parameters (opening closing : Operator) :
    Bares id (parameters opening closing) (parameters opening closing) := by
  refine (bares_expectOp _).bind fun _ => (bares_eat _).bind fun _ => .ite (.pure rfl) ?_
  refine bares_loop_id (fun names => (bares_eat _).bind fun _ => .ite ?_ ?_) []
  · exact (bares_expectOp _).bind fun _ => .pure rfl
  · refine bares_expectName.bind fun _ => (bares_eat _).bind fun _ => .ite (.pure rfl) ?_
    exact (bares_expectOp _).bind fun _ => .pure rfl

end Parser

/-! ## The grammar -/

/-- The recursive parsers do not look at lines. -/
structure Grammar.Bare (g : Grammar) : Prop where
  expression : ∀ n, Parser.Bares id (g.expression n) (g.expression n)
  assignment : Parser.Bares id g.assignment g.assignment
  element : Parser.Bares id g.element g.element
  block : ∀ stop, Parser.Bares Block.bare (g.block stop) (g.block stop)
  ifArm : ∀ line, Parser.Bares IfArm.bare (g.ifArm line) (g.ifArm 0)

namespace Grammar.Bare

open LuaSugar.Parser

variable {g : Grammar} (hg : g.Bare)
include hg

/-! ## Expressions -/

theorem expressionList : Bares id g.expressionList g.expressionList :=
  bares_commaSeparated (hg.expression 1)

/-- The body of a function, which has lines, is read without them. -/
theorem funcBody : Bares FuncBody.bare g.funcBody g.funcBody :=
  (bares_parameters _ _).bind fun _ => (hg.block _).bind fun _ => .pure rfl

/-- A lambda keeps a line for the statement that it returns by; without lines it is 0. -/
theorem lambda (line : ℕ) : Bares id (g.lambda line) (g.lambda 0) :=
  (bares_parameters _ _).bind fun _ => (hg.expression 1).bind fun _ => bares_alloc _

/-- A function literal. -/
theorem function : Bares id (do alloc (.atom (.func (← g.funcBody))))
    (do alloc (.atom (.func (← g.funcBody)))) :=
  hg.funcBody.bind fun func => bares_alloc (.atom (.func func))

/-- The tokens ahead say which kind of entry it is, and their kinds are the same. -/
theorem tableEntry (t : Table) : Bares id (g.tableEntry t) (g.tableEntry t) := by
  refine bares_lookAhead.bind fun kinds => ?_
  dsimp only [id]
  split
  · exact bares_advance.bind fun _ => bares_advance.bind fun _ => (hg.expression 1).bind fun _ =>
      bares_build (Build.mirrors_pushNamed _ _ _)
  · exact bares_advance.bind fun _ => (hg.expression 1).bind fun _ => (bares_expectOp _).bind fun _ =>
      (bares_expectOp _).bind fun _ => (hg.expression 1).bind fun _ => .pure rfl
  · exact bares_advance.bind fun _ => bares_advance.bind fun _ => hg.funcBody.bind fun func =>
      (bares_alloc (.atom (.func func))).bind fun _ => bares_build (Build.mirrors_pushNamed _ _ _)
  · exact (hg.expression 1).bind fun _ => .pure rfl

theorem table : Bares id g.table g.table := by
  refine (bares_expectOp _).bind fun _ => (bares_loop_id (fun t => ?_) _).bind fun t =>
    bares_build (Build.mirrors_alloc (.atom (.table t)))
  refine (bares_eat _).bind fun _ => .ite (.pure rfl) ((hg.tableEntry t).bind fun _ => ?_)
  refine (bares_eat _).bind fun _ => .ite (.pure rfl) ((bares_eat _).bind fun _ => ?_)
  exact .ite (.pure rfl) ((bares_expectOp _).bind fun _ => .pure rfl)

theorem propertyValue (property : String) :
    Bares id (g.propertyValue property) (g.propertyValue property) := by
  refine (bares_eat _).bind fun _ => .ite (bares_current.bind fun kind => ?_) ?_
  · dsimp only [id]
    split
    · exact bares_advance.bind fun _ => bares_build (Build.mirrors_alloc (.atom (.string _)))
    · exact bares_advance.bind fun _ => (hg.expression 1).bind fun _ =>
        (bares_expectOp _).bind fun _ => .pure rfl
    · exact bares_unexpected _
  · exact bares_build (Build.mirrors_alloc (.atom (.boolean true)))

theorem properties : Bares id g.properties g.properties := by
  refine bares_loop_id (fun found => bares_current.bind fun kind => ?_) []
  dsimp only [id]
  split
  · exact bares_advance.bind fun _ => (hg.propertyValue _).bind fun _ => .pure rfl
  · exact .pure rfl

theorem elementChildren (name : String) :
    Bares id (g.elementChildren name) (g.elementChildren name) := by
  refine bares_loop_id (fun found => bares_lookAhead.bind fun kinds => ?_) []
  dsimp only [id]
  split
  · exact bares_advance.bind fun _ => (hg.expression 1).bind fun _ =>
      (bares_expectOp _).bind fun _ => .pure rfl
  · exact bares_advance.bind fun _ => bares_advance.bind fun _ => .pure rfl
  · exact hg.element.bind fun e => (bares_alloc (.atom (.element e))).bind fun _ => .pure rfl
  · exact bares_unexpected _

theorem elementLiteral : Bares id g.elementLiteral g.elementLiteral := by
  refine (bares_expectOp _).bind fun _ => bares_expectName.bind fun _ => hg.properties.bind fun _ => ?_
  refine (bares_eat _).bind fun _ => .ite ?_ ?_
  · exact (bares_expectOp _).bind fun _ => .pure rfl
  · refine (bares_expectOp _).bind fun _ => (hg.elementChildren _).bind fun _ => ?_
    refine bares_expectName.bind fun _ => ?_
    exact .ite ((bares_fail (f := id) _).bind fun _ => (bares_expectOp _).bind fun _ => .pure rfl)
      ((bares_expectOp _).bind fun _ => .pure rfl)

/-- What an expression begins with. A closure allocates a body, which loses its lines. -/
theorem primary : Bares id g.primary g.primary := by
  refine bares_line.bind fun line => bares_current.bind fun kind => ?_
  have hatom (atom : Atom) (h : (Expr.atom atom).bare = .atom atom) :
      Bares id (readAtom atom) (readAtom atom) :=
    bares_advance.bind fun _ => by simpa only [h] using bares_alloc (.atom atom)
  dsimp only [id]
  split
  · exact bares_advance.bind fun _ => hg.assignment.bind fun _ => (bares_expectOp _).bind fun _ => .pure rfl
  · exact hg.table
  · exact hg.elementLiteral.bind fun e => bares_alloc (.atom (.element e))
  · exact hg.lambda line
  · exact hatom _ rfl
  · exact hatom _ rfl
  · exact hatom _ rfl
  · exact hatom _ rfl
  · exact hatom _ rfl
  · exact hatom _ rfl
  · exact hatom _ rfl
  · exact bares_advance.bind fun _ => hg.function
  · exact bares_fail _
  · exact bares_fail _
  · exact bares_fail _

theorem parenthesizedArguments : Bares id g.parenthesizedArguments g.parenthesizedArguments :=
  (bares_expectOp _).bind fun _ => (bares_eat _).bind fun _ => .ite (.pure rfl)
    (hg.expressionList.bind fun _ => (bares_expectOp _).bind fun _ => .pure rfl)

theorem callArguments : Bares id g.callArguments g.callArguments := by
  refine bares_current.bind fun kind => ?_
  dsimp only [id]
  split
  · exact bares_advance.bind fun _ =>
      (bares_build (Build.mirrors_alloc (.atom (.string _)))).bind fun _ => .pure rfl
  · exact hg.table.bind fun _ => .pure rfl
  · exact hg.parenthesizedArguments

/-- One suffix. Whether a call goes on over a line is not asked. -/
theorem suffix (calls : Bool) (expr : ExprId) : Bares id (g.suffix calls expr) (g.suffix calls expr) := by
  have hnode (e : Arith) : Bares id ((Sum.inl : ExprId → ExprId ⊕ ExprId) <$> alloc (.arith e))
      (.inl <$> alloc (.arith e)) :=
    (bares_alloc (.arith e)).map fun _ => rfl
  refine bares_current.bind fun kind => ?_
  dsimp only [id]
  split
  · exact bares_advance.bind fun _ => bares_expectName.bind fun _ => hnode _
  · exact bares_advance.bind fun _ => (hg.expression 1).bind fun _ =>
      (bares_expectOp _).bind fun _ => hnode _
  · exact bares_advance.bind fun _ => bares_expectName.bind fun _ => hg.callArguments.bind fun _ =>
      hnode _
  · exact hg.callArguments.bind fun _ => hnode _
  · exact hg.callArguments.bind fun _ => hnode _
  · exact hg.callArguments.bind fun _ => hnode _
  · exact .pure rfl

theorem suffixed (calls : Bool) : Bares id (g.suffixed calls) (g.suffixed calls) :=
  hg.primary.bind fun head => bares_loop_id (hg.suffix calls) head

theorem unary : Bares id g.unary g.unary := by
  refine bares_current.bind fun kind => ?_
  dsimp only [id]
  split
  · split
    · exact bares_advance.bind fun _ => (hg.expression _).bind fun _ => bares_alloc (.arith _)
    · exact hg.suffixed true
  · exact hg.suffixed true

/-- Precedence is of operators, not of lines. -/
theorem operation (minimum : ℕ) : Bares id (g.operation minimum) (g.operation minimum) := by
  refine hg.unary.bind fun left => bares_loop_id (fun left => bares_current.bind fun kind => ?_) left
  dsimp only [id]
  split
  · exact bares_advance.bind fun _ => (hg.expression _).bind fun _ =>
      (bares_alloc (.arith _)).map fun _ => rfl
  · exact .pure rfl

/-- A target with a value, or an expression. -/
theorem assignmentOrExpression : Bares id g.assignmentOrExpression g.assignmentOrExpression := by
  refine (hg.operation 1).bind fun target => bares_current.bind fun kind => ?_
  dsimp only [id]
  split
  · exact bares_advance.bind fun _ => hg.assignment.bind fun _ => bares_alloc (.arith _)
  · exact .pure rfl

/-! ## Statements -/

omit hg in
theorem functionPath : Bares id functionPath functionPath := by
  refine bares_expectName.bind fun first => bares_loop_id (fun segments => ?_) [first]
  refine (bares_eat _).bind fun _ => .ite (bares_expectName.bind fun _ => .pure rfl) ?_
  exact (bares_eat _).bind fun _ => .ite (bares_expectName.bind fun _ => .pure rfl) (.pure rfl)

omit hg in
/-- Whether a node may be assigned to shows without its lines. -/
theorem checkAssignable (target : ExprId) :
    Bares id (checkAssignable target) (checkAssignable target) := by
  refine bares_get.bind fun s => ?_
  have hget : s.bare.arena.get target = (s.arena.get target).bare := s.arena.get_bare target
  rw [hget]
  rcases (s.arena.get target).bare_cases with h | ⟨func, h, h'⟩
  · rw [h]
    split
    · exact .pure rfl
    · exact .pure rfl
    · exact .pure rfl
    · exact bares_fail _
  · rw [h', h]
    exact bares_fail _

/-- An arm keeps the line of its word; without lines it is 0. -/
theorem conditionalArm (line : ℕ) : Bares IfArm.bare (g.conditionalArm line) (g.conditionalArm 0) := by
  refine (hg.operation 1).bind fun _ => (bares_expectKeyword _).bind fun _ => (hg.block _).bind fun _ => ?_
  refine bares_line.bind fun elseLine => (bares_eat _).bind fun _ => .ite ?_ ?_
  · exact (hg.ifArm elseLine).bind fun _ => .pure rfl
  · refine (bares_eat _).bind fun _ => .ite ((hg.block _).bind fun _ => .pure rfl) ?_
    exact (bares_expectKeyword _).bind fun _ => .pure rfl

/-- The body of a loop. -/
theorem loopBody {k k' : Block → StmtKind} (hk : ∀ body, k' (Block.bare body) = (k body).bare) :
    Bares StmtKind.bare (do expectKeyword .do_; let body ← g.block .endWord; pure (k body))
      (do expectKeyword .do_; let body ← g.block .endWord; pure (k' body)) :=
  (bares_expectKeyword _).bind fun _ => (hg.block _).bind fun body => .pure (hk body)

/-- Both kinds of loop, told apart behind the first name. -/
theorem forLoop : Bares StmtKind.bare g.forLoop g.forLoop := by
  refine bares_expectName.bind fun _ => (bares_eat _).bind fun _ => .ite ?_ ?_
  · refine (hg.expression 1).bind fun _ => (bares_expectOp _).bind fun _ => (hg.expression 1).bind fun _ => ?_
    refine (bares_eat _).bind fun _ => .ite ?_ (hg.loopBody fun _ => rfl)
    have hstep : Bares id (some <$> g.expression 1) (some <$> g.expression 1) :=
      (hg.expression 1).map fun _ => rfl
    exact hstep.bind fun _ => hg.loopBody fun _ => rfl
  · have hrest (names : List String) : Bares StmtKind.bare
        (do
          expectKeyword .in_
          let iterators ← g.expressionList
          expectKeyword .do_
          let body ← g.block .endWord
          pure (.forGeneric names iterators body))
        (do
          expectKeyword .in_
          let iterators ← g.expressionList
          expectKeyword .do_
          let body ← g.block .endWord
          pure (.forGeneric names iterators body)) :=
      (bares_expectKeyword _).bind fun _ => hg.expressionList.bind fun _ => hg.loopBody fun _ => rfl
    refine (bares_eat _).bind fun _ => .ite ?_ (hrest _)
    exact (bares_commaSeparated bares_expectName).bind fun _ => hrest _

theorem localDeclaration : Bares StmtKind.bare g.localDeclaration g.localDeclaration := by
  refine (bares_eat _).bind fun _ => .ite ?_ ?_
  · exact bares_expectName.bind fun _ => hg.funcBody.bind fun _ => .pure rfl
  · refine (bares_commaSeparated bares_expectName).bind fun _ => (bares_eat _).bind fun _ => ?_
    exact .ite (hg.expressionList.bind fun _ => .pure rfl) (.pure rfl)

/-- Both kinds of import, told apart by the token ahead. -/
theorem importStatement : Bares StmtKind.bare g.importStatement g.importStatement := by
  have hrest (binding : ImportBinding) : Bares StmtKind.bare
      (do
        if !(← eat (.name "from")) then unexpected .fromWord
        let source ← g.expression 1
        pure (.importFrom binding source))
      (do
        if !(← eat (.name "from")) then unexpected .fromWord
        let source ← g.expression 1
        pure (.importFrom binding source)) := by
    have hsource : Bares StmtKind.bare
        (do let source ← g.expression 1; pure (.importFrom binding source))
        (do let source ← g.expression 1; pure (.importFrom binding source)) :=
      (hg.expression 1).bind fun _ => .pure rfl
    exact (bares_eat _).bind fun _ => .ite ((bares_unexpected (f := id) _).bind fun _ => hsource) hsource
  refine (bares_eat _).bind fun _ => .ite ?_ ?_
  · exact (bares_commaSeparated bares_expectName).bind fun _ => (bares_expectOp _).bind fun _ => hrest _
  · have hname : Bares id (ImportBinding.default <$> expectName) (.default <$> expectName) :=
      bares_expectName.map fun _ => rfl
    exact hname.bind fun _ => hrest _

/-- What the statement is shows behind its first expression. -/
theorem expressionStatement : Bares StmtKind.bare g.expressionStatement g.expressionStatement := by
  refine (hg.suffixed true).bind fun first => bares_current.bind fun next => .ite ?_ ?_
  -- an assignment, to one target or to several
  · have hrest (more : List ExprId) : Bares StmtKind.bare
        (do
          (first :: more).forM Grammar.checkAssignable
          expectOp .assign
          let values ← g.expressionList
          pure (.assign (first :: more) values))
        (do
          (first :: more).forM Grammar.checkAssignable
          expectOp .assign
          let values ← g.expressionList
          pure (.assign (first :: more) values)) :=
      (Bares.forM fun target _ => checkAssignable target).bind fun _ => (bares_expectOp _).bind fun _ =>
        hg.expressionList.bind fun _ => .pure rfl
    refine (bares_eat _).bind fun _ => .ite ?_ (hrest [])
    exact (bares_commaSeparated (hg.suffixed true)).bind fun _ => hrest _
  -- an assignment with an operator, or a call
  · dsimp only [id]
    split
    · exact (checkAssignable first).bind fun _ => bares_advance.bind fun _ =>
        (hg.expression 1).bind fun _ => .pure rfl
    · refine bares_get.bind fun s => ?_
      have hget : s.bare.arena.get first = (s.arena.get first).bare := s.arena.get_bare first
      rw [hget]
      -- only a call stands alone, and lines do not say whether it is one
      rcases (s.arena.get first).bare_cases with h | ⟨func, h, h'⟩
      · rw [h]
        split
        · exact .pure rfl
        · exact bares_fail _
      · rw [h', h]
        exact bares_fail _

/-- **A statement of a word**, which is read with the line of the word. -/
theorem keywordStatement (line : ℕ) (word : Keyword) :
    Bares StmtKind.bare (g.keywordStatement line word) (g.keywordStatement 0 word) := by
  cases word with
  | do_ => exact bares_advance.bind fun _ => (hg.block _).map fun _ => rfl
  | break_ => exact bares_advance.bind fun _ => .pure rfl
  | if_ => exact bares_advance.bind fun _ => (hg.ifArm line).map fun _ => rfl
  | return_ =>
    refine bares_advance.bind fun _ => bares_current.bind fun _ => .ite (.pure rfl) ?_
    exact hg.expressionList.map fun _ => rfl
  | while_ =>
    exact bares_advance.bind fun _ => (hg.expression 1).bind fun _ => (bares_expectKeyword _).bind fun _ =>
      (hg.block _).map fun _ => rfl
  | repeat_ =>
    exact bares_advance.bind fun _ => (hg.block _).bind fun _ => (hg.expression 1).map fun _ => rfl
  | for_ => exact bares_advance.bind fun _ => hg.forLoop
  | function_ =>
    exact bares_advance.bind fun _ => functionPath.bind fun _ => hg.funcBody.map fun _ => rfl
  | local_ => exact bares_advance.bind fun _ => hg.localDeclaration
  | import_ => exact bares_advance.bind fun _ => hg.importStatement
  | else_ | elseif_ | end_ | false_ | in_ | nil_ | then_ | true_ | until_ => exact bares_fail _

theorem intrinsicStatement : Bares StmtKind.bare g.intrinsicStatement g.intrinsicStatement :=
  (hg.suffixed false).bind fun _ => bares_current.bind fun _ =>
    .ite (hg.parenthesizedArguments.map fun _ => rfl) (.pure rfl)

/-- **Any statement** is read without lines as it is with them. -/
theorem statement : Bares Stmt.bare g.statement g.statement := by
  refine bares_line.bind fun line => bares_current.bind fun kind => ?_
  dsimp only [id]
  split
  · exact (hg.keywordStatement line _).bind fun _ => .pure rfl
  · exact bares_advance.bind fun _ => hg.intrinsicStatement.bind fun _ => .pure rfl
  · exact hg.expressionStatement.bind fun _ => .pure rfl

omit hg in
theorem blockEnds (stop : BlockEnd) : Bares id (blockEnds stop) (blockEnds stop) := by
  refine bares_current.bind fun kind => ?_
  dsimp only [id]
  split
  · exact .pure rfl
  · exact bares_unexpected _
  · exact bares_unexpected _
  · exact bares_unexpected _
  · exact bares_advance.bind fun _ => .pure rfl
  · exact bares_advance.bind fun _ => .pure rfl
  · exact .pure rfl
  · exact .pure rfl
  · exact .pure rfl
  · exact .pure rfl

omit hg in
theorem skipSemicolons : Bares id skipSemicolons skipSemicolons := by
  intro s
  show Except.ok (_, _) = Except.ok (_, _)
  simp only [ParseState.bare, List.dropWhile_map]
  rfl

/-- **Statements up to the end of their block.** -/
theorem statements (stop : BlockEnd) : Bares Block.bare (g.statements stop) (g.statements stop) := by
  refine bares_loop (f := Block.bare) (fun found => ?_) []
  refine skipSemicolons.bind fun _ => (blockEnds stop).bind fun _ => .ite (.pure rfl) ?_
  exact hg.statement.bind fun s => .pure (by simp [Block.bare])

end Grammar.Bare

/-- No unrolling of the grammar looks at lines. -/
theorem Grammar.level_bare : ∀ n, (Grammar.level n).Bare
  | 0 => ⟨fun _ => Parser.bares_fail _, Parser.bares_fail _, Parser.bares_fail _,
    fun _ => Parser.bares_fail _, fun _ => Parser.bares_fail _⟩
  | n + 1 =>
    have h := level_bare n
    ⟨h.operation, h.assignmentOrExpression, h.elementLiteral, h.statements, h.conditionalArm⟩

/-- **Parsing does not look at lines.** -/
theorem parse_bare (tokens : List Token) : parse (tokens.map Token.bare) =
    ((parse tokens).map Chunk.bare).mapError ParseError.bare := by
  have hsignificant : significant (tokens.map Token.bare) = (significant tokens).map Token.bare :=
    List.filter_map
  unfold parse
  dsimp only
  rw [hsignificant, List.length_map]
  have hempty : Arena.empty.bare = .empty := by simp [Arena.bare, Arena.empty]
  -- without tokens the line of errors is one in either run
  rcases List.eq_nil_or_concat (significant tokens) with hnil | ⟨rest, last, hlast⟩
  · have hrun : (Grammar.level 0).statements .tokens ⟨[], 1, .empty⟩ = .ok ([], ⟨[], 1, .empty⟩) :=
      rfl
    simp [hnil, StateT.run, hrun, Except.map, Except.mapError, Chunk.bare, hempty]
  · have hline : (((significant tokens).map Token.bare).getLast?.map Token.line).getD 1 = 0 := by
      simp [hlast, Token.bare]
    have hrun := (Grammar.level_bare (significant tokens).length).statements .tokens
      ⟨significant tokens, ((significant tokens).getLast?.map Token.line).getD 1, .empty⟩
    rw [ParseState.bare, hempty] at hrun
    rw [hline]
    unfold StateT.run
    rw [hrun]
    cases (Grammar.level (significant tokens).length).statements .tokens
      ⟨significant tokens, ((significant tokens).getLast?.map Token.line).getD 1, .empty⟩ <;> rfl

end LuaSugar
