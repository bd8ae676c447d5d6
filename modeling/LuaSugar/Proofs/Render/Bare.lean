import Mathlib
import LuaSugar.Render
import LuaSugar.Proofs.Syntax.Bare
import LuaSugar.Proofs.Parser.Bare
import LuaSugar.Proofs.Desugar.Bare
/-!
# Layout of the source does not show

Lines are never written, and neither parsing nor desugaring looks at them.
So the output depends on the kinds of the significant tokens of a source
alone: white space, comments, line breaks and the spelling of strings make
no difference, except for the lines that chunks and errors carry.
-/

namespace LuaSugar

/-! ## Printing -/

namespace Printer

/-- The printer of nodes without lines. -/
def bare (p : Printer) : Printer := { p with node := fun i => (p.node i).bare }

variable (p : Printer)

mutual

/-- **A statement is printed without its line**, and so are those nested in
it. By the recursion of the printer. -/
theorem statement_bare (indent : ℕ) : ∀ s : Stmt, p.bare.statement indent s.bare = p.statement indent s
  | ⟨kind, _⟩ => by
    rw [Stmt.bare, statement, statement, statementKind_bare indent kind]

theorem statementKind_bare (indent : ℕ) :
    ∀ kind : StmtKind, p.bare.statementKind indent kind.bare = p.statementKind indent kind
  | .localFunction _ func | .function _ func => by
    simp only [StmtKind.bare, statementKind, funcBody_bare indent _ func]
  | .doBlock body | .whileLoop _ body | .repeatLoop body _ | .forNumeric _ _ _ _ body
  | .forGeneric _ _ body => by
    simp only [StmtKind.bare, statementKind, block_bare (indent + 1) body]
    rfl
  | .ifChain arm => by simp only [StmtKind.bare, statementKind, ifArm_bare indent _ arm]
  | .ret [] | .ret (_ :: _) | .localDecl _ [] | .localDecl _ (_ :: _) | .compoundAssign _ _ _
  | .assign _ _ | .call _ | .break_ | .importFrom _ _ | .intrinsic _ [] | .intrinsic _ (_ :: _)
  | .ignore => rfl

theorem funcBody_bare (indent : ℕ) (name : Option Fragment) :
    ∀ func : FuncBody, p.bare.funcBody indent name func.bare = p.funcBody indent name func
  | ⟨_, _, body⟩ => by
    simp only [FuncBody.bare, funcBody, block_bare (indent + 1) body]
    rfl

theorem ifArm_bare (indent : ℕ) (word : Keyword) :
    ∀ arm : IfArm, p.bare.ifArm indent word arm.bare = p.ifArm indent word arm
  | ⟨_, body, _, otherwise⟩ => by
    simp only [IfArm.bare, ifArm, block_bare (indent + 1) body, elseArm_bare indent otherwise]
    rfl

theorem elseArm_bare (indent : ℕ) :
    ∀ arm : ElseArm, p.bare.elseArm indent arm.bare = p.elseArm indent arm
  | .absent => rfl
  | .elseIf arm => by simp only [ElseArm.bare, elseArm, ifArm_bare indent _ arm]
  | .elseBlock body _ => by
    simp only [ElseArm.bare, elseArm, block_bare (indent + 1) body]
    rfl

theorem statements_bare (indent : ℕ) :
    ∀ body : List Stmt, p.bare.statements indent (Block.bare body) = p.statements indent body
  | [] => rfl
  | s :: rest => by
    simp only [Block.bare, statements, statement_bare indent s, statements_bare indent rest]

/-- A block within its words. -/
theorem block_bare (indent : ℕ) :
    ∀ body : List Stmt, p.bare.block indent (Block.bare body) = p.block indent body
  | [] => rfl
  | s :: rest => by
    simp only [Block.bare, block, statement_bare indent s, statements_bare indent rest]
    rfl

end

variable (indent : ℕ)

/-- What stands before a suffix is put in parentheses for its kind of node alone. -/
theorem subject_bare (i : ExprId) : p.bare.subject indent i = p.subject indent i := by
  simp only [subject, bare]
  rcases (p.node i).bare_cases with h | ⟨func, h, h'⟩
  · rw [h]
  · rw [h', h]

/-- So is an operand. -/
theorem leftOperand_bare (op : BinaryOp) (i : ExprId) :
    p.bare.leftOperand indent op i = p.leftOperand indent op i := by
  simp only [leftOperand, bare]
  rcases (p.node i).bare_cases with h | ⟨func, h, h'⟩
  · rw [h]
  · rw [h', h]
    cases op <;> rfl

/-- An operation is printed by its operands. -/
theorem arith_bare (e : Arith) : p.bare.arith indent e = p.arith indent e := by
  cases e with
  | binary _ _ _ =>
    simp only [arith, leftOperand_bare]
    rfl
  | member _ _ => simp only [arith, subject_bare]
  | subscript _ _ | call _ _ _ =>
    simp only [arith, subject_bare]
    rfl
  | unary op _ => cases op <;> rfl
  | assign _ _ _ => rfl

theorem field_bare (key value : ExprId) : p.bare.field indent key value = p.field indent key value := by
  simp only [field, bare]
  rcases (p.node key).bare_cases with h | ⟨func, h, h'⟩
  · rw [h]
  · rw [h', h]

theorem property_bare (name : String) (value : ExprId) :
    p.bare.property indent name value = p.property indent name value := by
  simp only [property, bare]
  rcases (p.node value).bare_cases with h | ⟨func, h, h'⟩
  · rw [h]
    rfl
  · rw [h', h]
    rfl

/-- A child of an element by what it is. -/
theorem child_bare (i : ExprId) : p.bare.child indent i = p.child indent i := by
  simp only [child, bare]
  rcases (p.node i).bare_cases with h | ⟨func, h, h'⟩
  · rw [h]
    rfl
  · rw [h', h]
    rfl

/-- **Lines are never written.** -/
theorem expression_bare (e : Expr) : p.bare.expression indent e.bare = p.expression indent e := by
  match e with
  | .atom (.func func) => exact funcBody_bare p indent none func
  | .atom (.table t) =>
    have hfield : p.bare.field = p.field := by
      funext indent key value
      exact field_bare p indent key value
    show p.bare.table indent t = p.table indent t
    unfold table
    rw [hfield]
    rfl
  | .atom (.element e) =>
    have hproperty : p.bare.property = p.property := by
      funext indent name value
      exact property_bare p indent name value
    have hchild : p.bare.child = p.child := by
      funext indent i
      exact child_bare p indent i
    show p.bare.element indent e = p.element indent e
    unfold element
    rw [hproperty, hchild]
  | .arith e => exact arith_bare p indent e
  | .atom (.number _) | .atom (.string _) | .atom (.boolean true) | .atom (.boolean false)
  | .atom .nil | .atom (.name _) | .atom .vararg => rfl

end Printer

/-- **Printers within any depth** print alike. -/
theorem Arena.printerWithin_bare (a : Arena) (ℓ : Layout) : ∀ depth : ℕ,
    a.bare.printerWithin ℓ depth = (a.printerWithin ℓ depth).bare
  | 0 => by
    have hnode : a.bare.get = fun i => (a.get i).bare := funext a.get_bare
    simp only [Arena.printerWithin, Printer.bare, hnode]
  | depth + 1 => by
    have hnode : a.bare.get = fun i => (a.get i).bare := funext a.get_bare
    simp only [Arena.printerWithin, Arena.printerWithin_bare a ℓ depth, hnode,
      Printer.expression_bare]
    rfl

/-- **Rendering does not look at lines.** -/
theorem Layout.render_bare (ℓ : Layout) (c : Chunk) : ℓ.render c.bare = ℓ.render c := by
  have hblock : ℓ.renderBlock c.bare.arena c.bare.body = ℓ.renderBlock c.arena c.body := by
    unfold Layout.renderBlock Arena.printer
    rw [Chunk.bare, Arena.size_bare, Arena.printerWithin_bare, Printer.block_bare]
  unfold Layout.render
  rw [hblock]

/-! ## From source to output -/

namespace CompileError

/-- The error without its line. -/
def bare : CompileError → CompileError
  | lex e => .lex { e with line := 0 }
  | parse e => .parse e.bare
  | intrinsic e => .intrinsic e.bare

end CompileError

/-- Two sources are cut into tokens, and the significant ones are of the same
kinds in the same order. -/
def SameTokens (source source' : String) : Prop :=
  ∃ tokens tokens', tokenize source = .ok tokens ∧ tokenize source' = .ok tokens' ∧
    (significant tokens).map Token.kind = (significant tokens').map Token.kind

/-- Tokens without lines are their kinds. -/
theorem significant_map_bare (tokens : List Token) : significant (tokens.map Token.bare) =
    ((significant tokens).map Token.kind).map fun kind => ⟨kind, 0, .plain⟩ := by
  rw [List.map_map]
  exact List.filter_map

/-- Parsing looks at significant tokens only. -/
theorem parse_congr {tokens tokens' : List Token} (h : significant tokens = significant tokens') :
    parse tokens = parse tokens' := by
  unfold parse
  rw [h]

/-- Sources with the same tokens have the same chunk or the same error, but for lines. -/
theorem SameTokens.parseSource {source source' : String} (h : SameTokens source source') :
    ((parseSource source).map Chunk.bare).mapError CompileError.bare =
      ((parseSource source').map Chunk.bare).mapError CompileError.bare := by
  have hread {source : String} {tokens : List Token} (h : tokenize source = .ok tokens) :
      ((LuaSugar.parseSource source).map Chunk.bare).mapError CompileError.bare =
        (parse (tokens.map Token.bare)).mapError .parse := by
    rw [parse_bare, LuaSugar.parseSource, h]
    show (((parse tokens).mapError .parse).map Chunk.bare).mapError CompileError.bare = _
    cases parse tokens <;> rfl
  obtain ⟨tokens, tokens', htokens, htokens', hkinds⟩ := h
  have hparse : parse (tokens.map Token.bare) = parse (tokens'.map Token.bare) :=
    parse_congr (by rw [significant_map_bare, significant_map_bare, hkinds])
  rw [hread htokens, hread htokens', hparse]

/-- What is compiled of a source without lines. -/
theorem compile_bare (constructor source : String) :
    ((compile constructor source).map Chunk.bare).mapError CompileError.bare =
      (((parseSource source).map Chunk.bare).mapError CompileError.bare >>= fun c =>
        match desugar constructor c with
        | (c, none) => .ok c
        | (_, some e) => .error (.intrinsic e)) := by
  rw [compile]
  cases parseSource source with
  | error e => rfl
  | ok c =>
    simp only [bind, Except.bind, Except.map, Except.mapError, desugar_bare]
    rcases desugar constructor c with ⟨c, _ | e⟩ <;> rfl

/-- **The layout of a source never shows.** Sources with the same significant
tokens are compiled to the same text, or fail alike but for the line; what
they are parsed into is the same but for lines. -/
theorem compile_sameTokens (constructor : String) (ℓ : Layout) {source source' : String}
    (h : SameTokens source source') :
    ((compile constructor source).map ℓ.render).mapError CompileError.bare =
        ((compile constructor source').map ℓ.render).mapError CompileError.bare ∧
      ((parseSource source).map Chunk.bare).mapError CompileError.bare =
        ((parseSource source').map Chunk.bare).mapError CompileError.bare := by
  have hrender (source : String) :
      ((compile constructor source).map ℓ.render).mapError CompileError.bare =
        (((compile constructor source).map Chunk.bare).mapError CompileError.bare).map ℓ.render := by
    cases compile constructor source with
    | error e => rfl
    | ok c => exact congrArg Except.ok (ℓ.render_bare c).symm
  refine ⟨?_, h.parseSource⟩
  rw [hrender, hrender, compile_bare, compile_bare, h.parseSource]

theorem compile_sameTokens_import :
    let source := "import a from 'm'\nreturn (a += 1)"
    let source' := "import a from \"m\" -- a module\n\nreturn ( a\t+= 1.0 )"
    SameTokens source source' ∧
      ((compile "h" source).map Layout.minify.render).mapError CompileError.bare =
        ((compile "h" source').map Layout.minify.render).mapError CompileError.bare ∧
      ((parseSource source).map Chunk.bare).mapError CompileError.bare =
        ((parseSource source').map Chunk.bare).mapError CompileError.bare := by
  intro source source'
  have h : SameTokens source source' := ⟨_, _, by cbv, by cbv, by cbv⟩
  exact ⟨h, compile_sameTokens "h" .minify h⟩

end LuaSugar
