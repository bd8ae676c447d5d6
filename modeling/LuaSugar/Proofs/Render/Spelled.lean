import Mathlib
import LuaSugar.Proofs.Desugar.Plain
import LuaSugar.Proofs.Render.Layout
/-!
# Printers spell the wording

A printer spells what a wording has for the ids it prints; so it does for
the statements and the nodes made of them, in either layout and at every
indentation. Names have to be names, and there must be no sugar, which has
no wording.
-/

namespace LuaSugar

namespace Fragment

variable {f g : Fragment} {ts us : List TokenKind}

/-- Arguments behind an operand. -/
theorem Operand.called (hf : f.Operand ts) (hg : g.Part us) :
    (f ++ parenthesized g).Operand (ts ++ Wording.parenthesized us) := by
  have hargs := hg.parenthesized
  have hspells := hf.append hargs.toSpells (by
    rintro a ha _ ⟨⟩
    exact TokenKind.joins_closing (hf.closes a ha) (by decide))
  refine ⟨.of_append hspells hargs.ne hargs.closes, fun b hb => hf.opens b ?_⟩
  rwa [List.head?_append_of_ne_nil _ hf.ne] at hb

/-- A name behind a mark behind an operand. -/
theorem Operand.suffixed (hf : f.Operand ts) {mark : Operator} {text : String}
    (hname : Word.isName text) (hmark : ∀ a ∈ ts.getLast?, a.Joins (.operator mark))
    (hjoins : (TokenKind.operator mark).Joins (.name text)) :
    Operand (f ++ [.op mark, .name text]) (ts ++ [.operator mark, .name text]) := by
  have hsuffix : Spells ([.op mark] ++ [.name text]) ([.operator mark] ++ [.name text]) :=
    (Spells.op mark).append (Operand.name hname).toSpells (by rintro _ ⟨⟩ _ ⟨⟩; exact hjoins)
  have hspells := hf.append hsuffix (by rintro a ha _ ⟨⟩; exact hmark a ha)
  refine ⟨.of_append hspells (by simp) (by rintro _ ⟨⟩; rfl), fun b hb => hf.opens b ?_⟩
  rwa [List.head?_append_of_ne_nil _ hf.ne] at hb

/-- A method name behind what it is called on. -/
theorem Operand.method (hf : f.Operand ts) {text : String} (hname : Word.isName text) :
    Operand (f ++ [.op .colon, .name text]) (ts ++ [.operator .colon, .name text]) :=
  hf.suffixed hname (fun a ha => TokenKind.joins_closing (hf.closes a ha) (by decide))
    (TokenKind.opening_joins (by decide) rfl hname)

/-- Names with points between them. -/
theorem operand_dotted : ∀ {first : String} {more : List String},
    (∀ name ∈ first :: more, Word.isName name) →
    ∃ ts, (joined [.op .dot] ((first :: more).map fun name => [.name name])).Operand
      (.name first :: ts)
  | first, [], h => ⟨[], by simpa [joined] using Operand.name (h first (by simp))⟩
  | first, next :: more, h => by
    rw [List.forall_mem_cons] at h
    obtain ⟨ts, hrest⟩ := operand_dotted h.2
    have hdot := (Spells.op .dot).append hrest.toSpells (by
      rintro _ ⟨⟩ _ ⟨⟩
      exact TokenKind.dot_joins (h.2 next (by simp)))
    have hspells := (Operand.name h.1).append hdot (by
      rintro _ ⟨⟩ _ ⟨⟩
      exact TokenKind.joins_dot rfl (by simp))
    refine ⟨.operator .dot :: .name next :: ts, ⟨?_, by rintro _ ⟨⟩; rfl⟩⟩
    have hphrase := Phrase.of_append (hspells) (by simp) (fun a ha => hrest.closes a ?_)
    · simpa [joined] using hphrase
    · rwa [List.getLast?_append_of_ne_nil _ hrest.ne] at ha

end Fragment

/-- A path is written with its tokens. -/
theorem FunctionPath.operand {path : FunctionPath} (hne : path.segments ≠ [])
    (h : ∀ name ∈ path.segments, Word.isName name) : path.lexemes.Operand path.lexemes.tokens := by
  suffices hsome : ∃ ts, path.lexemes.Operand ts by
    obtain ⟨ts, hts⟩ := hsome
    rwa [hts.tokens]
  have hdotted {names : List String} (hne : names ≠ []) (h : ∀ name ∈ names, Word.isName name) :
      ∃ ts, (Fragment.joined [.op .dot] (names.map fun name => [.name name])).Operand ts := by
    obtain ⟨first, more, rfl⟩ := List.exists_cons_of_ne_nil hne
    obtain ⟨ts, hts⟩ := Fragment.operand_dotted h
    exact ⟨_, hts⟩
  unfold lexemes
  dsimp only
  split
  · rename_i last first more _ hlast hmore
    obtain ⟨ts, hts⟩ := hdotted (List.cons_ne_nil first more) fun name hname =>
      h name (List.mem_of_mem_dropLast (hmore ▸ hname))
    exact ⟨_, hts.method (h last (List.mem_of_mem_getLast? hlast))⟩
  · exact hdotted hne h

/-- Names that are read as names. -/
def Vocabulary.lexed : Vocabulary := ⟨fun text => Word.isName text, fun _ => True, fun _ => True⟩

/-- Statements are worded one by one. -/
theorem Wording.statements_eq (w : Wording) (block : List Stmt) :
    w.statements block = block.map w.statement := by
  induction block with
  | nil => rfl
  | cons s rest ih => rw [Wording.statements, ih, List.map_cons]

namespace Printer

open Fragment

variable {p : Printer} {w : Wording} {a : Arena}

theorem map_field (indent : ℕ) (keyed : List (ExprId × ExprId)) :
    (keyed.map fun (key, value) => p.field indent key value) =
      keyed.map fun entry => p.field indent entry.1 entry.2 := rfl

theorem flatMap_property (indent : ℕ) (properties : List (String × ExprId)) :
    (properties.flatMap fun (name, value) => p.property indent name value) =
      (properties.map fun property => p.property indent property.1 property.2).flatten := rfl

/-- A printer spells what a wording has for some ids, which are worded as
their nodes and are no sugar. -/
def Words (p : Printer) (w : Wording) (ids : List ExprId) : Prop :=
  ∀ x ∈ ids, (∀ indent, (p.expr indent x).Operand (w.expr x)) ∧
    w.expr x = w.expression (w.node x) ∧ (w.node x).isSugar = false

/-- Words for some ids are words for fewer. -/
theorem Words.mono {ids ids' : List ExprId} (h : Words p w ids') (hs : ids ⊆ ids') :
    Words p w ids :=
  fun x hx => h x (hs hx)

/-- An expression is written as the operand that it is worded as. -/
theorem Words.operand {ids : List ExprId} {x : ExprId} (h : Words p w ids) (hx : x ∈ ids)
    (indent : ℕ) : (p.expr indent x).Operand (w.expr x) :=
  (h x hx).1 indent

/-! ## Statements -/

/-- A list that is not empty is an operand. -/
theorem operand_exprs (indent : ℕ) {ids : List ExprId} (hne : ids ≠ []) (h : Words p w ids) :
    (p.exprs indent ids).Operand (w.exprs ids) :=
  p.layout.operand_listed hne fun _ hx => h.operand hx indent

/-- Any list is a part, which may be empty. -/
theorem part_exprs (indent : ℕ) {ids : List ExprId} (h : Words p w ids) :
    (p.exprs indent ids).Part (w.exprs ids) :=
  p.layout.part_listed fun _ hx => h.operand hx indent

/-- Names, with commas between them. -/
theorem operand_names {names : List String} (hne : names ≠ [])
    (h : ∀ name ∈ names, Word.isName name) : (p.names names).Operand (Wording.names names) :=
  p.layout.operand_listed hne fun name hname => Operand.name (h name hname)

/-- A keyword and an operand behind it. -/
theorem operand_after (word : Keyword) {f : Fragment} {ts : List TokenKind} (h : f.Operand ts) :
    (after word f).Operand (.keyword word :: ts) :=
  (Operand.word word).blank h

/-- The head of a loop stands between its word and `do`. -/
theorem operand_loopHead (word : Keyword) {f : Fragment} {ts : List TokenKind} (h : f.Operand ts) :
    (loopHead word f).Operand (.keyword word :: (ts ++ [.keyword .do_])) :=
  operand_after word (h.blank (Operand.word .do_))

/-- A function with its name, if it has one, and its parameters. -/
theorem operand_funcHead {name : Option Fragment} {ns : List TokenKind} {params : List String}
    (hname : name = none ∧ ns = [] ∨ ∃ f, name = some f ∧ f.Operand ns) (variadic : Bool)
    (hparams : ∀ name ∈ params, Word.isName name) :
    (p.funcHead name params variadic).Operand
      (.keyword .function_ :: ns ++ Wording.params params variadic) := by
  have hitems : ∀ kind ∈ params.map TokenKind.name ++ if variadic then [.operator .ellipsis] else [],
      Operand [.token kind] [kind] := by
    intro kind hkind
    rcases List.mem_append.1 hkind with hkind | hkind
    · obtain ⟨text, htext, rfl⟩ := List.mem_map.1 hkind
      exact Operand.name (hparams text htext)
    · cases variadic with
      | true =>
        obtain rfl := List.mem_singleton.1 hkind
        exact Operand.token trivial rfl rfl
      | false => exact absurd hkind List.not_mem_nil
  have hlisted := p.layout.part_listed hitems
  have hhead : Operand (.word .function_ :: name.elim [] (.blank :: ·))
      (.keyword .function_ :: ns) := by
    rcases hname with ⟨rfl, rfl⟩ | ⟨f, rfl, hf⟩
    · exact Operand.word .function_
    · exact (Operand.word .function_).blank hf
  have hcalled := hhead.called hlisted
  unfold funcHead Wording.params
  cases name <;> cases variadic <;>
    simpa [Function.comp_def, Lexeme.name, Lexeme.op] using hcalled

/-- What a statement is worded with: names are names, and no sugar. -/
def Worded (a : Arena) (kind : StmtKind) : Prop :=
  Vocabulary.lexed.Stmt a kind ∧ kind.isSugar = false

/-- Statements are printed one by one. -/
theorem statements_eq (indent : ℕ) (block : List Stmt) :
    p.statements indent block = block.map (p.statement indent) := by
  induction block with
  | nil => rfl
  | cons s rest ih => rw [statements, ih, List.map_cons]

/-- **A list of statements** spells its wording if each of them does. -/
theorem part_block_of {block : List Stmt} {indent : ℕ}
    (h : ∀ s ∈ block, (p.statement indent s).Part (w.statement s)) :
    (p.block indent block).Part (w.block block) := by
  cases block with
  | nil => exact .inl ⟨rfl, rfl⟩
  | cons s rest =>
    have hsequence := p.layout.part_sequence indent h
    rwa [List.map_cons, List.map_cons, ← statements_eq, ← Wording.statements_eq] at hsequence

mutual

/-- **A statement** spells its wording; an ignored one writes nothing. -/
theorem part_statementKind (kind : StmtKind) (hk : kind.Throughout (Worded a))
    (h : Words p w kind.ids) (indent : ℕ) :
    (p.statementKind indent kind).Part (w.statementKind kind) := by
  obtain ⟨⟨hnames, hsugar⟩, hbodies⟩ := hk
  rw [StmtKind.ids_eq] at h
  have hroots : Words p w kind.roots := h.mono (List.subset_append_left _ _)
  have hblocks : ∀ b ∈ kind.blocks, Words p w (Block.ids b) := fun b hb =>
    h.mono fun x hx => List.mem_append_right _ (List.mem_flatMap.2 ⟨b, hb, hx⟩)
  have hend : Operand [.word .end_] [.keyword .end_] := Operand.word .end_
  -- sugar is excluded, and an ignored statement is the only blank one
  match kind with
  | .ret [] => exact .inr (Operand.word .return_)
  | .ret (first :: rest) =>
    exact .inr (operand_after .return_ (operand_exprs indent (List.cons_ne_nil _ _) hroots))
  | .localFunction name func =>
    have hname := Operand.name hnames.1
    exact .inr (operand_after .local_ (operand_funcBody func (.inr ⟨_, rfl, hname⟩) hnames.2
      (hbodies _ (List.mem_singleton_self _)) (hblocks _ (List.mem_singleton_self _)) indent))
  | .function path func =>
    have hpath := FunctionPath.operand hnames.1.1 hnames.1.2.2
    exact .inr (operand_funcBody func (.inr ⟨_, rfl, hpath⟩) hnames.2
      (hbodies _ (List.mem_singleton_self _)) (hblocks _ (List.mem_singleton_self _)) indent)
  | .localDecl names [] =>
    exact .inr (operand_after .local_ (operand_names hnames.1 hnames.2))
  | .localDecl names (first :: rest) =>
    have hvalues := operand_exprs indent (List.cons_ne_nil _ _) hroots
    exact .inr (operand_after .local_ (p.layout.operand_equals (operand_names hnames.1 hnames.2) hvalues))
  | .assign targets values =>
    have htargets := operand_exprs indent hnames.1 (hroots.mono (List.subset_append_left _ _))
    have hvalues := operand_exprs indent hnames.2.1 (hroots.mono (List.subset_append_right _ _))
    exact .inr (p.layout.operand_equals htargets hvalues)
  | .call x => exact .inr (hroots.operand (List.mem_singleton_self _) indent)
  | .break_ => exact .inr (Operand.word .break_)
  | .doBlock body =>
    have hbody := part_block_of (part_statements body (hbodies _ (List.mem_singleton_self _))
      (hblocks _ (List.mem_singleton_self _)) (indent + 1))
    exact .inr (p.layout.operand_enclosed indent (Operand.word .do_) hbody hend)
  | .whileLoop condition body =>
    have hbody := part_block_of (part_statements body (hbodies _ (List.mem_singleton_self _))
      (hblocks _ (List.mem_singleton_self _)) (indent + 1))
    have hhead := operand_loopHead .while_ (hroots.operand (List.mem_singleton_self _) indent)
    have hloop := p.layout.operand_enclosed indent hhead hbody hend
    refine .inr ?_
    simpa [statementKind, Wording.statementKind] using hloop
  | .repeatLoop body condition =>
    have hbody := part_block_of (part_statements body (hbodies _ (List.mem_singleton_self _))
      (hblocks _ (List.mem_singleton_self _)) (indent + 1))
    have htail := operand_after .until_ (hroots.operand (List.mem_singleton_self _) indent)
    have hloop := p.layout.operand_enclosed indent (Operand.word .repeat_) hbody htail
    refine .inr ?_
    simpa [statementKind, Wording.statementKind] using hloop
  | .ifChain arm => exact .inr (operand_ifArm arm .if_ hbodies hroots hblocks indent)
  | .forNumeric var start limit step body =>
    have hbody := part_block_of (part_statements body (hbodies _ (List.mem_singleton_self _))
      (hblocks _ (List.mem_singleton_self _)) (indent + 1))
    have hrange := p.layout.operand_equals (Operand.name hnames)
      (operand_exprs indent (List.cons_ne_nil _ _) hroots)
    have hloop := p.layout.operand_enclosed indent (operand_loopHead .for_ hrange) hbody hend
    refine .inr ?_
    simpa [statementKind, Wording.statementKind] using hloop
  | .forGeneric names iterators body =>
    have hbody := part_block_of (part_statements body (hbodies _ (List.mem_singleton_self _))
      (hblocks _ (List.mem_singleton_self _)) (indent + 1))
    have hhead := ((operand_names (p := p) hnames.1 hnames.2.2).blank (Operand.word .in_)).blank
      (operand_exprs indent hnames.2.1 hroots)
    have hloop := p.layout.operand_enclosed indent (operand_loopHead .for_ hhead) hbody hend
    refine .inr ?_
    simpa [statementKind, Wording.statementKind] using hloop
  | .ignore => exact .inl ⟨rfl, w.statementKind_ignore⟩
  | .compoundAssign _ _ _ | .importFrom _ _ | .intrinsic _ _ => cases hsugar
termination_by structural kind

/-- **A function** is written as it is worded, in any layout: its parameters,
its list, and `end`. -/
theorem operand_funcBody {name : Option Fragment} {ns : List TokenKind} : ∀ func : FuncBody,
    (name = none ∧ ns = [] ∨ ∃ f, name = some f ∧ f.Operand ns) →
    Vocabulary.lexed.Params func → Block.Everywhere (Worded a) func.body →
    Words p w (Block.ids func.body) →
    ∀ indent, (p.funcBody indent name func).Operand (w.funcBody ns func)
  | ⟨params, variadic, body⟩, hname, hparams, hbody, h, indent => by
    have hhead := operand_funcHead (p := p) hname variadic hparams
    have hpart := part_block_of (part_statements body hbody h (indent + 1))
    exact p.layout.operand_enclosed indent hhead hpart (Operand.word .end_)
termination_by structural func => func

/-- An arm, up to the `end` of the chain. -/
theorem operand_ifArm : ∀ (arm : IfArm) (word : Keyword),
    (∀ b ∈ arm.bodies, Block.Everywhere (Worded a) b) → Words p w arm.conditions →
    (∀ b ∈ arm.bodies, Words p w (Block.ids b)) →
    ∀ indent, (p.ifArm indent word arm).Operand (w.ifArm word arm)
  | ⟨condition, body, _, otherwise⟩, word, hbodies, hc, h, indent => by
    have hcondition := hc.operand List.mem_cons_self indent
    have hhead := operand_after word (hcondition.blank (Operand.word .then_))
    have hbody := part_block_of (part_statements body (hbodies body List.mem_cons_self)
      (h body List.mem_cons_self) (indent + 1))
    have hrest := operand_elseArm otherwise (fun b hb => hbodies b (List.mem_cons_of_mem _ hb))
      (hc.mono (List.subset_cons_self _ _)) (fun b hb => h b (List.mem_cons_of_mem _ hb)) indent
    obtain ⟨text, htext, hlegible⟩ := p.layout.lineBreak_eq indent
    have harm := (p.layout.operand_opened indent hhead hbody).apart hrest hlegible
    simpa [ifArm, Wording.ifArm, armHead, htext] using harm
termination_by structural arm => arm

theorem operand_elseArm : ∀ arm : ElseArm,
    (∀ b ∈ arm.bodies, Block.Everywhere (Worded a) b) → Words p w arm.conditions →
    (∀ b ∈ arm.bodies, Words p w (Block.ids b)) →
    ∀ indent, (p.elseArm indent arm).Operand (w.elseArm arm)
  | .absent, _, _, _, _ => Operand.word .end_
  | .elseIf arm, hbodies, hc, h, indent => operand_ifArm arm .elseif_ hbodies hc h indent
  | .elseBlock body _, hbodies, _, h, indent => by
    have hbody := part_block_of (part_statements body (hbodies _ (List.mem_singleton_self _))
      (h _ (List.mem_singleton_self _)) (indent + 1))
    obtain ⟨text, htext, hlegible⟩ := p.layout.lineBreak_eq indent
    have harm := (p.layout.operand_opened indent (Operand.word .else_) hbody).apart
      (Operand.word .end_) hlegible
    simpa [elseArm, Wording.elseArm, htext] using harm
termination_by structural arm => arm

/-- **Each statement of a list** is written as it is worded. -/
theorem part_statements : ∀ block : List Stmt, Block.Everywhere (Worded a) block →
    Words p w (Block.ids block) → ∀ indent, ∀ s ∈ block,
    (p.statement indent s).Part (w.statement s)
  | [], _, _, _, s, hs => absurd hs List.not_mem_nil
  | ⟨kind, line⟩ :: rest, hblock, h, indent, s, hs => by
    rw [Block.ids_cons] at h
    have hk : kind.Throughout (Worded a) := Block.everywhere_iff.1 hblock _ List.mem_cons_self
    have hkind := part_statementKind kind hk (h.mono (List.subset_append_left _ _)) indent
    have hrest := part_statements rest
      (Block.everywhere_iff.2 fun t ht => Block.everywhere_iff.1 hblock t (List.mem_cons_of_mem _ ht))
      (h.mono (List.subset_append_right _ _)) indent
    rcases List.mem_cons.1 hs with rfl | hs
    · exact hkind
    · exact hrest s hs
termination_by structural block => block

end

/-- A list is written as the statements in it, with blanks that are no tokens. -/
theorem part_block {block : List Stmt} (hblock : Block.Everywhere (Worded a) block)
    (h : Words p w (Block.ids block)) (indent : ℕ) :
    (p.block indent block).Part (w.block block) :=
  part_block_of (part_statements block hblock h indent)

end Printer

end LuaSugar
