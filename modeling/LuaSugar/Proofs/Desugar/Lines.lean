import Mathlib
import LuaSugar.Proofs.Parser.Placed
import LuaSugar.Proofs.Desugar.Pairing
import LuaSugar.Proofs.Token.Lines
/-!
# The lines of errors

A lexical fault is found on some line of the text. A parser reports the line
of the token where it stands, or of the last one at the end. An intrinsic is
reported on its own line, and that is the line of a token: passes make no
intrinsics, and leave those that are there on their lines, also when they
empty the lists around them to walk through.

So every error of `compile` has a line of the text.
-/

namespace LuaSugar

open Pass

/-! ## Intrinsics on some lines -/

section Lined

variable {σ ε : Type} {L : ℕ → Prop}

/-- The intrinsics of a list, at every depth, are on lines with a
property. -/
def Block.Lined (L : ℕ → Prop) (block : Block) : Prop :=
  ∀ s ∈ Block.deep block, ∀ e args, s.kind = .intrinsic e args → L s.line

/-- So are those in the bodies of function literals. -/
def Arena.Lined (L : ℕ → Prop) (a : Arena) : Prop :=
  ∀ x body, a.body? x = some body → Block.Lined L body

def Chunk.Lined (L : ℕ → Prop) (c : Chunk) : Prop := c.arena.Lined L ∧ Block.Lined L c.body

theorem Block.lined_singleton {s : Stmt} : Block.Lined L [s] ↔
    (∀ e args, s.kind = .intrinsic e args → L s.line) ∧ ∀ b ∈ s.kind.blocks, Block.Lined L b := by
  unfold Block.Lined
  rw [Block.deep_cons, Block.deep_nil, List.append_nil, List.forall_mem_cons, StmtKind.nested_eq]
  refine and_congr_right fun _ => ⟨fun h b hb t ht => h t (List.mem_flatMap.2 ⟨b, hb, ht⟩),
    fun h t ht => ?_⟩
  obtain ⟨b, hb, ht⟩ := List.mem_flatMap.1 ht
  exact h b hb t ht

theorem Block.lined_iff {block : Block} : Block.Lined L block ↔
    ∀ s ∈ block, Block.Lined L [s] := by
  induction block with
  | nil => simp [Block.Lined]
  | cons s rest ih =>
    rw [List.forall_mem_cons, ← ih, ← List.singleton_append]
    unfold Block.Lined
    rw [Block.deep_append]
    exact List.forall_mem_append

/-- Statements that no pass removes are no intrinsics. -/
theorem Block.lined_of_isPlain {s : Stmt} (h : s.kind.isPlain) : Block.Lined L [s] := by
  refine lined_singleton.2 ⟨fun e args hkind => ?_, ?_⟩
  · rw [hkind] at h
    cases h
  · simp [StmtKind.blocks_of_isPlain h]

/-- **What is built** holds no intrinsics, if the bodies of its literals do
not. -/
theorem Arena.Lined.alloc {a : Arena} (h : a.Lined L) {e : Expr}
    (he : ∀ func, e = .atom (.func func) → Block.Lined L func.body) : (a.alloc e).2.Lined L := by
  intro x body hbody
  obtain ⟨func, hget, rfl⟩ := body?_eq_some.1 hbody
  rcases a.get_alloc_cases e x with hold | ⟨-, hnew⟩
  · exact h x _ (body?_eq_some.2 ⟨func, hold ▸ hget, rfl⟩)
  · exact he func (hnew ▸ hget)

theorem Arena.Lined.set {a : Arena} (h : a.Lined L) (x : ExprId) {e : Expr}
    (he : ∀ func, e = .atom (.func func) → Block.Lined L func.body) : (a.set x e).Lined L := by
  intro y body hbody
  obtain ⟨func, hget, rfl⟩ := body?_eq_some.1 hbody
  rcases a.get_set_cases x y e with hold | ⟨-, hnew⟩
  · exact h y _ (body?_eq_some.2 ⟨func, hold ▸ hget, rfl⟩)
  · exact he func (hnew ▸ hget)

theorem Arena.Lined.setBody {a : Arena} (h : a.Lined L) (x : ExprId) {body : Block}
    (hbody : Block.Lined L body) : (a.setBody x body).Lined L := by
  obtain ⟨-, hset⟩ | ⟨func, -, hset⟩ := a.setBody_cases x body <;> rw [hset]
  · exact h
  · refine h.set x fun func' heq => ?_
    cases heq
    exact hbody

/-- Literals of plain statements are the only ones that callbacks build. -/
theorem makesLiterals_lined : MakesLiterals (fun (_ : Unit) a => a.Lined L) fun _ _ => True where
  mono _ _ := trivial
  node {w a e} h hplain _ :=
    ⟨w, le_rfl, h.alloc fun func heq => by simp [heq, Expr.isPlain] at hplain, trivial⟩
  closure {w a s} params h hplain _ := ⟨w, le_rfl, h.alloc fun func heq => by
    cases heq
    exact Block.lined_of_isPlain hplain, trivial⟩

/-- What a pass has to show of its callbacks. -/
structure Pass.KeepsLined (L : ℕ → Prop) (r : Pass σ ε) : Prop where
  first : r.FailsFirst
  expression : ∀ x owner {space}, space.arena.Lined L →
    Edits (fun (_ : Unit) a => a.Lined L) (r.expression x owner) (fun _ _ => True) () space
  statement : ∀ c {space}, space.arena.Lined L → (∀ slot ∈ c.slots, Block.Lined L [slot.stmt]) →
    Edits (fun (_ : Unit) a => a.Lined L) (r.statement c) (fun _ c' =>
      (∀ slot ∈ c'.slots, Block.Lined L [slot.stmt]) ∧
      (c'.after.countP fun slot => !slot.fresh) ≤ c.after.countP fun slot => !slot.fresh) () space

namespace Pass.KeepsLined

variable {r : Pass σ ε}

/-- **As a contract.** -/
def contract (hr : r.KeepsLined L) : Contract r Unit Unit where
  inv _ walk := walk.space.arena.Lined L
  todo _ _ _ s := Block.Lined L [s]
  half _ _ _ s := Block.Lined L [s]
  done _ _ s := Block.Lined L [s]
  rootTodo _ _ _ _ := True
  rootDone _ _ _ := True
  below _ _ _ _ := True
  seen _ _ := True
  within _ _ := ()
  shape _ := True
  todo_mono _ := id
  half_mono _ := id
  done_mono _ := id
  rootDone_mono _ := id
  below_mono _ := id
  seen_mono _ := id
  shape_of_hollow _ := id
  exhausted h hs := ⟨hs, h⟩
  nested h hb := ⟨trivial, Block.lined_iff.1 ((Block.lined_singleton.1 h).2 _ hb)⟩
  half_of_nested {w d f s s'} h hhollow hline hb := by
    refine Block.lined_singleton.2 ⟨fun e args hkind => ?_, fun b hm =>
      Block.lined_iff.2 (hb b hm).2⟩
    rw [hline]
    exact (Block.lined_singleton.1 h).1 e args (Intrinsic.intrinsic_of_hollow hhollow.symm hkind)
  root _ _ := trivial
  below_of_root _ _ _ := trivial
  seen_of_inv _ _ _ := trivial
  literal {w walk d f x body} h _ _ hbody := by
    refine ⟨(), (), le_rfl, h.setBody x (by simp [Block.Lined]), ⟨trivial,
      Block.lined_iff.1 (h x body hbody)⟩, fun w₁ walk₁ body₁ _ h₁ hbody₁ => ?_⟩
    exact ⟨(), le_rfl, trivial, h₁.setBody x (Block.lined_iff.2 hbody₁.2)⟩
  expression owner _ _ _ h _ := .attempt h (hr.expression _ owner h) fun _ _ => trivial
  statement {w walk d f} c h hfocus _ hbefore hafter _ := by
    have hslots : ∀ slot ∈ c.slots, Block.Lined L [slot.stmt] :=
      Cursor.forall_slots.2 ⟨List.forall_mem_cons.2 ⟨hfocus, hbefore⟩, by simpa using hafter⟩
    have hleads : Leads (fun (_ : Unit) (walk : Walk σ ε) => walk.space.arena.Lined L)
        (attempt (r.statement c) c) (fun _ c' => (∀ slot ∈ c'.slots, Block.Lined L [slot.stmt]) ∧
          (c'.after.countP fun slot => !slot.fresh) ≤ c.after.countP fun slot => !slot.fresh)
        w walk := .attempt h (hr.statement c h hslots) fun _ _ => ⟨hslots, le_rfl⟩
    rw [hr.first.visit]
    refine hleads.mono fun w' c' _ hc' => ?_
    obtain ⟨hdone, hahead⟩ := Cursor.forall_slots.1 hc'.1
    exact ⟨hdone, by simpa using hahead, trivial, hc'.2⟩

/-- **A pass that makes no intrinsics** leaves those that are there on their
lines. -/
theorem run (hr : r.KeepsLined L) {c : Chunk} (h : c.Lined L) (state : σ) :
    (r.run state c).chunk.Lined L := by
  obtain ⟨_, walk, -, hgood, harena, -, -, -, hbody⟩ :=
    Pass.Contract.run (K := hr.contract) (w := ()) (f := ()) state h.1 trivial
      (Block.lined_iff.1 h.2)
  exact ⟨harena ▸ hgood, Block.lined_iff.2 hbody⟩

end Pass.KeepsLined

/-! ## The passes before intrinsics -/

theorem Pass.KeepsLined.ofStatement {f : Cursor → Edit σ ε Cursor}
    (hf : ∀ c {space : Workspace σ}, space.arena.Lined L →
      (∀ slot ∈ c.slots, Block.Lined L [slot.stmt]) →
      Edits (fun (_ : Unit) a => a.Lined L) (f c) (fun _ c' =>
        (∀ slot ∈ c'.slots, Block.Lined L [slot.stmt]) ∧
        (c'.after.countP fun slot => !slot.fresh) ≤ c.after.countP fun slot => !slot.fresh)
        () space) : (Pass.ofStatement f).KeepsLined L :=
  ⟨fun _ _ => rfl, fun _ _ _ h => .pure h trivial, hf⟩

theorem AssignmentExpr.keepsLined : AssignmentExpr.pass.KeepsLined L where
  first _ _ := rfl
  statement c _ h hslots := .pure h ⟨hslots, le_rfl⟩
  expression x owner space h := by
    refine Edits.arena (Edits.forM h fun _ y space _ _ h => ?_)
    unfold hoist
    refine Edits.arena ?_
    split
    · rename_i op target value _
      have hbody : Block.Lined L [statement op target value owner.line,
          .ret [target] owner.line] := by
        refine Block.lined_iff.2 fun s hs => ?_
        rcases List.mem_pair.1 hs with rfl | rfl
        · refine Block.lined_singleton.2 ⟨fun e args => ?_, ?_⟩ <;>
            cases op <;> simp [statement, Stmt.assign, StmtKind.blocks]
        · exact Block.lined_of_isPlain rfl
      have hclosure : Builds (fun (_ : Unit) a => a.Lined L)
          (Build.closure [] [statement op target value owner.line, .ret [target] owner.line])
          (fun _ _ => True) () space.arena :=
        ⟨(), le_rfl, h.alloc fun func heq => by cases heq; exact hbody, trivial⟩
      refine (Edits.build hclosure).bind fun w' closure space' _ h' _ => ?_
      exact Edits.replace le_rfl (h'.set y fun func heq => by simp [Expr.call] at heq)
    · exact .pure h trivial

theorem CompoundAssignment.keepsLined : CompoundAssignment.pass.KeepsLined L := by
  refine .ofStatement fun c space h hslots => ?_
  split
  · rename_i target op value hkind
    refine (Edits.build (makesLiterals_lined.binary h op (x := target) (y := value) trivial
      trivial)).bind fun _ result space₁ _ h₁ _ => .pure h₁ ⟨?_, le_rfl⟩
    exact Cursor.forall_replace (P := fun s => Block.Lined L [s]) hslots
      (Block.lined_of_isPlain rfl)
  · exact .pure h ⟨hslots, le_rfl⟩

theorem Import.keepsLined : Import.pass.KeepsLined L := by
  refine .ofStatement fun c space h hslots => ?_
  dsimp only
  split
  · rename_i binding source hkind
    have hm := makesLiterals_lined (L := L)
    have hcall : Builds (fun (_ : Unit) a => a.Lined L)
        (do Build.call (← Build.name "require") [source]) (fun _ _ => True) () space.arena :=
      (hm.name h "require").bind fun _ target _ _ h₁ _ => hm.call h₁ trivial fun _ _ => trivial
    refine (Edits.build hcall).bind fun w₁ module space₁ _ h₁ _ => ?_
    cases binding with
    | default name =>
      exact .pure h₁ ⟨Cursor.forall_replace (P := fun s => Block.Lined L [s]) hslots
        (Block.lined_of_isPlain rfl), le_rfl⟩
    | named names =>
      refine Edits.bind (Edits.state h₁) fun w₂ count space₂ _ h₂ _ => ?_
      refine Edits.bind (Edits.setState h₂) fun w₃ _ space₃ _ h₃ _ => ?_
      refine Edits.bind (Edits.build (Builds.mapM (Q := fun _ _ => True) (fun _ h => h) h₃
        fun w' name a' _ _ h' => hm.readMember h' _ name)) fun w₄ values space₄ _ h₄ _ => ?_
      refine .pure h₄ ⟨?_, le_rfl⟩
      exact Cursor.forall_replace (P := fun s => Block.Lined L [s])
        (Cursor.forall_insertBefore (P := fun s => Block.Lined L [s]) hslots
          (Block.lined_of_isPlain rfl)) (Block.lined_of_isPlain rfl)
  · exact .pure h ⟨hslots, le_rfl⟩

/-- **The passes before** make no intrinsics. -/
theorem Chunk.Lined.passed {c : Chunk} (h : c.Lined L) :
    (expandImports (expandCompound (hoistAssignments c))).Lined L :=
  have h₁ := AssignmentExpr.keepsLined.run h ()
  Import.keepsLined.run (CompoundAssignment.keepsLined.run h₁ ()) 0

/-- The lists that a walk comes by. -/
theorem Chunk.Lined.of_hasList {c : Chunk} (h : c.Lined L) {l : Block} (hl : c.HasList l) :
    Block.Lined L l := by
  induction hl with
  | body => exact h.2
  | nested _ hs hb ih => exact (Block.lined_singleton.1 (Block.lined_iff.1 ih _ hs)).2 _ hb
  | literal _ _ _ _ hbody _ => exact h.1 _ _ hbody

/-- **The error of an intrinsic** is on the line of an intrinsic. -/
theorem intrinsicError_line {tokens : List Token} {c : Chunk} {e : IntrinsicError}
    (hparse : parse tokens = .ok c) (h : c.Lined L)
    (he : (expandIntrinsics (expandImports (expandCompound (hoistAssignments c)))).2 = some e) :
    L e.line := by
  have hsound : (expandImports (expandCompound (hoistAssignments c))).Sound .anything False :=
    (parse_chunk_sound hparse).passed [.assignments, .compound, .imports]
  rw [expandIntrinsics_first hsound] at he
  obtain ⟨v, hv, hbroken⟩ := List.exists_of_findSome?_eq_some he
  cases v with
  | root x s => cases hbroken
  | statement s behind =>
    obtain ⟨before, hlist⟩ := Chunk.hasVisit_of_mem hv
    obtain ⟨kind, line⟩ := s
    cases kind with
    | intrinsic i args =>
      have hline : L line := h.passed.of_hasList hlist ⟨.intrinsic i args, line⟩
        (Block.mem_deep_of_mem (by simp)) i args rfl
      have heq : e.line = line := by
        cases behind with
        | nil => cases hbroken; rfl
        | cons next rest =>
          simp only [Intrinsic.broken, Intrinsic.unpaired] at hbroken
          split at hbroken
          · cases hbroken
          · cases hbroken; rfl
      rwa [heq]
    | _ => cases hbroken

end Lined

/-! ## Errors of a text -/

/-- Only intrinsics fail. -/
theorem desugar_snd {constructor : String} {c : Chunk} : (desugar constructor c).2 =
    (expandIntrinsics (expandImports (expandCompound (hoistAssignments c)))).2 := by
  unfold desugar
  split <;> rename_i hintrinsics <;> rw [hintrinsics]

theorem parseSource_eq_error {source : String} {e : CompileError} :
    parseSource source = .error e ↔ (∃ e', tokenize source = .error e' ∧ e = .lex e') ∨
      ∃ tokens, tokenize source = .ok tokens ∧
        ∃ e', parse tokens = .error e' ∧ e = .parse e' := by
  unfold parseSource
  cases tokenize source with
  | error e' => simp [Except.mapError, bind, Except.bind, eq_comm]
  | ok tokens =>
    simp only [Except.mapError, bind, Except.bind, Except.ok.injEq, exists_eq_left', reduceCtorEq,
      false_and, exists_false, false_or]
    cases parse tokens <;> simp [eq_comm]

theorem compile_eq_error {constructor source : String} {e : CompileError} :
    compile constructor source = .error e ↔ parseSource source = .error e ∨
      ∃ parsed, parseSource source = .ok parsed ∧
        ∃ e', (desugar constructor parsed).2 = some e' ∧ e = .intrinsic e' := by
  unfold compile
  cases parseSource source with
  | error e' => simp [bind, Except.bind]
  | ok parsed =>
    simp only [bind, Except.bind, reduceCtorEq, false_or, Except.ok.injEq, exists_eq_left']
    rcases desugar constructor parsed with ⟨c', _ | e'⟩ <;> simp [eq_comm]

/-! ## Tokens and errors of a text by its lines -/

section Source

variable {source : String} {tokens : List Token}

/-- The intrinsics of a parsed chunk are on lines of tokens. -/
theorem parse_lined {c : Chunk} (h : parse tokens = .ok c) :
    c.Lined fun line => ∃ m, line = lineAt (significant tokens) m := by
  obtain ⟨hbody, hliterals⟩ := parse_begins h
  exact ⟨fun x body hx s hs _ _ _ => hliterals x body hx s hs, fun s hs _ _ _ => hbody s hs⟩

/-- The line of a token, by what is written before it. -/
theorem tokenize_cuts (hpaired : Lexer.Paired source.toList) (h : tokenize source = .ok tokens) :
    ∃ cuts last, Lexer.Cuts 1 source.toList cuts last ∧ tokens = cuts.map Prod.snd ∧
      (cuts.map Prod.fst).flatten = source.toList ∧
      ∀ before text token after, cuts = before ++ (text, token) :: after →
        token.line =
          1 + (Utf8.encode (String.ofList (before.map Prod.fst).flatten)).count 0x0A := by
  obtain ⟨cuts, last, hcuts, rfl⟩ := Lexer.tokensFrom_eq_ok_iff.1 h
  refine ⟨cuts, last, hcuts, rfl, hcuts.flatten_fst, fun before text token after hsplit => ?_⟩
  rw [Lexer.count_encode]
  exact hcuts.line_eq hpaired hsplit

/-- The number of a line of a text. -/
def Lexer.IsLine (cs : List Char) (line : ℕ) : Prop := 1 ≤ line ∧ line ≤ 1 + Lexer.lineFeeds cs

open Lexer (IsLine Paired)

theorem token_isLine (hpaired : Paired source.toList) (h : tokenize source = .ok tokens) :
    ∀ t ∈ tokens, IsLine source.toList t.line := by
  obtain ⟨cuts, last, hcuts, rfl⟩ := Lexer.tokensFrom_eq_ok_iff.1 h
  intro t ht
  obtain ⟨⟨text, token⟩, hcut, rfl⟩ := List.mem_map.1 ht
  obtain ⟨before, after, hsplit⟩ := List.append_of_mem hcut
  have hflatten := hcuts.flatten_fst
  rw [hsplit, List.map_append, List.flatten_append] at hflatten
  rw [IsLine, hcuts.line_eq hpaired hsplit, ← hflatten, Lexer.lineFeeds_append]
  omega

theorem lineAt_isLine (hpaired : Paired source.toList) (h : tokenize source = .ok tokens) (p : ℕ) :
    IsLine source.toList (lineAt (significant tokens) p) := by
  rcases lineAt_cases (significant tokens) p with heq | ⟨t, ht, heq⟩
  · rw [heq]
    exact ⟨le_rfl, Nat.le_add_right _ _⟩
  · rw [heq]
    exact token_isLine hpaired h t (List.mem_of_mem_filter ht)

/-- A fault of a parser is found at a token or at the end. -/
theorem parseError_line {e : ParseError} (h : parse tokens = .error e) :
    ∃ p, e.line = lineAt (significant tokens) p := by
  have hread := readText_goes_on tokens
  rw [parse_eq] at h
  cases hrun : readText tokens with
  | ok r =>
    rw [hrun] at h
    cases h
  | error e' =>
    rw [hrun] at h hread
    obtain rfl : e' = e := Except.error.inj h
    obtain ⟨-, s, hs, hline⟩ := hread
    obtain ⟨p, hp⟩ := hs.here_eq
    exact ⟨p, hline.trans hp⟩

/-- Whatever fails, it is on a line of the text. -/
theorem compileError_isLine (hpaired : Paired source.toList) {constructor : String}
    {e : CompileError} (h : compile constructor source = .error e) :
    IsLine source.toList e.line := by
  rcases compile_eq_error.1 h with hsource | ⟨parsed, hparsed, e', hdesugar, rfl⟩
  · rcases parseSource_eq_error.1 hsource with
      ⟨e', htokens, rfl⟩ | ⟨tokens, htokens, e', hparse, rfl⟩
    · exact Lexer.tokensFrom_error_line htokens hpaired
    · obtain ⟨p, hp⟩ := parseError_line hparse
      rw [CompileError.line, hp]
      exact lineAt_isLine hpaired htokens p
  · obtain ⟨tokens, htokens, hparse⟩ := parseSource_eq_ok.1 hparsed
    obtain ⟨m, hm⟩ := intrinsicError_line hparse (parse_lined hparse) (desugar_snd ▸ hdesugar)
    rw [CompileError.line, hm]
    exact lineAt_isLine hpaired htokens m

end Source

/-- **Lines are exact.** In a text whose carriage returns are each followed
by a line feed, every token is on the line that the line feeds before its
first byte lead to, and every error of `compile` is on a line of the text. -/
theorem compile_lines {source : String} (h : Lexer.Paired source.toList) :
    (∀ tokens, tokenize source = .ok tokens → tokens.Pairwise (fun t u => t.line ≤ u.line) ∧
      ∃ cuts last, Lexer.Cuts 1 source.toList cuts last ∧ tokens = cuts.map Prod.snd ∧
        (cuts.map Prod.fst).flatten = source.toList ∧
        ∀ before text token after, cuts = before ++ (text, token) :: after → token.line =
          1 + (Utf8.encode (String.ofList (before.map Prod.fst).flatten)).count 0x0A) ∧
    ∀ constructor e, compile constructor source = .error e →
      1 ≤ e.line ∧ e.line ≤ 1 + (Utf8.encode source).count 0x0A := by
  refine ⟨fun tokens htokens => ⟨(Lexer.tokensFrom_lines htokens).2, tokenize_cuts h htokens⟩,
    fun constructor e he => ?_⟩
  have hcount := Lexer.count_encode source.toList
  rw [String.ofList_toList] at hcount
  rw [hcount]
  exact compileError_isLine h he

/-- An intrinsic that nothing follows, behind a string and a comment over
several lines and a line break of two characters, and before a string that
goes on over line breaks. -/
theorem compile_lines_dangling :
    let source := "local a = [[\r\nx\n]] --[[\n]]\r\n@f('p\\\nq\\z \n r')"
    Lexer.Paired source.toList ∧ compile "h" source = .error (.intrinsic (.dangling 5)) ∧
      (1 ≤ 5 ∧ 5 ≤ 1 + (Utf8.encode source).count 0x0A) ∧
      ∃ tokens, tokenize source = .ok tokens ∧ tokens.Pairwise (fun t u => t.line ≤ u.line) ∧
        tokens.getLast?.map Token.line = some 7 := by
  intro source
  have hpaired : Lexer.Paired source.toList := by decide +kernel
  obtain ⟨htokens, herrors⟩ := compile_lines hpaired
  have hcompile : compile "h" source = .error (.intrinsic (.dangling 5)) := by cbv
  obtain ⟨tokens, ht, hline⟩ : ∃ tokens, tokenize source = .ok tokens ∧
      tokens.getLast?.map Token.line = some 7 := ⟨_, by cbv, by rfl⟩
  exact ⟨hpaired, hcompile, herrors _ _ hcompile, tokens, ht, (htokens tokens ht).1, hline⟩

end LuaSugar
