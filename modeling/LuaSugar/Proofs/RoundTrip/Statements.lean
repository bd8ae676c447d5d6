import Mathlib
import LuaSugar.Proofs.RoundTrip.Expressions
/-!
# Statements are read back

What stands behind a statement is nothing, a semicolon, a keyword or a
name. All of them end what the statement ends with, so it is read up to
there and no further.
-/

namespace LuaSugar

open LuaSugar.Parser

/-! ## What stands behind a statement -/

/-- Tokens that a statement ends before. -/
def TokenKind.endsStatement : TokenKind → Bool
  | keyword _ | name _ | operator .semicolon => true
  | _ => false

/-- A statement ends here. -/
def Apart (us : List TokenKind) : Prop := ∀ k ∈ us.head?, k.endsStatement

namespace Apart

variable {us : List TokenKind} {op : Operator}

theorem ends (h : Apart us) (minimum : ℕ) : Ends minimum us := by
  cases us with
  | nil => exact ends_nil minimum
  | cons k us =>
    have hk := h k rfl
    refine ends_cons minimum ?_ us
    cases k with
    | operator op => cases op <;> first | rfl | cases hk
    | keyword _ | name _ => rfl
    | _ => cases hk

theorem ne (h : Apart us) (hop : op ≠ .semicolon) : us.head? ≠ some (.operator op) := by
  intro hhead
  have hends := h _ hhead
  unfold TokenKind.endsStatement at hends
  split at hends <;> simp_all

theorem assignOp? (h : Apart us) : Grammar.assignOp? us.head? = none := by
  cases us with
  | nil => rfl
  | cons k us =>
    have hk := h k rfl
    cases k with
    | operator op => cases op <;> first | rfl | cases hk
    | _ => rfl

end Apart

/-! ## Names and paths -/

namespace Parser

variable {s : ParseState} {us : List TokenKind}

/-- **Lists of names** are read back. -/
theorem names_reads {names : List String} (hne : names ≠ [])
    (hus : us.head? ≠ some (.operator .comma)) (hs : s.Before (Wording.names names ++ us)) :
    (commaSeparated expectName).Reads s us fun _ names' => names' = names := by
  have hread : (commaSeparated expectName).Reads s us fun _ vs => List.Forall₂ Eq names vs := by
    refine commaSeparated_reads (P := fun _ => True) (fun _ hxv => hxv) trivial (fun _ => trivial) hus
      hne (fun name _ s vs _ hs _ => ?_) hs le_rfl
    have hs : s.Before (.name name :: vs) := hs
    rw [Reads, leaves_expectName, hs.kind?]
    exact ⟨.of_next hs.next, rfl⟩
  exact hread.imp fun _ vs hvs => (List.forall₂_eq_eq_eq ▸ hvs : names = vs).symm

/-- The tokens of names with points between them. -/
theorem tokens_dotted (first : String) (more : List String) :
    (Fragment.joined [.op .dot] ((first :: more).map fun name => [.name name])).tokens =
      .name first :: more.flatMap fun name => [.operator .dot, .name name] := by
  induction more generalizing first with
  | nil => rfl
  | cons next more ih =>
    rw [List.flatMap_cons, List.cons_append, List.cons_append, List.nil_append, ← ih next]
    rfl

/-- A path is names with points, and a name behind a colon if it is that of
a method. -/
theorem exists_path_tokens {path : FunctionPath} (hne : path.segments ≠ [])
    (hmethod : path.method → 2 ≤ path.segments.length) : ∃ first more, ∃ last : Option String,
      path = ⟨first :: more ++ last.toList, last.isSome⟩ ∧
      path.lexemes.tokens = .name first :: (more.flatMap fun name => [.operator .dot, .name name]) ++
        last.toList.flatMap fun name => [.operator .colon, .name name] := by
  obtain ⟨segments, method⟩ := path
  cases method with
  | false =>
    obtain ⟨first, more, rfl⟩ := List.exists_cons_of_ne_nil hne
    have hlexemes : FunctionPath.lexemes ⟨first :: more, false⟩ =
        Fragment.joined [.op .dot] ((first :: more).map fun name => [.name name]) := rfl
    exact ⟨first, more, none, by simp, by rw [hlexemes, tokens_dotted]; simp⟩
  | true =>
    obtain ⟨init, last, rfl⟩ := (List.eq_nil_or_concat segments).resolve_left hne
    obtain ⟨first, more, rfl⟩ : ∃ first more, init = first :: more := by
      have hlength := hmethod rfl
      exact List.exists_cons_of_ne_nil (by rintro rfl; simp at hlength)
    have hlexemes : FunctionPath.lexemes ⟨first :: more ++ [last], true⟩ =
        Fragment.joined [.op .dot] ((first :: more).map fun name => [.name name]) ++
          [.op .colon, .name last] := by
      rw [FunctionPath.lexemes, List.getLast?_concat, List.dropLast_concat]
    refine ⟨first, more, some last, by simp, ?_⟩
    rw [List.concat_eq_append, hlexemes, Fragment.tokens_append, tokens_dotted]
    rfl

/-- **Paths** are read back. -/
theorem functionPath_reads {path : FunctionPath} (hne : path.segments ≠ [])
    (hmethod : path.method → 2 ≤ path.segments.length)
    (hs : s.Before (path.lexemes.tokens ++ .operator .leftParen :: us)) :
    Grammar.functionPath.Reads s (.operator .leftParen :: us) fun _ path' => path' = path := by
  obtain ⟨first, more, last, hpath, htokens⟩ := exists_path_tokens hne hmethod
  let tail : List TokenKind := (last.toList.flatMap fun name => [.operator .colon, .name name]) ++
    .operator .leftParen :: us
  have hs : s.Before (.name first :: ((more.flatMap fun name => [.operator .dot, .name name]) ++ tail)) :=
    hs.cast (by rw [htokens]; simp [tail])
  rw [Grammar.functionPath, hs.expectName]
  -- the names are those that were read and those still ahead, and what
  -- follows is known from the latter
  refine reads_loop (I := fun segments _ ts => ∃ done todo, more = done ++ todo ∧
    segments = first :: done ∧ ts = (todo.flatMap fun name => [.operator .dot, .name name]) ++ tail)
    ?_ hs.next ⟨[], more, rfl, rfl, rfl⟩
  rintro _ s' _ - hs' ⟨done, todo, hmore, rfl, rfl⟩
  cases todo with
  | nil =>
    rw [List.append_nil] at hmore
    refine .inr ?_
    cases last with
    | none =>
      have hs' : s'.Before (.operator .leftParen :: us) := hs'
      rw [hs'.eatOp_of_ne (by simp), if_neg Bool.false_ne_true, hs'.eatOp_of_ne (by simp),
        if_neg Bool.false_ne_true]
      exact .pure hs' ⟨_, rfl, by rw [hpath, hmore]; simp⟩
    | some name =>
      have hs' : s'.Before (.operator .colon :: .name name :: .operator .leftParen :: us) := hs'
      rw [hs'.eatOp_of_ne (by simp), if_neg Bool.false_ne_true, hs'.eatOp, if_pos rfl,
        hs'.next.expectName]
      exact .pure hs'.next.next ⟨_, rfl, by rw [hpath, hmore]; simp⟩
  | cons name todo =>
    have hs' : s'.Before (.operator .dot :: .name name ::
        ((todo.flatMap fun name => [.operator .dot, .name name]) ++ tail)) := hs'
    refine .inl ⟨(todo.flatMap fun name => [.operator .dot, .name name]) ++ tail, ?_, ?_⟩
    · simp
    · rw [hs'.eatOp, if_pos rfl, hs'.next.expectName]
      exact .pure hs'.next.next ⟨_, rfl, done ++ [name], todo, by simp [hmore], rfl, rfl⟩

end Parser

namespace Grammar.Reads

variable {a : Arena} {h : ExprId → ℕ} {known : ExprId → Prop} {g : Grammar} {n : ℕ}
  {us : List TokenKind} {s : ParseState} {line : ℕ}

/-! ## Blocks and loops -/

/-- A list of statements in a block of its own. -/
theorem doBlock {body : Block} (hg : g.Reads a h known n) (hbody : Block.Readable a body)
    (hknown : ∀ x ∈ Block.ids body, known x)
    (hs : s.Before (a.wording.statementKind (.doBlock body) ++ us)) (hn : s.rest.length ≤ n) :
    (g.keywordStatement line .do_).Reads s us fun b kind => a.SameKind h b (.doBlock body) kind := by
  have hs : s.Before (.keyword .do_ :: (a.wording.block body ++ .keyword .end_ :: us)) :=
    hs.cast (by simp [Wording.statementKind])
  have hlength := hs.length_next
  show Parser.Reads (advance >>= _) _ _ _
  rw [reads_advance]
  refine (hg.block hbody hknown (.endWord us) hs.next (by omega)).map fun body' s₁ h₁ hbody' => ?_
  refine Arena.Compares.sameKind hbody' ?_ fun e he => ?_
  · simp [StmtKind.ids_eq, StmtKind.roots, StmtKind.blocks]
  · simpa only [Comparison.stmtKind] using he

/-- A loop with its condition in front. -/
theorem whileLoop {condition : ExprId} {body : Block} (hg : g.Reads a h known n)
    (hcondition : known condition) (hbody : Block.Readable a body)
    (hknown : ∀ x ∈ Block.ids body, known x)
    (hs : s.Before (a.wording.statementKind (.whileLoop condition body) ++ us))
    (hn : s.rest.length ≤ n) :
    (g.keywordStatement line .while_).Reads s us fun b kind =>
      a.SameKind h b (.whileLoop condition body) kind := by
  have hs : s.Before (.keyword .while_ :: (a.wording.expr condition ++
      .keyword .do_ :: (a.wording.block body ++ .keyword .end_ :: us))) :=
    hs.cast (by simp [Wording.statementKind])
  have hlength := hs.length_next
  show Parser.Reads (advance >>= _) _ _ _
  rw [reads_advance]
  refine (hg.expression (by omega) hcondition (ends_cons 1 rfl _) hs.next (by omega)).bind
    fun c s₁ h₁ hc => ?_
  have hlength₁ := hs.next.length_le h₁.before
  have hlength₂ := h₁.before.length_next
  rw [h₁.before.expectKeyword]
  refine (hg.block hbody hknown (.endWord us) h₁.before.next (by omega)).map
    fun body' s₂ h₂ hbody' => ?_
  refine Arena.Compares.sameKind ((hc.grow h₂.extend).and hbody') ?_ fun e he => ?_
  · simp [StmtKind.ids_eq, StmtKind.roots, StmtKind.blocks]
  · simp only [Comparison.stmtKind, he.1, he.2, Bool.and_self]

/-- A loop with its condition at the end. -/
theorem repeatLoop {condition : ExprId} {body : Block} (hg : g.Reads a h known n)
    (hcondition : known condition) (hbody : Block.Readable a body)
    (hknown : ∀ x ∈ Block.ids body, known x) (hus : Apart us)
    (hs : s.Before (a.wording.statementKind (.repeatLoop body condition) ++ us))
    (hn : s.rest.length ≤ n) :
    (g.keywordStatement line .repeat_).Reads s us fun b kind =>
      a.SameKind h b (.repeatLoop body condition) kind := by
  have hs : s.Before (.keyword .repeat_ :: (a.wording.block body ++
      .keyword .until_ :: (a.wording.expr condition ++ us))) :=
    hs.cast (by simp [Wording.statementKind])
  have hlength := hs.length_next
  show Parser.Reads (advance >>= _) _ _ _
  rw [reads_advance]
  refine (hg.block hbody hknown (.untilWord _) hs.next (by omega)).bind fun body' s₁ h₁ hbody' => ?_
  have hlength₁ := hs.next.length
  rw [List.length_append, List.length_cons, ← h₁.before.length] at hlength₁
  refine (hg.expression (by omega) hcondition (hus.ends 1) h₁.before (by omega)).map
    fun c s₂ h₂ hc => ?_
  refine Arena.Compares.sameKind (hc.and (Arena.Compares.grow hbody' h₂.extend)) ?_ fun e he => ?_
  · simp [StmtKind.ids_eq, StmtKind.roots, StmtKind.blocks]
  · simp only [Comparison.stmtKind, he.1, he.2, Bool.and_self]

/-- A loop over numbers. -/
theorem forNumeric {var : String} {start limit : ExprId} {step : Option ExprId} {body : Block}
    (hg : g.Reads a h known n) (hroots : ∀ x ∈ start :: limit :: step.toList, known x)
    (hbody : Block.Readable a body) (hknown : ∀ x ∈ Block.ids body, known x)
    (hs : s.Before (a.wording.statementKind (.forNumeric var start limit step body) ++ us))
    (hn : s.rest.length ≤ n) :
    (g.keywordStatement line .for_).Reads s us fun b kind =>
      a.SameKind h b (.forNumeric var start limit step body) kind := by
  let tail : List TokenKind := .keyword .do_ :: (a.wording.block body ++ .keyword .end_ :: us)
  let more : List TokenKind := (step.toList.flatMap fun x => .operator .comma :: a.wording.expr x) ++ tail
  have hs : s.Before (.keyword .for_ :: .name var :: .operator .assign :: (a.wording.expr start ++
      .operator .comma :: (a.wording.expr limit ++ more))) :=
    hs.cast (by
      cases step <;> simp [Wording.statementKind, Wording.exprs, Wording.listed,
        List.intercalate_cons_cons, more, tail])
  have hmore : Ends 1 more := by cases step <;> exact ends_cons 1 rfl _
  have hlength := hs.length
  simp only [List.length_cons] at hlength
  -- the range is read, and the step if there is one
  have htail {start' limit' : ExprId} {step' : Option ExprId} {s' : ParseState} (hs' : s'.Before tail)
      (hn' : s'.rest.length ≤ n)
      (hc : a.Compares h (start :: limit :: step.toList) (fun e => e start start' ∧ e limit limit' ∧
        e.exprs step.toList step'.toList) s'.arena) :
      Parser.Reads (do
        expectKeyword .do_
        let body ← g.block .endWord
        pure (StmtKind.forNumeric var start' limit' step' body)) s' us fun b kind =>
          a.SameKind h b (.forNumeric var start limit step body) kind := by
    have hfewer := hs'.length_next
    rw [hs'.expectKeyword]
    refine (hg.block hbody hknown (.endWord us) hs'.next (by omega)).bind fun body' s₁ h₁ hbody' => ?_
    refine .pure h₁.before (Arena.Compares.sameKind ((hc.grow h₁.extend).and hbody') ?_ fun e he => ?_)
    · simp [StmtKind.ids_eq, StmtKind.roots, StmtKind.blocks]
    · simp only [Comparison.stmtKind, beq_self_eq_true, he.1.1, he.1.2.1, he.1.2.2, he.2, Bool.and_self]
  show Parser.Reads (advance >>= fun _ => g.forLoop) _ _ _
  rw [reads_advance, Grammar.forLoop, hs.next.expectName, hs.next.next.eatOp, if_pos rfl]
  have h₀ := hs.next.next.next
  refine (hg.expression (by omega) (hroots start (by simp)) (ends_cons 1 rfl _) h₀
    (by rw [h₀.length]; omega)).bind fun start' s₁ h₁ hstart => ?_
  rw [h₁.before.expectOp]
  have hlength₁ := h₀.length_le h₁.before
  have hlength₂ := h₁.before.length_next
  rw [h₀.length] at hlength₁
  refine (hg.expression (by omega) (hroots limit (by simp)) hmore h₁.before.next (by omega)).bind
    fun limit' s₂ h₂ hlimit => ?_
  have hrange := (hstart.grow h₂.extend).and hlimit
  have hlength₃ := h₁.before.next.length_le h₂.before
  cases step with
  | none =>
    have hs₂ : s₂.Before tail := h₂.before
    rw [hs₂.eatOp_of_ne (by simp [tail])]
    refine htail hs₂ (by omega) (hrange.imp fun e he => ⟨he.1, he.2, rfl⟩)
  | some x =>
    have hs₂ : s₂.Before (.operator .comma :: (a.wording.expr x ++ tail)) :=
      h₂.before.cast (by simp [more])
    have hlength₄ := hs₂.length_next
    rw [hs₂.eatOp, if_pos rfl, map_eq_pure_bind, bind_assoc]
    refine (hg.expression (by omega) (hroots x (by simp)) (ends_cons 1 rfl _) hs₂.next
      (by omega)).bind fun x' s₃ h₃ hx => ?_
    have hlength₅ := hs₂.next.length_le h₃.before
    refine htail h₃.before (by omega) (((hrange.grow h₃.extend).and hx).imp fun e he => ?_)
    exact ⟨he.1.1, he.1.2, Comparison.isEqv_iff_forall₂.2 (.cons he.2 .nil)⟩

/-- A loop over iterators. -/
theorem forGeneric {names : List String} {iterators : List ExprId} {body : Block}
    (hg : g.Reads a h known n) (hnames : names ≠ []) (hiterators : iterators ≠ [])
    (hroots : ∀ x ∈ iterators, known x) (hbody : Block.Readable a body)
    (hknown : ∀ x ∈ Block.ids body, known x)
    (hs : s.Before (a.wording.statementKind (.forGeneric names iterators body) ++ us))
    (hn : s.rest.length ≤ n) :
    (g.keywordStatement line .for_).Reads s us fun b kind =>
      a.SameKind h b (.forGeneric names iterators body) kind := by
  let tail : List TokenKind := .keyword .in_ :: (a.wording.exprs iterators ++
    .keyword .do_ :: (a.wording.block body ++ .keyword .end_ :: us))
  obtain ⟨first, more, rfl⟩ := List.exists_cons_of_ne_nil hnames
  -- what follows the names is read alike, be there one or more
  have htail {s' : ParseState} (hs' : s'.Before tail) (hn' : s'.rest.length ≤ n) :
      Parser.Reads (do
        expectKeyword .in_
        let iterators ← g.expressionList
        expectKeyword .do_
        let body ← g.block .endWord
        pure (StmtKind.forGeneric (first :: more) iterators body)) s' us fun b kind =>
          a.SameKind h b (.forGeneric (first :: more) iterators body) kind := by
    have hfewer := hs'.length_next
    rw [hs'.expectKeyword]
    refine (expressionList hg hiterators hroots (ends_cons 1 rfl _) (by simp) hs'.next
      (by omega)).bind fun iterators' s₁ h₁ hiterators' => ?_
    have hlength₁ := hs'.next.length_le h₁.before
    have hlength₂ := h₁.before.length_next
    rw [h₁.before.expectKeyword]
    refine (hg.block hbody hknown (.endWord us) h₁.before.next (by omega)).bind
      fun body' s₂ h₂ hbody' => ?_
    refine .pure h₂.before (Arena.Compares.sameKind
      (((Arena.compares_exprs hiterators').grow h₂.extend).and hbody') ?_ fun e he => ?_)
    · simp [StmtKind.ids_eq, StmtKind.roots, StmtKind.blocks]
    · simp only [Comparison.stmtKind, beq_self_eq_true, he.1, he.2, Bool.and_self]
  show Parser.Reads (advance >>= fun _ => g.forLoop) _ _ _
  rw [reads_advance]
  cases more with
  | nil =>
    have hs : s.Before (.keyword .for_ :: .name first :: tail) :=
      hs.cast (by simp [Wording.statementKind, Wording.names, Wording.listed, tail])
    have hlength := hs.length_next
    have hlength' := hs.next.length_next
    have hs₀ := hs.next.next
    rw [Grammar.forLoop, hs.next.expectName, hs₀.eatOp_of_ne (by simp [tail]),
      if_neg Bool.false_ne_true, hs₀.eatOp_of_ne (by simp [tail])]
    exact htail hs₀ (by omega)
  | cons next more =>
    have hs : s.Before (.keyword .for_ :: .name first :: .operator .comma ::
        (Wording.names (next :: more) ++ tail)) :=
      hs.cast (by
        simp [Wording.statementKind, Wording.names, Wording.listed, List.intercalate_cons_cons, tail])
    have hlength := hs.length_next
    have hlength' := hs.next.length_next
    have hlength₀ := hs.next.next.length_next
    have hs₀ := hs.next.next
    rw [Grammar.forLoop, hs.next.expectName, hs₀.eatOp_of_ne (by simp), if_neg Bool.false_ne_true,
      hs₀.eatOp, if_pos rfl]
    refine (names_reads (List.cons_ne_nil _ _) (by simp [tail]) hs₀.next).bind fun names s₁ h₁ hnames => ?_
    have hlength₁ := hs₀.next.length_le h₁.before
    rw [hnames]
    exact htail h₁.before (by omega)

/-! ## Arms -/

/-- **A chain of arms** is read back, behind its keyword. -/
theorem conditionalArm {arm : IfArm} (hw : a.Script h known) (hg : g.Reads a h known n)
    (hbodies : ∀ body ∈ arm.bodies, Block.Readable a body) (hknown : ∀ x ∈ arm.ids, known x)
    (hs : s.Before ((a.wording.ifArm .if_ arm).tail ++ us)) (hn : s.rest.length ≤ n) :
    (g.conditionalArm line).Reads s us fun b arm' =>
      a.Compares h arm.ids (fun e => e.ifArm arm arm') b := by
  obtain ⟨condition, body, line', otherwise⟩ := arm
  have hcondition : known condition := hknown _ (by simp [IfArm.ids, IfArm.conditions])
  have hbody : Block.Readable a body := hbodies _ (by simp [IfArm.bodies])
  have hids : ∀ x ∈ Block.ids body, known x := fun x hx =>
    hknown x (by simp [IfArm.ids, IfArm.bodies, hx])
  have hs : s.Before (a.wording.expr condition ++ .keyword .then_ :: (a.wording.block body ++
      (a.wording.elseArm otherwise ++ us))) :=
    hs.cast (by simp [Wording.ifArm])
  rw [Grammar.conditionalArm]
  refine (operation hw hg (by decide) hcondition (ends_cons 1 rfl _) hs hn).bind
    fun condition' s₁ h₁ hcondition' => ?_
  have hlength₁ := hs.length_le h₁.before
  have hlength₂ := h₁.before.length_next
  rw [h₁.before.expectKeyword]
  -- the body is read alike in all three cases; only its end differs
  have hbranch {vs : List TokenKind} {word : Keyword} (hword : word ∈ [Keyword.end_, .else_, .elseif_])
      (hvs : a.wording.elseArm otherwise ++ us = .keyword word :: vs) :
      (g.block .arm).Reads s₁.next (.keyword word :: vs) fun b body' => a.SameBlock h b body body' := by
    rw [hvs] at h₁
    exact hg.block hbody hids (.arm hword vs) h₁.before.next (by omega)
  cases otherwise with
  | absent =>
    refine (hbranch (by decide) rfl).bind fun body' s₂ h₂ hbody' => ?_
    rw [reads_line, h₂.before.eatKeyword_of_ne (by simp), if_neg Bool.false_ne_true,
      h₂.before.eatKeyword_of_ne (by simp), if_neg Bool.false_ne_true, h₂.before.expectKeyword]
    refine .pure h₂.before.next ((((hcondition'.grow (h₂.extend)).and hbody').mono ?_).imp
      fun e he => ?_)
    · simp [IfArm.ids, IfArm.conditions, IfArm.bodies, ElseArm.conditions, ElseArm.bodies]
    · simp only [Comparison.ifArm, Comparison.elseArm, he.1, he.2, Bool.and_self]
  | elseIf arm =>
    have hworded : a.wording.elseArm (.elseIf arm) ++ us =
        .keyword .elseif_ :: ((a.wording.ifArm .if_ arm).tail ++ us) := by
      cases arm
      simp [Wording.elseArm, Wording.ifArm]
    refine (hbranch (by decide) hworded).bind fun body' s₂ h₂ hbody' => ?_
    have hlength₃ := h₂.before.length
    rw [← hworded, List.length_append] at hlength₃
    have hlength₄ := h₁.before.next.length
    simp only [List.length_append] at hlength₄
    have hlength₅ := h₂.before.length_next
    rw [reads_line, h₂.before.eatKeyword, if_pos rfl]
    have hsub : [condition] ++ Block.ids body ++ arm.ids ⊆
        IfArm.ids ⟨condition, body, line', .elseIf arm⟩ := by
      intro x
      simp only [IfArm.ids, IfArm.conditions, IfArm.bodies, ElseArm.conditions, ElseArm.bodies,
        List.flatMap_cons, List.mem_append, List.mem_cons, List.not_mem_nil, or_false]
      tauto
    refine (hg.ifArm (fun b hb => hbodies b (by simp [IfArm.bodies, ElseArm.bodies, hb]))
      (fun x hx => hknown x (hsub (List.mem_append_right _ hx))) h₂.before.next (by omega)).bind
      fun arm' s₃ h₃ harm' => ?_
    refine .pure h₃.before (((((hcondition'.grow h₂.extend).and hbody').grow h₃.extend).and
      harm').mono hsub |>.imp fun e he => ?_)
    simp only [Comparison.ifArm, Comparison.elseArm, he.1.1, he.1.2, he.2, Bool.and_self]
  | elseBlock otherwise elseLine =>
    have hworded : a.wording.elseArm (.elseBlock otherwise elseLine) ++ us =
        .keyword .else_ :: (a.wording.block otherwise ++ .keyword .end_ :: us) := by
      simp [Wording.elseArm]
    refine (hbranch (by decide) hworded).bind fun body' s₂ h₂ hbody' => ?_
    have hlength₃ := h₂.before.length
    rw [← hworded, List.length_append] at hlength₃
    have hlength₄ := h₁.before.next.length
    simp only [List.length_append] at hlength₄
    have hlength₅ := h₂.before.length_next
    rw [reads_line, h₂.before.eatKeyword_of_ne (by simp), if_neg Bool.false_ne_true,
      h₂.before.eatKeyword, if_pos rfl]
    refine (hg.block (hbodies otherwise (by simp [IfArm.bodies, ElseArm.bodies]))
      (fun x hx => hknown x (by simp [IfArm.ids, IfArm.bodies, ElseArm.bodies, hx])) (.endWord us)
      h₂.before.next (by omega)).bind fun otherwise' s₃ h₃ hotherwise' => ?_
    refine .pure h₃.before (((((hcondition'.grow h₂.extend).and hbody').grow h₃.extend).and
      hotherwise').mono ?_ |>.imp fun e he => ?_)
    · simp [IfArm.ids, IfArm.conditions, IfArm.bodies, ElseArm.conditions, ElseArm.bodies]
    · simp only [Comparison.ifArm, Comparison.elseArm, he.1.1, he.1.2, he.2, Bool.and_self]

/-- An `if` with its arms. -/
theorem ifChain {arm : IfArm} (hg : g.Reads a h known n)
    (hbodies : ∀ body ∈ arm.bodies, Block.Readable a body) (hknown : ∀ x ∈ arm.ids, known x)
    (hs : s.Before (a.wording.statementKind (.ifChain arm) ++ us)) (hn : s.rest.length ≤ n) :
    (g.keywordStatement line .if_).Reads s us fun b kind => a.SameKind h b (.ifChain arm) kind := by
  have hs : s.Before (.keyword .if_ :: ((a.wording.ifArm .if_ arm).tail ++ us)) :=
    hs.cast (by cases arm; simp [Wording.statementKind, Wording.ifArm])
  have hlength := hs.length_next
  show Parser.Reads (advance >>= _) _ _ _
  rw [reads_advance]
  refine (hg.ifArm hbodies hknown hs.next (by omega)).map fun arm' s₁ h₁ harm' => ?_
  refine Arena.Compares.sameKind harm' ?_ fun e he => ?_
  · rw [StmtKind.ids_eq]
    exact List.Subset.refl _
  · simpa only [Comparison.stmtKind] using he

/-! ## Functions and declarations -/

/-- A function with its path. -/
theorem function {path : FunctionPath} {func : FuncBody} (hg : g.Reads a h known n)
    (hpath : Vocabulary.readable.Path path) (hbody : Block.Readable a func.body)
    (hknown : ∀ x ∈ Block.ids func.body, known x)
    (hs : s.Before (a.wording.statementKind (.function path func) ++ us)) (hn : s.rest.length ≤ n) :
    (g.keywordStatement line .function_).Reads s us fun b kind =>
      a.SameKind h b (.function path func) kind := by
  have hs : s.Before (.keyword .function_ :: (path.lexemes.tokens ++
      (Wording.params func.params func.variadic ++
        (a.wording.block func.body ++ .keyword .end_ :: us)))) :=
    hs.cast (by cases func; simp [Wording.statementKind, Wording.funcBody])
  have hlength := hs.length_next
  show Parser.Reads (advance >>= _) _ _ _
  rw [reads_advance]
  refine (functionPath_reads hpath.1 hpath.2.1 hs.next).bind fun path' s₁ h₁ hpath' => ?_
  have hlength₁ := hs.next.length_le h₁.before
  refine (funcBody hg hbody hknown h₁.before (by omega)).map fun func' s₂ h₂ hfunc => ?_
  rw [hpath']
  refine Arena.Compares.sameKind hfunc ?_ fun e he => ?_
  · simp [StmtKind.ids_eq, StmtKind.roots, StmtKind.blocks]
  · simp only [Comparison.stmtKind, beq_self_eq_true, he, Bool.and_self]

/-- A function that is a local variable. -/
theorem localFunction {name : String} {func : FuncBody} (hg : g.Reads a h known n)
    (hbody : Block.Readable a func.body) (hknown : ∀ x ∈ Block.ids func.body, known x)
    (hs : s.Before (a.wording.statementKind (.localFunction name func) ++ us))
    (hn : s.rest.length ≤ n) :
    (g.keywordStatement line .local_).Reads s us fun b kind =>
      a.SameKind h b (.localFunction name func) kind := by
  have hs : s.Before (.keyword .local_ :: .keyword .function_ :: .name name ::
      (Wording.params func.params func.variadic ++
        (a.wording.block func.body ++ .keyword .end_ :: us))) :=
    hs.cast (by cases func; simp [Wording.statementKind, Wording.funcBody])
  have hlength := hs.length
  simp only [List.length_cons] at hlength
  show Parser.Reads (advance >>= fun _ => g.localDeclaration) _ _ _
  rw [reads_advance, Grammar.localDeclaration, hs.next.eatKeyword, if_pos rfl,
    hs.next.next.expectName]
  have h₀ := hs.next.next.next
  refine (funcBody hg hbody hknown h₀ (by rw [h₀.length]; omega)).bind fun func' s₁ h₁ hfunc => ?_
  refine .pure h₁.before (Arena.Compares.sameKind hfunc ?_ fun e he => ?_)
  · simp [StmtKind.ids_eq, StmtKind.roots, StmtKind.blocks]
  · simp only [Comparison.stmtKind, beq_self_eq_true, he, Bool.and_self]

/-- Local variables, with their values if they have any. -/
theorem localDecl {names : List String} {values : List ExprId} (hg : g.Reads a h known n)
    (hnames : names ≠ []) (hroots : ∀ x ∈ values, known x) (hus : Apart us)
    (hs : s.Before (a.wording.statementKind (.localDecl names values) ++ us)) (hn : s.rest.length ≤ n) :
    (g.keywordStatement line .local_).Reads s us fun b kind =>
      a.SameKind h b (.localDecl names values) kind := by
  let tail : List TokenKind := if values = [] then us else .operator .assign :: (a.wording.exprs values ++ us)
  have hs : s.Before (.keyword .local_ :: (Wording.names names ++ tail)) :=
    hs.cast (by cases values <;> simp [Wording.statementKind, tail])
  have hlength := hs.length_next
  have hcomma : tail.head? ≠ some (.operator .comma) := by
    by_cases hnone : values = []
    · simpa [tail, hnone] using hus.ne (by decide)
    · simp [tail, hnone]
  -- names come first, so this is not a local function
  have hopens : (Wording.names names ++ tail).head? ≠ some (.keyword .function_) := by
    obtain ⟨first, more, rfl⟩ := List.exists_cons_of_ne_nil hnames
    cases more <;> simp [Wording.names, Wording.listed, List.intercalate_cons_cons]
  show Parser.Reads (advance >>= fun _ => g.localDeclaration) _ _ _
  rw [reads_advance, Grammar.localDeclaration, hs.next.eatKeyword_of_ne hopens,
    if_neg Bool.false_ne_true]
  refine (names_reads hnames hcomma hs.next).bind fun names' s₁ h₁ hnames' => ?_
  have hlength₁ := hs.next.length_le h₁.before
  rw [hnames']
  by_cases hnone : values = []
  · subst hnone
    have hs₁ : s₁.Before us := h₁.before
    rw [hs₁.eatOp_of_ne (hus.ne (by decide))]
    refine .pure hs₁ (Arena.Compares.sameKind (.of_forall fun _ => trivial) (List.nil_subset _) ?_)
    rintro e -
    simp [Comparison.stmtKind, Comparison.exprs]
  · have hs₁ : s₁.Before (.operator .assign :: (a.wording.exprs values ++ us)) :=
      h₁.before.cast (if_neg hnone)
    have hlength₂ := hs₁.length_next
    rw [hs₁.eatOp, if_pos rfl]
    refine (expressionList hg hnone hroots (hus.ends 1) (hus.ne (by decide)) hs₁.next (by omega)).bind
      fun values' s₂ h₂ hvalues' => ?_
    refine .pure h₂.before (Arena.Compares.sameKind (Arena.compares_exprs hvalues') ?_ fun e he => ?_)
    · simp [StmtKind.ids_eq, StmtKind.roots, StmtKind.blocks]
    · simp only [Comparison.stmtKind, beq_self_eq_true, he, Bool.and_self]

/-! ## Statements without lists -/

/-- A return, which is bare before the end of its list. -/
theorem ret {values : List ExprId} (hw : a.Script h known) (hg : g.Reads a h known n)
    (hroots : ∀ x ∈ values, known x) (hus : Apart us) (hbare : returnIsBare us.head?)
    (hs : s.Before (a.wording.statementKind (.ret values) ++ us)) (hn : s.rest.length ≤ n) :
    (g.keywordStatement line .return_).Reads s us fun b kind => a.SameKind h b (.ret values) kind := by
  have hs : s.Before (.keyword .return_ :: (a.wording.exprs values ++ us)) :=
    hs.cast (by simp [Wording.statementKind])
  have hlength := hs.length_next
  show Parser.Reads (advance >>= fun _ => current >>= _) _ _ _
  rw [reads_advance, hs.next.current]
  cases values with
  | nil =>
    have hs' : s.next.Before us := hs.next
    have hbare : returnIsBare (a.wording.exprs [] ++ us).head? := hbare
    rw [if_pos hbare]
    refine .pure hs' (Arena.Compares.sameKind (.of_forall fun _ => trivial) (List.nil_subset _) ?_)
    rintro e -
    simp [Comparison.stmtKind, Comparison.exprs]
  | cons value values =>
    obtain ⟨k, rest, hk, hopens⟩ := hw.exprs_opens hroots
    -- what opens an expression does not end a list of statements
    have hvalue : ¬ returnIsBare (a.wording.exprs (value :: values) ++ us).head? := by
      rw [hk]
      cases k with
      | operator op => cases op <;> first | exact Bool.false_ne_true | cases hopens
      | keyword word => cases word <;> first | exact Bool.false_ne_true | cases hopens
      | invalid => cases hopens
      | _ => exact Bool.false_ne_true
    rw [if_neg hvalue]
    refine (expressionList hg (List.cons_ne_nil _ _) hroots (hus.ends 1) (hus.ne (by decide)) hs.next
      (by omega)).map fun values' s₁ h₁ hvalues' => ?_
    refine Arena.Compares.sameKind (Arena.compares_exprs hvalues') ?_ fun e he => ?_
    · simp [StmtKind.ids_eq, StmtKind.roots, StmtKind.blocks]
    · simpa only [Comparison.stmtKind] using he

/-- What may be assigned to is found assignable. -/
theorem reads_checkAssignable {α : Type} {target : ExprId} {f : Unit → Parser α} {J : Arena → α → Prop}
    (ht : (s.arena.get target).isAssignable) :
    (checkAssignable target >>= f).Reads s us J ↔ (f ()).Reads s us J := by
  rw [Parser.Reads, leaves_bind, checkAssignable, leaves_bind, leaves_get]
  generalize s.arena.get target = e at ht ⊢
  rcases e with x | x <;> cases x <;> first | exact Iff.rfl | cases ht

theorem reads_checkAllAssignable {α : Type} {f : Unit → Parser α} {J : Arena → α → Prop} :
    ∀ {targets : List ExprId}, (∀ t ∈ targets, (s.arena.get t).isAssignable) →
      ((targets.forM checkAssignable >>= f).Reads s us J ↔ (f ()).Reads s us J)
  | [], _ => Iff.rfl
  | t :: targets, ht => by
    rw [List.forall_mem_cons] at ht
    rw [List.forM, bind_assoc, reads_checkAssignable ht.1]
    exact reads_checkAllAssignable ht.2

/-- A call. -/
theorem call {i : ExprId} (hw : a.Script h known) (hg : g.Reads a h known n) (hi : known i)
    (hcall : (a.get i).isCall) (hus : Apart us)
    (hs : s.Before (a.wording.statementKind (.call i) ++ us)) (hn : s.rest.length ≤ n) :
    g.expressionStatement.Reads s us fun b kind => a.SameKind h b (.call i) kind := by
  have hs : s.Before (a.wording.expr i ++ us) := hs.cast (by rw [Wording.statementKind])
  rw [Grammar.expressionStatement]
  refine (expr_suffixed hw hg hi (Expr.isUnary_of_isCall hcall) (hus.ends 1).suffix hs hn).bind
    fun j s₁ h₁ hj => ?_
  have hnext : ¬ (us.head? == some (.operator .assign) || us.head? == some (.operator .comma)) := by
    simp [hus.ne (by decide : Operator.assign ≠ .semicolon),
      hus.ne (by decide : Operator.comma ≠ .semicolon)]
  obtain ⟨e, he⟩ := hj.expr
  have hcall' := Comparison.isCall_of_expr he hcall
  rw [h₁.before.current, if_neg hnext, hus.assignOp?]
  dsimp only
  rw [Parser.Reads, leaves_bind, leaves_get]
  split
  · refine ⟨.refl h₁.before, Arena.Compares.sameKind hj ?_ fun e he => ?_⟩
    · simp [StmtKind.ids_eq, StmtKind.roots, StmtKind.blocks]
    · simpa only [Comparison.stmtKind] using he
  · rename_i hother
    unfold Expr.isCall at hcall'
    split at hcall'
    · exact absurd ‹_› (hother _ _ _)
    · cases hcall'

/-- **An assignment.** -/
theorem assign {targets values : List ExprId} (hw : a.Script h known) (hg : g.Reads a h known n)
    (htargets : targets ≠ []) (hvalues : values ≠ []) (hroots : ∀ x ∈ targets ++ values, known x)
    (hassignable : ∀ t ∈ targets, (a.get t).isAssignable) (hus : Apart us)
    (hs : s.Before (a.wording.statementKind (.assign targets values) ++ us)) (hn : s.rest.length ≤ n) :
    g.expressionStatement.Reads s us fun b kind => a.SameKind h b (.assign targets values) kind := by
  obtain ⟨target, more, rfl⟩ := List.exists_cons_of_ne_nil htargets
  let tail : List TokenKind := .operator .assign :: (a.wording.exprs values ++ us)
  have hitem {x : ExprId} (hx : x ∈ target :: more) {s : ParseState} {vs : List TokenKind}
      (hvs : NoSuffix vs) (hs : s.Before (a.wording.expr x ++ vs)) (hn : s.rest.length ≤ n) :
      (g.suffixed true).Reads s vs fun b j => a.Same h b x j :=
    expr_suffixed hw hg (hroots x (List.mem_append_left _ hx))
      (Expr.isUnary_of_isAssignable (hassignable x hx)) hvs hs hn
  -- the targets are read, however many there are
  have htail {targets' : List ExprId} {s' : ParseState} (hs' : s'.Before tail)
      (hn' : s'.rest.length ≤ n) (hc : List.Forall₂ (a.Same h s'.arena) (target :: more) targets') :
      Parser.Reads (do
        targets'.forM checkAssignable
        expectOp .assign
        let values ← g.expressionList
        pure (StmtKind.assign targets' values)) s' us fun b kind =>
          a.SameKind h b (.assign (target :: more) values) kind := by
    have hfewer := hs'.length_next
    have hfound : ∀ t ∈ targets', (s'.arena.get t).isAssignable := by
      intro t ht
      obtain ⟨k, hk, rfl⟩ := List.getElem_of_mem ht
      have hsame := hc.get (by rw [hc.length_eq]; exact hk) hk
      obtain ⟨e, he⟩ := hsame.expr
      exact Comparison.isAssignable_of_expr he (hassignable _ (List.get_mem _ _))
    rw [reads_checkAllAssignable hfound, hs'.expectOp]
    refine (expressionList hg hvalues (fun x hx => hroots x (List.mem_append_right _ hx)) (hus.ends 1)
      (hus.ne (by decide)) hs'.next (by omega)).bind fun values' s₁ h₁ hvalues' => ?_
    refine .pure h₁.before (Arena.Compares.sameKind
      (((Arena.compares_exprs hc).grow h₁.extend).and (Arena.compares_exprs hvalues')) ?_ fun e he => ?_)
    · simp [StmtKind.ids_eq, StmtKind.roots, StmtKind.blocks]
    · simp only [Comparison.stmtKind, he.1, he.2, Bool.and_self]
  rw [Grammar.expressionStatement]
  cases more with
  | nil =>
    have hs : s.Before (a.wording.expr target ++ tail) :=
      hs.cast (by simp [Wording.statementKind, Wording.exprs, Wording.listed, tail])
    refine (hitem List.mem_cons_self (ends_cons 1 rfl _).suffix hs hn).bind fun j s₁ h₁ hj => ?_
    have hlength₁ := hs.length_le h₁.before
    rw [h₁.before.current, if_pos (by simp), h₁.before.eatOp_of_ne (by simp)]
    exact htail h₁.before (by omega) (.cons hj .nil)
  | cons next more =>
    have hs : s.Before (a.wording.expr target ++ .operator .comma ::
        (Wording.listed ((next :: more).map a.wording.expr) ++ tail)) :=
      hs.cast (by
        simp [Wording.statementKind, Wording.exprs, Wording.listed, List.intercalate_cons_cons, tail])
    refine (hitem List.mem_cons_self (ends_cons 1 rfl _).suffix hs hn).bind fun j s₁ h₁ hj => ?_
    have hlength₁ := hs.length_le h₁.before
    have hlength₂ := h₁.before.length_next
    rw [h₁.before.current, if_pos (by simp), h₁.before.eatOp, if_pos rfl]
    refine (commaSeparated_reads (P := NoSuffix) (n := n) (R := a.Same h) (fun hb hxv => hxv.grow hb)
      (ends_cons 1 rfl _).suffix (fun vs => (ends_cons 1 rfl vs).suffix) (by simp)
      (List.cons_ne_nil next more)
      (fun x hx s vs hvs hs hn => hitem (List.mem_cons_of_mem _ hx) hvs hs hn) h₁.before.next
      (by omega)).bind fun js s₂ h₂ hjs => ?_
    have hlength₃ := h₁.before.next.length_le h₂.before
    exact htail h₂.before (by omega) (.cons (hj.grow h₂.extend) hjs)

end Grammar.Reads

end LuaSugar
