import Mathlib
import LuaSugar.Proofs.Render.Spelled
import LuaSugar.Proofs.RoundTrip.Statements
/-!
# Lists of statements are read back

The statements of a list stand one behind the other, with a semicolon where
the next would go on from the one before. A statement is told from the end
of its list by the token it begins with.

With lists everything is read back that the grammar is made of. It reads
as many tokens as it is unrolled, so unrolled once more it reads one more.
-/

namespace LuaSugar

open LuaSugar.Parser

/-! ## How statements begin -/

/-- Tokens that a statement begins with. -/
def TokenKind.opensStatement : TokenKind → Bool
  | keyword .end_ | keyword .else_ | keyword .elseif_ | keyword .until_ => false
  | keyword _ | name _ | operator .leftParen => true
  | _ => false

theorem TokenKind.opensStatement_of_opensSubject {k : TokenKind} (h : k.opensSubject) :
    k.opensStatement := by
  unfold opensSubject at h
  split at h <;> first | rfl | cases h

/-- Behind another statement, an operator has a semicolon before it. -/
def Wording.behind (ts : List TokenKind) : List TokenKind :=
  if ts.head? = some (.operator .leftParen) then .operator .semicolon :: ts else ts

namespace Arena.Script

variable {a : Arena} {h : ExprId → ℕ} {known : ExprId → Prop}

/-- Calls and assignments begin with an expression. -/
theorem statementKind_opensSubject (hw : a.Script h known) {kind : StmtKind} (hk : kind.Readable a)
    (hroots : ∀ x ∈ kind.roots, known x)
    (hkind : (∃ i, kind = .call i) ∨ ∃ targets values, kind = .assign targets values) :
    ∃ k rest, a.wording.statementKind kind = k :: rest ∧ k.opensSubject := by
  obtain ⟨hvalid, -, -⟩ := hk
  rcases hkind with ⟨i, rfl⟩ | ⟨targets, values, rfl⟩
  · obtain ⟨k, rest, hexpr, hopens⟩ := hw.expr_opensSubject (hroots i (by simp [StmtKind.roots]))
      (.inl hvalid)
    exact ⟨k, rest, by rw [Wording.statementKind, hexpr], hopens⟩
  · obtain ⟨hne, -, htargets⟩ := hvalid
    obtain ⟨target, more, rfl⟩ := List.exists_cons_of_ne_nil hne
    obtain ⟨k, rest, hexpr, hopens⟩ := hw.expr_opensSubject
      (hroots target (by simp [StmtKind.roots])) (.inr (htargets target List.mem_cons_self))
    rw [Wording.statementKind, Wording.exprs, Wording.listed, List.map_cons, intercalate_cons, hexpr]
    exact ⟨_, _, rfl, hopens⟩

/-- **A statement** begins as one, unless it is ignored. -/
theorem statementKind_opens (hw : a.Script h known) {kind : StmtKind} (hk : kind.Readable a)
    (hroots : ∀ x ∈ kind.roots, known x) (hsome : kind ≠ .ignore) :
    ∃ k rest, a.wording.statementKind kind = k :: rest ∧ k.opensStatement := by
  have hsubject (hkind : (∃ i, kind = .call i) ∨ ∃ targets values, kind = .assign targets values) :
      ∃ k rest, a.wording.statementKind kind = k :: rest ∧ k.opensStatement := by
    obtain ⟨k, rest, hkind, hopens⟩ := hw.statementKind_opensSubject hk hroots hkind
    exact ⟨k, rest, hkind, TokenKind.opensStatement_of_opensSubject hopens⟩
  obtain ⟨-, hplain, -⟩ := hk
  cases kind with
  | call i => exact hsubject (.inl ⟨i, rfl⟩)
  | assign targets values => exact hsubject (.inr ⟨targets, values, rfl⟩)
  | function path func =>
    cases func
    exact ⟨_, _, rfl, rfl⟩
  | localDecl names values => cases values <;> exact ⟨_, _, rfl, rfl⟩
  | ifChain arm =>
    cases arm
    exact ⟨_, _, rfl, rfl⟩
  | compoundAssign _ _ _ | importFrom _ _ | intrinsic _ _ => cases hplain
  | ignore => exact absurd rfl hsome
  | _ => exact ⟨_, _, rfl, rfl⟩

theorem statement_opens (hw : a.Script h known) {st : Stmt} (hst : st.kind.Readable a)
    (hknown : ∀ x ∈ st.kind.ids, known x) (hsome : st.isIgnored = false) :
    ∃ k rest, a.wording.statement st = k :: rest ∧ k.opensStatement := by
  obtain ⟨kind, line⟩ := st
  refine hw.statementKind_opens hst (fun x hx => hknown x (StmtKind.mem_ids.2 (.inl hx))) ?_
  rintro rfl
  cases hsome

end Arena.Script

/-! ## How lists end -/

namespace BlockEnd.Closes

variable {stop : BlockEnd} {us vs : List TokenKind}

theorem apart (h : stop.Closes us vs) : Apart us := by
  cases h <;> rintro _ ⟨⟩ <;> rfl

theorem returnIsBare (h : stop.Closes us vs) : Grammar.returnIsBare us.head? := by
  cases h with
  | arm hword _ =>
    simp only [List.mem_cons, List.not_mem_nil, or_false] at hword
    rcases hword with rfl | rfl | rfl <;> rfl
  | _ => rfl

/-- **The end of a list** is found. -/
theorem blockEnds_reads {s : ParseState} (h : stop.Closes us vs) (hs : s.Before us) :
    (Grammar.blockEnds stop).Reads s vs fun _ ends => ends = true := by
  rw [Grammar.blockEnds, hs.current]
  cases h with
  | arm hword _ =>
    simp only [List.mem_cons, List.not_mem_nil, or_false] at hword
    rcases hword with rfl | rfl | rfl <;> exact .pure hs rfl
  | tokens => exact .pure hs rfl
  | endWord _ | untilWord _ =>
    show Parser.Reads (advance >>= _) _ _ _
    rw [reads_advance]
    exact .pure hs.next rfl

end BlockEnd.Closes

/-- Where a statement begins, its list does not end. -/
theorem Parser.blockEnds_reads_statement {stop : BlockEnd} {k : TokenKind} {ts : List TokenKind}
    {s : ParseState} (hk : k.opensStatement) (hs : s.Before (k :: ts)) :
    (Grammar.blockEnds stop).Reads s (k :: ts) fun _ ends => ends = false := by
  rw [Grammar.blockEnds, hs.current]
  cases k with
  | keyword word => cases word <;> first | (cases stop <;> exact .pure hs rfl) | cases hk
  | _ => cases stop <;> exact .pure hs rfl

/-- Of the statements of a list, too, a return is the last. -/
theorem Block.ReturnsLast.filter {body : Block} (h : Block.ReturnsLast body) (p : Stmt → Bool) :
    Block.ReturnsLast (body.filter p) := by
  have htrans : IsTrans Stmt fun s _ => s.kind.isReturn = false := ⟨fun _ _ _ hs _ => hs⟩
  rw [Block.ReturnsLast, List.isChain_iff_pairwise] at h ⊢
  exact h.filter p

/-- Behind a return there is nothing. -/
theorem Block.ReturnsLast.eq_nil {before after : Block} {st : Stmt}
    (h : Block.ReturnsLast (before ++ st :: after)) (hst : st.kind.isReturn) : after = [] := by
  by_contra hsome
  rw [List.append_cons, Block.returnsLast_append hsome] at h
  have hnot := h.1 st (by simp)
  rw [hst] at hnot
  cases hnot

/-! ## Wordings of lists -/

namespace Wording

variable {w : Wording}

/-- What is written of statements that stand behind another one. -/
def following (w : Wording) (body : Block) : List TokenKind :=
  body.flatMap fun s => behind (w.statement s)

/-- What is written of statements in front of what closes their list. -/
def leading (w : Wording) (us : List TokenKind) : Block → List TokenKind
  | [] => us
  | s :: rest => w.statement s ++ (w.following rest ++ us)

theorem statement_of_isIgnored {st : Stmt} (h : st.isIgnored) : w.statement st = [] := by
  obtain ⟨kind, line⟩ := st
  cases kind <;> first | rfl | cases h

/-- **A list of statements** is written as those that are not ignored. -/
theorem block_eq {body : Block} (hsome : ∀ s ∈ body, s.isIgnored = false → w.statement s ≠ []) (us : List TokenKind) :
    w.block body ++ us = w.leading us (body.filter fun s => !s.isIgnored) := by
  have hblock : w.block body = sequence (body.map w.statement) := by
    cases body with
    | nil => rfl
    | cons s rest => rw [block, List.map_cons, statements_eq]
  have hwritten : (body.map w.statement).filter (· ≠ []) =
      (body.filter fun s => !s.isIgnored).map w.statement := by
    rw [List.filter_map]
    congr 1
    refine List.filter_congr fun s hs => ?_
    cases hignored : s.isIgnored with
    | false => simpa using hsome s hs hignored
    | true => simpa using statement_of_isIgnored hignored
  rw [hblock, sequence, hwritten]
  cases body.filter fun s => !s.isIgnored with
  | nil => rfl
  | cons s rest => simp [leading, following, behind, List.flatMap_map]

end Wording

namespace Grammar.Reads

variable {a : Arena} {h : ExprId → ℕ} {known : ExprId → Prop} {g : Grammar} {n : ℕ}
  {us vs : List TokenKind} {s : ParseState}

/-! ## Statements -/

/-- A keyword tells which statement it is. -/
theorem statement_of_keyword {kind : StmtKind} {word : Keyword} {ts : List TokenKind}
    (hs : s.Before (.keyword word :: ts))
    (hread : (g.keywordStatement s.here word).Reads s us fun b kind' => a.SameKind h b kind kind') :
    g.statement.Reads s us fun b st' => a.SameKind h b kind st'.kind := by
  rw [Grammar.statement, reads_line, hs.current]
  exact hread.bind fun kind' s₁ h₁ hkind => .pure h₁.before hkind

/-- Whatever begins with an expression is a call or an assignment. -/
theorem statement_of_subject {kind : StmtKind} (hw : a.Script h known) (hk : kind.Readable a)
    (hroots : ∀ x ∈ kind.roots, known x)
    (hkind : (∃ i, kind = .call i) ∨ ∃ targets values, kind = .assign targets values)
    (hs : s.Before (a.wording.statementKind kind ++ us))
    (hread : g.expressionStatement.Reads s us fun b kind' => a.SameKind h b kind kind') :
    g.statement.Reads s us fun b st' => a.SameKind h b kind st'.kind := by
  obtain ⟨k, rest, hwording, hopens⟩ := hw.statementKind_opensSubject hk hroots hkind
  have hs : s.Before (k :: (rest ++ us)) := hs.cast (by rw [hwording, List.cons_append])
  have hread' : Parser.Reads (g.expressionStatement >>= fun kind' => pure (Stmt.mk kind' s.here)) s us
      fun b st' => a.SameKind h b kind st'.kind :=
    hread.bind fun kind' s₁ h₁ hkind => .pure h₁.before hkind
  rw [Grammar.statement, reads_line, hs.current]
  cases k with
  | operator op => cases op <;> first | exact hread' | cases hopens
  | name _ => exact hread'
  | _ => cases hopens

/-- **A statement** is read back where it ends. -/
theorem statement {st : Stmt} (hw : a.Script h known) (hg : g.Reads a h known n)
    (hst : st.kind.Readable a) (hblocks : ∀ b ∈ st.kind.blocks, Block.Readable a b)
    (hknown : ∀ x ∈ st.kind.ids, known x) (hsome : st.isIgnored = false) (hus : Apart us)
    (hbare : st.kind.isReturn → returnIsBare us.head?)
    (hs : s.Before (a.wording.statement st ++ us)) (hn : s.rest.length ≤ n) :
    g.statement.Reads s us fun b st' => a.SameKind h b st.kind st'.kind := by
  obtain ⟨kind, line⟩ := st
  have ⟨hvalid, hplain, _⟩ := hst
  have hs : s.Before (a.wording.statementKind kind ++ us) := hs
  have hroots : ∀ x ∈ kind.roots, known x := fun x hx =>
    hknown x (StmtKind.mem_ids.2 (.inl hx))
  -- what the parts of the statement need, from what it needs itself
  have hbody {b : Block} (hb : b ∈ kind.blocks) :
      Block.Readable a b ∧ ∀ x ∈ Block.ids b, known x :=
    ⟨hblocks b hb, fun x hx => hknown x (StmtKind.mem_ids.2 (.inr ⟨b, hb, hx⟩))⟩
  cases kind with
  | ret values => exact statement_of_keyword hs (ret hw hg hroots hus (hbare rfl) hs hn)
  | localFunction name func =>
    obtain ⟨hread, hids⟩ := hbody (b := func.body) (by simp [StmtKind.blocks])
    exact statement_of_keyword hs (localFunction hg hread hids hs hn)
  | function path func =>
    obtain ⟨params, variadic, body⟩ := func
    obtain ⟨hread, hids⟩ := hbody (b := body) (by simp [StmtKind.blocks])
    exact statement_of_keyword hs (function hg hvalid.1 hread hids hs hn)
  | localDecl names values =>
    cases values <;> exact statement_of_keyword hs (localDecl hg hvalid.1 hroots hus hs hn)
  | assign targets values =>
    exact statement_of_subject hw hst hroots (.inr ⟨targets, values, rfl⟩) hs
      (assign hw hg hvalid.1 hvalid.2.1 hroots hvalid.2.2 hus hs hn)
  | call i =>
    exact statement_of_subject hw hst hroots (.inl ⟨i, rfl⟩) hs
      (call hw hg (hroots i (by simp [StmtKind.roots])) hvalid hus hs hn)
  | break_ =>
    have hs : s.Before (.keyword .break_ :: us) := hs
    refine statement_of_keyword hs ?_
    show Parser.Reads (advance >>= _) _ _ _
    rw [reads_advance]
    exact .pure hs.next (Arena.Compares.of_forall fun e => by simp [Comparison.stmtKind])
  | doBlock body =>
    obtain ⟨hread, hids⟩ := hbody (b := body) (by simp [StmtKind.blocks])
    exact statement_of_keyword hs (doBlock hg hread hids hs hn)
  | whileLoop condition body =>
    obtain ⟨hread, hids⟩ := hbody (b := body) (by simp [StmtKind.blocks])
    have hcondition := hroots condition (by simp [StmtKind.roots])
    exact statement_of_keyword hs (whileLoop hg hcondition hread hids hs hn)
  | repeatLoop body condition =>
    obtain ⟨hread, hids⟩ := hbody (b := body) (by simp [StmtKind.blocks])
    have hcondition := hroots condition (by simp [StmtKind.roots])
    exact statement_of_keyword hs (repeatLoop hg hcondition hread hids hus hs hn)
  | ifChain arm =>
    have hids : ∀ x ∈ arm.ids, known x := fun x hx => hknown x (by rwa [StmtKind.ids_eq])
    obtain ⟨condition, body, armLine, otherwise⟩ := arm
    exact statement_of_keyword hs (ifChain hg hblocks hids hs hn)
  | forNumeric var start limit step body =>
    obtain ⟨hread, hids⟩ := hbody (b := body) (by simp [StmtKind.blocks])
    exact statement_of_keyword hs (forNumeric hg hroots hread hids hs hn)
  | forGeneric names iterators body =>
    obtain ⟨hread, hids⟩ := hbody (b := body) (by simp [StmtKind.blocks])
    exact statement_of_keyword hs (forGeneric hg hvalid.1 hvalid.2.1 hroots hread hids hs hn)
  | compoundAssign _ _ _ | importFrom _ _ | intrinsic _ _ => cases hplain
  | ignore => cases hsome

/-! ## Lists -/

/-- Semicolons in front are skipped. -/
theorem reads_skipSemicolons {α : Type} {f : Unit → Parser α} {J : Arena → α → Prop} {ts : List TokenKind}
    (hs : s.Before ts)
    (hf : ∀ s' : ParseState, s'.arena = s.arena →
      s'.Before (ts.dropWhile (· == .operator .semicolon)) → (f ()).Reads s' us J) :
    (skipSemicolons >>= f).Reads s us J := by
  have hskipped := hf { s with rest := s.rest.dropWhile fun t => t.kind == .operator .semicolon } rfl
    (by rw [ParseState.Before, ← hs, List.dropWhile_map]; rfl)
  exact hskipped

/-- **Between statements**: they stand apart, and with the semicolons
skipped the next one stands in front. -/
theorem following_spec {stop : BlockEnd} (hus : stop.Closes us vs) {body : Block}
    (hopens : ∀ st ∈ body, ∃ k rest, a.wording.statement st = k :: rest ∧ k.opensStatement) :
    Apart (a.wording.following body ++ us) ∧
      (a.wording.leading us body).dropWhile (· == .operator .semicolon) = a.wording.leading us body ∧
      (a.wording.following body ++ us).dropWhile (· == .operator .semicolon) =
        a.wording.leading us body := by
  cases body with
  | nil =>
    have hdrop : us.dropWhile (· == .operator .semicolon) = us := by cases hus <;> rfl
    exact ⟨hus.apart, hdrop, hdrop⟩
  | cons st body =>
    obtain ⟨k, rest, hst, hk⟩ := hopens st List.mem_cons_self
    -- a statement opens with no semicolon, so at most the one that separates
    -- it is skipped
    have hsemicolon : (k == .operator .semicolon) = false := by
      refine beq_eq_false_iff_ne.2 ?_
      rintro rfl
      cases hk
    have hdrop (ts : List TokenKind) : (a.wording.statement st ++ ts).dropWhile
        (· == .operator .semicolon) = a.wording.statement st ++ ts := by
      rw [hst, List.cons_append, List.dropWhile_cons_of_neg (by simp [hsemicolon])]
    have hfollowing : a.wording.following (st :: body) ++ us =
        Wording.behind (a.wording.statement st) ++ (a.wording.following body ++ us) := by
      rw [Wording.following, List.flatMap_cons, List.append_assoc]
      rfl
    rw [hfollowing, Wording.leading]
    refine ⟨?_, hdrop _, ?_⟩
    · rw [Wording.behind, hst]
      split
      · rintro _ ⟨⟩
        rfl
      · rename_i hparen
        rintro _ ⟨⟩
        cases k with
        | operator op => cases op <;> first | exact absurd rfl hparen | cases hk
        | keyword _ | name _ => rfl
        | _ => cases hk
    · rw [Wording.behind]
      split
      · rw [List.cons_append, List.dropWhile_cons_of_pos rfl]
        exact hdrop _
      · exact hdrop _

/-- **Lists of statements** are read back up to what closes them. -/
theorem statements {stop : BlockEnd} {body : Block} (hw : a.Script h known) (hg : g.Reads a h known n)
    (hbody : Block.Readable a body) (hknown : ∀ x ∈ Block.ids body, known x)
    (hus : stop.Closes us vs) (hs : s.Before (a.wording.block body ++ us)) (hn : s.rest.length ≤ n) :
    (g.statements stop).Reads s vs fun b body' => a.SameBlock h b body body' := by
  have hevery := Block.everywhere_iff.1 hbody.2
  have hids (st : Stmt) (hst : st ∈ body) : ∀ x ∈ st.kind.ids, known x := fun x hx =>
    hknown x (Block.mem_ids_iff.2 ⟨st, hst, hx⟩)
  have hopens (st : Stmt) (hst : st ∈ body) (hsome : st.isIgnored = false) :=
    hw.statement_opens (hevery st hst).1 (hids st hst) hsome
  let written : Block := body.filter fun st => !st.isIgnored
  have hwritten {st : Stmt} (hst : st ∈ written) : st ∈ body ∧ st.isIgnored = false := by
    simpa [written] using hst
  have hlast : Block.ReturnsLast written := hbody.1.filter _
  have hspec {todo : Block} (htodo : todo ⊆ written) := following_spec (a := a) hus fun st hst =>
    hopens st (hwritten (htodo hst)).1 (hwritten (htodo hst)).2
  have hs : s.Before (a.wording.leading us written) := by
    refine hs.cast (Wording.block_eq (fun st hst hsome => ?_) us)
    obtain ⟨k, rest, hk, -⟩ := hopens st hst hsome
    rw [hk]
    exact List.cons_ne_nil k rest
  rw [Grammar.statements]
  -- the statements that were read, and those that are left
  refine reads_loop (I := fun found b ts => ∃ done todo, written = done ++ todo ∧
    List.Forall₂ (fun st st' : Stmt => a.SameKind h b st.kind st'.kind) done found ∧
    ts.dropWhile (· == .operator .semicolon) = a.wording.leading us todo ∧ ts.length ≤ n) ?_ hs
    ⟨[], written, rfl, .nil, (hspec (List.Subset.refl _)).2.1, by rwa [← hs.length]⟩
  rintro found s' ts - hs' ⟨done, todo, hdone, hfound, hts, hn'⟩
  cases todo with
  | nil =>
    refine .inr (reads_skipSemicolons hs' fun s₁ h₁ hs₁ => ?_)
    rw [hts] at hs₁
    refine (hus.blockEnds_reads hs₁).bind fun ends s₂ h₂ hends => ?_
    rw [hends, if_pos rfl]
    refine .pure h₂.before ⟨found, rfl, Arena.sameBlock_of_forall₂ ?_⟩
    rw [List.append_nil] at hdone
    rw [← h₁, ← hdone] at hfound
    exact hfound.imp fun _ _ hst => Arena.Compares.grow hst h₂.extend
  | cons st todo =>
    obtain ⟨hst, hsome⟩ := hwritten (hdone ▸ List.mem_append_right done List.mem_cons_self)
    have htodo : todo ⊆ written := fun x hx =>
      hdone ▸ List.mem_append_right done (List.mem_cons_of_mem _ hx)
    obtain ⟨hapart, -, hdrop⟩ := hspec htodo
    obtain ⟨k, rest, hk, hkopens⟩ := hopens st hst hsome
    -- without the semicolons there are no more tokens, and the statement
    -- takes some of them
    have hle : (a.wording.leading us (st :: todo)).length ≤ ts.length :=
      hts ▸ (List.dropWhile_suffix (l := ts) (· == .operator .semicolon)).length_le
    have hlength : (a.wording.following todo ++ us).length < ts.length := by
      rw [Wording.leading, hk] at hle
      simp only [List.length_append, List.length_cons] at hle ⊢
      omega
    refine .inl ⟨a.wording.following todo ++ us, hlength, reads_skipSemicolons hs' fun s₁ h₁ hs₁ => ?_⟩
    rw [hts, Wording.leading] at hs₁
    have hs₁' : s₁.Before (k :: (rest ++ (a.wording.following todo ++ us))) :=
      hs₁.cast (by rw [hk, List.cons_append])
    refine (blockEnds_reads_statement hkopens hs₁').bind fun ends s₂ h₂ hends => ?_
    rw [hends, if_neg Bool.false_ne_true]
    have hs₂ : s₂.Before (a.wording.statement st ++ (a.wording.following todo ++ us)) :=
      h₂.before.cast (by rw [hk, List.cons_append])
    have hn₂ : s₂.rest.length ≤ n := by
      rw [hs₂.length]
      exact hle.trans hn'
    have hbare : st.kind.isReturn → returnIsBare (a.wording.following todo ++ us).head? := by
      intro hreturn
      obtain rfl := (hdone ▸ hlast).eq_nil hreturn
      exact hus.returnIsBare
    refine (statement hw hg (hevery st hst).1
      (fun b hb => ⟨(hevery st hst).1.2.2 b hb, (hevery st hst).2 b hb⟩) (hids st hst) hsome hapart
      hbare hs₂ hn₂).bind fun st' s₃ h₃ hst' => ?_
    refine .pure h₃.before ⟨found ++ [st'], rfl, done ++ [st], todo, by simp [hdone], ?_, hdrop,
      hlength.le.trans hn'⟩
    rw [← h₁] at hfound
    exact List.rel_append (hfound.imp fun _ _ hst => Arena.Compares.grow hst
      (h₂.extend.trans h₃.extend)) (.cons hst' .nil)

/-- **A grammar that reads some tokens** reads one more if it is unrolled. -/
theorem unroll (hw : a.Script h known) (hg : g.Reads a h known n) : g.unroll.Reads a h known (n + 1) where
  expression hm hi hus hs hn := operation hw hg hm hi hus hs (Nat.le_of_lt_succ hn)
  assignment hi hts _ hs hn := assignmentOrExpression hw hg hi hts hs (Nat.le_of_lt_succ hn)
  block hbody hknown hus hs hn := statements hw hg hbody hknown hus hs (Nat.le_of_lt_succ hn)
  ifArm hbodies hknown hs hn := conditionalArm hw hg hbodies hknown hs (Nat.le_of_lt_succ hn)

theorem stalled : Grammar.stalled.Reads a h known 0 where
  expression _ _ _ _ hn := absurd hn (Nat.not_lt_zero _)
  assignment _ _ _ _ hn := absurd hn (Nat.not_lt_zero _)
  block _ _ _ _ hn := absurd hn (Nat.not_lt_zero _)
  ifArm _ _ _ hn := absurd hn (Nat.not_lt_zero _)

/-- **The grammar reads what is written**, as many tokens as it is unrolled. -/
theorem level (hw : a.Script h known) : ∀ n, (Grammar.level n).Reads a h known n
  | 0 => stalled
  | n + 1 => unroll hw (level hw n)

end Grammar.Reads

end LuaSugar
