import Mathlib
import LuaSugar.Proofs.RoundTrip.Parts
/-!
# Expressions are read back

What is written of an expression is read back as the same expression, if
it ends where it ends: a primary part with its suffixes, a unary operation,
or a binary one, which stands in parentheses of its own.
-/

namespace LuaSugar

open LuaSugar.Parser

namespace Grammar.Reads

variable {a : Arena} {h : ExprId → ℕ} {known : ExprId → Prop} {g : Grammar} {n : ℕ}
  (hw : a.Script h known) (hg : g.Reads a h known n)
  {i : ExprId} {ts us : List TokenKind} {s : ParseState}
include hw

/-! ## Suffixes -/

/-- What has a stem is read from the stem on. -/
theorem suffix {x j : ExprId} (hg : g.Reads a h known n) (hi : known i)
    (hx : (a.get i).stem? = some x) (hs : s.Before (a.wording.suffix (a.get i) ++ us))
    (hj : a.Same h s.arena x j) (hn : s.rest.length ≤ n) :
    (g.suffix true j).Reads s us fun b r => ∃ j', r = .inl j' ∧ a.Same h b i j' := by
  rcases hnode : a.get i with node | node <;> rw [hnode] at hx hs
  · cases hx
  have hchildren {j : ExprId} (hj : j ∈ (Expr.arith node).children) : known j :=
    (hw.child hi (hnode ▸ hj)).1
  cases node with
  | member object name =>
    obtain rfl := Option.some.inj hx
    have hc : a.Compares h (Expr.arith (.member object name)).refs
        (fun e => e.expr (.arith (.member object name)) (.arith (.member j name))) s.arena :=
      (Arena.Compares.mono hj (by simp [Expr.refs, Expr.children])).imp
        fun e he => by simp [Comparison.expr, he]
    rw [Grammar.suffix, hs.current]
    show Parser.Reads (advance >>= _) _ _ _
    rw [reads_advance, hs.next.expectName]
    exact (alloc hw hi hnode hs.next.next hc trivial).map fun j' _ _ hj' => ⟨j', rfl, hj'⟩
  | subscript object key =>
    obtain rfl := Option.some.inj hx
    have hlength := hs.length_next
    simp only [Wording.suffix, List.cons_append, List.append_assoc, List.nil_append] at hs
    rw [Grammar.suffix, hs.current]
    show Parser.Reads (advance >>= _) _ _ _
    rw [reads_advance]
    refine (hg.expression (by omega) (hchildren (by simp [Expr.children])) (ends_cons 1 rfl us) hs.next
      (by omega)).bind fun k s₁ h₁ hk => ?_
    have hc : a.Compares h (Expr.arith (.subscript object key)).refs
        (fun e => e.expr (.arith (.subscript object key)) (.arith (.subscript j k))) s₁.arena :=
      ((Arena.Same.grow hj h₁.extend).and hk).imp fun e he => by simp [Comparison.expr, he.1, he.2]
    rw [h₁.before.expectOp]
    exact (alloc hw hi hnode h₁.before.next hc trivial).map fun j' _ _ hj' => ⟨j', rfl, hj'⟩
  | call target method args =>
    obtain rfl := Option.some.inj hx
    have hargs : ∀ x ∈ args, known x := fun x hx => hchildren (List.mem_cons_of_mem _ hx)
    -- with a method or without one, the call is compared alike
    have hc {b : Arena} {js : List ExprId} (hb : s.arena.Extends b)
        (hjs : List.Forall₂ (a.Same h b) args js) :
        a.Compares h (Expr.arith (.call target method args)).refs
          (fun e => e.expr (.arith (.call target method args)) (.arith (.call j method js))) b :=
      (((Arena.Same.grow hj hb).and (Arena.compares_exprs hjs)).mono
        (by simp [Expr.refs, Expr.children])).imp fun e he => by simp [Comparison.expr, he.1, he.2]
    rw [Grammar.suffix, hs.current]
    cases method with
    | none =>
      refine (callArguments hw hg hargs hs hn).bind fun js s₁ h₁ hjs => ?_
      exact (alloc hw hi hnode h₁.before (hc h₁.extend hjs) trivial).map fun j' _ _ hj' => ⟨j', rfl, hj'⟩
    | some name =>
      have hlength := hs.length_next
      have hlength' := hs.next.length_next
      show Parser.Reads (advance >>= _) _ _ _
      rw [reads_advance, hs.next.expectName]
      refine (callArguments hw hg hargs hs.next.next (by omega)).bind fun js s₁ h₁ hjs => ?_
      exact (alloc hw hi hnode h₁.before (hc h₁.extend hjs) trivial).map fun j' _ _ hj' => ⟨j', rfl, hj'⟩
  | _ => cases hx

omit hw in
/-- What is no suffix is left. -/
theorem suffix_ends {j : ExprId} {J : Arena → ExprId ⊕ ExprId → Prop} (hus : NoSuffix us)
    (hs : s.Before us) (hj : J s.arena (.inr j)) : (g.suffix true j).Reads s us J := by
  rw [Grammar.suffix, hs.current]
  cases us with
  | nil => exact .pure hs hj
  | cons k us =>
    have hk := hus k rfl
    cases k with
    | operator op => cases op <;> first | exact .pure hs hj | cases hk
    | string bytes => cases hk
    | _ => exact .pure hs hj

/-- **Suffixes** are read one after the other. -/
theorem suffixes {x j : ExprId} (hg : g.Reads a h known n) (hi : known i)
    (hts : a.wording.Suffixes x i ts) (hus : NoSuffix us) (hs : s.Before (ts ++ us))
    (hj : a.Same h s.arena x j) (hn : s.rest.length ≤ n) :
    (Parser.loop (g.suffix true) j).Reads s us fun b j' => a.Same h b i j' := by
  refine reads_loop (I := fun j' b ts' => ∃ y vs, a.wording.Suffixes y i vs ∧ a.Same h b y j' ∧
    ts' = vs ++ us ∧ ts'.length ≤ n) ?_ hs ⟨x, ts, hts, hj, rfl, by rwa [← hs.length]⟩
  rintro j' s' _ - hs' ⟨y, vs, hvs, hj', rfl, hn'⟩
  cases hvs with
  | refl _ => exact .inr (suffix_ends hus hs' ⟨j', rfl, hj'⟩)
  | @cons _ z _ vs hz hvs =>
    have hsome := List.length_pos_of_ne_nil (Wording.suffix_ne_nil (w := a.wording) hz)
    have hshorter : (vs ++ us).length < (a.wording.suffix (a.wording.node z) ++ vs ++ us).length := by
      simp only [List.length_append]
      omega
    rw [List.append_assoc] at hs'
    refine .inl ⟨vs ++ us, hshorter, ?_⟩
    have hread := suffix hw hg (hw.known_of_suffixes hi hvs) hz hs' hj'
      (by rwa [hs'.length, ← List.append_assoc])
    refine hread.imp fun b r ⟨j'', hr, hj''⟩ => ⟨j'', hr, z, vs, hvs, hj'', rfl, by omega⟩

/-! ## Primary parts -/

/-- A literal or a name that one token spells. -/
theorem leaf {x : Atom} {k : TokenKind} (hi : known i) (hnode : a.get i = .atom x)
    (hrefs : (Expr.atom x).refs = []) (hx : (Expr.atom x).Settled) (hs : s.Before (k :: us)) :
    (readAtom x).Reads s us fun b j => a.Same h b i j := by
  rw [readAtom, reads_advance]
  refine alloc hw hi hnode hs.next (.of_forall fun e => Comparison.expr_self _ ?_) hx
  rw [hrefs]
  rintro _ ⟨⟩

/-- **An atom** is read back. -/
theorem atom {x : Atom} (hg : g.Reads a h known n) (hi : known i) (hnode : a.get i = .atom x)
    (hs : s.Before (a.wording.atom x ++ us)) (hn : s.rest.length ≤ n) :
    g.primary.Reads s us fun b j => a.Same h b i j := by
  have hplain := hw.plain i hi
  have hvalid := hw.node i hi
  rw [hnode] at hplain hvalid
  rw [primary, reads_line]
  cases x with
  | number value =>
    have hs : s.Before (.number value :: us) :=
      hs.cast (by rw [Wording.atom, Fragment.tokens_number hvalid.1 hvalid.2]; rfl)
    rw [hs.current]
    exact leaf hw hi hnode rfl trivial hs
  | boolean value =>
    rw [hs.current]
    cases value <;> exact leaf hw hi hnode rfl trivial hs
  | string _ | nil | vararg | name _ =>
    rw [hs.current]
    exact leaf hw hi hnode rfl trivial hs
  | table t =>
    rw [hs.current]
    exact table hw hg hi hnode hs hn
  | element _ => cases hplain
  | func func =>
    have hs : s.Before (.keyword .function_ :: (Wording.params func.params func.variadic ++
        (a.wording.block func.body ++ .keyword .end_ :: us))) :=
      hs.cast (by cases func; simp [Wording.atom, Wording.funcBody])
    have hlength := hs.length_next
    rw [hs.current]
    show Parser.Reads (advance >>= _) _ _ _
    rw [reads_advance]
    have hknown : ∀ x ∈ Block.ids func.body, known x := fun x hx =>
      (hw.refers i hi x (hnode ▸ List.mem_append_right _ hx)).1
    refine (funcBody hg (hw.body i hi func hnode) hknown hs.next (by omega)).bind
      fun func' s₁ h₁ hfunc => ?_
    exact alloc hw hi hnode h₁.before ((hfunc.mono (List.subset_append_right _ _)).imp
      fun e he => by simpa only [Comparison.expr] using he) trivial

/-- **A primary part** is read back; a call or `...` in parentheses, where a
suffix follows. -/
theorem primary {x : ExprId} {grouped : Bool} (hg : g.Reads a h known n) (hx : known x)
    (hts : a.wording.Primary x grouped ts) (hus : grouped → (a.get x).spreads → OpensSuffix us)
    (hs : s.Before (ts ++ us)) (hn : s.rest.length ≤ n) :
    g.primary.Reads s us fun b j => a.Same h b x j := by
  cases hts with
  | parenthesized hin =>
    rename_i ts
    have hs : s.Before (.operator .leftParen :: (ts ++ .operator .rightParen :: us)) :=
      hs.cast (by simp [Wording.parenthesized])
    have hlength := hs.length_next
    rw [Grammar.primary, reads_line, hs.current]
    show Parser.Reads (advance >>= _) _ _ _
    rw [reads_advance]
    refine (hg.assignment hx hin (hus rfl) hs.next (by omega)).bind fun j s₁ h₁ hj => ?_
    rw [h₁.before.expectOp]
    exact .pure h₁.before.next hj
  | atom hatom =>
    rw [Arena.wording_node] at hatom
    have hworded := hw.worded x hx
    rcases hnode : a.get x with node | node
    · rw [hworded, hnode] at hs
      exact atom hw hg hx hnode hs hn
    · rw [hnode] at hatom
      cases hatom

/-- **A primary part with its suffixes** is read back. -/
theorem suffixed {x : ExprId} {grouped : Bool} {ps : List TokenKind} (hg : g.Reads a h known n)
    (hi : known i) (hps : a.wording.Primary x grouped ps) (hts : a.wording.Suffixes x i ts)
    (hgrouped : grouped → (a.get x).spreads → ts ≠ []) (hus : NoSuffix us)
    (hs : s.Before (ps ++ (ts ++ us))) (hn : s.rest.length ≤ n) :
    (g.suffixed true).Reads s us fun b j => a.Same h b i j := by
  rw [Grammar.suffixed]
  refine (primary hw hg (hw.known_of_suffixes hi hts) hps
    (fun hparens hspreads => hts.opens (hgrouped hparens hspreads) us) hs hn).bind fun j s₁ h₁ hj => ?_
  exact suffixes hw hg hi hts hus h₁.before hj ((hs.length_le h₁.before).trans hn)

/-- What is no unary operation is read with its suffixes. -/
theorem expr_suffixed (hg : g.Reads a h known n) (hi : known i) (hunary : (a.get i).isUnary = false)
    (hus : NoSuffix us) (hs : s.Before (a.wording.expr i ++ us)) (hn : s.rest.length ≤ n) :
    (g.suffixed true).Reads s us fun b j => a.Same h b i j := by
  obtain ⟨x, grouped, ps, ts, hps, hts, hexpr, hgrouped⟩ := hw.exists_primary hi hunary
  exact suffixed hw hg hi hps hts hgrouped hus (hs.cast (by rw [hexpr, List.append_assoc])) hn

/-! ## Operations -/

/-- An operand that begins with a primary part has no operator before it. -/
theorem unary_of_primary {x : ExprId} {grouped : Bool} {ps : List TokenKind}
    (hg : g.Reads a h known n) (hi : known i) (hps : a.wording.Primary x grouped ps)
    (hts : a.wording.Suffixes x i ts) (hgrouped : grouped → (a.get x).spreads → ts ≠ [])
    (hus : NoSuffix us) (hs : s.Before (ps ++ (ts ++ us))) (hn : s.rest.length ≤ n) :
    g.unary.Reads s us fun b j => a.Same h b i j := by
  have hread := suffixed hw hg hi hps hts hgrouped hus hs hn
  obtain ⟨k, rest, rfl, hk⟩ := hw.primary_opens (hw.known_of_suffixes hi hts) hps
  rw [Grammar.unary, hs.current]
  cases k with
  | operator op => cases op <;> first | exact hread | cases hk
  | _ => exact hread

/-- **An operand** is read back, with its operator if it has one. -/
theorem unary (hg : g.Reads a h known n) (hi : known i) (hus : NoSuffix us)
    (hcaret : (a.get i).isUnary → us.head? ≠ some (.operator .caret))
    (hs : s.Before (a.wording.expr i ++ us)) (hn : s.rest.length ≤ n) :
    g.unary.Reads s us fun b j => a.Same h b i j := by
  by_cases hunary : (a.get i).isUnary
  · obtain ⟨op, operand, hnode⟩ : ∃ op operand, a.get i = .arith (.unary op operand) := by
      unfold Expr.isUnary at hunary
      split at hunary
      · exact ⟨_, _, ‹_›⟩
      · cases hunary
    have hs : s.Before (.operator op.operator :: (a.wording.expr operand ++ us)) :=
      hs.cast (by rw [hw.worded i hi, hnode]; rfl)
    have hlength := hs.length_next
    have hoperator : UnaryOp.ofOperator? op.operator = some op := by cases op <;> rfl
    have hoperand : known operand := (hw.child hi (by rw [hnode]; simp [Expr.children])).1
    rw [Grammar.unary, hs.current]
    simp only [List.head?_cons, hoperator]
    rw [reads_advance]
    refine (hg.expression le_rfl hoperand ⟨hus, continuation?_unary (hcaret hunary)⟩ hs.next
      (by omega)).bind fun j s₁ h₁ hj => ?_
    refine alloc hw hi hnode h₁.before ((Arena.Compares.mono hj ?_).imp fun e he => ?_) trivial
    · simp [Expr.refs, Expr.children]
    · simp [Comparison.expr, he]
  · obtain ⟨x, grouped, ps, ts, hps, hts, hexpr, hgrouped⟩ := hw.exists_primary hi (by simpa using hunary)
    exact unary_of_primary hw hg hi hps hts hgrouped hus (hs.cast (by rw [hexpr, List.append_assoc])) hn

/-- **A left operand** is read back: where a power would take the operand of
a unary operation, it stands in parentheses. -/
theorem leftOperand {op : BinaryOp} (hg : g.Reads a h known n) (hi : known i)
    (hs : s.Before (a.wording.leftOperand op i ++ .operator op.operator :: us))
    (hn : s.rest.length ≤ n) :
    g.unary.Reads s (.operator op.operator :: us) fun b j => a.Same h b i j := by
  have hus := noSuffix_operator op us
  -- only a unary operand of a power is put in parentheses
  by_cases hpower : op = .pow ∧ (a.get i).isUnary
  · obtain ⟨rfl, hunary⟩ := hpower
    have hleft : a.wording.leftOperand .pow i = Wording.parenthesized (a.wording.expr i) := by
      unfold Expr.isUnary at hunary
      split at hunary
      · rename_i hnode
        unfold Wording.leftOperand
        rw [Arena.wording_node, hnode]
      · cases hunary
    rw [hleft] at hs
    have hone : (a.get i).spreads = false := Expr.spreads_of_isUnary hunary
    exact unary_of_primary hw hg hi (.parenthesized .expr) (.refl i)
      (fun _ hspreads => absurd hspreads (by simp [hone])) hus hs hn
  -- any other is read as a prefix, with no power behind that could take part of it
  · have hleft : a.wording.leftOperand op i = a.wording.expr i := by
      unfold Wording.leftOperand
      split
      · rename_i hnode
        rw [Arena.wording_node] at hnode
        exact absurd ⟨rfl, by rw [hnode]; rfl⟩ hpower
      · rfl
    rw [hleft] at hs
    refine unary hw hg hi hus (fun hunary hcaret => hpower ⟨?_, hunary⟩) hs hn
    cases op <;> first | rfl | cases hcaret

omit hw in
/-- No operator goes on from what ends. -/
theorem binaries_end {m : ℕ} {j : ExprId} (hus : Ends m us) (hs : s.Before us)
    (hj : a.Same h s.arena i j) :
    (Parser.loop (g.binaryStep m) j).Reads s us fun b j' => a.Same h b i j' := by
  refine reads_loop (I := fun j' b ts => ts = us ∧ a.Same h b i j') ?_ hs ⟨rfl, hj⟩
  rintro j' s' _ - hs' ⟨rfl, hj'⟩
  refine .inr ?_
  rw [Grammar.binaryStep, hs'.current, hus.operator]
  exact .pure hs' ⟨j', rfl, hj'⟩

/-- **An expression** is read back where it ends. -/
theorem operation {m : ℕ} (hg : g.Reads a h known n) (hm : m ≤ 8) (hi : known i) (hus : Ends m us)
    (hs : s.Before (a.wording.expr i ++ us)) (hn : s.rest.length ≤ n) :
    (g.operation m).Reads s us fun b j => a.Same h b i j := by
  rw [Grammar.operation]
  refine (unary hw hg hi hus.suffix (fun _ => hus.ne_caret hm) hs hn).bind fun j s₁ h₁ hj => ?_
  exact binaries_end hus h₁.before hj

/-- **A binary operation** is read back between its parentheses. -/
theorem binary {op : BinaryOp} {left right : ExprId} (hg : g.Reads a h known n) (hi : known i)
    (hnode : a.get i = .arith (.binary op left right))
    (hs : s.Before (a.wording.leftOperand op left ++ .operator op.operator ::
      (a.wording.expr right ++ .operator .rightParen :: us))) (hn : s.rest.length ≤ n) :
    (g.operation 1).Reads s (.operator .rightParen :: us) fun b j => a.Same h b i j := by
  have hleft : known left := (hw.child hi (by rw [hnode]; simp [Expr.children])).1
  have hright : known right := (hw.child hi (by rw [hnode]; simp [Expr.children])).1
  rw [Grammar.operation]
  refine (leftOperand hw hg hleft hs hn).bind fun j s₁ h₁ hj => ?_
  have hlength := (hs.length_le h₁.before).trans hn
  rw [h₁.before.length] at hlength
  -- first the operator is ahead, then what closes the parentheses
  refine reads_loop (I := fun j' b ts => (ts = .operator op.operator ::
      (a.wording.expr right ++ .operator .rightParen :: us) ∧ a.Same h b left j') ∨
    (ts = .operator .rightParen :: us ∧ a.Same h b i j')) ?_ h₁.before (.inl ⟨rfl, hj⟩)
  rintro j' s' _ - hs' (⟨rfl, hj'⟩ | ⟨rfl, hj'⟩)
  · refine .inl ⟨.operator .rightParen :: us, by simp only [List.length_cons, List.length_append]; omega, ?_⟩
    have hlength' := hs'.length
    have hnext := hs'.length_next
    rw [Grammar.binaryStep, hs'.current, List.head?_cons, continuation?_operator]
    show Parser.Reads (advance >>= _) _ _ _
    rw [reads_advance]
    refine (hg.expression op.rightPrecedence_le hright (ends_cons _ rfl us) hs'.next (by omega)).bind
      fun k s₂ h₂ hk => ?_
    have hc : a.Compares h (Expr.arith (.binary op left right)).refs
        (fun e => e.expr (.arith (.binary op left right)) (.arith (.binary op j' k))) s₂.arena :=
      ((hj'.grow h₂.extend).and hk).imp fun e he => by simp [Comparison.expr, he.1, he.2]
    exact (alloc hw hi hnode h₂.before hc trivial).map fun j'' _ _ hj'' => ⟨j'', rfl, .inr ⟨rfl, hj''⟩⟩
  · refine .inr ?_
    rw [Grammar.binaryStep, hs'.current]
    exact .pure hs' ⟨j', rfl, hj'⟩

/-- **What stands in parentheses** is read back. -/
theorem assignmentOrExpression (hg : g.Reads a h known n) (hi : known i) (hts : a.wording.Inside i ts)
    (hs : s.Before (ts ++ .operator .rightParen :: us)) (hn : s.rest.length ≤ n) :
    g.assignmentOrExpression.Reads s (.operator .rightParen :: us) fun b j => a.Same h b i j := by
  have hread : (g.operation 1).Reads s (.operator .rightParen :: us) fun b j => a.Same h b i j := by
    cases hts with
    | expr => exact operation hw hg (by decide) hi (ends_cons 1 rfl us) hs hn
    | binary hnode => exact binary hw hg hi hnode (hs.cast (by simp)) hn
  rw [Grammar.assignmentOrExpression]
  refine hread.bind fun j s₁ h₁ hj => ?_
  rw [h₁.before.current]
  exact .pure h₁.before hj

end Grammar.Reads

end LuaSugar
