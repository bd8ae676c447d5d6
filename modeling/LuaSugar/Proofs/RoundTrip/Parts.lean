import Mathlib
import LuaSugar.Proofs.RoundTrip.Reading
import LuaSugar.Proofs.RoundTrip.Starts
/-!
# Lists, functions and tables are read back

The parsers of the grammar may be used behind a token that was read, so
they are taken to read whatever has fewer tokens than some number, and
what they are made into reads as many.
-/

namespace LuaSugar

open LuaSugar.Parser

/-- What stands behind a list of statements, and what is left of it. -/
inductive BlockEnd.Closes : BlockEnd → List TokenKind → List TokenKind → Prop
  | tokens : Closes .tokens [] []
  | endWord (us : List TokenKind) : Closes .endWord (.keyword .end_ :: us) us
  | untilWord (us : List TokenKind) : Closes .untilWord (.keyword .until_ :: us) us
  | arm {word : Keyword} (hword : word ∈ [Keyword.end_, .else_, .elseif_]) (us : List TokenKind) :
      Closes .arm (.keyword word :: us) (.keyword word :: us)

/-- The ids of a chain of arms. -/
def IfArm.ids (arm : IfArm) : List ExprId := arm.conditions ++ arm.bodies.flatMap Block.ids

/-- Parsers that read what is written of a script, if it has fewer than so
many tokens. -/
structure Grammar.Reads (a : Arena) (h : ExprId → ℕ) (known : ExprId → Prop) (g : Grammar) (n : ℕ) :
    Prop where
  expression : ∀ {minimum i us s}, minimum ≤ 8 → known i → Ends minimum us →
    s.Before (a.wording.expr i ++ us) → s.rest.length < n →
    (g.expression minimum).Reads s us fun b j => a.Same h b i j
  assignment : ∀ {i ts us s}, known i → a.wording.Inside i ts →
    ((a.get i).spreads → OpensSuffix us) → s.Before (ts ++ .operator .rightParen :: us) →
    s.rest.length < n →
    g.assignment.Reads s (.operator .rightParen :: us) fun b j => a.Same h b i j
  block : ∀ {stop body us vs s}, Block.Readable a body → (∀ x ∈ Block.ids body, known x) →
    stop.Closes us vs → s.Before (a.wording.block body ++ us) → s.rest.length < n →
    (g.block stop).Reads s vs fun b body' => a.SameBlock h b body body'
  ifArm : ∀ {arm line us s}, (∀ body ∈ arm.bodies, Block.Readable a body) →
    (∀ x ∈ arm.ids, known x) → s.Before ((a.wording.ifArm .if_ arm).tail ++ us) →
    s.rest.length < n →
    (g.ifArm line).Reads s us fun b arm' => a.Compares h arm.ids (fun e => e.ifArm arm arm') b

/-- **Parameters** are read back. -/
theorem Parser.parameters_reads {params : List String} {variadic : Bool} {us : List TokenKind}
    {s : ParseState} (hs : s.Before (Wording.params params variadic ++ us)) :
    (parameters .leftParen .rightParen).Reads s us fun _ r => r = (params, variadic) := by
  -- what follows a comma or the opening parenthesis, if these are the names
  -- still to be read
  let rest (todo : List String) : List TokenKind :=
    Wording.listed (todo.map (fun name => [.name name]) ++
      if variadic then [[.operator .ellipsis]] else []) ++ .operator .rightParen :: us
  have hlast (name : String) (hfixed : variadic = false) :
      rest [name] = .name name :: .operator .rightParen :: us := by
    simp [rest, hfixed, Wording.listed]
  have hmore (name : String) (todo : List String) (hsome : todo ≠ [] ∨ variadic = true) :
      rest (name :: todo) = .name name :: .operator .comma :: rest todo := by
    cases todo with
    | nil =>
      obtain rfl := hsome.resolve_left (by simp)
      simp [rest, Wording.listed, List.intercalate_cons_cons]
    | cons next todo => simp [rest, Wording.listed, List.intercalate_cons_cons]
  have hs : s.Before (.operator .leftParen :: rest params) := by
    simpa [Wording.params, Wording.parenthesized, rest] using hs
  rw [parameters, hs.expectOp]
  by_cases hnone : params = [] ∧ variadic = false
  · obtain ⟨rfl, rfl⟩ := hnone
    have hclose : s.next.Before (.operator .rightParen :: us) := hs.next
    rw [hclose.eatOp, if_pos rfl]
    exact .pure hclose.next rfl
  have hsome : params ≠ [] ∨ variadic = true := by simpa [imp_iff_not_or] using hnone
  have hopens : (rest params).head? ≠ some (.operator .rightParen) := by
    cases params with
    | nil =>
      obtain rfl := hsome.resolve_left (by simp)
      simp [rest, Wording.listed]
    | cons name todo =>
      cases todo <;> simp [rest, Wording.listed, List.intercalate_cons_cons]
  rw [hs.next.eatOp_of_ne hopens, if_neg Bool.false_ne_true]
  -- behind a comma there is a name or the dots, so that the loop does not
  -- end there
  refine reads_loop (I := fun names _ ts => ∃ todo, params = names ++ todo ∧
    (todo ≠ [] ∨ variadic = true) ∧ ts = rest todo) ?_ hs.next ⟨params, rfl, hsome, rfl⟩
  rintro names s' _ - hs' ⟨todo, hparams, hsome, rfl⟩
  cases todo with
  | nil =>
    obtain rfl := hsome.resolve_left (by simp)
    have hs' : s'.Before (.operator .ellipsis :: .operator .rightParen :: us) := hs'
    refine .inr ?_
    rw [hs'.eatOp, if_pos rfl, hs'.next.expectOp]
    exact .pure hs'.next.next ⟨_, rfl, by rw [hparams, List.append_nil]⟩
  | cons name todo =>
    by_cases hend : todo = [] ∧ variadic = false
    · obtain ⟨rfl, hfixed⟩ := hend
      rw [hlast name hfixed] at hs'
      refine .inr ?_
      rw [hs'.eatOp_of_ne (by simp), if_neg Bool.false_ne_true, hs'.expectName, hs'.next.eatOp,
        if_pos rfl]
      exact .pure hs'.next.next ⟨_, rfl, by rw [hparams, hfixed]⟩
    · have hsome : todo ≠ [] ∨ variadic = true := by simpa [imp_iff_not_or] using hend
      rw [hmore name todo hsome] at hs' ⊢
      refine .inl ⟨rest todo, by simp only [List.length_cons]; omega, ?_⟩
      rw [hs'.eatOp_of_ne (by simp), if_neg Bool.false_ne_true, hs'.expectName,
        hs'.next.eatOp_of_ne (by simp), if_neg Bool.false_ne_true, hs'.next.expectOp]
      exact .pure hs'.next.next ⟨_, rfl, todo, by simp [hparams], hsome, rfl⟩

namespace Grammar.Reads

variable {a : Arena} {h : ExprId → ℕ} {known : ExprId → Prop} {g : Grammar} {n : ℕ}
  (hw : a.Script h known) (hg : g.Reads a h known n)
  {i : ExprId} {ts us : List TokenKind} {s : ParseState}
include hw

/-- **A node is allocated** for one that it is the same as. -/
theorem alloc {e e' : Expr} (hi : known i) (hget : a.get i = e) (hs : s.Before us)
    (hc : a.Compares h e.refs (fun cmp => cmp.expr e e') s.arena) (he' : e'.Settled) :
    (Parser.alloc e').Reads s us fun b j => a.Same h b i j := by
  refine ⟨(ParseState.Reached.refl hs).alloc he', Arena.same_alloc hget (fun x hx => ?_) hc⟩
  exact (hw.refers i hi x (hget ▸ hx)).2

/-! ## Lists -/

omit hw in
include hg in
/-- **Lists of expressions** are read back. -/
theorem expressionList {is : List ExprId} (hne : is ≠ []) (his : ∀ i ∈ is, known i)
    (hus : Ends 1 us) (hcomma : us.head? ≠ some (.operator .comma))
    (hs : s.Before (a.wording.exprs is ++ us)) (hn : s.rest.length < n) :
    g.expressionList.Reads s us fun b js => List.Forall₂ (a.Same h b) is js :=
  commaSeparated_reads (P := Ends 1) (n := n - 1) (fun hb hs => hs.grow hb) hus
    (fun vs => ends_cons 1 rfl vs) hcomma hne
    (fun i hi s vs hvs hs hn => hg.expression (by omega) (his i hi) hvs hs (by omega)) hs (by omega)

include hg in
/-- **Arguments** are read back. -/
theorem parenthesizedArguments {args : List ExprId} (hargs : ∀ i ∈ args, known i)
    (hs : s.Before (Wording.parenthesized (a.wording.exprs args) ++ us)) (hn : s.rest.length ≤ n) :
    g.parenthesizedArguments.Reads s us fun b js => List.Forall₂ (a.Same h b) args js := by
  simp only [Wording.parenthesized, List.cons_append, List.append_assoc, List.nil_append] at hs
  have hlength := hs.length_next
  rw [Grammar.parenthesizedArguments, hs.expectOp]
  cases args with
  | nil =>
    rw [hs.next.eatOp, if_pos rfl]
    exact .pure hs.next.next .nil
  | cons arg args =>
    obtain ⟨k, rest, hk, hopens⟩ := hw.exprs_opens hargs
    have hparen : ((a.wording.exprs (arg :: args)) ++ .operator .rightParen :: us).head? ≠
        some (.operator .rightParen) := by
      rw [hk]
      rintro ⟨⟩
      cases hopens
    rw [hs.next.eatOp_of_ne hparen, if_neg Bool.false_ne_true]
    refine (expressionList hg (List.cons_ne_nil _ _) hargs (ends_cons 1 rfl us) (by simp) hs.next
      (by omega)).bind fun js s₁ h₁ hjs => ?_
    rw [h₁.before.expectOp]
    exact .pure h₁.before.next hjs

/-- Every argument list stands in parentheses. -/
theorem callArguments {args : List ExprId} (hg : g.Reads a h known n) (hargs : ∀ i ∈ args, known i)
    (hs : s.Before (Wording.parenthesized (a.wording.exprs args) ++ us)) (hn : s.rest.length ≤ n) :
    g.callArguments.Reads s us fun b js => List.Forall₂ (a.Same h b) args js := by
  rw [Grammar.callArguments, hs.current]
  exact parenthesizedArguments hw hg hargs hs hn

/-! ## Functions and tables -/

omit hw in
include hg in
/-- **Functions** are read back, behind their name. -/
theorem funcBody {func : FuncBody} (hbody : Block.Readable a func.body)
    (hknown : ∀ x ∈ Block.ids func.body, known x)
    (hs : s.Before (Wording.params func.params func.variadic ++
      (a.wording.block func.body ++ .keyword .end_ :: us))) (hn : s.rest.length ≤ n) :
    g.funcBody.Reads s us fun b func' =>
      a.Compares h (Block.ids func.body) (fun e => e.funcBody func func') b := by
  obtain ⟨params, variadic, body⟩ := func
  rw [Grammar.funcBody]
  refine (parameters_reads hs).bind fun r s₁ h₁ hr => ?_
  have hlength := hs.length
  rw [List.length_append, ← h₁.before.length, Wording.params, Wording.parenthesized, List.length_append,
    List.length_cons] at hlength
  obtain ⟨params', variadic'⟩ := r
  obtain ⟨rfl, rfl⟩ := Prod.mk.inj hr
  refine (hg.block hbody hknown (.endWord us) h₁.before (by omega)).bind fun body' s₂ h₂ hbody' => ?_
  refine .pure h₂.before (hbody'.imp fun e he => ?_)
  simp [Comparison.funcBody, he]

/-- **Entries with a key** are read back, and with a name for the key if it
can be one. -/
theorem keyedEntry {t : Table} {key value : ExprId} (hg : g.Reads a h known n) (hkey : known key)
    (hvalue : known value) (hus : Ends 1 us) (hs : s.Before (a.wording.field (key, value) ++ us))
    (hn : s.rest.length < n) :
    (g.tableEntry t).Reads s us fun b t' => ∃ key' value', t' = t.pushKeyed key' value' ∧
      a.Same h b key key' ∧ a.Same h b value value' := by
  -- every key but a text that is a name is written in brackets
  have hbracketed (hs : s.Before (.operator .leftBracket :: (a.wording.expr key ++
      .operator .rightBracket :: .operator .assign :: (a.wording.expr value ++ us)))) :
      (g.tableEntry t).Reads s us fun b t' => ∃ key' value', t' = t.pushKeyed key' value' ∧
        a.Same h b key key' ∧ a.Same h b value value' := by
    have hlength := hs.length_next
    rw [Grammar.tableEntry, hs.lookAhead]
    show Parser.Reads (advance >>= _) _ _ _
    rw [reads_advance]
    refine (hg.expression (by omega) hkey (ends_cons 1 rfl _) hs.next (by omega)).bind
      fun key' s₁ h₁ hkey' => ?_
    have hlength₁ := hs.next.length_le h₁.before
    have hlength₂ := h₁.before.length_next
    have hlength₃ := h₁.before.next.length_next
    rw [h₁.before.expectOp, h₁.before.next.expectOp]
    refine (hg.expression (by omega) hvalue hus h₁.before.next.next (by omega)).bind
      fun value' s₂ h₂ hvalue' => ?_
    exact .pure h₂.before ⟨key', value', rfl, hkey'.grow h₂.extend, hvalue'⟩
  unfold Wording.field Wording.key at hs
  rw [Arena.wording_node] at hs
  rcases hnode : a.get key with node | node <;> rw [hnode] at hs
  · cases node with
    | string bytes =>
      have hs : s.Before (((Printer.fieldName? bytes).map fun name => [TokenKind.name name]).getD
        (.operator .leftBracket :: a.wording.expr key ++ [.operator .rightBracket]) ++
          .operator .assign :: a.wording.expr value ++ us) := hs
      cases hname : Printer.fieldName? bytes with
      | none => exact hbracketed (hs.cast (by simp [hname]))
      | some name =>
        have hs : s.Before (.name name :: .operator .assign :: (a.wording.expr value ++ us)) :=
          hs.cast (by simp [hname])
        have hlength := hs.length_next
        have hlength' := hs.next.length_next
        have htext : Utf8.encode name = bytes :=
          Utf8.encode_of_decode? (Option.mem_filter_iff.1 hname).1
        rw [Grammar.tableEntry, hs.lookAhead]
        show Parser.Reads (advance >>= _) _ _ _
        rw [reads_advance, reads_advance]
        refine (hg.expression (by omega) hvalue hus hs.next.next (by omega)).bind
          fun value' s₁ h₁ hvalue' => ?_
        -- the key is built anew from the name, behind the value
        have hbuild : build (Build.pushNamed t name value') =
            (fun key' => t.pushKeyed key' value') <$> Parser.alloc (.ofText name) :=
          rfl
        have hc : a.Compares h (Expr.atom (.string bytes)).refs
            (fun e => e.expr (.atom (.string bytes)) (.ofText name)) s₁.arena :=
          .of_forall fun e => by simp [Comparison.expr, Expr.ofText, htext]
        rw [hbuild, map_eq_pure_bind]
        refine (alloc hw hkey hnode h₁.before hc trivial).bind fun key' s₂ h₂ hkey' => ?_
        exact .pure h₂.before ⟨key', value', rfl, hkey', hvalue'.grow h₂.extend⟩
    | _ => exact hbracketed (hs.cast (by simp))
  · exact hbracketed (hs.cast (by simp))

/-- **Entries without a key** are read back. -/
theorem positionalEntry {t : Table} {value : ExprId} (hg : g.Reads a h known n) (hvalue : known value)
    (hus : Ends 1 us) (hassign : us.head? ≠ some (.operator .assign))
    (hs : s.Before (a.wording.expr value ++ us)) (hn : s.rest.length < n) :
    (g.tableEntry t).Reads s us fun b t' => ∃ value', t' = t.pushPositional value' ∧
      a.Same h b value value' := by
  have hkey := hw.noKey hvalue hassign
  rw [Grammar.tableEntry, hs.lookAhead]
  unfold NoKey at hkey
  generalize (a.wording.expr value ++ us).head? = first at hkey
  generalize (a.wording.expr value ++ us).tail.head? = second at hkey
  split
  · rename_i heq
    obtain ⟨rfl, rfl⟩ := Prod.mk.inj heq
    exact False.elim hkey
  · rename_i heq
    obtain ⟨rfl, rfl⟩ := Prod.mk.inj heq
    exact False.elim hkey
  · rename_i heq
    obtain ⟨rfl, rfl⟩ := Prod.mk.inj heq
    exact False.elim hkey
  · refine (hg.expression (by omega) hvalue hus hs (by omega)).bind fun j s₁ h₁ hj => ?_
    exact .pure h₁.before ⟨j, rfl, hj⟩

/-- What was read of some entries, and the last of them last. -/
structure Entered (a : Arena) (h : ExprId → ℕ) (b : Arena) (entries : List Wording.Entry) (t : Table) :
    Prop where
  keyed : List.Forall₂ (fun e e' => a.Same h b e.1 e'.1 ∧ a.Same h b e.2 e'.2)
    (entries.filterMap Sum.getLeft?) t.keyed
  positional : List.Forall₂ (a.Same h b) (entries.filterMap Sum.getRight?) t.positional
  last : ∀ e, entries.getLast? = some (.inr e) → t.lastPlace = .last

omit hw in
theorem Entered.grow {b b' : Arena} {entries : List Wording.Entry} {t : Table}
    (ht : Entered a h b entries t) (hb : b.Extends b') : Entered a h b' entries t :=
  ⟨ht.keyed.imp fun _ _ he => ⟨he.1.grow hb, he.2.grow hb⟩,
    ht.positional.imp fun _ _ he => he.grow hb, ht.last⟩

omit hw in
theorem Entered.pushKeyed {b : Arena} {entries : List Wording.Entry} {t : Table}
    (ht : Entered a h b entries t) {key value key' value' : ExprId} (hkey : a.Same h b key key')
    (hvalue : a.Same h b value value') :
    Entered a h b (entries ++ [.inl (key, value)]) (t.pushKeyed key' value') := by
  have hkeyed : (t.pushKeyed key' value').keyed = t.keyed ++ [(key', value')] := by
    simp [Table.keyed, Table.pushKeyed]
  have hpositional : (t.pushKeyed key' value').positional = t.positional := by
    simp [Table.positional, Table.pushKeyed]
  refine ⟨?_, ?_, fun e he => ?_⟩
  · rw [hkeyed, List.filterMap_append]
    exact List.rel_append ht.keyed (.cons ⟨hkey, hvalue⟩ .nil)
  · rw [hpositional, List.filterMap_append, List.filterMap_cons_none rfl, List.filterMap_nil,
      List.append_nil]
    exact ht.positional
  · rw [List.getLast?_concat] at he
    cases he

omit hw in
theorem Entered.pushPositional {b : Arena} {entries : List Wording.Entry} {t : Table}
    (ht : Entered a h b entries t) {value value' : ExprId} (hvalue : a.Same h b value value') :
    Entered a h b (entries ++ [.inr value]) (t.pushPositional value') := by
  have hkeyed : (t.pushPositional value').keyed = t.keyed := by
    simp [Table.keyed, Table.pushPositional]
  have hpositional : (t.pushPositional value').positional = t.positional ++ [value'] := by
    simp [Table.positional, Table.pushPositional]
  refine ⟨?_, ?_, fun _ _ => t.lastPlace_pushPositional value'⟩
  · rw [hkeyed, List.filterMap_append, List.filterMap_cons_none rfl, List.filterMap_nil,
      List.append_nil]
    exact ht.keyed
  · rw [hpositional, List.filterMap_append]
    exact List.rel_append ht.positional (.cons hvalue .nil)

section Whole

variable {b : Arena} {t t' : Table}
  (ht : Entered a h b (t.keyed.map .inl ++ t.positional.map .inr) t')
include ht
omit hw

theorem Entered.of_keyed :
    List.Forall₂ (fun e e' => a.Same h b e.1 e'.1 ∧ a.Same h b e.2 e'.2) t.keyed t'.keyed := by
  simpa [List.filterMap_map, Function.comp_def] using ht.keyed

theorem Entered.of_positional : List.Forall₂ (a.Same h b) t.positional t'.positional := by
  simpa [List.filterMap_map, Function.comp_def] using ht.positional

/-- What was read of the entries of a table is the same table. -/
theorem Entered.compares : a.Compares h (Expr.atom (.table t)).refs
    (fun e => e.expr (.atom (.table t)) (.atom (.table t'))) b := by
  have hpairs := Arena.Compares.forall₂ (I := fun e : ExprId × ExprId => [e.1] ++ [e.2])
    (ht.of_keyed.imp fun _ _ he => he.1.and he.2)
  have hvalues := Arena.compares_exprs ht.of_positional
  refine ((hpairs.and hvalues).mono fun x hx => List.mem_append_left _ ?_).imp fun e he => ?_
  · rcases List.mem_append.1 hx with hx | hx
    · obtain ⟨entry, hentry, hx⟩ := List.mem_flatMap.1 hx
      obtain ⟨hkey, hvalue⟩ := Table.mem_children_of_keyed hentry
      rcases List.mem_pair.1 hx with rfl | rfl
      · exact hkey
      · exact hvalue
    · exact t.positional_subset hx
  · exact Bool.and_eq_true_iff.2 ⟨he.2,
      Comparison.isEqv_iff_forall₂.2 (he.1.imp fun _ _ h => Bool.and_eq_true_iff.2 h)⟩

/-- With the keyed entries first, it is settled. -/
theorem Entered.settled : t'.Settled := by
  intro hsome
  have hpositional : t.positional ≠ [] := fun hnone =>
    hsome (List.forall₂_nil_left_iff.1 (hnone ▸ ht.of_positional))
  obtain ⟨init, last, hlast⟩ := (List.eq_nil_or_concat t.positional).resolve_left hpositional
  exact ht.last last (by simp [hlast])

end Whole

/-- **An entry** is read back. -/
theorem entry {entry : Wording.Entry} {entries : List Wording.Entry} {t : Table}
    (hg : g.Reads a h known n) (hknown : ∀ x ∈ entry.ids, known x) (hus : Ends 1 us)
    (hassign : us.head? ≠ some (.operator .assign)) (hs : s.Before (a.wording.entry entry ++ us))
    (hn : s.rest.length < n) (ht : Entered a h s.arena entries t) :
    (g.tableEntry t).Reads s us fun b t' => Entered a h b (entries ++ [entry]) t' := by
  rcases entry with ⟨key, value⟩ | value
  · have hkey : known key := hknown key (by simp [Wording.Entry.ids])
    have hvalue : known value := hknown value (by simp [Wording.Entry.ids])
    refine Leaves.mono (keyedEntry hw hg hkey hvalue hus hs hn) ?_
    rintro _ s' ⟨hs', key', value', rfl, hkey', hvalue'⟩
    exact ⟨hs', (ht.grow hs'.extend).pushKeyed hkey' hvalue'⟩
  · have hvalue : known value := hknown value (by simp [Wording.Entry.ids])
    refine Leaves.mono (positionalEntry hw hg hvalue hus hassign hs hn) ?_
    rintro _ s' ⟨hs', value', rfl, hvalue'⟩
    exact ⟨hs', (ht.grow hs'.extend).pushPositional hvalue'⟩

/-- An entry does not begin as a table ends. -/
theorem entry_head? {entry : Wording.Entry} (hknown : ∀ x ∈ entry.ids, known x) :
    (a.wording.entry entry ++ us).head? ≠ some (.operator .rightBrace) := by
  rcases entry with ⟨key, value⟩ | value
  · have hbracketed : (a.wording.field (key, value) ++ us).head? = some (.operator .leftBracket) ∨
        ∃ name, (a.wording.field (key, value) ++ us).head? = some (.name name) := by
      unfold Wording.field Wording.key
      rcases a.wording.node key with node | node
      · cases node with
        | string bytes =>
          cases hname : Printer.fieldName? bytes with
          | none => exact .inl (by simp [hname])
          | some name => exact .inr ⟨name, by simp [hname]⟩
        | _ => exact .inl rfl
      · exact .inl rfl
    rintro hbrace
    rcases hbracketed with hhead | ⟨name, hhead⟩ <;> cases hhead.symm.trans hbrace
  · obtain ⟨k, rest, hexpr, hk⟩ := hw.expr_opens (hknown value (by simp [Wording.Entry.ids]))
    rw [Wording.entry, hexpr]
    rintro ⟨⟩
    cases hk

theorem entries_known {t : Table} (hi : known i) (hnode : a.get i = .atom (.table t)) :
    ∀ e ∈ t.keyed.map Sum.inl ++ t.positional.map Sum.inr, ∀ x ∈ Wording.Entry.ids e, known x := by
  have hchild {x : ExprId} (hx : x ∈ (Expr.atom (.table t)).children) : known x :=
    (hw.child hi (hnode ▸ hx)).1
  intro e he x hx
  rcases List.mem_append.1 he with he | he <;> obtain ⟨y, hy, rfl⟩ := List.mem_map.1 he
  · obtain ⟨hkey, hvalue⟩ := Table.mem_children_of_keyed hy
    rcases List.mem_pair.1 hx with rfl | rfl
    · exact hchild hkey
    · exact hchild hvalue
  · obtain rfl := List.mem_singleton.1 hx
    exact hchild (t.positional_subset hy)

/-- The values without a key leave tokens, so that the entries with one are
marked off. -/
theorem entries_worded {t : Table} (hi : known i) (hnode : a.get i = .atom (.table t)) :
    a.wording.entries t = a.wording.marked (t.keyed.map .inl ++ t.positional.map .inr) := by
  refine Wording.entries_eq_marked t fun hsome => ?_
  obtain ⟨value, values, hvalues⟩ := List.exists_cons_of_ne_nil hsome
  obtain ⟨k, rest, hexprs, -⟩ := hw.exprs_opens fun x (hx : x ∈ value :: values) =>
    (hw.child hi (hnode ▸ t.positional_subset (hvalues ▸ hx))).1
  rw [hvalues, hexprs]
  exact List.cons_ne_nil _ _

/-- **Tables** are read back, with the keyed entries first. -/
theorem table {t : Table} (hg : g.Reads a h known n) (hi : known i) (hnode : a.get i = .atom (.table t))
    (hs : s.Before (a.wording.atom (.table t) ++ us)) (hn : s.rest.length ≤ n) :
    g.table.Reads s us fun b j => a.Same h b i j := by
  let entries : List Wording.Entry := t.keyed.map .inl ++ t.positional.map .inr
  have hknown : ∀ e ∈ entries, ∀ x ∈ e.ids, known x := entries_known hw hi hnode
  have hs : s.Before (.operator .leftBrace :: (a.wording.marked entries ++
      .operator .rightBrace :: us)) := by
    simpa [Wording.atom, entries_worded hw hi hnode, entries] using hs
  have hlength := hs.length_next
  rw [Grammar.table, hs.expectOp]
  -- the entries that were read, and those that are left
  refine Parser.Reads.bind (I := fun b t' => Entered a h b entries t') (reads_loop
    (I := fun t' b ts => ∃ done todo, entries = done ++ todo ∧ Entered a h b done t' ∧
      ts = a.wording.marked todo ++ .operator .rightBrace :: us ∧ ts.length < n) ?_ hs.next
    ⟨[], entries, rfl, ⟨.nil, .nil, fun _ h => by cases h⟩, rfl, by rw [← hs.next.length]; omega⟩)
    fun t' s' hs' ht' => alloc hw hi hnode hs'.before ht'.compares ht'.settled
  rintro t' s' _ - hs' ⟨done, todo, hentries, ht', rfl, hn'⟩
  cases todo with
  | nil =>
    rw [List.append_nil] at hentries
    refine .inr ?_
    have hclose : s'.Before (.operator .rightBrace :: us) := hs'
    rw [hclose.eatOp, if_pos rfl]
    exact .pure hclose.next ⟨t', rfl, hentries ▸ ht'⟩
  | cons e todo =>
    have he := hknown e (hentries ▸ List.mem_append_right done List.mem_cons_self)
    by_cases hlast : todo = []
    · subst hlast
      refine .inr ?_
      rw [hs'.eatOp_of_ne (entry_head? hw he), if_neg Bool.false_ne_true]
      refine (entry hw hg he (ends_cons 1 rfl us) (by simp) hs' (by rw [hs'.length]; omega) ht').bind
        fun t'' s'' h'' ht'' => ?_
      rw [h''.before.eatOp_of_ne (by simp), if_neg Bool.false_ne_true,
        h''.before.eatOp_of_ne (by simp), if_neg Bool.false_ne_true, h''.before.expectOp]
      exact .pure h''.before.next ⟨t'', rfl, hentries ▸ ht''⟩
    · rw [Wording.marked_cons hlast, List.append_assoc, List.cons_append] at hs' hn' ⊢
      refine .inl ⟨a.wording.marked todo ++ .operator .rightBrace :: us, ?_, ?_⟩
      · simp only [List.length_append, List.length_cons]
        omega
      have hn'' := hs'.length
      rw [hs'.eatOp_of_ne (entry_head? hw he), if_neg Bool.false_ne_true]
      have hends (vs : List TokenKind) : Ends 1 (.operator e.mark :: vs) := by
        cases e <;> exact ends_cons 1 rfl vs
      refine (entry hw hg he (hends _) (by cases e <;> simp [Wording.Entry.mark]) hs' (by omega)
        ht').bind fun t'' s'' h'' ht'' => ?_
      have hfewer := hs'.length_le h''.before
      have hread := h''.before.length_next
      have hI : ∃ done' todo', entries = done' ++ todo' ∧ Entered a h s''.next.arena done' t'' ∧
          a.wording.marked todo ++ .operator .rightBrace :: us =
            a.wording.marked todo' ++ .operator .rightBrace :: us ∧
          (a.wording.marked todo ++ .operator .rightBrace :: us).length < n :=
        ⟨done ++ [e], todo, by simp [hentries], ht'', rfl, by
          rw [← h''.before.next.length]
          omega⟩
      cases e with
      | inl _ =>
        have hsemicolon : s''.Before (.operator .semicolon :: _) := h''.before
        rw [hsemicolon.eatOp_of_ne (by simp), if_neg Bool.false_ne_true, hsemicolon.eatOp, if_pos rfl]
        exact .pure hsemicolon.next ⟨t'', rfl, hI⟩
      | inr _ =>
        have hcomma : s''.Before (.operator .comma :: _) := h''.before
        rw [hcomma.eatOp, if_pos rfl]
        exact .pure hcomma.next ⟨t'', rfl, hI⟩

end Grammar.Reads

end LuaSugar
