import Mathlib
import LuaSugar.Proofs.Render.Spelled
import LuaSugar.Proofs.Syntax.Renamed
/-!
# Printed nodes spell the wording

What is printed of a node spells its wording if that is so for the ids it
refers to. Every node is an operand, so it may stand behind any opening
mark and before any closing one; a point may stand behind it if it does
not end with a number, and what stands before a point never does.
-/

namespace LuaSugar

namespace Fragment

variable {f g : Fragment} {ts us : List TokenKind}

/-- A minus or a slash does not fuse with a digit. -/
theorem symbol_joins_number {op : Operator} (hop : op ∈ [Operator.minus, .slash]) {value : Double}
    (h : (TokenKind.number value).Legible) : (TokenKind.operator op).Joins (.number value) := by
  have hsymbol : ∀ op ∈ [Operator.minus, .slash], op ∈ Operator.symbols := by decide
  refine TokenKind.symbol_joins (hsymbol op hop) rfl h fun last hlast first hfirst => ?_
  obtain ⟨d, hd, hdigit⟩ := (Double.plainText_ends h.1 h.2).1
  obtain rfl : d = first := Option.some.inj (hd.symm.trans hfirst)
  have hdash : d ≠ '-' := by
    rintro rfl
    exact absurd hdigit (by decide)
  have hmark : ∀ op ∈ [Operator.minus, .slash], op.text.toList.getLast?.all fun c =>
      !Word.isPart c && c != '.' && !c.isDigit := by
    decide
  have hlast := (Option.all_eq_true ..).1 (hmark op hop) last hlast
  simp only [Bool.and_eq_true, Bool.not_eq_true', bne_iff_ne] at hlast
  simp [fuses, hdash, hlast]

theorem number_joins_slash {value : Double} (h : (TokenKind.number value).Legible) :
    (TokenKind.number value).Joins (.operator .slash) := by
  refine TokenKind.closes_joins rfl h (by decide) fun last hlast first hfirst => ?_
  obtain rfl : '/' = first := Option.some.inj hfirst
  obtain ⟨d, hd, hdigit⟩ := (Double.plainText_ends h.1 h.2).2
  obtain rfl : d = last := Option.some.inj (hd.symm.trans hlast)
  simp [fuses, show Word.isPart '/' = false by decide, show Char.isDigit '/' = false by decide]

/-- A sign before what begins with a number. -/
theorem Operand.signed {value : Double} (h : f.Operand (.number value :: ts)) (negative : Bool) :
    ∃ us, Operand ((if negative then [Lexeme.op .minus] else []) ++ f) us := by
  cases negative with
  | false => exact ⟨_, h⟩
  | true =>
    have hspells := (Spells.op .minus).append h.toSpells (by
      rintro _ ⟨⟩ _ ⟨⟩
      exact symbol_joins_number (by decide) (h.legible _ List.mem_cons_self))
    exact ⟨_, .of_append hspells h.ne h.closes, by rintro _ ⟨⟩; rfl⟩

/-- A number over zero. -/
theorem operand_quotient {value : Double} (h : (TokenKind.number value).Legible) :
    Operand [.token (.number value), .op .slash, .token (.number Double.zero)]
      (.number value :: [.operator .slash, .number Double.zero]) := by
  have hzero : (TokenKind.number Double.zero).Legible := ⟨by decide, by decide⟩
  have hslash := (Spells.op .slash).append (Spells.token hzero) (by
    rintro _ ⟨⟩ _ ⟨⟩
    exact symbol_joins_number (by decide) hzero)
  have hspells := (Spells.token h).append hslash (by
    rintro _ ⟨⟩ _ ⟨⟩
    exact number_joins_slash h)
  exact ⟨.of_append hspells (by simp) (by rintro _ ⟨⟩; rfl), by rintro _ ⟨⟩; rfl⟩

/-- **A number** is written as an operand, whatever it is. -/
theorem operand_number (x : Double) : (number x).Operand (number x).tokens := by
  suffices hsome : ∃ ts, (number x).Operand ts by
    obtain ⟨ts, hts⟩ := hsome
    rwa [hts.tokens]
  have hzero : (TokenKind.number Double.zero).Legible := ⟨by decide, by decide⟩
  have hone : (TokenKind.number (Double.ofNat 1)).Legible := ⟨by decide, by decide⟩
  unfold number
  dsimp only
  split
  · exact ⟨_, Part.parenthesized (.inr (operand_quotient hzero))⟩
  split
  · obtain ⟨ts, hts⟩ := (operand_quotient hone).signed x.isNegative
    exact ⟨_, Part.parenthesized (.inr hts)⟩
  split
  · exact ⟨_, Operand.token hzero rfl rfl⟩
  · rename_i hnan hinfinite hnonzero
    have hfinite : x.magnitude < Double.infiniteMagnitude := by
      simp only [Double.isNaN, Double.isInfinite, decide_eq_true_eq] at hnan hinfinite
      omega
    have habs : (TokenKind.number x.abs).Legible := by
      refine ⟨Double.isNegative_ofMagnitude _, decide_eq_true ?_⟩
      rw [Double.abs, Double.magnitude_ofMagnitude]
      omega
    exact (Operand.token habs rfl rfl).signed x.isNegative

/-! ## Braces -/

/-- Nothing in braces. -/
theorem operand_emptyBraces :
    Operand ([.op .leftBrace] ++ [.op .rightBrace]) [.operator .leftBrace, .operator .rightBrace] := by
  have hspells := (Spells.op .leftBrace).append (Spells.op .rightBrace) (by
    rintro _ ⟨⟩ b -
    exact TokenKind.solitary_joins (by decide) b)
  exact ⟨.of_append hspells (by simp) (by rintro _ ⟨⟩; rfl), by rintro _ ⟨⟩; rfl⟩

/-- A phrase in braces, maybe with gaps around it. -/
theorem Phrase.braced (h : f.Phrase ts) {space space' : Fragment} (hspace : IsGap space)
    (hspace' : IsGap space') :
    Operand (.op .leftBrace :: (space ++ f ++ space') ++ [.op .rightBrace])
      (.operator .leftBrace :: ts ++ [.operator .rightBrace]) := by
  have hleft := (Spells.op .leftBrace).between h.toSpells (List.cons_ne_nil _ _) h.ne hspace (by
    rintro _ ⟨⟩ b -
    exact TokenKind.solitary_joins (by decide) b)
  have hspells := hleft.between (Spells.op .rightBrace) (by simp) (List.cons_ne_nil _ _) hspace' (by
    rintro a ha _ ⟨⟩
    rw [List.getLast?_append_of_ne_nil _ h.ne] at ha
    exact TokenKind.joins_closing (h.closes a ha) (by decide))
  have hphrase := Phrase.of_append hspells (List.cons_ne_nil _ _) (by rintro _ ⟨⟩; rfl)
  rw [List.append_assoc] at hphrase
  exact ⟨by simpa using hphrase, by rintro _ ⟨⟩; rfl⟩

end Fragment

namespace Printer

open Fragment

variable {p : Printer} {w : Wording} {a : Arena}

/-! ## Suffixes -/

/-- What stands before a suffix is an operand that does not end with a
number. -/
theorem operand_subject (hnode : p.node = w.node) {ids : List ExprId} (h : Words p w ids)
    {x : ExprId} (hx : x ∈ ids) (indent : ℕ) :
    (p.subject indent x).Operand (w.subject x) ∧
      ∀ token ∈ (w.subject x).getLast?, ∀ value, token ≠ .number value := by
  obtain ⟨hoperand, hworded, hsugar⟩ := h x hx
  have hparenthesized := Part.parenthesized (.inr (hoperand indent))
  have hlast : ∀ token ∈ (Wording.parenthesized (w.expr x)).getLast?, ∀ value,
      token ≠ .number value := by
    intro token htoken value
    rw [Wording.parenthesized, List.getLast?_concat] at htoken
    obtain rfl := Option.some.inj htoken
    simp
  unfold subject Wording.subject
  rw [hnode]
  -- what is not put in parentheses is a name or ends with one or with a
  -- closing bracket
  rcases hx : w.node x with node | node
  · cases node with
    | name text =>
      refine ⟨hoperand indent, fun token htoken value => ?_⟩
      rw [hworded, hx] at htoken
      obtain rfl := Option.some.inj htoken
      simp
    | _ => exact ⟨hparenthesized, hlast⟩
  · cases node with
    | unary op operand => exact ⟨hparenthesized, hlast⟩
    | assign op target value =>
      rw [hx] at hsugar
      cases hsugar
    | _ =>
      refine ⟨hoperand indent, fun token htoken value => ?_⟩
      rw [hworded, hx] at htoken
      simp only [Wording.expression, Wording.arith, Wording.parenthesized, ← List.append_assoc,
        ← List.cons_append, List.getLast?_append, List.getLast?_cons_cons, List.getLast?_singleton,
        Option.some_or, Option.mem_def, Option.some.injEq] at htoken
      subst htoken
      simp

theorem operand_leftOperand (hnode : p.node = w.node) {ids : List ExprId} (h : Words p w ids)
    {x : ExprId} (hx : x ∈ ids) (op : BinaryOp) (indent : ℕ) :
    (p.leftOperand indent op x).Operand (w.leftOperand op x) := by
  have hoperand := h.operand hx indent
  have hparenthesized := Part.parenthesized (.inr hoperand)
  unfold leftOperand Wording.leftOperand
  rw [hnode]
  cases op with
  | pow =>
    rcases w.node x with node | node
    · exact hoperand
    · cases node with
      | unary op operand => exact hparenthesized
      | _ => exact hoperand
  | _ => exact hoperand

/-- **Operations** spell their wording. -/
theorem operand_arith (hnode : p.node = w.node) {x : Arith}
    (hnames : Vocabulary.lexed.Node a (.arith x)) (hsugar : (Expr.arith x).isSugar = false)
    (h : Words p w (Expr.arith x).children) (indent : ℕ) :
    (p.arith indent x).Operand (w.arith x) := by
  cases x with
  | binary op left right =>
    have hleft := operand_leftOperand hnode h (x := left) (by simp [Expr.children]) op indent
    have hright := h.operand (x := right) (by simp [Expr.children]) indent
    exact Part.parenthesized (.inr (p.layout.operand_infixed op hleft hright))
  | unary op operand =>
    have hoperand := h.operand (x := operand) (by simp [Expr.children]) indent
    -- a word needs a blank behind it, a symbol only where it would be read
    -- together with the operand
    have hopens {f : Fragment} (hspells : f.Spells ([.operator op.operator] ++ w.expr operand)) :
        f.Operand ([.operator op.operator] ++ w.expr operand) := by
      refine ⟨⟨hspells, by simp, fun token htoken => hoperand.closes token ?_⟩, ?_⟩
      · rwa [List.getLast?_append_of_ne_nil _ hoperand.ne] at htoken
      · rintro _ ⟨⟩
        cases op <;> rfl
    have hglue (hsymbol : op.operator ∈ Operator.symbols) :=
      (Spells.op op.operator).glue hoperand.toSpells (by
        rintro _ ⟨⟩ b hb hapart
        exact TokenKind.symbol_joins hsymbol (hoperand.opens b hb)
          (hoperand.legible b (List.mem_of_mem_head? hb)) hapart)
    cases op with
    | not =>
      exact hopens ((Spells.op .not).gap hoperand.toSpells (List.cons_ne_nil _ _) hoperand.ne
        Lexeme.legible_blank)
    | len | neg => exact hopens (hglue (by decide))
  | member object name =>
    obtain ⟨hsubject, hlast⟩ := operand_subject hnode h (x := object) (by simp [Expr.children]) indent
    exact hsubject.suffixed hnames
      (fun token htoken => TokenKind.joins_dot (hsubject.closes token htoken) (hlast token htoken))
      (TokenKind.dot_joins hnames)
  | subscript object key =>
    obtain ⟨hsubject, -⟩ := operand_subject hnode h (x := object) (by simp [Expr.children]) indent
    have hkey := (h.operand (x := key) (by simp [Expr.children]) indent).bracketed
    have hspells := hsubject.append hkey.toSpells (by
      rintro token htoken _ ⟨⟩
      exact TokenKind.joins_closing (hsubject.closes token htoken) (by decide))
    refine ⟨by simpa [arith, Wording.arith] using Phrase.of_append hspells hkey.ne hkey.closes,
      fun b hb => hsubject.opens b ?_⟩
    rw [Wording.arith, List.append_assoc, List.head?_append_of_ne_nil _ hsubject.ne] at hb
    exact hb
  | call target method args =>
    obtain ⟨hsubject, -⟩ := operand_subject hnode h (x := target) (by simp [Expr.children]) indent
    have hwords : Words p w args := h.mono (by simp [Expr.children])
    have hargs := part_exprs indent hwords
    cases method with
    | none => simpa [arith, Wording.arith] using hsubject.called hargs
    | some name => exact (hsubject.method hnames).called hargs
  | assign op target value => cases hsugar

/-! ## Tables -/

/-- **Entries with a key** spell their wording; what can be a name is
written as one. -/
theorem phrase_field (hnode : p.node = w.node) {key value : ExprId} {ids : List ExprId}
    (h : Words p w ids) (hkey : key ∈ ids) (hvalue : value ∈ ids) (indent : ℕ) :
    (p.field indent key value).Phrase (w.field (key, value)) := by
  have hbracketed := (h.operand hkey indent).bracketed
  have hphrase : ∃ f, p.field indent key value = f ++ p.layout.equals ++ p.expr indent value ∧
      f.Phrase (w.key key) := by
    refine ⟨_, rfl, ?_⟩
    unfold Wording.key
    rw [hnode]
    rcases w.node key with node | node
    · cases node with
      | string bytes =>
        show Phrase ((Option.map _ (fieldName? bytes)).getD _) ((Option.map _ (fieldName? bytes)).getD _)
        cases hname : fieldName? bytes with
        | none => exact hbracketed
        | some name => exact (Operand.name (Option.mem_filter_iff.1 hname).2).toPhrase
      | _ => exact hbracketed
    · exact hbracketed
  obtain ⟨f, hf, hphrase⟩ := hphrase
  rw [hf]
  exact p.layout.phrase_equals hphrase (h.operand hvalue indent)

/-- **Tables** spell their wording, with the keyed entries first. -/
theorem operand_table (hnode : p.node = w.node) (t : Table)
    (h : Words p w (Expr.atom (.table t)).children) (indent : ℕ) :
    (p.table indent t).Operand (w.atom (.table t)) := by
  have hvalues := part_exprs (indent + 1) (h.mono t.positional_subset)
  have hfields : ∀ entry ∈ t.keyed,
      (p.field (indent + 1) entry.1 entry.2).Phrase (w.field entry) := fun entry hentry => by
    obtain ⟨hkey, hvalue⟩ := Table.mem_children_of_keyed hentry
    exact phrase_field hnode h hkey hvalue (indent + 1)
  -- the lines of the table, each with its tokens
  let lines := t.keyed.map (fun entry => (p.field (indent + 1) entry.1 entry.2, w.field entry)) ++
    if w.exprs t.positional = [] then []
    else [(p.exprs (indent + 1) t.positional, w.exprs t.positional)]
  have hlines : ∀ line ∈ lines, line.1.Phrase line.2 := by
    intro line hline
    rcases List.mem_append.1 hline with hline | hline
    · obtain ⟨entry, hentry, rfl⟩ := List.mem_map.1 hline
      exact hfields entry hentry
    · split at hline
      · cases hline
      · rename_i hne
        obtain rfl := List.mem_singleton.1 hline
        exact (hvalues.resolve_left fun hnil => hne hnil.2).toPhrase
  have htexts : t.keyed.map (fun entry => p.field (indent + 1) entry.1 entry.2) ++
      (if (p.exprs (indent + 1) t.positional).isBlank then []
        else [p.exprs (indent + 1) t.positional]) = lines.map Prod.fst := by
    rw [List.map_append, List.map_map]
    congr 1
    by_cases hnil : w.exprs t.positional = []
    · rw [if_pos (hvalues.isBlank_iff.2 hnil), if_pos hnil]
      rfl
    · rw [if_neg (mt hvalues.isBlank_iff.1 hnil), if_neg hnil]
      rfl
  have hwords : w.entries t = [.operator .semicolon].intercalate (lines.map Prod.snd) := by
    rw [Wording.entries, List.map_append, List.map_map]
    congr 2
    split <;> rfl
  show Fragment.Operand _ (.operator .leftBrace :: w.entries t ++ [.operator .rightBrace])
  unfold table
  dsimp only
  rw [map_field, htexts]
  cases hkeyed : t.keyed with
  | nil =>
    have hentries : w.entries t = w.exprs t.positional := by
      rw [Wording.entries, hkeyed]
      by_cases hnil : w.exprs t.positional = []
      · rw [if_pos hnil, hnil]
        rfl
      · rw [if_neg hnil]
        exact List.intercalate_singleton
    rw [hentries, List.map_nil]
    rcases hvalues with ⟨hf, hts⟩ | hvalues
    · rw [hf, hts]
      exact operand_emptyBraces
    · simpa using hvalues.braced (.inl rfl) (.inl rfl)
  | cons entry rest =>
    have hne : lines ≠ [] := by simp [lines, hkeyed]
    have hjoined {space : Fragment} (hspace : IsGap space) :=
      Phrase.joined (by decide : Operator.semicolon ∈ Operator.closing) (by decide) hspace hne hlines
    rw [hwords, List.map_cons]
    dsimp only
    split
    · have hbreak (indent : ℕ) : IsGap (p.layout.lineBreak indent) := .inr (p.layout.lineBreak_eq indent)
      exact (hjoined (hbreak (indent + 1))).braced (hbreak (indent + 1)) (hbreak indent)
    · simpa using (hjoined (.inl rfl)).braced (.inl rfl) (.inl rfl)

/-! ## Nodes -/

/-- What a node is worded with: names are names, and no sugar. -/
def WordedNode (a : Arena) (e : Expr) : Prop :=
  Vocabulary.lexed.Node a e ∧ e.isSugar = false ∧
    ∀ func, e = .atom (.func func) → Block.Everywhere (Worded a) func.body

/-- **A node spells its wording** if the ids it refers to do. -/
theorem operand_expression (hnode : p.node = w.node) {e : Expr} (he : WordedNode a e)
    (h : Words p w e.refs) (indent : ℕ) : (p.expression indent e).Operand (w.expression e) := by
  obtain ⟨hnames, hsugar, hbodies⟩ := he
  have hchildren : Words p w e.children := h.mono (List.subset_append_left _ _)
  cases e with
  | arith x => exact operand_arith hnode hnames hsugar hchildren indent
  | atom x =>
    cases x with
    | number value => exact operand_number value
    | string bytes => exact Operand.token trivial rfl rfl
    | boolean value => cases value <;> exact Operand.word _
    | nil => exact Operand.word _
    | vararg => exact Operand.token trivial rfl rfl
    | name text => exact Operand.name hnames
    | table t => exact operand_table hnode t hchildren indent
    | element t => cases hsugar
    | func func =>
      exact operand_funcBody func (.inl ⟨rfl, rfl⟩) hnames.1 (hbodies func rfl)
        (h.mono (List.subset_append_right _ _)) indent

end Printer

end LuaSugar
