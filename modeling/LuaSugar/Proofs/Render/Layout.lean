import Mathlib
import LuaSugar.Proofs.Token.Spelling
import LuaSugar.Proofs.Render.Wording
/-!
# Layouts spell the wording

Lists, assignments, operators and statement sequences are laid out
differently, but spell the same tokens in either layout: gaps are the only
difference, and where there is none the tokens join.
-/

namespace LuaSugar

namespace Fragment

variable {f g : Fragment} {ts us : List TokenKind}

/-! ## Brackets and lists -/

/-- **In parentheses**, something or nothing is an operand. -/
theorem Part.parenthesized (h : f.Part ts) :
    (parenthesized f).Operand (Wording.parenthesized ts) := by
  have hspells : Spells ([.op .leftParen] ++ f ++ [.op .rightParen])
      ([.operator .leftParen] ++ ts ++ [.operator .rightParen]) := by
    rcases h with ⟨rfl, rfl⟩ | h
    · refine (Spells.op .leftParen).append (Spells.op .rightParen) ?_
      rintro _ ⟨⟩ b _
      exact TokenKind.solitary_joins (by decide) b
    · exact (h.behind (by decide)).mark (by decide)
  refine ⟨⟨hspells, by simp [Wording.parenthesized], fun a ha => ?_⟩, ?_⟩
  · rw [Wording.parenthesized, List.getLast?_concat] at ha
    cases ha
    rfl
  · rintro _ ⟨⟩
    rfl

/-- An operand in brackets. -/
theorem Operand.bracketed (h : f.Operand ts) :
    Phrase (.op .leftBracket :: f ++ [.op .rightBracket])
      (.operator .leftBracket :: ts ++ [.operator .rightBracket]) :=
  .of_append ((h.behind (by decide : Operator.leftBracket ∈ Operator.opening)).mark (by decide)) (by simp)
    (by rintro _ ⟨⟩; rfl)

/-- Phrases with a mark between them that is read whatever is behind it,
and maybe a gap. -/
theorem Phrase.joined {α : Type} {F : α → Fragment} {T : α → List TokenKind} {mark : Operator}
    (hclosing : mark ∈ Operator.closing) (hsolitary : mark ∈ Operator.solitary) {space : Fragment}
    (hspace : IsGap space) : ∀ {items : List α}, items ≠ [] →
    (∀ item ∈ items, (F item).Phrase (T item)) →
    (joined (.op mark :: space) (items.map F)).Phrase ([.operator mark].intercalate (items.map T))
  | [], hne, _ => absurd rfl hne
  | [item], _, h => by simpa [Fragment.joined] using h item (by simp)
  | item :: next :: items, _, h => by
    rw [List.forall_mem_cons] at h
    have hrest := Phrase.joined hclosing hsolitary hspace (List.cons_ne_nil next items) h.2
    rw [List.map_cons, List.map_cons] at hrest
    have hspells := (h.1.mark hclosing).between hrest.toSpells (by simp) hrest.ne hspace (by
      rintro a ha b -
      rw [List.getLast?_concat] at ha
      cases ha
      exact TokenKind.solitary_joins hsolitary b)
    rw [Fragment.joined, List.map_cons, List.map_cons, List.intercalate_cons_cons, List.map_cons,
      List.map_cons, List.intercalate_cons_cons]
    have hphrase := Phrase.of_append hspells hrest.ne hrest.closes
    simpa [Fragment.joined] using hphrase

/-! ## What printing asks of fragments -/

/-- A part without tokens writes nothing. -/
theorem Part.isBlank_iff (h : f.Part ts) : f.isBlank ↔ ts = [] := by
  rcases h with ⟨rfl, rfl⟩ | h
  · simp [Fragment.isBlank]
  · refine iff_of_false (fun hblank => ?_) h.ne
    obtain ⟨b, hb⟩ := Option.isSome_iff_exists.1 (List.isSome_head?.2 h.ne)
    have hhead := h.head
    rw [hb, Option.map_some] at hhead
    have hmem := List.mem_of_mem_head? hhead
    have hempty := List.all_eq_true.1 hblank _ hmem
    exact (h.clean.1 _ hmem).ne_nil (by simpa using hempty)

/-- A statement is written with a parenthesis first if that is its first
token. -/
theorem Operand.first?_paren (h : f.Operand ts) :
    f.first? = some '(' ↔ ts.head? = some (.operator .leftParen) := by
  obtain ⟨b, hb⟩ := Option.isSome_iff_exists.1 (List.isSome_head?.2 h.ne)
  rw [h.first?, hb, Option.bind_some, Option.some.injEq]
  exact TokenKind.head_paren (h.opens b hb) (h.legible b (List.mem_of_mem_head? hb))

end Fragment

namespace Layout

open Fragment

variable (ℓ : Layout) {f g : Fragment} {ts us : List TokenKind}

theorem isGap_gap : IsGap (ℓ.gap " ") := by
  cases ℓ with
  | pretty => exact .inr ⟨_, rfl, Lexeme.legible_blank⟩
  | minify => exact .inl rfl

/-- A line break is a gap in either layout. -/
theorem lineBreak_eq (indent : ℕ) :
    ∃ text, ℓ.lineBreak indent = [.gap text] ∧ (Lexeme.gap text).Legible := by
  cases ℓ with
  | pretty =>
    refine ⟨_, rfl, by simp, fun c hc => ?_⟩
    rw [String.toList_append, indentation, String.toList_ofList, List.mem_append] at hc
    rcases hc with hc | hc
    · obtain rfl : c = '\n' := by simpa using hc
      decide
    · rw [String.toList_ofList] at hc
      obtain rfl := List.eq_of_mem_replicate hc
      decide
  | minify => exact ⟨_, rfl, Lexeme.legible_blank⟩

section Lists

variable {α : Type} {F : α → Fragment} {T : α → List TokenKind}

/-- **Listed operands** are an operand. -/
theorem operand_listed {items : List α} (hne : items ≠ [])
    (h : ∀ item ∈ items, (F item).Operand (T item)) :
    (ℓ.listed (items.map F)).Operand (Wording.listed (items.map T)) := by
  have hcomma : Operator.comma ∈ Operator.closing := by decide
  have hphrase := Phrase.joined hcomma (by decide) ℓ.isGap_gap hne
    fun item hitem => (h item hitem).toPhrase
  refine ⟨hphrase, fun b hb => ?_⟩
  obtain ⟨item, items, rfl⟩ := List.exists_cons_of_ne_nil hne
  have hfirst := h item List.mem_cons_self
  refine hfirst.opens b ?_
  cases items with
  | nil => simpa [Wording.listed] using hb
  | cons next items =>
    rw [Wording.listed, List.map_cons, List.map_cons, List.intercalate_cons_cons, List.append_assoc,
      List.head?_append_of_ne_nil _ hfirst.ne] at hb
    exact hb

theorem part_listed {items : List α} (h : ∀ item ∈ items, (F item).Operand (T item)) :
    (ℓ.listed (items.map F)).Part (Wording.listed (items.map T)) := by
  cases items with
  | nil => exact .inl ⟨rfl, rfl⟩
  | cons item items => exact .inr (ℓ.operand_listed (List.cons_ne_nil _ _) h)

end Lists

/-! ## Operators -/

/-- An equals sign between a phrase and an operand. -/
theorem phrase_equals (hf : f.Phrase ts) (hg : g.Operand us) :
    (f ++ ℓ.equals ++ g).Phrase (ts ++ .operator .assign :: us) := by
  have hassign : ∀ a ∈ ts.getLast?, ∀ b ∈ [TokenKind.operator .assign].head?, a.Joins b := by
    rintro a ha _ ⟨⟩
    exact TokenKind.joins_closing (hf.closes a ha) (by decide)
  have hleft := hf.between (Spells.op .assign) hf.ne (List.cons_ne_nil _ _) ℓ.isGap_gap hassign
  have hopens : ∀ a ∈ (ts ++ [TokenKind.operator .assign]).getLast?, ∀ b ∈ us.head?, a.Joins b := by
    intro a ha b hb
    rw [List.getLast?_concat] at ha
    cases ha
    exact TokenKind.opening_joins (by decide) (hg.opens b hb)
      (hg.legible b (List.mem_of_mem_head? hb))
  have hspells := hleft.between hg.toSpells (by simp) hg.ne ℓ.isGap_gap hopens
  have hphrase := Phrase.of_append hspells hg.ne hg.closes
  simpa [equals] using hphrase

theorem operand_equals (hf : f.Operand ts) (hg : g.Operand us) :
    (f ++ ℓ.equals ++ g).Operand (ts ++ .operator .assign :: us) := by
  refine ⟨ℓ.phrase_equals hf.toPhrase hg, fun b hb => hf.opens b ?_⟩
  rwa [List.head?_append_of_ne_nil _ hf.ne] at hb

/-- **An operator between operands**, apart or glued. -/
theorem operand_infixed (op : BinaryOp) (hf : f.Operand ts) (hg : g.Operand us) :
    (ℓ.infixed f [.op op.operator] g).Operand (ts ++ .operator op.operator :: us) := by
  have hspells : (ℓ.infixed f [.op op.operator] g).Spells (ts ++ [.operator op.operator] ++ us) := by
    unfold infixed
    split
    · exact (hf.gap (Spells.op _) hf.ne (List.cons_ne_nil _ _) Lexeme.legible_blank).gap hg.toSpells
        (by simp) hg.ne Lexeme.legible_blank
    · rename_i hno
      have hsymbols : ∀ op : BinaryOp, op.operator ∈ Operator.symbols ∨
          (Fragment.first? [.op op.operator]).any Char.isAlpha := by
        intro op
        cases op <;> decide
      have hsymbol := (hsymbols op).resolve_right fun h => hno (.inr h)
      refine (hf.glue (Spells.op _) ?_).glue hg.toSpells ?_
      · rintro a ha _ ⟨⟩ hapart
        exact TokenKind.closes_joins (hf.closes a ha)
          (hf.legible a (List.mem_of_mem_getLast? ha)) hsymbol hapart
      · intro a ha b hb hapart
        rw [List.getLast?_concat] at ha
        cases ha
        exact TokenKind.symbol_joins hsymbol (hg.opens b hb)
          (hg.legible b (List.mem_of_mem_head? hb)) hapart
  rw [List.append_assoc, List.singleton_append] at hspells
  refine ⟨⟨hspells, by simp, fun a ha => hg.closes a ?_⟩, fun b hb => hf.opens b ?_⟩
  · rwa [List.getLast?_append_of_ne_nil _ (List.cons_ne_nil _ _),
      List.getLast?_cons_of_ne_nil hg.ne] at ha
  · rwa [List.head?_append_of_ne_nil _ hf.ne] at hb

/-! ## Statements -/

/-- The lines of a body between two that are operands. -/
theorem operand_enclosed (indent : ℕ) {head body tail : Fragment} {hs bs ts : List TokenKind}
    (hhead : head.Operand hs) (hbody : body.Part bs) (htail : tail.Operand ts) :
    (ℓ.enclosed indent head body tail).Operand (hs ++ bs ++ ts) := by
  obtain ⟨text, htext, hlegible⟩ := ℓ.lineBreak_eq (indent + 1)
  obtain ⟨text', htext', hlegible'⟩ := ℓ.lineBreak_eq indent
  unfold enclosed
  rcases hbody with ⟨rfl, rfl⟩ | hbody
  · rw [if_pos (Part.isBlank_iff (.inl ⟨rfl, rfl⟩) |>.2 rfl), List.append_nil]
    exact hhead.blank htail
  · rw [if_neg fun h => hbody.ne ((Part.isBlank_iff (.inr hbody)).1 h), htext, htext']
    simpa using (hhead.apart hbody hlegible).apart htail hlegible'

theorem operand_opened (indent : ℕ) {head body : Fragment} {hs bs : List TokenKind}
    (hhead : head.Operand hs) (hbody : body.Part bs) :
    (ℓ.opened indent head body).Operand (hs ++ bs) := by
  obtain ⟨text, htext, hlegible⟩ := ℓ.lineBreak_eq (indent + 1)
  unfold opened
  rcases hbody with ⟨rfl, rfl⟩ | hbody
  · rw [if_pos (Part.isBlank_iff (.inl ⟨rfl, rfl⟩) |>.2 rfl), List.append_nil]
    exact hhead
  · rw [if_neg fun h => hbody.ne ((Part.isBlank_iff (.inr hbody)).1 h), htext]
    simpa using hhead.apart hbody hlegible

/-- What stands before a statement: a semicolon or a line break. -/
theorem operand_next (indent : ℕ) (hf : f.Operand ts) (hg : g.Operand us) :
    Operand (f ++ if g.first? = some '(' then
        .op .semicolon :: (match ℓ with
          | pretty => ℓ.lineBreak indent
          | minify => []) ++ g
      else ℓ.lineBreak indent ++ g)
      (ts ++ if us.head? = some (.operator .leftParen) then .operator .semicolon :: us else us) := by
  -- a statement that begins with a parenthesis could be taken for a call's arguments
  by_cases hparen : us.head? = some (.operator .leftParen)
  · rw [if_pos (hg.first?_paren.2 hparen), if_pos hparen]
    have hspace : IsGap (match ℓ with
        | pretty => ℓ.lineBreak indent
        | minify => []) := by
      cases ℓ with
      | pretty => exact .inr (lineBreak_eq _ indent)
      | minify => exact .inl rfl
    have hmark : Operator.semicolon ∈ Operator.closing := by decide
    have hspells := (hf.mark hmark).between hg.toSpells (by simp) hg.ne hspace (by
      intro a ha b _
      rw [List.getLast?_concat] at ha
      cases ha
      exact TokenKind.solitary_joins (by decide) b)
    have hphrase := Phrase.of_append hspells hg.ne hg.closes
    rw [List.append_assoc, List.append_assoc, List.singleton_append] at hphrase
    refine ⟨by simpa using hphrase, fun b hb => hf.opens b ?_⟩
    rwa [List.head?_append_of_ne_nil _ hf.ne] at hb
  · obtain ⟨text, htext, hlegible⟩ := ℓ.lineBreak_eq indent
    rw [if_neg fun h => hparen (hg.first?_paren.1 h), if_neg hparen, htext]
    exact hf.apart hg hlegible

/-- **Sequences** spell their statements, with the same semicolons. -/
theorem part_sequence (indent : ℕ) {α : Type} {F : α → Fragment} {T : α → List TokenKind}
    {items : List α} (h : ∀ item ∈ items, (F item).Part (T item)) :
    (ℓ.sequence indent (items.map F)).Part (Wording.sequence (items.map T)) := by
  have hkept : ∀ item ∈ items.filter (T · ≠ []), (F item).Operand (T item) := by
    intro item hitem
    obtain ⟨hmem, hne⟩ := List.mem_filter.1 hitem
    exact (h item hmem).resolve_left fun hnil => of_decide_eq_true hne hnil.2
  have hfilter : (items.map F).filter (fun f => !f.isBlank) = (items.filter (T · ≠ [])).map F := by
    rw [List.filter_map]
    refine congrArg _ (List.filter_congr fun item hitem => ?_)
    have hblank := (h item hitem).isBlank_iff
    by_cases hnil : T item = []
    · simp [hblank.2 hnil, hnil]
    · simp [hnil, Bool.eq_false_iff.2 (mt hblank.1 hnil)]
  have hfilter' : (items.map T).filter (fun ts => decide (ts ≠ [])) =
      (items.filter (T · ≠ [])).map T :=
    List.filter_map
  -- both leave out the same items; on what is kept, with what is written so
  -- far in front
  unfold sequence Wording.sequence
  rw [hfilter, hfilter']
  generalize items.filter (T · ≠ []) = kept at hkept
  cases kept with
  | nil => exact .inl ⟨rfl, rfl⟩
  | cons first rest =>
    rw [List.forall_mem_cons] at hkept
    refine .inr ?_
    simp only [List.map_cons]
    generalize F first = f at hkept ⊢
    generalize T first = ts at hkept ⊢
    obtain ⟨hf, hrest⟩ := hkept
    induction rest generalizing f ts with
    | nil => simpa using hf
    | cons next rest ih =>
      rw [List.forall_mem_cons] at hrest
      have hnext := ih _ _ (ℓ.operand_next indent hf hrest.1) hrest.2
      rw [List.append_assoc, List.append_assoc] at hnext
      rw [List.map_cons, List.map_cons, List.flatMap_cons, List.flatMap_cons]
      exact hnext

end Layout

end LuaSugar
