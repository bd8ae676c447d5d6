import Mathlib
import LuaSugar.Proofs.Token.Fragment
/-!
# Spelling tokens

A fragment **spells** tokens if it is clean, has these tokens, and gaps
stand between tokens only. Two fragments side by side spell the tokens of
both if the tokens that meet join, and fragments with a gap in between
always do.

Which tokens meet is a matter of what expressions and statements begin and
end with. An **operand** opens and closes as those do; it may stand behind
every opening mark and before every closing one.
-/

namespace LuaSugar

/-! ## Tokens that join -/

namespace Operator

/-- Marks that stand before an expression without a gap. -/
def opening : List Operator := [leftParen, leftBrace, leftBracket, comma, semicolon, colon, assign]

/-- Marks that stand behind an expression without a gap. -/
def closing : List Operator :=
  [rightParen, rightBrace, rightBracket, comma, semicolon, assign, leftParen, leftBracket, colon]

/-- Symbols that an expression may end with. -/
def final : List Operator := [rightParen, rightBrace, rightBracket, ellipsis]

/-- Symbols that are read whatever is behind them. -/
def solitary : List Operator := [leftParen, leftBrace, comma, semicolon, colon] ++ final

theorem admits_of_solitary {op : Operator} (hop : op ∈ solitary) (c : Char) : op.admits c := by
  have hnone : ∀ op ∈ solitary, op.continuations = [] := by decide
  have hother : Lexer.opensOther (op.text.toList ++ [c]) = false := by
    simp only [solitary, final, List.cons_append, List.nil_append, List.mem_cons, List.not_mem_nil,
      or_false] at hop
    rcases hop with rfl | rfl | rfl | rfl | rfl | rfl | rfl | rfl | rfl <;> rfl
  rw [admits, hnone op hop, hother]
  rfl

/-- **A symbol is read as itself** before a character that does not fuse
with its last one, and that is neither `=` nor `[`. -/
theorem admits_of_not_fuses {op : Operator} (hop : op ∈ symbols) {last c : Char}
    (hlast : op.text.toList.getLast? = some last) (hf : Fragment.fuses last c = false)
    (hc : c ≠ '=' ∧ c ≠ '[') : op.admits c := by
  have hcontinuations : ∀ op ∈ symbols, op.continuations.all fun d =>
      d == '=' || op.text.toList.getLast?.any fun last => Fragment.fuses last d := by
    decide
  have hnone : c ∉ op.continuations := by
    intro hmem
    have hd := List.all_eq_true.1 (hcontinuations op hop) c hmem
    simp [hlast, hf, hc.1] at hd
  have hother : Lexer.opensOther (op.text.toList ++ [c]) = false := by
    have hplain : ∀ op ∈ symbols, Lexer.opensOther op.text.toList = false := by decide
    match htext : op.text.toList with
    | [] => simp [htext] at hlast
    | [d] =>
      simp only [htext, List.getLast?_singleton, Option.some.injEq] at hlast
      subst hlast
      simp only [Fragment.fuses, Bool.or_eq_false_iff, Bool.and_eq_false_imp] at hf
      rw [List.singleton_append]
      unfold Lexer.opensOther
      split <;> simp_all
    | d :: e :: more =>
      rw [List.cons_append, List.cons_append, Lexer.opensOther_cons_cons d e _ more, ← htext]
      exact hplain op hop
  simp [admits, hnone, hother]

end Operator

namespace TokenKind

/-- Tokens that may begin an expression or a statement. -/
def opens : TokenKind → Bool
  | keyword _ | name _ | number _ | string _ => true
  | operator op => op ∈ [.leftParen, .leftBrace, .ellipsis, .minus, .hash, .not]
  | _ => false

/-- Tokens that may end an expression or a statement. -/
def closes : TokenKind → Bool
  | keyword _ | name _ | number _ | string _ => true
  | operator op => op ∈ Operator.final
  | _ => false

/-- Tokens that may stand side by side. -/
def Joins (a b : TokenKind) : Prop := (Lexeme.token a).Joins (.token b)

/-- Tokens whose meeting characters do not fuse. -/
def Apart (a b : TokenKind) : Prop :=
  ∀ last ∈ a.written.toList.getLast?, ∀ first ∈ b.written.toList.head?,
    Fragment.fuses last first = false

variable {a b : TokenKind} {op : Operator}

/-- **What ends an expression** is read as itself before whatever is not
part of a word, and a number before what is no point either. -/
theorem admits_of_closes (ha : a.closes) {c : Char} (hc : Word.isPart c = false)
    (hdot : c = '.' → ∀ value, a ≠ number value) : a.admits c := by
  cases a with
  | keyword _ | name _ => simp [admits, hc]
  | string _ => rfl
  | number value =>
    have hc' : c ≠ '.' := fun h => hdot h value rfl
    simp [admits, hc, hc']
  | operator op =>
    have hmarks : ∀ op ∈ Operator.final, op ∉ Operator.words ∧ op ∈ Operator.solitary := by decide
    obtain ⟨hword, hop⟩ := hmarks op (of_decide_eq_true ha)
    simp [admits, hword, Operator.admits_of_solitary hop c]
  | comment _ | whitespace _ | invalid => simp [closes] at ha

/-- What begins an expression is no `=` and no long bracket. -/
theorem head_of_opens (hb : b.opens) (hlegible : b.Legible) :
    ∀ c ∈ b.written.toList.head?, c ≠ '=' ∧ c ≠ '[' := by
  intro c hc
  cases b with
  | keyword word =>
    have hword : ∀ word ∈ Keyword.all, word.text.toList.head?.all fun c => c != '=' && c != '[' := by
      decide
    have hc := (Option.all_eq_true ..).1 (hword word (by cases word <;> decide)) c hc
    simpa using hc
  | name text =>
    obtain ⟨d, ds, htext, hstart, -⟩ := Lexer.exists_cons_of_isWord (Word.isName_iff.1 hlegible).1
    obtain rfl : d = c := by simpa [written, htext] using hc
    constructor <;> rintro rfl <;> exact absurd hstart (by decide)
  | number value =>
    obtain ⟨d, hd, hdigit⟩ := (Double.plainText_ends hlegible.1 hlegible.2).1
    obtain rfl : d = c := Option.some.inj (hd.symm.trans hc)
    constructor <;> rintro rfl <;> exact absurd hdigit (by decide)
  | string bytes =>
    obtain rfl : '"' = c := by simpa [written, quoteBytes] using hc
    decide
  | operator op =>
    have hmarks : ∀ op ∈ [Operator.leftParen, .leftBrace, .ellipsis, .minus, .hash, .not],
        op.text.toList.head?.all fun c => c != '=' && c != '[' := by
      decide
    have hc := (Option.all_eq_true ..).1 (hmarks op (of_decide_eq_true hb)) c hc
    simpa using hc
  | comment _ | whitespace _ | invalid => exact hlegible.elim

/-- What begins with a parenthesis is one. -/
theorem head_paren (hb : b.opens) (hlegible : b.Legible) :
    b.written.toList.head? = some '(' ↔ b = operator .leftParen := by
  constructor
  · intro hhead
    cases b with
    | keyword word =>
      have hword : ∀ word ∈ Keyword.all, word.text.toList.head? ≠ some '(' := by decide
      exact absurd hhead (hword word (by cases word <;> decide))
    | name text =>
      obtain ⟨d, ds, htext, hstart, -⟩ :=
        Lexer.exists_cons_of_isWord (Word.isName_iff.1 hlegible).1
      obtain rfl : d = '(' := by simpa [written, htext] using hhead
      exact absurd hstart (by decide)
    | number value =>
      obtain ⟨d, hd, hdigit⟩ := (Double.plainText_ends hlegible.1 hlegible.2).1
      obtain rfl : d = '(' := Option.some.inj (hd.symm.trans hhead)
      exact absurd hdigit (by decide)
    | string bytes => simp [written, quoteBytes] at hhead
    | operator op =>
      have hmarks : ∀ op ∈ [Operator.leftParen, .leftBrace, .ellipsis, .minus, .hash, .not],
          op.text.toList.head? = some '(' → op = .leftParen := by
        decide
      rw [hmarks op (of_decide_eq_true hb) hhead]
    | comment _ | whitespace _ | invalid => exact hlegible.elim
  · rintro rfl
    rfl

theorem solitary_joins (hop : op ∈ Operator.solitary) (b : TokenKind) : (operator op).Joins b := by
  have hwords : ∀ op ∈ Operator.solitary, op ∉ Operator.words := by decide
  intro c _
  simp [Lexeme.admits, admits, hwords op hop, Operator.admits_of_solitary hop c]

/-- The end of an expression joins a closing mark. -/
theorem joins_closing (ha : a.closes) (hop : op ∈ Operator.closing) : a.Joins (operator op) := by
  have hmarks : ∀ op ∈ Operator.closing,
      op.text.toList.head?.all fun c => !Word.isPart c && c != '.' := by
    decide
  intro c hc
  have hc := (Option.all_eq_true ..).1 (hmarks op hop) c hc
  simp only [Bool.and_eq_true, Bool.not_eq_true', bne_iff_ne] at hc
  exact admits_of_closes ha hc.1 fun h => absurd h hc.2

/-- The end of an expression joins a point, unless it is a number. -/
theorem joins_dot (ha : a.closes) (hnumber : ∀ value, a ≠ number value) :
    a.Joins (operator .dot) := by
  intro c hc
  obtain rfl : '.' = c := Option.some.inj hc
  exact admits_of_closes ha (by decide) fun _ => hnumber

/-- A symbol joins the start of an expression that it does not fuse
with. -/
theorem symbol_joins (hop : op ∈ Operator.symbols) (hb : b.opens) (hlegible : b.Legible)
    (h : (operator op).Apart b) : (operator op).Joins b := by
  have hends : ∀ op ∈ Operator.symbols, op ∉ Operator.words ∧ op.text.toList.getLast?.isSome := by
    decide
  obtain ⟨hword, hlast⟩ := hends op hop
  obtain ⟨last, hlast⟩ := Option.isSome_iff_exists.1 hlast
  intro c hc
  have hadmits := Operator.admits_of_not_fuses hop hlast (h last hlast c hc)
    (head_of_opens hb hlegible c hc)
  simpa [Lexeme.admits, admits, hword] using hadmits

/-- An opening mark joins the start of an expression. -/
theorem opening_joins (hop : op ∈ Operator.opening) (hb : b.opens) (hlegible : b.Legible) :
    (operator op).Joins b := by
  have hmarks : ∀ op ∈ Operator.opening, op ∈ Operator.symbols ∧ op.text.toList.getLast?.all fun c =>
      !Word.isPart c && c != '-' && c != '.' && !c.isDigit := by
    decide
  obtain ⟨hsymbol, hlast⟩ := hmarks op hop
  refine symbol_joins hsymbol hb hlegible fun last hl first _ => ?_
  have hl := (Option.all_eq_true ..).1 hlast last hl
  simp only [Bool.and_eq_true, Bool.not_eq_true', bne_iff_ne] at hl
  simp [Fragment.fuses, hl]

/-- A point joins a name. -/
theorem dot_joins {text : String} (h : (name text).Legible) : (operator .dot).Joins (name text) := by
  obtain ⟨c, cs, htext, hstart, -⟩ := Lexer.exists_cons_of_isWord (Word.isName_iff.1 h).1
  refine symbol_joins (by decide) rfl h fun last hlast first hfirst => ?_
  obtain rfl : '.' = last := Option.some.inj hlast
  obtain rfl : c = first := by simpa [written, htext] using hfirst
  have hdot : c ≠ '.' := by
    rintro rfl
    exact absurd hstart (by decide)
  simp [Fragment.fuses, Lexer.isDigit_of_isStart hstart, hdot, show Word.isPart '.' = false by decide]

/-- The end of an expression joins a symbol that it does not fuse with. -/
theorem closes_joins (ha : a.closes) (hlegible : a.Legible) (hop : op ∈ Operator.symbols)
    (h : a.Apart (operator op)) : a.Joins (operator op) := by
  have hsymbols : ∀ op ∈ Operator.symbols, op.text.toList.head?.all fun c => !Word.isPart c := by
    decide
  intro c hc
  have hpart := (Option.all_eq_true ..).1 (hsymbols op hop) c hc
  refine admits_of_closes ha (by simpa using hpart) ?_
  rintro rfl value rfl
  obtain ⟨d, hd, hdigit⟩ := (Double.plainText_ends hlegible.1 hlegible.2).2
  have hfuses := h d hd _ hc
  simp [Fragment.fuses, hdigit] at hfuses

/-- A token joins white space. -/
theorem admits_space (ha : a.Legible) {c : Char} (hc : Lexer.isSpace c) : a.admits c := by
  have hplain : Word.isPart c = false ∧ c.isDigit = false ∧ c ∉ ['.', '-', '=', '['] := by
    simp only [Lexer.isSpace, Bool.or_eq_true, beq_iff_eq] at hc
    rcases hc with ((((rfl | rfl) | rfl) | rfl) | rfl) | rfl <;> decide
  obtain ⟨hpart, hdigit, hmark⟩ := hplain
  simp only [List.mem_cons, List.not_mem_nil, or_false, not_or] at hmark
  cases a with
  | operator op =>
    by_cases hop : op ∈ Operator.words
    · simp [admits, hop, hpart]
    · have hsymbol : ∀ op ∉ Operator.words, op ∈ Operator.symbols ∧ op.text.toList.getLast?.isSome := by
        intro op
        cases op <;> decide
      obtain ⟨hsymbol, hlast⟩ := hsymbol op hop
      obtain ⟨last, hlast⟩ := Option.isSome_iff_exists.1 hlast
      have hfuses : Fragment.fuses last c = false := by simp [Fragment.fuses, hpart, hdigit, hmark]
      simpa [admits, hop] using
        Operator.admits_of_not_fuses hsymbol hlast hfuses ⟨hmark.2.2.1, hmark.2.2.2⟩
  | comment _ | whitespace _ => exact ha.elim
  | _ => simp [admits, hpart, hmark]

/-- A token does not begin with white space. -/
theorem head_not_space (hb : b.Legible) :
    ∀ c ∈ b.written.toList.head?, Lexer.isSpace c = false := by
  intro c hc
  have hfinds : Lexer.Finds b 1 [] b.written.toList := Lexer.finds_written hb (by simp)
  obtain ⟨d, ds, found, htext, hscan, hkind, -⟩ := hfinds
  rw [htext] at hc
  obtain rfl : d = c := Option.some.inj hc
  by_contra hspace
  rw [Bool.not_eq_false] at hspace
  rw [Lexer.scan, if_pos hspace] at hscan
  rw [← hkind, ← Except.ok.inj hscan] at hb
  exact hb

end TokenKind

/-! ## Fragments that spell tokens -/

namespace Fragment

/-- A clean fragment with some tokens, which begins and ends with the first
and the last of them. -/
structure Spells (f : Fragment) (ts : List TokenKind) : Prop where
  tokens : f.tokens = ts
  clean : f.Clean
  head : f.head? = ts.head?.map .token
  last : f.getLast? = ts.getLast?.map .token

/-- Nothing, or a gap. -/
def IsGap (f : Fragment) : Prop := f = [] ∨ ∃ text, f = [.gap text] ∧ (Lexeme.gap text).Legible

variable {f g : Fragment} {ts us : List TokenKind}

namespace Spells

theorem nil : Spells [] [] := ⟨rfl, ⟨by simp, List.isChain_nil⟩, rfl, rfl⟩

theorem token {kind : TokenKind} (h : kind.Legible) : Spells [.token kind] [kind] :=
  ⟨rfl, ⟨List.forall_mem_singleton.2 h, List.isChain_singleton _⟩, rfl, rfl⟩

theorem op (op : Operator) : Spells [.op op] [.operator op] := token trivial

theorem legible (h : f.Spells ts) : ∀ kind ∈ ts, kind.Legible := by
  intro kind hkind
  rw [← h.tokens] at hkind
  obtain ⟨l, hl, htoken⟩ := List.mem_filterMap.1 hkind
  cases l with
  | token kind' =>
    obtain rfl := Option.some.inj htoken
    exact h.clean.1 _ hl
  | gap text => simp [Lexeme.token?] at htoken

/-- **Side by side**, fragments spell what both do if the tokens that meet
join. -/
theorem append (hf : f.Spells ts) (hg : g.Spells us)
    (h : ∀ a ∈ ts.getLast?, ∀ b ∈ us.head?, a.Joins b) : (f ++ g).Spells (ts ++ us) := by
  refine ⟨by rw [tokens_append, hf.tokens, hg.tokens], ⟨fun l hl => ?_, ?_⟩, ?_, ?_⟩
  · exact (List.mem_append.1 hl).elim (hf.clean.1 l) (hg.clean.1 l)
  · refine List.isChain_append.2 ⟨hf.clean.2, hg.clean.2, fun l hl l' hl' => ?_⟩
    rw [hf.last] at hl
    rw [hg.head] at hl'
    obtain ⟨a, ha, rfl⟩ := Option.map_eq_some_iff.1 hl
    obtain ⟨b, hb, rfl⟩ := Option.map_eq_some_iff.1 hl'
    exact h a ha b hb
  · rw [List.head?_append, List.head?_append, hf.head, hg.head, Option.map_or]
  · rw [List.getLast?_append, List.getLast?_append, hf.last, hg.last, Option.map_or]

/-- **With a gap in between**, fragments spell what both do. -/
theorem gap (hf : f.Spells ts) (hg : g.Spells us) (hts : ts ≠ []) (hus : us ≠ []) {text : String}
    (htext : (Lexeme.gap text).Legible) : (f ++ .gap text :: g).Spells (ts ++ us) := by
  obtain ⟨b, hb⟩ := Option.isSome_iff_exists.1 (List.isSome_head?.2 hts)
  obtain ⟨a, ha⟩ := Option.isSome_iff_exists.1 (List.getLast?_isSome.2 hus)
  have hhead : f.head? = some (.token b) := by rw [hf.head, hb, Option.map_some]
  have hlast : g.getLast? = some (.token a) := by rw [hg.last, ha, Option.map_some]
  refine ⟨by rw [tokens_append, tokens_gap, hf.tokens, hg.tokens], ⟨fun l hl => ?_, ?_⟩, ?_, ?_⟩
  · rcases List.mem_append.1 hl with hl | hl
    · exact hf.clean.1 l hl
    · rcases List.mem_cons.1 hl with rfl | hl
      · exact htext
      · exact hg.clean.1 l hl
  · refine List.isChain_append.2 ⟨hf.clean.2, List.isChain_cons.2 ⟨fun l hl => ?_, hg.clean.2⟩, ?_⟩
    · rw [hg.head] at hl
      obtain ⟨b, hb, rfl⟩ := Option.map_eq_some_iff.1 hl
      intro c hc
      have hspace := TokenKind.head_not_space (hg.legible b (List.mem_of_mem_head? hb)) c hc
      simp [Lexeme.admits, hspace]
    · rintro l hl _ ⟨⟩ c hc
      rw [hf.last] at hl
      obtain ⟨a, ha, rfl⟩ := Option.map_eq_some_iff.1 hl
      exact TokenKind.admits_space (hf.legible a (List.mem_of_mem_getLast? ha))
        (htext.2 c (List.mem_of_mem_head? hc))
  · rw [List.head?_append, List.head?_append, hhead, hb]
    rfl
  · rw [List.getLast?_append, List.getLast?_append, List.getLast?_cons, hlast, ha]
    rfl

/-- The first character of a fragment is that of its first token. -/
theorem first? (h : f.Spells ts) : f.first? = ts.head?.bind fun b => b.written.toList.head? := by
  cases f with
  | nil =>
    have hhead := h.head
    cases ts with
    | nil => rfl
    | cons b ts => simp at hhead
  | cons l f =>
    obtain ⟨b, hb, rfl⟩ := Option.map_eq_some_iff.1 h.head.symm
    obtain ⟨c, cs, hc⟩ := List.exists_cons_of_ne_nil
      (h.legible b (List.mem_of_mem_head? hb)).ne_nil
    simp [Fragment.first?, Lexeme.text, hb, hc]

/-- The last character of a fragment is that of its last token. -/
theorem last? (h : f.Spells ts) :
    f.last? = ts.getLast?.bind fun a => a.written.toList.getLast? := by
  rcases List.eq_nil_or_concat f with rfl | ⟨f, l, rfl⟩
  · have hlast := h.last
    cases hts : ts.getLast? with
    | none => rfl
    | some a => simp [hts] at hlast
  · rw [List.concat_eq_append] at h ⊢
    have hlast := h.last
    rw [List.getLast?_concat] at hlast
    obtain ⟨a, ha, rfl⟩ := Option.map_eq_some_iff.1 hlast.symm
    obtain ⟨c, hc⟩ := Option.isSome_iff_exists.1 (List.getLast?_isSome.2
      (h.legible a (List.mem_of_mem_getLast? ha)).ne_nil)
    simp [Fragment.last?, Lexeme.text, ha, hc]

/-- **Glued** fragments spell what both do if the tokens that meet join
unless they fuse. -/
theorem glue (hf : f.Spells ts) (hg : g.Spells us)
    (h : ∀ a ∈ ts.getLast?, ∀ b ∈ us.head?, a.Apart b → a.Joins b) :
    (Fragment.glue f g).Spells (ts ++ us) := by
  -- side by side where the characters that meet do not fuse
  have happend (hfuses : ∀ last ∈ f.last?, ∀ first ∈ g.first?, fuses last first = false) :
      (f ++ g).Spells (ts ++ us) := by
    refine hf.append hg fun a ha b hb => h a ha b hb fun last hlast first hfirst => ?_
    refine hfuses last ?_ first ?_
    · rw [hf.last?, ha]
      exact hlast
    · rw [hg.first?, hb]
      exact hfirst
  unfold Fragment.glue
  -- a blank goes between them if they do
  split
  · rename_i last first hlast hfirst
    split
    · refine hf.gap hg ?_ ?_ Lexeme.legible_blank
      · rintro rfl
        simp [hf.last?] at hlast
      · rintro rfl
        simp [hg.first?] at hfirst
    · rename_i hfuses
      refine happend fun last' hlast' first' hfirst' => ?_
      rw [hlast] at hlast'
      rw [hfirst] at hfirst'
      cases hlast'
      cases hfirst'
      simpa using hfuses
  · rename_i hnone
    exact happend fun last hlast first hfirst => absurd hfirst (hnone last first hlast)

/-- With or without a gap in between. -/
theorem between (hf : f.Spells ts) (hg : g.Spells us) (hts : ts ≠ []) (hus : us ≠ [])
    {space : Fragment} (hspace : IsGap space)
    (h : ∀ a ∈ ts.getLast?, ∀ b ∈ us.head?, a.Joins b) : (f ++ space ++ g).Spells (ts ++ us) := by
  rcases hspace with rfl | ⟨text, rfl, htext⟩
  · rw [List.append_nil]
    exact hf.append hg h
  · rw [List.append_assoc, List.singleton_append]
    exact hf.gap hg hts hus htext

end Spells

/-! ## Phrases and operands -/

/-- A fragment that ends as an expression does. -/
structure Phrase (f : Fragment) (ts : List TokenKind) : Prop extends f.Spells ts where
  ne : ts ≠ []
  closes : ∀ a ∈ ts.getLast?, a.closes

/-- A fragment that begins and ends as an expression does. -/
structure Operand (f : Fragment) (ts : List TokenKind) : Prop extends f.Phrase ts where
  opens : ∀ b ∈ ts.head?, b.opens

/-- An operand, or nothing. -/
def Part (f : Fragment) (ts : List TokenKind) : Prop := f = [] ∧ ts = [] ∨ f.Operand ts

namespace Phrase

/-- A mark behind a phrase. -/
theorem mark (h : f.Phrase ts) {op : Operator} (hop : op ∈ Operator.closing) :
    Spells (f ++ [.op op]) (ts ++ [.operator op]) := by
  refine h.append (Spells.op op) ?_
  rintro a ha _ ⟨⟩
  exact TokenKind.joins_closing (h.closes a ha) hop

/-- What stands behind other tokens and ends as an expression does. -/
theorem of_append (h : (f ++ g).Spells (ts ++ us)) (hus : us ≠ []) (hg : ∀ a ∈ us.getLast?, a.closes) :
    (f ++ g).Phrase (ts ++ us) := by
  refine ⟨h, by simp [hus], fun a ha => hg a ?_⟩
  rwa [List.getLast?_append_of_ne_nil _ hus] at ha

end Phrase

namespace Operand

theorem token {kind : TokenKind} (h : kind.Legible) (hopens : kind.opens) (hcloses : kind.closes) :
    Operand [.token kind] [kind] :=
  ⟨⟨.token h, List.cons_ne_nil _ _, by rintro _ ⟨⟩; exact hcloses⟩, by rintro _ ⟨⟩; exact hopens⟩

theorem word (word : Keyword) : Operand [.word word] [.keyword word] := token trivial rfl rfl

theorem name {text : String} (h : Word.isName text) : Operand [.name text] [.name text] :=
  token h rfl rfl

/-- An opening mark before an operand. -/
theorem behind (h : f.Operand ts) {op : Operator} (hop : op ∈ Operator.opening) :
    Phrase ([.op op] ++ f) ([.operator op] ++ ts) := by
  refine .of_append ((Spells.op op).append h.toSpells ?_) h.ne h.closes
  rintro _ ⟨⟩ b hb
  exact TokenKind.opening_joins hop (h.opens b hb) (h.legible b (List.mem_of_mem_head? hb))

/-- Operands with a gap in between. -/
theorem apart (hf : f.Operand ts) (hg : g.Operand us) {text : String}
    (htext : (Lexeme.gap text).Legible) : (f ++ .gap text :: g).Operand (ts ++ us) := by
  have hspells := hf.gap hg.toSpells hf.ne hg.ne htext
  refine ⟨⟨hspells, by simp [hf.ne], fun a ha => hg.closes a ?_⟩, fun b hb => hf.opens b ?_⟩
  · rwa [List.getLast?_append_of_ne_nil _ hg.ne] at ha
  · rwa [List.head?_append_of_ne_nil _ hf.ne] at hb

theorem blank (hf : f.Operand ts) (hg : g.Operand us) : Operand (f ++ .blank :: g) (ts ++ us) :=
  hf.apart hg Lexeme.legible_blank

end Operand

end Fragment

end LuaSugar
