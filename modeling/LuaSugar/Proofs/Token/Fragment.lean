import Mathlib
import LuaSugar.Proofs.Token.Written
/-!
# Fragments are read as their tokens

A fragment is **clean** if its lexemes can be written and each admits the
first character of the next. The text of a clean fragment is read as its
tokens, whatever gaps there are between them.
-/

namespace LuaSugar

namespace Lexeme

/-- A token that can be written, or some white space. -/
def Legible : Lexeme → Prop
  | token kind => kind.Legible
  | gap text => text.toList ≠ [] ∧ ∀ c ∈ text.toList, Lexer.isSpace c

/-- A blank can be written. -/
theorem legible_blank : (gap " ").Legible := by
  refine ⟨by simp, fun c hc => ?_⟩
  obtain rfl : c = ' ' := by simpa using hc
  rfl

/-- A character that may stand behind a lexeme. -/
def admits : Lexeme → Char → Bool
  | token kind, c => kind.admits c
  | gap _, c => !Lexer.isSpace c

/-- The token of a lexeme. -/
def token? : Lexeme → Option TokenKind
  | token kind => some kind
  | gap _ => none

/-- A lexeme may stand before another. -/
def Joins (l l' : Lexeme) : Prop := ∀ c ∈ l'.text.toList.head?, l.admits c

end Lexeme

namespace Fragment

/-- The tokens of a fragment. -/
def tokens (f : Fragment) : List TokenKind := f.filterMap Lexeme.token?

/-- Lexemes that can be written, each before another that it admits. -/
def Clean (f : Fragment) : Prop := (∀ l ∈ f, l.Legible) ∧ f.IsChain Lexeme.Joins

/-- The tokens of fragments stand behind each other. -/
@[simp] theorem tokens_append (f g : Fragment) : (f ++ g).tokens = f.tokens ++ g.tokens :=
  List.filterMap_append

/-- A gap has no token. -/
@[simp] theorem tokens_gap (text : String) (f : Fragment) : tokens (.gap text :: f) = f.tokens :=
  rfl

theorem toList_text_cons (l : Lexeme) (f : Fragment) :
    (text (l :: f)).toList = l.text.toList ++ f.text.toList := by
  simp [text, String.join_cons]

/-- The texts of fragments stand behind each other. -/
theorem toList_text_append (f g : Fragment) :
    (text (f ++ g)).toList = f.text.toList ++ g.text.toList := by
  induction f with
  | nil => rfl
  | cons l f ih => rw [List.cons_append, toList_text_cons, ih, toList_text_cons, List.append_assoc]

end Fragment

/-! ## Reading -/

/-- A token that can be written is not written as nothing. -/
theorem TokenKind.Legible.ne_nil {kind : TokenKind} (h : kind.Legible) :
    kind.written.toList ≠ [] := by
  have hfinds : Lexer.Finds kind 1 [] kind.written.toList := Lexer.finds_written h (by simp)
  obtain ⟨c, cs, -, htext, -⟩ := hfinds
  rw [htext]
  exact List.cons_ne_nil c cs

/-- Such a token is neither blank nor comment. -/
theorem TokenKind.Legible.not_trivia {kind : TokenKind} (h : kind.Legible) :
    kind.isTrivia = false := by
  cases kind <;> first | rfl | exact h.elim

/-- No lexeme is written as nothing. -/
theorem Lexeme.Legible.ne_nil {l : Lexeme} (h : l.Legible) : l.text.toList ≠ [] := by
  cases l with
  | token kind => exact TokenKind.Legible.ne_nil h
  | gap text => exact h.1

namespace Lexer

variable {line : ℕ} {rest : List Char}

/-- **Gaps** are read as white space. -/
theorem finds_gap {text : List Char} (hne : text ≠ []) (htext : ∀ c ∈ text, isSpace c)
    (hrest : ∀ c ∈ rest.head?, isSpace c = false) :
    Finds (.whitespace (String.ofList text)) line rest text := by
  obtain ⟨c, cs, rfl⟩ := List.exists_cons_of_ne_nil hne
  have htake := takeWhile_append htext hrest
  refine ⟨c, cs, scanWhitespace (c :: (cs ++ rest)), rfl, ?_, ?_, ?_⟩
  · rw [scan, if_pos (htext c List.mem_cons_self)]
  · rw [scanWhitespace, ← List.cons_append, htake]
    rfl
  · rw [scanWhitespace, ← List.cons_append, htake]
    rfl

/-- What a scanner finds is the first token, and the rest is read as it
is. -/
theorem Finds.tokensFrom {kind : TokenKind} {text : List Char} (h : Finds kind line rest text)
    {tokens : ℕ → List Token} (hrest : ∀ line, tokensFrom line rest = .ok (tokens line)) :
    ∃ token more, tokensFrom line (text ++ rest) = .ok (token :: tokens more) ∧
      token.kind = kind := by
  obtain ⟨c, cs, found, rfl, hscan, hkind, hmore⟩ := h
  refine ⟨⟨found.kind, line, found.spelling⟩, line + found.lines, ?_, hkind⟩
  rw [List.cons_append, Lexer.tokensFrom, hscan]
  simp [bind, Except.bind, hmore, hrest]

end Lexer

/-- The first character of a fragment that can be written is that of its
first lexeme. -/
theorem Fragment.head?_text {f : Fragment} (h : ∀ l ∈ f, l.Legible) :
    f.text.toList.head? = f.head?.bind fun l => l.text.toList.head? := by
  cases f with
  | nil => rfl
  | cons l f =>
    obtain ⟨c, cs, hc⟩ := List.exists_cons_of_ne_nil (h l List.mem_cons_self).ne_nil
    rw [Fragment.toList_text_cons, hc]
    simp [hc]

/-- **Clean fragments are read as their tokens**, with white space in
between. -/
theorem Fragment.Clean.tokensFrom {f : Fragment} (h : f.Clean) : ∃ tokens : ℕ → List Token,
    (∀ line, Lexer.tokensFrom line f.text.toList = .ok (tokens line)) ∧
      ∀ line, (significant (tokens line)).map Token.kind = f.tokens := by
  induction f with
  | nil =>
    have hnone (line : ℕ) : Lexer.tokensFrom line [] = .ok [] := by rw [Lexer.tokensFrom]
    exact ⟨fun _ => [], hnone, fun _ => rfl⟩
  | cons l f ih =>
    obtain ⟨hlegible, hchain⟩ := h
    rw [List.forall_mem_cons] at hlegible
    obtain ⟨tokens, htokens, hkinds⟩ := ih ⟨hlegible.2, hchain.tail⟩
    -- what follows a lexeme is the next lexeme's first character, which it admits
    have hnext : ∀ c ∈ (Fragment.text f).toList.head?, l.admits c := by
      intro c hc
      rw [head?_text hlegible.2] at hc
      obtain ⟨l', hl', hc⟩ := Option.bind_eq_some_iff.1 hc
      obtain ⟨f', rfl⟩ := List.head?_eq_some_iff.1 hl'
      exact (List.isChain_cons_cons.1 hchain).1 c hc
    -- so a scan finds the lexeme, and nothing more
    have hfinds : ∃ kind, (∀ line, Lexer.Finds kind line (Fragment.text f).toList l.text.toList) ∧
        ([kind].filter fun kind => !kind.isTrivia) = [l].filterMap Lexeme.token? := by
      cases l with
      | token kind =>
        refine ⟨kind, fun line => Lexer.finds_written hlegible.1 hnext, ?_⟩
        simp [TokenKind.Legible.not_trivia hlegible.1, Lexeme.token?]
      | gap text =>
        have hnext : ∀ c ∈ (Fragment.text f).toList.head?, Lexer.isSpace c = false := by
          simpa [Lexeme.admits] using hnext
        exact ⟨_, fun line => Lexer.finds_gap hlegible.1.1 hlegible.1.2 hnext, rfl⟩
    obtain ⟨kind, hfinds, hkind⟩ := hfinds
    choose token more hread htoken using fun line => (hfinds line).tokensFrom htokens
    refine ⟨fun line => token line :: tokens (more line), fun line => ?_, fun line => ?_⟩
    · rw [toList_text_cons, hread]
    · have hsplit : Fragment.tokens (l :: f) = [l].filterMap Lexeme.token? ++ Fragment.tokens f :=
        List.filterMap_append (l := [l])
      rw [hsplit, ← hkind, ← hkinds (more line), ← htoken line]
      by_cases htrivia : (token line).kind.isTrivia <;> simp [significant, htrivia]

end LuaSugar
