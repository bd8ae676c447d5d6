import Mathlib
import LuaSugar.Proofs.Token.Lines
import LuaSugar.Proofs.Token.Quoted
/-!
# Line breaks between texts

Statements are written one behind the other with a line break between them,
and this is safe: a token never looks further than the line break that comes
behind the text it stands in. There are two tokens that take the line break
itself, white space and a quoted string whose end is missing; white space
carries no meaning, so only a text that ends in quotes is not kept apart from
the next.

`scan_append` says this of one token, for any text that begins with a line
break, and for no text at all: then it says that tokens do not depend on the
line they are on.
-/

namespace LuaSugar

namespace Lexer

variable {line line' : ℕ} {c : Char} {cs suffix : List Char} {found : Scan} {e : Escaped}

/-! ## What is behind a text -/

/-- Nothing, or a line break first. -/
def Breaks (cs : List Char) : Prop := ∀ c ∈ cs.head?, c = '\n'

/-- A run ends where it did, when something is put behind the text that ends
the run or is out of its reach. -/
theorem takeWhile_append_of_stop {p : Char → Bool}
    (h : (cs.takeWhile p).length < cs.length ∨ ∀ d ∈ suffix.head?, p d = false) :
    (cs ++ suffix).takeWhile p = cs.takeWhile p := by
  rw [List.takeWhile_append]
  split
  · rename_i hall
    have hstop := h.resolve_left (by omega)
    rw [takeWhile_eq_nil hstop, List.append_nil]
    exact ((List.takeWhile_prefix p).eq_of_length hall).symm
  · rfl

/-- A run that no line feed is part of stops at what breaks the line. -/
theorem Breaks.stop (h : Breaks suffix) {p : Char → Bool} (hp : p '\n' = false) :
    ∀ d ∈ suffix.head?, p d = false := by
  intro d hd
  rw [h d hd, hp]

/-- So the run is the same with that behind it. -/
theorem Breaks.takeWhile (h : Breaks suffix) {p : Char → Bool} (hp : p '\n' = false)
    (cs : List Char) : (cs ++ suffix).takeWhile p = cs.takeWhile p :=
  takeWhile_append_of_stop (.inr (h.stop hp))

/-- Behind a front of the text, what is put behind the text comes last. -/
theorem drop_append_of_front {front : List Char} (h : front <+: cs) :
    (cs ++ suffix).drop front.length = cs.drop front.length ++ suffix :=
  List.drop_append_of_le_length h.length_le

/-! ## Escapes -/

/-- An escape by two digits reads no further than they go. -/
theorem hexEscape_append (h : hexEscape line cs = .ok e) :
    hexEscape line' (cs ++ suffix) = .ok e := by
  rw [hexEscape_eq] at h ⊢
  match cs, h with
  | a :: b :: cs, h =>
    dsimp only [List.cons_append] at h ⊢
    split at h
    · exact h
    · cases h

/-- One by code point reads up to its brace. -/
theorem codePointEscape_append (h : codePointEscape line cs = .ok e) :
    codePointEscape line' (cs ++ suffix) = .ok e := by
  unfold codePointEscape at h
  split at h
  · rename_i cs
    rw [List.cons_append, codePointEscape]
    dsimp only at h ⊢
    split at h
    · cases h
    split at h
    · cases h
    rename_i hvalue hdigits
    split at h
    · rename_i rest hdrop
      -- the closing brace keeps what is behind it out of the digits
      have hlength : (cs.takeWhile fun c => (hexValue? c).isSome).length < cs.length := by
        by_contra hall
        rw [List.drop_eq_nil_of_le (Nat.le_of_not_lt hall)] at hdrop
        cases hdrop
      rw [takeWhile_append_of_stop (.inl hlength), if_neg hvalue, if_neg hdigits,
        List.drop_append_of_le_length hlength.le, hdrop]
      dsimp only [List.cons_append]
      split at h
      · rename_i hvalid
        rw [if_pos hvalid]
        exact h
      · cases h
    · cases h
  · cases h

/-- A decimal escape may read on, unless something stands behind it already. -/
theorem decimalEscape_append (h : decimalEscape line cs = .ok e)
    (hs : suffix = [] ∨ e.length < cs.length) : decimalEscape line' (cs ++ suffix) = .ok e := by
  have hlength : e.length = ((cs.take 3).takeWhile Char.isDigit).length := by
    unfold decimalEscape at h
    dsimp only at h
    split at h
    · obtain rfl := Except.ok.inj h
      rfl
    · cases h
  have hdigits : ((cs ++ suffix).take 3).takeWhile Char.isDigit =
      (cs.take 3).takeWhile Char.isDigit := by
    rcases hs with rfl | hs
    · rw [List.append_nil]
    · by_cases hlong : 3 ≤ cs.length
      · rw [List.take_append_of_le_length hlong]
      · have hall : cs.take 3 = cs := List.take_of_length_le (by omega)
        rw [List.take_append, hall]
        exact takeWhile_append_of_stop (.inl (by rwa [hlength, hall] at hs))
  unfold decimalEscape at h ⊢
  dsimp only at h ⊢
  rw [hdigits]
  split at h
  · rename_i hvalue
    rw [if_pos hvalue]
    exact h
  · cases h

/-- **An escape** does not see what is behind the text, unless it ends with
the text. -/
theorem escape_append (h : escape line cs = .ok e) (hs : suffix = [] ∨ e.length < cs.length) :
    escape line' (cs ++ suffix) = .ok e := by
  unfold escape at h
  split at h
  · obtain rfl := Except.ok.inj h
    -- nothing is left, so nothing may be added either
    obtain rfl := hs.resolve_right (by simp)
    rfl
  · exact h
  · exact h
  · rename_i rest hrest
    obtain rfl := Except.ok.inj h
    cases rest with
    | nil =>
      obtain rfl := hs.resolve_right (by simp)
      rfl
    | cons d rest =>
      -- a carriage return takes a line feed with it, and this is none
      have hd : d ≠ '\n' := fun hd => hrest rest (by rw [hd])
      unfold escape
      simp [hd]
  · rename_i rest
    obtain rfl := Except.ok.inj h
    -- the blanks end within the text
    have hrun : (rest ++ suffix).takeWhile isSpace = rest.takeWhile isSpace := by
      rcases hs with rfl | hs
      · rw [List.append_nil]
      · exact takeWhile_append_of_stop (.inl (by simpa using hs))
    rw [List.cons_append, escape, hrun]
  · exact hexEscape_append h
  · exact codePointEscape_append h
  · rename_i c rest hbreak _ hreturn hz hx hu
    have hmark : c ∉ ['\n', '\r', 'z', 'x', 'u'] := by
      simp only [List.mem_cons, List.not_mem_nil, or_false, not_or]
      exact ⟨hbreak, hreturn, hz, hx, hu⟩
    rw [List.cons_append, escape_short hmark]
    split at h
    · rename_i hdigit
      rw [if_pos hdigit]
      exact decimalEscape_append h hs
    · rename_i hdigit
      rw [if_neg hdigit]
      exact h


/-- Nor does it depend on the line. -/
theorem escape_line (h : escape line cs = .ok e) (line' : ℕ) : escape line' cs = .ok e := by
  have hnil : escape line' (cs ++ []) = .ok e := escape_append h (.inl rfl)
  rwa [List.append_nil] at hnil

/-! ## Quoted strings -/

/-- Whether a text, read as the rest of a quoted string, ends before the
string does. -/
def unclosed (quote : Char) : List Char → Bool
  | [] => true
  | c :: cs =>
    if c == '\n' || c == quote then false
    else if c == '\\' then
      match escape 1 cs with
      | .ok e => unclosed quote (cs.drop e.length)
      | .error _ => false
    else unclosed quote cs
termination_by cs => cs.length
decreasing_by all_goals simp; try omega

/-- A character may end the line, close the quotes or begin an escape; else
the quotes are open if they are so behind it. -/
theorem unclosed_cons (quote c : Char) (cs : List Char) : unclosed quote (c :: cs) =
    if c = '\n' then false
    else if c = quote then false
    else if c = '\\' then
      match escape 1 cs with
      | .ok e => unclosed quote (cs.drop e.length)
      | .error _ => false
    else unclosed quote cs := by
  rw [unclosed]
  by_cases hbreak : c = '\n' <;> simp [hbreak]

/-- **A quoted string** that ends before the text does not see what is behind
it. -/
theorem quotedRest_append (quote : Char) : ∀ (line line' : ℕ) (cs : List Char) (e : Escaped),
    quotedRest quote line cs = .ok e → suffix = [] ∨ unclosed quote cs = false →
      quotedRest quote line' (cs ++ suffix) = .ok e
  | line, line', [], e, h, hs => by
    obtain rfl := hs.resolve_right (by simp [unclosed])
    rw [quotedRest] at h
    rw [List.append_nil, quotedRest]
    exact h
  | line, line', c :: cs, e, h, hs => by
    rw [List.cons_append, quotedRest_cons]
    rw [quotedRest_cons] at h
    rw [unclosed_cons] at hs
    split at h
    -- a line that ends, and quotes that close, end so with the suffix
    · rename_i hbreak
      rwa [if_pos hbreak]
    rename_i hbreak
    rw [if_neg hbreak] at hs ⊢
    split at h
    · rename_i hquote
      rwa [if_pos hquote]
    rename_i hquote
    rw [if_neg hquote] at hs ⊢
    split at h
    · rename_i hescape
      rw [if_pos hescape] at hs ⊢
      cases he : escape line cs with
      | error fault =>
        rw [he] at h
        cases h
      | ok first =>
        rw [he] at h
        cases hrest : quotedRest quote (line + first.lines) (cs.drop first.length) with
        | error fault => simp [Except.bind, Except.map, hrest] at h
        | ok rest =>
          simp only [Except.bind, Except.map, hrest] at h
          -- the quotes are closed, so something is behind the escape, unless nothing is added
          rw [escape_line he 1] at hs
          dsimp only at hs
          have hlength : suffix = [] ∨ first.length < cs.length := by
            refine hs.imp_right fun hclosed => ?_
            by_contra hall
            rw [List.drop_eq_nil_of_le (Nat.le_of_not_lt hall)] at hclosed
            simp [unclosed] at hclosed
          have hdrop : (cs ++ suffix).drop first.length = cs.drop first.length ++ suffix := by
            rcases hlength with rfl | hlength
            · simp
            · rw [List.drop_append_of_le_length hlength.le]
          rw [escape_append he hlength]
          simp only [Except.bind, Except.map, hdrop]
          rw [quotedRest_append quote (line + first.lines) (line' + first.lines) _ _ hrest hs]
          exact h
    · rename_i hescape
      rw [if_neg hescape] at hs ⊢
      cases hrest : quotedRest quote line cs with
      | error fault => simp [Except.map, hrest] at h
      | ok rest =>
        rw [quotedRest_append quote line line' _ _ hrest hs]
        rwa [hrest] at h
termination_by _ _ cs => cs.length
decreasing_by all_goals simp; try omega

/-! ## Long brackets -/

/-- An opening bracket is seen by what it consists of. -/
theorem longLevel?_append {level : ℕ} (h : longLevel? cs = some level) :
    longLevel? (cs ++ suffix) = some level := by
  obtain ⟨opened, rfl⟩ := longLevel?_eq_some h
  have hrun : (List.replicate level '=' ++ '[' :: (opened ++ suffix)).takeWhile (· == '=') =
      List.replicate level '=' := by
    rw [List.takeWhile_append_of_pos (by simp [List.mem_replicate])]
    simp
  unfold longLevel?
  dsimp only
  rw [List.append_assoc, List.cons_append, hrun, List.length_replicate, List.drop_left' (by simp)]
  rfl

/-- A bracket that is none is none before a line break either. -/
theorem longLevel?_eq_none_append (hs : Breaks suffix) (h : longLevel? cs = none) :
    longLevel? (cs ++ suffix) = none := by
  unfold longLevel? at h ⊢
  dsimp only at h ⊢
  rw [hs.takeWhile rfl, drop_append_of_front (List.takeWhile_prefix _)]
  cases hdrop : cs.drop (cs.takeWhile (· == '=')).length with
  | nil =>
    cases suffix with
    | nil => rfl
    | cons d suffix =>
      obtain rfl := hs d rfl
      rfl
  | cons d rest =>
    rw [hdrop] at h
    rw [List.cons_append]
    split at h
    · cases h
    · rename_i hopen
      split
      · rename_i heq
        exact absurd (by rw [(List.cons.inj heq).1]) (hopen rest)
      · rfl

/-- The body ends at the first closing bracket, whatever is behind it. -/
theorem longBody?_append {level : ℕ} : ∀ {cs body : List Char}, longBody? level cs = some body →
    longBody? level (cs ++ suffix) = some body
  | [], _, h => by cases h
  | c :: cs, body, h => by
    rw [longBody?] at h
    rw [List.cons_append, longBody?]
    split at h
    · rename_i hclose
      rw [Bool.and_eq_true, closesLong, List.isPrefixOf_iff_prefix] at hclose
      have hclose' : (c == ']' && closesLong level (cs ++ suffix)) = true := by
        rw [Bool.and_eq_true, closesLong, List.isPrefixOf_iff_prefix]
        exact ⟨hclose.1, hclose.2.trans (List.prefix_append _ _)⟩
      rwa [if_pos hclose']
    · rename_i hopen
      obtain ⟨body, hbody, rfl⟩ := Option.map_eq_some_iff.1 h
      -- the bracket that closes stands in the text already
      have hopen' : ¬ (c == ']' && closesLong level (cs ++ suffix)) = true := by
        obtain ⟨rest, hrest⟩ := longBody?_eq_some hbody
        rw [Bool.and_eq_true, closesLong, List.isPrefixOf_iff_prefix] at hopen ⊢
        refine fun hclose => hopen ⟨hclose.1, ?_⟩
        refine List.prefix_of_prefix_length_le hclose.2 (List.prefix_append _ _) ?_
        rw [hrest]
        simp
        omega
      rw [if_neg hopen', longBody?_append hbody]
      rfl


/-- The line break that a long bracket may begin with is not longer with the
suffix if anything is behind it. -/
theorem leadingBreak_append_of_lt (h : (leadingBreak cs).length < cs.length) :
    leadingBreak (cs ++ suffix) = leadingBreak cs := by
  match cs, h with
  | [c], h =>
    by_cases hreturn : c = '\r'
    · subst hreturn
      simp [leadingBreak] at h
    · by_cases hbreak : c = '\n'
      · subst hbreak
        rfl
      · unfold leadingBreak
        simp [hreturn, hbreak]
  | c :: d :: cs, _ =>
    by_cases hreturn : c = '\r'
    · subst hreturn
      by_cases hfeed : d = '\n'
      · subst hfeed
        rfl
      · simp [leadingBreak, hfeed]
    · by_cases hbreak : c = '\n'
      · subst hbreak
        rfl
      · simp [leadingBreak, hreturn, hbreak]

/-- A long bracket that closes reads no further. -/
theorem longBracket_append {level : ℕ} {fault fault' : LexFault} {long : LongBracket}
    (h : longBracket line fault level cs = .ok long) :
    longBracket line' fault' level (cs ++ suffix) = .ok long := by
  unfold longBracket at h ⊢
  dsimp only at h ⊢
  cases hbody : longBody? level ((cs.drop (level + 1)).drop
      (leadingBreak (cs.drop (level + 1))).length) with
  | none =>
    rw [hbody] at h
    cases h
  | some body =>
    have hinside : (leadingBreak (cs.drop (level + 1))).length < (cs.drop (level + 1)).length := by
      by_contra hall
      rw [List.drop_eq_nil_of_le (Nat.le_of_not_lt hall)] at hbody
      cases hbody
    have hlength := hinside
    rw [List.length_drop] at hlength
    rw [List.drop_append_of_le_length (by omega), leadingBreak_append_of_lt hinside,
      List.drop_append_of_le_length hinside.le, longBody?_append hbody]
    rwa [hbody] at h

/-- Nor does a string in one. -/
theorem scanLongString_append (h : scanLongString line cs = .ok found) :
    scanLongString line' (cs ++ suffix) = .ok found := by
  rw [scanLongString_eq] at h ⊢
  cases hlevel : longLevel? cs with
  | none => simp [hlevel] at h
  | some level =>
    rw [longLevel?_append hlevel]
    simp only [hlevel] at h ⊢
    cases hlong : longBracket line .unfinishedLongString level cs with
    | error fault => simp [hlong, Except.map] at h
    | ok long =>
      rw [longBracket_append hlong]
      rwa [hlong] at h

/-- A comment ends at its bracket, or at the end of its line. -/
theorem scanComment_append (hs : Breaks suffix) (h : scanComment line cs = .ok found) :
    scanComment line' (cs ++ suffix) = .ok found := by
  rw [scanComment_eq] at h ⊢
  cases hlevel : commentLevel? cs with
  | some level =>
    obtain ⟨opened, rfl, hopened⟩ := commentLevel?_eq_some hlevel
    have hlevel' : commentLevel? ('[' :: opened ++ suffix) = some level :=
      longLevel?_append hopened
    rw [hlevel']
    simp only [hlevel, List.cons_append, List.tail_cons] at h ⊢
    cases hlong : longBracket line .unfinishedLongComment level opened with
    | error fault => simp [hlong, Except.map] at h
    | ok long =>
      rw [longBracket_append hlong]
      rwa [hlong] at h
  | none =>
    have hlevel' : commentLevel? (cs ++ suffix) = none := by
      by_cases hopen : ∃ opened, cs = '[' :: opened
      · obtain ⟨opened, rfl⟩ := hopen
        exact longLevel?_eq_none_append hs hlevel
      · unfold commentLevel?
        split
        · rename_i opened heq
          cases cs with
          | nil => exact absurd (hs '[' (by rw [← List.nil_append suffix, heq]; rfl)) (by decide)
          | cons c cs => exact absurd ⟨cs, by rw [(List.cons.inj heq).1]⟩ hopen
        · rfl
    rw [hlevel']
    simp only [hlevel] at h ⊢
    rwa [hs.takeWhile rfl]

/-! ## Numbers and symbols -/

/-- What breaks the line begins with nothing but a line feed. -/
theorem Breaks.head?_ne (hs : Breaks suffix) (hc : c ≠ '\n') : suffix.head? ≠ some c :=
  fun h => hc (hs c h)

/-- What begins with something else than a line break, begins in the text. -/
theorem Breaks.head?_append (hs : Breaks suffix) (hc : c ≠ '\n') (cs : List Char) :
    (cs ++ suffix).head? = some c ↔ cs.head? = some c := by
  cases cs with
  | nil => simp [hs.head?_ne hc]
  | cons d cs => rfl

/-- A fraction ends where it did. -/
theorem fractionPart_append (hs : Breaks suffix) (cs : List Char) :
    fractionPart (cs ++ suffix) = fractionPart cs := by
  have hdot : '.' ≠ '\n' := by decide
  rw [fractionPart_eq, fractionPart_eq]
  cases cs with
  | nil => simp [hs.head?_ne hdot]
  | cons c cs =>
    have hrun : (cs ++ suffix).takeWhile isDigitOrSeparator = cs.takeWhile isDigitOrSeparator :=
      hs.takeWhile rfl cs
    simp only [List.cons_append, List.head?_cons, List.tail_cons, ne_eq, hs.head?_append hdot, hrun]
    congr

/-- So does a sign. -/
theorem signPart_append (hs : Breaks suffix) (cs : List Char) :
    signPart (cs ++ suffix) = signPart cs := by
  cases cs with
  | nil =>
    cases suffix with
    | nil => rfl
    | cons d suffix =>
      obtain rfl := hs d rfl
      rfl
  | cons c cs => rfl

/-- So does an exponent. -/
theorem exponentPart_append (hs : Breaks suffix) (cs : List Char) :
    exponentPart (cs ++ suffix) = exponentPart cs := by
  cases cs with
  | nil =>
    cases suffix with
    | nil => rfl
    | cons d suffix =>
      obtain rfl := hs d rfl
      rfl
  | cons mark cs =>
    rw [List.cons_append, exponentPart_cons, exponentPart_cons, signPart_append hs,
      drop_append_of_front (signPart_front cs), hs.takeWhile rfl]

/-- So do the parts of a decimal number. -/
theorem decimalParts_append_of_breaks (hs : Breaks suffix) (cs : List Char) :
    decimalParts (cs ++ suffix) = decimalParts cs := by
  unfold decimalParts
  dsimp only
  rw [hs.takeWhile rfl, drop_append_of_front (List.takeWhile_prefix _), fractionPart_append hs,
    drop_append_of_front (fractionPart_front _), exponentPart_append hs]

/-- A radix is announced by two characters. -/
theorem radix?_cons (c d : Char) (cs cs' : List Char) :
    radix? c (d :: cs) = radix? c (d :: cs') := by
  unfold radix?
  split <;> simp_all

/-- So does a number of either form. -/
theorem numeral_append (hs : Breaks suffix) (c : Char) (cs : List Char) :
    numeral c (cs ++ suffix) = numeral c cs := by
  have hrun : ∀ cs : List Char, (cs ++ suffix).takeWhile Word.isPart = cs.takeWhile Word.isPart :=
    hs.takeWhile rfl
  have htext : decimalParts (c :: (cs ++ suffix)) = decimalParts (c :: cs) :=
    decimalParts_append_of_breaks hs (c :: cs)
  have htail : (c :: (cs ++ suffix)).drop (decimalParts (c :: cs)).text.length =
      (c :: cs).drop (decimalParts (c :: cs)).text.length ++ suffix :=
    drop_append_of_front (decimalParts_front (c :: cs))
  unfold numeral
  cases cs with
  | nil =>
    have hnone : radix? c suffix = none := radix?_eq_none (hs.stop rfl)
    rw [List.nil_append] at *
    have hnone' : radix? c [] = none := radix?_eq_none (by simp)
    simp only [hnone, hnone', htext, htail, hrun]
  | cons d cs =>
    have hradix : radix? c (d :: (cs ++ suffix)) = radix? c (d :: cs) := radix?_cons c d _ cs
    simp only [List.cons_append] at *
    simp only [hradix, htext, htail, hrun, List.drop_succ_cons, List.drop_zero,
      List.take_succ_cons, List.take_zero]

/-- A number is read the same with the suffix. -/
theorem scanNumber_append (hs : Breaks suffix) (h : scanNumber line c cs = .ok found) :
    scanNumber line' c (cs ++ suffix) = .ok found := by
  rw [scanNumber_eq] at h ⊢
  rw [numeral_append hs]
  split at h
  · exact h
  · cases h

/-- A text without a line break begins a text, or does not, whatever is
behind it. -/
theorem isPrefixOf_append (hs : Breaks suffix) {front : List Char} (hfront : '\n' ∉ front) :
    front.isPrefixOf (cs ++ suffix) = front.isPrefixOf cs := by
  rw [Bool.eq_iff_iff, List.isPrefixOf_iff_prefix, List.isPrefixOf_iff_prefix]
  refine ⟨fun h => ?_, fun h => h.trans (List.prefix_append _ _)⟩
  rcases List.prefix_or_prefix_of_prefix h (List.prefix_append cs suffix) with hin | ⟨more, rfl⟩
  · exact hin
  · rw [List.prefix_append_right_inj] at h
    cases more with
    | nil => simp
    | cons d more =>
      obtain ⟨rest, rfl⟩ := h
      obtain rfl := hs d rfl
      simp at hfront

/-- No symbol has a line feed in it, so none is longer than it was. -/
theorem ofSymbol?_append_of_breaks (hs : Breaks suffix) (cs : List Char) :
    Operator.ofSymbol? (cs ++ suffix) = Operator.ofSymbol? cs := by
  have hsymbols : ∀ op ∈ Operator.symbols, '\n' ∉ op.text.toList := by decide
  exact List.find?_congr fun op hop => isPrefixOf_append hs (hsymbols op hop)

/-- So an operator is read the same. -/
theorem scanSymbol_append (hs : Breaks suffix) (h : scanSymbol line c cs = .ok found) :
    scanSymbol line' c (cs ++ suffix) = .ok found := by
  unfold scanSymbol at h ⊢
  rw [← List.cons_append, ofSymbol?_append_of_breaks hs]
  split at h
  · exact h
  · cases h

/-! ## Tokens -/

theorem Breaks.head?_any_isDigit (hs : Breaks suffix) (cs : List Char) :
    (cs ++ suffix).head?.any Char.isDigit = cs.head?.any Char.isDigit := by
  cases cs with
  | cons d cs => rfl
  | nil =>
    cases suffix with
    | nil => rfl
    | cons d suffix =>
      obtain rfl := hs d rfl
      rfl

/-- White space does not reach the end of the text, or nothing is behind
it. -/
theorem scanWhitespace_append (hc : isSpace c) (hs : suffix = [] ∨ cs.all isSpace = false) :
    scanWhitespace (c :: (cs ++ suffix)) = scanWhitespace (c :: cs) := by
  have hrun : (cs ++ suffix).takeWhile isSpace = cs.takeWhile isSpace := by
    rcases hs with rfl | hend
    · rw [List.append_nil]
    · refine takeWhile_append_of_stop (.inl ?_)
      refine lt_of_le_of_ne (List.takeWhile_prefix _).length_le fun hall => ?_
      rw [← (List.takeWhile_prefix isSpace).eq_of_length hall] at hend
      simp at hend
  unfold scanWhitespace
  simp only [List.takeWhile_cons_of_pos hc, hrun]

/-- A string that closes reads no further than its quote. -/
theorem scanQuoted_append (hs : suffix = [] ∨ unclosed c cs = false)
    (h : scanQuoted line c cs = .ok found) : scanQuoted line' c (cs ++ suffix) = .ok found := by
  rw [scanQuoted_eq] at h ⊢
  cases hrest : quotedRest c line cs with
  | error fault => simp [hrest, Except.map] at h
  | ok rest =>
    rw [quotedRest_append c line line' cs rest hrest hs]
    rwa [hrest] at h

/-- Whether the token that begins with `c` would go on, were the text behind
it to begin with a line break: white space or a quoted string that the text
ends in. -/
def runsOn (c : Char) (cs : List Char) : Bool :=
  if isSpace c then cs.all isSpace else (c == '"' || c == '\'') && unclosed c cs

/-- **A token** does not see what is behind the text, if that is a line break
and the token does not run on. -/
theorem scan_append (h : scan line c cs = .ok found)
    (hs : suffix = [] ∨ Breaks suffix ∧ runsOn c cs = false) :
    scan line' c (cs ++ suffix) = .ok found := by
  have hbreaks : Breaks suffix := by
    rcases hs with rfl | hs
    · simp [Breaks]
    · exact hs.1
  have hend : suffix = [] ∨ runsOn c cs = false := hs.imp_right And.right
  unfold scan at h ⊢
  unfold runsOn at hend
  split at h
  · rename_i hspace
    rw [if_pos hspace] at hend ⊢
    rwa [scanWhitespace_append hspace hend]
  rename_i hspace
  rw [if_neg hspace] at hend ⊢
  -- the conditions ask for digits, minuses, brackets and equal signs, none of
  -- which is a line break
  have hnext (d : Char) (hd : d ≠ '\n') : ((cs ++ suffix).head? == some d) =
      (cs.head? == some d) := by
    rw [Bool.eq_iff_iff, beq_iff_eq, beq_iff_eq, hbreaks.head?_append hd]
  rw [hbreaks.head?_any_isDigit, hnext '-' (by decide), hnext '[' (by decide), hnext '=' (by decide)]
  split at h
  · rename_i hnumber
    rw [if_pos hnumber]
    exact scanNumber_append hbreaks h
  rename_i hnumber
  rw [if_neg hnumber]
  split at h
  · rename_i hstart
    rw [if_pos hstart]
    unfold scanWord at h ⊢
    rwa [← List.cons_append, hbreaks.takeWhile rfl]
  rename_i hstart
  rw [if_neg hstart]
  split at h
  · rename_i hcomment
    rw [if_pos hcomment]
    simp only [Bool.and_eq_true, beq_iff_eq] at hcomment
    obtain ⟨rest, rfl⟩ := List.head?_eq_some_iff.1 hcomment.2
    exact scanComment_append hbreaks h
  rename_i hcomment
  rw [if_neg hcomment]
  split at h
  · rename_i hquote
    rw [if_pos hquote]
    rw [hquote, Bool.true_and] at hend
    exact scanQuoted_append hend h
  rename_i hquote
  rw [if_neg hquote]
  split at h
  · rename_i hlong
    rw [if_pos hlong]
    exact scanLongString_append h
  · rename_i hlong
    rw [if_neg hlong]
    exact scanSymbol_append hbreaks h

/-! ## Texts -/

/-- Whether a text that begins on `line` ends in a quoted string that nothing
closes. -/
def endsInQuotes (line : ℕ) : List Char → Bool
  | [] => false
  | c :: cs =>
    match scan line c cs with
    | .error _ => false
    | .ok found =>
      (c == '"' || c == '\'') && unclosed c cs ||
        endsInQuotes (line + found.lines) (cs.drop found.more)
termination_by cs => cs.length
decreasing_by simp only [List.length_drop, List.length_cons]; omega

/-- White space in front of a text is passed over. -/
theorem tokensFrom_takeWhile {tokens : List Token} (h : tokensFrom line cs = .ok tokens) :
    ∃ rest, tokensFrom (line + lineFeeds (cs.takeWhile isSpace))
        (cs.drop (cs.takeWhile isSpace).length) = .ok rest ∧
      significant rest = significant tokens := by
  cases cs with
  | nil => exact ⟨tokens, h, rfl⟩
  | cons c cs =>
    by_cases hc : isSpace c
    · obtain ⟨found, rest, hscan, hrest, rfl⟩ := tokensFrom_cons_eq_ok.1 h
      rw [scan_space hc rfl] at hscan
      obtain rfl := Except.ok.inj hscan
      rw [List.takeWhile_cons_of_pos hc]
      exact ⟨rest, hrest, rfl⟩
    · rw [List.takeWhile_cons_of_neg hc]
      exact ⟨tokens, h, rfl⟩

/-- **White space put in front** of a text changes no token that carries
meaning. -/
theorem tokensFrom_spaces {spaces : List Char} {tokens : List Token}
    (hspaces : ∀ c ∈ spaces, isSpace c)
    (h : tokensFrom (line + lineFeeds spaces) cs = .ok tokens) :
    ∃ t, tokensFrom line (spaces ++ cs) = .ok t ∧ significant t = significant tokens := by
  cases spaces with
  | nil => exact ⟨tokens, h, rfl⟩
  | cons c spaces =>
    rw [List.forall_mem_cons] at hspaces
    obtain ⟨rest, hrest, hsame⟩ := tokensFrom_takeWhile h
    have hrun : (spaces ++ cs).takeWhile isSpace = spaces ++ cs.takeWhile isSpace :=
      List.takeWhile_append_of_pos hspaces.2
    refine ⟨_ :: rest, tokensFrom_cons_eq_ok.2 ⟨_, rest, scan_space hspaces.1 hrun, ?_, rfl⟩,
      hsame⟩
    show tokensFrom (line + lineFeeds ((c :: spaces) ++ cs.takeWhile isSpace))
      ((spaces ++ cs).drop (spaces ++ cs.takeWhile isSpace).length) = .ok rest
    rw [List.length_append, ← List.drop_drop, List.drop_left, lineFeeds_append, ← Nat.add_assoc]
    exact hrest

end Lexer

/-- The same token further down. -/
def Token.shift (lines : ℕ) (t : Token) : Token := { t with line := t.line + lines }

/-- Which tokens count does not depend on lines. -/
theorem significant_shift (lines : ℕ) (tokens : List Token) :
    significant (tokens.map (Token.shift lines)) =
      (significant tokens).map (Token.shift lines) := by
  rw [significant, List.filter_map]
  rfl

/-- Nor on what is in front. -/
theorem significant_append (tokens tokens' : List Token) :
    significant (tokens ++ tokens') = significant tokens ++ significant tokens' :=
  List.filter_append _ _

namespace Lexer

/-- A text has the same tokens wherever it begins. -/
theorem tokensFrom_shift {tokens : List Token} (h : tokensFrom line cs = .ok tokens) (lines : ℕ) :
    tokensFrom (line + lines) cs = .ok (tokens.map (Token.shift lines)) := by
  obtain ⟨cuts, last, hcuts, rfl⟩ := tokensFrom_eq_ok_iff.1 h
  clear h
  induction hcuts with
  | nil =>
    rw [tokensFrom]
    rfl
  | @cons line last c cs found cuts hscan rest ih =>
    have hscan' : scan (line + lines) c (cs ++ []) = .ok found := scan_append hscan (.inl rfl)
    rw [List.append_nil] at hscan'
    refine tokensFrom_cons_eq_ok.2 ⟨found, _, hscan', ?_, rfl⟩
    rw [Nat.add_right_comm]
    exact ih

/-- Lines only go up from token to token. -/
theorem Cuts.le_last {last : ℕ} {cuts : List (List Char × Token)} (h : Cuts line cs cuts last) :
    line ≤ last := by
  induction h with
  | nil => exact le_rfl
  | cons hscan rest ih => exact le_of_add_le_left ih

/-- **A line break separates** the tokens of a text from those behind it. -/
theorem Cuts.append_newline {last : ℕ} {cuts : List (List Char × Token)}
    (h : Cuts line cs cuts last) (hends : endsInQuotes line cs = false) {more : List Char}
    {tokens : List Token} (hmore : tokensFrom last ('\n' :: more) = .ok tokens) :
    ∃ t, tokensFrom line (cs ++ '\n' :: more) = .ok t ∧
      significant t = significant (cuts.map Prod.snd) ++ significant tokens := by
  induction h with
  | nil => exact ⟨tokens, hmore, rfl⟩
  | @cons line last c cs found cuts hscan rest ih =>
    rw [endsInQuotes, hscan] at hends
    simp only [Bool.or_eq_false_iff] at hends
    cases hruns : runsOn c cs with
    | false =>
      have hbreaks : Breaks ('\n' :: more) := by simp [Breaks]
      have hscan' : scan line c (cs ++ '\n' :: more) = .ok found :=
        scan_append hscan (.inr ⟨hbreaks, hruns⟩)
      have hmore' : found.more ≤ cs.length := by
        have := scan_accounts line c cs
        rw [hscan] at this
        exact Nat.le_of_succ_le_succ this.1
      obtain ⟨t, ht, hsame⟩ := ih hends.2 hmore
      rw [← List.drop_append_of_le_length hmore'] at ht
      refine ⟨_ :: t, tokensFrom_cons_eq_ok.2 ⟨found, t, hscan', ht, rfl⟩, ?_⟩
      rw [List.map_cons, ← List.singleton_append, ← List.singleton_append (l := cuts.map Prod.snd),
        significant_append, significant_append, hsame, List.append_assoc]
    | true =>
      -- white space up to the end of the text goes on behind it
      have hspace : isSpace c ∧ ∀ d ∈ cs, isSpace d := by
        unfold runsOn at hruns
        split at hruns
        · rename_i hc
          exact ⟨hc, by simpa using hruns⟩
        · rw [hends.1] at hruns
          cases hruns
      have hall : cs.takeWhile isSpace = cs := List.takeWhile_eq_self_iff.2 hspace.2
      rw [scan_space hspace.1 hall] at hscan
      obtain rfl := Except.ok.inj hscan
      rw [List.drop_length] at rest
      cases rest
      obtain ⟨t, ht, hsame⟩ := tokensFrom_spaces (List.forall_mem_cons.2 hspace) hmore
      exact ⟨t, ht, hsame⟩

end Lexer

/-- A source that ends in a quoted string that nothing closes. -/
def EndsInQuotes (source : String) : Prop := Lexer.endsInQuotes 1 source.toList

instance (source : String) : Decidable (EndsInQuotes source) := inferInstanceAs (Decidable (_ = _))

/-- **A line break separates tokens.** Two sources with tokens, the first not
ending in quotes, have tokens with a line break between them: those that carry
meaning are the ones of the first and then the ones of the second, as many
lines further down as the first goes over and the line break is. -/
theorem tokenize_newline {s₁ s₂ : String} {t₁ t₂ : List Token} (h₁ : tokenize s₁ = .ok t₁)
    (h₂ : tokenize s₂ = .ok t₂) (hends : ¬ EndsInQuotes s₁) :
    ∃ cuts lines, Lexer.Cuts 1 s₁.toList cuts (1 + lines) ∧ ∃ t,
      tokenize (s₁ ++ "\n" ++ s₂) = .ok t ∧
        significant t = significant t₁ ++ (significant t₂).map (Token.shift (lines + 1)) := by
  obtain ⟨cuts, last, hcuts, rfl⟩ := Lexer.tokensFrom_eq_ok_iff.1 h₁
  obtain ⟨lines, rfl⟩ := Nat.exists_eq_add_of_le hcuts.le_last
  refine ⟨cuts, lines, hcuts, ?_⟩
  -- the line break and what white space there is around it are one token or two
  have hbehind := Lexer.tokensFrom_shift h₂ (lines + 1)
  have hbreak : 1 + (lines + 1) = 1 + lines + Lexer.lineFeeds ['\n'] := rfl
  rw [hbreak] at hbehind
  have hspace : ∀ c ∈ ['\n'], Lexer.isSpace c := List.forall_mem_singleton.2 rfl
  obtain ⟨more, hmore, hsame⟩ := Lexer.tokensFrom_spaces hspace hbehind
  obtain ⟨t, ht, hall⟩ := hcuts.append_newline (Bool.eq_false_iff.2 hends) hmore
  refine ⟨t, ?_, ?_⟩
  · rw [tokenize, String.toList_append, String.toList_append, List.append_assoc]
    exact ht
  · rw [hall, hsame, significant_shift]

/-- A string over two lines and a minus, and behind the line break another
minus, which is not the start of a comment. -/
theorem tokenize_newline_minus :
    ∃ cuts lines, Lexer.Cuts 1 "'\\\n' -".toList cuts (1 + lines) ∧ ∃ t,
      tokenize ("'\\\n' -" ++ "\n" ++ "-y") = .ok t ∧
        significant t = significant [⟨.string [0x0A], 1, .quoted '\''⟩,
            ⟨.whitespace " ", 2, .plain⟩, ⟨.operator .minus, 2, .plain⟩] ++
          (significant [⟨.operator .minus, 1, .plain⟩, ⟨.name "y", 1, .plain⟩]).map
            (Token.shift (lines + 1)) :=
  tokenize_newline (by decide +kernel) (by decide +kernel) (by decide +kernel)

example : EndsInQuotes "'it\\'s" ∧ ¬ EndsInQuotes "'it\\'s'" := by decide +kernel

end LuaSugar
