import Mathlib
import LuaSugar.Proofs.Token.Boundaries
import LuaSugar.Proofs.Token.Literals
import LuaSugar.Proofs.Token.QuotedBytes
/-!
# Scanners stay between characters

A turn of the loop over bytes finds what a scan of the characters finds, and
comes to stand behind the characters of the token (`next?_agrees`). This goes
form by form, and each form is one of two kinds. Words, numbers, blanks and
brackets consist of characters of one byte, which no part of another character
looks like. What is between brackets or quotes may be cut anywhere, but ends
at such a character or where the text ends.

By induction on what is left, the loop goes from one place between characters
to the next until it has the tokens of the text or its fault (`ends_iff`).
-/

namespace LuaSugar

open Lexer

namespace Scanner

variable {s stop : Scanner} {before after taken rest cs : List Char} {b c d : Char}
variable {p : Char → Bool} {level : ℕ}

/-! ## Finding what is there -/

/-- A turn over bytes that does what a scan of the characters says: it finds
the same token or the same fault, and moves on over the token's characters. -/
def Agrees (s : Scanner) (before : List Char) (c : Char) (cs : List Char)
    (outcome : Except Halt Scanner) : Except LexError Scan → Prop
  | .ok found => ∃ s', outcome = .ok s' ∧
      s'.At (before ++ c :: cs.take found.more) (cs.drop found.more) ∧
      s'.line = s.line + found.lines ∧
      s'.tokens = s.tokens ++ [⟨found.kind, s.line, found.spelling⟩]
  | .error e => outcome = .error (.fault e)

/-- **A token** whose characters the scanner has moved over. -/
theorem agrees_push {kind : TokenKind} {spelling : Spelling} {more lines : ℕ}
    (hcs : c :: cs = taken ++ rest) (hmore : taken.length = more + 1)
    (hstop : stop.At (before ++ taken) rest) (hline : stop.line = s.line + lines)
    (htokens : stop.tokens = s.tokens) :
    Agrees s before c cs (.ok (stop.push kind spelling s.line))
      (.ok ⟨kind, spelling, more, lines⟩) := by
  cases taken with
  | nil => cases hmore
  | cons d taken =>
    rw [List.cons_append, List.cons.injEq] at hcs
    obtain ⟨rfl, rfl⟩ := hcs
    obtain rfl : taken.length = more := Nat.succ.inj hmore
    refine ⟨_, rfl, ?_, hline, ?_⟩
    · dsimp only
      rw [List.take_left, List.drop_left]
      exact ⟨hstop.text, hstop.pos⟩
    · exact congrArg (· ++ _) htokens

/-- A plain token, which takes what it takes and counts the line feeds of that. -/
theorem agrees_plain {kind : TokenKind} (hcs : c :: cs = taken ++ rest) (hne : taken ≠ [])
    (hstop : stop.At (before ++ taken) rest) (hline : stop.line = s.line + lineFeeds taken)
    (htokens : stop.tokens = s.tokens) :
    Agrees s before c cs (.ok (stop.push kind .plain s.line)) (.ok (.plain kind taken)) :=
  agrees_push hcs (Nat.sub_add_cancel (List.length_pos_iff.2 hne)).symm hstop hline htokens

/-- What a scan begins with, it takes. -/
theorem takeWhile_ne_nil (hc : p c = true) : (c :: cs).takeWhile p ≠ [] := by
  rw [List.takeWhile_cons_of_pos hc]
  exact List.cons_ne_nil _ _

/-- Blanks are found as characters. -/
theorem whitespace_agrees (h : s.At before (c :: cs)) (hc : isSpace c = true) :
    Agrees s before c cs s.whitespace (.ok (scanWhitespace (c :: cs))) := by
  have hrun : s.ahead.takeWhile isSpace = bytewise ((c :: cs).takeWhile isSpace) := by
    rw [h.ahead, takeWhile_bytewise (whole_of_ascii fun _ => isAscii_of_isSpace)]
  have hsplit := run_split isSpace (c :: cs)
  have hstop := (hsplit ▸ h).skipLines
  unfold whitespace
  simp only [hrun, hstop.slice h.pos]
  exact agrees_plain hsplit (takeWhile_ne_nil hc) hstop
    (congrArg (s.line + ·) (lineFeeds_bytewise _)) rfl

/-- Words are found as characters. -/
theorem word_agrees (h : s.At before (c :: cs)) (hc : Word.isStart c = true) :
    Agrees s before c cs s.word (.ok (scanWord (c :: cs))) := by
  have hstop := h.skipWhile (whole_of_ascii fun _ => isAscii_of_isPart)
  have hfeeds : lineFeeds ((c :: cs).takeWhile Word.isPart) = 0 := lineFeeds_takeWhile rfl
  unfold word
  simp only [hstop.slice h.pos]
  exact agrees_plain (run_split _ _) (takeWhile_ne_nil (isPart_of_isStart hc)) hstop
    (congrArg (s.line + ·) hfeeds.symm) rfl

/-- A symbol is a prefix of the bytes where it is one of the characters. -/
theorem ofSymbol?_bytewise (cs : List Char) :
    Operator.ofSymbol? (bytewise cs) = Operator.ofSymbol? cs := by
  refine congrArg (Operator.symbols.find? ·) (funext fun op => Bool.eq_iff_iff.2 ?_)
  rw [List.isPrefixOf_iff_prefix, List.isPrefixOf_iff_prefix]
  exact front_bytewise_iff (by cases op <;> simp [Operator.text, IsAscii])

/-- Operators are found as characters; what begins none is refused as one character. -/
theorem operator_agrees (h : s.At before (c :: cs)) :
    Agrees s before c cs s.operator (scanSymbol s.line c cs) := by
  unfold operator scanSymbol
  rw [h.ahead, ofSymbol?_bytewise]
  cases hop : Operator.ofSymbol? (c :: cs) with
  | some op =>
    obtain ⟨hne, rest, hrest⟩ := ofSymbol?_eq_some hop
    have hfeeds : lineFeeds op.text.toList = 0 := by cases op <;> decide
    refine agrees_plain hrest.symm hne ((hrest ▸ h).skip _ ?_) (by rw [hfeeds]; rfl) rfl
    rw [bytewise, List.length_map, Utf8.encode]
  | none =>
    have hend : At { s with pos := (Utf8.encode s.text).length } (before ++ (c :: cs)) [] := by
      refine ⟨by rw [h.text, List.append_nil], ?_⟩
      rw [h.text, Utf8.encode, String.toList_ofList, bytewise, List.length_map]
    have hslice : s.slice s.pos (Utf8.encode s.text).length = .ok (String.ofList (c :: cs)) :=
      hend.slice h.pos
    simp only [hslice, bind, Except.bind, String.toList_ofList]
    rfl

/-! ## Numbers -/

/-- Digits are passed over one by one. -/
theorem digits_at (h : s.At before after) :
    s.digits.At (before ++ after.takeWhile isDigitOrSeparator)
      (after.drop (after.takeWhile isDigitOrSeparator).length) :=
  h.skipWhile (whole_of_ascii fun _ => isAscii_of_isDigitOrSeparator)

/-- A point and the digits behind it, where digits stand there. -/
theorem fraction_at (h : s.At before after) :
    s.fraction.At (before ++ fractionPart after) (after.drop (fractionPart after).length) := by
  have hiff : s.peek 0 = some '.' ∧ s.peek 1 ≠ some '.' ↔
      after.head? = some '.' ∧ after.tail.head? ≠ some '.' := by
    rw [h.peek_zero (by decide)]
    refine and_congr_right fun hdot => not_congr ?_
    obtain ⟨rest, rfl⟩ := List.head?_eq_some_iff.1 hdot
    exact h.peek_one (by decide) (by decide)
  rw [fractionPart_eq, fraction]
  by_cases hdot : after.head? = some '.' ∧ after.tail.head? ≠ some '.'
  · rw [if_pos hdot, if_pos (hiff.2 hdot)]
    obtain ⟨rest, rfl⟩ := List.head?_eq_some_iff.1 hdot.1
    have hpoint : (s.skip 1).At (before ++ ['.']) rest := h.skip ['.'] (by decide)
    have hdigits := digits_at hpoint
    rwa [List.append_assoc] at hdigits
  · rw [if_neg hdot, if_neg (hiff.not.2 hdot), List.append_nil]
    exact h

/-- A sign is passed over. -/
theorem sign_at (h : s.At before after) :
    s.sign.At (before ++ signPart after) (after.drop (signPart after).length) := by
  unfold sign
  simp only [h.peek_zero (d := '+') (by decide), h.peek_zero (d := '-') (by decide)]
  cases after with
  | nil => simpa [signPart] using h
  | cons c rest =>
    unfold signPart
    simp only [List.head?_cons, Option.some.injEq]
    by_cases hsign : c = '+' ∨ c = '-'
    · rw [if_pos hsign, if_pos (by simpa using hsign)]
      refine h.skip [c] ?_
      rcases hsign with rfl | rfl <;> decide
    · rw [if_neg hsign, if_neg (by simpa using hsign), List.append_nil]
      exact h

/-- An exponent is passed over, where digits stand behind its letter and sign. -/
theorem exponent_at (h : s.At before after) :
    s.exponent.At (before ++ exponentPart after) (after.drop (exponentPart after).length) := by
  unfold exponent
  simp only [h.peek_zero (d := 'e') (by decide), h.peek_zero (d := 'E') (by decide)]
  cases after with
  | nil => simpa [exponentPart] using h
  | cons mark rest =>
    rw [exponentPart_cons]
    simp only [List.head?_cons, Option.some.injEq]
    by_cases hmark : mark = 'e' ∨ mark = 'E'
    · rw [if_pos hmark, if_pos (by simpa using hmark)]
      have hmarked : (s.skip 1).At (before ++ [mark]) rest :=
        h.skip [mark] (by rcases hmark with rfl | rfl <;> decide)
      have hdigits := digits_at (sign_at hmarked)
      rw [List.append_assoc, List.append_assoc, List.drop_drop, ← List.length_append] at hdigits
      exact hdigits
    · rw [if_neg hmark, if_neg (by simpa using hmark), List.append_nil]
      exact h

/-- A decimal literal is moved over part by part. -/
theorem decimal_at (h : s.At before after) :
    s.digits.fraction.exponent.At (before ++ (decimalParts after).text)
      (after.drop (decimalParts after).text.length) := by
  have hparts := exponent_at (fraction_at (digits_at h))
  simp only [List.append_assoc, List.drop_drop, Nat.add_assoc] at hparts
  simpa only [DecimalParts.text, decimalParts, List.append_assoc, List.length_append,
    List.drop_drop, Nat.add_assoc] using hparts

/-- A malformed number is refused by its text. -/
theorem malformed_at {start line : ℕ} (h : s.At (before ++ taken) rest)
    (hstart : start = (bytewise before).length) (hline : s.line = line) :
    s.malformed start = .error (.fault ⟨line, .malformedNumber (String.ofList taken)⟩) := by
  unfold malformed
  rw [h.slice hstart, ← hline]
  rfl

/-- The prefix of a radix is seen alike. -/
theorem radix?_at (h : s.At before (c :: cs)) : s.radix? = Lexer.radix? c cs := by
  rw [radix?_eq]
  unfold radix?
  simp only [h.peek_zero (d := '0') (by decide), List.head?_cons, Option.some.injEq]
  by_cases hc : c = '0'
  · subst hc
    have hpeek {d : Char} (hd : IsAscii d) : s.peek 1 = some d ↔ cs.head? = some d :=
      h.peek_one (by decide) hd
    simp only [hpeek (d := 'x') (by decide), hpeek (d := 'X') (by decide),
      hpeek (d := 'b') (by decide), hpeek (d := 'B') (by decide)]
  · rw [if_neg hc, if_neg hc]

/-- Numbers with a radix are found as characters. -/
theorem radixNumber_agrees {radix : ℕ} (h : s.At before (c :: cs))
    (hradix : Lexer.radix? c cs = some radix) :
    Agrees s before c cs (s.radixNumber radix) (scanNumber s.line c cs) := by
  obtain ⟨rfl, d, rest, rfl, hd⟩ := radix?_eq_some hradix
  -- the letter of the radix is part of a word, so the run goes on over it
  have hpart : Word.isPart d = true := by
    simp only [List.mem_cons, List.not_mem_nil, or_false] at hd
    rcases hd with rfl | rfl | rfl | rfl <;> rfl
  have hascii := isAscii_of_isPart hpart
  have hdigits : (s.skip 2).At (before ++ ['0', d]) rest := by
    refine h.skip ['0', d] ?_
    rw [bytewise_ascii (by decide), bytewise_ascii hascii]
    rfl
  have hstop := hdigits.skipWhile (whole_of_ascii fun _ => isAscii_of_isPart)
  have hall := hstop
  rw [List.append_assoc] at hall
  rw [scanNumber_eq, numeral, hradix]
  unfold radixNumber
  simp only [hstop.slice hdigits.pos, bind, Except.bind, String.toList_ofList,
    List.drop_succ_cons, List.drop_zero]
  cases radixValue? radix ((rest.takeWhile Word.isPart).filter (· != '_')) with
  | some value =>
    refine agrees_plain ?_ (List.cons_ne_nil _ _) hall ?_ rfl
    · exact congrArg ('0' :: d :: ·) (run_split Word.isPart rest)
    · have hfeeds : lineFeeds (('0' :: d :: rest).takeWhile Word.isPart) = 0 :=
        lineFeeds_takeWhile rfl
      rw [List.takeWhile_cons_of_pos rfl, List.takeWhile_cons_of_pos hpart] at hfeeds
      exact congrArg (s.line + ·) hfeeds.symm
  | none => exact malformed_at hall h.pos rfl

/-- The parts of a decimal number lie on its line, and give no token of their own. -/
theorem decimal_same (s : Scanner) : s.digits.fraction.exponent.line = s.line ∧
    s.digits.fraction.exponent.tokens = s.tokens := by
  unfold fraction exponent sign digits
  split_ifs <;> simp

theorem isEmpty_takeWhile (p : Char → Bool) (cs : List Char) :
    (cs.takeWhile p).isEmpty = !cs.head?.any p := by
  cases cs with
  | nil => rfl
  | cons c cs => cases hc : p c <;> simp [hc]

/-- Decimal numbers are found as characters. -/
theorem decimalNumber_agrees (h : s.At before (c :: cs)) (hradix : Lexer.radix? c cs = none) :
    Agrees s before c cs s.decimalNumber (scanNumber s.line c cs) := by
  have hpart : Whole Word.isPart := whole_of_ascii fun _ => isAscii_of_isPart
  have hstop := decimal_at h
  have htail := hstop.skipWhile hpart
  rw [List.append_assoc] at htail
  obtain ⟨hline, htokens⟩ := decimal_same s
  have hnumeral : numeral c cs =
      let text := (decimalParts (c :: cs)).text
      let tail := ((c :: cs).drop text.length).takeWhile Word.isPart
      if tail.isEmpty then ((decimalParts (c :: cs)).value?, text) else (none, text ++ tail) := by
    rw [numeral, hradix]
  simp only [isEmpty_takeWhile] at hnumeral
  rw [scanNumber_eq]
  unfold decimalNumber
  -- a letter behind the number is what both look for
  simp only [hstop.peek_zero_eq, any_head?_bytewise hpart]
  by_cases hnext :
      ((c :: cs).drop (decimalParts (c :: cs)).text.length).head?.any Word.isPart = true
  · simp only [hnext, Bool.not_true, Bool.false_eq_true, if_false] at hnumeral
    rw [if_pos hnext, hnumeral]
    exact malformed_at htail h.pos ((skipWhile_line _ _).trans hline)
  · simp only [Bool.eq_false_iff.2 hnext, Bool.not_false, if_true] at hnumeral
    have hne {value : Double} (hvalue : (decimalParts (c :: cs)).value? = some value) :
        (decimalParts (c :: cs)).text ≠ [] := by
      have hne : (numeral c cs).2 ≠ [] := numeral_ne_nil (by rw [hnumeral]; exact hvalue)
      rwa [hnumeral] at hne
    rw [if_neg hnext, hnumeral]
    simp only [hstop.slice h.pos, bind, Except.bind, String.toList_ofList, decimalParts_text]
    cases hvalue : (decimalParts (c :: cs)).value? with
    | some value =>
      refine agrees_plain (List.prefix_iff_eq_append.1 (decimalParts_front _)).symm (hne hvalue)
        hstop ?_ htokens
      rw [lineFeeds_decimalParts, Nat.add_zero]
      exact hline
    | none => exact malformed_at hstop h.pos hline

/-- So are numbers of either form. -/
theorem number_agrees (h : s.At before (c :: cs)) :
    Agrees s before c cs s.number (scanNumber s.line c cs) := by
  unfold number
  rw [radix?_at h]
  cases hradix : Lexer.radix? c cs with
  | some radix => exact radixNumber_agrees h hradix
  | none => exact decimalNumber_agrees h hradix

/-! ## Long brackets -/

/-- The brackets themselves are one byte for each character. -/
theorem length_bytewise_bracket (level : ℕ) (hc : IsAscii c) :
    level + 2 = (bytewise (c :: (List.replicate level '=' ++ [c]))).length := by
  rw [bytewise_of_ascii]
  · simp
  · intro d hd
    simp only [List.mem_cons, List.mem_append, List.mem_replicate, List.not_mem_nil,
      or_false] at hd
    rcases hd with rfl | ⟨-, rfl⟩ | rfl
    · exact hc
    · decide
    · exact hc

/-- **A long bracket** is read from bytes as from characters. -/
theorem longBracket_agrees (h : s.At before ('[' :: cs)) (hlevel : longLevel? cs = some level)
    (fault : LexFault) : match Lexer.longBracket s.line fault level cs with
      | .ok long => ∃ stop taken rest, '[' :: cs = taken ++ rest ∧ taken.length = long.length ∧
          0 < long.length ∧
          s.longBracket level fault = .ok (Utf8.encode (String.ofList long.body), stop) ∧
          stop.At (before ++ taken) rest ∧ stop.line = s.line + long.lines ∧ stop.tokens = s.tokens
      | .error e => s.longBracket level fault = .error (.fault e) := by
  obtain ⟨opened, rfl⟩ := longLevel?_eq_some hlevel
  -- the text is taken apart first: opening bracket, line break, body, closing bracket
  let bracket (c : Char) : List Char := c :: (List.replicate level '=' ++ [c])
  have htext : '[' :: (List.replicate level '=' ++ '[' :: opened) = bracket '[' ++ opened := by
    simp [bracket]
  have hdrop : (List.replicate level '=' ++ '[' :: opened).drop (level + 1) = opened := by
    rw [← List.drop_drop, List.drop_left' (by simp), List.drop_one, List.tail_cons]
  rw [htext] at h
  have hopened := h.skip _ (length_bytewise_bracket level (by decide))
  have hbreak : leadingBreak (bytewise opened) = bytewise (leadingBreak opened) := by
    rw [leadingBreak_bytewise, bytewise_of_ascii isAscii_of_mem_leadingBreak]
  have hinside := (leadingBreak_append opened ▸ hopened).skipLines
  unfold Lexer.longBracket Scanner.longBracket
  simp only [hdrop, hopened.ahead, hbreak, hinside.ahead, longBody?_bytewise]
  -- both look for the closing bracket in the same place
  cases hbody : longBody? level (opened.drop (leadingBreak opened).length) with
  | none =>
    simp only [Option.map_none, fail, skipLines, skip, lineFeeds_bytewise]
  | some body =>
    obtain ⟨rest, hrest⟩ := longBody?_eq_some hbody
    have hsplit : opened.drop (leadingBreak opened).length = body ++ (bracket ']' ++ rest) := by
      rw [hrest]
      simp [bracket]
    rw [hsplit] at hinside
    have hclosed := hinside.skipLines.skip _ (length_bytewise_bracket level (by decide))
    have hbytes : (bytewise body).map Char.toUInt8 = Utf8.encode (String.ofList body) := by
      rw [map_toUInt8_bytewise, Utf8.encode, String.toList_ofList]
    simp only [Option.map_some, hbytes]
    refine ⟨_, bracket '[' ++ leadingBreak opened ++ body ++ bracket ']', rest, ?_, ?_, ?_, rfl, ?_,
      ?_, rfl⟩
    · conv_lhs => rw [htext, ← leadingBreak_append opened, hsplit]
      simp
    · simp [bracket]
      omega
    · omega
    · simpa only [List.append_assoc] using hclosed
    · simp only [skip, skipLines, lineFeeds_bytewise, Nat.add_assoc]

/-- Strings between long brackets are found as characters. -/
theorem longString_agrees (h : s.At before ('[' :: cs)) :
    Agrees s before '[' cs s.longString (scanLongString s.line cs) := by
  have htail : s.ahead.tail = bytewise cs := by
    rw [h.ahead, bytewise_ascii (by decide), List.tail_cons]
  rw [scanLongString_eq]
  unfold longString
  rw [htail, longLevel?_bytewise]
  cases hlevel : longLevel? cs with
  | none => rfl
  | some level =>
    have hlong := longBracket_agrees h hlevel .unfinishedLongString
    simp only
    cases hbracket : Lexer.longBracket s.line .unfinishedLongString level cs with
    | error e =>
      rw [hbracket] at hlong
      simp only [hlong, bind, Except.bind]
      rfl
    | ok long =>
      rw [hbracket] at hlong
      obtain ⟨stop, taken, rest, hcs, hlength, hpos, hvalue, hstop, hline, htokens⟩ := hlong
      simp only [hvalue, bind, Except.bind]
      exact agrees_push hcs (by omega) hstop hline htokens

/-- Comments are found as characters, short and long. -/
theorem comment_agrees (h : s.At before ('-' :: '-' :: cs)) :
    Agrees s before '-' ('-' :: cs) s.comment (scanComment s.line cs) := by
  have hopened : (s.skip 2).At (before ++ ['-', '-']) cs := h.skip ['-', '-'] (by decide)
  rw [scanComment_eq]
  unfold comment
  simp only [hopened.ahead, commentLevel?_bytewise]
  cases hlevel : commentLevel? cs with
  | some level =>
    obtain ⟨opened, rfl, hlevel⟩ := commentLevel?_eq_some hlevel
    -- a long comment is a long bracket behind two dashes
    have hlong := longBracket_agrees hopened hlevel .unfinishedLongComment
    rw [show (s.skip 2).line = s.line from rfl] at hlong
    simp only [List.tail_cons]
    cases hbracket : Lexer.longBracket s.line .unfinishedLongComment level opened with
    | error e =>
      rw [hbracket] at hlong
      simp only [hlong, bind, Except.bind]
      rfl
    | ok long =>
      rw [hbracket] at hlong
      obtain ⟨stop, taken, rest, hcs, hlength, hpos, hvalue, hstop, hline, htokens⟩ := hlong
      rw [List.append_assoc] at hstop
      simp only [hvalue, bind, Except.bind, Utf8.lossy_encode]
      refine agrees_push (by rw [hcs]; rfl) ?_ hstop hline htokens
      simp [hlength]
  | none =>
    -- a short one ends before a line feed, which is no part of a wider character
    have hfeed : Whole (· == '\n') := whole_of_ascii (isAscii_of_beq (by decide))
    have hwhole : Whole (· != '\n') := fun c d hd => congrArg (!·) (hfeed c d hd)
    have hstop := hopened.skipWhile hwhole
    simp only [hstop.slice hopened.pos, bind, Except.bind]
    rw [List.append_assoc] at hstop
    refine agrees_push ?_ ?_ hstop rfl rfl
    · exact congrArg ('-' :: '-' :: ·) (run_split _ cs)
    · simp

/-- Strings between quotes are found as characters, and refused as such. -/
theorem quoted_agrees (h : s.At before (c :: cs)) (hc : IsAscii c) :
    Agrees s before c cs (s.quoted c) (scanQuoted s.line c cs) := by
  have hinside : (s.skip 1).At (before ++ [c]) cs :=
    h.skip [c] (by rw [bytewise_ascii hc]; rfl)
  rw [scanQuoted_eq]
  unfold quoted
  rw [hinside.ahead, readsSame hc]
  cases hrest : Lexer.quotedRest c s.line cs with
  | error e => rfl
  | ok rest =>
    have haccounts := quotedRest_accounts c s.line cs
    rw [hrest] at haccounts
    have hsplit := (List.take_append_drop rest.length cs).symm
    have hstop := (hsplit ▸ hinside).skip _ rfl
    rw [List.append_assoc] at hstop
    refine agrees_push (congrArg (c :: ·) hsplit) ?_ ⟨hstop.text, hstop.pos⟩ rfl rfl
    rw [List.singleton_append, List.length_cons, List.length_take_of_le haccounts.1]

/-- What is part of a character of several bytes, or such a character, is
none of those that tell tokens apart. -/
theorem plain_of_wide (hc : ¬ IsAscii c) : isSpace c = false ∧ c.isDigit = false ∧
    Word.isStart c = false ∧ ∀ d, IsAscii d → c ≠ d := by
  refine ⟨Bool.eq_false_iff.2 fun h => hc (isAscii_of_isSpace h),
    Bool.eq_false_iff.2 fun h => hc (isAscii_of_isDigit h),
    Bool.eq_false_iff.2 fun h => hc (isAscii_of_isPart (isPart_of_isStart h)), ?_⟩
  rintro d hd rfl
  exact hc hd

/-- No token but a symbol begins with a character of several bytes. -/
theorem scan_wide (hc : ¬ IsAscii c) (line : ℕ) (cs : List Char) :
    scan line c cs = scanSymbol line c cs := by
  obtain ⟨hspace, hdigit, hstart, hne⟩ := plain_of_wide hc
  simp [scan, hspace, hdigit, hstart, hne '.' (by decide), hne '-' (by decide),
    hne '"' (by decide), hne '\'' (by decide), hne '[' (by decide)]

/-- A byte of a wider character begins nothing but an operator. -/
theorem step_wide (hb : ¬ IsAscii b) (s : Scanner) : s.step b = s.operator := by
  obtain ⟨hspace, hdigit, hstart, hne⟩ := plain_of_wide hb
  simp [step, hspace, hdigit, hstart, hne '.' (by decide), hne '-' (by decide),
    hne '"' (by decide), hne '\'' (by decide), hne '[' (by decide)]

/-- **One step** over bytes is one scan of the characters. -/
theorem step_agrees (h : s.At before (c :: cs)) (hc : IsAscii c) :
    Agrees s before c cs (s.step c) (scan s.line c cs) := by
  have hdigit : (s.peek 1).any Char.isDigit = cs.head?.any Char.isDigit := by
    rw [h.peek_one_eq hc, any_head?_bytewise (whole_of_ascii fun _ => isAscii_of_isDigit)]
  have hnext {d : Char} (hd : IsAscii d) : (s.peek 1 == some d) = (cs.head? == some d) := by
    rw [Bool.eq_iff_iff, beq_iff_eq, beq_iff_eq]
    exact h.peek_one hc hd
  unfold step scan
  simp only [hdigit, hnext (d := '-') (by decide), hnext (d := '[') (by decide),
    hnext (d := '=') (by decide)]
  split_ifs with hspace hnumber hword hcomment hquote hlong
  · exact whitespace_agrees h hspace
  · exact number_agrees h
  · exact word_agrees h hword
  · rw [Bool.and_eq_true, beq_iff_eq, beq_iff_eq] at hcomment
    obtain ⟨rfl, hhyphen⟩ := hcomment
    obtain ⟨cs, rfl⟩ := List.head?_eq_some_iff.1 hhyphen
    exact comment_agrees h
  · exact quoted_agrees h hc
  · rw [Bool.and_eq_true, beq_iff_eq] at hlong
    obtain ⟨rfl, -⟩ := hlong
    exact longString_agrees h
  · exact operator_agrees h

/-- **A turn of the loop** finds what the scan of the characters finds. -/
theorem next?_agrees (h : s.At before (c :: cs)) :
    ∃ outcome, s.next? = some outcome ∧ Agrees s before c cs outcome (scan s.line c cs) := by
  by_cases hc : IsAscii c
  · have hpeek : s.peek 0 = some c := (h.peek_zero hc).2 rfl
    exact ⟨_, by rw [next?, hpeek, Option.map_some], step_agrees h hc⟩
  · obtain ⟨b, more, hbytes⟩ := List.exists_cons_of_ne_nil (bytewise_singleton_ne_nil c)
    have hb : ¬ IsAscii b := not_isAscii_of_mem hc (hbytes ▸ List.mem_cons_self)
    have hpeek : s.peek 0 = some b := by
      rw [h.peek_zero_eq, bytewise_cons, hbytes]
      rfl
    refine ⟨_, by rw [next?, hpeek, Option.map_some, step_wide hb], ?_⟩
    rw [scan_wide hc]
    exact operator_agrees h

/-! ## The loop -/

/-- A turn is taken where there is a character. -/
theorem turn {outcome : Except Halt Scanner} (h : s.At before after)
    (hnext : s.next? = some outcome) :
    ∃ c cs, after = c :: cs ∧ Agrees s before c cs outcome (scan s.line c cs) := by
  cases after with
  | nil =>
    rw [next?, h.peek_zero_eq, bytewise_nil] at hnext
    cases hnext
  | cons c cs =>
    obtain ⟨outcome', houtcome, hagrees⟩ := next?_agrees h
    obtain rfl : outcome = outcome' := Option.some.inj (hnext.symm.trans houtcome)
    exact ⟨c, cs, rfl, hagrees⟩

/-- **A turn that goes on** moves over some characters. -/
theorem turn_ok {s' : Scanner} (h : s.At before after) (hnext : s.next? = some (.ok s')) :
    ∃ taken rest, taken ≠ [] ∧ after = taken ++ rest ∧ s'.At (before ++ taken) rest := by
  obtain ⟨c, cs, rfl, hagrees⟩ := turn h hnext
  cases hscan : scan s.line c cs with
  | error e =>
    rw [hscan] at hagrees
    cases hagrees
  | ok found =>
    rw [hscan] at hagrees
    obtain ⟨s'', hs'', hat, -, -⟩ := hagrees
    obtain rfl : s' = s'' := Except.ok.inj hs''
    exact ⟨_, _, List.cons_ne_nil _ _, by rw [List.cons_append, List.take_append_drop], hat⟩

/-- A turn stops for no reason but a fault of the text. -/
theorem turn_error {halt : Halt} (h : s.At before after) (hnext : s.next? = some (.error halt)) :
    ∃ e, halt = .fault e := by
  obtain ⟨c, cs, rfl, hagrees⟩ := turn h hnext
  cases hscan : scan s.line c cs with
  | error e =>
    rw [hscan] at hagrees
    exact ⟨e, Except.error.inj hagrees⟩
  | ok found =>
    rw [hscan] at hagrees
    obtain ⟨s', hs', -⟩ := hagrees
    cases hs'

/-- **The loop** comes from one place between characters to the next. -/
theorem at_of_reaches {text : String} (h : (start text).Reaches s) :
    ∃ before after, before ++ after = text.toList ∧ s.At before after := by
  induction h with
  | refl => exact ⟨[], text.toList, rfl, at_start text⟩
  | tail _ hnext ih =>
    obtain ⟨before, after, htext, hat⟩ := ih
    obtain ⟨taken, rest, -, rfl, hat'⟩ := turn_ok hat hnext
    exact ⟨before ++ taken, rest, by rw [List.append_assoc, htext], hat'⟩

/-- A turn moves the scanner on. -/
theorem pos_lt {s' : Scanner} (h : s.At before after) (hnext : s.next? = some (.ok s')) :
    s.pos < s'.pos := by
  obtain ⟨taken, rest, hne, rfl, hat⟩ := turn_ok h hnext
  rw [h.pos, hat.pos, bytewise_append, List.length_append]
  exact Nat.lt_add_of_pos_right (length_bytewise_pos hne)

/-- A scanner ends one way only. -/
theorem Ends.unique {outcome outcome' : Except Halt (List Token)} (h : s.Ends outcome)
    (h' : s.Ends outcome') : outcome = outcome' := by
  induction h with
  | done hnext => cases h' <;> simp_all
  | halted hnext => cases h' <;> simp_all
  | turn hnext _ ih =>
    cases h' with
    | done hnext' => simp_all
    | halted hnext' => simp_all
    | turn hnext' hends =>
      obtain rfl := Except.ok.inj (Option.some.inj (hnext.symm.trans hnext'))
      exact ih hends

/-- **The loop ends** with the tokens of what is left, or a fault in it. -/
theorem ends_of_at : ∀ (cs : List Char) {s : Scanner} {before : List Char}, s.At before cs →
    s.Ends (((tokensFrom s.line cs).map (s.tokens ++ ·)).mapError .fault)
  | [], s, before, h => by
    have hnext : s.next? = none := by
      rw [next?, h.peek_zero_eq, bytewise_nil]
      rfl
    rw [tokensFrom]
    have hdone := Ends.done hnext
    simpa [Except.map, Except.mapError] using hdone
  | c :: cs, s, before, h => by
    obtain ⟨outcome, hnext, hagrees⟩ := next?_agrees h
    rw [tokensFrom]
    cases hscan : scan s.line c cs with
    | error e =>
      rw [hscan] at hagrees
      obtain rfl : outcome = .error (.fault e) := hagrees
      exact .halted hnext
    | ok found =>
      rw [hscan] at hagrees
      obtain ⟨s', rfl, hat, hline, htokens⟩ := hagrees
      have hends := ends_of_at (cs.drop found.more) hat
      rw [hline, htokens] at hends
      refine .turn hnext ?_
      simp only [bind, Except.bind]
      cases hrest : tokensFrom (s.line + found.lines) (cs.drop found.more) with
      | error e =>
        rw [hrest] at hends
        exact hends
      | ok tokens =>
        rw [hrest] at hends
        simpa [Except.map, Except.mapError] using hends
termination_by cs => cs.length
decreasing_by simp only [List.length_drop, List.length_cons]; omega

/-- **The loop over the bytes** of a text ends, and with what `tokenize` has. -/
theorem ends_iff {text : String} {outcome : Except Halt (List Token)} :
    (start text).Ends outcome ↔ outcome = (tokenize text).mapError .fault := by
  have hends : (start text).Ends ((tokenize text).mapError .fault) := by
    have hends := ends_of_at text.toList (at_start text)
    simp only [start, List.nil_append] at hends
    rw [tokenize]
    cases htokens : tokensFrom 1 text.toList <;> rw [htokens] at hends <;> exact hends
  exact ⟨fun houtcome => houtcome.unique hends, fun houtcome => houtcome ▸ hends⟩

/-! ## Comments in brackets -/

/-- The body of a comment in a bracket is text: reading it loses nothing. -/
theorem decode?_comment {body : List UInt8} (h : s.At before after)
    (hfirst : s.peek 0 = some '-') (hsecond : s.peek 1 = some '-')
    (hlevel : commentLevel? (s.skip 2).ahead = some level)
    (hbody : (s.skip 2).longBracket level .unfinishedLongComment = .ok (body, stop)) :
    Utf8.decode? body = some (Utf8.lossy body) := by
  obtain ⟨after, rfl⟩ := List.head?_eq_some_iff.1 ((h.peek_zero (by decide)).1 hfirst)
  obtain ⟨after, rfl⟩ := List.head?_eq_some_iff.1 ((h.peek_one (by decide) (by decide)).1 hsecond)
  have hopened : (s.skip 2).At (before ++ ['-', '-']) after := h.skip ['-', '-'] (by decide)
  rw [hopened.ahead, commentLevel?_bytewise] at hlevel
  obtain ⟨opened, rfl, hlevel⟩ := commentLevel?_eq_some hlevel
  have hlong := longBracket_agrees hopened hlevel .unfinishedLongComment
  cases hbracket : Lexer.longBracket (s.skip 2).line .unfinishedLongComment level opened with
  | error e =>
    rw [hbracket] at hlong
    cases hlong.symm.trans hbody
  | ok long =>
    rw [hbracket] at hlong
    obtain ⟨_, _, _, -, -, -, hvalue, -⟩ := hlong
    cases hvalue.symm.trans hbody
    rw [Utf8.decode?_encode, Utf8.lossy_encode]

/-- What holds of a scanner whenever a turn begins. -/
structure Sound (s : Scanner) : Prop where
  boundary : String.Pos.Raw.IsValid s.text ⟨s.pos⟩
  advances : ∀ s', s.next? = some (.ok s') → s.pos < s'.pos
  /-- No piece that the turn takes of the text cuts a character. -/
  whole : ∀ first last, s.next? ≠ some (.error (.split first last))
  comment : ∀ level body stop, s.peek 0 = some '-' → s.peek 1 = some '-' →
    commentLevel? (s.skip 2).ahead = some level →
    (s.skip 2).longBracket level .unfinishedLongComment = .ok (body, stop) →
    Utf8.decode? body = some (Utf8.lossy body)

theorem At.sound (h : s.At before after) : s.Sound where
  boundary := h.isValid
  advances _ hnext := pos_lt h hnext
  whole first last hnext := by
    obtain ⟨e, he⟩ := turn_error h hnext
    cases he
  comment _ _ _ hfirst hsecond hlevel hbody := decode?_comment h hfirst hsecond hlevel hbody

end Scanner

/-- **A scan of the bytes of a text** never splits a character and never
stalls: whenever a turn begins it is between two characters, the turn moves on
by a byte or more if it does not stop, and what stops it is a fault of the
text. So it comes to an end, and finds the tokens or the fault that are found
character by character. -/
theorem scanner_between_characters (text : String) :
    (∀ s, (Scanner.start text).Reaches s → s.text = text ∧ s.Sound) ∧
      ∀ outcome, (Scanner.start text).Ends outcome ↔
        outcome = (tokenize text).mapError Halt.fault := by
  refine ⟨fun s hreaches => ?_, fun _ => Scanner.ends_iff⟩
  obtain ⟨before, after, htext, hat⟩ := Scanner.at_of_reaches hreaches
  exact ⟨by rw [hat.text, htext, String.ofList_toList], hat.sound⟩

/-- A string that holds a character of two bytes twice, once behind a
backslash, and such a character in a comment. -/
theorem scanner_between_accents :
    (Scanner.start "'é\\é'--[[é]]").Ends (.ok [
      ⟨.string [0xC3, 0xA9, 0xC3, 0xA9], 1, .quoted '\''⟩, ⟨.comment "é", 1, .long 0⟩]) :=
  ((scanner_between_characters _).2 _).2 (by decide +kernel)

end LuaSugar
