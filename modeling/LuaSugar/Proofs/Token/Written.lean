import Mathlib
import LuaSugar.Lexeme
import LuaSugar.Token.Lexer
import LuaSugar.Proofs.Double.Decimal
import LuaSugar.Proofs.Text.Utf8
/-!
# Written tokens are read back

A token in its written form, at the front of a text, is scanned as that
token, and no more of the text is, unless the character behind it could
be part of it. Which characters may stand behind a token is `admits`.
-/

namespace LuaSugar

/-! ## Tokens that can be written -/

/-- A number, a comment or a long bracket begins, although the first
character is that of a symbol. -/
def Lexer.opensOther : List Char → Bool
  | '.' :: c :: _ => c.isDigit
  | '-' :: c :: _ => c == '-'
  | '[' :: c :: _ => c == '[' || c == '='
  | _ => false

/-- The characters behind a symbol in those that it begins. -/
def Operator.continuations (op : Operator) : List Char :=
  symbols.filterMap fun s =>
    if op.text.toList.isPrefixOf s.text.toList then (s.text.toList.drop op.text.length).head?
    else none

/-- A character that may stand behind a symbol: together they begin
neither another symbol nor anything else. -/
def Operator.admits (op : Operator) (c : Char) : Bool :=
  !op.continuations.contains c && !Lexer.opensOther (op.text.toList ++ [c])

namespace TokenKind

/-- A character that may stand behind a token and not become part of it. -/
def admits : TokenKind → Char → Bool
  | operator op, c => if op ∈ Operator.words then !Word.isPart c else op.admits c
  | keyword _, c | name _, c => !Word.isPart c
  | number _, c => !Word.isPart c && c != '.'
  | _, _ => true

/-- Tokens whose written form reads as themselves. -/
def Legible : TokenKind → Prop
  | name text => Word.isName text
  | number value => value.isNegative = false ∧ value.isFinite
  | comment _ | whitespace _ | invalid => False
  | _ => True

end TokenKind

theorem Word.isName_iff {text : String} :
    Word.isName text ↔ Word.isWord text ∧ Word.kind text = .name text := by
  simp [Word.isName]

namespace Lexer

variable {line : ℕ} {rest : List Char}

theorem takeWhile_eq_nil {p : Char → Bool} (h : ∀ c ∈ rest.head?, p c = false) :
    rest.takeWhile p = [] := by
  cases rest with
  | nil => rfl
  | cons c rest => exact List.takeWhile_cons_of_neg (by simp [h c rfl])

/-- What satisfies a predicate, and the next character does not. -/
theorem takeWhile_append {p : Char → Bool} {text : List Char} (htext : ∀ c ∈ text, p c)
    (h : ∀ c ∈ rest.head?, p c = false) : (text ++ rest).takeWhile p = text := by
  rw [List.takeWhile_append_of_pos htext, takeWhile_eq_nil h, List.append_nil]

/-- A scanner finds a token and takes the rest of its text. -/
def Finds (kind : TokenKind) (line : ℕ) (rest : List Char) (text : List Char) : Prop :=
  ∃ c cs found, text = c :: cs ∧ scan line c (cs ++ rest) = .ok found ∧ found.kind = kind ∧
    found.more = cs.length

/-! ## Words -/

theorem isSpace_of_isStart {c : Char} (h : Word.isStart c) : isSpace c = false := by
  by_contra hs
  rw [Bool.not_eq_false, isSpace] at hs
  simp only [Bool.or_eq_true, beq_iff_eq] at hs
  rcases hs with ((((rfl | rfl) | rfl) | rfl) | rfl) | rfl <;> exact absurd h (by decide)

theorem isAlpha_of_isDigit {c : Char} (h : c.isDigit) : c.isAlpha = false := by
  by_contra ha
  rw [Bool.not_eq_false] at ha
  simp only [Char.isAlpha, Char.isUpper, Char.isLower, Char.isDigit, Bool.or_eq_true,
    Bool.and_eq_true, decide_eq_true_eq, UInt32.le_iff_toNat_le] at h ha
  simp at h ha
  omega

theorem isDigit_of_isStart {c : Char} (h : Word.isStart c) : c.isDigit = false := by
  by_contra hd
  rw [Bool.not_eq_false] at hd
  simp only [Word.isStart, Bool.or_eq_true, beq_iff_eq] at h
  rcases h with h | rfl
  · exact absurd (isAlpha_of_isDigit hd) (by simp [h])
  · exact absurd hd (by decide)

theorem isPart_of_isStart {c : Char} (h : Word.isStart c) : Word.isPart c := by
  unfold Word.isStart at h
  unfold Word.isPart Char.isAlphanum
  rcases Bool.or_eq_true_iff.1 h with h | h <;> simp [h]

/-- A word is a start and parts. -/
theorem exists_cons_of_isWord {text : String} (h : Word.isWord text) :
    ∃ c cs, text.toList = c :: cs ∧ Word.isStart c ∧ ∀ d ∈ c :: cs, Word.isPart d := by
  unfold Word.isWord at h
  cases htext : text.toList with
  | nil => simp [htext] at h
  | cons c cs =>
    rw [htext] at h
    obtain ⟨hc, hcs⟩ := Bool.and_eq_true_iff.1 h
    exact ⟨c, cs, rfl, hc, List.forall_mem_cons.2 ⟨isPart_of_isStart hc, List.all_eq_true.1 hcs⟩⟩

/-- **Words** are read as what they spell. -/
theorem finds_word {text : String} (h : Word.isWord text)
    (hrest : ∀ c ∈ rest.head?, Word.isPart c = false) :
    Finds (Word.kind text) line rest text.toList := by
  obtain ⟨c, cs, htext, hc, hparts⟩ := exists_cons_of_isWord h
  have hdot : (c == '.') = false := by
    by_contra hdot
    rw [Bool.not_eq_false, beq_iff_eq] at hdot
    subst hdot
    exact absurd hc (by decide)
  have htake : ((c :: cs) ++ rest).takeWhile Word.isPart = c :: cs := takeWhile_append hparts hrest
  refine ⟨c, cs, scanWord (c :: (cs ++ rest)), htext, ?_, ?_, ?_⟩
  · rw [scan, isSpace_of_isStart hc, isDigit_of_isStart hc, hdot, hc]
    rfl
  · rw [scanWord, ← List.cons_append, htake, ← htext, String.ofList_toList]
    rfl
  · rw [scanWord, ← List.cons_append, htake]
    rfl

theorem finds_keyword (word : Keyword) (hrest : ∀ c ∈ rest.head?, Word.isPart c = false) :
    Finds (.keyword word) line rest word.text.toList := by
  have hkind : Word.kind word.text = .keyword word := by cases word <;> decide
  rw [← hkind]
  exact finds_word (by cases word <;> decide) hrest

theorem finds_wordOperator {op : Operator} (hop : op ∈ Operator.words)
    (hrest : ∀ c ∈ rest.head?, Word.isPart c = false) :
    Finds (.operator op) line rest op.text.toList := by
  have hword : ∀ op ∈ Operator.words, Word.kind op.text = .operator op ∧ Word.isWord op.text := by
    decide
  rw [← (hword op hop).1]
  exact finds_word (hword op hop).2 hrest

/-! ## Symbols -/

/-- In the table of symbols, none begins one behind it. -/
theorem symbols_pairwise :
    Operator.symbols.Pairwise fun s op => ¬ s.text.toList <+: op.text.toList := by
  decide

/-- The symbol at the front of a text is the longest. -/
theorem ofSymbol?_append {op : Operator} (hop : op ∈ Operator.symbols)
    (hrest : ∀ c ∈ rest.head?,
      ∀ s ∈ Operator.symbols, ¬ (op.text.toList ++ [c]) <+: s.text.toList) :
    Operator.ofSymbol? (op.text.toList ++ rest) = some op := by
  obtain ⟨front, back, hsymbols⟩ := List.append_of_mem hop
  refine List.find?_eq_some_iff_append.2 ⟨by simp, front, back, hsymbols, fun s hs => ?_⟩
  have hpair := symbols_pairwise
  rw [hsymbols, List.pairwise_append] at hpair
  have hno : ¬ s.text.toList <+: op.text.toList := hpair.2.2 s hs op (by simp)
  rw [Bool.not_eq_true', Bool.eq_false_iff]
  intro hahead
  have hahead := List.isPrefixOf_iff_prefix.1 hahead
  rcases List.prefix_or_prefix_of_prefix hahead (List.prefix_append _ _) with h | ⟨more, hmore⟩
  · exact hno h
  · cases more with
    | nil => exact hno (by simp [← hmore])
    | cons c more =>
      rw [← hmore, List.prefix_append_right_inj] at hahead
      obtain ⟨tail, htail⟩ := hahead
      refine hrest c (by simp [← htail]) s (by simp [hsymbols, hs]) ⟨more, ?_⟩
      rw [← hmore, List.append_assoc, List.singleton_append]

/-- **A symbol's scanner** is chosen by two characters at most. -/
theorem scan_symbol {c : Char} {cs : List Char} (hspace : isSpace c = false)
    (hdigit : c.isDigit = false) (hstart : Word.isStart c = false) (hquote : c ≠ '"' ∧ c ≠ '\'')
    (hother : opensOther (c :: cs) = false) : scan line c cs = scanSymbol line c cs := by
  -- a point, a dash and a bracket may begin something else, but not here
  have hdot : (c == '.' && cs.head?.any Char.isDigit) = false := by
    by_cases hc : c = '.'
    · subst hc
      cases cs with
      | nil => rfl
      | cons d ds => simpa [opensOther] using hother
    · simp [hc]
  have hcomment : (c == '-' && cs.head? == some '-') = false := by
    by_cases hc : c = '-'
    · subst hc
      cases cs with
      | nil => rfl
      | cons d ds => simpa [opensOther] using hother
    · simp [hc]
  have hbracket : (c == '[' && (cs.head? == some '[' || cs.head? == some '=')) = false := by
    by_cases hc : c = '['
    · subst hc
      cases cs with
      | nil => rfl
      | cons d ds => simpa [opensOther] using hother
    · simp [hc]
  unfold scan
  rw [hspace, hdigit, hdot, hstart, hcomment, hbracket]
  simp [hquote]

/-- What is not a symbol is seen in two characters. -/
theorem opensOther_cons_cons (c d : Char) (more more' : List Char) :
    opensOther (c :: d :: more) = opensOther (c :: d :: more') := by
  unfold opensOther
  split <;> simp_all

theorem opensOther_append {text : List Char} (htext : text ≠ []) :
    opensOther (text ++ rest) = opensOther (text ++ rest.head?.toList) := by
  match text, rest with
  | [c], [] => rfl
  | [c], d :: rest => exact opensOther_cons_cons c d rest []
  | c :: d :: text, rest => exact opensOther_cons_cons c d _ _

/-- **Symbols** are read as themselves. -/
theorem finds_symbol {op : Operator} (hop : op ∈ Operator.symbols)
    (hrest : ∀ c ∈ rest.head?, op.admits c) :
    Finds (.operator op) line rest op.text.toList := by
  have hstarts : ∀ op ∈ Operator.symbols, op.text.toList.head?.any fun c => !isSpace c &&
      !c.isDigit && !Word.isStart c && c != '"' && c != '\'' := by
    decide
  have hplain : ∀ op ∈ Operator.symbols, opensOther op.text.toList = false := by
    decide
  obtain ⟨c, hc, hstart⟩ := (Option.any_eq_true ..).1 (hstarts op hop)
  obtain ⟨cs, htext⟩ : ∃ cs, op.text.toList = c :: cs := List.head?_eq_some_iff.1 hc
  simp only [Bool.and_eq_true, Bool.not_eq_true', bne_iff_ne] at hstart
  obtain ⟨⟨⟨⟨hspace, hdigit⟩, hstart⟩, hdouble⟩, hsingle⟩ := hstart
  -- what follows makes no comment, number or long bracket of the symbol
  have hother : opensOther (c :: (cs ++ rest)) = false := by
    rw [← List.cons_append, ← htext, opensOther_append (by simp [htext])]
    cases rest with
    | nil => simpa using hplain op hop
    | cons d rest =>
      have hd := hrest d rfl
      rw [Operator.admits, Bool.and_eq_true, Bool.not_eq_true', Bool.not_eq_true'] at hd
      exact hd.2
  -- nor a longer symbol
  have hlongest : Operator.ofSymbol? (c :: (cs ++ rest)) = some op := by
    rw [← List.cons_append, ← htext]
    refine ofSymbol?_append hop fun d hd s hs hahead => ?_
    have hd := hrest d hd
    rw [Operator.admits, Bool.and_eq_true, Bool.not_eq_true', List.contains_eq_mem,
      decide_eq_false_iff_not] at hd
    obtain ⟨tail, htail⟩ := hahead
    refine hd.1 (List.mem_filterMap.2 ⟨s, hs, ?_⟩)
    rw [← htail, List.append_assoc, if_pos (by simp), ← String.length_toList, List.drop_left]
    rfl
  refine ⟨c, cs, .plain (.operator op) op.text.toList, htext, ?_, rfl, ?_⟩
  · rw [scan_symbol hspace hdigit hstart ⟨hdouble, hsingle⟩ hother, scanSymbol, hlongest]
  · rw [Scan.plain, htext]
    rfl

/-! ## Numbers -/

theorem isSpace_of_isDigit {c : Char} (h : c.isDigit) : isSpace c = false := by
  by_contra hs
  rw [Bool.not_eq_false, isSpace] at hs
  simp only [Bool.or_eq_true, beq_iff_eq] at hs
  rcases hs with ((((rfl | rfl) | rfl) | rfl) | rfl) | rfl <;> exact absurd h (by decide)

theorem isDigitOrSeparator_of_isPart {c : Char} (h : Word.isPart c = false) :
    isDigitOrSeparator c = false := by
  simp only [Word.isPart, Char.isAlphanum, Bool.or_eq_false_iff] at h
  simp [isDigitOrSeparator, h]

/-- No radix is announced without a letter. -/
theorem radix?_eq_none {c : Char} {cs : List Char} (h : ∀ d ∈ cs.head?, d.isAlpha = false) :
    radix? c cs = none := by
  unfold radix?
  split
  any_goals rfl
  all_goals exact absurd (h _ rfl) (by decide)

/-- What stands behind a numeral has no exponent. -/
theorem exponentPart_eq_nil (h : ∀ c ∈ rest.head?, Word.isPart c = false) :
    exponentPart rest = [] := by
  cases rest with
  | nil => rfl
  | cons c rest =>
    have hmark : (c == 'e' || c == 'E') = false := by
      by_contra hc
      rw [Bool.not_eq_false, Bool.or_eq_true, beq_iff_eq, beq_iff_eq] at hc
      rcases hc with rfl | rfl <;> exact absurd (h _ rfl) (by decide)
    simp [exponentPart, hmark]

variable {whole fraction : List Char}

/-- **Numerals** fall into the digits before and behind their point. -/
theorem decimalParts_append (hdigits : ∀ c ∈ whole ++ fraction, c.isDigit)
    (hrest : ∀ c ∈ rest.head?, Word.isPart c = false ∧ c ≠ '.') :
    decimalParts ((if fraction = [] then whole else whole ++ '.' :: fraction) ++ rest) =
      ⟨whole, if fraction = [] then [] else '.' :: fraction, []⟩ := by
  have hwhole : ∀ c ∈ whole, isDigitOrSeparator c := fun c hc => by
    simp [isDigitOrSeparator, hdigits c (List.mem_append_left _ hc)]
  have hbehind : ∀ c ∈ rest.head?, isDigitOrSeparator c = false :=
    fun c hc => isDigitOrSeparator_of_isPart (hrest c hc).1
  have hexponent := exponentPart_eq_nil fun c hc => (hrest c hc).1
  cases fraction with
  | nil =>
    -- without a fraction nothing may look like one
    have hpoint : fractionPart rest = [] := by
      unfold fractionPart
      split
      · rfl
      · exact absurd rfl (hrest '.' rfl).2
      · rfl
    simp only [if_true, decimalParts]
    rw [takeWhile_append hwhole hbehind, List.drop_left, hpoint, List.length_nil, List.drop_zero,
      hexponent]
  | cons d fraction =>
    have hd : d.isDigit := hdigits d (by simp)
    have hfraction : ∀ c ∈ d :: fraction, isDigitOrSeparator c := fun c hc => by
      simp [isDigitOrSeparator, hdigits c (List.mem_append_right _ hc)]
    have hpoint : fractionPart ('.' :: (d :: fraction ++ rest)) = '.' :: d :: fraction := by
      unfold fractionPart
      split
      · rename_i heq
        simp only [List.cons_append, List.cons.injEq, true_and] at heq
        rw [heq.1] at hd
        exact absurd hd (by decide)
      · rename_i heq
        rw [← (List.cons_eq_cons.1 heq).2, takeWhile_append hfraction hbehind]
      · rename_i hno
        exact absurd rfl (hno _)
    have htake : (whole ++ '.' :: (d :: fraction ++ rest)).takeWhile isDigitOrSeparator = whole :=
      takeWhile_append hwhole (by simp [isDigitOrSeparator])
    simp only [reduceCtorEq, if_false, decimalParts, List.append_assoc, List.cons_append] at htake ⊢
    rw [htake, List.drop_left]
    simp only [List.cons_append] at hpoint
    rw [hpoint]
    simp [hexponent]

/-- The value of a numeral is that of its digits. -/
theorem DecimalParts.value?_eq (hwhole : whole ≠ [])
    (hdigits : ∀ c ∈ whole ++ fraction, c.isDigit) :
    (⟨whole, if fraction = [] then [] else '.' :: fraction, []⟩ : DecimalParts).value? =
      some (Decimal.toDouble ⟨Nat.ofDigitChars 10 (whole ++ fraction) 0, -fraction.length⟩) := by
  have hfront : whole.filter Char.isDigit = whole :=
    List.filter_eq_self.2 fun c hc => hdigits c (List.mem_append_left _ hc)
  have hback : (if fraction = [] then [] else '.' :: fraction).filter Char.isDigit = fraction := by
    have hall : fraction.filter Char.isDigit = fraction :=
      List.filter_eq_self.2 fun c hc => hdigits c (List.mem_append_right _ hc)
    split
    · rename_i hnil
      rw [hnil, List.filter_nil]
    · rw [List.filter_cons_of_neg (by decide), hall]
  have hpower : Nat.ofDigitChars 10 [] 0 = 0 := rfl
  simp [DecimalParts.value?, hfront, hback, hwhole, hpower]

/-- **Numbers** are read as what they are. -/
theorem finds_number {value : Double} (hvalue : value.isNegative = false ∧ value.isFinite)
    (hrest : ∀ c ∈ rest.head?, Word.isPart c = false ∧ c ≠ '.') :
    Finds (.number value) line rest value.plainText.toList := by
  obtain ⟨whole, fraction, hwhole, hdigits, htext, hdouble⟩ :=
    Double.plainText_eq hvalue.1 hvalue.2
  obtain ⟨c, hhead, hc⟩ := (Double.plainText_ends hvalue.1 hvalue.2).1
  obtain ⟨cs, hcs⟩ := List.head?_eq_some_iff.1 hhead
  -- a plain numeral has no letters, so that no radix is read
  have hletters : ∀ d ∈ c :: cs, d.isAlpha = false := by
    rw [← hcs, htext]
    intro d hd
    have hd : d.isDigit ∨ d = '.' := by
      split at hd
      · exact .inl (hdigits d (List.mem_append_left _ hd))
      · rcases List.mem_append.1 hd with hd | hd
        · exact .inl (hdigits d (List.mem_append_left _ hd))
        · rcases List.mem_cons.1 hd with hd | hd
          · exact .inr hd
          · exact .inl (hdigits d (List.mem_append_right _ hd))
    rcases hd with hd | rfl
    · exact isAlpha_of_isDigit hd
    · decide
  have hradix : radix? c (cs ++ rest) = none := by
    refine radix?_eq_none fun d hd => ?_
    cases cs with
    | nil =>
      have hpart := (hrest d hd).1
      simp only [Word.isPart, Char.isAlphanum, Bool.or_eq_false_iff] at hpart
      exact hpart.1.1
    | cons e es =>
      obtain rfl : e = d := Option.some.inj hd
      exact hletters e (by simp)
  have hparts := decimalParts_append hdigits hrest
  rw [← htext, hcs] at hparts
  have hspelled : (⟨whole, if fraction = [] then [] else '.' :: fraction, []⟩ :
      DecimalParts).text = c :: cs := by
    rw [← hcs, htext, DecimalParts.text, List.append_nil]
    split <;> simp
  -- and nothing behind it is read as part of it
  have htail : ((c :: (cs ++ rest)).drop (c :: cs).length).takeWhile Word.isPart = [] := by
    rw [← List.cons_append, List.drop_left]
    exact takeWhile_eq_nil fun d hd => (hrest d hd).1
  refine ⟨c, cs, .plain (.number value) (c :: cs), hcs, ?_, rfl, rfl⟩
  rw [List.cons_append] at hparts
  unfold scan scanNumber
  rw [isSpace_of_isDigit hc, hc, hradix]
  simp only [Bool.true_or, if_true, Bool.false_eq_true, if_false, hparts, hspelled, htail,
    List.isEmpty_nil, DecimalParts.value?_eq hwhole hdigits, hdouble]

/-! ## Strings -/

/-- A text between double quotes stands for some bytes, whatever is
behind it. -/
def Quotes (text : List Char) (bytes : List UInt8) : Prop :=
  ∀ line rest e, quotedRest '"' line rest = .ok e →
    quotedRest '"' line (text ++ rest) = .ok ⟨bytes ++ e.bytes, text.length + e.length, e.lines⟩

theorem Quotes.nil : Quotes [] [] := by
  intro line rest e he
  simpa using he

theorem Quotes.append {text text' : List Char} {bytes bytes' : List UInt8} (h : Quotes text bytes)
    (h' : Quotes text' bytes') : Quotes (text ++ text') (bytes ++ bytes') := by
  intro line rest e he
  rw [List.append_assoc, h line _ _ (h' line rest e he)]
  simp [Nat.add_assoc]

theorem Quotes.flatMap {α : Type} {text : α → List Char} {bytes : α → List UInt8} {items : List α}
    (h : ∀ item ∈ items, Quotes (text item) (bytes item)) :
    Quotes (items.flatMap text) (items.flatMap bytes) := by
  induction items with
  | nil => exact .nil
  | cons item items ih =>
    rw [List.forall_mem_cons] at h
    exact h.1.append (ih h.2)

/-- An escape stands for its bytes. -/
theorem quotes_escape {text : List Char} {bytes : List UInt8}
    (h : ∀ line rest, escape line (text ++ rest) = .ok ⟨bytes, text.length, 0⟩) :
    Quotes ('\\' :: text) bytes := by
  intro line rest e he
  rw [List.cons_append, quotedRest]
  simp [h, he, bind, Except.bind, Nat.add_comm]

/-- Bytes are escaped with three digits. -/
theorem decimalEscape_eq : ∀ n < 256, ∃ a b c : Char, LuaSugar.decimalEscape n = ['\\', a, b, c] ∧
    (a.isDigit ∧ b.isDigit ∧ c.isDigit) ∧ Nat.ofDigitChars 10 [a, b, c] 0 = n := by
  have hdigits : ∀ n < 256, LuaSugar.decimalEscape n =
        ['\\', (n / 100).digitChar, (n / 10 % 10).digitChar, (n % 10).digitChar] ∧
      ((n / 100).digitChar.isDigit ∧ (n / 10 % 10).digitChar.isDigit ∧
        (n % 10).digitChar.isDigit) ∧
      Nat.ofDigitChars 10 [(n / 100).digitChar, (n / 10 % 10).digitChar, (n % 10).digitChar] 0 =
        n := by
    decide +kernel
  exact fun n hn => ⟨_, _, _, hdigits n hn⟩

/-- Escapes with a meaning only when more is read. -/
theorem escape_short {line : ℕ} {c : Char} {cs : List Char}
    (h : c ∉ ['\n', '\r', 'z', 'x', 'u']) : escape line (c :: cs) =
      if c.isDigit then decimalEscape line (c :: cs)
      else match letterEscape? c with
        | some byte => .ok ⟨[byte], 1, 0⟩
        | none => .ok ⟨String.utf8EncodeChar c, 1, 0⟩ := by
  simp only [List.mem_cons, List.not_mem_nil, or_false, not_or] at h
  unfold escape
  split
  case h_8 =>
    rename_i heq
    obtain ⟨rfl, rfl⟩ := List.cons_eq_cons.1 heq
    rfl
  all_goals simp_all

theorem quotes_decimal (byte : UInt8) : Quotes (LuaSugar.decimalEscape byte.toNat) [byte] := by
  obtain ⟨a, b, c, htext, ⟨ha, hb, hc⟩, hvalue⟩ := decimalEscape_eq byte.toNat byte.toNat_lt
  rw [htext]
  refine quotes_escape fun line rest => ?_
  have hmark : a ∉ ['\n', '\r', 'z', 'x', 'u'] := by
    intro hmem
    simp only [List.mem_cons, List.not_mem_nil, or_false] at hmem
    rcases hmem with rfl | rfl | rfl | rfl | rfl <;> exact absurd ha (by decide)
  have hlt : byte.toNat < 256 := byte.toNat_lt
  rw [List.cons_append, escape_short hmark, if_pos ha]
  simp [decimalEscape, ha, hb, hc, hvalue, hlt]

theorem quotes_letter {c : Char} {bytes : List UInt8} (h : c ∉ ['\n', '\r', 'z', 'x', 'u'])
    (hdigit : c.isDigit = false)
    (hbytes : (letterEscape? c).elim (String.utf8EncodeChar c) ([·]) = bytes) :
    Quotes ['\\', c] bytes := by
  refine quotes_escape fun line rest => ?_
  rw [List.singleton_append, escape_short h, hdigit, ← hbytes]
  cases letterEscape? c <;> rfl

theorem quotes_char (c : Char) : Quotes (quoteChar c) (String.utf8EncodeChar c) := by
  unfold quoteChar
  split
  any_goals exact quotes_letter (by decide) (by decide) (by decide)
  rename_i hquote hbackslash hbreak _ _
  replace hquote : c ≠ '"' := hquote
  replace hbackslash : c ≠ '\\' := hbackslash
  replace hbreak : c ≠ '\n' := hbreak
  split
  · have hlt : c.toNat < 128 := by omega
    have hbytes : String.utf8EncodeChar c = [UInt8.ofNat c.toNat] :=
      String.utf8EncodeChar_eq_singleton (Char.utf8Size_eq_one_iff.2 (by
        rw [UInt32.le_iff_toNat_le]
        exact Nat.le_of_lt_succ hlt))
    have hbyte : (UInt8.ofNat c.toNat).toNat = c.toNat := by
      rw [UInt8.toNat_ofNat', Nat.mod_eq_of_lt (by omega)]
    have hescaped := quotes_decimal (UInt8.ofNat c.toNat)
    rwa [hbyte, ← hbytes] at hescaped
  · intro line rest e he
    rw [List.singleton_append, quotedRest]
    simp [hquote, hbackslash, hbreak, he, bind, Except.bind]

theorem quotes_piece (piece : Utf8.Piece) : Quotes (quotePiece piece) piece.bytes := by
  cases piece with
  | char c => exact quotes_char c
  | invalid bytes =>
    have hbytes := Quotes.flatMap fun byte (_ : byte ∈ bytes) => quotes_decimal byte
    rwa [List.flatMap_singleton'] at hbytes

/-- A byte string between quotes is scanned whole, and without a line
break. -/
theorem scan_quoteBytes (bytes : List UInt8) : ∃ cs : List Char,
    (quoteBytes bytes).toList = '"' :: cs ∧ ∀ line rest, scan line '"' (cs ++ rest) =
      .ok ⟨.string bytes, .quoted '"', cs.length, 0⟩ := by
  have hbody := Quotes.flatMap fun piece (_ : piece ∈ Utf8.pieces bytes) => quotes_piece piece
  rw [Utf8.pieces_bytes] at hbody
  refine ⟨(Utf8.pieces bytes).flatMap quotePiece ++ ['"'], ?_, fun line rest => ?_⟩
  · rw [quoteBytes, String.toList_ofList]
    rfl
  · have hclosing : quotedRest '"' line ('"' :: rest) = .ok ⟨[], 1, 0⟩ := by
      simp [quotedRest]
    have hscan : scan line '"' ((Utf8.pieces bytes).flatMap quotePiece ++ '"' :: rest) =
        scanQuoted line '"' ((Utf8.pieces bytes).flatMap quotePiece ++ '"' :: rest) := rfl
    rw [List.append_assoc, List.singleton_append, hscan, scanQuoted, hbody line _ _ hclosing]
    simp [bind, Except.bind]

/-- **Strings** are read as their bytes. -/
theorem finds_string (bytes : List UInt8) :
    Finds (.string bytes) line rest (quoteBytes bytes).toList := by
  obtain ⟨cs, htext, hscan⟩ := scan_quoteBytes bytes
  exact ⟨'"', cs, _, htext, hscan line rest, rfl, rfl⟩

/-! ## Tokens -/

/-- **Written tokens** are read back, and no more than they are. -/
theorem finds_written {kind : TokenKind} (h : kind.Legible)
    (hrest : ∀ c ∈ rest.head?, kind.admits c) :
    Finds kind line rest kind.written.toList := by
  cases kind with
  | comment text => exact h.elim
  | whitespace text => exact h.elim
  | invalid => exact h.elim
  | operator op =>
    by_cases hop : op ∈ Operator.words
    · simp only [TokenKind.admits, hop, if_true, Bool.not_eq_true'] at hrest
      exact finds_wordOperator hop hrest
    -- what is no word is a symbol
    · have hsymbol : ∀ op ∉ Operator.words, op ∈ Operator.symbols := by
        intro op
        cases op <;> decide
      simp only [TokenKind.admits, hop, if_false] at hrest
      exact finds_symbol (hsymbol op hop) hrest
  | keyword word =>
    simp only [TokenKind.admits, Bool.not_eq_true'] at hrest
    exact finds_keyword word hrest
  | name text =>
    simp only [TokenKind.admits, Bool.not_eq_true'] at hrest
    have hname := Word.isName_iff.1 h
    have hword : Finds (Word.kind text) line rest text.toList := finds_word hname.1 hrest
    rwa [hname.2] at hword
  | number value =>
    simp only [TokenKind.admits, Bool.and_eq_true, Bool.not_eq_true', bne_iff_ne] at hrest
    exact finds_number h hrest
  | string bytes => exact finds_string bytes

end Lexer

end LuaSugar
