import LuaSugar.Token

/-!
# From text to tokens

`tokenize` cuts a source text into tokens, trivia included. A scanner looks at the text from a
token's first character on and answers what the token is and **how many characters it takes
after the first**; the loop drops that many and goes on. Hence no scanner can stall the loop or
cut a character in two, whatever it decides.

Scanners also answer how many lines the token's text advances, which is not always its number of
line feeds: an escaped carriage return is a line break of its own.
-/

namespace LuaSugar

-- the powers of the core library, whatever is imported beside it
attribute [local instance (high)] instPowNat

/-- Why a text has no tokens. -/
inductive LexFault where
  | malformedNumber (text : String)
  | invalidLongDelimiter
  | unfinishedLongString
  | unfinishedLongComment
  | hexDigitExpected
  | codePointNotOpened
  | codePointNotClosed
  | codePointTooLarge
  | decimalEscapeTooLarge
  | unexpectedSymbol (c : Char)
deriving DecidableEq, Repr

/-- A lexical fault and the line it was found on. -/
structure LexError where
  line : Nat
  fault : LexFault
deriving DecidableEq, Repr

/-- Wording of a lexical fault. -/
def LexFault.message : LexFault → String
  | malformedNumber text => "malformed number near '" ++ text ++ "'"
  | invalidLongDelimiter => "invalid long string delimiter"
  | unfinishedLongString => "unfinished long string"
  | unfinishedLongComment => "unfinished long comment"
  | hexDigitExpected => "hexadecimal digit expected"
  | codePointNotOpened => "missing '\x7b' in \\u\x7bxxxx\x7d"
  | codePointNotClosed => "missing '\x7d' in \\u\x7bxxxx\x7d"
  | codePointTooLarge => "UTF-8 value too large"
  | decimalEscapeTooLarge => "decimal escape too large"
  | unexpectedSymbol c => "unexpected symbol '" ++ c.toString ++ "'"

namespace Lexer

/-! ## Character classes -/

/-- Blank characters, line breaks included. -/
def isSpace (c : Char) : Bool :=
  c == ' ' || c == '\t' || c == '\r' || c == '\n' || c == '\x0b' || c == '\x0c'

/-- A digit, or the separator that may stand among digits. -/
def isDigitOrSeparator (c : Char) : Bool := c.isDigit || c == '_'

/-- The value of a hexadecimal digit. -/
def hexValue? (c : Char) : Option Nat :=
  if c.isDigit then some (c.toNat - 48)
  else if 'a' ≤ c ∧ c ≤ 'f' then some (c.toNat - 87)
  else if 'A' ≤ c ∧ c ≤ 'F' then some (c.toNat - 55)
  else none

/-- Line feeds in a text. -/
def lineFeeds (cs : List Char) : Nat := cs.count '\n'

/-- What a scanner found: the token, the characters it takes after its first, and the lines it
advances. -/
structure Scan where
  kind : TokenKind
  spelling : Spelling
  more : Nat
  lines : Nat

/-- A token spelled plainly by `text`. -/
def Scan.plain (kind : TokenKind) (text : List Char) : Scan :=
  ⟨kind, .plain, text.length - 1, lineFeeds text⟩

/-! ## Words and symbols -/

def scanWord (cs : List Char) : Scan :=
  let text := cs.takeWhile Word.isPart
  .plain (Word.kind (String.ofList text)) text

def scanWhitespace (cs : List Char) : Scan :=
  let text := cs.takeWhile isSpace
  .plain (.whitespace (String.ofList text)) text

def scanSymbol (line : Nat) (c : Char) (cs : List Char) : Except LexError Scan :=
  match Operator.ofSymbol? (c :: cs) with
  | some op => .ok (.plain (.operator op) op.text.toList)
  | none => .error ⟨line, .unexpectedSymbol c⟩

/-! ## Numbers -/

/-- The number written by digits of a radix, if it fits 64 bits. -/
def radixValue? (radix : Nat) (digits : List Char) : Option Double := do
  let values ← digits.mapM fun c => (hexValue? c).filter (· < radix)
  let value := values.foldl (fun n d => radix * n + d) 0
  if digits.isEmpty || 2 ^ (64 : Nat) ≤ value then none else some (Double.ofNat value)

/-- Parts of a decimal literal as written: the digits before the point, the fraction with its
point, and the exponent with its mark and sign. -/
structure DecimalParts where
  whole : List Char
  fraction : List Char
  exponent : List Char

/-- The text of a decimal literal. -/
def DecimalParts.text (p : DecimalParts) : List Char := p.whole ++ p.fraction ++ p.exponent

/-- The fraction at the front of a text. A point before another point belongs to the operator
`..` instead. -/
def fractionPart : List Char → List Char
  | '.' :: '.' :: _ => []
  | '.' :: rest => '.' :: rest.takeWhile isDigitOrSeparator
  | _ => []

/-- The exponent at the front of a text, complete or not. -/
def exponentPart : List Char → List Char
  | mark :: rest =>
    if mark == 'e' || mark == 'E' then
      match rest with
      | sign :: digits =>
        if sign == '+' || sign == '-' then
          mark :: sign :: digits.takeWhile isDigitOrSeparator
        else mark :: rest.takeWhile isDigitOrSeparator
      | [] => [mark]
    else []
  | [] => []

/-- The decimal literal at the front of a text. -/
def decimalParts (cs : List Char) : DecimalParts :=
  let whole := cs.takeWhile isDigitOrSeparator
  let cs := cs.drop whole.length
  let fraction := fractionPart cs
  let cs := cs.drop fraction.length
  ⟨whole, fraction, exponentPart cs⟩

/-- The value of a decimal literal; an exponent has to have a digit. -/
def DecimalParts.value? (p : DecimalParts) : Option Double :=
  let whole := p.whole.filter Char.isDigit
  let fraction := p.fraction.filter Char.isDigit
  let power := p.exponent.filter Char.isDigit
  if whole.isEmpty && fraction.isEmpty || !p.exponent.isEmpty && power.isEmpty then none
  else
    let power : Int := Nat.ofDigitChars 10 power 0
    let power := if p.exponent.contains '-' then -power else power
    some (Decimal.toDouble
      ⟨Nat.ofDigitChars 10 (whole ++ fraction) 0, power - fraction.length⟩)

/-- The radix a literal announces by its first two characters. -/
def radix? (c : Char) (cs : List Char) : Option Nat :=
  match c, cs with
  | '0', 'x' :: _ | '0', 'X' :: _ => some 16
  | '0', 'b' :: _ | '0', 'B' :: _ => some 2
  | _, _ => none

def scanNumber (line : Nat) (c : Char) (cs : List Char) : Except LexError Scan :=
  let finish (value? : Option Double) (text : List Char) : Except LexError Scan :=
    match value? with
    | some value => .ok (.plain (.number value) text)
    | none => .error ⟨line, .malformedNumber (String.ofList text)⟩
  match radix? c cs with
  | some radix =>
    let digits := (cs.drop 1).takeWhile Word.isPart
    finish (radixValue? radix (digits.filter (· != '_'))) (c :: cs.take 1 ++ digits)
  | none =>
    let parts := decimalParts (c :: cs)
    let text := parts.text
    let tail := ((c :: cs).drop text.length).takeWhile Word.isPart
    if tail.isEmpty then finish parts.value? text else finish none (text ++ tail)

/-! ## Long brackets -/

/-- The level of the long bracket that a text opens after its first `[`. -/
def longLevel? (cs : List Char) : Option Nat :=
  let level := (cs.takeWhile (· == '=')).length
  match cs.drop level with
  | '[' :: _ => some level
  | _ => none

/-- Whether a text closes a long bracket after its first `]`. -/
def closesLong (level : Nat) (cs : List Char) : Bool :=
  (List.replicate level '=' ++ [']']).isPrefixOf cs

/-- The characters before the closing long bracket. -/
def longBody? (level : Nat) : List Char → Option (List Char)
  | [] => none
  | c :: cs => if c == ']' && closesLong level cs then some [] else (longBody? level cs).map (c :: ·)

/-- The line break that may directly follow an opening long bracket and is not part of the
body. -/
def leadingBreak : List Char → List Char
  | '\r' :: '\n' :: _ => ['\r', '\n']
  | '\r' :: _ => ['\r']
  | '\n' :: _ => ['\n']
  | _ => []

/-- A long bracket: its body and the length of the whole, brackets included. -/
structure LongBracket where
  body : List Char
  length : Nat
  lines : Nat

/-- The long bracket of a level whose first `[` stands before `cs`. -/
def longBracket (line : Nat) (fault : LexFault) (level : Nat) (cs : List Char) :
    Except LexError LongBracket :=
  let opened := cs.drop (level + 1)
  let skipped := leadingBreak opened
  let inside := opened.drop skipped.length
  match longBody? level inside with
  | some body =>
    .ok ⟨body, (level + 2) + skipped.length + body.length + (level + 2),
      lineFeeds skipped + lineFeeds body⟩
  | none => .error ⟨line + lineFeeds skipped + lineFeeds inside, fault⟩

def scanLongString (line : Nat) (cs : List Char) : Except LexError Scan :=
  match longLevel? cs with
  | none => .error ⟨line, .invalidLongDelimiter⟩
  | some level => do
    let long ← longBracket line .unfinishedLongString level cs
    .ok ⟨.string (Utf8.encode (String.ofList long.body)), .long level, long.length - 1, long.lines⟩

/-- A comment; `cs` is the text after the two hyphens. -/
def scanComment (line : Nat) (cs : List Char) : Except LexError Scan :=
  let toLineEnd : Except LexError Scan :=
    let text := cs.takeWhile (· != '\n')
    .ok ⟨.comment (String.ofList text), .plain, text.length + 1, 0⟩
  match cs with
  | '[' :: opened =>
    match longLevel? opened with
    | some level => do
      let long ← longBracket line .unfinishedLongComment level opened
      .ok ⟨.comment (String.ofList long.body), .long level, long.length + 1, long.lines⟩
    | none => toLineEnd
  | _ => toLineEnd

/-! ## Quoted strings -/

/-- What stands for some bytes of a quoted string. -/
structure Escaped where
  bytes : List UInt8
  length : Nat
  lines : Nat

/-- Two hexadecimal digits. -/
def hexEscape (line : Nat) (cs : List Char) : Except LexError Escaped :=
  match cs.take 2 |>.mapM hexValue? with
  | some [high, low] => .ok ⟨[UInt8.ofNat (16 * high + low)], 3, 0⟩
  | _ => .error ⟨line, .hexDigitExpected⟩

/-- A code point in braces. A number that 32 bits cannot hold is refused before its end is
looked for. -/
def codePointEscape (line : Nat) (cs : List Char) : Except LexError Escaped :=
  match cs with
  | '{' :: cs =>
    let digits := cs.takeWhile fun c => (hexValue? c).isSome
    let value := (digits.filterMap hexValue?).foldl (fun n d => 16 * n + d) 0
    if 2 ^ (32 : Nat) ≤ value then .error ⟨line, .codePointTooLarge⟩
    else if digits.isEmpty then .error ⟨line, .hexDigitExpected⟩
    else match cs.drop digits.length with
      | '}' :: _ =>
        if value.isValidChar then
          .ok ⟨String.utf8EncodeChar (Char.ofNat value), digits.length + 3, 0⟩
        else .error ⟨line, .codePointTooLarge⟩
      | _ => .error ⟨line, .codePointNotClosed⟩
  | _ => .error ⟨line, .codePointNotOpened⟩

/-- One to three decimal digits. -/
def decimalEscape (line : Nat) (cs : List Char) : Except LexError Escaped :=
  let digits := (cs.take 3).takeWhile Char.isDigit
  let value := Nat.ofDigitChars 10 digits 0
  if value < 256 then .ok ⟨[UInt8.ofNat value], digits.length, 0⟩
  else .error ⟨line, .decimalEscapeTooLarge⟩

/-- The byte a single letter stands for after a backslash. -/
def letterEscape? : Char → Option UInt8
  | 'n' => some 0x0A
  | 't' => some 0x09
  | 'r' => some 0x0D
  | 'a' => some 0x07
  | 'b' => some 0x08
  | 'f' => some 0x0C
  | 'v' => some 0x0B
  | _ => none

/-- The escape after a backslash. Characters without a meaning of their own stand for
themselves, and at the end of the text there is nothing to escape. -/
def escape (line : Nat) (cs : List Char) : Except LexError Escaped :=
  match cs with
  | [] => .ok ⟨[], 0, 0⟩
  | '\n' :: _ => .ok ⟨[0x0A], 1, 1⟩
  | '\r' :: '\n' :: _ => .ok ⟨[0x0A], 2, 1⟩
  | '\r' :: _ => .ok ⟨[0x0A], 1, 1⟩
  | 'z' :: rest =>
    let blank := rest.takeWhile isSpace
    .ok ⟨[], blank.length + 1, lineFeeds blank⟩
  | 'x' :: rest => hexEscape line rest
  | 'u' :: rest => codePointEscape line rest
  | c :: _ =>
    if c.isDigit then decimalEscape line cs
    else match letterEscape? c with
      | some byte => .ok ⟨[byte], 1, 0⟩
      | none => .ok ⟨String.utf8EncodeChar c, 1, 0⟩

/-- The rest of a quoted string, its closing quote included. A raw line feed and the end of the
text also end it, and are not part of it. -/
def quotedRest (quote : Char) (line : Nat) : List Char → Except LexError Escaped
  | [] => .ok ⟨[], 0, 0⟩
  | c :: cs =>
    if c == '\n' then .ok ⟨[], 0, 0⟩
    else if c == quote then .ok ⟨[], 1, 0⟩
    else if c == '\\' then do
      let e ← escape line cs
      let rest ← quotedRest quote (line + e.lines) (cs.drop e.length)
      .ok ⟨e.bytes ++ rest.bytes, 1 + e.length + rest.length, e.lines + rest.lines⟩
    else do
      let rest ← quotedRest quote line cs
      .ok ⟨String.utf8EncodeChar c ++ rest.bytes, 1 + rest.length, rest.lines⟩
termination_by cs => cs.length
decreasing_by all_goals simp; try omega

def scanQuoted (line : Nat) (quote : Char) (cs : List Char) : Except LexError Scan := do
  let rest ← quotedRest quote line cs
  .ok ⟨.string rest.bytes, .quoted quote, rest.length, rest.lines⟩

/-! ## The loop -/

/-- The token that begins with `c`. -/
def scan (line : Nat) (c : Char) (cs : List Char) : Except LexError Scan :=
  if isSpace c then .ok (scanWhitespace (c :: cs))
  else if c.isDigit || c == '.' && (cs.head?.any Char.isDigit) then scanNumber line c cs
  else if Word.isStart c then .ok (scanWord (c :: cs))
  else if c == '-' && cs.head? == some '-' then scanComment line (cs.drop 1)
  else if c == '"' || c == '\'' then scanQuoted line c cs
  else if c == '[' && (cs.head? == some '[' || cs.head? == some '=') then scanLongString line cs
  else scanSymbol line c cs

/-- The tokens of a text whose first character stands on `line`. -/
def tokensFrom (line : Nat) : List Char → Except LexError (List Token)
  | [] => .ok []
  | c :: cs => do
    let found ← scan line c cs
    let rest ← tokensFrom (line + found.lines) (cs.drop found.more)
    .ok (⟨found.kind, line, found.spelling⟩ :: rest)
termination_by cs => cs.length
decreasing_by simp only [List.length_drop, List.length_cons]; omega

end Lexer

/-- Every token of a source text, whitespace and comments included. -/
def tokenize (source : String) : Except LexError (List Token) :=
  Lexer.tokensFrom 1 source.toList

end LuaSugar
