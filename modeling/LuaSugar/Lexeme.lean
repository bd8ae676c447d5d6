import LuaSugar.Token

/-!
# Written tokens

Output is assembled as lexemes, tokens in their written form with gaps of white space between
them, and turned into text last. What a text will lex into can be read off before there is a
text, and two renderings that differ in their gaps alone are seen to do so.

`glue` is where a gap may be needed: two fragments are put together without one unless the
characters that meet would be read as part of one token.
-/

namespace LuaSugar

/-! ## Written literals -/

/-- A backslash and three decimal digits. -/
def decimalEscape (byte : Nat) : List Char :=
  let digits := Nat.toDigits 10 byte
  '\\' :: List.replicate (3 - digits.length) '0' ++ digits

/-- A character between double quotes. ASCII control characters are escaped. -/
def quoteChar (c : Char) : List Char :=
  match c with
  | '"' => ['\\', '"']
  | '\\' => ['\\', '\\']
  | '\n' => ['\\', 'n']
  | '\r' => ['\\', 'r']
  | '\t' => ['\\', 't']
  | c => if c.toNat < 32 ∨ c.toNat = 127 then decimalEscape c.toNat else [c]

/-- A piece of a byte string between double quotes. Bytes that are no text are escaped. -/
def quotePiece : Utf8.Piece → List Char
  | .char c => quoteChar c
  | .invalid bytes => bytes.flatMap fun b => decimalEscape b.toNat

/-- A byte string as a double-quoted literal. -/
def quoteBytes (bytes : List UInt8) : String :=
  String.ofList ('"' :: (Utf8.pieces bytes).flatMap quotePiece ++ ['"'])

/-- A token in its written form. -/
def TokenKind.written : TokenKind → String
  | comment text => "--" ++ text
  | operator op => op.text
  | keyword word => word.text
  | name text => text
  | number value => value.plainText
  | string bytes => quoteBytes bytes
  | whitespace text => text
  | invalid => TokenKind.invalid.text

/-! ## Lexemes -/

/-- A token or the white space between tokens. -/
inductive Lexeme where
  | token (kind : TokenKind)
  | gap (text : String)
deriving DecidableEq, Repr

namespace Lexeme

def text : Lexeme → String
  | token kind => kind.written
  | gap text => text

def op (op : Operator) : Lexeme := token (.operator op)

def word (word : Keyword) : Lexeme := token (.keyword word)

def name (text : String) : Lexeme := token (.name text)

/-- One blank. -/
def blank : Lexeme := gap " "

end Lexeme

/-- A stretch of output. -/
abbrev Fragment := List Lexeme

namespace Fragment

def text (f : Fragment) : String := String.join (f.map Lexeme.text)

/-- Whether a fragment writes nothing. -/
def isBlank (f : Fragment) : Bool := f.all fun lexeme => lexeme.text.isEmpty

/-- The first character that a fragment writes. -/
def first? (f : Fragment) : Option Char := f.findSome? fun lexeme => lexeme.text.toList.head?

/-- The last character that a fragment writes. -/
def last? (f : Fragment) : Option Char :=
  f.reverse.findSome? fun lexeme => lexeme.text.toList.getLast?

/-- Whether two characters of neighbouring tokens would be read as part of one token: two
characters of words, the hyphens of a comment, the dots of `..` and `...`, or a digit and the
point of a number. -/
def fuses (a b : Char) : Bool :=
  Word.isPart a && Word.isPart b || a == '-' && b == '-' || a == '.' && (b == '.' || b.isDigit)
    || a.isDigit && b == '.'

/-- Two fragments side by side, apart only if they have to be. -/
def glue (left right : Fragment) : Fragment :=
  match left.last?, right.first? with
  | some a, some b => if fuses a b then left ++ .blank :: right else left ++ right
  | _, _ => left ++ right

/-- Fragments with a separator between them. -/
def joined (separator : Fragment) (fragments : List Fragment) : Fragment :=
  separator.intercalate fragments

/-- A fragment in parentheses. -/
def parenthesized (f : Fragment) : Fragment := .op .leftParen :: f ++ [.op .rightParen]

/-- A number as an expression. Negative numbers have a sign in front; infinities and NaN have no
literal and are written as quotients. -/
def number (x : Double) : Fragment :=
  let quotient (sign : Fragment) (numerator : Double) : Fragment :=
    parenthesized (sign ++
      [.token (.number numerator), .op .slash, .token (.number Double.zero)])
  let sign : Fragment := if x.isNegative then [.op .minus] else []
  if x.isNaN then quotient [] Double.zero
  else if x.isInfinite then quotient sign (Double.ofNat 1)
  else if x.isZero then [.token (.number Double.zero)]
  else sign ++ [.token (.number x.abs)]

end Fragment

/-- A number as Lua source. -/
def formatNumber (x : Double) : String := (Fragment.number x).text

end LuaSugar
