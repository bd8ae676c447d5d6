import LuaSugar.Double.Decimal
import LuaSugar.Text.Utf8

/-!
# Tokens

The vocabulary of the dialect: reserved words, operators and punctuation, and the token kinds a
source text falls into. `and`, `or` and `not` are operators although they are spelled as words.

The tables here are the only place where spelling, precedence and associativity are said; the
lexer, the parser and the renderer read them.
-/

namespace LuaSugar

/-- Reserved words that are not operators. -/
inductive Keyword where
  | break_ | do_ | else_ | elseif_ | end_ | false_ | for_ | function_ | if_ | import_ | in_
  | local_ | nil_ | repeat_ | return_ | then_ | true_ | until_ | while_
deriving DecidableEq, Repr

namespace Keyword

def text : Keyword → String
  | break_ => "break"
  | do_ => "do"
  | else_ => "else"
  | elseif_ => "elseif"
  | end_ => "end"
  | false_ => "false"
  | for_ => "for"
  | function_ => "function"
  | if_ => "if"
  | import_ => "import"
  | in_ => "in"
  | local_ => "local"
  | nil_ => "nil"
  | repeat_ => "repeat"
  | return_ => "return"
  | then_ => "then"
  | true_ => "true"
  | until_ => "until"
  | while_ => "while"

/-- Every keyword, once. -/
def all : List Keyword :=
  [break_, do_, else_, elseif_, end_, false_, for_, function_, if_, import_, in_, local_, nil_,
    repeat_, return_, then_, true_, until_, while_]

/-- The keyword a name spells. -/
def ofText? (text : String) : Option Keyword := all.find? fun word => word.text == text

end Keyword

/-- Operators and punctuation. -/
inductive Operator where
  | plus | minus | star | slash | percent | caret | hash
  | eq | ne | le | ge | lt | gt | assign
  | leftParen | rightParen | leftBrace | rightBrace | leftBracket | rightBracket
  | semicolon | colon | comma | dot | dotDot | ellipsis
  | plusAssign | minusAssign | starAssign | slashAssign | percentAssign | caretAssign
  | concatAssign
  | atSign | pipe | and | or | not
deriving DecidableEq, Repr

namespace Operator

def text : Operator → String
  | plus => "+"
  | minus => "-"
  | star => "*"
  | slash => "/"
  | percent => "%"
  | caret => "^"
  | hash => "#"
  | eq => "=="
  | ne => "~="
  | le => "<="
  | ge => ">="
  | lt => "<"
  | gt => ">"
  | assign => "="
  | leftParen => "("
  | rightParen => ")"
  | leftBrace => "\x7b"
  | rightBrace => "\x7d"
  | leftBracket => "["
  | rightBracket => "]"
  | semicolon => ";"
  | colon => ":"
  | comma => ","
  | dot => "."
  | dotDot => ".."
  | ellipsis => "..."
  | plusAssign => "+="
  | minusAssign => "-="
  | starAssign => "*="
  | slashAssign => "/="
  | percentAssign => "%="
  | caretAssign => "^="
  | concatAssign => "..="
  | atSign => "@"
  | pipe => "|"
  | and => "and"
  | or => "or"
  | not => "not"

/-- The operators written with symbols, those with longer spellings first, so that the first
whose spelling begins a text is the longest that does. -/
def symbols : List Operator :=
  [ellipsis, concatAssign,
    eq, ne, le, ge, dotDot, plusAssign, minusAssign, starAssign, slashAssign, percentAssign,
    caretAssign,
    plus, minus, star, slash, percent, caret, hash, lt, gt, assign, leftParen, rightParen,
    leftBrace, rightBrace, leftBracket, rightBracket, semicolon, colon, comma, dot, atSign, pipe]

/-- The operators written as words. -/
def words : List Operator := [and, or, not]

/-- The operator a name spells. -/
def ofWord? (text : String) : Option Operator := words.find? fun op => op.text == text

/-- The longest operator that begins a text. -/
def ofSymbol? (cs : List Char) : Option Operator :=
  symbols.find? fun op => op.text.toList.isPrefixOf cs

/-- Binding power when the operator continues an expression. `@` has one although it never
continues an expression. -/
def precedence? : Operator → Option Nat
  | caret => some 8
  | star | slash | percent => some 6
  | plus | minus => some 5
  | dotDot => some 4
  | lt | gt | le | ge | ne | eq | atSign => some 3
  | and => some 2
  | or => some 1
  | _ => none

def isRightAssociative : Operator → Bool
  | caret | dotDot => true
  | _ => false

/-- `+=` and its kind. -/
def isCompoundAssignment : Operator → Bool
  | plusAssign | minusAssign | starAssign | slashAssign | percentAssign | caretAssign
  | concatAssign => true
  | _ => false

/-- Operators before which an expression is complete. -/
def endsExpression : Operator → Bool
  | leftBrace | rightBrace | leftBracket | rightBracket | leftParen | rightParen | assign | comma
  | semicolon | atSign | pipe => true
  | op => op.isCompoundAssignment

/-- Operators that may stand before an operand. -/
def isUnary : Operator → Bool
  | not | hash | minus => true
  | _ => false

end Operator

/-- What a token is. -/
inductive TokenKind where
  | comment (text : String)
  | operator (op : Operator)
  | keyword (word : Keyword)
  | name (text : String)
  | number (value : Double)
  | string (bytes : List UInt8)
  | whitespace (text : String)
  /-- The end of the tokens as a token. No source text falls into it, but a list of tokens that is
  given to the parser may hold it. -/
  | invalid
deriving DecidableEq, Repr

namespace TokenKind

/-- The class of a token as messages name it. -/
def className : TokenKind → String
  | comment _ => "Comment"
  | operator _ => "Operator"
  | keyword _ => "Word"
  | name _ => "Name"
  | number _ => "Number"
  | string _ => "String"
  | whitespace _ => "Whitespace"
  | invalid => "Invalid"

/-- The token as messages quote it: the value of a literal, not its spelling. -/
def text : TokenKind → String
  | comment t | name t | whitespace t => t
  | operator op => op.text
  | keyword word => word.text
  | number value => value.plainText
  | string bytes => Utf8.lossy bytes
  | invalid => "<eof>"

/-- Whitespace and comments carry no meaning. -/
def isTrivia : TokenKind → Bool
  | comment _ | whitespace _ => true
  | _ => false

end TokenKind

/-! ## Words -/

namespace Word

/-- A character that may begin a name. Names are ASCII. -/
def isStart (c : Char) : Bool := c.isAlpha || c == '_'

/-- A character that may continue a name. -/
def isPart (c : Char) : Bool := c.isAlphanum || c == '_'

/-- A text of the shape of a name, reserved or not. -/
def isWord (text : String) : Bool :=
  match text.toList with
  | c :: rest => isStart c && rest.all isPart
  | [] => false

/-- What a word is: an operator, a keyword or a name. -/
def kind (text : String) : TokenKind :=
  match Operator.ofWord? text with
  | some op => .operator op
  | none => match Keyword.ofText? text with
    | some word => .keyword word
    | none => .name text

/-- A text that reads as a name. -/
def isName (text : String) : Bool := isWord text && kind text == .name text

end Word

/-- How a string or comment was written. -/
inductive Spelling where
  | plain
  /-- Between quotes. -/
  | quoted (quote : Char)
  /-- Between long brackets with that many equals signs. -/
  | long (level : Nat)
deriving DecidableEq, Repr

/-- A token and the line on which it begins. -/
structure Token where
  kind : TokenKind
  line : Nat
  spelling : Spelling
deriving DecidableEq, Repr

/-- The tokens that carry meaning. -/
def significant (tokens : List Token) : List Token := tokens.filter fun t => !t.kind.isTrivia

end LuaSugar
