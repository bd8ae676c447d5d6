import Mathlib
import LuaSugar.Proofs.Token.Bytes
/-!
# A scanner over bytes

`Scanner` reads a text as a program does that knows it as a row of bytes:
by a position that may be anywhere, also within a character, and moves on by
one byte or some. `step` reads one token and `next?` is one turn of the loop,
which ends where no byte is left.

Bytes become text again only by `slice`, and that refuses to cut a character
in two. A scanner that asks for such a piece has a defect, so this is a way
to stop of its own, `Halt.split`, beside the faults of a text.
-/

namespace LuaSugar

open Lexer

/-- What stops a scanner before the end. -/
inductive Halt where
  | fault (e : LexError)
  /-- A piece was asked for that does not begin and end between characters. -/
  | split (start stop : ℕ)
deriving DecidableEq, Repr

/-- A scanner at some byte of a text, with the tokens so far. -/
structure Scanner where
  text : String
  pos : ℕ
  line : ℕ
  tokens : List Token

namespace Scanner

/-- Before the first byte of a text. -/
def start (text : String) : Scanner := ⟨text, 0, 1, []⟩

/-! ## Bytes -/

/-- The bytes from the position on, each read as the character with its
value. -/
def ahead (s : Scanner) : List Char := ((Utf8.encode s.text).drop s.pos).map Char.ofUInt8

/-- The byte so far behind the position. -/
def peek (s : Scanner) (offset : ℕ) : Option Char := s.ahead[offset]?

def skip (s : Scanner) (count : ℕ) : Scanner := { s with pos := s.pos + count }

def skipWhile (p : Char → Bool) (s : Scanner) : Scanner := s.skip (s.ahead.takeWhile p).length

@[simp] theorem skip_line (s : Scanner) (count : ℕ) : (s.skip count).line = s.line := rfl

@[simp] theorem skip_tokens (s : Scanner) (count : ℕ) : (s.skip count).tokens = s.tokens := rfl

@[simp] theorem skipWhile_line (p : Char → Bool) (s : Scanner) : (s.skipWhile p).line = s.line :=
  rfl

@[simp] theorem skipWhile_tokens (p : Char → Bool) (s : Scanner) :
    (s.skipWhile p).tokens = s.tokens := rfl

/-- Move on over bytes among which there may be line feeds. -/
def skipLines (s : Scanner) (bytes : List Char) : Scanner :=
  { s with pos := s.pos + bytes.length, line := s.line + lineFeeds bytes }

/-- The text from one position up to another. -/
def slice (s : Scanner) (start stop : ℕ) : Except Halt String :=
  if start ≤ stop ∧ String.Pos.Raw.IsValid s.text ⟨start⟩ ∧
      String.Pos.Raw.IsValid s.text ⟨stop⟩ then
    match Utf8.decode? (((Utf8.encode s.text).take stop).drop start) with
    | some piece => .ok piece
    | none => .error (.split start stop)
  else .error (.split start stop)

def push (s : Scanner) (kind : TokenKind) (spelling : Spelling) (line : ℕ) : Scanner :=
  { s with tokens := s.tokens ++ [⟨kind, line, spelling⟩] }

def fail {α : Type} (s : Scanner) (fault : LexFault) : Except Halt α :=
  .error (.fault ⟨s.line, fault⟩)

/-! ## Words and numbers -/

def whitespace (s : Scanner) : Except Halt Scanner := do
  let stop := s.skipLines (s.ahead.takeWhile isSpace)
  let text ← stop.slice s.pos stop.pos
  .ok (stop.push (.whitespace text) .plain s.line)

def word (s : Scanner) : Except Halt Scanner := do
  let stop := s.skipWhile Word.isPart
  let text ← stop.slice s.pos stop.pos
  .ok (stop.push (Word.kind text) .plain s.line)

/-- The radix that the next two bytes announce. -/
def radix? (s : Scanner) : Option ℕ :=
  if s.peek 0 = some '0' then
    if s.peek 1 = some 'x' ∨ s.peek 1 = some 'X' then some 16
    else if s.peek 1 = some 'b' ∨ s.peek 1 = some 'B' then some 2
    else none
  else none

/-- The fault of a number that began at a position. -/
def malformed (s : Scanner) (start : ℕ) : Except Halt Scanner := do
  let text ← s.slice start s.pos
  s.fail (.malformedNumber text)

def radixNumber (s : Scanner) (radix : ℕ) : Except Halt Scanner := do
  let digits := s.skip 2
  let stop := digits.skipWhile Word.isPart
  let text ← stop.slice digits.pos stop.pos
  match radixValue? radix (text.toList.filter (· != '_')) with
  | some value => .ok (stop.push (.number value) .plain s.line)
  | none => stop.malformed s.pos

def digits (s : Scanner) : Scanner := s.skipWhile isDigitOrSeparator

/-- Over a point and the digits behind it, unless it is the first of two. -/
def fraction (s : Scanner) : Scanner :=
  if s.peek 0 = some '.' ∧ s.peek 1 ≠ some '.' then (s.skip 1).digits else s

def sign (s : Scanner) : Scanner :=
  if s.peek 0 = some '+' ∨ s.peek 0 = some '-' then s.skip 1 else s

def exponent (s : Scanner) : Scanner :=
  if s.peek 0 = some 'e' ∨ s.peek 0 = some 'E' then (s.skip 1).sign.digits else s

def decimalNumber (s : Scanner) : Except Halt Scanner :=
  let stop := s.digits.fraction.exponent
  if (stop.peek 0).any Word.isPart then (stop.skipWhile Word.isPart).malformed s.pos
  else do
    let text ← stop.slice s.pos stop.pos
    match (decimalParts text.toList).value? with
    | some value => .ok (stop.push (.number value) .plain s.line)
    | none => stop.malformed s.pos

def number (s : Scanner) : Except Halt Scanner :=
  match s.radix? with
  | some radix => s.radixNumber radix
  | none => s.decimalNumber

/-! ## Comments and strings -/

/-- A long bracket that opens here: the bytes of its body, and the scanner
behind it. -/
def longBracket (s : Scanner) (level : ℕ) (fault : LexFault) :
    Except Halt (List UInt8 × Scanner) :=
  let opened := s.skip (level + 2)
  let inside := opened.skipLines (leadingBreak opened.ahead)
  match longBody? level inside.ahead with
  | some body => .ok (body.map Char.toUInt8, (inside.skipLines body).skip (level + 2))
  | none => (inside.skipLines inside.ahead).fail fault

def longString (s : Scanner) : Except Halt Scanner :=
  match longLevel? s.ahead.tail with
  | none => s.fail .invalidLongDelimiter
  | some level => do
    let (body, stop) ← s.longBracket level .unfinishedLongString
    .ok (stop.push (.string body) (.long level) s.line)

/-- A comment up to the end of its line, or in a long bracket. The body of a
bracket is bytes, and its text is what can be read of them. -/
def comment (s : Scanner) : Except Halt Scanner :=
  let opened := s.skip 2
  match commentLevel? opened.ahead with
  | some level => do
    let (body, stop) ← opened.longBracket level .unfinishedLongComment
    .ok (stop.push (.comment (Utf8.lossy body)) (.long level) s.line)
  | none => do
    let stop := opened.skipWhile (· != '\n')
    let text ← stop.slice opened.pos stop.pos
    .ok (stop.push (.comment text) .plain s.line)

/-- The escape behind a backslash. It takes one byte of what means nothing,
whatever that byte is a part of. -/
def escape (line : ℕ) (bytes : List Char) : Except LexError Escaped :=
  match bytes with
  | [] => .ok ⟨[], 0, 0⟩
  | '\n' :: _ => .ok ⟨[0x0A], 1, 1⟩
  | '\r' :: '\n' :: _ => .ok ⟨[0x0A], 2, 1⟩
  | '\r' :: _ => .ok ⟨[0x0A], 1, 1⟩
  | 'z' :: rest =>
    let blank := rest.takeWhile isSpace
    .ok ⟨[], blank.length + 1, lineFeeds blank⟩
  | 'x' :: rest => hexEscape line rest
  | 'u' :: rest => codePointEscape line rest
  | b :: _ =>
    if b.isDigit then Lexer.decimalEscape line bytes
    else match letterEscape? b with
      | some byte => .ok ⟨[byte], 1, 0⟩
      | none => .ok ⟨[b.toUInt8], 1, 0⟩

/-- The rest of a quoted string, byte by byte. -/
def quotedRest (quote : Char) (line : ℕ) : List Char → Except LexError Escaped
  | [] => .ok ⟨[], 0, 0⟩
  | b :: bytes =>
    if b = '\n' then .ok ⟨[], 0, 0⟩
    else if b = quote then .ok ⟨[], 1, 0⟩
    else if b = '\\' then do
      let e ← escape line bytes
      let rest ← quotedRest quote (line + e.lines) (bytes.drop e.length)
      .ok ⟨e.bytes ++ rest.bytes, 1 + e.length + rest.length, e.lines + rest.lines⟩
    else do
      let rest ← quotedRest quote line bytes
      .ok ⟨b.toUInt8 :: rest.bytes, 1 + rest.length, rest.lines⟩
termination_by bytes => bytes.length
decreasing_by all_goals simp; try omega

def quoted (s : Scanner) (quote : Char) : Except Halt Scanner :=
  match quotedRest quote s.line (s.skip 1).ahead with
  | .ok rest =>
    let stop := { s with pos := s.pos + 1 + rest.length, line := s.line + rest.lines }
    .ok (stop.push (.string rest.bytes) (.quoted quote) s.line)
  | .error e => .error (.fault e)

/-! ## The loop -/

def operator (s : Scanner) : Except Halt Scanner :=
  match Operator.ofSymbol? s.ahead with
  | some op => .ok ((s.skip (Utf8.encode op.text).length).push (.operator op) .plain s.line)
  | none => do
    let rest ← s.slice s.pos (Utf8.encode s.text).length
    s.fail (.unexpectedSymbol (rest.toList.head?.getD '?'))

/-- The token that begins with a byte. -/
def step (s : Scanner) (b : Char) : Except Halt Scanner :=
  if isSpace b then s.whitespace
  else if b.isDigit || b == '.' && (s.peek 1).any Char.isDigit then s.number
  else if Word.isStart b then s.word
  else if b == '-' && s.peek 1 == some '-' then s.comment
  else if b == '"' || b == '\'' then s.quoted b
  else if b == '[' && (s.peek 1 == some '[' || s.peek 1 == some '=') then s.longString
  else s.operator

/-- One turn of the loop, if a byte is left. -/
def next? (s : Scanner) : Option (Except Halt Scanner) := (s.peek 0).map s.step

/-- The loop comes from one scanner to another. -/
def Reaches : Scanner → Scanner → Prop :=
  Relation.ReflTransGen fun s s' => s.next? = some (.ok s')

/-- What the loop ends with. -/
inductive Ends : Scanner → Except Halt (List Token) → Prop
  | done {s} : s.next? = none → Ends s (.ok s.tokens)
  | halted {s halt} : s.next? = some (.error halt) → Ends s (.error halt)
  | turn {s s' outcome} : s.next? = some (.ok s') → Ends s' outcome → Ends s outcome

end Scanner

end LuaSugar
