/-!
# UTF-8 over byte strings

String literals of the dialect are byte strings, so bytes that are not UTF-8 have to survive. A
byte string falls into `pieces`: the characters it encodes, and between them the maximal runs of
bytes that begin an encoding and do not finish it. Every reading of bytes as text goes through
that decomposition, strict (`decode?`) or with a replacement character for each invalid piece
(`lossy`).
-/

namespace LuaSugar.Utf8

/-- Part of a byte string. -/
inductive Piece where
  /-- The encoding of a character. -/
  | char (c : Char)
  /-- The start of an encoding that the next byte does not continue, or a byte that starts none. -/
  | invalid (bytes : List UInt8)
deriving DecidableEq, Repr

/-- How an encoding goes on after its first byte: the number of bytes to come, the range of the
first of them, and the bits the first byte contributes. -/
structure Lead where
  following : Nat
  low : UInt8
  high : UInt8
  bits : Nat

/-- The first byte of an encoding of several bytes. The ranges exclude overlong encodings,
surrogates and code points past the last one. -/
def lead? (b : UInt8) : Option Lead :=
  let n := b.toNat
  if n < 0xC2 then none
  else if n < 0xE0 then some ⟨1, 0x80, 0xBF, n - 0xC0⟩
  else if n = 0xE0 then some ⟨2, 0xA0, 0xBF, 0⟩
  else if n = 0xED then some ⟨2, 0x80, 0x9F, 0xD⟩
  else if n < 0xF0 then some ⟨2, 0x80, 0xBF, n - 0xE0⟩
  else if n = 0xF0 then some ⟨3, 0x90, 0xBF, 0⟩
  else if n < 0xF4 then some ⟨3, 0x80, 0xBF, n - 0xF0⟩
  else if n = 0xF4 then some ⟨3, 0x80, 0x8F, 4⟩
  else none

/-- The longest run of at most `count` bytes that may follow; only the first has a narrow range. -/
def continuation (low high : UInt8) : Nat → List UInt8 → List UInt8
  | 0, _ => []
  | _ + 1, [] => []
  | count + 1, b :: rest =>
    if low ≤ b ∧ b ≤ high then b :: continuation 0x80 0xBF count rest else []

/-- The first piece of a non-empty byte string and the number of bytes it takes after the
first. -/
def firstPiece (b : UInt8) (rest : List UInt8) : Piece × Nat :=
  if b < 0x80 then (.char (Char.ofNat b.toNat), 0)
  else match lead? b with
    | none => (.invalid [b], 0)
    | some lead =>
      let taken := continuation lead.low lead.high lead.following rest
      if taken.length = lead.following then
        (.char (Char.ofNat (taken.foldl (fun n b => 64 * n + b.toNat % 64) lead.bits)),
          taken.length)
      else (.invalid (b :: taken), taken.length)

/-- The pieces of a byte string, in order. -/
def pieces : List UInt8 → List Piece
  | [] => []
  | b :: rest =>
    let (piece, more) := firstPiece b rest
    piece :: pieces (rest.drop more)
termination_by bytes => bytes.length

/-- The character of a piece. -/
def Piece.char? : Piece → Option Char
  | .char c => some c
  | .invalid _ => none

/-- The text of a byte string that is UTF-8 throughout. -/
def decode? (bytes : List UInt8) : Option String :=
  ((pieces bytes).mapM Piece.char?).map String.ofList

/-- The text of a byte string, with U+FFFD for each invalid piece. -/
def lossy (bytes : List UInt8) : String :=
  String.ofList ((pieces bytes).map fun piece => piece.char?.getD '\uFFFD')

/-- The bytes of a text. -/
def encode (text : String) : List UInt8 := text.toList.flatMap String.utf8EncodeChar

end LuaSugar.Utf8
