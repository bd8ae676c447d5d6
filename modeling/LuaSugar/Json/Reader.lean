import LuaSugar.Json

/-!
# Reading JSON

`Json.parse?` reads a text that is one JSON value, by the grammar of RFC 8259: no comments, no
trailing commas and no raw control characters in strings. The grammar lets half of a surrogate
pair be escaped, and no text has one; such a string is read as a value that stands for nothing.

Every reader takes a text and answers what it found and the rest. Values nest, so their readers
count down a depth; a level of nesting takes a character, hence the length of the text is depth
enough.
-/

namespace LuaSugar.Json.Reader

/-- Reading from the front of a text. -/
abbrev Read (α : Type) := List Char → Option (α × List Char)

def isBlank (c : Char) : Bool := c == ' ' || c == '\t' || c == '\n' || c == '\r'

def skipBlanks (cs : List Char) : List Char := cs.dropWhile isBlank

/-- The value of a hexadecimal digit. -/
def hexValue? (c : Char) : Option Nat :=
  if c.isDigit then some (c.toNat - 48)
  else if 'a' ≤ c ∧ c ≤ 'f' then some (c.toNat - 87)
  else if 'A' ≤ c ∧ c ≤ 'F' then some (c.toNat - 55)
  else none

/-- The number of four hexadecimal digits. -/
def hexUnit? (a b c d : Char) : Option Nat := do
  let a ← hexValue? a
  let b ← hexValue? b
  let c ← hexValue? c
  let d ← hexValue? d
  pure (((a * 16 + b) * 16 + c) * 16 + d)

/-- The character after a backslash, unless it is given by its code. -/
def escaped? : Char → Option Char
  | '"' => some '"'
  | '\\' => some '\\'
  | '/' => some '/'
  | 'b' => some '\x08'
  | 'f' => some '\x0c'
  | 'n' => some '\n'
  | 'r' => some '\r'
  | 't' => some '\t'
  | _ => none

/-- The character of a high and a low surrogate. -/
def pair? (high low : Nat) : Option Char :=
  if 0xD800 ≤ high ∧ high < 0xDC00 ∧ 0xDC00 ≤ low ∧ low < 0xE000 then
    some (Char.ofNat (0x10000 + (high - 0xD800) * 0x400 + (low - 0xDC00)))
  else none

/-- The character of a unit that is no surrogate. -/
def single? (unit : Nat) : Option Char :=
  if unit.isValidChar then some (Char.ofNat unit) else none

/-- The unit that is escaped in front of a text. -/
def nextUnit? : List Char → Option Nat
  | '\\' :: 'u' :: a :: b :: c :: d :: _ => hexUnit? a b c d
  | _ => none

/-- A string after its opening quote; `found` is what was read of it, last character first, unless
it had half of a pair. -/
def stringRest (found : Option (List Char)) : Read (Option String)
  | '"' :: rest => some (found.map fun cs => String.ofList cs.reverse, rest)
  | '\\' :: 'u' :: a :: b :: c :: d :: rest => do
    let unit ← hexUnit? a b c d
    match single? unit with
    | some c => stringRest (found.map (c :: ·)) rest
    | none =>
      match (nextUnit? rest).bind (pair? unit) with
      | some c => stringRest (found.map (c :: ·)) (rest.drop 6)
      | none => stringRest none rest
  | '\\' :: e :: rest => do
    let c ← escaped? e
    stringRest (found.map (c :: ·)) rest
  | c :: rest =>
    if c.toNat < 32 || c == '\\' then none else stringRest (found.map (c :: ·)) rest
  | [] => none
termination_by cs => cs.length
decreasing_by all_goals simp; try omega

/-- A string after its opening quote. -/
def string : Read (Option String) := stringRest (some [])

/-- One or more digits. -/
def digits1 : Read (List Char) := fun cs =>
  match cs.takeWhile Char.isDigit with
  | [] => none
  | found => some (found, cs.drop found.length)

/-- The digits before the point: a zero stands alone. -/
def wholePart : Read (List Char)
  | '0' :: rest => some (['0'], rest)
  | cs => digits1 cs

def fractionPart : Read (List Char)
  | '.' :: rest => do
    let (found, rest) ← digits1 rest
    pure ('.' :: found, rest)
  | cs => some ([], cs)

def exponentPart : Read (List Char)
  | mark :: rest =>
    if mark == 'e' || mark == 'E' then
      match rest with
      | sign :: digits =>
        if sign == '+' || sign == '-' then do
          let (found, rest) ← digits1 digits
          pure (mark :: sign :: found, rest)
        else do
          let (found, rest) ← digits1 (sign :: digits)
          pure (mark :: found, rest)
      | [] => none
    else some ([], mark :: rest)
  | [] => some ([], [])

/-- A number, as its literal. -/
def number : Read Json := fun cs => do
  let (sign, cs) := match cs with
    | '-' :: rest => (['-'], rest)
    | cs => ([], cs)
  let (whole, cs) ← wholePart cs
  let (fraction, cs) ← fractionPart cs
  let (exponent, cs) ← exponentPart cs
  pure (.number (String.ofList (sign ++ whole ++ fraction ++ exponent)), cs)

/-- The part of a text before the rest of it. -/
def before (cs rest : List Char) : String := String.ofList (cs.take (cs.length - rest.length))

/-- The value of a string, or of what is written between `cs` and `rest` if it is no text. -/
def ofString (text : Option String) (cs rest : List Char) : Json :=
  match text with
  | some text => .string text
  | none => .unpaired (before cs rest)

/-- The value of the members of an object, all of whose names have to be texts. -/
def ofMembers (members : List (Option String × Json)) (cs rest : List Char) : Json :=
  match members.mapM fun (name, value) => name.map (·, value) with
  | some members => .object members
  | none => .unpaired (before cs rest)

/-- A word such as `true`. -/
def word (text : String) (value : Json) : Read Json := fun cs =>
  let expected := text.toList
  if expected.isPrefixOf cs then some (value, cs.drop expected.length) else none

mutual

/-- A value, blanks before it included. -/
def value : Nat → Read Json
  | 0, _ => none
  | depth + 1, cs =>
    match skipBlanks cs with
    | '"' :: inside => do
      let (text, rest) ← string inside
      pure (ofString text ('"' :: inside) rest, rest)
    | '[' :: rest =>
      match skipBlanks rest with
      | ']' :: rest => some (.array [], rest)
      | rest => do
        let (items, rest) ← items depth [] rest
        pure (.array items, rest)
    | '{' :: inside =>
      match skipBlanks inside with
      | '}' :: rest => some (.object [], rest)
      | first => do
        let (members, rest) ← members depth [] first
        pure (ofMembers members ('{' :: inside) rest, rest)
    | 't' :: rest => word "true" (.bool true) ('t' :: rest)
    | 'f' :: rest => word "false" (.bool false) ('f' :: rest)
    | 'n' :: rest => word "null" .null ('n' :: rest)
    | rest => number rest

/-- The items of an array that is not empty, and its closing bracket. -/
def items : Nat → List Json → Read (List Json)
  | 0, _, _ => none
  | depth + 1, found, cs => do
    let (item, rest) ← value depth cs
    match skipBlanks rest with
    | ',' :: rest => items depth (item :: found) rest
    | ']' :: rest => pure ((item :: found).reverse, rest)
    | _ => none

/-- The members of an object that is not empty, and its closing brace. -/
def members : Nat → List (Option String × Json) → Read (List (Option String × Json))
  | 0, _, _ => none
  | depth + 1, found, cs =>
    match skipBlanks cs with
    | '"' :: rest => do
      let (name, rest) ← string rest
      match skipBlanks rest with
      | ':' :: rest =>
        let (item, rest) ← value depth rest
        match skipBlanks rest with
        | ',' :: rest => members depth ((name, item) :: found) rest
        | '}' :: rest => pure (((name, item) :: found).reverse, rest)
        | _ => none
      | _ => none
    | _ => none

end

end LuaSugar.Json.Reader

namespace LuaSugar.Json

/-- The value that a text is, blanks around it aside. -/
def parse? (text : String) : Option Json :=
  let cs := text.toList
  match Reader.value (2 * cs.length + 2) cs with
  | some (value, rest) => if (Reader.skipBlanks rest).isEmpty then some value else none
  | none => none

end LuaSugar.Json
