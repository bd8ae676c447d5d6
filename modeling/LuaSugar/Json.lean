/-!
# JSON values

Values of JSON and their text, on one line or indented. A number keeps the literal it was written
with, because what a number means depends on what it is read for; an object keeps its members in
order, repeated names included.
-/

namespace LuaSugar

inductive Json where
  | null
  | bool (value : Bool)
  /-- A number, by its literal. -/
  | number (literal : String)
  | string (text : String)
  | array (items : List Json)
  | object (members : List (String × Json))
  /-- A value that is well written and stands for nothing, as it is written: a string with half of
  a surrogate pair, or an object with such a name. -/
  | unpaired (written : String)
deriving Inhabited

namespace Json

/-- A natural number. -/
def nat (n : Nat) : Json := .number (String.ofList (Nat.toDigits 10 n))

/-- `null` for a missing value. -/
def ofOption {α : Type} (f : α → Json) (value : Option α) : Json := (value.map f).getD .null

def ofStrings (texts : List String) : Json := .array (texts.map .string)

/-! ## Text -/

private def hexDigit (n : Nat) : Char := Nat.digitChar (n % 16)

/-- A character between quotes. Control characters below the blank are escaped, and nothing
else that JSON allows to stand. -/
def quoteChar (c : Char) : List Char :=
  match c with
  | '"' => ['\\', '"']
  | '\\' => ['\\', '\\']
  | '\n' => ['\\', 'n']
  | '\r' => ['\\', 'r']
  | '\t' => ['\\', 't']
  | '\x08' => ['\\', 'b']
  | '\x0c' => ['\\', 'f']
  | c =>
    if c.toNat < 32 then ['\\', 'u', '0', '0', hexDigit (c.toNat / 16), hexDigit c.toNat] else [c]

/-- A text in quotes. -/
def quote (text : String) : String :=
  String.ofList ('"' :: text.toList.flatMap quoteChar ++ ['"'])

mutual

/-- A value on one line. -/
def compact : Json → String
  | .null => "null"
  | .bool true => "true"
  | .bool false => "false"
  | .number literal => literal
  | .string text => quote text
  | .array items => "[" ++ ",".intercalate (compactItems items) ++ "]"
  | .object members => "\x7b" ++ ",".intercalate (compactMembers members) ++ "\x7d"
  | .unpaired written => written

def compactItems : List Json → List String
  | [] => []
  | item :: rest => item.compact :: compactItems rest

def compactMembers : List (String × Json) → List String
  | [] => []
  | (name, value) :: rest => (quote name ++ ":" ++ value.compact) :: compactMembers rest

end

/-- A line break with two blanks for each level of indentation. -/
private def newLine (indent : Nat) : String :=
  "\n" ++ String.ofList (List.replicate (2 * indent) ' ')

/-- Items on lines of their own between brackets, or the brackets alone. -/
private def lines (indent : Nat) (opening closing : String) (items : List String) : String :=
  if items.isEmpty then opening ++ closing
  else
    opening ++ newLine (indent + 1) ++ ("," ++ newLine (indent + 1)).intercalate items ++
      newLine indent ++ closing

mutual

/-- A value over several lines, indented by two blanks. -/
def indented (indent : Nat) : Json → String
  | .array items => lines indent "[" "]" (indentedItems (indent + 1) items)
  | .object members => lines indent "\x7b" "\x7d" (indentedMembers (indent + 1) members)
  | .null => compact .null
  | .bool value => compact (.bool value)
  | .number literal => compact (.number literal)
  | .string text => compact (.string text)
  | .unpaired written => written

def indentedItems (indent : Nat) : List Json → List String
  | [] => []
  | item :: rest => item.indented indent :: indentedItems indent rest

def indentedMembers (indent : Nat) : List (String × Json) → List String
  | [] => []
  | (name, value) :: rest =>
    (quote name ++ ": " ++ value.indented indent) :: indentedMembers indent rest

end

/-- A value over several lines. -/
def pretty (value : Json) : String := value.indented 0

end Json

end LuaSugar
