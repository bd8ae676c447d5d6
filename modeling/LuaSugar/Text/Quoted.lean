import LuaSugar.Text.Invisible

/-!
# Quoted text

How messages show a text of unknown content: between double quotes, with a backslash before
quotes and backslashes, letters for the common control characters, and code points in braces for
whatever else cannot be seen.
-/

namespace LuaSugar.Text

/-- A character of a quoted text. -/
def quotedChar (c : Char) : List Char :=
  match c with
  | '"' => ['\\', '"']
  | '\\' => ['\\', '\\']
  | '\n' => ['\\', 'n']
  | '\r' => ['\\', 'r']
  | '\t' => ['\\', 't']
  | '\x00' => ['\\', '0']
  | c =>
    if isInvisible c then ['\\', 'u', '{'] ++ Nat.toDigits 16 c.toNat ++ ['}'] else [c]

/-- A text in quotes. -/
def quoted (text : String) : String :=
  String.ofList ('"' :: text.toList.flatMap quotedChar ++ ['"'])

end LuaSugar.Text
