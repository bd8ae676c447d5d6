/-!
# Parts of texts

Two ways to cut a text at a separator: at the first one (`splitFirst?`), and at every one
(`pieces`). Neither loses anything but separators, so joining restores the text. Beside them
stand the questions whether a text begins with, ends with or contains another.
-/

namespace LuaSugar.Text

/-- What stands before and after the first separator. -/
def splitFirst? (separator : Char) (text : String) : Option (String × String) :=
  let before := text.toList.takeWhile (· != separator)
  match text.toList.drop before.length with
  | _ :: after => some (String.ofList before, String.ofList after)
  | [] => none

/-- What stands before, between and after all separators; there is always at least one piece. -/
def charPieces (isSeparator : Char → Bool) : List Char → List (List Char)
  | [] => [[]]
  | c :: cs =>
    if isSeparator c then [] :: charPieces isSeparator cs
    else match charPieces isSeparator cs with
      | piece :: rest => (c :: piece) :: rest
      | [] => [[c]]

/-- The pieces of a text between separators. -/
def pieces (isSeparator : Char → Bool) (text : String) : List String :=
  (charPieces isSeparator text.toList).map String.ofList

/-- A text without a beginning that it has. -/
def dropPrefix? (beginning text : String) : Option String :=
  if beginning.toList.isPrefixOf text.toList then
    some (String.ofList (text.toList.drop beginning.length))
  else none

/-- A text without an ending that it has. -/
def dropSuffix? (ending text : String) : Option String :=
  if ending.toList.isSuffixOf text.toList then
    some (String.ofList (text.toList.take (text.length - ending.length)))
  else none

/-- Replace a part that is not empty wherever it stands, from the front on; what replaces it is
not looked through again. -/
def replaceChars (part new : List Char) : List Char → List Char
  | [] => []
  | c :: cs =>
    if part.isPrefixOf (c :: cs) then new ++ replaceChars part new (cs.drop (part.length - 1))
    else c :: replaceChars part new cs
termination_by cs => cs.length
decreasing_by all_goals simp; try omega

/-- Replace a part of a text wherever it stands. -/
def replace (part new text : String) : String :=
  String.ofList (replaceChars part.toList new.toList text.toList)

/-- Whether characters contain others in a row. -/
def containsChars (part : List Char) : List Char → Bool
  | [] => part.isEmpty
  | c :: cs => part.isPrefixOf (c :: cs) || containsChars part cs

/-- Whether a text contains another. -/
def contains (part text : String) : Bool := containsChars part.toList text.toList

end LuaSugar.Text
