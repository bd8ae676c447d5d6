import LuaSugar.Toml

/-!
# Reading TOML

`Toml.parse?` reads a document by the grammar of TOML 1.0. Every reader takes a text and answers
what it found and the rest. Where the grammar has alternatives their order matters only for
numbers: what begins like a date or time is read as one if it can be, and what goes on with a
point or an exponent is a float.

Arrays and inline tables nest at most `maxDepth` deep; deeper documents are refused.
-/

namespace LuaSugar.Toml.Reader

-- the powers of the core library, whatever is imported beside it
attribute [local instance (high)] instPowNat

/-- Reading from the front of a text. -/
abbrev Read (α : Type) := List Char → Option (α × List Char)

/-! ## Blanks, comments and line breaks -/

def isBlank (c : Char) : Bool := c == ' ' || c == '\t'

def skipBlanks (cs : List Char) : List Char := cs.dropWhile isBlank

/-- A character that may stand in a comment, and in strings too unless it means something
there. -/
def isPlain (c : Char) : Bool := c == '\t' || (32 ≤ c.toNat && c.toNat != 127)

/-- A text behind its line break, if it begins with one. -/
def lineBreak? : List Char → Option (List Char)
  | '\n' :: rest => some rest
  | '\r' :: '\n' :: rest => some rest
  | _ => none

/-- A text behind a comment, if it begins with one. -/
def skipComment (cs : List Char) : List Char :=
  match cs with
  | '#' :: rest => rest.dropWhile isPlain
  | cs => cs

/-- The rest of a line on which nothing more may stand but a comment. -/
def lineEnd? (cs : List Char) : Option (List Char) :=
  match skipComment (skipBlanks cs) with
  | [] => some []
  | rest => lineBreak? rest

/-- Skip blanks and line breaks, at most so many characters. -/
def skipLines : Nat → List Char → List Char
  | 0, cs => cs
  | n + 1, cs =>
    match cs with
    | [] => []
    | c :: rest =>
      if isBlank c then skipLines n rest
      else match lineBreak? (c :: rest) with
        | some rest => skipLines n rest
        | none => c :: rest

/-- Skip blanks, line breaks and comments that end with their line, at most so many characters. -/
def skipSpace : Nat → List Char → List Char
  | 0, cs => cs
  | n + 1, cs =>
    match cs with
    | [] => []
    | '#' :: rest =>
      match lineBreak? (rest.dropWhile isPlain) with
      | some rest => skipSpace n rest
      | none => '#' :: rest
    | c :: rest =>
      if isBlank c then skipSpace n rest
      else match lineBreak? (c :: rest) with
        | some rest => skipSpace n rest
        | none => c :: rest

/-- Skip everything between the items of an array. -/
def skipAll (cs : List Char) : List Char := skipSpace cs.length cs

/-! ## Strings -/

/-- The value of a hexadecimal digit. -/
def hexValue? (c : Char) : Option Nat :=
  if c.isDigit then some (c.toNat - 48)
  else if 'a' ≤ c ∧ c ≤ 'f' then some (c.toNat - 87)
  else if 'A' ≤ c ∧ c ≤ 'F' then some (c.toNat - 55)
  else none

/-- A character by so many hexadecimal digits of its code point. -/
def codePoint (count : Nat) : Read Char := fun cs => do
  let digits ← (cs.take count).mapM hexValue?
  let value := digits.foldl (fun n d => 16 * n + d) 0
  if digits.length = count ∧ value.isValidChar then pure (Char.ofNat value, cs.drop count)
  else none

/-- The character that an escape after its backslash stands for. -/
def escaped : Read Char
  | 'b' :: rest => some ('\x08', rest)
  | 't' :: rest => some ('\t', rest)
  | 'n' :: rest => some ('\n', rest)
  | 'f' :: rest => some ('\x0c', rest)
  | 'r' :: rest => some ('\r', rest)
  | '"' :: rest => some ('"', rest)
  | '\\' :: rest => some ('\\', rest)
  | 'u' :: rest => codePoint 4 rest
  | 'U' :: rest => codePoint 8 rest
  | _ => none

/-- The rest of a string between double quotes, at most so many characters. -/
def basicRest : Nat → List Char → Read String
  | 0, _, _ => none
  | n + 1, found, cs =>
    match cs with
    | [] => none
    | '"' :: rest => some (String.ofList found.reverse, rest)
    | '\\' :: rest => do
      let (c, rest) ← escaped rest
      basicRest n (c :: found) rest
    | c :: rest => if isPlain c then basicRest n (c :: found) rest else none

/-- The rest of a string between single quotes. -/
def literalRest : Read String := fun cs =>
  let text := cs.takeWhile fun c => isPlain c && c != '\''
  match cs.drop text.length with
  | '\'' :: rest => some (String.ofList text, rest)
  | _ => none

/-- Where a run of quotes of a multi-line string leads: three close it, and up to two before them
belong to the text. -/
def closing? (quote : Char) (cs : List Char) : Option (List Char × List Char) :=
  let run := (cs.takeWhile (· == quote)).length
  if run < 3 then none
  else
    let extra := min (run - 3) 2
    some (List.replicate extra quote, cs.drop (extra + 3))

/-- The rest of a multi-line string, at most so many characters. Only one with double quotes has
escapes. -/
def multiLineRest (quote : Char) : Nat → List Char → Read String
  | 0, _, _ => none
  | n + 1, found, cs =>
    match closing? quote cs with
    | some (extra, rest) => some (String.ofList (found.reverse ++ extra), rest)
    | none =>
      match cs with
      | [] => none
      | c :: rest =>
        if c == '\\' && quote == '"' then
          match lineBreak? (skipBlanks rest) with
          | some rest => multiLineRest quote n found (skipLines rest.length rest)
          | none => do
            let (c, rest) ← escaped rest
            multiLineRest quote n (c :: found) rest
        else match lineBreak? (c :: rest) with
          | some rest => multiLineRest quote n ('\n' :: found) rest
          | none => if isPlain c then multiLineRest quote n (c :: found) rest else none

/-- A multi-line string behind its opening quotes; a line break directly behind them is no part
of it. -/
def multiLine (quote : Char) : Read String := fun cs =>
  let cs := (lineBreak? cs).getD cs
  multiLineRest quote (cs.length + 1) [] cs

/-- A string of any of the four kinds. -/
def string : Read String
  | '"' :: '"' :: '"' :: rest => multiLine '"' rest
  | '\'' :: '\'' :: '\'' :: rest => multiLine '\'' rest
  | '"' :: rest => basicRest (rest.length + 1) [] rest
  | '\'' :: rest => literalRest rest
  | _ => none

/-! ## Keys -/

/-- A character of a key without quotes. -/
def isKeyPart (c : Char) : Bool := c.isAlphanum || c == '-' || c == '_'

/-- A key without dots. -/
def simpleKey : Read String
  | '"' :: rest => basicRest (rest.length + 1) [] rest
  | '\'' :: rest => literalRest rest
  | cs =>
    match cs.takeWhile isKeyPart with
    | [] => none
    | text => some (String.ofList text, cs.drop text.length)

/-- How many keys a path may have, and how deep values may nest. -/
def maxDepth : Nat := 79

/-- Keys with dots between them, at most so many: the path before the last key, and that key. -/
def keyPath : Nat → List String → Read (List String × String)
  | 0, _, _ => none
  | n + 1, path, cs => do
    let (key, rest) ← simpleKey (skipBlanks cs)
    match skipBlanks rest with
    | '.' :: rest => keyPath n (path ++ [key]) rest
    | rest => pure ((path, key), rest)

/-- A key, dotted or not, with the blanks around it. -/
def key : Read (List String × String) := keyPath maxDepth []

/-! ## Numbers, dates and times -/

/-- Exactly so many digits. -/
def digits (count : Nat) : Read Nat := fun cs =>
  let found := cs.take count
  if found.length = count ∧ found.all Char.isDigit then
    some (Nat.ofDigitChars 10 found 0, cs.drop count)
  else none

/-- A text behind a character that has to be next. -/
def expect? (c : Char) : List Char → Option (List Char)
  | d :: rest => if d == c then some rest else none
  | [] => none

def date : Read Date := fun cs => do
  let (year, cs) ← digits 4 cs
  let (month, cs) ← digits 2 (← expect? '-' cs)
  let (day, cs) ← digits 2 (← expect? '-' cs)
  let d : Date := ⟨year, month, day⟩
  if d.isValid then pure (d, cs) else none

/-- A fraction of a second in nanoseconds, and none if there is no fraction. -/
def nanoseconds (cs : List Char) : Nat × List Char :=
  match cs with
  | '.' :: rest =>
    match rest.takeWhile Char.isDigit with
    | [] => (0, cs)
    | found => (Clock.nanosecondsOf found, rest.drop found.length)
  | cs => (0, cs)

def clock : Read Clock := fun cs => do
  let (hour, cs) ← digits 2 cs
  let (minute, cs) ← digits 2 (← expect? ':' cs)
  let (second, cs) ← digits 2 (← expect? ':' cs)
  let (nanosecond, cs) := nanoseconds cs
  let c : Clock := ⟨hour, minute, second, nanosecond⟩
  if c.isValid then pure (c, cs) else none

/-- The offset of a time zone behind its sign, in minutes. -/
def offset : Read Nat := fun cs => do
  let (hour, cs) ← digits 2 cs
  let (minute, cs) ← digits 2 (← expect? ':' cs)
  if hour ≤ 23 ∧ minute ≤ 59 then pure (60 * hour + minute, cs) else none

def zone : Read Zone
  | 'Z' :: rest | 'z' :: rest => some (.utc, rest)
  | '+' :: rest => (offset rest).map fun (minutes, rest) => (.offset minutes, rest)
  | '-' :: rest => (offset rest).map fun (minutes, rest) => (.offset (-minutes), rest)
  | _ => none

/-- A time behind the mark between it and a date, with the zone that may follow. -/
def markedClock : Read (Clock × Option Zone)
  | mark :: rest =>
    if mark == 'T' || mark == 't' || mark == ' ' then do
      let (c, rest) ← clock rest
      pure (match zone rest with
        | some (z, rest) => ((c, some z), rest)
        | none => ((c, none), rest))
    else none
  | [] => none

/-- A date, a time or both. -/
def moment : Read Moment := fun cs =>
  match date cs with
  | some (d, rest) =>
    some (match markedClock rest with
      | some ((c, zone), rest) => (.dateAndClock d c zone, rest)
      | none => (.date d, rest))
  | none => (clock cs).map fun (c, rest) => (.clock c, rest)

/-- Digits in a row of which underscores may separate any two, and nothing else. -/
def digitRun (isDigit : Char → Bool) : Read (List Char) := fun cs =>
  let text := cs.takeWhile fun c => isDigit c || c == '_'
  let separated := Id.run do
    let pairs := text.zip (text.drop 1)
    pure (text.head?.any isDigit && text.getLast?.any isDigit &&
      pairs.all fun (a, b) => !(a == '_' && b == '_'))
  if separated then some (text.filter (· != '_'), cs.drop text.length) else none

/-- An integer with a radix, of which the mark has been read. -/
def radixInteger (radix : Nat) : Read Toml := fun cs => do
  let (text, rest) ← digitRun (fun c => (hexValue? c).any (· < radix)) cs
  let value := (text.filterMap hexValue?).foldl (fun n d => radix * n + d) 0
  if value < 2 ^ (63 : Nat) then pure (.integer value, rest) else none

/-- A text behind its sign, and whether the sign is a minus. -/
def sign (cs : List Char) : Bool × List Char :=
  match cs with
  | '-' :: rest => (true, rest)
  | '+' :: rest => (false, rest)
  | cs => (false, cs)

/-- The digits before a point or exponent; a zero stands alone. -/
def wholePart : Read (List Char)
  | '0' :: rest => some (['0'], rest)
  | cs => digitRun Char.isDigit cs

/-- The digits of a fraction, if there is one. -/
def fractionPart : Read (List Char)
  | '.' :: rest => digitRun Char.isDigit rest
  | cs => some ([], cs)

/-- An exponent, if there is one. -/
def exponentPart : Read (Option Int)
  | mark :: rest =>
    if mark == 'e' || mark == 'E' then do
      let (minus, rest) := sign rest
      let (text, rest) ← digitRun Char.isDigit rest
      let value : Int := Nat.ofDigitChars 10 text 0
      pure (some (if minus then -value else value), rest)
    else some (none, mark :: rest)
  | [] => some (none, [])

/-- A decimal integer or a float. A float that would be infinite is refused unless it is
negative. -/
def decimalNumber : Read Toml := fun cs => do
  let (minus, cs) := sign cs
  match cs with
  | 'i' :: 'n' :: 'f' :: rest =>
    pure (.float (if minus then ⟨Double.infinity.bits + 0x8000000000000000⟩ else .infinity), rest)
  | 'n' :: 'a' :: 'n' :: rest => pure (.float ⟨0x7ff8000000000000⟩, rest)
  | cs =>
    let (whole, cs) ← wholePart cs
    let (fraction, cs) ← fractionPart cs
    let (exponent, cs) ← exponentPart cs
    if fraction.isEmpty && exponent.isNone then
      let value : Int := Nat.ofDigitChars 10 whole 0
      let value := if minus then -value else value
      if -(2 ^ (63 : Nat)) ≤ value ∧ value < 2 ^ (63 : Nat) then pure (.integer value, cs)
      else none
    else
      let d : Decimal := ⟨Nat.ofDigitChars 10 (whole ++ fraction) 0,
        exponent.getD 0 - fraction.length⟩
      let value := d.toDouble
      if value.isInfinite && !minus then none
      else pure (.float (if minus then ⟨value.bits + 0x8000000000000000⟩ else value), cs)

/-- A number, a date or a time. -/
def scalar : Read Toml := fun cs =>
  match moment cs with
  | some (m, rest) => some (.moment m, rest)
  | none =>
    match cs with
    | '0' :: 'x' :: rest => radixInteger 16 rest
    | '0' :: 'o' :: rest => radixInteger 8 rest
    | '0' :: 'b' :: rest => radixInteger 2 rest
    | cs => decimalNumber cs

/-- A word such as `true`. -/
def word (text : String) (value : Toml) : Read Toml := fun cs =>
  let expected := text.toList
  if expected.isPrefixOf cs then some (value, cs.drop expected.length) else none

/-! ## Values -/

mutual

/-- A value, with at most so many brackets one in another. -/
def value : Nat → Nat → Read Toml
  | 0, _, _ => none
  | fuel + 1, depth, cs =>
    match cs with
    | '"' :: _ | '\'' :: _ => (string cs).map fun (text, rest) => (.string text, rest)
    | 't' :: _ => word "true" (.bool true) cs
    | 'f' :: _ => word "false" (.bool false) cs
    | '[' :: rest =>
      match depth with
      | 0 => none
      | depth + 1 =>
        match skipAll rest with
        | ']' :: rest => some (.array [], rest)
        | rest => items fuel depth [] rest
    | '{' :: rest =>
      match depth with
      | 0 => none
      | depth + 1 =>
        match skipBlanks rest with
        | '}' :: rest => some (.table [], rest)
        | rest => members fuel depth [] rest
    | cs => scalar cs

/-- The items of an array that is not empty; a comma may stand behind the last. -/
def items : Nat → Nat → List Toml → Read Toml
  | 0, _, _, _ => none
  | fuel + 1, depth, found, cs => do
    let (item, rest) ← value fuel depth cs
    match skipAll rest with
    | ']' :: rest => pure (.array (item :: found).reverse, rest)
    | ',' :: rest =>
      match skipAll rest with
      | ']' :: rest => pure (.array (item :: found).reverse, rest)
      | rest => items fuel depth (item :: found) rest
    | _ => none

/-- The members of an inline table that is not empty. -/
def members : Nat → Nat → Entries → Read Toml
  | 0, _, _, _ => none
  | fuel + 1, depth, found, cs => do
    let ((path, name), rest) ← key cs
    let (item, rest) ← value fuel depth (skipBlanks (← expect? '=' rest))
    let found ← found.assign path name item
    match skipBlanks rest with
    | '}' :: rest => pure (.table (entriesToToml found), rest)
    | ',' :: rest => members fuel depth found rest
    | _ => none

end

/-! ## Documents -/

/-- A header or an assignment, up to the end of its line. -/
def statement : Read Statement
  | '[' :: '[' :: rest => do
    let ((path, name), rest) ← key rest
    let rest ← expect? ']' (← expect? ']' rest)
    pure (.arrayHeader path name, ← lineEnd? rest)
  | '[' :: rest => do
    let ((path, name), rest) ← key rest
    let rest ← expect? ']' rest
    pure (.header path name, ← lineEnd? rest)
  | cs => do
    let ((path, name), rest) ← key cs
    let rest := skipBlanks (← expect? '=' rest)
    let (value, rest) ← value (2 * rest.length + 2) maxDepth rest
    pure (.assignment path name value, ← lineEnd? rest)

/-- A document from a line on, at most so many lines. -/
def document : Nat → Document → List Char → Option Document
  | 0, _, _ => none
  | fuel + 1, d, cs =>
    match lineEnd? cs with
    | some [] => some d
    | some rest => document fuel d rest
    | none => do
      let (s, rest) ← statement (skipBlanks cs)
      document fuel (← d.add s) rest

end LuaSugar.Toml.Reader

namespace LuaSugar.Toml

/-- The table that a text describes. A byte order mark in front is skipped. -/
def parse? (text : String) : Option Toml :=
  let cs := match text.toList with
    | '\uFEFF' :: rest => rest
    | cs => cs
  (Reader.document (cs.length + 1) .empty cs).map Document.toToml

end LuaSugar.Toml
