import LuaSugar.Desugar
import LuaSugar.Fetch
import LuaSugar.Path
import LuaSugar.Require.Reference

/-!
# Notices

What a build has to say without failing. A notice is a cause with what it is about, and the
wording is the same wherever it is shown; most are warnings.
-/

namespace LuaSugar

inductive Severity where
  | info
  | warning
deriving DecidableEq, Repr

def Severity.text : Severity → String
  | info => "info"
  | warning => "warning"

/-- Something to tell about a build. Files are given as they are shown. -/
inductive Notice where
  /-- No file has the module that a file requires. -/
  | unresolved (name : String) (file : Path) (line : Nat)
  /-- One name refers to two files, of which the first is used. -/
  | conflict (name : String) (first second : Path)
  /-- A file requires something malformed. -/
  | malformedIn (specifier : String) (file : Path) (line : Nat)
  /-- A fetched module requires something malformed. -/
  | malformedBy (specifier : String) (requiring : String)
  | noRegistry (package : Package)
  | notFetched (specifier uri : String) (fault : FetchFault)
  | notCompiled (specifier : String) (error : CompileError)
  /-- A fetched module requires one that cannot be looked for. -/
  | leftToRuntime (requiring name : String)
deriving DecidableEq, Repr

namespace Notice

def severity : Notice → Severity
  | leftToRuntime _ _ => .info
  | _ => .warning

/-- A text between double quotes, as it is. -/
def inQuotes (text : String) : String := "\"" ++ text ++ "\""

/-- A file and a line of it. -/
def place (file : Path) (line : Nat) : String :=
  file.text ++ " (line " ++ String.ofList (Nat.toDigits 10 line) ++ ")"

/-- Wording of a notice. -/
def text : Notice → String
  | unresolved name file line =>
    "Unresolved module " ++ inQuotes name ++ " required by " ++ place file line
  | conflict name first second =>
    "Module " ++ inQuotes name ++ " resolves to both " ++ first.text ++ " and " ++ second.text ++
      ", using the first"
  | malformedIn specifier file line =>
    "Skipping " ++ Reference.malformedMessage specifier ++ " in " ++ place file line
  | malformedBy specifier requiring =>
    "Skipping " ++ Reference.malformedMessage specifier ++ " in " ++ inQuotes requiring
  | noRegistry package =>
    "No registry configured for " ++ inQuotes package.protocol ++ ", skipping package " ++
      inQuotes package.specifier
  | notFetched specifier uri fault =>
    "Could not fetch " ++ inQuotes specifier ++ ": " ++ fault.message uri
  | notCompiled specifier error =>
    "Could not compile " ++ inQuotes specifier ++ ": " ++ error.message
  | leftToRuntime requiring name =>
    "Remote module " ++ inQuotes requiring ++ " requires " ++ inQuotes name ++
      ", left to the runtime"

end Notice

end LuaSugar
