import LuaSugar.Command.Arguments

/-!
# Help

What is shown about the program and its commands. A topic has a headline, a usage line, its
commands or arguments, and its options. In short an entry stands on one line, with all
explanations of a section in one column; at length an entry has its explanation below it. Only
`compile` has more to say at length.
-/

namespace LuaSugar.Command

/-- The name of the program. -/
def program : String := "lu"

/-- The version of the program. -/
def version : String := "0.2.0"

/-- An entry of a help text. -/
structure HelpEntry where
  term : String
  text : String
  /-- What may be left out and what may be chosen, as shown in short. -/
  remark : String := ""
  /-- Choices with their explanations. -/
  choices : List (String × String) := []
  /-- What may be left out, as shown at length. -/
  longRemark : String := ""

/-- Entries under a title. -/
structure HelpSection where
  title : String
  entries : List HelpEntry

namespace HelpEntry

/-- An entry on one line, with the explanation in the column behind `width` characters. -/
def inShort (width : Nat) (e : HelpEntry) : String :=
  let gap := String.ofList (List.replicate (width - e.term.length + 2) ' ')
  "  " ++ e.term ++ gap ++ e.text ++ (if e.remark.isEmpty then "" else " " ++ e.remark)

/-- A line below a term. -/
def below (text : String) : String := "          " ++ text

/-- An entry over several lines. Choices stand before the remark, which belongs to the whole entry:
the blank line between them is indented like both. -/
def atLength (e : HelpEntry) : List String :=
  let choices := match e.choices with
    | [] => []
    | choices => "" :: below "Possible values:" ::
        choices.map fun (name, text) => below ("- " ++ name ++ ": " ++ text)
  let remark := if e.longRemark.isEmpty then [] else [below "", below e.longRemark]
  ["  " ++ e.term, below e.text] ++ choices ++ remark

end HelpEntry

namespace HelpSection

/-- The lines of a section in short. -/
def inShort (s : HelpSection) : List String :=
  let width := (s.entries.map (·.term.length)).foldl max 0
  (s.title ++ ":") :: s.entries.map (HelpEntry.inShort width)

/-- The lines of a section at length, with blank lines between entries. -/
def atLength (s : HelpSection) : List String :=
  (s.title ++ ":") :: ([""].intercalate (s.entries.map HelpEntry.atLength))

end HelpSection

/-! ## Contents -/

/-- The headline of a topic. -/
def Topic.headline : Topic → String
  | program => "Compile lu scripts to Lua 5.1"
  | build => "Build the project in a directory"
  | compile => "Compile a single file"
  | init => "Create a new project in the current directory"
  | help => "Print this message or the help of the given subcommand(s)"

/-- What follows the name of the program in the usage line. -/
def Topic.usage : Topic → String
  | program => "[OPTIONS] <COMMAND>"
  | build => "build [OPTIONS] [DIR]"
  | compile => "compile [OPTIONS] <INPUT>"
  | init => "init [OPTIONS] [NAME]"
  | help => "help [COMMAND]..."

/-- The entry of a command. -/
def commandEntry (name : String) (topic : Topic) : HelpEntry :=
  { term := name, text := topic.headline }

def Topic.subject : Topic → HelpSection
  | program => ⟨"Commands", [commandEntry "build" build, commandEntry "compile" compile,
      commandEntry "init" init, commandEntry "help" help]⟩
  | build => ⟨"Arguments",
      [{ term := "[DIR]", text := "Project directory", remark := "[default: .]" }]⟩
  | compile => ⟨"Arguments",
      [{ term := "<INPUT>", text := "Script to compile (.lu or .lua)" }]⟩
  | init => ⟨"Arguments",
      [{ term := "[NAME]", text := "Project name", remark := "[default: untitled-project]" }]⟩
  | help => ⟨"Arguments",
      [{ term := "[COMMAND]...", text := "Print help for the subcommand(s)" }]⟩

/-- The entry of an option; that of help tells where there is more. -/
def Switch.entry (more : String) : Switch → HelpEntry
  | output =>
    { term := "-o, --output <OUTPUT>", text := "Output file (prints to stdout when omitted)" }
  | verbose =>
    { term := "-v, --verbose...", text := "Increase log output (-v info, -vv debug)" }
  | minify => { term := "    --minify", text := "Emit minified Lua" }
  | bundle =>
    { term := "    --bundle", text := "Bundle required local modules into the output" }
  | emit =>
    { term := "    --emit <EMIT>", text := "What to emit"
      remark := "[default: lua] [possible values: lua, ast]"
      longRemark := "[default: lua]"
      choices := [("lua", "Lua source"), ("ast", "Desugared syntax tree as JSON")] }
  | help => { term := "-h, --help", text := "Print help" ++ more }
  | version => { term := "-V, --version", text := "Print version" }

/-- Whether a topic has more to say at length. -/
def Topic.hasMore (topic : Topic) : Bool := topic == .compile

/-- The help about a topic. -/
def helpText (topic : Topic) (long : Bool) : String :=
  let long := long && topic.hasMore
  let more := if !topic.hasMore then "" else
    if long then " (see a summary with '-h')" else " (see more with '--help')"
  let options := topic.switches.map (Switch.entry more)
  let sections := topic.subject :: if options.isEmpty then [] else [⟨"Options", options⟩]
  let parts := [topic.headline] :: ["Usage: " ++ program ++ " " ++ topic.usage] ::
    sections.map (if long then HelpSection.atLength else HelpSection.inShort)
  "\n".intercalate ([""].intercalate parts) ++ "\n"

/-- What is shown about the version. -/
def versionText : String := program ++ " " ++ version ++ "\n"

end LuaSugar.Command
