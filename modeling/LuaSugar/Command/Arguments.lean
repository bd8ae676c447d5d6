import LuaSugar.Path

/-!
# Arguments

How the words of a command line become a `Command`. Words are read from left to right, and the
first one that asks for help, asks for the version or makes no sense decides:

* two hyphens and a name, or one hyphen and letters, are options; a value follows as the next
  word, behind an equals sign, or directly behind a letter;
* a word that begins with a hyphen is no value, except for a single hyphen;
* behind two hyphens alone nothing is an option any more;
* any other word is an argument, and the first one chooses the command.

What is missing or does not go together is found last.
-/

namespace LuaSugar

/-- What compiling a single source is to print. -/
inductive Emit where
  | lua
  | ast
deriving DecidableEq, Repr

def Emit.ofText? (text : String) : Option Emit :=
  if text == "lua" then some .lua else if text == "ast" then some .ast else none

/-- How a single source is compiled. -/
structure CompileOptions where
  input : Path
  /-- Where the result is written instead of being printed. -/
  output : Option Path
  minify : Bool
  bundle : Bool
  emit : Emit
deriving DecidableEq, Repr

inductive Command where
  | build (directory : Path)
  | compile (options : CompileOptions)
  | init (name : String)
deriving DecidableEq, Repr

namespace Command

/-- What a word may belong to. -/
inductive Topic where
  | program
  | build
  | compile
  | init
  /-- The command that shows help. -/
  | help
deriving DecidableEq, Repr

/-- The command of a word. -/
def Topic.ofName? (name : String) : Option Topic :=
  [("build", build), ("compile", compile), ("init", init), ("help", help)].lookup name

inductive Switch where
  | verbose
  | output
  | minify
  | bundle
  | emit
  | help
  | version
deriving DecidableEq, Repr

namespace Switch

/-- The name behind two hyphens. -/
def name : Switch → String
  | verbose => "verbose"
  | output => "output"
  | minify => "minify"
  | bundle => "bundle"
  | emit => "emit"
  | help => "help"
  | version => "version"

/-- The letter behind one hyphen. -/
def letter? : Switch → Option Char
  | verbose => some 'v'
  | output => some 'o'
  | help => some 'h'
  | version => some 'V'
  | minify | bundle | emit => none

def takesValue : Switch → Bool
  | output | emit => true
  | _ => false

end Switch

/-- The options of a topic. -/
def Topic.switches : Topic → List Switch
  | program => [.verbose, .help, .version]
  | build | init => [.verbose, .help]
  | compile => [.output, .verbose, .minify, .bundle, .emit, .help]
  | help => []

/-- Why a command line makes no sense. -/
inductive UsageFault where
  | noCommand
  | unknownCommand (word : String)
  | unexpected (word : String)
  | noValue (switch : Switch)
  | unwantedValue (switch : Switch)
  | badValue (word : String)
  | repeated (switch : Switch)
  | noInput
  | bundleWithoutOutput
  | bundleWithEmit
deriving DecidableEq, Repr

/-- Wording of a fault. -/
def UsageFault.message : UsageFault → String
  | noCommand => "a command is required"
  | unknownCommand word => "there is no command '" ++ word ++ "'"
  | unexpected word => "unexpected argument '" ++ word ++ "'"
  | noValue switch => "a value is required for '--" ++ switch.name ++ "'"
  | unwantedValue switch => "no value is allowed for '--" ++ switch.name ++ "'"
  | badValue word => "invalid value '" ++ word ++ "'"
  | repeated switch => "'--" ++ switch.name ++ "' cannot be used more than once"
  | noInput => "an input is required"
  | bundleWithoutOutput => "'--bundle' requires '--output'"
  | bundleWithEmit => "'--bundle' cannot be used with '--emit'"

/-- What a command line asks for. -/
inductive Request where
  | run (command : Command)
  /-- Show help, at length or in short. -/
  | help (topic : Topic) (long : Bool)
  | version
  | refuse (fault : UsageFault)
deriving DecidableEq, Repr

/-- What was read of the words of a command. -/
structure Choices where
  argument : Option String := none
  output : Option Path := none
  emit : Option Emit := none
  minify : Bool := false
  bundle : Bool := false

/-- Reading words, unless one of them decides. -/
abbrev Reading := Except Request

def refuse {α : Type} (fault : UsageFault) : Reading α := .error (.refuse fault)

/-! ## Options -/

/-- A path, which has to have a text. -/
def pathOf (word : String) : Reading Path :=
  if word.isEmpty then refuse (.badValue word) else pure (.ofText word)

/-- Take an option without a value into account. -/
def choose (topic : Topic) (long : Bool) (c : Choices) : Switch → Reading Choices
  | .help => .error (.help topic long)
  | .version => .error .version
  | .verbose => pure c
  | .minify => if c.minify then refuse (.repeated .minify) else pure { c with minify := true }
  | .bundle => if c.bundle then refuse (.repeated .bundle) else pure { c with bundle := true }
  | .output => refuse (.noValue .output)
  | .emit => refuse (.noValue .emit)

/-- Take an option with a value into account. -/
def chooseValue (c : Choices) (word : String) : Switch → Reading Choices
  | .output => do
    let path ← pathOf word
    if c.output.isSome then refuse (.repeated .output) else pure { c with output := some path }
  | .emit =>
    match Emit.ofText? word with
    | none => refuse (.badValue word)
    | some emit =>
      if c.emit.isSome then refuse (.repeated .emit) else pure { c with emit := some emit }
  | switch => refuse (.unwantedValue switch)

/-- Read the letters behind a hyphen; the answer may be an option that waits for its value. -/
def readLetters (topic : Topic) (word : String) :
    List Char → Choices → Reading (Choices × Option Switch)
  | [], c => pure (c, none)
  | letter :: rest, c =>
    match topic.switches.find? fun switch => switch.letter? == some letter with
    | none => refuse (.unexpected word)
    | some switch =>
      if switch.takesValue then
        match rest with
        | [] => pure (c, some switch)
        | '=' :: value => do pure (← chooseValue c (String.ofList value) switch, none)
        | value => do pure (← chooseValue c (String.ofList value) switch, none)
      else do readLetters topic word rest (← choose topic false c switch)

/-- Read the name behind two hyphens; the answer may be an option that waits for its value. -/
def readName (topic : Topic) (word text : String) (c : Choices) :
    Reading (Choices × Option Switch) :=
  let (name, value) := match Text.splitFirst? '=' text with
    | some (name, value) => (name, some value)
    | none => (text, none)
  match topic.switches.find? fun switch => switch.name == name with
  | none => refuse (.unexpected word)
  | some switch =>
    match value with
    | some value => do pure (← chooseValue c value switch, none)
    | none =>
      if switch.takesValue then pure (c, some switch)
      else do pure (← choose topic true c switch, none)

/-- Whether a word is an option or ends the options. -/
def isOption (word : String) : Bool :=
  match word.toList with
  | '-' :: _ :: _ => true
  | _ => false

/-- Read an option. -/
def readOption (topic : Topic) (word : String) (c : Choices) :
    Reading (Choices × Option Switch) :=
  match word.toList with
  | '-' :: '-' :: text => readName topic word (String.ofList text) c
  | _ :: letters => readLetters topic word letters c
  | [] => refuse (.unexpected word)

/-! ## Words -/

/-- Take the argument of a command into account. -/
def readArgument (topic : Topic) (word : String) (c : Choices) : Reading Choices := do
  match topic, c.argument with
  | .program, _ | .help, _ | _, some _ => refuse (.unexpected word)
  | .init, none => pure { c with argument := some word }
  | .build, none | .compile, none =>
    discard (pathOf word)
    pure { c with argument := some word }

/-- The topic that help is asked for. -/
def helpFor : List String → Request
  | [] => .help .program true
  | [name] =>
    match Topic.ofName? name with
    | some topic => .help topic true
    | none => .refuse (.unknownCommand name)
  | name :: next :: _ =>
    .refuse (.unknownCommand (if (Topic.ofName? name).isSome then next else name))

/-- Read words; the flag says whether a word can still be an option. -/
def readWords : Topic → Bool → List String → Choices → Reading (Topic × Choices)
  | topic, _, [], c => pure (topic, c)
  | topic, false, word :: rest, c => do readWords topic false rest (← readArgument topic word c)
  | topic, true, word :: rest, c =>
    if word == "--" then readWords topic false rest c
    else if isOption word then do
      match ← readOption topic word c with
      | (c, none) => readWords topic true rest c
      | (c, some switch) =>
        match rest with
        | value :: rest =>
          if isOption value then refuse (.noValue switch)
          else readWords topic true rest (← chooseValue c value switch)
        | [] => refuse (.noValue switch)
    else
      match topic with
      | .program =>
        match Topic.ofName? word with
        | none => refuse (.unknownCommand word)
        | some .help => .error (helpFor rest)
        | some topic => readWords topic true rest c
      | topic => do readWords topic true rest (← readArgument topic word c)

/-- The command of what was read, if nothing is missing. -/
def ofChoices (topic : Topic) (c : Choices) : Reading Command :=
  match topic, c.argument with
  | .program, _ | .help, _ => refuse .noCommand
  | .build, directory => pure (.build (.ofText (directory.getD ".")))
  | .init, name => pure (.init (name.getD "untitled-project"))
  | .compile, none => refuse .noInput
  | .compile, some input =>
    if c.bundle && c.output.isNone then refuse .bundleWithoutOutput
    else if c.bundle && c.emit.isSome then refuse .bundleWithEmit
    else
      pure (.compile
        { input := .ofText input, output := c.output, minify := c.minify, bundle := c.bundle,
          emit := c.emit.getD .lua })

/-- What the words of a command line ask for. -/
def Request.ofWords (words : List String) : Request :=
  let read : Reading Command := do
    let (topic, c) ← readWords .program true words {}
    ofChoices topic c
  match read with
  | .ok command => .run command
  | .error request => request

end Command

end LuaSugar
