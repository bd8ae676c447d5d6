import LuaSugar.Command.Help
import LuaSugar.Project.Build
import LuaSugar.Syntax.Json

/-!
# Commands

What running the program does, as a function of its words and the files it finds: an exit code,
what it prints, and the files it leaves.

An error is told as a chain from what was attempted to what went wrong. Errors of a build that
have a cause already tell it, and the chain tells it once more.
-/

namespace LuaSugar.Command

/-- What running the program does. -/
structure Effect where
  code : Nat
  out : String
  err : String
  files : FileTree

namespace Effect

/-- Print a text. -/
def print (files : FileTree) (text : String) : Effect := ⟨0, text, "", files⟩

/-- Fail with a chain of messages. -/
def fail (files : FileTree) (chain : List String) : Effect :=
  ⟨1, "", "error: " ++ ": ".intercalate chain ++ "\n", files⟩

end Effect

/-- What an error of a build tells. -/
def chainOf (e : BuildError) : List String := e.message :: e.cause?.toList

/-- How many notices there were. -/
def summary (notices : List Notice) : String :=
  match notices.length with
  | 0 => "Complete!"
  | 1 => "Complete, with 1 notice:"
  | count => "Complete, with " ++ String.ofList (Nat.toDigits 10 count) ++ " notices:"

/-- What remains of a build: notices are printed after it, warnings apart from the others. -/
def report : Except BuildError Unit × Site → Effect
  | (.error e, site) => .fail site.files (chainOf e)
  | (.ok (), site) =>
    let info := site.notices.filter (·.severity == .info)
    let warnings := site.notices.filter (·.severity == .warning)
    ⟨0, String.join ((summary site.notices :: info.map Notice.text).map (· ++ "\n")),
      String.join (warnings.map fun n => "warning: " ++ n.text ++ "\n"), site.files⟩

/-! ## Building -/

/-- Build the project of a directory. -/
def runBuild (files : FileTree) (fetcher : Fetcher) (directory : Path) : Effect :=
  match Project.load files directory with
  | .error e => .fail files (("failed to open project at " ++ directory.text) :: chainOf e)
  | .ok p => report (p.runBuild fetcher files)

/-! ## Compiling a single source -/

/-- A compiled source in the form that is asked for. -/
def emitted (emit : Emit) (layout : Layout) (c : Chunk) : String :=
  match emit with
  | .ast => (c.toJson fun x => .number x.jsonText).pretty ++ "\n"
  | .lua => layout.render c

/-- Compile a source without its modules, and print or write the result. -/
def runAlone (files : FileTree) (o : CompileOptions) (output : Option Path) : Effect :=
  let compiled : Except (List String) String := do
    let p ← (Project.ofFile files o.input none false o.minify).mapError chainOf
    let source ← (files.read o.input).mapError fun fault =>
      ["failed to read " ++ o.input.text, fault.message]
    let c ← (p.compile source).mapError fun e =>
      ["failed to compile " ++ o.input.text, e.message]
    pure (emitted o.emit p.config.layout c)
  match compiled, output with
  | .error chain, _ => .fail files chain
  | .ok text, none => .print files text
  | .ok text, some path =>
    match files.write path text with
    | .ok files => .print files ""
    | .error fault => .fail files ["failed to write " ++ path.text, fault.message]

/-- Compile a source. With an output it is built like a project, unless its syntax is asked
for. -/
def runCompile (files : FileTree) (fetcher : Fetcher) (o : CompileOptions) : Effect :=
  let output := o.output.map (FileTree.pathOf files.current).join
  match o.emit, output with
  | .lua, some path =>
    match Project.ofFile files o.input (some path) o.bundle o.minify with
    | .error e => .fail files (chainOf e)
    | .ok p => report (p.runBuild fetcher files)
  | _, _ => runAlone files o output

/-! ## Starting a project -/

/-- The descriptor of a new project. -/
def newDescriptor (name : String) : Json :=
  .object [("bundle", .bool true), ("name", .string name), ("outFile", .string "out.lua")]

/-- The first source of a new project. -/
def firstSource : String := "print(\"Hello world!\")\n"

/-- Put a descriptor into the current directory, and a source if there is none. -/
def runInit (files : FileTree) (name : String) : Effect :=
  let root := FileTree.pathOf files.current
  match Config.descriptors.find? fun descriptor => files.exists? (root.joinText descriptor) with
  | some descriptor =>
    .fail files [descriptor ++ " already exists in " ++ root.text ++
      "; remove it or pick another directory"]
  | none =>
    let path := root.joinText Config.newDescriptor
    match files.write path ((newDescriptor name).pretty ++ "\n") with
    | .error fault => .fail files ["failed to write " ++ path.text, fault.message]
    | .ok files =>
      let entry := root.joinText (Config.named name).entrypoint
      let done (files : FileTree) : Effect :=
        .print files ("Project \"" ++ name ++ "\" initialized.\n")
      if files.exists? entry then done files
      else match files.write entry firstSource with
        | .ok files => done files
        | .error fault => .fail files ["failed to write " ++ entry.text, fault.message]

/-! ## Running -/

/-- What is told about a command line that makes no sense. -/
def usageText (fault : UsageFault) : String :=
  match fault with
  | .noCommand => helpText .program false
  | fault => "error: " ++ fault.message ++ "\n\nFor more information, try '--help'.\n"

/-- Run the program with the words of a command line. -/
def run (files : FileTree) (fetcher : Fetcher) (words : List String) : Effect :=
  match Request.ofWords words with
  | .run (.build directory) => runBuild files fetcher directory
  | .run (.compile o) => runCompile files fetcher o
  | .run (.init name) => runInit files name
  | .help topic long => .print files (helpText topic long)
  | .version => .print files versionText
  | .refuse fault => ⟨2, "", usageText fault, files⟩

end LuaSugar.Command
