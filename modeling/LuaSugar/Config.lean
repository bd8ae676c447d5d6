import LuaSugar.Desugar
import LuaSugar.FileTree
import LuaSugar.Render
import LuaSugar.Text.Blank
import LuaSugar.Text.Quoted

/-!
# Project configurations

What a project asks for: its name, where it begins, what is written where. Not every combination
makes sense, and `Config.fault?` names the first thing that is wrong with one. The order in which
faults are looked for matters, since only one is reported: names, then outputs, then the
constructor, then registries in the order of their protocols.

A configuration that was read from a descriptor may fail to be one for more reasons, which
`ConfigError` collects.
-/

namespace LuaSugar

/-- What a project asks for. -/
structure Config where
  /-- The text that project names in sources stand for. -/
  name : String
  /-- The source that a build begins with, below the root. -/
  entrypoint : String := "init.lua"
  /-- Whether all modules become one output. -/
  bundle : Bool := false
  outFile : Option Path := none
  outDir : Option Path := none
  elementConstructor : String := defaultConstructor
  /-- Modules that the runtime provides. -/
  modules : List String := []
  minify : Bool := false
  /-- Templates of addresses by protocol. -/
  registries : Index String String := .empty
  /-- How many seconds a request may take. -/
  fetchTimeout : Nat := 30

/-- What can be wrong with a configuration. -/
inductive ConfigFault where
  | noName
  | noEntrypoint
  | outDirWithBundle
  | bundleWithoutOutFile
  | outFileWithoutBundle
  | noOutDir
  | constructorNotWord (constructor : String)
  | registryWithoutName (protocol : String)
  /-- Nothing is to be written. -/
  | noOutput
  /-- A single source is to be bundled without an output. -/
  | bundleNowhere
  | inputWithoutName
  | inputWithoutParent
deriving DecidableEq, Repr

/-- Wording of a fault. -/
def ConfigFault.message : ConfigFault → String
  | noName => "name must not be empty"
  | noEntrypoint => "entrypoint must not be empty"
  | outDirWithBundle => "outDir cannot be used with bundle, set outFile instead"
  | bundleWithoutOutFile => "bundle requires outFile"
  | outFileWithoutBundle => "outFile requires bundle, set outDir instead"
  | noOutDir => "outDir is required unless bundle is set"
  | constructorNotWord constructor =>
    "jsxConstructor must be an identifier, got " ++ Text.quoted constructor
  | registryWithoutName protocol =>
    "registry " ++ Text.quoted protocol ++ " must contain a \x7bname\x7d placeholder"
  | noOutput => "no output configured"
  | bundleNowhere => "bundling needs an output file"
  | inputWithoutName => "input must name a file"
  | inputWithoutParent => "input has no parent directory"

namespace Config

/-- The configuration of a project with nothing but a name. -/
def named (name : String) : Config := { name }

/-- What is wrong with the outputs: a bundle has a file, other builds have a directory, and
neither has both. -/
def outputFault? (c : Config) : Option ConfigFault :=
  if c.bundle then
    if c.outDir.isSome then some .outDirWithBundle
    else if c.outFile.isNone then some .bundleWithoutOutFile
    else none
  else
    if c.outFile.isSome then some .outFileWithoutBundle
    else if c.outDir.isNone then some .noOutDir
    else none

/-- Whether a template says where the name of a package goes. -/
def isTemplate (template : String) : Bool := Text.contains "\x7bname\x7d" template

/-- The first registry whose template has no place for a name. -/
def registryFault? (c : Config) : Option ConfigFault :=
  (c.registries.entries.find? fun entry => !isTemplate entry.2).map fun entry =>
    .registryWithoutName entry.1

/-- The first thing that is wrong with a configuration. -/
def fault? (c : Config) : Option ConfigFault :=
  if Text.isBlank c.name then some .noName
  else if Text.isBlank c.entrypoint then some .noEntrypoint
  else c.outputFault?.or
    (if Word.isWord c.elementConstructor then c.registryFault?
      else some (.constructorNotWord c.elementConstructor))

/-- Whether the runtime provides a module. -/
def isProvided (c : Config) (name : String) : Bool := c.modules.contains name

/-- The layout of what is written. -/
def layout (c : Config) : Layout := if c.minify then .minify else .pretty

end Config

/-- Why there is no usable configuration. -/
inductive ConfigError where
  /-- A directory has no descriptor. -/
  | missing (root : Path)
  | unreadable (path : Path) (fault : FileFault)
  | notToml (path : Path)
  | notJson (path : Path)
  | invalid (path : Path) (fault : ConfigFault)
deriving DecidableEq, Repr

/-- Wording of an error. -/
def ConfigError.message : ConfigError → String
  | missing root => "no lu.toml or luconfig.json found in " ++ root.text
  | unreadable path fault => "failed to read " ++ path.text ++ ": " ++ fault.message
  | notToml path | notJson path => "invalid " ++ path.text ++ ": not a descriptor"
  | invalid path fault => path.text ++ ": " ++ fault.message

/-- The configuration, unless something is wrong with it. -/
def Config.validate (c : Config) (path : Path) : Except ConfigError Unit :=
  match c.fault? with
  | some fault => .error (.invalid path fault)
  | none => .ok ()

end LuaSugar
