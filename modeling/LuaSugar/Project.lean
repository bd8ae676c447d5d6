import LuaSugar.Config.Descriptor

/-!
# Projects

A project is a configuration and the directory that its paths start from. Most projects have a
descriptor in that directory (`Project.load`); a single source can be a project of its own
(`Project.ofFile`).

Sources of a project may use a name that stands for the name of the project. `Project.compile`
replaces it after everything else, so it is replaced in what the other passes made as well.
-/

namespace LuaSugar

/-- Why a build fails. -/
inductive BuildError where
  | config (e : ConfigError)
  | file (path : Path) (fault : FileFault)
  | source (path : Path) (e : CompileError)
  /-- A module has no place among the outputs. -/
  | outsideRoot (path : Path)
deriving DecidableEq, Repr

namespace BuildError

/-- What an error names as its own cause. -/
def cause? : BuildError → Option String
  | file _ fault => some fault.message
  | source _ e => some e.message
  | config (.unreadable _ fault) => some fault.message
  | config _ | outsideRoot _ => none

/-- Wording of an error. -/
def message : BuildError → String
  | config e => e.message
  | file path fault => path.text ++ ": " ++ fault.message
  | source path e => "failed to compile " ++ path.text ++ ": " ++ e.message
  | outsideRoot path => path.text ++ " is outside the project root"

end BuildError

structure Project where
  /-- The directory that relative paths start from. -/
  root : Path
  config : Config

namespace Project

/-- The project of a directory with a descriptor. -/
def load (files : FileTree) (directory : Path) : Except BuildError Project := do
  let root ← (files.canonical directory).mapError (.file directory)
  let (config, _) ← (Config.load files root).mapError .config
  pure ⟨root, config⟩

/-- The project of a single source, which is named after the source and has an output only if it
is given one. -/
def ofFile (files : FileTree) (input : Path) (outFile : Option Path) (bundle minify : Bool) :
    Except BuildError Project := do
  let source ← (files.canonical input).mapError (.file input)
  let refuse {α : Type} (fault : ConfigFault) : Except BuildError α :=
    .error (.config (.invalid source fault))
  match source.fileName?, source.parent? with
  | none, _ => refuse .inputWithoutName
  | some _, none => refuse .inputWithoutParent
  | some name, some root =>
    if bundle && outFile.isNone then refuse .bundleNowhere
    else pure ⟨root, { Config.named name with entrypoint := name, bundle, minify, outFile }⟩

/-- The source that a build begins with. -/
def entry (p : Project) : Path := p.root.joinText p.config.entrypoint

/-- A path that starts from the root unless it is absolute. -/
def fromRoot (p : Project) (path : Path) : Path := p.root.join path

/-- Where fetched modules are put. -/
def fetchedDir (p : Project) : Path := p.root.joinText ".lu-modules"

/-- A path as it is shown: from the root on, if it is below it. -/
def shown (p : Project) (path : Path) : Path := (path.relativeTo? p.root).getD path

/-! ## Compiling -/

/-- The name that stands for the name of the project. -/
def placeholder : String := "__LU_PROJECT__"

/-- Whether a node is the name that stands for the name of the project. -/
def isPlaceholder : Expr → Bool
  | .atom (.name text) => text == placeholder
  | _ => false

/-- Replace placeholders by a text. -/
def naming (name : String) : Pass Unit Empty := .ofExpression fun root _ => do
  ((← Edit.arena).leaves root).forM fun leaf => do
    if isPlaceholder ((← Edit.arena).get leaf) then Edit.replace leaf (.ofText name)

end Project

/-- Replace the placeholders of a chunk by a text. -/
def nameProject (name : String) (c : Chunk) : Chunk := ((Project.naming name).run () c).chunk

/-- Compile a source of a project. -/
def Project.compile (p : Project) (source : String) : Except CompileError Chunk := do
  pure (nameProject p.config.name (← LuaSugar.compile p.config.elementConstructor source))

end LuaSugar
