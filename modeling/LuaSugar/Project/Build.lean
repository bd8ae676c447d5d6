import LuaSugar.Project.Bundle
import LuaSugar.Project.Fetched
import LuaSugar.Project.Modules

/-!
# Builds

A build finds the modules of a project, fetches what they require from outside, and writes either
one output for each module or a single one. A single output is a bundle of all modules if the
project asks for one, and otherwise the entry alone.
-/

namespace LuaSugar

namespace Project

/-- Find the modules of a project. -/
def modules (p : Project) : Building ModuleSet := do
  let view := (← get).files.view [p.root, p.entry]
  let (modules, notices) := ModuleSet.reachedFrom p view p.entry
  Building.note notices
  MonadExcept.ofExcept modules

/-- The entry with everything it needs. Without any other module it stays as it is. -/
def bundled (s : ModuleSet) (fetched : List FetchedModule) : Chunk :=
  match s.dependencies ++ fetched.map fun m => (m.specifier, m.chunk) with
  | [] => s.entryChunk
  | contents => bundle s.entryChunk contents

/-- Write an output for each module, in the order of their files. -/
def writeModules (p : Project) (outDir : Path) : List (Path × Chunk) → Building Unit
  | [] => pure ()
  | (source, chunk) :: rest => do
    match source.relativeTo? p.root with
    | none => throw (.outsideRoot source)
    | some relative =>
      Building.writeOutput (((p.fromRoot outDir).join relative).withExtension "lua")
        (p.config.layout.render chunk)
      writeModules p outDir rest

/-- Write the outputs. -/
def writeOutputs (p : Project) (s : ModuleSet) (fetched : List FetchedModule) :
    Building Unit := do
  let single (outFile : Path) (c : Chunk) : Building Unit :=
    Building.writeOutput (p.fromRoot outFile) (p.config.layout.render c)
  match p.config.outFile, p.config.outDir with
  | some outFile, outDir =>
    if p.config.bundle then single outFile (bundled s fetched)
    else match outDir with
      | some outDir => p.writeModules outDir s.chunks.entries
      | none => single outFile s.entryChunk
  | none, some outDir => p.writeModules outDir s.chunks.entries
  | none, none => throw (.config (.invalid p.root .noOutput))

/-- Build a project. -/
def build (p : Project) (fetcher : Fetcher) : Building Unit := do
  let s ← p.modules
  let fetched ← if s.requires.needsFetching then FetchedModule.fetchAll p fetcher s.requires
    else pure []
  p.writeOutputs s fetched

/-- Build a project among some files: what is left there, and whether the build failed. -/
def runBuild (p : Project) (fetcher : Fetcher) (files : FileTree) : Except BuildError Unit × Site :=
  (p.build fetcher).run.run (.ofFiles files)

end Project

end LuaSugar
