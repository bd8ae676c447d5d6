import LuaSugar.Require.Requirements

/-!
# The modules of a project

The modules of a project are what its entry requires, what those require, and so on. `explore`
finds them depth first with a list of files that are still to be visited: a visited file puts the
files it requires in front, in ascending order of their names, and a file that was visited is
passed over when its turn comes again.

Each round visits a file that was not visited before, so there are no more rounds than files that
a view has; `FileView.reach` bounds them.
-/

namespace LuaSugar

/-- A compiled file and what it requires. -/
structure Module where
  path : Path
  chunk : Chunk
  requires : Requirements

/-- The modules of a project. -/
structure ModuleSet where
  entry : Path
  /-- In the order in which they were visited. -/
  modules : List Module
  /-- What all modules together require. -/
  requires : Requirements

/-- Modules that were visited so far. -/
structure Exploration where
  modules : List Module
  requires : Requirements
  notices : List Notice

namespace Exploration

def empty : Exploration := ⟨[], .empty, []⟩

/-- Whether a file was visited. -/
def visited (e : Exploration) (path : Path) : Bool := e.modules.any fun m => m.path.same path

/-- Read and compile a file, and find what it requires. -/
def visit (p : Project) (view : FileView) (path : Path) :
    Except BuildError (Module × List Notice) := do
  let source ← (view.read path).mapError (.file path)
  let chunk ← (p.compile source).mapError (.source path)
  let (requires, notices) := Requirements.ofModule p view path chunk
  pure (⟨path, chunk, requires⟩, notices)

/-- Add a visited module. -/
def add (e : Exploration) (m : Module) (notices : List Notice) : Exploration :=
  let (requires, conflicts) := e.requires.union m.requires
  ⟨e.modules ++ [m], requires, e.notices ++ notices ++ conflicts⟩

/-- Visit pending files and what they require, in at most so many rounds. After an error the
exploration is what it was before the file with the error. -/
def explore (p : Project) (view : FileView) :
    Nat → List Path → Exploration → Exploration × Option BuildError
  | 0, _, e => (e, none)
  | rounds + 1, pending, e =>
    match pending.dropWhile e.visited with
    | [] => (e, none)
    | path :: rest =>
      match visit p view path with
      | .error error => (e, some error)
      | .ok (m, notices) =>
        let e := e.add m notices
        let found := m.requires.modules.values.filter fun path => !e.visited path
        explore p view rounds (found ++ rest) e

end Exploration

namespace ModuleSet

/-- The modules that a file leads to, and what there is to say about them. -/
def reachedFrom (p : Project) (view : FileView) (entry : Path) :
    Except BuildError ModuleSet × List Notice :=
  match Exploration.explore p view (view.reach + 1) [entry] .empty with
  | (e, none) => (.ok ⟨entry, e.modules, e.requires⟩, e.notices)
  | (e, some error) => (.error error, e.notices)

/-- The chunks by file. -/
def chunks (s : ModuleSet) : Index Path Chunk :=
  s.modules.foldl (fun chunks m => chunks.insert m.path m.chunk) .empty

/-- The chunk of the entry. -/
def entryChunk (s : ModuleSet) : Chunk := (s.chunks.find? s.entry).getD ⟨.empty, []⟩

/-- The chunks of all modules but the entry, by the names they are required with. -/
def dependencies (s : ModuleSet) : List (String × Chunk) :=
  s.requires.modules.entries.filterMap fun (name, path) =>
    if path.same s.entry then none else (s.chunks.find? path).map (name, ·)

end ModuleSet

end LuaSugar
