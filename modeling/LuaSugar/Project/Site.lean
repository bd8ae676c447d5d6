import LuaSugar.Notice
import LuaSugar.Project

/-!
# Building sites

What a build changes while it goes on: the files, the notices so far, the list of outputs, and the
list of what it asked for from outside. A build that fails leaves its site as it is at that moment,
so what was written before stays.

Nothing is fetched but by `Building.fetch`, which keeps account of it.
-/

namespace LuaSugar

structure Site where
  files : FileTree
  notices : List Notice
  /-- Requests for modules from outside in the order in which they were made. -/
  asked : List Request
  /-- Outputs in the order in which they were written. -/
  written : List Path

/-- The site of a build that is about to begin. -/
def Site.ofFiles (files : FileTree) : Site := ⟨files, [], [], []⟩

/-- Steps of a build. -/
abbrev Building := ExceptT BuildError (StateM Site)

namespace Building

def note (notices : List Notice) : Building Unit :=
  modify fun s => { s with notices := s.notices ++ notices }

/-- Account for a request. -/
def ask (request : Request) : Building Unit :=
  modify fun s => { s with asked := s.asked ++ [request] }

/-- Fetch what is asked for. -/
def fetch (fetcher : Fetcher) (request : Request) : Building (Except FetchFault String) := do
  ask request
  pure (fetcher.fetch request.uri)

/-- Fail because of a path. -/
def refuse {α : Type} (path : Path) (fault : FileFault) : Building α := throw (.file path fault)

/-- Make a directory and those above it. -/
def makeDirectories (path : Path) : Building Unit := do
  let (files, outcome) := (← get).files.makeDirectories path
  modify fun s => { s with files }
  match outcome with
  | .ok () => pure ()
  | .error fault => refuse path fault

/-- Remove what stands at a path. -/
def remove (path : Path) : Building Unit := do
  match (← get).files.remove path with
  | .ok files => modify fun s => { s with files }
  | .error fault => refuse path fault

/-- Write a file into a directory that exists. -/
def write (path : Path) (text : String) : Building Unit := do
  match (← get).files.write path text with
  | .ok files => modify fun s => { s with files }
  | .error fault => refuse path fault

/-- Write an output, with the directories it needs. -/
def writeOutput (path : Path) (text : String) : Building Unit := do
  match path.parent? with
  | some parent => makeDirectories parent
  | none => pure ()
  write path text
  modify fun s => { s with written := s.written ++ [path] }

end Building

end LuaSugar
