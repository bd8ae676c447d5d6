import LuaSugar.Command

/-!
# The program

The outer layer: it looks at the files around the paths of a command, runs the command on what it
saw, and carries out what the command did to them. Directories above the project are seen with
what stands directly in them. There is no connection to fetch modules with.
-/

namespace LuaSugar.Main

/-- How deep directories are looked into. -/
def depthLimit : Nat := 32

/-- The names in a path. -/
def namesOf (path : Path) : Location :=
  path.components.filterMap fun
    | .name text => some text
    | _ => none

/-- A file as it is on the disk. -/
def readNode (path : Path) : IO FileNode := do
  match String.fromUTF8? (← IO.FS.readBinFile path.text) with
  | some text => pure (.file text)
  | none => pure .binary

/-- Add what stands at a location, at most so many directories deep. What cannot be read is left
out. -/
def look : Nat → FileTree → Location → IO FileTree
  | depth, files, location => do
    let path := FileTree.pathOf location
    let place := (← IO.currentDir) / path.text
    try
      match (← place.metadata).type with
      | .dir =>
        let files := files.plant location .directory
        match depth with
        | 0 => pure files
        | depth + 1 =>
          (← place.readDir).foldlM (fun files entry =>
            look depth files (location ++ [entry.fileName])) files
      | .file => pure (files.plant location (← readNode path))
      | _ => pure files
    catch _ => pure files

/-- Add a directory to some depth, and what stands directly in those above it. -/
def lookAround (depth : Nat) (files : FileTree) (location : Location) : IO FileTree := do
  let files ← look depth files location
  (List.range location.length).foldlM (fun files n => look 1 files (location.take n)) files

/-- The names that lead to a place, if something stands there, and whether it is a directory. -/
def realNames? (path : Path) : IO (Option (Location × Bool)) := do
  let place := (← IO.currentDir) / path.text
  try
    let names := namesOf (.ofText (← IO.FS.realPath place).toString)
    pure (some (names, ← place.isDir))
  catch _ => pure none

/-- Add the directory of a path and what is around it. -/
def lookAt (depth : Nat) (files : FileTree) (path : Path) : IO FileTree := do
  match ← realNames? path with
  | some (names, true) => lookAround depth files names
  | some (names, false) => lookAround depth files names.dropLast
  | none =>
    match ← realNames? (path.parent?.getD path) with
    | some (names, true) => lookAround 1 files names
    | _ => pure files

/-- The files that a command line is about. -/
def survey (words : List String) : IO FileTree := do
  let here := namesOf (.ofText (← IO.currentDir).toString)
  let files ← lookAround 1 { FileTree.empty with current := here } here
  match Command.Request.ofWords words with
  | .run (.build directory) => lookAt depthLimit files directory
  | .run (.compile o) => do
    let files ← lookAt depthLimit files o.input
    match o.output with
    | some output => lookAt 1 files output
    | none => pure files
  | _ => pure files

/-- Carry out what became of some files. -/
def carryOut (before after : FileTree) : IO Unit := do
  after.nodes.entries.forM fun (location, node) => do
    let path := (FileTree.pathOf location).text
    if before.node? location != some node then
      match node with
      | .file text => IO.FS.writeFile path text
      | .directory => IO.FS.createDirAll path
      | .binary => pure ()
  before.nodes.keys.forM fun location => do
    if (after.node? location).isNone then IO.FS.removeDir (FileTree.pathOf location).text

/-- Run a command line; the answer is the exit code. -/
def run (words : List String) : IO UInt32 := do
  let files ← survey words
  let effect := Command.run files (.offline "the network is out of reach") words
  carryOut files effect.files
  IO.print effect.out
  IO.eprint effect.err
  pure effect.code.toUInt32

end LuaSugar.Main

def main (words : List String) : IO UInt32 := LuaSugar.Main.run words
