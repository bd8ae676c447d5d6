import LuaSugar.Index
import LuaSugar.Path

/-!
# File trees

The files that a build sees and changes, as a value. A tree knows what stands at each `Location`,
which is the list of names that lead there from the root; a `Path` has to be followed to a
location first, step by step, and each step but the last has to lead into a directory. Two dots
lead back to where the step before came from, so unlike comparison of paths following them
depends on the tree.

Operations answer a `FileFault` where an operating system would refuse. A refused operation
changes nothing.
-/

namespace LuaSugar

/-- The names from the root to a place. -/
abbrev Location := List String

/-- What stands at a location. -/
inductive FileNode where
  | file (text : String)
  /-- A file that holds no text. -/
  | binary
  | directory
deriving DecidableEq, Repr

/-- Why an operation is refused. -/
inductive FileFault where
  | notFound
  | alreadyExists
  | notDirectory
  | isDirectory
  | nameTooLong
  | nulInPath
  | notText
  /-- The path is not among the files that are listed. -/
  | notListed
deriving DecidableEq, Repr

/-- Wording of a fault. -/
def FileFault.message : FileFault → String
  | notFound => "No such file or directory (os error 2)"
  | alreadyExists => "File exists (os error 17)"
  | notDirectory => "Not a directory (os error 20)"
  | isDirectory => "Is a directory (os error 21)"
  | nameTooLong => "File name too long (os error 36)"
  | nulInPath => "file name contained an unexpected NUL byte"
  | notText => "stream did not contain valid UTF-8"
  | notListed => "no such file"

/-- What stands where, and the directory from which relative paths start. The root is always a
directory and is not listed. -/
structure FileTree where
  nodes : Index Location FileNode
  current : Location

namespace FileTree

/-- The tree without files. -/
def empty : FileTree := ⟨.empty, []⟩

/-- What stands at a location. -/
def node? (t : FileTree) (location : Location) : Option FileNode :=
  if location.isEmpty then some .directory else t.nodes.find? location

/-- Put a node at a location, whatever stood there. -/
def put (t : FileTree) (location : Location) (node : FileNode) : FileTree :=
  { t with nodes := t.nodes.insert location node }

/-- Put a node at a location, with the directories above it. -/
def plant (t : FileTree) (location : Location) (node : FileNode) : FileTree :=
  let above := (List.range location.length).filterMap fun n =>
    if n = 0 then none else some (location.take n)
  let t := above.foldl (fun t l => if (t.node? l).isNone then t.put l .directory else t) t
  if location.isEmpty then t else t.put location node

/-- How many files there are. -/
def fileCount (t : FileTree) : Nat :=
  t.nodes.values.countP fun node => match node with
    | .directory => false
    | _ => true

/-! ## Following paths -/

/-- The longest file name, in bytes. -/
def maxNameSize : Nat := 255

/-- The longest path of an operation on a file or directory, in bytes. -/
def maxPathSize : Nat := 4095

/-- Whether a path is too long as a whole. -/
def isTooLong (p : Path) : Bool := maxPathSize < p.text.utf8ByteSize

/-- Whether a path has a character that the path of an operation may not have. Proofs do not look
into it. -/
@[irreducible] def hasNul (p : Path) : Bool := p.text.toList.contains '\x00'

/-- One step from a location, which has to be a directory, to where a piece of a path leads. -/
def step (t : FileTree) (location : Location) (piece : String) : Except FileFault Location :=
  match t.node? location with
  | none => .error .notFound
  | some .directory =>
    if Path.isFiller piece then .ok location
    else if piece == ".." then .ok location.dropLast
    else if maxNameSize < piece.utf8ByteSize then .error .nameTooLong
    else .ok (location ++ [piece])
  | some _ => .error .notDirectory

/-- Where the pieces of a path lead; nothing need stand there. -/
def follow (t : FileTree) (p : Path) : Except FileFault Location :=
  if hasNul p then .error .nulInPath
  else if p.isEmpty then .error .notFound
  else p.pieces.foldlM t.step (if p.isAbsolute then [] else t.current)

/-- The location to which a path leads, and what stands there. -/
def find (t : FileTree) (p : Path) : Except FileFault (Location × FileNode) := do
  let location ← t.follow p
  match t.node? location with
  | some node => pure (location, node)
  | none => throw .notFound

/-- The location of what stands at a path that an operation is about. -/
def locate (t : FileTree) (p : Path) : Except FileFault (Location × FileNode) := do
  if hasNul p then throw .nulInPath
  if isTooLong p then throw .nameTooLong
  t.find p

/-- The path of a location. -/
def pathOf (location : Location) : Path :=
  if location.isEmpty then ⟨["", ""]⟩ else ⟨"" :: location⟩

/-- The path of what stands at a path, without fillers and dots. It is found step by step, so the
path may be long. -/
def canonical (t : FileTree) (p : Path) : Except FileFault Path := do
  pure (pathOf (← t.find p).1)

/-- Whether something stands at a path. -/
def exists? (t : FileTree) (p : Path) : Bool := (t.locate p).toOption.isSome

/-- Whether a file stands at a path. -/
def isFile (t : FileTree) (p : Path) : Bool :=
  match t.locate p with
  | .ok (_, .directory) => false
  | .ok _ => true
  | .error _ => false

/-- Whether a directory stands at a path. -/
def isDirectory (t : FileTree) (p : Path) : Bool :=
  match t.locate p with
  | .ok (_, .directory) => true
  | _ => false

/-- The text of the file at a path. -/
def read (t : FileTree) (p : Path) : Except FileFault String := do
  match (← t.locate p).2 with
  | .file text => pure text
  | .binary => throw .notText
  | .directory => throw .isDirectory

/-- Whether a location is a directory without entries. -/
def isEmptyDirectory (t : FileTree) (p : Path) : Bool :=
  match t.locate p with
  | .ok (location, .directory) =>
    t.nodes.keys.all fun l => !(location.isPrefixOf l && location.length < l.length)
  | _ => false

/-! ## Making and removing -/

/-- The last step of a path that need not exist yet. -/
inductive LastStep where
  /-- To a directory that exists, without a name of its own. -/
  | directory
  /-- To a name in a directory that exists. -/
  | name (location : Location)

/-- The last step of a path, and whether slashes stand behind it. -/
def lastStep (t : FileTree) (p : Path) : Except FileFault (LastStep × Bool) := do
  if hasNul p then throw .nulInPath
  if isTooLong p then throw .nameTooLong
  if p.isEmpty then throw .notFound
  let pieces := (p.pieces.reverse.dropWhile (· == "")).reverse
  let slashes := pieces.length < p.pieces.length
  let start := if p.isAbsolute then [] else t.current
  match pieces.getLast? with
  | none => pure (.directory, slashes)
  | some last =>
    let directory ← pieces.dropLast.foldlM t.step start
    let location ← t.step directory last
    pure (if last == "." || last == ".." then .directory else .name location, slashes)

/-- Write a file. A directory is never overwritten, and a name before a slash would be one. -/
def write (t : FileTree) (p : Path) (text : String) : Except FileFault FileTree := do
  match ← t.lastStep p with
  | (.directory, _) | (_, true) => throw .isDirectory
  | (.name location, false) =>
    if t.node? location == some .directory then throw .isDirectory
    pure (t.put location (.file text))

/-- Make one directory. -/
def makeDirectory (t : FileTree) (p : Path) : Except FileFault FileTree := do
  match ← t.lastStep p with
  | (.directory, _) => throw .alreadyExists
  | (.name location, _) =>
    if (t.node? location).isSome then throw .alreadyExists
    pure (t.put location .directory)

/-- Make the first of some directories, each in the one that follows, as far as they do not
exist. -/
def makeFirst (t : FileTree) : List Path → FileTree × Except FileFault Unit
  | [] => (t, .error .notFound)
  | p :: above =>
    if p.isEmpty then (t, .ok ())
    else match t.makeDirectory p with
      | .ok t => (t, .ok ())
      | .error .notFound =>
        match makeFirst t above with
        | (t, .ok ()) =>
          match t.makeDirectory p with
          | .ok t => (t, .ok ())
          | .error fault => if t.isDirectory p then (t, .ok ()) else (t, .error fault)
        | failed => failed
      | .error fault => if t.isDirectory p then (t, .ok ()) else (t, .error fault)

/-- Make a directory and those above it. After a fault those that were made stay. -/
def makeDirectories (t : FileTree) (p : Path) : FileTree × Except FileFault Unit :=
  t.makeFirst p.ancestors

/-- Remove what stands at a path. -/
def remove (t : FileTree) (p : Path) : Except FileFault FileTree := do
  let (location, _) ← t.locate p
  pure { t with nodes := t.nodes.erase location }

end FileTree

/-! ## Views -/

/-- Files as a reader sees them. -/
structure FileView where
  isFile : Path → Bool
  read : Path → Except FileFault String
  /-- How many different paths of files a reader can come across. -/
  reach : Nat

namespace FileView

/-- Files that are listed with their texts, and are found by comparison of paths. -/
def listed (files : Index Path String) : FileView where
  isFile := files.contains
  read p := match files.find? p with
    | some text => .ok text
    | none => .error .notListed
  reach := files.size

end FileView

-- the zero of the core library, whatever is imported beside it
attribute [local instance (high)] Zero.ofOfNat0

/-- The view of a tree for a reader that goes up from `origins` and down by names. Each file has
at most one path that goes down from any one of the directories above an origin, and above each
of them is one more place. -/
def FileTree.view (t : FileTree) (origins : List Path) : FileView where
  isFile := t.isFile
  read := t.read
  reach := (t.fileCount + 1) * (origins.map fun p => p.pieces.length + 1).sum

end LuaSugar
