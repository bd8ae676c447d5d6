import LuaSugar.Text.Split

/-!
# Paths

A path is a text with slashes, and it keeps its spelling: joining, going up and changing an
extension are edits of the text between slashes (`pieces`), and the text is what messages show.
What a path means to comparison is its `components`. Empty pieces and single dots are not
components, two dots are one that is *not* resolved, and a leading slash or dot counts.

**Paths are compared by components**, in `same` and in the order by which paths are sorted, so
`a//b` and `a/./b` are one path in two spellings.
-/

namespace LuaSugar

/-- A path, by the texts between its slashes. -/
structure Path where
  pieces : List String
deriving DecidableEq, Repr, Inhabited

namespace Path

/-- What comparison sees of a path. -/
inductive Component where
  /-- A slash in front. -/
  | root
  /-- A single dot in front. -/
  | current
  | parent
  | name (text : String)
deriving DecidableEq, Repr

namespace Component

def rank : Component → Nat
  | root => 0
  | current => 1
  | parent => 2
  | name _ => 3

/-- Names come last and are ordered as texts. -/
def order : Component → Component → Ordering
  | name a, name b => compare a b
  | a, b => compare a.rank b.rank

instance : Ord Component := ⟨order⟩

end Component

def ofText (text : String) : Path := ⟨Text.pieces (· == '/') text⟩

/-- The path as written. -/
def text (p : Path) : String := "/".intercalate p.pieces

/-- A piece that is no component. -/
def isFiller (piece : String) : Bool := piece == "" || piece == "."

/-- The component of a piece behind the front of a path. -/
def component? (piece : String) : Option Component :=
  if isFiller piece then none else if piece == ".." then some .parent else some (.name piece)

/-- The front of a path, as a piece and a component, and the pieces behind it. -/
def split (p : Path) : Option (String × Component) × List String :=
  match p.pieces with
  | "" :: next :: rest => (some ("", .root), next :: rest)
  | "." :: rest => (some (".", .current), rest)
  | pieces => (none, pieces)

/-- The path of a front and the pieces behind it. -/
def unsplit (front : Option (String × Component)) (pieces : List String) : Path :=
  match front, pieces with
  | some (_, .root), [] => ⟨["", ""]⟩
  | some (piece, _), pieces => ⟨piece :: pieces⟩
  | none, [] => ⟨[""]⟩
  | none, pieces => ⟨pieces⟩

def components (p : Path) : List Component :=
  let (front, rest) := p.split
  (front.map (·.2)).toList ++ rest.filterMap component?

instance : Ord Path := ⟨fun p q => compare p.components q.components⟩

/-- Whether two paths have the same components. -/
def same (p q : Path) : Bool := p.components == q.components

def isAbsolute (p : Path) : Bool := p.components.head? == some .root

/-- The path without text. -/
def isEmpty (p : Path) : Bool := p.pieces == [""]

/-- Pieces without the fillers at their end. -/
def trimEnd (pieces : List String) : List String := (pieces.reverse.dropWhile isFiller).reverse

/-- The path without its last component and the fillers before it. A slash has no parent. -/
def parent? (p : Path) : Option Path :=
  let (front, rest) := p.split
  match (trimEnd rest).dropLast, trimEnd rest, front with
  | before, _ :: _, front => some (unsplit front (trimEnd before))
  | _, [], some (_, .current) => some (ofText "")
  | _, [], _ => none

/-- A path below another, unless it is absolute and stands for itself. -/
def join (p q : Path) : Path :=
  if q.isAbsolute then q
  else if p.pieces.getLast? == some "" then ⟨p.pieces.dropLast ++ q.pieces⟩
  else ⟨p.pieces ++ q.pieces⟩

/-- Join a text. -/
def joinText (p : Path) (text : String) : Path := p.join (ofText text)

/-- The last component, if it is a name. -/
def fileName? (p : Path) : Option String :=
  match p.components.getLast? with
  | some (.name text) => some text
  | _ => none

/-- A file name before and after its last dot. A dot in front is part of the name. -/
def splitExtension (name : String) : String × Option String :=
  let after := (name.toList.reverse.takeWhile (· != '.')).reverse
  match name.toList.take (name.length - after.length) with
  | [] | ['.'] => (name, none)
  | before => (String.ofList before.dropLast, some (String.ofList after))

/-- The text after the last dot of the file name. -/
def extension? (p : Path) : Option String := p.fileName?.bind fun name => (splitExtension name).2

/-- A last piece with another extension. The extension it has is taken away first, up to its dot;
of `..x` two dots remain, which name no file and get no extension. -/
def extended (extension piece : String) : String :=
  let (stem, _) := splitExtension piece
  if stem == "." then ".." else stem ++ "." ++ extension

/-- The path with another extension, and without the fillers at its end; a path without a file
name stays as it is. -/
def withExtension (p : Path) (extension : String) : Path :=
  match p.fileName? with
  | none => p
  | some name =>
    let (front, rest) := p.split
    let last := if rest.getLast? == some name then extended extension name
      else (splitExtension name).1 ++ "." ++ extension
    unsplit front ((trimEnd rest).dropLast ++ [last])

/-- Pieces from the component with a number on. -/
def dropComponents : Nat → List String → List String
  | 0, pieces => pieces.dropWhile isFiller
  | n + 1, pieces =>
    match pieces.dropWhile isFiller with
    | [] => []
    | _ :: rest => dropComponents n rest

/-- What remains of a path behind another that it begins with. -/
def relativeTo? (p base : Path) : Option Path :=
  if base.components.isPrefixOf p.components then
    let (front, rest) := p.split
    match base.components.length, front with
    | 0, front => some (unsplit front (trimEnd rest))
    | n + 1, some _ => some (unsplit none (trimEnd (dropComponents n rest)))
    | n + 1, none => some (unsplit none (trimEnd (dropComponents (n + 1) rest)))
  else none

/-- The path and the paths above it, nearest first. -/
def ancestors (p : Path) : List Path :=
  let rec above : Nat → Path → List Path
    | 0, p => [p]
    | n + 1, p => p :: (p.parent?.map (above n)).getD []
  above p.pieces.length p

end Path

end LuaSugar
