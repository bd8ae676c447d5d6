import LuaSugar.FileTree

/-!
# Finding local modules

The name of a local module leads to a file. A name that begins with `./` or `../` starts from the
directory of the file that requires it, any other from the root of the project; what follows is
split at dots and slashes alike, so `a.b` and `a/b` are one module. An extension at the end is
dropped, and a file with the extension `lu` is preferred to one with `lua`.
-/

namespace LuaSugar.Require

/-- Follow the dots in front of a name, each two of which go up by a directory. -/
def climb (base : Path) : List Char → Option (Path × List Char)
  | '.' :: '/' :: rest => climb base rest
  | '.' :: '.' :: '/' :: rest => do climb (← base.parent?) rest
  | rest => some (base, rest)

/-- Whether a name starts from the file that requires it. -/
def isRelative : List Char → Bool
  | '.' :: '/' :: _ => true
  | '.' :: '.' :: '/' :: _ => true
  | _ => false

/-- A name without the extension at its end. -/
def stem (name : String) : String :=
  ((Text.dropSuffix? ".lua" name).or (Text.dropSuffix? ".lu" name)).getD name

/-- The path of a name behind its dots, without an extension. -/
def relativePath (stem : String) : Path :=
  (Text.pieces (fun c => c == '.' || c == '/') stem).foldl Path.joinText (.ofText "")

/-- Where a name starts from, and the rest of the name. -/
def start? (name : String) (file root : Path) : Option (Path × String) :=
  if isRelative name.toList then do
    let (base, rest) ← climb (← file.parent?) name.toList
    pure (base, String.ofList rest)
  else some (root, name)

/-- The files that a name may lead to, best first. -/
def candidates (name : String) (file root : Path) : List Path :=
  match start? name file root with
  | none => []
  | some (base, rest) =>
    if (stem rest).isEmpty then []
    else ["lu", "lua"].map ((base.join (relativePath (stem rest))).withExtension ·)

/-- The file that a name required by a file leads to. -/
def resolve? (view : FileView) (root file : Path) (name : String) : Option Path :=
  (candidates name file root).find? view.isFile

end LuaSugar.Require
