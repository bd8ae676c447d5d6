import LuaSugar.Text.Quoted
import LuaSugar.Text.Split

/-!
# References

What the argument of `require` refers to, read off its text alone:

* a text that begins with `http:` or `https:` is the address of a module;
* any other text with a colon names a package, `protocol:name` or `protocol:name@version`, and is
  malformed if one of the parts is empty;
* a text without a colon names a module among the files of the project, or one that the runtime
  provides.

A registry turns packages into addresses by a template.
-/

namespace LuaSugar

/-- A package that a registry knows. -/
structure Package where
  protocol : String
  name : String
  version : Option String
  /-- The text it was read off. -/
  specifier : String
deriving DecidableEq, Repr

namespace Package

/-- No version comes before every version. -/
def versionOrder : Option String → Option String → Ordering
  | none, none => .eq
  | none, some _ => .lt
  | some _, none => .gt
  | some v, some w => compare v w

/-- Packages are sorted by their fields, the first that differs deciding. -/
def order (p q : Package) : Ordering :=
  (compare p.protocol q.protocol).then
    ((compare p.name q.name).then
      ((versionOrder p.version q.version).then (compare p.specifier q.specifier)))

instance : Ord Package := ⟨order⟩

/-- The text that refers to a package. -/
def written (p : Package) : String :=
  p.protocol ++ ":" ++ p.name ++ match p.version with
    | some version => "@" ++ version
    | none => ""

/-- The version that stands for no version. -/
def latest : String := "latest"

/-- The address of a package by the template of its registry. -/
def uri (template : String) (p : Package) : String :=
  Text.replace "\x7bversion\x7d" (p.version.getD latest)
    (Text.replace "\x7bname\x7d" p.name template)

end Package

/-- What a `require` refers to. -/
inductive Reference where
  /-- The address of a module. -/
  | uri (uri : String)
  | package (package : Package)
  /-- A module of the project or the runtime. -/
  | localModule (name : String)
deriving DecidableEq, Repr

namespace Reference

/-- Whether a text is the address of a module. -/
def isUri (specifier : String) : Bool :=
  (Text.dropPrefix? "http:" specifier).isSome || (Text.dropPrefix? "https:" specifier).isSome

/-- The package that a text with a colon after `protocol` refers to, unless a part is empty. -/
def package? (specifier protocol rest : String) : Option Package :=
  let (name, version) := match Text.splitFirst? '@' rest with
    | some (name, version) => (name, some version)
    | none => (rest, none)
  if protocol.isEmpty || name.isEmpty || version.any String.isEmpty then none
  else some ⟨protocol, name, version, specifier⟩

/-- What a text refers to, unless it is malformed. -/
def ofSpecifier? (specifier : String) : Option Reference :=
  if isUri specifier then some (.uri specifier)
  else match Text.splitFirst? ':' specifier with
    | none => some (.localModule specifier)
    | some (protocol, rest) => (package? specifier protocol rest).map .package

/-- What is said about a text that is malformed. -/
def malformedMessage (specifier : String) : String :=
  "malformed package reference " ++ Text.quoted specifier

end Reference

end LuaSugar
