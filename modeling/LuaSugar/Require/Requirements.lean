import LuaSugar.Notice
import LuaSugar.Project
import LuaSugar.Require.Call
import LuaSugar.Require.Resolve

/-!
# Requirements

What one module or several require, by where it comes from: files, packages and addresses. A
name means one file; if it would mean two, the first stays and a notice says so.

`Requirements.ofModule` sorts the calls of a module. Every call ends up in exactly one place:
among the requirements, in a notice, or nowhere because the runtime provides what it requires.
-/

namespace LuaSugar

/-- What is required. -/
structure Requirements where
  /-- Files by the name they are required with. -/
  modules : Index String Path
  /-- Packages, which are sorted by protocol first. -/
  packages : KeySet Package
  uris : KeySet String

namespace Requirements

def empty : Requirements := ⟨.empty, .empty, .empty⟩

/-- Add a file under a name, unless the name has one. -/
def insertModule (r : Requirements) (name : String) (path : Path) : Requirements × List Notice :=
  match r.modules.find? name with
  | none => ({ r with modules := r.modules.insert name path }, [])
  | some first => (r, if first.same path then [] else [.conflict name first path])

def insertPackage (r : Requirements) (p : Package) : Requirements :=
  { r with packages := r.packages.add p }

def insertUri (r : Requirements) (uri : String) : Requirements :=
  { r with uris := r.uris.add uri }

/-- Add files under their names, one after the other. -/
def insertModules (r : Requirements) : List (String × Path) → Requirements × List Notice
  | [] => (r, [])
  | (name, path) :: rest =>
    let (r, notices) := r.insertModule name path
    let (r, more) := r.insertModules rest
    (r, notices ++ more)

/-- Add what others require. -/
def union (r other : Requirements) : Requirements × List Notice :=
  let (r, notices) := r.insertModules other.modules.entries
  ({ r with
      packages := r.packages.addAll other.packages.keys
      uris := r.uris.addAll other.uris.keys }, notices)

/-- Whether something has to be fetched. -/
def needsFetching (r : Requirements) : Bool := !r.uris.isEmpty || !r.packages.isEmpty

/-- What has to be fetched, addresses before packages. -/
def outside (r : Requirements) : List Reference :=
  r.uris.keys.map .uri ++ r.packages.keys.map .package

/-- Whether the same is required twice. Paths are compared as paths. -/
def same (r s : Requirements) : Bool :=
  r.modules.keys == s.modules.keys &&
    (r.modules.values.zip s.modules.values).all (fun (p, q) => p.same q) &&
    r.packages.keys == s.packages.keys && r.uris.keys == s.uris.keys

/-! ## Requirements of a module -/

/-- Sorting the calls of a module. -/
structure Sorting where
  requirements : Requirements
  /-- Names without files that there is a notice about. -/
  unresolved : KeySet String
  notices : List Notice

/-- Sort one call of a file. -/
def Sorting.add (p : Project) (view : FileView) (file : Path) (s : Sorting)
    (call : Require.Call) : Sorting :=
  match Reference.ofSpecifier? call.specifier with
  | some (.uri uri) => { s with requirements := s.requirements.insertUri uri }
  | some (.package package) => { s with requirements := s.requirements.insertPackage package }
  | some (.localModule name) =>
    match Require.resolve? view p.root file name with
    | some path =>
      let (requirements, notices) := s.requirements.insertModule name path
      { s with requirements, notices := s.notices ++ notices }
    | none =>
      if p.config.isProvided name || s.unresolved.contains name then s
      else
        { s with
          unresolved := s.unresolved.add name
          notices := s.notices ++ [.unresolved name (p.shown file) call.line] }
  | none =>
    { s with
      notices := s.notices ++ [.malformedIn call.specifier (p.shown file) call.line] }

/-- What a compiled module of a file requires, and what there is to say about it. -/
def ofModule (p : Project) (view : FileView) (file : Path) (c : Chunk) :
    Requirements × List Notice :=
  let sorted := (Require.Call.ofChunk c).foldl (Sorting.add p view file) ⟨empty, .empty, []⟩
  (sorted.requirements, sorted.notices)

end Requirements

end LuaSugar
