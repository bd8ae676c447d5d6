import LuaSugar.Project.Site
import LuaSugar.Require.Requirements

/-!
# Fetched modules

Modules outside the project are fetched, compiled and put into a directory of their own, and then
those that they require in turn. `collect` keeps a list of references that are still to be
followed: what a fetched module requires comes in front of it, in the order of its calls.

**Each specifier is fetched once**, whatever comes of it; a package without a registry is not
fetched and there is a notice about it each time. Each round fetches a specifier that was not
fetched before, so there are no more rounds than the references at the start and the answers of
the fetcher can name.
-/

namespace LuaSugar

/-- A fetched and compiled module. -/
structure FetchedModule where
  /-- The text it is required with. -/
  specifier : String
  uri : String
  chunk : Chunk
  /-- Where it was put. -/
  path : Path

namespace FetchedModule

/-- What a reference asks for; a package needs a registry. -/
def request? (p : Project) : Reference → Option Request
  | .uri uri => some ⟨uri, uri⟩
  | .package package =>
    (p.config.registries.find? package.protocol).map fun template =>
      ⟨package.specifier, package.uri template⟩
  | .localModule _ => none

/-- What there is to say about a reference that asks for nothing. -/
def unanswerable : Reference → List Notice
  | .package package => [.noRegistry package]
  | .uri _ | .localModule _ => []

/-- The first request of a list for something that was not fetched before, what is behind it, and
what there is to say about those in front of it. -/
def nextRequest (p : Project) (fetched : KeySet String) :
    List Reference → List Notice × Option (Request × List Reference)
  | [] => ([], none)
  | reference :: rest =>
    match request? p reference with
    | none =>
      let (notices, found) := nextRequest p fetched rest
      (unanswerable reference ++ notices, found)
    | some request =>
      if fetched.contains request.specifier then nextRequest p fetched rest
      else ([], some (request, rest))

/-- The file name of a module: letters, digits and hyphens stay, all else becomes an
underscore. -/
def fileName (specifier : String) : String :=
  String.ofList (specifier.toList.map fun c => if c.isAlphanum || c == '-' then c else '_') ++
    ".lua"

/-- What a fetched module requires from outside the project. -/
def requires (c : Chunk) : List Reference :=
  (Require.Call.ofChunk c).filterMap fun call =>
    match Reference.ofSpecifier? call.specifier with
    | some (.localModule _) | none => none
    | some reference => some reference

/-- What there is to say about what a fetched module requires. -/
def remarks (p : Project) (requiring : String) (c : Chunk) : List Notice :=
  (Require.Call.ofChunk c).filterMap fun call =>
    match Reference.ofSpecifier? call.specifier with
    | some (.localModule name) =>
      if p.config.isProvided name then none else some (.leftToRuntime requiring name)
    | some _ => none
    | none => some (.malformedBy call.specifier requiring)

/-- Compile what a request is answered with, or say why there is no module. -/
def admit? (p : Project) (request : Request) (answer : Except FetchFault String) :
    Except Notice Chunk := do
  let source ← answer.mapError (.notFetched request.specifier request.uri)
  (p.compile source).mapError (.notCompiled request.specifier)

/-- Follow references in at most so many rounds. -/
def collect (p : Project) (fetcher : Fetcher) :
    Nat → List Reference → KeySet String → Building (List FetchedModule)
  | 0, _, _ => pure []
  | rounds + 1, pending, fetched => do
    let (notices, next) := nextRequest p fetched pending
    Building.note notices
    match next with
    | none => pure []
    | some (request, rest) =>
      let fetched := fetched.add request.specifier
      match admit? p request (← Building.fetch fetcher request) with
      | .error notice =>
        Building.note [notice]
        collect p fetcher rounds rest fetched
      | .ok chunk =>
        Building.note (remarks p request.specifier chunk)
        let path := p.fetchedDir.joinText (fileName request.specifier)
        Building.write path (p.config.layout.render chunk)
        let more ← collect p fetcher rounds (requires chunk ++ rest) fetched
        pure (⟨request.specifier, request.uri, chunk, path⟩ :: more)

/-- The modules from outside that requirements lead to. The directory for them is removed again
if nothing is in it. -/
def fetchAll (p : Project) (fetcher : Fetcher) (r : Requirements) :
    Building (List FetchedModule) := do
  Building.makeDirectories p.fetchedDir
  let modules ← collect p fetcher (r.outside.length + fetcher.reach + 1) r.outside .empty
  if modules.isEmpty && (← get).files.isEmptyDirectory p.fetchedDir then
    Building.remove p.fetchedDir
  pure modules

end FetchedModule

end LuaSugar
