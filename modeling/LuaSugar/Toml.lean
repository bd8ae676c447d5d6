import LuaSugar.Double.Decimal
import LuaSugar.Toml.Moment

/-!
# TOML documents

A document is a list of statements, headers and assignments, and what it means is a table. The
difficulty is that a table may be defined only once, while a header or a dotted key also brings
the tables above it into being. So a table under construction remembers its `Origin`:

* a table that only a longer header implied may still be opened by a header of its own;
* a table that dotted keys made may be extended by dotted keys and by longer headers;
* a table with a header of its own is closed to both a second header and dotted keys.

`Toml` is the finished value, without origins.
-/

namespace LuaSugar

inductive Toml where
  | string (text : String)
  | bool (value : Bool)
  | integer (value : Int)
  | float (value : Double)
  | moment (moment : Toml.Moment)
  | array (items : List Toml)
  | table (entries : List (String × Toml))

namespace Toml

/-- How a table came into being. -/
inductive Origin where
  /-- By a header of its own; the document as a whole counts as one. -/
  | header
  /-- By a longer header. -/
  | implied
  /-- By a dotted key. -/
  | dotted
deriving DecidableEq, Repr

/-- What a key stands for while a document is read. -/
inductive Node where
  | value (value : Toml)
  | table (origin : Origin) (entries : List (String × Node))
  /-- An array of tables, of which the last one is open. -/
  | tables (items : List (List (String × Node)))

/-- The entries of a table under construction, in the order in which they came. -/
abbrev Entries := List (String × Node)

namespace Entries

/-- The node of a key. -/
def node? (entries : Entries) (key : String) : Option Node :=
  (entries.find? fun entry => entry.1 == key).map (·.2)

/-- Give a key that has a node another. -/
def replace (entries : Entries) (key : String) (node : Node) : Entries :=
  entries.map fun entry => if entry.1 == key then (key, node) else entry

/-- Change the table at a path. Tables that are missing come into being on the way; `dotted` says
whether a dotted key or a header leads there. -/
def updateAt (dotted : Bool) (edit : Origin → Entries → Option Entries) :
    List String → Origin → Entries → Option Entries
  | [], origin, entries => edit origin entries
  | key :: path, _, entries => do
    match entries.node? key with
    | none =>
      let origin := if dotted then .dotted else .implied
      let inner ← updateAt dotted edit path origin []
      pure (entries ++ [(key, .table origin inner)])
    | some (.value _) => none
    | some (.table origin inner) =>
      if dotted && origin == .header then none
      else
        let inner ← updateAt dotted edit path origin inner
        pure (entries.replace key (.table origin inner))
    | some (.tables items) =>
      let last ← items.getLast?
      let last ← updateAt dotted edit path .header last
      pure (entries.replace key (.tables (items.dropLast ++ [last])))

/-- Open the table of a header. -/
def openTable (key : String) (_ : Origin) (entries : Entries) : Option Entries :=
  match entries.node? key with
  | none => some (entries ++ [(key, .table .header [])])
  | some (.table .implied inner) => some (entries.replace key (.table .header inner))
  | some _ => none

/-- Open one more table of an array. -/
def openItem (key : String) (_ : Origin) (entries : Entries) : Option Entries :=
  match entries.node? key with
  | none => some (entries ++ [(key, .tables [[]])])
  | some (.tables items) => some (entries.replace key (.tables (items ++ [[]])))
  | some _ => none

/-- Assign a value to a path below a table; only tables of dotted keys may lie on the way. -/
def assign (path : List String) (key : String) (value : Toml) (entries : Entries) :
    Option Entries :=
  updateAt true (fun origin entries =>
    if !path.isEmpty && origin != .dotted then none
    else if (entries.node? key).isSome then none
    else some (entries ++ [(key, .value value)])) path .header entries

end Entries

mutual

/-- A node without origins. -/
def Node.toToml : Node → Toml
  | .value value => value
  | .table _ entries => .table (entriesToToml entries)
  | .tables items => .array (itemsToToml items)

def entriesToToml : List (String × Node) → List (String × Toml)
  | [] => []
  | (key, node) :: rest => (key, node.toToml) :: entriesToToml rest

def itemsToToml : List (List (String × Node)) → List Toml
  | [] => []
  | entries :: rest => .table (entriesToToml entries) :: itemsToToml rest

end

/-! ## Documents -/

/-- A part of a document that is no comment. A path is given by what leads to its last key, and
that key. -/
inductive Statement where
  | header (path : List String) (key : String)
  | arrayHeader (path : List String) (key : String)
  | assignment (path : List String) (key : String) (value : Toml)

/-- A document as far as it was read. -/
structure Document where
  root : Entries
  /-- The path of the table whose header came last. -/
  open_ : List String

namespace Document

def empty : Document := ⟨[], []⟩

/-- Take one more statement into account, if it redefines nothing. -/
def add (d : Document) : Statement → Option Document
  | .header path key => do
    let root ← Entries.updateAt false (Entries.openTable key) path .header d.root
    pure ⟨root, path ++ [key]⟩
  | .arrayHeader path key => do
    let root ← Entries.updateAt false (Entries.openItem key) path .header d.root
    pure ⟨root, path ++ [key]⟩
  | .assignment path key value => do
    let root ← Entries.updateAt false (fun _ entries => entries.assign path key value) d.open_
      .header d.root
    pure { d with root }

/-- What the document means. -/
def toToml (d : Document) : Toml := .table (entriesToToml d.root)

end Document

end Toml

end LuaSugar
