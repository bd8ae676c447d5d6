/-!
# Indexes

An index maps keys to values and lists them in ascending order of their keys, so that whatever is
printed from it does not depend on the order of insertion. Keys that compare as equal are one
key; the key that was inserted first is the one that is listed.
-/

namespace LuaSugar

/-- Values by key, in ascending order of keys. -/
structure Index (κ α : Type) where
  entries : List (κ × α)

/-- Keys without values, in ascending order. -/
abbrev KeySet (κ : Type) := Index κ Unit

namespace Index

variable {κ α : Type}

def empty : Index κ α := ⟨[]⟩

instance : EmptyCollection (Index κ α) := ⟨empty⟩

instance : Inhabited (Index κ α) := ⟨empty⟩

def keys (index : Index κ α) : List κ := index.entries.map (·.1)

def values (index : Index κ α) : List α := index.entries.map (·.2)

def isEmpty (index : Index κ α) : Bool := index.entries.isEmpty

def size (index : Index κ α) : Nat := index.entries.length

variable [Ord κ]

/-- The value of a key. -/
def find? (index : Index κ α) (key : κ) : Option α :=
  (index.entries.find? fun entry => compare key entry.1 == .eq).map (·.2)

def contains (index : Index κ α) (key : κ) : Bool := (index.find? key).isSome

/-- The entries with one more; a value that the key had is replaced. -/
def insertEntry (key : κ) (value : α) : List (κ × α) → List (κ × α)
  | [] => [(key, value)]
  | (k, v) :: rest =>
    match compare key k with
    | .lt => (key, value) :: (k, v) :: rest
    | .eq => (k, value) :: rest
    | .gt => (k, v) :: insertEntry key value rest

/-- Give a key a value. -/
def insert (index : Index κ α) (key : κ) (value : α) : Index κ α :=
  ⟨insertEntry key value index.entries⟩

/-- The index without a key. -/
def erase (index : Index κ α) (key : κ) : Index κ α :=
  ⟨index.entries.filter fun entry => compare key entry.1 != .eq⟩

/-- Add a key to a set. -/
def add (set : KeySet κ) (key : κ) : KeySet κ := set.insert key ()

/-- Add keys to a set, one after the other. -/
def addAll (set : KeySet κ) (keys : List κ) : KeySet κ := keys.foldl add set

end Index

end LuaSugar
