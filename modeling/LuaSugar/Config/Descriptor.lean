import LuaSugar.Config
import LuaSugar.Json.Reader
import LuaSugar.Toml.Reader

/-!
# Descriptors

A descriptor is a text in TOML or JSON that gives a configuration. Both are first reduced to
`Setting`, a value with just the distinctions that a configuration cares about, and one set of
rules then reads it:

* an option has one name, or a second one in snake case, and may be set once;
* an option that is not known is ignored, so descriptors may hold more than configurations do;
* only the outputs may be set to nothing;
* a list of values, in the order of `Config`, does instead of names;
* a date or time counts as a table with one entry, which holds its text.
-/

namespace LuaSugar

-- the powers of the core library, whatever is imported beside it
attribute [local instance (high)] instPowNat

/-- A value of a descriptor. -/
inductive Setting where
  | nothing
  | flag (value : Bool)
  /-- A natural number of 64 bits. -/
  | natural (value : Nat)
  | text (text : String)
  | list (items : List Setting)
  /-- Names with values, repeated names included. -/
  | table (entries : List (String × Setting))
  /-- A value that no option has. -/
  | foreign

namespace Setting

/-- A number of JSON; only natural ones are of use, and a literal with a point, an exponent or a
sign is not natural. -/
def ofLiteral (literal : String) : Setting :=
  if literal.toList.all Char.isDigit then
    let value := Nat.ofDigitChars 10 literal.toList 0
    if value < 2 ^ (64 : Nat) then .natural value else .foreign
  else .foreign

mutual

def ofJson : Json → Setting
  | .null => .nothing
  | .bool value => .flag value
  | .number literal => ofLiteral literal
  | .string s => .text s
  | .array items => .list (ofJsonItems items)
  | .object members => .table (ofJsonMembers members)
  | .unpaired _ => .foreign

def ofJsonItems : List Json → List Setting
  | [] => []
  | item :: rest => ofJson item :: ofJsonItems rest

def ofJsonMembers : List (String × Json) → List (String × Setting)
  | [] => []
  | (name, value) :: rest => (name, ofJson value) :: ofJsonMembers rest

end

/-- The name of the only entry that a date or time has when it stands for a table. -/
def momentKey : String := "$__toml_private_datetime"

mutual

def ofToml : Toml → Setting
  | .string s => .text s
  | .bool value => .flag value
  | .integer value => if value < 0 then .foreign else .natural value.toNat
  | .float _ => .foreign
  | .moment m => .table [(momentKey, .text m.text)]
  | .array items => .list (ofTomlItems items)
  | .table entries => .table (ofTomlEntries entries)

def ofTomlItems : List Toml → List Setting
  | [] => []
  | item :: rest => ofToml item :: ofTomlItems rest

def ofTomlEntries : List (String × Toml) → List (String × Setting)
  | [] => []
  | (name, value) :: rest => (name, ofToml value) :: ofTomlEntries rest

end

/-! ## Values of options -/

def text? : Setting → Option String
  | .text s => some s
  | _ => none

def flag? : Setting → Option Bool
  | .flag value => some value
  | _ => none

def natural? : Setting → Option Nat
  | .natural value => some value
  | _ => none

def texts? : Setting → Option (List String)
  | .list items => items.mapM text?
  | _ => none

/-- A path, or the wish to have none. -/
def path? : Setting → Option (Option Path)
  | .nothing => some none
  | .text s => some (some (Path.ofText s))
  | _ => none

/-- Texts by name; of a repeated name the last one counts. -/
def index? : Setting → Option (Index String String)
  | .table entries => entries.foldlM (fun index (name, value) => do
      pure (index.insert name (← value.text?))) .empty
  | _ => none

end Setting

/-! ## Options -/

/-- The options of a configuration. -/
inductive ConfigOption where
  | name | entrypoint | bundle | outFile | outDir | elementConstructor | modules | minify
  | registries | fetchTimeout
deriving DecidableEq, Repr

namespace ConfigOption

/-- In the order in which a list of values gives them. -/
def all : List ConfigOption :=
  [name, entrypoint, bundle, outFile, outDir, elementConstructor, modules, minify, registries,
    fetchTimeout]

/-- The names of an option, the one in camel case first. -/
def keys : ConfigOption → List String
  | name => ["name"]
  | entrypoint => ["entrypoint"]
  | bundle => ["bundle"]
  | outFile => ["outFile", "out_file"]
  | outDir => ["outDir", "out_dir"]
  | elementConstructor => ["jsxConstructor", "jsx_constructor"]
  | modules => ["modules"]
  | minify => ["minify"]
  | registries => ["registries"]
  | fetchTimeout => ["fetchTimeoutSecs", "fetch_timeout_secs"]

/-- The option of a name. -/
def ofKey? (key : String) : Option ConfigOption := all.find? fun option => option.keys.contains key

/-- Set an option. -/
def set (c : Config) (value : Setting) : ConfigOption → Option Config
  | name => do pure { c with name := ← value.text? }
  | entrypoint => do pure { c with entrypoint := ← value.text? }
  | bundle => do pure { c with bundle := ← value.flag? }
  | outFile => do pure { c with outFile := ← value.path? }
  | outDir => do pure { c with outDir := ← value.path? }
  | elementConstructor => do pure { c with elementConstructor := ← value.text? }
  | modules => do pure { c with modules := ← value.texts? }
  | minify => do pure { c with minify := ← value.flag? }
  | registries => do pure { c with registries := ← value.index? }
  | fetchTimeout => do pure { c with fetchTimeout := ← value.natural? }

end ConfigOption

namespace Config

/-- Set options one after the other, unless one comes twice. -/
def setAll : Config → List (ConfigOption × Setting) → Option Config
  | c, [] => some c
  | c, (option, value) :: rest =>
    if rest.any fun other => other.1 == option then none
    else do setAll (← option.set c value) rest

/-- A configuration by its options, of which the name is not optional. -/
def ofOptions? (options : List (ConfigOption × Setting)) : Option Config :=
  if options.any fun option => option.1 == .name then setAll (named "") options else none

/-- The configuration that a value describes. -/
def ofSetting? : Setting → Option Config
  | .table entries => ofOptions? (entries.filterMap fun (key, value) =>
      (ConfigOption.ofKey? key).map (·, value))
  | .list items =>
    if items.length ≤ ConfigOption.all.length then ofOptions? (ConfigOption.all.zip items)
    else none
  | _ => none

def ofJson? (json : Json) : Option Config := ofSetting? (.ofJson json)

def ofToml? (toml : Toml) : Option Config := ofSetting? (.ofToml toml)

/-! ## Files -/

/-- The names of descriptors, the one that is preferred first. -/
def descriptors : List String := ["lu.toml", "luconfig.json"]

/-- The name under which new descriptors are written. -/
def newDescriptor : String := "luconfig.json"

/-- Read a descriptor; its extension says whether it is JSON. -/
def loadFile (files : FileTree) (path : Path) : Except ConfigError Config := do
  let text ← (files.read path).mapError (.unreadable path)
  if path.extension? == some "json" then
    match (Json.parse? text).bind ofJson? with
    | some c => pure c
    | none => throw (.notJson path)
  else
    match (Toml.parse? text).bind ofToml? with
    | some c => pure c
    | none => throw (.notToml path)

/-- Find, read and check the descriptor of a directory. -/
def load (files : FileTree) (root : Path) : Except ConfigError (Config × Path) := do
  match (descriptors.map root.joinText).find? files.isFile with
  | none => throw (.missing root)
  | some path =>
    let c ← loadFile files path
    c.validate path
    pure (c, path)

end Config

end LuaSugar
