import Playbook.Catalog.Directive
import Playbook.Text.Search
import Playbook.Toml.Document

/-!
Settings, and the files that hold them. In a file of settings every field may be left out, and no
others may be there; in a table of directives others do not count.
-/

namespace Playbook

namespace Toml

namespace Value

def string? : Value → Option String
  | string text => some text
  | _ => none

def items? : Value → Option (List Value)
  | array _ items => some items
  | _ => none

def strings? (v : Value) : Option (List String) := v.items?.bind (·.mapM string?)

/-- A number that has 64 bits without a sign. -/
def count? : Value → Option Nat
  | integer n => if 0 ≤ n && n < Int.pow 2 64 then some n.toNat else none
  | _ => none

def table? : Value → Option Table
  | table _ entries => some entries
  | _ => none

def isEmptyCollection : Value → Bool
  | array _ items => items.isEmpty
  | table _ entries => entries.isEmpty
  | _ => false

end Value

end Toml

structure Config where
  /-- Directories searched for modules, earlier ones prevailing. -/
  modulePaths : List String
  /-- A table of directives in place of the one built in. -/
  directivesFile : Option String
  /-- How many repairs a request may take, none meaning any number. -/
  repairCap : Nat
  /-- How long a completion may take. -/
  timeoutMilliseconds : Nat
  logLevel : Option String
  /-- Parameters by module, before those in module files. -/
  parameters : List (String × List String)
  deriving Repr, DecidableEq

namespace Config

def default : Config := ⟨[], none, 64, 2000, none, []⟩

instance : Inhabited Config := ⟨default⟩

def timeoutSeconds (config : Config) : Nat := config.timeoutMilliseconds / 1000

/-- Take a field. -/
def set? (config : Config) : String × Toml.Value → Option Config
  | ("module_paths", v) => do return { config with modulePaths := ← v.strings? }
  | ("directives_file", v) => do return { config with directivesFile := some (← v.string?) }
  | ("max_heal_attempts", v) => do return { config with repairCap := ← v.count? }
  | ("completion_timeout_ms", v) => do return { config with timeoutMilliseconds := ← v.count? }
  | ("log_level", v) => do return { config with logLevel := some (← v.string?) }
  | ("parameters", v) => do
      let parameters ← (← v.table?).mapM fun (name, names) => do return (name, ← names.strings?)
      return { config with parameters }
  | _ => none

/-- The settings that a text gives, if it is well-formed. -/
def ofToml? (text : String) : Option Config := do
  (← Toml.parse? text).foldlM set? default

/-- The directories to search: those of the settings, and then those of a list divided by colons. -/
def searchPaths (config : Config) (library : Option String) : List String :=
  let extra := (library.map fun l => (splitAtChar ':' l.toList).map String.ofList).getD []
  config.modulePaths ++ extra.filter (!·.isEmpty)

end Config

namespace DirectiveCatalog

/-- A kind is named by a text, or by a table with nothing under its name. -/
def kind? : Toml.Value → Option EntityKind
  | .string label => EntityKind.ofLabel? label
  | .table _ [(label, payload)] =>
      if payload.isEmptyCollection then EntityKind.ofLabel? label else none
  | _ => none

/-- A group is a table, or an array with the kinds and the names first. -/
def group? : Toml.Value → Option Group
  | .table _ entries => do group (← entries.lookup "kinds") (← entries.lookup "names")
  | .array _ (kinds :: names :: _) => group kinds names
  | _ => none
where
  group (kinds names : Toml.Value) : Option Group := do
    return ⟨← (← kinds.items?).mapM kind?, ← names.strings?⟩

/-- The catalog that a text gives, if it is well-formed. -/
def ofToml? (text : String) : Option DirectiveCatalog := do
  match (← Toml.parse? text).lookup "group" with
  | some groups => return ofGroups (← (← groups.items?).mapM group?)
  | none => return empty

end DirectiveCatalog

end Playbook
