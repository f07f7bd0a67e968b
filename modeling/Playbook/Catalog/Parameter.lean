import Playbook.Catalog.Documentation
import Playbook.Catalog.Module
import Playbook.Disk

/-!
Parameters: the names that a module takes as arguments. They come from a table, and for a module
that is not in it from the documentation in its file. What was read from a file is kept.
-/

namespace Playbook

/-- Why a catalog could not be set up or consulted. -/
inductive CatalogError
  | unreadable (path : String)
  | badDirectives (path : String)
  | badDocumentation (path : String) (diagnostic : Diagnostic)
  deriving Repr, DecidableEq

def CatalogError.message : CatalogError → String
  | .unreadable path => "failed to read " ++ path
  | .badDirectives path => "invalid directive table " ++ path
  | .badDocumentation path d => "invalid module documentation in " ++ path ++ ":\n" ++ d.message

structure ParameterCatalog where
  /-- Names by module, each list in order. -/
  table : List (String × List String)
  /-- Whether the files of modules are consulted. -/
  readsFiles : Bool
  /-- What the files that were read so far document, by the identity of their paths. -/
  cache : List (Path.Identity × Option (List String))
  deriving Repr, DecidableEq, Inhabited

namespace ParameterCatalog

/-- A catalog of a table only. -/
def ofTable (table : List (String × List String)) : ParameterCatalog :=
  ⟨table.map fun (name, names) => (name, sortNames names), false, []⟩

/-- A catalog of a table and the files of modules. -/
def ofTableAndFiles (table : List (String × List String)) : ParameterCatalog :=
  { ofTable table with readsFiles := true }

/-- What a file documents. -/
def read (disk : Disk) (path : String) : Except CatalogError (Option (List String)) :=
  match disk.readText path with
  | .error _ => .error (.unreadable path)
  | .ok source =>
      match Documentation.parameters? source with
      | .ok names => .ok names
      | .error d => .error (.badDocumentation path d)

/-- The parameters of a module, if the catalog knows them. A file is read once; a failure is not
kept. -/
def lookup (catalog : ParameterCatalog) (disk : Disk) (m : ModuleInfo) :
    Except CatalogError (Option (List String) × ParameterCatalog) :=
  match catalog.table.lookup m.name, m.path with
  | some names, _ => .ok (some names, catalog)
  | none, none => .ok (none, catalog)
  | none, some path =>
      if !catalog.readsFiles then .ok (none, catalog)
      else
        match catalog.cache.lookup (Path.identity path) with
        | some names => .ok (names, catalog)
        | none => do
            let names ← read disk path
            return (names, { catalog with cache := (Path.identity path, names) :: catalog.cache })

/-- What stops the program when the parameters of a module are looked up. -/
def crash? (catalog : ParameterCatalog) (disk : Disk) (m : ModuleInfo) : Option Diagnostic :=
  match catalog.lookup disk m with
  | .error (.badDocumentation _ d) => if d.isCrash then some d else none
  | _ => none

end ParameterCatalog

end Playbook
