import Playbook.Catalog.Sorted
import Playbook.Disk

/-!
Modules: the operations that tasks invoke. A file on a search path provides the module of its name
without the extension.
-/

namespace Playbook

structure ModuleInfo where
  name : String
  /-- The file that provides the module, if it is known. -/
  path : Option String
  deriving Repr, DecidableEq, Inhabited

/-- Modules in the order of their names, each name once. -/
structure ModuleCatalog where
  entries : List ModuleInfo
  ascending : Ascending ModuleInfo.name entries
  deriving Repr, DecidableEq

namespace ModuleCatalog

def empty : ModuleCatalog := ⟨[], List.Pairwise.nil⟩

instance : Inhabited ModuleCatalog := ⟨empty⟩

def before (a b : ModuleInfo) : Bool := a.name < b.name

theorem before_iff (a b : ModuleInfo) : before a b = true ↔ a.name < b.name := decide_eq_true_iff

/-- Add a module, unless there is one of its name. -/
def insert (catalog : ModuleCatalog) (m : ModuleInfo) : ModuleCatalog where
  entries := insertNew before m catalog.entries
  ascending := catalog.ascending.insertNew before_iff

/-- The catalog of some modules, the first of a name prevailing. -/
def ofList (modules : List ModuleInfo) : ModuleCatalog :=
  modules.foldl insert empty

def get? (catalog : ModuleCatalog) (name : String) : Option ModuleInfo :=
  catalog.entries.find? (·.name == name)

def size (catalog : ModuleCatalog) : Nat := catalog.entries.length

/-- Endings of files that provide no module. -/
def refusedEndings : List String :=
  [".pyc", ".pyo", ".swp", ".bak", "~", ".rpm", ".md", ".txt", ".rst"]

/-- Files that provide no module. -/
def refusedFiles : List String :=
  ["COPYING", "CONTRIBUTING", "LICENSE", "README", "VERSION", "GUIDELINES"]

/-- A file name up to its last point. A point at the start does not count. -/
def stem (name : List Char) : List Char :=
  let reversed := name.reverse.dropWhile (· != '.')
  if reversed.length ≤ 1 then name else reversed.tail.reverse

/-- The module that a file provides, if it does. Names that start with an underscore are private. -/
def nameOf? (file : String) : Option String :=
  if file.toList.head? == some '_' ||
      refusedEndings.any (fun ending => ending.toList.isSuffixOf file.toList) ||
      refusedFiles.contains file || file.isEmpty then none
  else some (String.ofList (stem file.toList))

/-- A name that starts with a point is hidden. -/
def isHidden (name : String) : Bool := name.toList.head? == some '.'

/-- The module in the file at `names` below `root`. -/
def module? (root : String) (names : List String) : Option ModuleInfo :=
  if names.any isHidden then none
  else do
    let name ← nameOf? (← names.getLast?)
    return ⟨name, some (Path.join root ("/".intercalate names))⟩

/-- The modules below a directory. -/
def below (disk : Disk) (root : String) : List ModuleInfo :=
  match disk.resolve root with
  | .ok place =>
      if disk.isDirectoryAt place && !Path.isStandardInput root then
        (disk.filesBelow place).filterMap (module? root)
      else []
  | .error _ => []

/-- The modules on some search paths, earlier paths prevailing. -/
def scan (disk : Disk) (paths : List String) : ModuleCatalog :=
  ofList (paths.flatMap (below disk))

end ModuleCatalog

end Playbook
