import Playbook.Completion.Candidate
import Playbook.Config

/-!
Setting up the catalogs from settings and a disk.
-/

namespace Playbook

/-- What the surroundings of the program say. -/
structure Environment where
  /-- More directories to search for modules, divided by colons. -/
  library : Option String
  configHome : Option String
  home : Option String
  deriving Repr, DecidableEq, Inhabited

/-- Where the settings are kept. -/
def Environment.configFile (env : Environment) : Option String :=
  let configHome :=
    (env.configHome.filter Path.isAbsolute).orElse fun _ => env.home.map (Path.join · ".config")
  configHome.map (Path.join · "playbook-lsp/config.toml")

inductive ConfigError
  | unreadable (path : String)
  | malformed (path : String)
  deriving Repr, DecidableEq

namespace Config

def ofFile (disk : Disk) (path : String) : Except ConfigError Config :=
  match disk.readText path with
  | .error _ => .error (.unreadable path)
  | .ok text =>
      match ofToml? text with
      | some config => .ok config
      | none => .error (.malformed path)

/-- The settings in a named file, or else in the usual one, which need not be there. -/
def load (disk : Disk) (env : Environment) : Option String → Except ConfigError Config
  | some path => ofFile disk path
  | none =>
      match env.configFile.filter disk.isFile with
      | some path => ofFile disk path
      | none => .ok default

end Config

namespace DirectiveCatalog

def ofFile (disk : Disk) (path : String) : Except CatalogError DirectiveCatalog :=
  match disk.readText path with
  | .error _ => .error (.unreadable path)
  | .ok text =>
      match ofToml? text with
      | some catalog => .ok catalog
      | none => .error (.badDirectives path)

end DirectiveCatalog

namespace Catalogs

/-- Set up the catalogs. -/
def load (disk : Disk) (config : Config) (library : Option String) :
    Except CatalogError Catalogs := do
  let directives ←
    match config.directivesFile with
    | some path => DirectiveCatalog.ofFile disk path
    | none => .ok .builtin
  return ⟨directives, .scan disk (config.searchPaths library), .ofTableAndFiles config.parameters⟩

/-- The sizes of the catalogs in words. -/
def summary (catalogs : Catalogs) : String :=
  "Catalogs \x7b directives: " ++ catalogs.directives.size.repr ++ ", modules: " ++
    catalogs.modules.size.repr ++ ", .. \x7d"

end Catalogs

end Playbook
