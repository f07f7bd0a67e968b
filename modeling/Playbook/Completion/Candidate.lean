import Playbook.Catalog.Parameter
import Playbook.Catalog.Directive
import Playbook.Completion.Context
import Playbook.Text.Search

/-!
Candidates: what is offered at the cursor. They come in a fixed order, directives before modules
before parameters and by name among each, and none comes twice.
-/

namespace Playbook

structure Catalogs where
  directives : DirectiveCatalog
  modules : ModuleCatalog
  parameters : ParameterCatalog
  deriving Repr, DecidableEq, Inhabited

inductive Candidate
  | directive (directive : Directive)
  | moduleName (info : ModuleInfo)
  | parameter (owner name : String)
  deriving Repr, DecidableEq, Inhabited

namespace Candidate

def name : Candidate → String
  | directive d => d.name
  | moduleName m => m.name
  | parameter _ name => name

/-- Whether a candidate is shown before another. -/
def before : Candidate → Candidate → Bool
  | directive a, directive b => a.name < b.name
  | directive _, _ => true
  | moduleName a, moduleName b => a.name < b.name
  | moduleName _, parameter _ _ => true
  | parameter owner a, parameter owner' b => owner < owner' || (owner == owner' && a < b)
  | _, _ => false

/-- What a flag of a context asks for. -/
inductive Request
  | play
  | task
  | block
  | role
  | moduleName
  deriving Repr, DecidableEq, Inhabited

namespace Request

def all : List Request := [play, task, block, role, moduleName]

def isMadeBy (request : Request) (context : Context) : Bool :=
  match request with
  | play => context.play
  | task => context.task
  | block => context.block
  | role => context.role
  | moduleName => context.moduleName

/-- The candidates for a request whose name contains the pattern. -/
def answers (request : Request) (catalogs : Catalogs) (pattern : String) : List Candidate :=
  let directives (kind : EntityKind) :=
    ((catalogs.directives.ofKind kind).filter fun d => hasPart d.name pattern).map directive
  match request with
  | play => directives .play
  | task => directives .task
  | block => directives .block
  | role => directives .role
  | moduleName =>
      (catalogs.modules.entries.filter fun m => hasPart m.name pattern).map Candidate.moduleName

end Request

/-- The candidates for the flags of a context. -/
def ofFlags (context : Context) (catalogs : Catalogs) (pattern : String) : List Candidate :=
  (Request.all.filter (·.isMadeBy context)).flatMap (·.answers catalogs pattern)

/-- The arguments of a module whose name contains the pattern. A catalog that fails offers none. -/
def ofArguments (m : ModuleInfo) (catalogs : Catalogs) (disk : Disk) (pattern : String) :
    List Candidate × Catalogs :=
  match catalogs.parameters.lookup disk m with
  | .ok (some names, parameters) =>
      ((names.filter (hasPart · pattern)).map (parameter m.name), { catalogs with parameters })
  | .ok (none, parameters) => ([], { catalogs with parameters })
  | .error _ => ([], catalogs)

/-- All that is offered for a context. -/
def collect (context : Context) (catalogs : Catalogs) (disk : Disk) (pattern : String) :
    List Candidate × Catalogs :=
  let (arguments, catalogs') :=
    match context.argumentsOf with
    | some m => ofArguments m catalogs disk pattern
    | none => ([], catalogs)
  ((ofFlags context catalogs pattern ++ arguments).foldl
    (fun sorted c => insertNew before c sorted) [], catalogs')

end Candidate

/-- How an editor shows a candidate. -/
inductive ItemKind
  | keyword
  | moduleName
  | field
  deriving Repr, DecidableEq, Inhabited

/-- An entry of the list that an editor shows. The label is also what is inserted. -/
structure CompletionItem where
  label : String
  kind : ItemKind
  detail : String
  /-- Editors sort by this text. -/
  sortText : String
  deriving Repr, DecidableEq, Inhabited

namespace CompletionItem

/-- A number with at least four digits. -/
def fourDigits (n : Nat) : String :=
  let digits := Nat.toDigits 10 n
  String.ofList (List.replicate (4 - digits.length) '0' ++ digits)

def ofCandidate (index : Nat) (c : Candidate) : CompletionItem :=
  let (kind, detail) :=
    match c with
    | .directive d =>
        (ItemKind.keyword, "directive (" ++ ", ".intercalate (d.kinds.toList.map (·.label)) ++ ")")
    | .moduleName ⟨_, some path⟩ => (ItemKind.moduleName, "module (" ++ path ++ ")")
    | .moduleName ⟨_, none⟩ => (ItemKind.moduleName, "module")
    | .parameter owner _ => (ItemKind.field, owner ++ " parameter")
  ⟨c.name, kind, detail, fourDigits index⟩

def ofCandidates (candidates : List Candidate) : List CompletionItem :=
  candidates.mapIdx ofCandidate

end CompletionItem

end Playbook
