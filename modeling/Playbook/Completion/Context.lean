import Playbook.Catalog.Directive
import Playbook.Catalog.Module
import Playbook.Value

/-!
What is being typed at the cursor, judged by the trail of values under it. A new item of the list at
the top may be a play, a block or a task; below it the key of the enclosing list decides.
-/

namespace Playbook

structure Context where
  play : Bool
  task : Bool
  block : Bool
  role : Bool
  moduleName : Bool
  /-- The module whose arguments are being typed. -/
  argumentsOf : Option ModuleInfo
  deriving Repr, DecidableEq, Inhabited

namespace Context

def none : Context := ⟨false, false, false, false, false, .none⟩

/-- Keys whose value is a list of tasks. -/
def taskLists : List String := ["tasks", "pre_tasks", "post_tasks", "handlers"]

/-- Keys whose value is a list of members of a block. -/
def blockLists : List String := ["block", "rescue", "always"]

/-- Keys whose value is a list of roles. -/
def roleLists : List String := ["roles"]

/-- Keys whose value is the name of a module. -/
def moduleNameKeys : List String := ["action", "local_action"]

/-- The key of the arguments that stand beside the key of their module. -/
def argumentsKey : String := "args"

/-- The entry `n` places from the end of a trail, the last being the first. -/
def fromEnd (trail : List Value) (n : Nat) : Option Value :=
  trail.reverse[n - 1]?

def nameFromEnd (trail : List Value) (n : Nat) : Option String :=
  (fromEnd trail n).bind Value.str?

/-- The kinds that an item of the list at the top may have. -/
structure TopKinds where
  play : Bool
  block : Bool
  task : Bool
  deriving Repr, DecidableEq, Inhabited

namespace TopKinds

def all : TopKinds := ⟨true, true, true⟩

/-- The kinds that accept a key. -/
def accepting (directives : DirectiveCatalog) (key : String) : TopKinds :=
  ⟨directives.accepts .play key, directives.accepts .block key, directives.accepts .task key⟩

def isEmpty (kinds : TopKinds) : Bool := !(kinds.play || kinds.block || kinds.task)

def inter (a b : TopKinds) : TopKinds :=
  ⟨a.play && b.play, a.block && b.block, a.task && b.task⟩

/-- A key rules out the kinds that do not accept it. One that no kind accepts says nothing. -/
def narrow (directives : DirectiveCatalog) (kinds : TopKinds) (key : String) : TopKinds :=
  let accepted := accepting directives key
  if accepted.isEmpty then kinds else kinds.inter accepted

/-- The kinds that the keys of all items leave. If they leave none, they say nothing. -/
def ofItems (directives : DirectiveCatalog) (items : List Value) : TopKinds :=
  let keys := (items.filterMap Value.map?).flatMap Mapping.names
  let left := keys.foldl (narrow directives) all
  if left.isEmpty then all else left

end TopKinds

/-- The items of the list at the top, if the cursor is at a new item or a new key of one. -/
def topItems? : List Value → Option (List Value)
  | [.seq items, _] => some items
  | [.seq items, .map (_ :: _), _] => some items
  | _ => .none

/-- The key of the list around the cursor. -/
def listKey? (trail : List Value) : Option String :=
  if trail.length < 5 then .none
  else (nameFromEnd trail 3).orElse fun _ => nameFromEnd trail 4

def afterModuleNameKey (trail : List Value) : Bool :=
  trail.length ≥ 4 && (nameFromEnd trail 2).any moduleNameKeys.contains

/-- The keys that may name the module whose arguments are being typed: the key before the cursor, or
for separate arguments the keys beside it. -/
def moduleKeys (trail : List Value) : List String :=
  let keyAt (name : String) (n : Nat) : List String :=
    if name == argumentsKey then
      (((fromEnd trail (n + 1)).bind Value.map?).map Mapping.names).getD []
    else [name]
  if trail.length < 4 then []
  else
    match nameFromEnd trail 2, nameFromEnd trail 3 with
    | some name, _ => keyAt name 2
    | .none, some name => keyAt name 3
    | .none, .none => []

/-- Whether the mapping around the cursor has a key that only blocks have. -/
def insideBlock (trail : List Value) : Bool :=
  ((fromEnd trail 2).bind Value.map?).any fun m => m.names.any blockLists.contains

/-- Judge a trail. -/
def classify (trail : List Value) (directives : DirectiveCatalog) (modules : ModuleCatalog) :
    Context :=
  let top := (topItems? trail).map (TopKinds.ofItems directives)
  let list := listKey? trail
  let inBlockList := list.any blockLists.contains
  let task := top.any TopKinds.task || list.any taskLists.contains || inBlockList
  { play := top.any TopKinds.play
    task := task && !insideBlock trail
    block := if inBlockList then false else (top.map TopKinds.block).getD task
    role := list.any roleLists.contains
    moduleName := afterModuleNameKey trail || task
    argumentsOf := (moduleKeys trail).findSome? modules.get? }

/-- The text being typed: the last entry of the trail, if it is a text. -/
def typed (trail : List Value) : String := (nameFromEnd trail 1).getD ""

end Context

end Playbook
