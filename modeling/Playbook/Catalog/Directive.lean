import Playbook.Catalog.Sorted

/-!
Directives: the keys that plays, roles, blocks and tasks accept.
-/

namespace Playbook

/-- The parts of a playbook that have keys of their own. -/
inductive EntityKind
  | play
  | role
  | block
  | task
  deriving Repr, DecidableEq, Inhabited

namespace EntityKind

def all : List EntityKind := [play, role, block, task]

def label : EntityKind → String
  | play => "play"
  | role => "role"
  | block => "block"
  | task => "task"

def ofLabel? (s : String) : Option EntityKind := all.find? (·.label == s)

end EntityKind

/-- A set of kinds. -/
structure KindSet where
  play : Bool
  role : Bool
  block : Bool
  task : Bool
  deriving Repr, DecidableEq, Inhabited

namespace KindSet

def empty : KindSet := ⟨false, false, false, false⟩

def contains (s : KindSet) : EntityKind → Bool
  | .play => s.play
  | .role => s.role
  | .block => s.block
  | .task => s.task

def union (s t : KindSet) : KindSet :=
  ⟨s.play || t.play, s.role || t.role, s.block || t.block, s.task || t.task⟩

def ofList (kinds : List EntityKind) : KindSet :=
  ⟨kinds.contains .play, kinds.contains .role, kinds.contains .block, kinds.contains .task⟩

/-- The members in the order of `EntityKind.all`. -/
def toList (s : KindSet) : List EntityKind := EntityKind.all.filter s.contains

end KindSet

structure Directive where
  name : String
  kinds : KindSet
  deriving Repr, DecidableEq, Inhabited

/-- Directives in the order of their names, each name once. -/
structure DirectiveCatalog where
  entries : List Directive
  ascending : Ascending Directive.name entries
  deriving Repr, DecidableEq

namespace DirectiveCatalog

def empty : DirectiveCatalog := ⟨[], List.Pairwise.nil⟩

instance : Inhabited DirectiveCatalog := ⟨empty⟩

def before (a b : Directive) : Bool := a.name < b.name

theorem before_iff (a b : Directive) : before a b = true ↔ a.name < b.name := decide_eq_true_iff

/-- Add kinds to a directive. -/
def add (catalog : DirectiveCatalog) (name : String) (kinds : KindSet) : DirectiveCatalog where
  entries :=
    insertWith before (fun new old => ⟨old.name, old.kinds.union new.kinds⟩) ⟨name, kinds⟩
      catalog.entries
  ascending := catalog.ascending.insertWith before_iff fun _ _ _ => rfl

/-- Give a directive its kinds, whatever it had before. -/
def set (catalog : DirectiveCatalog) (d : Directive) : DirectiveCatalog where
  entries := insertWith before (fun new _ => new) d catalog.entries
  ascending := catalog.ascending.insertWith before_iff fun _ _ hname => hname

/-- A group gives some kinds to several names. -/
structure Group where
  kinds : List EntityKind
  names : List String
  deriving Repr, DecidableEq, Inhabited

/-- The catalog of some groups. A name in several of them has the kinds of all. -/
def ofGroups (groups : List Group) : DirectiveCatalog :=
  groups.foldl
    (fun catalog group =>
      group.names.foldl (fun catalog name => catalog.add name (.ofList group.kinds)) catalog)
    empty

/-- The catalog of some directives, the last of a name prevailing. -/
def ofEntries (entries : List Directive) : DirectiveCatalog :=
  entries.foldl set empty

def get? (catalog : DirectiveCatalog) (name : String) : Option Directive :=
  catalog.entries.find? (·.name == name)

/-- Whether a kind accepts a key. -/
def accepts (catalog : DirectiveCatalog) (kind : EntityKind) (name : String) : Bool :=
  (catalog.get? name).any (·.kinds.contains kind)

/-- The directives that a kind accepts. -/
def ofKind (catalog : DirectiveCatalog) (kind : EntityKind) : List Directive :=
  catalog.entries.filter (·.kinds.contains kind)

def size (catalog : DirectiveCatalog) : Nat := catalog.entries.length

/-- The directives of playbooks. -/
def builtin : DirectiveCatalog :=
  ofGroups
    [ ⟨[.play, .role, .block, .task],
        ["any_errors_fatal", "become", "become_flags", "become_method", "become_user",
          "check_mode", "connection", "diff", "environment", "ignore_errors", "name", "no_log",
          "port", "remote_user", "run_once", "tags", "vars"]⟩,
      ⟨[.role, .block, .task], ["when"]⟩,
      ⟨[.role, .block, .task], ["delegate_facts", "delegate_to"]⟩,
      ⟨[.play],
        ["fact_path", "force_handlers", "gather_facts", "gather_subset", "gather_timeout",
          "handlers", "hosts", "max_fail_percentage", "order", "post_tasks", "pre_tasks", "roles",
          "serial", "strategy", "tasks", "vars_files", "vars_prompt"]⟩,
      ⟨[.block], ["always", "block", "rescue"]⟩,
      ⟨[.task],
        ["action", "args", "async", "changed_when", "delay", "failed_when", "local_action",
          "loop_control", "notify", "poll", "register", "retries", "until", "with_"]⟩ ]

end DirectiveCatalog

end Playbook
