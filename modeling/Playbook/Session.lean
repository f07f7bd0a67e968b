import Playbook.Completion.Basic
import Playbook.Uri.Basic

/-!
A session with an editor: the files that are open in it and the messages about them.
-/

namespace Playbook

/-- The program, as it presents itself. -/
def programName : String := "playbook-lsp"

def programVersion : String := "0.3.0"

inductive LogLevel
  | info
  | log
  deriving Repr, DecidableEq, Inhabited

/-- A line in the log of the editor. -/
structure LogLine where
  level : LogLevel
  message : String
  deriving Repr, DecidableEq, Inhabited

/-- The texts of open files by their address in normal form, no address twice. -/
structure OpenFiles where
  entries : List (String × String)
  nodup : (entries.map Prod.fst).Nodup
  deriving Repr, DecidableEq

namespace OpenFiles

def none : OpenFiles := ⟨[], List.nodup_nil⟩

instance : Inhabited OpenFiles := ⟨none⟩

def get? (files : OpenFiles) (uri : String) : Option String := files.entries.lookup uri

def remove (files : OpenFiles) (uri : String) : OpenFiles where
  entries := files.entries.filter (·.1 != uri)
  nodup := files.nodup.sublist (List.filter_sublist.map _)

def put (files : OpenFiles) (uri text : String) : OpenFiles where
  entries := (uri, text) :: (files.remove uri).entries
  nodup := by
    refine List.nodup_cons.mpr ⟨fun hmem => ?_, (files.remove uri).nodup⟩
    obtain ⟨entry, hentry, rfl⟩ := List.mem_map.mp hmem
    simp [remove] at hentry

end OpenFiles

structure Session where
  catalogs : Catalogs
  /-- How many repairs a request may take, none meaning any number. -/
  cap : Nat
  /-- Whether an editor is there to read the log. -/
  connected : Bool
  files : OpenFiles
  deriving Repr, DecidableEq, Inhabited

namespace Session

/-- Characters after which an editor asks on its own. -/
def triggers : List String := [":", "-"]

def start (catalogs : Catalogs) (cap : Nat) (connected : Bool) : Session :=
  ⟨catalogs, cap, connected, .none⟩

/-- The address under which a file is kept, which is the normal form of the given one. -/
def address (given : String) : String := (Uri.normal? given).getD given

/-- What an editor reports or asks. A change gives the whole text, once or several times. -/
inductive Message
  | initialized
  | opened (uri text : String)
  | changed (uri : String) (texts : List String)
  | closed (uri : String)
  | complete (uri : String) (line units : Nat)
  deriving Repr, DecidableEq, Inhabited

/-- The answer to a message and what goes to the log meanwhile. -/
structure Reply where
  items : Option (List CompletionItem)
  log : List LogLine
  deriving Repr, DecidableEq, Inhabited

def Reply.silent : Reply := ⟨none, []⟩

/-- The text of an open file. -/
def file? (s : Session) (uri : String) : Option String := s.files.get? uri

def withoutFile (s : Session) (uri : String) : Session :=
  { s with files := s.files.remove uri }

def withFile (s : Session) (uri text : String) : Session :=
  { s with files := s.files.put uri text }

/-- A log line, if somebody reads it. -/
def logging (s : Session) (level : LogLevel) (message : String) : List LogLine :=
  if s.connected then [⟨level, message⟩] else []

def welcome (s : Session) : String :=
  programName ++ " " ++ programVersion ++ " initialized! " ++
    s.catalogs.directives.size.repr ++ " directive(s), " ++
    s.catalogs.modules.size.repr ++ " module(s)"

/-- Complete in an open file. There is no answer for a file that is not open or cannot be loaded,
nor where nothing is to offer. Of a request that stops nothing goes to the log. -/
def complete (s : Session) (disk : Disk) (uri : String) (line units : Nat) : Reply × Session :=
  match s.file? uri with
  | none => (.silent, s)
  | some content =>
      let text := content.toList
      match Completion.run s.catalogs disk text (.ofUnits text line units) s.cap with
      | .error e =>
          if e.diagnostic.isCrash then (.silent, s)
          else (⟨none, s.logging .log (uri ++ ": " ++ e.message)⟩, s)
      | .ok (completion, catalogs) =>
          let items := CompletionItem.ofCandidates completion.candidates
          if completion.crash.isSome then (.silent, s)
          else (⟨if items.isEmpty then none else some items, []⟩, { s with catalogs })

/-- Take a message. -/
def handle (s : Session) (disk : Disk) : Message → Reply × Session
  | .initialized => (⟨none, s.logging .info s.welcome⟩, s)
  | .opened uri text =>
      (⟨none, s.logging .info ("Opened file: " ++ uri)⟩, s.withFile uri text)
  | .changed uri texts =>
      (.silent, match texts.getLast? with
        | some text => s.withFile uri text
        | none => s)
  | .closed uri => (⟨none, s.logging .info ("Closed file: " ++ uri)⟩, s.withoutFile uri)
  | .complete uri line units => s.complete disk uri line units

end Session

end Playbook
