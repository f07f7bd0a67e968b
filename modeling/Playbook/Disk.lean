import Playbook.Text.Search

/-!
Files as data. A path is a text in which slashes divide names; a path that does not start with a
slash starts at the working directory.
-/

namespace Playbook

namespace Path

def isAbsolute (path : String) : Bool := path.toList.head? == some '/'

/-- A path below another one. An absolute path stands for itself. -/
def join (base path : String) : String :=
  if isAbsolute path then path
  else if base.isEmpty || base.toList.getLast? == some '/' then base ++ path
  else base ++ "/" ++ path

/-- The names between the slashes of a path, which may be empty. -/
def pieces (path : String) : List String := (splitAtChar '/' path.toList).map String.ofList

/-- Whether a path is a lone hyphen, which stands for the standard input and not for a place. -/
def isStandardInput (path : String) : Bool :=
  match pieces path with
  | "-" :: rest => rest.all fun piece => piece == "" || piece == "."
  | _ => false

/-- What tells a path from others. -/
structure Identity where
  absolute : Bool
  names : List String
  deriving Repr, DecidableEq, Inhabited

/-- The identity of a path. Empty names and single dots do not count, except for a dot at the start
of a path that is not absolute. -/
def identity (path : String) : Identity :=
  let first := (pieces path).take 1
  let others := (pieces path).drop 1
  ⟨isAbsolute path,
    first.filter (· != "") ++ others.filter fun piece => piece != "" && piece != "."⟩

/-- One step from a place. Empty names and single dots stay there, and two dots go one place up. -/
def step (place : List String) (piece : String) : List String :=
  if piece == "" || piece == "." then place
  else if piece == ".." then place.dropLast
  else place ++ [piece]

/-- The place where a path starts. -/
def origin (directory : List String) (path : String) : List String :=
  if isAbsolute path then [] else directory

/-- The names on the way from the top to a path, whatever is there. -/
def names (directory : List String) (path : String) : List String :=
  (pieces path).foldl step (origin directory path)

end Path

/-- A place on a disk: a directory, or a file with its content. -/
inductive DiskEntry
  | directory
  | file (content : ByteArray)
  deriving Inhabited

structure Disk where
  /-- The working directory. -/
  directory : List String
  /-- Places by their names from the top. The directories above a place exist with it. -/
  entries : List (List String × DiskEntry)

/-- Why a path leads nowhere, or to no text. -/
inductive ReadFault
  | missing
  | notDirectory
  | isDirectory
  | nameTooLong
  | notText
  deriving Repr, DecidableEq, Inhabited

def ReadFault.message : ReadFault → String
  | .missing => "No such file or directory (os error 2)"
  | .notDirectory => "Not a directory (os error 20)"
  | .isDirectory => "Is a directory (os error 21)"
  | .nameTooLong => "File name too long (os error 36)"
  | .notText => "stream did not contain valid UTF-8"

namespace Disk

def empty : Disk := ⟨[], []⟩

/-- What is in a place. The working directory and all above it is there. -/
def entry? (disk : Disk) (place : List String) : Option DiskEntry :=
  match disk.entries.lookup place with
  | some entry => some entry
  | none =>
      if place.isPrefixOf disk.directory || disk.entries.any (place.isPrefixOf ·.1) then
        some .directory
      else none

def isDirectoryAt (disk : Disk) (place : List String) : Bool :=
  match disk.entry? place with
  | some .directory => true
  | _ => false

/-- Put a file or a directory in a place. -/
def write (disk : Disk) (path : String) (entry : DiskEntry) : Disk :=
  let place := Path.names disk.directory path
  { disk with entries := (place, entry) :: disk.entries.filter (·.1 != place) }

/-- Remove a place and all below it. The directory that holds it stays. -/
def remove (disk : Disk) (path : String) : Disk :=
  let place := Path.names disk.directory path
  let holder := place.dropLast
  let others := disk.entries.filter fun e => !place.isPrefixOf e.1
  { disk with
    entries :=
      if disk.isDirectoryAt holder then (holder, .directory) :: others.filter (·.1 != holder)
      else others }

/-- How many bytes a name may have. -/
def nameLimit : Nat := 255

/-- How many bytes a path may have. -/
def pathLimit : Nat := 4095

/-- Go from a place along the names of a path. Only a directory leads on, also to itself and to the
place above it. -/
def follow (disk : Disk) : List String → List String → Except ReadFault (List String)
  | [], place => .ok place
  | piece :: pieces, place =>
      match disk.entry? place with
      | none => .error .missing
      | some (.file _) => .error .notDirectory
      | some .directory =>
          if piece.utf8ByteSize > nameLimit then .error .nameTooLong
          else disk.follow pieces (Path.step place piece)

/-- The place that a path leads to, where there may be nothing. -/
def resolve (disk : Disk) (path : String) : Except ReadFault (List String) :=
  if path.isEmpty then .error .missing
  else if path.utf8ByteSize > pathLimit then .error .nameTooLong
  else disk.follow (Path.pieces path) (Path.origin disk.directory path)

/-- What a path leads to. -/
def find (disk : Disk) (path : String) : Except ReadFault DiskEntry := do
  match disk.entry? (← disk.resolve path) with
  | some entry => .ok entry
  | none => .error .missing

def isDirectory (disk : Disk) (path : String) : Bool :=
  match disk.find path with
  | .ok .directory => true
  | _ => false

def isFile (disk : Disk) (path : String) : Bool :=
  match disk.find path with
  | .ok (.file _) => true
  | _ => false

def readText (disk : Disk) (path : String) : Except ReadFault String := do
  match ← disk.find path with
  | .directory => .error .isDirectory
  | .file content =>
      match String.fromUTF8? content with
      | some text => .ok text
      | none => .error .notText

/-- Paths in the order of their names, compared one after the other. -/
def pathBefore : List String → List String → Bool
  | [], [] => false
  | [], _ :: _ => true
  | _ :: _, [] => false
  | a :: as, b :: bs => a < b || (a == b && pathBefore as bs)

/-- The names below a place of all files there, in order. -/
def filesBelow (disk : Disk) (place : List String) : List (List String) :=
  let below := disk.entries.filterMap fun e =>
    match e.2 with
    | .file _ => if place.isPrefixOf e.1 then some (e.1.drop place.length) else none
    | .directory => none
  below.mergeSort fun a b => !pathBefore b a

end Disk

end Playbook
