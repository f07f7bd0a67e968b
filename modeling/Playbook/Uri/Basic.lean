import Playbook.Uri.Host

/-!
Addresses of files and their normal form: two texts name the same file if they have the same normal
form.
-/

namespace Playbook

namespace Uri

/-- What a path means depends on the scheme. -/
inductive SchemeKind
  | file
  /-- The address has a host, and a usual service there. -/
  | network (service : Nat)
  | other
  deriving Repr, DecidableEq, Inhabited

def usualServices : List (String × Nat) :=
  [("http", 80), ("https", 443), ("ws", 80), ("wss", 443), ("ftp", 21)]

def SchemeKind.ofScheme (scheme : String) : SchemeKind :=
  if scheme == "file" then .file else ((usualServices.lookup scheme).map .network).getD .other

inductive UriPath
  /-- Any text that does not start with a slash. -/
  | plain (text : String)
  /-- Names, each behind a slash. -/
  | segments (names : List String)
  deriving Repr, DecidableEq, Inhabited

structure Authority where
  /-- Name and password, with the sign that follows them. -/
  user : String
  host : Host
  /-- The number of the service, if it is not the usual one. -/
  service : Option Nat
  deriving Repr, DecidableEq, Inhabited

def Authority.ofHost (host : Host) : Authority := ⟨"", host, none⟩

def Authority.none : Authority := .ofHost (.name "")

/-! ### Paths -/

/-- A letter with a colon or a bar, which names a disk. -/
def isDrive : List Char → Bool
  | [c, d] => c.isAlpha && (d == ':' || d == '|')
  | _ => false

/-- Dots may be escaped. -/
def isSingleDot (name : List Char) : Bool :=
  [".", "%2e"].contains (String.ofList (name.map Char.toLower))

def isDoubleDot (name : List Char) : Bool :=
  ["..", ".%2e", "%2e.", "%2e%2e"].contains (String.ofList (name.map Char.toLower))

/-- Without the last name, unless that names a disk. -/
def parent (names : List String) : List String :=
  if names.getLast?.any fun name => isDrive name.toList then names else names.dropLast

/-- Add names to those before. One dot stands for the place so far and two dots for the place above
it. A file is on the disk that is named first. -/
def settle (kind : SchemeKind) : List (List Char) → List String → List String
  | [], done => done
  | name :: rest, done =>
      let ending := if rest.isEmpty then [""] else []
      if isDoubleDot name then settle kind rest (parent done ++ ending)
      else if isSingleDot name then settle kind rest (done ++ ending)
      else if kind == .file && done.isEmpty && isDrive name then
        settle kind rest [String.ofList (name.take 1) ++ ":"]
      else settle kind rest (done ++ [escape reservedInPath name])

def segments (kind : SchemeKind) (text : List Char) : List String :=
  settle kind (splitAtChar '/' text) []

/-- Without slashes at the start of a path. -/
def trimSegments (names : List String) : List String :=
  match names.dropWhile String.isEmpty with
  | [] => [""]
  | names => names

def dropSlash : List Char → List Char
  | '/' :: rest => rest
  | text => text

/-! ### Hosts -/

/-- The text up to a colon outside brackets, and the rest. -/
def splitHost (inside : Bool) : List Char → List Char × List Char
  | [] => ([], [])
  | c :: rest =>
      if c == ':' && !inside then ([], c :: rest)
      else
        let (host, rest) := splitHost (c == '[' || (inside && c != ']')) rest
        (c :: host, rest)

/-- The number of a service behind its colon. The usual one is not told. -/
def service? (kind : SchemeKind) : List Char → Option (Option Nat)
  | [] => some none
  | ':' :: digits =>
      if digits.isEmpty then some none
      else do
        let service ← readDigits? 10 digits
        if service > 65535 then none
        else return if kind == .network service then none else some service
  | _ => none

def user (text : List Char) : String :=
  let name := text.takeWhile (· != ':')
  let password := text.drop (name.length + 1)
  let shown := escape reservedInUser name ++
    if password.isEmpty then "" else ":" ++ escape reservedInUser password
  if shown.isEmpty then "" else shown ++ "@"

/-- Who has the file: perhaps a user, behind the last at sign a host, and perhaps a
service. -/
def authority? (kind : SchemeKind) (text : List Char) : Option Authority := do
  let hosting := (text.reverse.takeWhile (· != '@')).reverse
  let named := text.contains '@'
  let user := if named then user (text.take (text.length - hosting.length - 1)) else ""
  let (host, service) := splitHost false hosting
  if host.isEmpty && (kind != .other || named || !service.isEmpty) then none
  else
    let host ← if kind == .other then Host.free? host else Host.lookedUp? host
    return ⟨user, host, ← service? kind service⟩

/-! ### Addresses -/

end Uri

structure Uri where
  scheme : String
  authority : Option Uri.Authority
  path : Uri.UriPath
  query : Option String
  fragment : Option String
  deriving Repr, DecidableEq, Inhabited

namespace Uri

/-- The scheme in lower case, and what is behind its colon. -/
def scheme? (text : List Char) : Option (String × List Char) :=
  let scheme := text.takeWhile fun c => c.isAlphanum || c == '+' || c == '-' || c == '.'
  match text.drop scheme.length with
  | ':' :: rest =>
      if scheme.head?.any Char.isAlpha then some (String.ofList (scheme.map Char.toLower), rest)
      else none
  | _ => none

/-- The place of a file: this host and the disk, or another host. A disk has no host. -/
def filePlace? (text : List Char) : Option (Authority × List String) :=
  match text with
  | '/' :: '/' :: rest => do
      let host := rest.takeWhile (· != '/')
      let path := rest.drop host.length
      if isDrive host then return (.none, segments .file rest)
      else if host.isEmpty then return (.none, segments .file path)
      else
        match ← Host.lookedUp? host with
        | .name "localhost" => return (.none, segments .file path)
        | host =>
            let names := segments .file (dropSlash path)
            return (if names.head?.any fun name => isDrive name.toList then .none else .ofHost host,
              names)
  | text => some (.none, segments .file (dropSlash text))

/-- Authority and path of an address. -/
def place? (kind : SchemeKind) (text : List Char) : Option (Option Authority × UriPath) :=
  let hosted (rest : List Char) : Option (Option Authority × UriPath) := do
    let authority := rest.takeWhile (· != '/')
    let path := rest.drop authority.length
    let names := if path.isEmpty && kind == .other then [] else segments kind (dropSlash path)
    return (some (← authority? kind authority), .segments names)
  match kind, text with
  | .file, text => (filePlace? text).map fun (a, names) => (some a, .segments (trimSegments names))
  | .network _, text => hosted (text.dropWhile (· == '/'))
  | .other, '/' :: '/' :: rest => hosted rest
  | .other, '/' :: rest => some (none, .segments (segments kind rest))
  | .other, text => some (none, .plain (escape [] text))

/-- Cut a text at the first occurrence of a sign. -/
def cut (sign : Char) (text : List Char) : List Char × Option (List Char) :=
  let before := text.takeWhile (· != sign)
  (before, if before.length < text.length then some (text.drop (before.length + 1)) else none)

def isControl (c : Char) : Bool := c.toNat ≤ 0x20

/-- Line breaks and tabs do not count, nor controls and blanks at either end. -/
def trimmed (text : List Char) : List Char :=
  ((text.dropWhile isControl).reverse.dropWhile isControl).reverse.filter fun c =>
    c != '\t' && c != '\n' && c != '\r'

/-- Read an address. In an address of a usual kind a backslash stands for a slash. -/
def parse? (text : String) : Option Uri := do
  let (scheme, rest) ← scheme? (trimmed text.toList)
  let kind := SchemeKind.ofScheme scheme
  let (rest, fragment) := cut '#' rest
  let (rest, query) := cut '?' rest
  let rest := if kind == .other then rest else rest.map fun c => if c == '\\' then '/' else c
  let (authority, path) ← place? kind rest
  let inQuery := if kind == .other then reservedInQuery else '\'' :: reservedInQuery
  return ⟨scheme, authority, path, query.map (escape inQuery),
    fragment.map (escape reservedInFragment)⟩

def Authority.toText (a : Authority) : String :=
  "//" ++ a.user ++ a.host.toText ++ (a.service.map fun n => ":" ++ n.repr).getD ""

def UriPath.toText : UriPath → String
  | plain text => text
  | segments names => String.join (names.map ("/" ++ ·))

/-- A path that starts with two slashes is kept apart from a host. -/
def separator : Option Authority → UriPath → String
  | none, .segments ("" :: _ :: _) => "/."
  | authority, _ => (authority.map Authority.toText).getD ""

/-- The normal form of an address. -/
def toText (uri : Uri) : String :=
  uri.scheme ++ ":" ++ separator uri.authority uri.path ++ uri.path.toText ++
    (uri.query.map ("?" ++ ·)).getD "" ++ (uri.fragment.map ("#" ++ ·)).getD ""

/-- The normal form of a text that is an address. -/
def normal? (text : String) : Option String := (parse? text).map toText

end Uri

end Playbook
