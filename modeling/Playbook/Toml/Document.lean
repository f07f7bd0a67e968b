import Playbook.Toml.Atom
import Playbook.Toml.Quoted

/-!
Reading TOML documents. A document is a list of statements on lines of their own: headers, which
name the table that is being defined, and keys with their values.
-/

namespace Playbook

namespace Toml

/-- The rest behind blanks. -/
def skipGap (text : List Char) : List Char := text.dropWhile isGap

/-- The rest behind a comment, which ends with its line. -/
def skipComment? (text : List Char) : Option (List Char) :=
  if text.head? == some '#' then
    let line := text.takeWhile fun c => c != '\n' && c != '\r'
    if line.any isForbidden then none else some (text.drop line.length)
  else some text

/-- The rest behind the end of a statement: blanks, a comment, and the end of the line or text. -/
def endStatement? (text : List Char) : Option (List Char) := do
  let rest ← skipComment? (skipGap text)
  if rest.isEmpty then some [] else lineBreak? rest

/-- The rest behind blanks, comments and line breaks. -/
def skipTrivia? (fuel : Nat) (text : List Char) : Option (List Char) := do
  let rest ← skipComment? (skipGap text)
  match fuel, lineBreak? rest with
  | fuel + 1, some rest => skipTrivia? fuel rest
  | _, _ => some rest

def trivia? (text : List Char) : Option (List Char) := skipTrivia? text.length text

def isBareKeyChar (c : Char) : Bool := c.isAlphanum || c == '_' || c == '-'

/-- One part of a key. -/
def keyPart? : Reads String := fun text =>
  match quoted? text with
  | some result => some result
  | none =>
      let bare := text.takeWhile isBareKeyChar
      if bare.isEmpty then none else some (String.ofList bare, text.drop bare.length)

/-- The nesting that documents may have. -/
def depthLimit : Nat := 80

/-- The parts of a key, with points between them: the last one, and at most `depth` before it. -/
def keyParts? (depth : Nat) : Reads (List String × String) := fun text => do
  let (part, rest) ← keyPart? (skipGap text)
  match depth, skipGap rest with
  | depth + 1, '.' :: rest => do
      let ((path, last), rest) ← keyParts? depth rest
      return ((part :: path, last), rest)
  | 0, '.' :: _ => none
  | _, rest => some (([], part), rest)

/-- A key. Each part is a level of nesting. -/
def key? : Reads (List String × String) := keyParts? (depthLimit - 1)

/-- The items of an array behind the opening bracket. -/
def items? (item : Reads Value) (fuel : Nat) : Reads (List Value) := fun text => do
  match fuel, ← trivia? text with
  | _, ']' :: rest => some ([], rest)
  | 0, _ => none
  | fuel + 1, text => do
      let (value, rest) ← item text
      match ← trivia? rest with
      | ',' :: rest => do
          let (values, rest) ← items? item fuel rest
          return (value :: values, rest)
      | ']' :: rest => some ([value], rest)
      | _ => none

/-- The entries of an inline table behind the opening brace, added to those before. Key, equals sign
and value may stand on lines of their own. -/
def entries? (item : Reads Value) (fuel : Nat) (table : Table) : Reads Table := fun text => do
  match fuel, ← trivia? text with
  | _, '\x7d' :: rest => some (table, rest)
  | 0, _ => none
  | fuel + 1, text => do
      let ((path, key), rest) ← key? text
      let '=' :: rest ← trivia? rest | none
      let (value, rest) ← item (← trivia? rest)
      let table ← Table.define path key value .inline table
      match ← trivia? rest with
      | ',' :: rest => entries? item fuel table rest
      | '\x7d' :: rest => some (table, rest)
      | _ => none

/-- Where a value without quotes and brackets ends. -/
def endsAtom (c : Char) : Bool :=
  [' ', '\t', '\n', '\r', '#', ',', ']', '\x7d'].contains c

/-- A value without quotes and brackets. A blank may stand between a date and a clock time. -/
def atomHere? : Reads Value := fun text =>
  let word := text.takeWhile (!endsAtom ·)
  let rest := text.drop word.length
  let more := rest.tail.takeWhile (!endsAtom ·)
  if isDate word && rest.head? == some ' ' && (more.head?.any Char.isDigit) then
    (atom? (word ++ ' ' :: more)).map (·, rest.tail.drop more.length)
  else (atom? word).map (·, rest)

/-- A value. Arrays and inline tables go no deeper than `depth`. -/
def value? (depth : Nat) : Reads Value := fun text =>
  match depth, text with
  | _, '"' :: _ => (string? text).map fun (s, rest) => (.string s, rest)
  | _, '\'' :: _ => (string? text).map fun (s, rest) => (.string s, rest)
  | depth + 1, '[' :: rest =>
      (items? (value? depth) text.length rest).map fun (items, rest) => (.array .inline items, rest)
  | depth + 1, '\x7b' :: rest =>
      (entries? (value? depth) text.length [] rest).map fun (table, rest) =>
        (.table .inline table, rest)
  | _, text => atomHere? text

/-- What a document says up to some point: all tables, and the header of the one being defined. -/
structure State where
  root : Table
  header : List String
  deriving Repr, Inhabited

/-- Take a statement with its line. -/
def statement? (s : State) (text : List Char) : Option (State × List Char) := do
  match text with
  | '[' :: '[' :: rest => do
      let ((path, key), rest) ← key? rest
      let ']' :: ']' :: rest := rest | none
      return (⟨← Table.openElement path key s.root, path ++ [key]⟩, ← endStatement? rest)
  | '[' :: rest => do
      let ((path, key), rest) ← key? rest
      let ']' :: rest := rest | none
      return (⟨← Table.openTable path key s.root, path ++ [key]⟩, ← endStatement? rest)
  | text => do
      let ((path, key), rest) ← key? text
      let '=' :: rest := rest | none
      let (value, rest) ← value? depthLimit (skipGap rest)
      let root ← Table.changeAt false (Table.define path key value) s.header .header s.root
      return ({ s with root }, ← endStatement? rest)

def statements? (fuel : Nat) (s : State) (text : List Char) : Option Table := do
  match fuel, ← trivia? text with
  | _, [] => some s.root
  | 0, _ => none
  | fuel + 1, text => do
      let (s, rest) ← statement? s text
      statements? fuel s rest

/-- A byte order mark at the start does not count. -/
def dropOrderMark : List Char → List Char
  | '\uFEFF' :: rest => rest
  | text => text

/-- The table that a document defines, if the document is well-formed. -/
def parse? (text : String) : Option Table :=
  let text := dropOrderMark text.toList
  statements? text.length ⟨[], []⟩ text

end Toml

end Playbook
