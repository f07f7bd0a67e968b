import Playbook.Catalog.Sorted
import Playbook.Document
import Playbook.Text.Search
import Playbook.Text.WhiteSpace

/-!
The documentation inside the source of a module: a string that is assigned to `DOCUMENTATION`. It is
itself a document, whose `options` are the parameters of the module.
-/

namespace Playbook

namespace Documentation

def label : List Char := "DOCUMENTATION".toList

/-- What is assigned, if an assignment stands here. Two equals signs do not assign. -/
def assigned? (text : List Char) : Option (List Char) :=
  match trimStart text with
  | '=' :: '=' :: _ => none
  | '=' :: rest => some (trimStart rest)
  | _ => none

/-- What is assigned to the label at its first assignment. -/
def assignment? : List Char → Option (List Char)
  | [] => none
  | c :: rest =>
      let text := c :: rest
      match if label.isPrefixOf text then assigned? (text.drop label.length) else none with
      | some value => some value
      | none => assignment? rest

/-- A string may be marked as raw. -/
def dropRawMark : List Char → List Char
  | 'r' :: rest => rest
  | 'R' :: rest => rest
  | text => text

def quotes : List (List Char) :=
  ["'''".toList, "\"\"\"".toList, "'".toList, "\"".toList]

/-- The text of the string that stands here, as it is written. -/
def stringBody? (text : List Char) : Option (List Char) :=
  (quotes.find? (·.isPrefixOf text)).bind fun quote =>
    textBefore? quote (text.drop quote.length)

/-- The documentation in the source of a module. -/
def block? (source : List Char) : Option (List Char) :=
  (assignment? source).bind fun value => stringBody? (dropRawMark value)

/-- The names of the options of a documentation. -/
def optionNames (root : Value) : List String :=
  let options := root.map?.bind fun doc => (doc.get? (.str "options")).bind Value.map?
  sortNames ((options.map Mapping.names).getD [])

/-- The parameters that the source of a module documents, if it has a documentation. -/
def parameters? (source : String) : Except Diagnostic (Option (List String)) :=
  match block? source.toList with
  | none => .ok none
  | some text => do
      let document ← Document.ofText text .origin
      return some (optionNames document.root)

end Documentation

end Playbook
