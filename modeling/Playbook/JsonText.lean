import Playbook.Diagnostic

/-!
Writing JSON, each item on a line of its own.
-/

namespace Playbook

inductive JsonText
  | null
  | string (s : String)
  | array (items : List JsonText)
  | object (entries : List (String × JsonText))
  deriving Repr, Inhabited

namespace JsonText

/-- A character inside a string. -/
def escape (c : Char) : String :=
  match c with
  | '"' => "\\\""
  | '\\' => "\\\\"
  | '\n' => "\\n"
  | '\r' => "\\r"
  | '\t' => "\\t"
  | '\x08' => "\\b"
  | '\x0c' => "\\f"
  | c => if c.toNat < 0x20 then "\\u" ++ hexDigits 4 c.toNat else c.toString

def quote (s : String) : String :=
  "\"" ++ String.join (s.toList.map escape) ++ "\""

def lineAt (indent : Nat) (text : String) : String :=
  "\n" ++ String.ofList (List.replicate (2 * indent) ' ') ++ text

/-- Lines between two brackets, at the given indentation. -/
def enclose (left right : String) (indent : Nat) (lines : List String) : String :=
  if lines.isEmpty then left ++ right
  else
    left ++ ",".intercalate (lines.map (lineAt (indent + 1))) ++ lineAt indent right

mutual

/-- The text of a value that stands at the given indentation. -/
def render (indent : Nat) : JsonText → String
  | null => "null"
  | string s => quote s
  | array items => enclose "[" "]" indent (renderItems (indent + 1) items)
  | object entries => enclose "\x7b" "\x7d" indent (renderEntries (indent + 1) entries)

def renderItems (indent : Nat) : List JsonText → List String
  | [] => []
  | item :: rest => render indent item :: renderItems indent rest

def renderEntries (indent : Nat) : List (String × JsonText) → List String
  | [] => []
  | (key, value) :: rest =>
      (quote key ++ ": " ++ render indent value) :: renderEntries indent rest

end

end JsonText

end Playbook
