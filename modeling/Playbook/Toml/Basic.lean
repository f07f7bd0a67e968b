/-!
TOML documents: tables of values, and how the statements of a document add to them. Each table and
each key may be defined once, and what was defined in one piece cannot be added to.
-/

namespace Playbook

namespace Toml

/-- How a table came about. -/
inductive TableForm
  /-- By the header of a table below it. -/
  | implied
  /-- By a key with several parts. -/
  | dotted
  /-- By its own header. -/
  | header
  /-- Between braces. -/
  | inline
  deriving Repr, DecidableEq, Inhabited

/-- How an array came about: between brackets, or by headers that each add a table. -/
inductive ArrayForm
  | inline
  | headers
  deriving Repr, DecidableEq, Inhabited

inductive Value
  | string (text : String)
  | integer (n : Int)
  | float
  | bool (b : Bool)
  | time
  | array (form : ArrayForm) (items : List Value)
  | table (form : TableForm) (entries : List (String × Value))
  deriving Repr, Inhabited

/-- The entries of a table in the order of their definition. -/
abbrev Table := List (String × Value)

namespace Table

/-- Replace the value of a key that the table has. -/
def replace (key : String) (value : Value) : Table → Table
  | [] => []
  | (k, v) :: rest => if k == key then (k, value) :: rest else (k, v) :: replace key value rest

/-- Change the table that a path leads to, through the last table of an array of tables. Tables that
are not there come about on the way; with `dotted` the path must not lead into a table with a header
of its own. -/
def changeAt (dotted : Bool) (change : TableForm → Table → Option Table) :
    List String → TableForm → Table → Option Table
  | [], form, entries => change form entries
  | key :: path, _, entries =>
      match entries.lookup key with
      | none => do
          let form := if dotted then TableForm.dotted else .implied
          let below ← changeAt dotted change path form []
          return entries ++ [(key, .table form below)]
      | some (.table form below) =>
          if form == .inline || (dotted && form == .header) then none
          else do
            let below ← changeAt dotted change path form below
            return replace key (.table form below) entries
      | some (.array .headers items) =>
          match items.getLast? with
          | some (.table form below) => do
              let below ← changeAt dotted change path form below
              return replace key (.array .headers (items.dropLast ++ [.table form below])) entries
          | _ => none
      | some _ => none

/-- Define a key. One with several parts does not add to a table with a header of its own. -/
def define (path : List String) (key : String) (value : Value) (form : TableForm)
    (entries : Table) : Option Table :=
  changeAt true
    (fun form entries =>
      if (!path.isEmpty && form == .header) || (entries.lookup key).isSome then none
      else some (entries ++ [(key, value)]))
    path form entries

/-- Define a table by its header. -/
def openTable (path : List String) (key : String) (root : Table) : Option Table :=
  changeAt false
    (fun _ entries =>
      match entries.lookup key with
      | none => some (entries ++ [(key, .table .header [])])
      | some (.table .implied below) => some (replace key (.table .header below) entries)
      | some _ => none)
    path .header root

/-- Add a table to an array of tables by a header. -/
def openElement (path : List String) (key : String) (root : Table) : Option Table :=
  changeAt false
    (fun _ entries =>
      match entries.lookup key with
      | none => some (entries ++ [(key, .array .headers [.table .header []])])
      | some (.array .headers items) =>
          some (replace key (.array .headers (items ++ [.table .header []])) entries)
      | some _ => none)
    path .header root

end Table

end Toml

end Playbook
