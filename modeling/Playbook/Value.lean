import Playbook.Number.Binary64

/-!
Values: what a document means once it is read. A mapping keeps its entries in the order in which
their keys first came.
-/

namespace Playbook

/-- A scalar that can be the key of an entry. Numbers with a point are told apart by their bits. -/
inductive Key
  | null
  | bool (b : Bool)
  | int (n : Int)
  | float (x : Binary64)
  | str (s : String)
  deriving Repr, DecidableEq, Inhabited

inductive Value
  | null
  | bool (b : Bool)
  | int (n : Int)
  | float (x : Binary64)
  | str (s : String)
  | seq (items : List Value)
  | map (entries : List (Key × Value))
  deriving Repr, Inhabited

abbrev Mapping := List (Key × Value)

namespace Key

def toValue : Key → Value
  | null => .null
  | bool b => .bool b
  | int n => .int n
  | float x => .float x
  | str s => .str s

def str? : Key → Option String
  | str s => some s
  | _ => none

end Key

namespace Mapping

/-- Add an entry. A key that is there keeps its place and gets the new value. -/
def insert (key : Key) (value : Value) : Mapping → Mapping
  | [] => [(key, value)]
  | entry :: rest =>
      if entry.1 = key then (key, value) :: rest else entry :: insert key value rest

def get? (key : Key) (m : Mapping) : Option Value := m.lookup key

def keys (m : Mapping) : List Key := m.map Prod.fst

/-- The keys that are strings. -/
def names (m : Mapping) : List String := m.keys.filterMap Key.str?

end Mapping

namespace Value

/-- The value as a key, unless it is a collection. -/
def key? : Value → Option Key
  | null => some .null
  | bool b => some (.bool b)
  | int n => some (.int n)
  | float x => some (.float x)
  | str s => some (.str s)
  | seq _ => none
  | map _ => none

def str? : Value → Option String
  | str s => some s
  | _ => none

def map? : Value → Option Mapping
  | map entries => some entries
  | _ => none

def seq? : Value → Option (List Value)
  | seq items => some items
  | _ => none

def isCollection : Value → Bool
  | seq _ => true
  | map _ => true
  | _ => false

/-- The name of the type of a value in messages. -/
def typeName : Value → String
  | null => "null"
  | bool _ => "bool"
  | int _ => "int"
  | float _ => "float"
  | str _ => "str"
  | seq _ => "list"
  | map _ => "dict"

end Value

end Playbook
