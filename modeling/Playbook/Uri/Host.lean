import Playbook.Text.Search
import Playbook.Uri.Percent
import Playbook.Uri.Punycode

/-!
Hosts in addresses: names, and numbers of four or of sixteen bytes.
-/

namespace Playbook

namespace Uri

inductive Host
  | name (text : String)
  | v4 (address : Nat)
  /-- Eight groups of sixteen bits. -/
  | v6 (groups : List Nat)
  deriving Repr, DecidableEq, Inhabited

namespace Host

/-! ### Four bytes -/

/-- A part of an address, octal behind a zero and hexadecimal behind `0x`. -/
def v4Part? : List Char → Option Nat
  | ['0', 'x'] => some 0
  | '0' :: 'x' :: digits => readDigits? 16 digits
  | '0' :: c :: digits => readDigits? 8 (c :: digits)
  | digits => readDigits? 10 digits

/-- Parts of a byte each, but for the last one, which fills up the rest. -/
def v4? (parts : List (List Char)) : Option Nat := do
  let numbers ← parts.mapM v4Part?
  let last ← numbers.getLast?
  let bytes := numbers.dropLast
  if bytes.length > 3 || bytes.any (· > 255) || last ≥ Nat.pow 256 (4 - bytes.length) then none
  else some (bytes.foldl (· * 256 + ·) 0 * Nat.pow 256 (4 - bytes.length) + last)

def v4Text (n : Nat) : String :=
  ".".intercalate ([3, 2, 1, 0].map fun place => (n / Nat.pow 256 place % 256).repr)

/-! ### Sixteen bytes -/

/-- Four plain bytes as two groups. -/
def v4Groups? (text : List Char) : Option (List Nat) := do
  let parts := splitAtChar '.' text
  if parts.length != 4 || parts.any (fun p => p.length > 1 && p.head? == some '0') then none
  let bytes ← parts.mapM (readDigits? 10)
  match bytes with
  | [a, b, c, d] =>
      if bytes.any (· > 255) then none else some [a * 256 + b, c * 256 + d]
  | _ => none

/-- Groups with colons between them. The last one may be four bytes. -/
def groups? : List (List Char) → Option (List Nat)
  | [] => some []
  | [piece] => if piece.contains '.' then v4Groups? piece else (group? piece).map ([·])
  | piece :: rest => do return (← group? piece) :: (← groups? rest)
where
  group? (piece : List Char) : Option Nat :=
    if piece.length > 4 then none else readDigits? 16 piece

def side? (text : List Char) : Option (List Nat) :=
  if text.isEmpty then some [] else groups? (splitAtChar ':' text)

/-- Eight groups, of which two colons leave out a run of zeros. -/
def v6? (text : List Char) : Option (List Nat) := do
  match textBefore? [':', ':'] text with
  | none =>
      let groups ← side? text
      if groups.length == 8 then some groups else none
  | some before =>
      if before.contains '.' then none
      let left ← side? before
      let right ← side? (text.drop (before.length + 2))
      let given := left.length + right.length
      if given > 7 then none else some (left ++ List.replicate (8 - given) 0 ++ right)

/-- How many zeros start at a place. -/
def zeros (groups : List Nat) (place : Nat) : Nat :=
  ((groups.drop place).takeWhile (· == 0)).length

/-- The longest run of zeros is left out, if there are two or more. -/
def v6Text (groups : List Nat) : String :=
  let start := (List.range groups.length).foldl
    (fun best place => if zeros groups place > zeros groups best then place else best) 0
  let length := zeros groups start
  if length < 2 then text groups
  else text (groups.take start) ++ "::" ++ text (groups.drop (start + length))
where
  text (groups : List Nat) : String :=
    ":".intercalate (groups.map fun g => String.ofList (Nat.toDigits 16 g))

def toText : Host → String
  | name text => text
  | v4 address => v4Text address
  | v6 groups => "[" ++ v6Text groups ++ "]"

/-! ### Names -/

def bracketed? : List Char → Option (List Char)
  | '[' :: rest => if rest.getLast? == some ']' then some rest.dropLast else none
  | _ => none

/-- What no name has. -/
def isForbidden (c : Char) : Bool :=
  [' ', '#', '/', ':', '<', '>', '?', '@', '[', '\\', ']', '^', '|', '\x00', '\t', '\n',
    '\r'].contains c

/-- What no name has that is looked up. -/
def isForbiddenLabel (c : Char) : Bool :=
  isForbidden c || c.toNat < 0x20 || c == '%' || c.toNat == 0x7f

/-- A part of a name in ASCII. -/
def label (text : List Char) : List Char :=
  if text.all (·.toNat < 0x80) then text else "xn--".toList ++ Punycode.encode text

/-- Whether the last part of a name is a number, so that all of it has to be one. -/
def endsInNumber (parts : List (List Char)) : Bool :=
  match parts.getLast? with
  | some last => (!last.isEmpty && last.all Char.isDigit) || (v4Part? last).isSome
  | none => false

/-- The host of an address where names are looked up. -/
def lookedUp? (text : List Char) : Option Host :=
  if text.head? == some '[' then do return .v6 (← v6? (← bracketed? text))
  else do
    let labels := (splitAtChar '.' ((← unescape? text).map Char.toLower)).map label
    let name := ['.'].intercalate labels
    let parts := if labels.length > 1 && labels.getLast? == some [] then labels.dropLast else labels
    if name.isEmpty || name.any isForbiddenLabel then none
    else if endsInNumber parts then return .v4 (← v4? parts)
    else some (.name (String.ofList name))

/-- The host of any other address. -/
def free? (text : List Char) : Option Host :=
  if text.head? == some '[' then do return .v6 (← v6? (← bracketed? text))
  else if text.any isForbidden then none
  else some (.name (escape [] text))

end Host

end Uri

end Playbook
