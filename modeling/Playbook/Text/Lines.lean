import Playbook.Text.Mark
import Playbook.Text.Search

/-!
Lines as an editor counts them, and the columns of a line in units of UTF-16.
-/

namespace Playbook

/-- A line without the carriage return before its line feed. -/
def dropReturn (line : List Char) : List Char :=
  if line.getLast? == some '\r' then line.dropLast else line

/-- The lines of a text. A line feed, alone or behind a carriage return, ends a line; behind the
last one no further line begins. -/
def textLines (text : List Char) : List (List Char) :=
  let pieces := splitAtChar '\n' text
  pieces.dropLast.map dropReturn ++ (pieces.getLast?.filter (!·.isEmpty)).toList

/-- How many units of UTF-16 a character takes. -/
def unitsOf (c : Char) : Nat := if c.toNat < 0x10000 then 1 else 2

/-- How many characters it takes to fill `units` units, or all of the line if it is too short. -/
def charsFilling : List Char → Nat → Nat
  | _, 0 => 0
  | [], _ + 1 => 0
  | c :: rest, units + 1 => charsFilling rest (units + 1 - unitsOf c) + 1

namespace Cursor

/-- The end of the last line of a text. -/
def endOf (text : List Char) : Cursor :=
  match (textLines text).reverse with
  | [] => origin
  | line :: before => ⟨before.length, line.length⟩

/-- The cursor of an editor that counts columns in units of UTF-16. Past the last line it is taken
as it is. -/
def ofUnits (text : List Char) (line units : Nat) : Cursor :=
  match (textLines text)[line]? with
  | none => ⟨line, units⟩
  | some content => ⟨line, charsFilling content units⟩

end Cursor

end Playbook
