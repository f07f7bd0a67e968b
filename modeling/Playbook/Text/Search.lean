/-!
Searching for one text inside another.
-/

namespace Playbook

/-- Whether `part` stands somewhere in a text. -/
def occursIn (part : List Char) : List Char → Bool
  | [] => part.isEmpty
  | c :: rest => part.isPrefixOf (c :: rest) || occursIn part rest

/-- What stands before the first occurrence of `part`, if there is one. -/
def textBefore? (part : List Char) : List Char → Option (List Char)
  | [] => if part.isEmpty then some [] else none
  | c :: rest =>
      if part.isPrefixOf (c :: rest) then some [] else (textBefore? part rest).map (c :: ·)

/-- Whether `name` contains `pattern`. -/
def hasPart (name pattern : String) : Bool := occursIn pattern.toList name.toList

/-- The pieces of a text between the occurrences of a character. -/
def splitAtChar (sep : Char) : List Char → List (List Char)
  | [] => [[]]
  | c :: rest =>
      match splitAtChar sep rest with
      | [] => [[c]]
      | piece :: pieces => if c == sep then [] :: piece :: pieces else (c :: piece) :: pieces

end Playbook
