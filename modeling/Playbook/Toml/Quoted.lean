import Playbook.Text.Radix

/-!
Strings of TOML. Basic strings stand between double quotes and have escapes, literal strings stand
between single quotes. Three quotes in place of one admit line breaks.
-/

namespace Playbook

namespace Toml

/-- A reader of some text takes a part of it and leaves the rest, or fails. -/
abbrev Reads (α : Type) := List Char → Option (α × List Char)

/-- Characters that may not stand for themselves. -/
def isForbidden (c : Char) : Bool := (c.toNat < 0x20 && c != '\t') || c.toNat == 0x7f

def isGap (c : Char) : Bool := c == ' ' || c == '\t'

/-- The rest behind a line break, if one stands here. -/
def lineBreak? : List Char → Option (List Char)
  | '\n' :: rest => some rest
  | '\r' :: '\n' :: rest => some rest
  | _ => none

/-- Escapes of one letter. -/
def escapes : List (Char × Char) :=
  [('b', '\x08'), ('t', '\t'), ('n', '\n'), ('f', '\x0c'), ('r', '\r'), ('e', '\x1b'), ('"', '"'),
    ('\\', '\\')]

/-- Escapes by the code of a character, and how many digits it has. -/
def codeEscapes : List (Char × Nat) := [('x', 2), ('u', 4), ('U', 8)]

/-- The character of an escape, behind the backslash. -/
def escape? : Reads Char
  | [] => none
  | c :: rest =>
      match escapes.lookup c, codeEscapes.lookup c with
      | some e, _ => some (e, rest)
      | none, some length => do
          let digits := rest.take length
          if digits.length < length then none
          let e ← scalarValue? (← readDigits? 16 digits)
          return (e, rest.drop length)
      | none, none => none

/-- The rest of a literal string. -/
def literal : Reads (List Char)
  | [] => none
  | '\'' :: rest => some ([], rest)
  | c :: rest => if isForbidden c then none else (literal rest).map fun (s, rest) => (c :: s, rest)

/-- The rest of a basic string. -/
def basic (fuel : Nat) : Reads (List Char) := fun text =>
  match fuel, text with
  | 0, _ => none
  | _, [] => none
  | _ + 1, '"' :: rest => some ([], rest)
  | fuel + 1, '\\' :: rest => do
      let (c, rest) ← escape? rest
      let (s, rest) ← basic fuel rest
      return (c :: s, rest)
  | fuel + 1, c :: rest => do
      if isForbidden c then none
      let (s, rest) ← basic fuel rest
      return (c :: s, rest)

/-- What ends a string of several lines: three quotes, before which there may be two more that
belong to the string. -/
def closing? (quote : Char) (text : List Char) : Option (List Char × List Char) :=
  let run := (text.takeWhile (· == quote)).take 5
  if run.length < 3 then none else some (run.drop 3, text.drop run.length)

/-- The rest behind blanks and line breaks. -/
def skipSpace (fuel : Nat) (text : List Char) : List Char :=
  let rest := text.dropWhile isGap
  match fuel, lineBreak? rest with
  | fuel + 1, some rest => skipSpace fuel rest
  | _, _ => rest

/-- What is left behind a backslash at the end of a line: white space up to the next character does
not count. -/
def lineEnding? (text : List Char) : Option (List Char) :=
  (lineBreak? (text.dropWhile isGap)).map fun rest => skipSpace rest.length rest

/-- The rest of a string of several lines. -/
def block (quote : Char) (fuel : Nat) : Reads (List Char) := fun text =>
  match fuel, text with
  | 0, _ => none
  | _, [] => none
  | fuel + 1, c :: rest =>
      match closing? quote (c :: rest), lineBreak? (c :: rest) with
      | some result, _ => some result
      | none, some behind => do
          let written := (c :: rest).take (rest.length + 1 - behind.length)
          let (s, rest) ← block quote fuel behind
          return (written ++ s, rest)
      | none, none =>
          if c == '\\' && quote == '"' then
            match lineEnding? rest with
            | some rest => block quote fuel rest
            | none => do
                let (e, rest) ← escape? rest
                let (s, rest) ← block quote fuel rest
                return (e :: s, rest)
          else if isForbidden c then none
          else do
            let (s, rest) ← block quote fuel rest
            return (c :: s, rest)

/-- A line break at the start of a string of several lines does not count. -/
def blockBody (text : List Char) : List Char := (lineBreak? text).getD text

/-- A string on one line. -/
def quoted? : Reads String
  | '\'' :: rest => (literal rest).map fun (s, rest) => (String.ofList s, rest)
  | '"' :: rest => (basic (rest.length + 1) rest).map fun (s, rest) => (String.ofList s, rest)
  | _ => none

/-- A string of any kind. -/
def string? : Reads String
  | '"' :: '"' :: '"' :: rest => wide '"' rest
  | '\'' :: '\'' :: '\'' :: rest => wide '\'' rest
  | text => quoted? text
where
  wide (quote : Char) (rest : List Char) : Option (String × List Char) :=
    (block quote (rest.length + 1) (blockBody rest)).map fun (s, rest) => (String.ofList s, rest)

end Toml

end Playbook
