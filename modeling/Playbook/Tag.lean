/-!
Tags name the type of a node. A scalar without a tag gets one from its text, by the rules of
`Tag.ofPlain`.
-/

namespace Playbook

inductive Tag
  | null
  | bool
  | int
  | float
  | str
  | seq
  | map
  | merge
  | other (uri : String)
  deriving Repr, DecidableEq, Inhabited

namespace Tag

/-- What all tags of the core set begin with. -/
def coreBase : String := "tag:yaml.org,2002:"

/-- The full form of a tag. -/
def uri : Tag → String
  | null => coreBase ++ "null"
  | bool => coreBase ++ "bool"
  | int => coreBase ++ "int"
  | float => coreBase ++ "float"
  | str => coreBase ++ "str"
  | seq => coreBase ++ "seq"
  | map => coreBase ++ "map"
  | merge => coreBase ++ "merge"
  | other uri => uri

def core : List Tag := [null, bool, int, float, str, seq, map, merge]

def ofUri (uri : String) : Tag :=
  (core.find? (·.uri == uri)).getD (other uri)

def stripSign : List Char → List Char
  | '-' :: rest => rest
  | '+' :: rest => rest
  | text => text

/-- One or more characters of a class. -/
def someOf (p : Char → Bool) (text : List Char) : Bool :=
  !text.isEmpty && text.all p

def isDigitOrGap (c : Char) : Bool := c.isDigit || c == '_'

def isOctalOrGap (c : Char) : Bool := ('0' ≤ c && c ≤ '7') || c == '_'

def isBinaryOrGap (c : Char) : Bool := c == '0' || c == '1' || c == '_'

def isHexOrGap (c : Char) : Bool :=
  c.isDigit || ('a' ≤ c && c ≤ 'f') || ('A' ≤ c && c ≤ 'F') || c == '_'

/-- Whole numbers: binary after `0b`, hexadecimal after `0x`, octal after a zero, else decimal; each
with an optional sign and with underscores between the digits. -/
def isInt (text : List Char) : Bool :=
  match stripSign text with
  | '0' :: 'b' :: digits => someOf isBinaryOrGap digits
  | '0' :: 'x' :: digits => someOf isHexOrGap digits
  | ['0'] => true
  | '0' :: digits => someOf isOctalOrGap digits
  | c :: digits => '1' ≤ c && c ≤ '9' && digits.all isDigitOrGap
  | [] => false

def isExponentSign (c : Char) : Bool := c == 'e' || c == 'E'

/-- An exponent has a sign and at least one digit. -/
def isExponent : List Char → Bool
  | [] => true
  | _ :: '-' :: digits => someOf Char.isDigit digits
  | _ :: '+' :: digits => someOf Char.isDigit digits
  | _ => false

/-- The part of a number before its exponent. It has a point, and a digit first; only a number that
starts with a digit may have a sign. -/
def isMantissa (signed : Bool) (mantissa : List Char) : Bool :=
  match mantissa.span (· != '.') with
  | (_, []) => false
  | ([], _ :: fraction) =>
      !signed && (fraction.head?.any Char.isDigit) && fraction.all isDigitOrGap
  | (c :: whole, _ :: fraction) =>
      c.isDigit && whole.all isDigitOrGap && fraction.all isDigitOrGap

/-- Numbers with a point, infinities and the number that is none. -/
def isFloat (text : List Char) : Bool :=
  let unsigned := stripSign text
  let (mantissa, exponent) := unsigned.span (fun c => !isExponentSign c)
  [".inf", ".Inf", ".INF"].contains (String.ofList unsigned) ||
    [".nan", ".NaN", ".NAN"].contains (String.ofList text) ||
    (isExponent exponent && isMantissa (unsigned != text) mantissa)

def nullWords : List String := ["", "~", "null", "Null", "NULL"]

def boolWords : List String :=
  ["yes", "Yes", "YES", "no", "No", "NO", "true", "True", "TRUE", "false", "False", "FALSE",
    "on", "On", "ON", "off", "Off", "OFF"]

/-- The tag that a plain scalar gets from its text. -/
def ofPlain (text : String) : Tag :=
  if nullWords.contains text then null
  else if boolWords.contains text then bool
  else if text == "<<" then merge
  else if isFloat text.toList then float
  else if isInt text.toList then int
  else str

/-- The tag of a scalar that was given none. -/
def ofScalar (text : String) (implicit : Bool) : Tag :=
  if implicit then ofPlain text else str

end Tag

end Playbook
