import Playbook.Text.Radix
import Playbook.Number.Binary64

/-!
Numbers as they are written in scalars. Underscores between digits do not count.
-/

namespace Playbook

namespace Number

def largest : Int := Int.pow 2 63 - 1

def smallest : Int := -Int.pow 2 63

def dropGaps (text : List Char) : List Char := text.filter (· != '_')

/-- A leading sign, and what is left without it. -/
def splitSign : List Char → Bool × List Char
  | '-' :: rest => (true, rest)
  | '+' :: rest => (false, rest)
  | text => (false, text)

/-- The base of a number by its first characters, and its digits. -/
def splitBase : List Char → Nat × List Char
  | ['0'] => (10, ['0'])
  | '0' :: 'b' :: digits => (2, digits)
  | '0' :: 'x' :: digits => (16, digits)
  | '0' :: digits => (8, digits)
  | digits => (10, digits)

/-- A number within 64 bits. -/
def bounded? (base : Nat) (digits : List Char) : Option Int :=
  (readInt? base digits).filter fun n => smallest ≤ n && n ≤ largest

/-- The value behind the leading sign. Its digits may have a sign of their own. -/
def magnitude? (text : List Char) : Option Int :=
  let (base, digits) := splitBase (splitSign (dropGaps text)).2
  bounded? base digits

/-- A computation that does not stay within 64 bits stops. -/
inductive Overflow
  | negation
  deriving Repr, DecidableEq

/-- The negation, which must have 64 bits. -/
def negate (n : Int) : Except Overflow Int :=
  if smallest ≤ -n && -n ≤ largest then .ok (-n) else .error .negation

/-- The whole number that a scalar writes, if it does and the number has 64 bits. -/
def toInt? (text : List Char) : Except Overflow (Option Int) :=
  (magnitude? text).mapM fun n =>
    if (splitSign (dropGaps text)).1 then negate n else .ok n

/-- Digits, optionally with a point, and then optionally an exponent. -/
def decimal? (text : List Char) : Option Binary64 :=
  let (mantissa, exponent) := text.span (· != 'e')
  let (whole, fraction) := mantissa.span (· != '.')
  let fraction := fraction.drop 1
  let e : Option Int := if exponent.isEmpty then some 0 else readInt? 10 (exponent.drop 1)
  match readDigits? 10 (whole ++ fraction), e with
  | some digits, some e => some (.ofDecimal digits (e - fraction.length))
  | _, _ => none

/-- A decimal number or the name of a special one, in small letters. -/
def unsignedFloat? (text : List Char) : Option Binary64 :=
  if ["inf", "infinity"].contains (String.ofList text) then some .infinity
  else if String.ofList text == "nan" then some .nan
  else decimal? text

def flipIf (negative : Bool) (x : Binary64) : Binary64 := if negative then x.neg else x

/-- As `unsignedFloat?`, with an optional sign. -/
def signedFloat? (text : List Char) : Option Binary64 :=
  let (negative, body) := splitSign text
  (unsignedFloat? body).map (flipIf negative)

/-- The number that a scalar writes, if it does. -/
def toFloat? (text : List Char) : Option Binary64 :=
  let (negative, body) := splitSign ((dropGaps text).map Char.toLower)
  let x :=
    if String.ofList body == ".inf" then some .infinity
    else if String.ofList body == ".nan" then some .nan
    else signedFloat? body
  x.map (flipIf negative)

end Number

end Playbook
