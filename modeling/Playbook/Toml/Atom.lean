import Playbook.Number.Text
import Playbook.Toml.Basic

/-!
The values of TOML that are written without quotes and brackets: numbers, truth values and times.
-/

namespace Playbook

namespace Toml

/-- Digits in groups, an underscore between one group and the next. -/
def groupsOf (isDigit : Char → Bool) : List Char → Bool
  | [] => false
  | [c] => isDigit c
  | c :: '_' :: rest => isDigit c && groupsOf isDigit rest
  | c :: rest => isDigit c && groupsOf isDigit rest

/-- Decimal digits in groups, without a zero in front. -/
def isWhole (text : List Char) : Bool :=
  groupsOf Char.isDigit text && (text.head? != some '0' || text.length == 1)

/-- The bases that are named by a letter. -/
def basedInteger? : List Char → Option Nat
  | '0' :: 'x' :: digits => based 16 digits
  | '0' :: 'o' :: digits => based 8 digits
  | '0' :: 'b' :: digits => based 2 digits
  | _ => none
where
  based (base : Nat) (digits : List Char) : Option Nat :=
    if groupsOf (fun c => (digitIn? base c).isSome) digits then
      readDigits? base (Number.dropGaps digits)
    else none

def integer? (text : List Char) : Option Int :=
  match basedInteger? text with
  | some n => some n
  | none =>
      if isWhole (Number.splitSign text).2 then readInt? 10 (Number.dropGaps text) else none

/-- Numbers that have 128 bits, with or without a sign. -/
def fits (n : Int) : Bool := -Int.pow 2 127 ≤ n && n < Int.pow 2 128

/-- A whole part, and then a fraction, an exponent or both. -/
def isFinite (text : List Char) : Bool :=
  let body := text.map Char.toLower
  let (mantissa, exponent) := body.span (· != 'e')
  let (whole, fraction) := mantissa.span (· != '.')
  isWhole whole &&
    (fraction.isEmpty || groupsOf Char.isDigit fraction.tail) &&
    (exponent.isEmpty || groupsOf Char.isDigit (Number.splitSign exponent.tail).2) &&
    !(fraction.isEmpty && exponent.isEmpty) &&
    Number.unsignedFloat? (Number.dropGaps body) != some .infinity

def isFloat (text : List Char) : Bool :=
  let body := (Number.splitSign text).2
  ["inf", "nan"].contains (String.ofList body) || isFinite body

/-- A number of exactly the given length, within bounds. -/
def counted? (length low high : Nat) (text : List Char) : Bool :=
  text.length == length && text.all Char.isDigit &&
    (readDigits? 10 text).any fun n => low ≤ n && n ≤ high

def daysIn (year month : Nat) : Nat :=
  let leap := year % 4 == 0 && (year % 100 != 0 || year % 400 == 0)
  if month == 2 then if leap then 29 else 28
  else if [4, 6, 9, 11].contains month then 30 else 31

def isDate : List Char → Bool
  | [y1, y2, y3, y4, '-', m1, m2, '-', d1, d2] =>
      let number (text : List Char) : Nat := (readDigits? 10 text).getD 0
      let year := [y1, y2, y3, y4]
      let month := [m1, m2]
      counted? 4 0 9999 year && counted? 2 1 12 month &&
        counted? 2 1 (daysIn (number year) (number month)) [d1, d2]
  | _ => false

/-- Hours and minutes, and then optionally seconds and a fraction of one. -/
def isClock : List Char → Bool
  | h1 :: h2 :: ':' :: m1 :: m2 :: rest =>
      counted? 2 0 23 [h1, h2] && counted? 2 0 59 [m1, m2] &&
        match rest with
        | [] => true
        | ':' :: s1 :: s2 :: fraction =>
            counted? 2 0 60 [s1, s2] &&
              match fraction with
              | [] => true
              | '.' :: digits => !digits.isEmpty && digits.all Char.isDigit
              | _ => false
        | _ => false
  | _ => false

/-- The offset from universal time. -/
def isOffset : List Char → Bool
  | ['Z'] => true
  | ['z'] => true
  | [sign, h1, h2, ':', m1, m2] =>
      (sign == '+' || sign == '-') && counted? 2 0 23 [h1, h2] && counted? 2 0 59 [m1, m2]
  | _ => false

/-- A clock time, and then optionally an offset. -/
def isClockWithOffset (text : List Char) : Bool :=
  let clock := text.takeWhile fun c => c.isDigit || c == ':' || c == '.'
  let offset := text.drop clock.length
  isClock clock && (offset.isEmpty || isOffset offset)

/-- A date, a clock time, or both. -/
def isTime (text : List Char) : Bool :=
  isDate text || isClock text ||
    (isDate (text.take 10) && ['T', 't', ' '].any (fun c => text[10]? == some c) &&
      isClockWithOffset (text.drop 11))

/-- The value that is written so, if there is one. -/
def atom? (text : List Char) : Option Value :=
  if text == "true".toList then some (.bool true)
  else if text == "false".toList then some (.bool false)
  else
    match integer? text with
    | some n => if fits n then some (.integer n) else none
    | none => if isFloat text then some .float else if isTime text then some .time else none

end Toml

end Playbook
