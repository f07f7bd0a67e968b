/-!
Reading whole numbers in a given base.
-/

namespace Playbook

/-- The value of a digit, letters counting from ten. -/
def digitValue? (c : Char) : Option Nat :=
  if '0' ≤ c && c ≤ '9' then some (c.toNat - '0'.toNat)
  else if 'a' ≤ c && c ≤ 'z' then some (c.toNat - 'a'.toNat + 10)
  else if 'A' ≤ c && c ≤ 'Z' then some (c.toNat - 'A'.toNat + 10)
  else none

/-- A digit of the given base. -/
def digitIn? (base : Nat) (c : Char) : Option Nat :=
  (digitValue? c).filter (· < base)

def readDigitsFrom? (base : Nat) : Nat → List Char → Option Nat
  | n, [] => some n
  | n, c :: rest => (digitIn? base c).bind fun d => readDigitsFrom? base (n * base + d) rest

/-- One or more digits. -/
def readDigits? (base : Nat) (text : List Char) : Option Nat :=
  if text.isEmpty then none else readDigitsFrom? base 0 text

/-- Digits with an optional plus sign. -/
def readNat? (base : Nat) : List Char → Option Nat
  | '+' :: rest => readDigits? base rest
  | text => readDigits? base text

/-- Digits with an optional sign. -/
def readInt? (base : Nat) : List Char → Option Int
  | '-' :: rest => (readDigits? base rest).map fun n => -(n : Int)
  | text => (readNat? base text).map fun n => (n : Int)

/-- The character of a code, if it has one. -/
def scalarValue? (n : Nat) : Option Char :=
  if n.isValidChar then some (Char.ofNat n) else none

end Playbook
