/-!
Binary floating-point numbers of 64 bits, kept as their bits, and the rounding of exact quotients to
them: to the nearest number, and of two equally near ones to the even one.
-/

namespace Playbook

structure Binary64 where
  bits : UInt64
  deriving Repr, DecidableEq, Inhabited

namespace Binary64

def infinity : Binary64 := ⟨0x7ff0000000000000⟩

/-- The number that is none. -/
def nan : Binary64 := ⟨0x7ff8000000000000⟩

def signBit : UInt64 := 0x8000000000000000

def isNaN (x : Binary64) : Bool := x.bits &&& 0x7fffffffffffffff > infinity.bits

/-- Negation turns the sign over; a result that is no number has none to turn. -/
def neg (x : Binary64) : Binary64 := if x.isNaN then x else ⟨x.bits ^^^ signBit⟩

/-- The quotient of two whole numbers, to the nearest whole number, ties to even. -/
def roundDiv (num den : Nat) : Nat :=
  let q := num / den
  let r := num % den
  if 2 * r > den || (2 * r == den && q % 2 == 1) then q + 1 else q

/-- `num / den / 2 ^ e` as a quotient of whole numbers. -/
def scale (num den : Nat) (e : Int) : Nat × Nat :=
  if e < 0 then (num * Nat.pow 2 e.natAbs, den) else (num, den * Nat.pow 2 e.natAbs)

/-- The exponent of the last place of a quotient: 53 places are kept, and none below `2 ^ -1074`. -/
def lastPlace (num den : Nat) : Int :=
  let e := max ((num.log2 : Int) - den.log2 - 53) (-1074)
  let (n, d) := scale num den e
  if n / d ≥ Nat.pow 2 53 then e + 1 else e

/-- The bits of `places * 2 ^ e`. A carry out of the places moves on into the exponent, and past the
largest exponent lies infinity. -/
def encode (places : Nat) (e : Int) : Binary64 :=
  let word := if places < Nat.pow 2 52 then places else (e + 1074).toNat * Nat.pow 2 52 + places
  if word ≥ infinity.bits.toNat then infinity else ⟨UInt64.ofNat word⟩

/-- The number nearest to `num / den`. -/
def ofQuotient (num den : Nat) : Binary64 :=
  if num == 0 then ⟨0⟩
  else
    let e := lastPlace num den
    let (n, d) := scale num den e
    encode (roundDiv n d) e

/-- The number nearest to `digits * 10 ^ e`. Far outside the range the answer is clear without
working out the power. -/
def ofDecimal (digits : Nat) (e : Int) : Binary64 :=
  let magnitude := e + (Nat.toDigits 10 digits).length
  if digits == 0 || magnitude < -330 then ⟨0⟩
  else if magnitude > 330 then infinity
  else if e < 0 then ofQuotient digits (Nat.pow 10 e.natAbs)
  else ofQuotient (digits * Nat.pow 10 e.natAbs) 1

end Binary64

end Playbook
