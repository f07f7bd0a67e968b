import Playbook.Text.Radix

/-!
Escapes in addresses: a byte that may not stand for itself is written as a percent sign with two
digits.
-/

namespace Playbook

namespace Uri

def hexDigit (n : Nat) : Char := (Nat.digitChar n).toUpper

def escapeByte (b : UInt8) : List Char := ['%', hexDigit (b.toNat / 16), hexDigit (b.toNat % 16)]

/-- Controls and characters beyond ASCII may not stand for themselves anywhere, others only where
they are reserved. -/
def escapeChar (reserved : List Char) (c : Char) : List Char :=
  if c.toNat < 0x20 || 0x7f ≤ c.toNat || reserved.contains c then
    (String.singleton c).toUTF8.toList.flatMap escapeByte
  else [c]

def escape (reserved : List Char) (text : List Char) : String :=
  String.ofList (text.flatMap (escapeChar reserved))

/-- The bytes of a text with its escapes resolved. A percent sign without digits is one itself. -/
def unescape : List Char → List UInt8
  | '%' :: a :: b :: rest =>
      match digitIn? 16 a, digitIn? 16 b with
      | some high, some low => UInt8.ofNat (high * 16 + low) :: unescape rest
      | _, _ => UInt8.ofNat '%'.toNat :: unescape (a :: b :: rest)
  | c :: rest => (String.singleton c).toUTF8.toList ++ unescape rest
  | [] => []

/-- A text with its escapes resolved, if that is a text. -/
def unescape? (text : List Char) : Option (List Char) :=
  (String.fromUTF8? ⟨(unescape text).toArray⟩).map String.toList

/-! ### What is reserved in the parts of an address -/

def reservedInFragment : List Char := [' ', '"', '<', '>', '\x60']

def reservedInQuery : List Char := [' ', '"', '#', '<', '>']

def reservedInPath : List Char := reservedInFragment ++ ['#', '?', '\x7b', '\x7d']

def reservedInUser : List Char :=
  reservedInPath ++ ['/', ':', ';', '=', '@', '[', '\\', ']', '^', '|']

end Uri

end Playbook
