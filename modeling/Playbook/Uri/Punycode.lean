/-!
Spelling a word in ASCII. The characters beyond ASCII are left out, and a list of numbers behind the
rest says which they are and where they belong: in the order of their codes, each number counts the
steps from one insertion to the next.
-/

namespace Playbook

namespace Punycode

/-- The digits from zero to thirty-five. -/
def digit (n : Nat) : Char :=
  if n < 26 then Char.ofNat ('a'.toNat + n) else Char.ofNat ('0'.toNat + (n - 26))

/-- What the digit at a position has to reach for another one to follow. -/
def threshold (bias position : Nat) : Nat := min 26 (max 1 (position - bias))

/-- The digits of a number, the lowest first. -/
def digits (bias : Nat) : Nat → Nat → Nat → List Char
  | 0, _, n => [digit n]
  | fuel + 1, position, n =>
      let t := threshold bias position
      if n < t then [digit n]
      else digit (t + (n - t) % (36 - t)) :: digits bias fuel (position + 36) ((n - t) / (36 - t))

def reduce : Nat → Nat → Nat → Nat
  | 0, k, _ => k
  | fuel + 1, k, delta =>
      if delta > 455 then reduce fuel (k + 36) (delta / 35) else k + 36 * delta / (delta + 38)

/-- The bias after a number, from which the next one starts. -/
def adapt (delta points : Nat) (first : Bool) : Nat :=
  let delta := if first then delta / 700 else delta / 2
  reduce delta 0 (delta + delta / points)

structure State where
  /-- Steps since the last insertion. -/
  delta : Nat
  bias : Nat
  /-- Characters that are placed. -/
  placed : Nat
  output : List Char

/-- Pass a character of the word while those with the given code are inserted. -/
def visit (basic code : Nat) (s : State) (c : Char) : State :=
  if c.toNat < code then { s with delta := s.delta + 1 }
  else if c.toNat == code then
    ⟨0, adapt s.delta (s.placed + 1) (s.placed == basic), s.placed + 1,
      s.output ++ digits s.bias s.delta 36 s.delta⟩
  else s

/-- Insert the characters with the given codes, which rise from `next`. -/
def insertAll (word : List Char) (basic : Nat) : List Nat → Nat → State → List Char
  | [], _, s => s.output
  | code :: codes, next, s =>
      let s := { s with delta := s.delta + (code - next) * (s.placed + 1) }
      let s := word.foldl (visit basic code) s
      insertAll word basic codes (code + 1) { s with delta := s.delta + 1 }

/-- A word without the characters beyond ASCII, and what they are. -/
def encode (word : List Char) : List Char :=
  let basic := word.filter (·.toNat < 0x80)
  let codes := ((word.map Char.toNat).filter (0x80 ≤ ·)).mergeSort.eraseDups
  let start := if basic.isEmpty then [] else basic ++ ['-']
  insertAll word basic.length codes 0x80 ⟨0, 72, basic.length, start⟩

end Punycode

end Playbook
