import Playbook.Text.Mark
import Playbook.Text.CharClass

/-!
A reader is a place in a text: what is still to be read, and the mark of the next character.
-/

namespace Playbook

/-- Whether reading `c`, with `rest` after it, ends a line. A carriage return before a line feed
does not: the line feed will. -/
def endsLine (c : Char) (rest : List Char) : Bool :=
  c == '\n' || c == '\u0085' || c == '\u2028' || c == '\u2029' ||
    (c == '\r' && rest.head? != some '\n')

/-- The mark after reading `c`, with `rest` still to come. A byte order mark takes no column. -/
def Mark.past (m : Mark) (c : Char) (rest : List Char) : Mark :=
  if endsLine c rest then ⟨m.index + 1, m.line + 1, 0⟩
  else if c == '\ufeff' then ⟨m.index + 1, m.line, m.column⟩
  else ⟨m.index + 1, m.line, m.column + 1⟩

/-- Line breaks fold into one space; all further breaks are kept, and so is a first break that is
not a line feed. -/
def foldBreaks (first : Char) (more : List Char) : List Char :=
  if first != '\n' then first :: more
  else if more.isEmpty then [' ']
  else more

structure Reader where
  rest : List Char
  mark : Mark
  deriving Repr, DecidableEq, Inhabited

namespace Reader

def start (text : List Char) : Reader := ⟨text, .origin⟩

def atEnd (r : Reader) : Bool := r.rest.isEmpty

/-- The next character, NUL at the end. -/
def peek (r : Reader) : Char := r.rest.headD nul

/-- The character `n` places ahead, NUL past the end. -/
def peekAt (r : Reader) (n : Nat) : Char := r.rest.getD n nul

def next (r : Reader) : Reader :=
  match r.rest with
  | [] => r
  | c :: rest => ⟨rest, r.mark.past c rest⟩

/-- Read `n` characters, or all that are left. -/
def advance : Nat → Reader → Reader
  | 0, r => r
  | n + 1, r => advance n r.next

def skipWhile (p : Char → Bool) (r : Reader) : Reader :=
  r.advance (r.rest.takeWhile p).length

def startsWith (r : Reader) (word : List Char) : Bool :=
  word.isPrefixOf r.rest

/-- Read one line break. Carriage return, next line and the pair of carriage return and line feed
count as a line feed; the two separators stand for themselves. -/
def lineBreak? (r : Reader) : Option (Char × Reader) :=
  if r.startsWith ['\r', '\n'] then some ('\n', r.advance 2)
  else if r.peek == '\r' || r.peek == '\n' || r.peek == '\u0085' then some ('\n', r.next)
  else if r.peek == '\u2028' || r.peek == '\u2029' then some (r.peek, r.next)
  else none

/-- Three dashes or three dots, alone up to the next blank, divide documents. -/
def atSeparator (r : Reader) : Bool :=
  (r.startsWith ['-', '-', '-'] || r.startsWith ['.', '.', '.']) && isBlankOrEnd (r.peekAt 3)

/-- A comment runs to the end of its line. -/
def skipComment (r : Reader) : Reader :=
  if r.peek == '#' then r.skipWhile (fun c => !isBreakOrEnd c) else r

def skipTriviaFor : Nat → Reader → Bool → Reader × Bool
  | 0, r, crossed => (r, crossed)
  | n + 1, r, crossed =>
      let r := (r.skipWhile (· == ' ')).skipComment
      match r.lineBreak? with
      | some (_, r) => skipTriviaFor n r true
      | none => (r, crossed)

/-- Skip spaces, comments and line breaks, and say whether a line break was among them. -/
def skipTrivia (r : Reader) : Reader × Bool :=
  skipTriviaFor (r.rest.length + 1) r false

end Reader

end Playbook
