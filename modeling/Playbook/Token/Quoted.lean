import Playbook.Text.Reader
import Playbook.Text.Radix
import Playbook.Token.Basic
import Playbook.Diagnostic

/-!
Quoted scalars. In single quotes only the quote itself is special, and is written twice; double
quotes know escapes. Line breaks inside either kind fold.
-/

namespace Playbook

/-- The character that a one-letter escape stands for. -/
def escapedChar? (c : Char) : Option Char :=
  match c with
  | '0' => some nul
  | 'a' => some '\x07'
  | 'b' => some '\x08'
  | 't' => some '\t'
  | '\t' => some '\t'
  | 'n' => some '\n'
  | 'v' => some '\x0b'
  | 'f' => some '\x0c'
  | 'r' => some '\r'
  | 'e' => some '\x1b'
  | ' ' => some ' '
  | '"' => some '"'
  | '/' => some '/'
  | '\\' => some '\\'
  | 'N' => some '\u0085'
  | '_' => some '\u00a0'
  | 'L' => some '\u2028'
  | 'P' => some '\u2029'
  | _ => none

/-- How many characters make up the code of an escape by number. -/
def escapeDigits? (c : Char) : Option Nat :=
  match c with
  | 'x' => some 2
  | 'u' => some 4
  | 'U' => some 8
  | _ => none

/-- The character with the code that the first `digits` characters write in base sixteen. -/
def charOfCode? (digits : Nat) (text : List Char) : Option Char :=
  let code := text.take digits
  if code.length == digits then (readNat? 16 code).bind scalarValue? else none

/-- Line breaks after the first one, with the blanks at either end of each line dropped. A document
separator must not stand inside a scalar. -/
def quotedBreaks (start : Mark) : Nat → Reader → List Char → Except Diagnostic (List Char × Reader)
  | 0, r, _ => .error (.within .tokens .quoted start .endless r.mark)
  | n + 1, r, breaks =>
      if r.atSeparator then .error (.within .tokens .quoted start .unexpectedSeparator r.mark)
      else
        let r := r.skipWhile isBlank
        match r.lineBreak? with
        | none => .ok (breaks, r)
        | some (c, r) => quotedBreaks start n r (breaks ++ [c])

/-- Blanks and line breaks inside quotes: blanks within a line are kept, breaks fold. -/
def quotedGap (start : Mark) (r : Reader) : Except Diagnostic (List Char × Reader) :=
  let blanks := r.rest.takeWhile isBlank
  let r := r.advance blanks.length
  if r.atEnd then .error (.within .tokens .quoted start .unexpectedEnd r.mark)
  else
    match r.lineBreak? with
    | none => .ok (blanks, r)
    | some (first, r) => do
        let (more, r) ← quotedBreaks start (r.rest.length + 1) r []
        return (foldBreaks first more, r)

/-- What a backslash in double quotes contributes; `r` stands behind it. -/
def quotedEscape (start : Mark) (r : Reader) : Except Diagnostic (List Char × Reader) :=
  match escapedChar? r.peek, escapeDigits? r.peek with
  | some c, _ => .ok ([c], r.next)
  | none, some digits =>
      match charOfCode? digits r.next.rest with
      | some c => .ok ([c], r.next.advance digits)
      | none =>
          .error (.within .tokens .doubleQuoted start (.badEscapeCode digits r.next.peek)
            r.next.mark)
  | none, none =>
      match r.lineBreak? with
      | some (_, r) => quotedBreaks start (r.rest.length + 1) r []
      | none =>
          .error (.within .tokens .doubleQuoted start (.unknownEscape r.peek) r.mark)

/-- One piece of the text between the quotes, or nothing at the closing quote. -/
def quotedPiece (double : Bool) (start : Mark) (r : Reader) :
    Except Diagnostic (Option (List Char × Reader)) :=
  let c := r.peek
  if c == '\'' && !double then
    if r.peekAt 1 == '\'' then .ok (some (['\''], r.advance 2)) else .ok none
  else if c == '"' && double then .ok none
  else if c == '\\' && double then some <$> quotedEscape start r.next
  else if isBlankOrEnd c then some <$> quotedGap start r
  else .ok (some ([c], r.next))

/-- Read up to the closing quote. `text` holds what was read, last character first. -/
def quotedText (double : Bool) (start : Mark) :
    Nat → Reader → List Char → Except Diagnostic (List Char × Reader)
  | 0, r, _ => .error (.within .tokens .quoted start .endless r.mark)
  | n + 1, r, text =>
      match quotedPiece double start r with
      | .error d => .error d
      | .ok none => .ok (text.reverse, r.next)
      | .ok (some (piece, r)) => quotedText double start n r (piece.reverse ++ text)

/-- Read a quoted scalar; the reader stands at its opening quote. -/
def readQuoted (double : Bool) (r : Reader) : Except Diagnostic (Token × Reader) := do
  let (text, stop) ← quotedText double r.mark (r.rest.length + 1) r.next []
  let style := if double then Style.double else Style.single
  return (⟨.scalar (String.ofList text) style, r.mark, stop.mark⟩, stop)

end Playbook
