import Playbook.Text.Reader
import Playbook.Text.Radix
import Playbook.Token.Basic
import Playbook.Diagnostic

/-!
Block scalars: a header line and the lines below it that are indented far enough. A literal scalar
keeps its line breaks, a folded one joins neighbouring lines.
-/

namespace Playbook

/-- What becomes of the line breaks at the end of a block scalar: one is kept, all are, or none. -/
inductive Chomping
  | clip
  | keep
  | strip
  deriving Repr, DecidableEq, Inhabited

structure BlockHeader where
  chomping : Chomping
  /-- The indentation given in the header, relative to the enclosing block. -/
  indent : Option Nat
  deriving Repr, DecidableEq

def chompingSign? (c : Char) : Option Chomping :=
  if c == '+' then some .keep else if c == '-' then some .strip else none

/-- An indentation digit, if there is one. Zero is refused. -/
def headerIndent (start : Mark) (r : Reader) : Except Diagnostic (Option Nat × Reader) :=
  match digitIn? 10 r.peek with
  | none => .ok (none, r)
  | some 0 => .error (.within .tokens .blockScalar start .zeroIndent r.mark)
  | some n => .ok (some n, r.next)

/-- The two signs of a header, in either order. -/
def blockHeader (start : Mark) (r : Reader) : Except Diagnostic (BlockHeader × Reader) := do
  let (header, r) ←
    match chompingSign? r.peek with
    | some chomping => do
        let (indent, r) ← headerIndent start r.next
        pure (BlockHeader.mk chomping indent, r)
    | none => do
        let (indent, r) ← headerIndent start r
        match indent, chompingSign? r.peek with
        | some _, some chomping => pure (BlockHeader.mk chomping indent, r.next)
        | _, _ => pure (BlockHeader.mk .clip indent, r)
  if isSpaceOrEnd r.peek then return (header, r)
  else .error (.within .tokens .blockScalar start (.expectedBlockHeader r.peek) r.mark)

/-- The rest of the header line: spaces and a comment. -/
def headerLineEnd (start : Mark) (r : Reader) : Except Diagnostic Reader :=
  let r := (r.skipWhile (· == ' ')).skipComment
  match r.lineBreak? with
  | some (_, r) => .ok r
  | none =>
      if isBreakOrEnd r.peek then .ok r
      else .error (.within .tokens .blockScalar start (.expectedLineEnd r.peek) r.mark)

/-- Blank lines: their breaks, and the place behind the last of them. -/
structure BlankLines where
  breaks : List Char
  stop : Mark
  reader : Reader

/-- Spaces up to the column `indent`. -/
def skipIndent (indent : Nat) (r : Reader) : Reader :=
  r.advance (min (indent - r.mark.column) (r.rest.takeWhile (· == ' ')).length)

def blankLinesFor (indent : Nat) : Nat → BlankLines → BlankLines
  | 0, lines => lines
  | n + 1, lines =>
      match lines.reader.lineBreak? with
      | none => lines
      | some (c, r) =>
          blankLinesFor indent n ⟨lines.breaks ++ [c], r.mark, skipIndent indent r⟩

/-- Read blank lines before content that starts in column `indent`. -/
def blankLines (indent : Nat) (r : Reader) : BlankLines :=
  blankLinesFor indent (r.rest.length + 1) ⟨[], r.mark, skipIndent indent r⟩

def detectIndentFor : Nat → BlankLines → Nat → BlankLines × Nat
  | 0, lines, widest => (lines, widest)
  | n + 1, lines, widest =>
      let r := lines.reader
      if r.peek == ' ' then
        detectIndentFor n { lines with reader := r.next } (max widest r.next.mark.column)
      else
        match r.lineBreak? with
        | none => (lines, widest)
        | some (c, r) => detectIndentFor n ⟨lines.breaks ++ [c], r.mark, r⟩ widest

/-- Read blank lines of any width, and say how wide the widest run of spaces is. -/
def detectIndent (r : Reader) : BlankLines × Nat :=
  detectIndentFor (r.rest.length + 1) ⟨[], r.mark, r⟩ 0

/-- The lines of a block scalar read so far. -/
structure BlockRun where
  text : List Char
  /-- The break behind the last line read. -/
  lineBreak : Option Char
  /-- Blank lines since then. -/
  blank : BlankLines

def BlockRun.atLine (indent : Nat) (run : BlockRun) : Bool :=
  run.blank.reader.mark.column == indent && !run.blank.reader.atEnd

/-- Read one line and the blank lines below it. -/
def BlockRun.line (indent : Nat) (run : BlockRun) : BlockRun :=
  let r := run.blank.reader
  let content := r.rest.takeWhile (fun c => !isBreakOrEnd c)
  let r := r.advance content.length
  let (lineBreak, r) :=
    match r.lineBreak? with
    | some (c, r) => (some c, r)
    | none => (none, r)
  ⟨run.text ++ run.blank.breaks ++ content, lineBreak, blankLines indent r⟩

/-- What joins a line to the next one: its break, except that folding writes a single line feed
between two lines that do not start with a blank as a space, and leaves it out before blank lines.
-/
def BlockRun.joint (folded : Bool) (before after : BlockRun) : List Char :=
  if folded && after.lineBreak == some '\n' && !isBlank before.blank.reader.peek &&
      !isBlank after.blank.reader.peek then
    if after.blank.breaks.isEmpty then [' '] else []
  else after.lineBreak.toList

/-- Read lines as long as they are indented enough. Each takes a round; a round that cannot read
anything would be repeated for ever. -/
def blockLines (folded : Bool) (indent : Nat) (start : Mark) :
    Nat → BlockRun → Except Diagnostic BlockRun
  | fuel, run =>
      if !run.atLine indent then .ok run
      else
        match fuel with
        | 0 => .error (.within .tokens .blockScalar start .endless run.blank.reader.mark)
        | n + 1 =>
            let next := run.line indent
            if next.atLine indent then
              blockLines folded indent start n
                { next with text := next.text ++ run.joint folded next }
            else .ok next

/-- The text of a block scalar once its last line is read. -/
def BlockRun.chomp (chomping : Chomping) (run : BlockRun) : List Char :=
  match chomping with
  | .strip => run.text
  | .clip => run.text ++ run.lineBreak.toList
  | .keep => run.text ++ run.lineBreak.toList ++ run.blank.breaks

/-- Read a block scalar inside a block indented by `outer`; the reader stands at its sign. -/
def readBlockScalar (folded : Bool) (outer : Int) (r : Reader) :
    Except Diagnostic (Token × Reader) := do
  let start := r.mark
  let (header, r) ← blockHeader start r.next
  let r ← headerLineEnd start r
  let least := (max (outer + 1) 1).toNat
  let (blank, indent) :=
    match header.indent with
    | some n => (blankLines (least + n - 1) r, least + n - 1)
    | none =>
        let (blank, widest) := detectIndent r
        (blank, max least widest)
  let run ← blockLines folded indent start r.rest.length ⟨[], none, blank⟩
  let style := if folded then Style.folded else Style.literal
  return (⟨.scalar (String.ofList (run.chomp header.chomping)) style, start, run.blank.stop⟩,
    run.blank.reader)

end Playbook
