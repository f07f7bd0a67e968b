import Playbook.Text.Reader
import Playbook.Token.Basic

/-!
Plain scalars: text without quotes. A plain scalar may run over several lines; the white space
between two of its pieces is folded by `plainGap`.
-/

namespace Playbook

/-- Where a piece of a plain scalar ends: at a blank, at a colon that a blank follows, and inside
brackets also at their signs and at a question mark. -/
def plainStops (inFlow : Bool) (c next : Char) : Bool :=
  isBlankOrEnd c ||
    (c == ':' && (isBlankOrEnd next || (inFlow && isFlowIndicator next))) ||
    (inFlow && (c == '?' || isFlowIndicator c))

/-- The longest piece of a plain scalar at the head of a text. -/
def plainPiece (inFlow : Bool) : List Char → List Char
  | [] => []
  | c :: rest => if plainStops inFlow c (rest.headD nul) then [] else c :: plainPiece inFlow rest

/-- Read further breaks and the spaces around them. A document separator cuts the gap short and
leaves no text of it. -/
def plainBreaks : Nat → Reader → List Char → Option (List Char) × Reader
  | 0, r, breaks => (some breaks, r)
  | n + 1, r, breaks =>
      let r := r.skipWhile (· == ' ')
      match r.lineBreak? with
      | none => (some breaks, r)
      | some (c, r) => if r.atSeparator then (none, r) else plainBreaks n r (breaks ++ [c])

/-- The white space after a piece of a plain scalar. -/
structure PlainGap where
  /-- What the gap contributes between two pieces, or nothing if a document ends here. -/
  text : Option (List Char)
  reader : Reader
  /-- Whether the gap holds a line break. -/
  crossed : Bool

def plainGap (r : Reader) : PlainGap :=
  let spaces := r.rest.takeWhile (· == ' ')
  let r := r.advance spaces.length
  match r.lineBreak? with
  | none => ⟨some spaces, r, false⟩
  | some (first, r) =>
      if r.atSeparator then ⟨none, r, true⟩
      else
        let (more, r) := plainBreaks (r.rest.length + 1) r []
        ⟨more.map (foldBreaks first), r, true⟩

/-- A plain scalar read so far. -/
structure PlainRun where
  text : List Char
  stop : Mark
  reader : Reader
  /-- Whether the reader has crossed a line break since the last piece. -/
  crossed : Bool

/-- Read pieces and gaps. `gap` is the white space that joins the next piece to the text. -/
def plainRun (inFlow : Bool) (indent : Int) : Nat → PlainRun → List Char → PlainRun
  | 0, run, _ => run
  | n + 1, run, gap =>
      let piece := plainPiece inFlow run.reader.rest
      if run.reader.peek == '#' || piece.isEmpty then run
      else
        let reader := run.reader.advance piece.length
        let next := plainGap reader
        let run := ⟨run.text ++ gap ++ piece, reader.mark, next.reader, next.crossed⟩
        match next.text with
        | none => run
        | some gap =>
            if gap.isEmpty || next.reader.peek == '#' ||
                (!inFlow && (next.reader.mark.column : Int) < indent) then run
            else plainRun inFlow indent n run gap

/-- Read a plain scalar in a block indented by `indent`. The second part says whether the reader has
come to a new line. -/
def readPlain (inFlow : Bool) (indent : Int) (r : Reader) : Token × Reader × Bool :=
  let run := plainRun inFlow (indent + 1) (r.rest.length + 1) ⟨[], r.mark, r, false⟩ []
  (⟨.scalar (String.ofList run.text) .plain, r.mark, run.stop⟩, run.reader, run.crossed)

end Playbook
