import Playbook.Text.Reader
import Playbook.Token.Basic
import Playbook.Diagnostic

/-!
What stands before a node or in its place: anchors, aliases and tags; and the directives before a
document.
-/

namespace Playbook

/-- Signs that may stand directly behind a name. -/
def endsName (c : Char) : Bool :=
  isBlankOrEnd c || ['?', ':', ',', ']', '}', '%', '@', '\x60'].contains c

/-- Read the name of an anchor or an alias; the reader stands at its sign. -/
def readName (context : Activity) (kind : String → TokenKind) (r : Reader) :
    Except Diagnostic (Token × Reader) :=
  let name := r.next.rest.takeWhile isWord
  let stop := r.next.advance name.length
  let c := stop.peek
  if name.isEmpty || !endsName c then
    .error (.within .tokens context r.mark (.expectedWord c) stop.mark)
  else .ok (⟨kind (String.ofList name), r.mark, stop.mark⟩, stop)

def readAnchor (r : Reader) : Except Diagnostic (Token × Reader) :=
  readName .anchorName .anchor r

def readAlias (r : Reader) : Except Diagnostic (Token × Reader) :=
  readName .aliasName .aliasOf r

/-- The part of a tag after its handle. -/
def tagUri (start : Mark) (r : Reader) : Except Diagnostic (String × Reader) :=
  let uri := r.rest.takeWhile isUri
  if uri.isEmpty then .error (.within .tokens .tagUri start (.expectedUri r.peek) r.mark)
  else .ok (String.ofList uri, r.advance uri.length)

/-- A handle between two exclamation marks; the reader stands at the first. -/
def tagHandle (start : Mark) (r : Reader) : Except Diagnostic (String × Reader) :=
  let name := r.next.rest.takeWhile isWord
  let stop := r.next.advance name.length
  if stop.peek == '!' then .ok (String.ofList ('!' :: name ++ ['!']), stop.next)
  else .error (.within .tokens .tag start (.expectedBang stop.peek) stop.mark)

/-- Handle and suffix of a tag: verbatim in angle brackets, a lone exclamation mark, or a handle
followed by a suffix. A second exclamation mark before the next space makes a handle of what stands
before it. -/
def tagParts (r : Reader) : Except Diagnostic (Option String × String × Reader) :=
  let c := r.peekAt 1
  if c == '<' then do
    let (uri, r') ← tagUri r.mark (r.advance 2)
    if r'.peek == '>' then return (none, uri, r'.next)
    else .error (.within .tokens .tagUri r.mark (.expectedAngle r'.peek) r'.mark)
  else if isBlankOrEnd c then .ok (none, "!", r.next)
  else if (r.next.rest.takeWhile (fun c => !isSpaceOrEnd c)).contains '!' then do
    let (handle, r') ← tagHandle r.mark r
    let (uri, r') ← tagUri r.mark r'
    return (some handle, uri, r')
  else do
    let (uri, r') ← tagUri r.mark r.next
    return (some "!", uri, r')

def readTag (r : Reader) : Except Diagnostic (Token × Reader) := do
  let (handle, suffix, stop) ← tagParts r
  if isSpaceOrEnd stop.peek then return (⟨.tag handle suffix, r.mark, stop.mark⟩, stop)
  else .error (.within .tokens .tag r.mark (.expectedSpace stop.peek) stop.mark)

/-- Words up to a comment or the end of the line. -/
def directiveParams : Nat → Reader → List String → List String × Reader
  | 0, r, params => (params, r)
  | n + 1, r, params =>
      let r := r.skipWhile isBlank
      if r.peek == '#' || isBreakOrEnd r.peek then (params, r)
      else
        let word := r.rest.takeWhile (fun c => !isBlankOrEnd c)
        directiveParams n (r.advance word.length) (params ++ [String.ofList word])

/-- Read a directive line; the reader stands at its percent sign. -/
def readDirective (r : Reader) : Except Diagnostic (Token × Reader) :=
  let name := r.next.rest.takeWhile isWord
  let r' := r.next.advance name.length
  if name.isEmpty || !isBlankOrEnd r'.peek then
    .error (.within .tokens .directive r.mark (.expectedWord r'.peek) r'.mark)
  else
    let (params, r') := directiveParams (r'.rest.length + 1) r' []
    let token := ⟨.directive (String.ofList name) params, r.mark, r'.mark⟩
    let r' := r'.skipComment
    match r'.lineBreak? with
    | some (_, r') => .ok (token, r')
    | none => .ok (token, r')

end Playbook
