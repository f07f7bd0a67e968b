import Playbook.Text.Radix
import Playbook.Event.Basic
import Playbook.Tag
import Playbook.Token.Stream

/-!
From tokens to events, by a machine with a stack. `EventStream.state` says what is expected next,
and `EventStream.pending` what is expected after the node that is being read. Each step yields one
event.
-/

namespace Playbook

/-- What the machine expects next. -/
inductive Expect
  | streamStart
  | implicitDocumentStart
  | documentStart
  | documentContent
  | documentEnd
  | blockNode
  | blockSequenceFirst
  | blockSequenceEntry
  | indentlessEntry
  | blockMappingFirst
  | blockMappingKey
  | blockMappingValue
  | flowSequenceFirst
  | flowSequenceEntry
  | pairKey
  | pairValue
  | pairEnd
  | flowMappingFirst
  | flowMappingKey
  | flowMappingValue
  | flowMappingNoValue
  deriving Repr, DecidableEq, Inhabited

/-- Tag handles and what they stand for. -/
abbrev TagHandles := List (String × String)

def TagHandles.default : TagHandles := [("!", "!"), ("!!", Tag.coreBase)]

structure EventStream where
  tokens : Feed Token
  /-- Nothing is expected behind the end of the stream. -/
  state : Option Expect
  pending : List Expect
  /-- The starts of the open collections, innermost first. -/
  openMarks : List Mark
  handles : TagHandles
  /-- An event that was looked at and not yet handed out. -/
  ready : Option Event
  deriving Repr, DecidableEq

namespace EventStream

def start (tokens : Feed Token) : EventStream where
  tokens := tokens
  state := some .streamStart
  pending := []
  openMarks := []
  handles := .default
  ready := none

/-- A step of the machine: an event and what comes after it. -/
abbrev Step := Except Diagnostic (Event × EventStream)

def token (s : EventStream) : Except Diagnostic Token :=
  match s.tokens.items, s.tokens.fault with
  | token :: _, _ => .ok token
  | [], some d => .error d
  | [], none => .error (.plain .events .tokensExhausted .origin)

def kind (s : EventStream) : Except Diagnostic TokenKind :=
  Token.kind <$> s.token

/-- Drop the token that `token` shows. -/
def skip (s : EventStream) : EventStream :=
  { s with tokens := { s.tokens with items := s.tokens.items.tail } }

def expect (s : EventStream) (state : Expect) : EventStream :=
  { s with state := some state }

def push (s : EventStream) (state : Expect) : EventStream :=
  { s with pending := state :: s.pending }

/-- A node is complete: go on with what was put off for it. -/
def pop (s : EventStream) : EventStream :=
  { s with state := s.pending.head?, pending := s.pending.tail }

def openAt (s : EventStream) (mark : Mark) : EventStream :=
  { s with openMarks := mark :: s.openMarks }

/-- A collection is complete. -/
def close (s : EventStream) : EventStream :=
  { s.pop with openMarks := s.openMarks.tail }

/-- A token that the innermost open collection does not admit. -/
def unexpected (s : EventStream) (context : Activity) (problem : Problem) (mark : Mark) :
    Diagnostic :=
  match s.openMarks.head? with
  | some opened => .within .events context opened problem mark
  | none => .plain .events problem mark

/-- Anchor and tag before a node, as far as they are read. -/
structure PropertyRun where
  anchor : Option String
  tag : Option (Option String × String)
  tagMark : Mark
  start : Option Mark
  stop : Option Mark

/-- Read one property, if there is one that was not given yet. -/
def property (run : PropertyRun) (s : EventStream) :
    Except Diagnostic (PropertyRun × EventStream) := do
  let token ← s.token
  let start := some (run.start.getD token.start)
  match token.kind, run.anchor, run.tag with
  | .anchor name, none, _ =>
      return ({ run with anchor := some name, start, stop := some token.stop }, s.skip)
  | .tag handle suffix, _, none =>
      return ({ run with
        tag := some (handle, suffix), tagMark := token.start, start, stop := some token.stop },
        s.skip)
  | _, _, _ => return (run, s)

/-- The full form of a tag. -/
def resolveTag (s : EventStream) (run : PropertyRun) : Except Diagnostic (Option String) :=
  match run.tag with
  | none => .ok none
  | some (none, suffix) => .ok (some suffix)
  | some (some handle, suffix) =>
      match s.handles.lookup handle with
      | some expansion => .ok (some (expansion ++ suffix))
      | none =>
          .error ⟨.events, run.start.map fun _ => .node, run.start, .undefinedHandle handle,
            run.tagMark⟩

/-- Read a node that is no alias. Only in a block may it be a block collection, and only below a key
a list that is not indented. -/
def content (s : EventStream) (block indentless : Bool) : Step := do
  let (run, s) ← property ⟨none, none, .origin, none, none⟩ s
  let (run, s) ← property run s
  let tag ← s.resolveTag run
  let props : Properties := ⟨run.anchor, tag⟩
  let token ← s.token
  let start := run.start.getD token.start
  match token.kind with
  | .scalar text style =>
      let implicit := (style == .plain && tag.isNone) || tag == some "!"
      return (⟨.scalar props implicit text style, start, token.stop⟩, s.skip.pop)
  | .flowSequenceStart =>
      return (⟨.sequenceStart props true, start, token.stop⟩, s.expect .flowSequenceFirst)
  | .flowMappingStart =>
      return (⟨.mappingStart props true, start, token.stop⟩, s.expect .flowMappingFirst)
  | kind =>
      if kind == .blockEntry && indentless then
        return (⟨.sequenceStart props false, start, token.stop⟩, s.expect .indentlessEntry)
      else if kind == .blockSequenceStart && block then
        return (⟨.sequenceStart props false, start, token.start⟩, s.expect .blockSequenceFirst)
      else if kind == .blockMappingStart && block then
        return (⟨.mappingStart props false, start, token.start⟩, s.expect .blockMappingFirst)
      else if run.anchor.isSome || tag.isSome then
        let implicit := tag.isNone || tag == some "!"
        return (⟨.scalar props implicit "" .plain, start, run.stop.getD token.start⟩, s.pop)
      else
        let context := if block then Activity.blockNode else Activity.flowNode
        .error (.within .events context start (.expectedNode kind.label) token.start)

/-- Read a node. -/
def node (s : EventStream) (block indentless : Bool) : Step := do
  match ← s.token with
  | ⟨.aliasOf name, start, stop⟩ => return (⟨.aliasOf name, start, stop⟩, s.skip.pop)
  | _ => s.content block indentless

/-- Read a node behind `token` and then expect `after`, unless one of the tokens in `stops` comes
first: then the node is left out. -/
def nodeUnless (s : EventStream) (token : Token) (stops : List TokenKind) (after : Expect)
    (block indentless : Bool) : Step := do
  if stops.contains (← s.kind) then return (.empty token.stop, s.expect after)
  else (s.push after).node block indentless

def streamStep (s : EventStream) : Step := do
  let token ← s.token
  return (⟨.streamStart, token.start, token.stop⟩, s.skip.expect .implicitDocumentStart)

def isDirective : TokenKind → Bool
  | .directive .. => true
  | _ => false

/-- The directives before a document. -/
structure DirectiveRun where
  versionSeen : Bool
  handles : TagHandles

/-- A version is written as a number, optionally followed by a point and anything. -/
def majorVersion? (params : List String) : Option Nat :=
  params.head?.bind fun version => readNat? 10 (version.toList.takeWhile (· != '.'))

/-- Take in one directive. Directives other than the two known ones are passed over. -/
def directive (run : DirectiveRun) (token : Token) : Except Diagnostic DirectiveRun :=
  match token.kind with
  | .directive "YAML" params =>
      if run.versionSeen then .error (.plain .events .duplicateVersion token.start)
      else if majorVersion? params == some 1 then .ok { run with versionSeen := true }
      else .error (.plain .events .incompatibleVersion token.start)
  | .directive "TAG" [handle, expansion] =>
      if (run.handles.lookup handle).isSome then
        .error (.plain .events (.duplicateHandle handle) token.start)
      else .ok { run with handles := run.handles ++ [(handle, expansion)] }
  | .directive "TAG" _ => .error (.plain .events .badTagDirective token.start)
  | _ => .ok run

/-- Read the directives before a document. A handle keeps its usual meaning unless one of them gives
it another. -/
def directives (s : EventStream) : Except Diagnostic EventStream := do
  let (lines, items) := s.tokens.items.span (isDirective ·.kind)
  let run ← lines.foldlM directive ⟨false, []⟩
  return { s with
    tokens := { s.tokens with items }, handles := run.handles ++ TagHandles.default }

def skipDocumentEnds (s : EventStream) : EventStream :=
  { s with
    tokens := { s.tokens with items := s.tokens.items.dropWhile (·.kind == .documentEnd) } }

def explicitDocumentStep (s : EventStream) : Step := do
  let s := s.skipDocumentEnds
  let first ← s.token
  if first.kind == .streamEnd then
    return (⟨.streamEnd, first.start, first.stop⟩, { s.skip with state := none })
  else
    let s ← s.directives
    let token ← s.token
    if token.kind == .documentStart then
      return (⟨.documentStart true, first.start, token.stop⟩,
        (s.skip.push .documentEnd).expect .documentContent)
    else .error (.plain .events (.expectedDocumentStart token.kind.label) token.start)

def implicitDocumentStep (s : EventStream) : Step := do
  let token ← s.token
  if isDirective token.kind || token.kind == .documentStart || token.kind == .streamEnd then
    s.explicitDocumentStep
  else
    return (⟨.documentStart false, token.start, token.start⟩,
      { (s.push .documentEnd).expect .blockNode with handles := .default })

def documentEndStep (s : EventStream) : Step := do
  let token ← s.token
  if token.kind == .documentEnd then
    return (⟨.documentEnd, token.start, token.stop⟩, s.skip.expect .documentStart)
  else return (⟨.documentEnd, token.start, token.start⟩, s.expect .documentStart)

def documentContentStep (s : EventStream) : Step := do
  let token ← s.token
  if isDirective token.kind || token.kind == .documentStart || token.kind == .documentEnd ||
      token.kind == .streamEnd then
    return (.empty token.start, s.pop)
  else s.node true false

def blockSequenceStep (s : EventStream) : Step := do
  let token ← s.token
  if token.kind == .blockEntry then
    s.skip.nodeUnless token [.blockEntry, .blockEnd] .blockSequenceEntry true false
  else if token.kind == .blockEnd then
    return (⟨.sequenceEnd, token.start, token.stop⟩, s.skip.close)
  else
    .error (s.unexpected .blockCollection (.expectedBlockEnd token.kind.label) token.start)

def indentlessStep (s : EventStream) : Step := do
  let token ← s.token
  if token.kind == .blockEntry then
    s.skip.nodeUnless token [.blockEntry, .key, .value, .blockEnd] .indentlessEntry true false
  else return (⟨.sequenceEnd, token.start, token.start⟩, s.pop)

def blockKeyStep (s : EventStream) : Step := do
  let token ← s.token
  if token.kind == .key then
    s.skip.nodeUnless token [.key, .value, .blockEnd] .blockMappingValue true true
  else if token.kind == .blockEnd then
    return (⟨.mappingEnd, token.start, token.stop⟩, s.skip.close)
  else
    .error (s.unexpected .blockMapping (.expectedBlockEnd token.kind.label) token.start)

def blockValueStep (s : EventStream) : Step := do
  let token ← s.token
  if token.kind == .value then
    s.skip.nodeUnless token [.key, .value, .blockEnd] .blockMappingKey true true
  else return (.empty token.start, s.expect .blockMappingKey)

/-- Read the comma before a flow entry; the first entry has none. -/
def flowComma (s : EventStream) (first : Bool) (context : Activity) (problem : String → Problem) :
    Except Diagnostic EventStream := do
  let token ← s.token
  if first then return s
  else if token.kind == .flowEntry then return s.skip
  else .error (s.unexpected context (problem token.kind.label) token.start)

def flowSequenceEnd (s : EventStream) : Step := do
  let token ← s.token
  return (⟨.sequenceEnd, token.start, token.stop⟩, s.skip.close)

def flowMappingEnd (s : EventStream) : Step := do
  let token ← s.token
  return (⟨.mappingEnd, token.start, token.stop⟩, s.skip.close)

/-- An entry of a flow sequence; a key makes a mapping with one pair of it. -/
def flowSequenceStep (s : EventStream) (first : Bool) : Step := do
  if (← s.kind) == .flowSequenceEnd then s.flowSequenceEnd
  else
    let s ← s.flowComma first .flowSequence .expectedSequenceEnd
    let token ← s.token
    if token.kind == .key then
      return (⟨.mappingStart .none true, token.start, token.stop⟩, s.expect .pairKey)
    else if token.kind == .flowSequenceEnd then s.flowSequenceEnd
    else (s.push .flowSequenceEntry).node false false

def pairKeyStep (s : EventStream) : Step := do
  let token ← s.token
  s.skip.nodeUnless token [.value, .flowEntry, .flowSequenceEnd] .pairValue false false

def pairValueStep (s : EventStream) : Step := do
  let token ← s.token
  if token.kind == .value then
    s.skip.nodeUnless token [.flowEntry, .flowSequenceEnd] .pairEnd false false
  else return (.empty token.start, s.expect .pairEnd)

def pairEndStep (s : EventStream) : Step := do
  let token ← s.token
  return (⟨.mappingEnd, token.start, token.start⟩, s.expect .flowSequenceEntry)

/-- A key of a flow mapping; a node without a key sign is a key without a value. -/
def flowKeyStep (s : EventStream) (first : Bool) : Step := do
  if (← s.kind) == .flowMappingEnd then s.flowMappingEnd
  else
    let s ← s.flowComma first .flowMapping .expectedMappingEnd
    let token ← s.token
    if token.kind == .key then
      s.skip.nodeUnless token [.value, .flowEntry, .flowMappingEnd] .flowMappingValue false false
    else if token.kind == .flowMappingEnd then s.flowMappingEnd
    else (s.push .flowMappingNoValue).node false false

def flowValueStep (s : EventStream) : Step := do
  let token ← s.token
  if token.kind == .value then
    s.skip.nodeUnless token [.flowEntry, .flowMappingEnd] .flowMappingKey false false
  else return (.empty token.start, s.expect .flowMappingKey)

def flowNoValueStep (s : EventStream) : Step := do
  let token ← s.token
  return (.empty token.start, s.expect .flowMappingKey)

/-- Read the token that opens a collection and note where it stands. -/
def opened (s : EventStream) : Except Diagnostic EventStream := do
  let token ← s.token
  return s.skip.openAt token.start

def step (s : EventStream) : Expect → Step
  | .streamStart => s.streamStep
  | .implicitDocumentStart => s.implicitDocumentStep
  | .documentStart => s.explicitDocumentStep
  | .documentContent => s.documentContentStep
  | .documentEnd => s.documentEndStep
  | .blockNode => s.node true false
  | .blockSequenceFirst => s.opened >>= blockSequenceStep
  | .blockSequenceEntry => s.blockSequenceStep
  | .indentlessEntry => s.indentlessStep
  | .blockMappingFirst => s.opened >>= blockKeyStep
  | .blockMappingKey => s.blockKeyStep
  | .blockMappingValue => s.blockValueStep
  | .flowSequenceFirst => s.opened >>= (flowSequenceStep · true)
  | .flowSequenceEntry => s.flowSequenceStep false
  | .pairKey => s.pairKeyStep
  | .pairValue => s.pairValueStep
  | .pairEnd => s.pairEndStep
  | .flowMappingFirst => s.opened >>= (flowKeyStep · true)
  | .flowMappingKey => s.flowKeyStep false
  | .flowMappingValue => s.flowValueStep
  | .flowMappingNoValue => s.flowNoValueStep

/-- The next event, or none behind the last. -/
def peek (s : EventStream) : Except Diagnostic (Option Event × EventStream) :=
  match s.ready, s.state with
  | some event, _ => .ok (some event, s)
  | none, none => .ok (none, s)
  | none, some state => do
      let (event, s) ← s.step state
      return (some event, { s with ready := some event })

/-- Hand out the next event, or none behind the last. -/
def next (s : EventStream) : Except Diagnostic (Option Event × EventStream) := do
  let (event, s) ← s.peek
  return (event, { s with ready := none })

def collect : Nat → EventStream → Feed Event
  | 0, _ => ⟨[], some (.plain .events .endless .origin)⟩
  | n + 1, s =>
      match s.next with
      | .error d => ⟨[], some d⟩
      | .ok (none, _) => ⟨[], none⟩
      | .ok (some event, s) => (collect n s).cons event

end EventStream

/-- All events of a sequence of tokens. A token yields at most four of them: a key in a flow
sequence may stand for a mapping of two empty scalars. -/
def Event.ofTokens (tokens : Feed Token) : Feed Event :=
  (EventStream.start tokens).collect (4 * tokens.items.length + 8)

def Event.ofText (text : List Char) : Feed Event :=
  Event.ofTokens (Token.ofText text)

end Playbook
