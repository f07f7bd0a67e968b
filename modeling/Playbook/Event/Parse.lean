import Playbook.Event.Stream
import Playbook.Token.Scan

/-!
The event machine as it stays in use, on top of the token stream that does. `EventStream` steps
through tokens that have all been read; a parser asks for each of them, and what a step did before
it failed, to the tokens as well as to the machine, stays done.
-/

namespace Playbook

structure Parser where
  tokens : TokenStream
  /-- Nothing is expected behind the end of the stream. -/
  state : Option Expect
  pending : List Expect
  /-- The starts of the open collections, innermost first. -/
  openMarks : List Mark
  handles : TagHandles
  /-- An event that was looked at and not yet handed out. -/
  ready : Option Event
  deriving Repr, DecidableEq

def Parser.start (text : List Char) : Parser where
  tokens := .start text
  state := some .streamStart
  pending := []
  openMarks := []
  handles := .default
  ready := none

/-- A step of a parser. -/
abbrev Parse := EStateM Diagnostic Parser

namespace Parse

open EventStream (PropertyRun DirectiveRun isDirective directive)

/-- Ask the token stream for a token. -/
def ask (scan : Scan (Option Token)) : Parse Token := fun p =>
  match scan p.tokens with
  | .ok (some token) tokens => .ok token { p with tokens }
  | .ok none tokens => .error (.plain .events .tokensExhausted p.tokens.mark) { p with tokens }
  | .error d tokens => .error d { p with tokens }

/-- The next token. -/
def look : Parse Token := ask Scan.peek

/-- Take the next token. -/
def take : Parse Token := ask Scan.next

def expect (state : Expect) : Parse Unit :=
  modify fun p => { p with state := some state }

def push (state : Expect) : Parse Unit :=
  modify fun p => { p with pending := state :: p.pending }

/-- A node is complete: go on with what was put off for it. -/
def pop : Parse Unit :=
  modify fun p => { p with state := p.pending.head?, pending := p.pending.tail }

/-- A collection is complete. -/
def close : Parse Unit := do
  pop
  modify fun p => { p with openMarks := p.openMarks.tail }

/-- A token that the innermost open collection does not admit. -/
def unexpected {α : Type} (context : Activity) (problem : Problem) (mark : Mark) : Parse α := do
  match (← get).openMarks.head? with
  | some opened => throw (.within .events context opened problem mark)
  | none => throw (.plain .events problem mark)

/-- Read one property, if there is one that was not given yet. -/
def property (run : PropertyRun) : Parse PropertyRun := do
  let token ← look
  let start := some (run.start.getD token.start)
  match token.kind, run.anchor, run.tag with
  | .anchor name, none, _ => do
      let token ← take
      return { run with anchor := some name, start, stop := some token.stop }
  | .tag handle suffix, _, none => do
      let token ← take
      return { run with
        tag := some (handle, suffix), tagMark := token.start, start, stop := some token.stop }
  | _, _, _ => return run

/-- The full form of a tag. -/
def resolveTag (run : PropertyRun) : Parse (Option String) := do
  match run.tag with
  | none => return none
  | some (none, suffix) => return some suffix
  | some (some handle, suffix) =>
      match (← get).handles.lookup handle with
      | some expansion => return some (expansion ++ suffix)
      | none =>
          throw ⟨.events, run.start.map fun _ => .node, run.start, .undefinedHandle handle,
            run.tagMark⟩

/-- Read a node that is no alias. Only in a block may it be a block collection, and only below a key
a list that is not indented. -/
def content (block indentless : Bool) : Parse Event := do
  let run ← property ⟨none, none, .origin, none, none⟩
  let run ← property run
  let tag ← resolveTag run
  let props : Properties := ⟨run.anchor, tag⟩
  let token ← look
  let start := run.start.getD token.start
  match token.kind with
  | .scalar text style => do
      let implicit := (style == .plain && tag.isNone) || tag == some "!"
      let token ← take
      pop
      return ⟨.scalar props implicit text style, start, token.stop⟩
  | .flowSequenceStart => do
      expect .flowSequenceFirst
      return ⟨.sequenceStart props true, start, token.stop⟩
  | .flowMappingStart => do
      expect .flowMappingFirst
      return ⟨.mappingStart props true, start, token.stop⟩
  | kind => do
      if kind == .blockEntry && indentless then
        expect .indentlessEntry
        return ⟨.sequenceStart props false, start, token.stop⟩
      else if kind == .blockSequenceStart && block then
        expect .blockSequenceFirst
        return ⟨.sequenceStart props false, start, token.start⟩
      else if kind == .blockMappingStart && block then
        expect .blockMappingFirst
        return ⟨.mappingStart props false, start, token.start⟩
      else if run.anchor.isSome || tag.isSome then
        let implicit := tag.isNone || tag == some "!"
        pop
        return ⟨.scalar props implicit "" .plain, start, run.stop.getD token.start⟩
      else
        let context := if block then Activity.blockNode else Activity.flowNode
        throw (.within .events context start (.expectedNode kind.label) token.start)

/-- Read a node. -/
def node (block indentless : Bool) : Parse Event := do
  match ← look with
  | ⟨.aliasOf name, _, _⟩ => do
      let token ← take
      pop
      return ⟨.aliasOf name, token.start, token.stop⟩
  | _ => content block indentless

/-- Read a node behind `token` and then expect `after`, unless one of the tokens in `stops` comes
first: then the node is left out. -/
def nodeUnless (token : Token) (stops : List TokenKind) (after : Expect)
    (block indentless : Bool) : Parse Event := do
  if stops.contains (← look).kind then
    expect after
    return .empty token.stop
  else
    push after
    node block indentless

def streamStep : Parse Event := do
  let token ← take
  expect .implicitDocumentStart
  return ⟨.streamStart, token.start, token.stop⟩

def directivesFor : Nat → DirectiveRun → Parse DirectiveRun
  | 0, _ => do throw (.plain .events .endless (← get).tokens.mark)
  | n + 1, run => do
      if isDirective (← look).kind then
        match directive run (← take) with
        | .ok run => directivesFor n run
        | .error d => throw d
      else return run

/-- Read the directives before a document. -/
def directives : Parse Unit := do
  let run ← directivesFor ((← get).tokens.budget + 1) ⟨false, []⟩
  modify fun p => { p with handles := run.handles ++ TagHandles.default }

def skipDocumentEndsFor : Nat → Parse Unit
  | 0 => do throw (.plain .events .endless (← get).tokens.mark)
  | n + 1 => do
      if (← look).kind == .documentEnd then
        let _ ← take
        skipDocumentEndsFor n

def explicitDocumentStep : Parse Event := do
  skipDocumentEndsFor ((← get).tokens.budget + 1)
  let first ← look
  if first.kind == .streamEnd then
    let token ← take
    modify fun p => { p with state := none }
    return ⟨.streamEnd, token.start, token.stop⟩
  else
    directives
    let token ← look
    if token.kind == .documentStart then
      let token ← take
      push .documentEnd
      expect .documentContent
      return ⟨.documentStart true, first.start, token.stop⟩
    else throw (.plain .events (.expectedDocumentStart token.kind.label) token.start)

def implicitDocumentStep : Parse Event := do
  let token ← look
  if isDirective token.kind || token.kind == .documentStart || token.kind == .streamEnd then
    explicitDocumentStep
  else
    modify fun p => { p with handles := .default }
    push .documentEnd
    expect .blockNode
    return ⟨.documentStart false, token.start, token.start⟩

def documentEndStep : Parse Event := do
  let token ← look
  if token.kind == .documentEnd then
    let _ ← take
    expect .documentStart
    return ⟨.documentEnd, token.start, token.stop⟩
  else
    expect .documentStart
    return ⟨.documentEnd, token.start, token.start⟩

def documentContentStep : Parse Event := do
  let token ← look
  if isDirective token.kind || token.kind == .documentStart || token.kind == .documentEnd ||
      token.kind == .streamEnd then
    pop
    return .empty token.start
  else node true false

def blockSequenceStep : Parse Event := do
  let token ← look
  if token.kind == .blockEntry then
    let token ← take
    nodeUnless token [.blockEntry, .blockEnd] .blockSequenceEntry true false
  else if token.kind == .blockEnd then
    let token ← take
    close
    return ⟨.sequenceEnd, token.start, token.stop⟩
  else unexpected .blockCollection (.expectedBlockEnd token.kind.label) token.start

def indentlessStep : Parse Event := do
  let token ← look
  if token.kind == .blockEntry then
    let token ← take
    nodeUnless token [.blockEntry, .key, .value, .blockEnd] .indentlessEntry true false
  else
    pop
    return ⟨.sequenceEnd, token.start, token.start⟩

def blockKeyStep : Parse Event := do
  let token ← look
  if token.kind == .key then
    let token ← take
    nodeUnless token [.key, .value, .blockEnd] .blockMappingValue true true
  else if token.kind == .blockEnd then
    let token ← take
    close
    return ⟨.mappingEnd, token.start, token.stop⟩
  else unexpected .blockMapping (.expectedBlockEnd token.kind.label) token.start

/-- The value behind a value sign, or an empty one if there is none. Then `after` is expected. -/
def valueStep (stops : List TokenKind) (after : Expect) (block : Bool) : Parse Event := do
  let token ← look
  if token.kind == .value then
    let token ← take
    nodeUnless token stops after block block
  else
    expect after
    return .empty token.start

/-- Read the comma before a flow entry; the first entry has none. -/
def flowComma (first : Bool) (context : Activity) (problem : String → Problem) : Parse Unit := do
  if !first then
    let token ← look
    if token.kind == .flowEntry then
      let _ ← take
    else unexpected context (problem token.kind.label) token.start

/-- Read the sign that ends a flow collection. -/
def flowEnd (kind : EventKind) : Parse Event := do
  let token ← take
  close
  return ⟨kind, token.start, token.stop⟩

/-- An entry of a flow sequence; a key makes a mapping with one pair of it. -/
def flowSequenceStep (first : Bool) : Parse Event := do
  if (← look).kind == .flowSequenceEnd then flowEnd .sequenceEnd
  else
    flowComma first .flowSequence .expectedSequenceEnd
    let token ← look
    if token.kind == .key then
      expect .pairKey
      return ⟨.mappingStart .none true, token.start, token.stop⟩
    else if token.kind == .flowSequenceEnd then flowEnd .sequenceEnd
    else
      push .flowSequenceEntry
      node false false

def pairKeyStep : Parse Event := do
  let token ← take
  nodeUnless token [.value, .flowEntry, .flowSequenceEnd] .pairValue false false

def pairEndStep : Parse Event := do
  expect .flowSequenceEntry
  let token ← look
  return ⟨.mappingEnd, token.start, token.start⟩

/-- A key of a flow mapping; a node without a key sign is a key without a value. -/
def flowKeyStep (first : Bool) : Parse Event := do
  if (← look).kind == .flowMappingEnd then flowEnd .mappingEnd
  else
    flowComma first .flowMapping .expectedMappingEnd
    let token ← look
    if token.kind == .key then
      let token ← take
      nodeUnless token [.value, .flowEntry, .flowMappingEnd] .flowMappingValue false false
    else if token.kind == .flowMappingEnd then flowEnd .mappingEnd
    else
      push .flowMappingNoValue
      node false false

def flowNoValueStep : Parse Event := do
  expect .flowMappingKey
  let token ← look
  return .empty token.start

/-- Read the token that opens a collection and note where it stands. The state is left as it is, so
that a step which fails behind this is tried again from here. -/
def opened : Parse Unit := do
  let token ← take
  modify fun p => { p with openMarks := token.start :: p.openMarks }

def step : Expect → Parse Event
  | .streamStart => streamStep
  | .implicitDocumentStart => implicitDocumentStep
  | .documentStart => explicitDocumentStep
  | .documentContent => documentContentStep
  | .documentEnd => documentEndStep
  | .blockNode => node true false
  | .blockSequenceFirst => do
      opened
      blockSequenceStep
  | .blockSequenceEntry => blockSequenceStep
  | .indentlessEntry => indentlessStep
  | .blockMappingFirst => do
      opened
      blockKeyStep
  | .blockMappingKey => blockKeyStep
  | .blockMappingValue => valueStep [.key, .value, .blockEnd] .blockMappingKey true
  | .flowSequenceFirst => do
      opened
      flowSequenceStep true
  | .flowSequenceEntry => flowSequenceStep false
  | .pairKey => pairKeyStep
  | .pairValue => valueStep [.flowEntry, .flowSequenceEnd] .pairEnd false
  | .pairEnd => pairEndStep
  | .flowMappingFirst => do
      opened
      flowKeyStep true
  | .flowMappingKey => flowKeyStep false
  | .flowMappingValue => valueStep [.flowEntry, .flowMappingEnd] .flowMappingKey false
  | .flowMappingNoValue => flowNoValueStep

/-- The next event, or none behind the last. -/
def peek : Parse (Option Event) := do
  let p ← get
  match p.ready, p.state with
  | some event, _ => return some event
  | none, none => return none
  | none, some state =>
      let event ← step state
      modify fun p => { p with ready := some event }
      return some event

/-- Hand out the next event, or none behind the last. -/
def next : Parse (Option Event) := do
  let event ← peek
  modify fun p => { p with ready := none }
  return event

end Parse

end Playbook
