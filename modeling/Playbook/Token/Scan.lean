import Playbook.Token.Stream

/-!
The token stream as it stays in use. A call that fails does not undo what was done before the
failure, and the next call goes on from there. `TokenStream.next` and the functions under it say
what a call comes to and forget the stream behind a failure; here the same steps are taken one by
one, in the order in which they change the stream.
-/

namespace Playbook

/-- At most so many tokens are still to come: those in the queue, the ends of the open blocks, four
for every character and the end of the stream. -/
def TokenStream.budget (s : TokenStream) : Nat :=
  s.queue.length + s.indents.length + 4 * s.reader.rest.length + if s.done then 0 else 1

/-- A step of a token stream. -/
abbrev Scan := EStateM Diagnostic TokenStream

namespace Scan

/-- A step that leaves the stream as it is if it fails. -/
def attempt (f : TokenStream → Except Diagnostic TokenStream) : Scan Unit := do
  match f (← get) with
  | .ok s => set s
  | .error d => throw d

def allowKey (allowed : Bool) : Scan Unit :=
  modify fun s => { s with keyAllowed := allowed }

/-- Read a token. A problem is told where it was found, and the text has been read up to there. -/
def readToken (read : Reader → Except Diagnostic (Token × Reader)) : Scan Unit := do
  let s ← get
  match read s.reader with
  | .ok (token, reader) => set (s.pushRead token reader)
  | .error d =>
      set { s with reader := s.reader.advance (d.problemMark.index - s.mark.index) }
      throw d

/-- Give up the possible key at the current level. It is given up even if it is required. -/
def removeKey : Scan Unit := do
  let s ← get
  match s.key? with
  | some key =>
      set s.forgetKey
      if key.required then throw (s.missingColon key)
  | none => return

/-- Give up the possible keys that have become too long, from the outermost level on. Only at that
level may a key be required, so a required one is the first to be given up, and the others stay. -/
def dropStaleKeys : Scan Unit := do
  let s ← get
  match s.keys.find? (fun key => key.isStale s.mark && key.required) with
  | some key =>
      set { s with keys := s.keys.filter (·.level != key.level) }
      throw (s.missingColon key)
  | none => set { s with keys := s.keys.filter (fun key => !key.isStale s.mark) }

/-- Note that a key may start here. -/
def saveKey : Scan Unit := do
  let s ← get
  if s.keyAllowed then
    removeKey
    modify fun s' => { s' with
      keys := ⟨s.flowLevel, s.taken + s.queue.length,
        !s.inFlow && s.indent == (s.mark.column : Int), s.mark⟩ :: s'.keys }

def fetchEnd : Scan Unit := do
  modify (·.unwind (-1))
  removeKey
  modify fun s => { s.pushHere .streamEnd with done := true, keyAllowed := false, keys := [] }

def fetchDirective : Scan Unit := do
  modify (·.unwind (-1))
  removeKey
  allowKey false
  readToken readDirective

def fetchFlowStart (kind : TokenKind) : Scan Unit := do
  saveKey
  modify fun s => { s.pushSign kind 1 with flowLevel := s.flowLevel + 1, keyAllowed := true }

def fetchFlowEnd (kind : TokenKind) : Scan Unit := do
  removeKey
  modify fun s => { s.pushSign kind 1 with flowLevel := s.flowLevel - 1, keyAllowed := false }

def fetchFlowEntry : Scan Unit := do
  allowKey true
  removeKey
  modify (·.pushSign .flowEntry 1)

def fetchBlockEntry : Scan Unit := do
  attempt (·.openBlock .blockSequenceStart .entryNotAllowed)
  allowKey true
  removeKey
  modify (·.pushSign .blockEntry 1)

def fetchKey : Scan Unit := do
  attempt (·.openBlock .blockMappingStart .keyNotAllowed)
  modify fun s => { s with keyAllowed := !s.inFlow }
  removeKey
  modify (·.pushSign .key 1)

def fetchValue : Scan Unit := do
  match (← get).key? with
  | some key =>
      modify fun s => { (s.forgetKey.insertKey key).pushSign .value 1 with keyAllowed := false }
  | none =>
      attempt (·.openBlock .blockMappingStart .valueNotAllowed)
      modify fun s => { s.pushSign .value 1 with keyAllowed := !s.inFlow }

/-- Read a token that may start a key. -/
def fetchKeyed (read : Reader → Except Diagnostic (Token × Reader)) : Scan Unit := do
  saveKey
  allowKey false
  readToken read

def fetchBlockScalar (folded : Bool) : Scan Unit := do
  allowKey true
  removeKey
  readToken (readBlockScalar folded (← get).indent)

def fetchPlain : Scan Unit := do
  saveKey
  modify fun s =>
    let (token, reader, crossed) := readPlain s.inFlow s.indent s.reader
    { s.pushRead token reader with keyAllowed := crossed }

/-- Read the token that starts at the next character. -/
def fetchSign : Scan Unit := do
  let s ← get
  let c := s.reader.peek
  let beforeBlank := isBlankOrEnd (s.reader.peekAt 1)
  if s.reader.atEnd then fetchEnd
  else if c == '%' && s.mark.column == 0 then fetchDirective
  else if s.atDocumentSign ['-', '-', '-'] then modify (·.fetchDocumentSign .documentStart)
  else if s.atDocumentSign ['.', '.', '.'] then modify (·.fetchDocumentSign .documentEnd)
  else if c == '[' then fetchFlowStart .flowSequenceStart
  else if c == '{' then fetchFlowStart .flowMappingStart
  else if c == ']' then fetchFlowEnd .flowSequenceEnd
  else if c == '}' then fetchFlowEnd .flowMappingEnd
  else if c == ',' then fetchFlowEntry
  else if c == '-' && beforeBlank then fetchBlockEntry
  else if c == '?' && (s.inFlow || beforeBlank) then fetchKey
  else if c == ':' && (s.inFlow || beforeBlank) then fetchValue
  else if c == '*' then fetchKeyed readAlias
  else if c == '&' then fetchKeyed readAnchor
  else if c == '!' then fetchKeyed readTag
  else if c == '|' && !s.inFlow then fetchBlockScalar false
  else if c == '>' && !s.inFlow then fetchBlockScalar true
  else if c == '\'' then fetchKeyed (readQuoted false)
  else if c == '"' then fetchKeyed (readQuoted true)
  else if s.atPlain then fetchPlain
  else throw ⟨.tokens, some .nextToken, none, .cannotStartToken c, s.mark⟩

/-- Read one more token of the text, with the block ends before it. -/
def fetch : Scan Unit := do
  modify (·.skipToToken)
  dropStaleKeys
  modify fun s => s.unwind s.mark.column
  fetchSign

/-- Whether a token has to be fetched before the first one can be handed out. -/
def needsMore : Scan Bool := do
  let s ← get
  if s.done then return false
  else if s.queue.isEmpty then return true
  else
    dropStaleKeys
    return (← get).frontIsOpen

def fillFor : Nat → Scan Unit
  | 0 => do throw (.plain .tokens .endless (← get).mark)
  | n + 1 => do
      if ← needsMore then
        fetch
        fillFor n

/-- Fetch tokens until the first one can be handed out. -/
def fill : Scan Unit := do
  fillFor ((← get).reader.rest.length + 2)

/-- The next token, or none behind the last. -/
def peek : Scan (Option Token) := do
  fill
  return (← get).queue.head?

/-- Hand out the next token, or none behind the last. -/
def next : Scan (Option Token) := do
  fill
  let s ← get
  match s.queue with
  | [] => return none
  | token :: queue =>
      set { s with queue, taken := s.taken + 1 }
      return some token

end Scan

end Playbook
