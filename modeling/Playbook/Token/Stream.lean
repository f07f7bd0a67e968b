import Playbook.Feed
import Playbook.Token.Plain
import Playbook.Token.Quoted
import Playbook.Token.BlockScalar
import Playbook.Token.Property

/-!
The tokens of a text, read on demand. A scalar turns out to be a key only once the colon behind it
is seen, and the tokens that open a mapping then go in front of it. So tokens wait in a queue as
long as the first of them may still be a key: `TokenStream.fetch` reads one more, `TokenStream.next`
hands one out.
-/

namespace Playbook

/-- A place that may turn out to start a key. -/
structure SimpleKey where
  /-- How many brackets were open there. -/
  level : Nat
  /-- The number, counted from the start of the text, of the token that starts there. -/
  number : Nat
  /-- At the indentation of the enclosing block nothing but a key can stand. -/
  required : Bool
  mark : Mark
  deriving Repr, DecidableEq, Inhabited

/-- A key lies on one line and takes at most this many characters. -/
def SimpleKey.maxLength : Nat := 1024

def SimpleKey.isStale (key : SimpleKey) (now : Mark) : Bool :=
  key.mark.line != now.line || now.index - key.mark.index > maxLength

structure TokenStream where
  reader : Reader
  /-- Whether the end of the text has been read. -/
  done : Bool
  /-- How many brackets are open. -/
  flowLevel : Nat
  /-- Tokens read and not yet handed out. -/
  queue : List Token
  /-- How many tokens have been handed out. -/
  taken : Nat
  /-- The column of the innermost open block, `-1` outside of all. -/
  indent : Int
  /-- The columns of the blocks around it, innermost first. -/
  indents : List Int
  /-- Whether a key may start here. -/
  keyAllowed : Bool
  /-- Places that may turn out to start a key, at most one for each level. -/
  keys : List SimpleKey
  deriving Repr, DecidableEq, Inhabited

namespace TokenStream

def start (text : List Char) : TokenStream where
  reader := .start text
  done := false
  flowLevel := 0
  queue := [⟨.streamStart, .origin, .origin⟩]
  taken := 0
  indent := -1
  indents := []
  keyAllowed := true
  keys := []

/-- How far the text has been read. -/
def mark (s : TokenStream) : Mark := s.reader.mark

def inFlow (s : TokenStream) : Bool := s.flowLevel != 0

def push (s : TokenStream) (token : Token) : TokenStream :=
  { s with queue := s.queue ++ [token] }

/-- Queue a token that takes up no text. -/
def pushHere (s : TokenStream) (kind : TokenKind) : TokenStream :=
  s.push ⟨kind, s.mark, s.mark⟩

/-- Queue a token of `length` characters and read past it. -/
def pushSign (s : TokenStream) (kind : TokenKind) (length : Nat) : TokenStream :=
  let reader := s.reader.advance length
  { s.push ⟨kind, s.mark, reader.mark⟩ with reader }

/-- Queue a token that was read up to `reader`. -/
def pushRead (s : TokenStream) (token : Token) (reader : Reader) : TokenStream :=
  { s.push token with reader }

/-- The colon of a required key is missing. -/
def missingColon (s : TokenStream) (key : SimpleKey) : Diagnostic :=
  .within .tokens .simpleKey key.mark .missingColon s.mark

/-- The possible key at the current level. -/
def key? (s : TokenStream) : Option SimpleKey :=
  s.keys.find? (·.level == s.flowLevel)

def forgetKey (s : TokenStream) : TokenStream :=
  { s with keys := s.keys.filter (·.level != s.flowLevel) }

/-- Give up the possible key at the current level, which must not be required. -/
def removeKey (s : TokenStream) : Except Diagnostic TokenStream :=
  match s.key? with
  | some key => if key.required then .error (s.missingColon key) else .ok s.forgetKey
  | none => .ok s

/-- Give up the possible keys that have become too long, none of which must be required. -/
def dropStaleKeys (s : TokenStream) : Except Diagnostic TokenStream :=
  match s.keys.find? (fun key => key.isStale s.mark && key.required) with
  | some key => .error (s.missingColon key)
  | none => .ok { s with keys := s.keys.filter (fun key => !key.isStale s.mark) }

/-- Note that a key may start here. -/
def saveKey (s : TokenStream) : Except Diagnostic TokenStream :=
  if s.keyAllowed then do
    let s' ← s.removeKey
    return { s' with
      keys := ⟨s.flowLevel, s.taken + s.queue.length,
        !s.inFlow && s.indent == (s.mark.column : Int), s.mark⟩ :: s'.keys }
  else .ok s

/-- Close blocks, innermost first, until none is indented further than `column`. -/
def closeBlocks (column : Int) (mark : Mark) :
    Int → List Int → List Token → Int × List Int × List Token
  | indent, [], queue =>
      if indent > column then (-1, [], queue ++ [⟨.blockEnd, mark, mark⟩]) else (indent, [], queue)
  | indent, outer :: indents, queue =>
      if indent > column then
        closeBlocks column mark outer indents (queue ++ [⟨.blockEnd, mark, mark⟩])
      else (indent, outer :: indents, queue)

/-- Close the blocks that are indented further than `column`. Inside brackets no block ends. -/
def unwind (s : TokenStream) (column : Int) : TokenStream :=
  if s.inFlow then s
  else
    let (indent, indents, queue) := closeBlocks column s.mark s.indent s.indents s.queue
    { s with indent, indents, queue }

/-- Open a block at `column`, unless one is open there already. -/
def indentTo (s : TokenStream) (column : Nat) : Option TokenStream :=
  if s.indent < (column : Int) then
    some { s with indent := column, indents := s.indent :: s.indents }
  else none

/-- Open a block at the current column with a token of its own. Outside of brackets this needs a
place where a key may start. -/
def openBlock (s : TokenStream) (kind : TokenKind) (refusal : Problem) :
    Except Diagnostic TokenStream :=
  if s.inFlow then .ok s
  else if !s.keyAllowed then .error (.plain .tokens refusal s.mark)
  else
    match s.indentTo s.mark.column with
    | some s => .ok (s.pushHere kind)
    | none => .ok s

def fetchEnd (s : TokenStream) : Except Diagnostic TokenStream := do
  let s ← (s.unwind (-1)).removeKey
  return { s.pushHere .streamEnd with done := true, keyAllowed := false, keys := [] }

def fetchDirective (s : TokenStream) : Except Diagnostic TokenStream := do
  let s ← (s.unwind (-1)).removeKey
  let (token, reader) ← readDirective s.reader
  return { s.pushRead token reader with keyAllowed := false }

/-- A document indicator stands at the start of a line, so no key is pending there. -/
def fetchDocumentSign (s : TokenStream) (kind : TokenKind) : TokenStream :=
  { (s.unwind (-1)).forgetKey.pushSign kind 3 with keyAllowed := false }

def fetchFlowStart (s : TokenStream) (kind : TokenKind) : Except Diagnostic TokenStream := do
  let s ← s.saveKey
  return { s.pushSign kind 1 with flowLevel := s.flowLevel + 1, keyAllowed := true }

def fetchFlowEnd (s : TokenStream) (kind : TokenKind) : Except Diagnostic TokenStream := do
  let s ← s.removeKey
  return { s.pushSign kind 1 with flowLevel := s.flowLevel - 1, keyAllowed := false }

def fetchFlowEntry (s : TokenStream) : Except Diagnostic TokenStream := do
  let s ← s.removeKey
  return { s.pushSign .flowEntry 1 with keyAllowed := true }

def fetchBlockEntry (s : TokenStream) : Except Diagnostic TokenStream := do
  let s ← s.openBlock .blockSequenceStart .entryNotAllowed
  let s ← s.removeKey
  return { s.pushSign .blockEntry 1 with keyAllowed := true }

def fetchKey (s : TokenStream) : Except Diagnostic TokenStream := do
  let s ← s.openBlock .blockMappingStart .keyNotAllowed
  let s ← s.removeKey
  return { s.pushSign .key 1 with keyAllowed := !s.inFlow }

/-- Put the tokens that make a key of it in front of the place where `key` starts. -/
def insertKey (s : TokenStream) (key : SimpleKey) : TokenStream :=
  let position := key.number - s.taken
  let queue := s.queue.insertIdx position ⟨.key, key.mark, key.mark⟩
  match (if s.inFlow then none else s.indentTo key.mark.column) with
  | some s => { s with queue := queue.insertIdx position ⟨.blockMappingStart, key.mark, key.mark⟩ }
  | none => { s with queue }

def fetchValue (s : TokenStream) : Except Diagnostic TokenStream :=
  match s.key? with
  | some key => .ok { (s.forgetKey.insertKey key).pushSign .value 1 with keyAllowed := false }
  | none => do
      let s ← s.openBlock .blockMappingStart .valueNotAllowed
      return { s.pushSign .value 1 with keyAllowed := !s.inFlow }

/-- Read a token that may start a key. -/
def fetchKeyed (s : TokenStream) (read : Reader → Except Diagnostic (Token × Reader)) :
    Except Diagnostic TokenStream := do
  let s ← s.saveKey
  let (token, reader) ← read s.reader
  return { s.pushRead token reader with keyAllowed := false }

def fetchBlockScalar (s : TokenStream) (folded : Bool) : Except Diagnostic TokenStream := do
  let s ← s.removeKey
  let (token, reader) ← readBlockScalar folded s.indent s.reader
  return { s.pushRead token reader with keyAllowed := true }

def fetchPlain (s : TokenStream) : Except Diagnostic TokenStream := do
  let s ← s.saveKey
  let (token, reader, crossed) := readPlain s.inFlow s.indent s.reader
  return { s.pushRead token reader with keyAllowed := crossed }

def atDocumentSign (s : TokenStream) (sign : List Char) : Bool :=
  s.mark.column == 0 && s.reader.startsWith sign && isBlankOrEnd (s.reader.peekAt 3)

/-- Whether a plain scalar starts here: not with an indicator, except a dash, and outside of
brackets a question mark or a colon, that no blank follows. -/
def atPlain (s : TokenStream) : Bool :=
  let c := s.reader.peek
  !(isBlankOrEnd c || isIndicator c) ||
    (!isBlankOrEnd (s.reader.peekAt 1) && (c == '-' || (!s.inFlow && (c == '?' || c == ':'))))

/-- Skip to the next token. Behind a line break outside of brackets a key may start. -/
def skipToToken (s : TokenStream) : TokenStream :=
  let reader :=
    if s.mark.index == 0 && s.reader.peek == '\ufeff' then s.reader.next else s.reader
  let (reader, crossed) := reader.skipTrivia
  { s with reader, keyAllowed := s.keyAllowed || (crossed && !s.inFlow) }

/-- Read the token that starts at the next character. -/
def fetchSign (s : TokenStream) : Except Diagnostic TokenStream :=
  let c := s.reader.peek
  let beforeBlank := isBlankOrEnd (s.reader.peekAt 1)
  if s.reader.atEnd then s.fetchEnd
  else if c == '%' && s.mark.column == 0 then s.fetchDirective
  else if s.atDocumentSign ['-', '-', '-'] then .ok (s.fetchDocumentSign .documentStart)
  else if s.atDocumentSign ['.', '.', '.'] then .ok (s.fetchDocumentSign .documentEnd)
  else if c == '[' then s.fetchFlowStart .flowSequenceStart
  else if c == '{' then s.fetchFlowStart .flowMappingStart
  else if c == ']' then s.fetchFlowEnd .flowSequenceEnd
  else if c == '}' then s.fetchFlowEnd .flowMappingEnd
  else if c == ',' then s.fetchFlowEntry
  else if c == '-' && beforeBlank then s.fetchBlockEntry
  else if c == '?' && (s.inFlow || beforeBlank) then s.fetchKey
  else if c == ':' && (s.inFlow || beforeBlank) then s.fetchValue
  else if c == '*' then s.fetchKeyed readAlias
  else if c == '&' then s.fetchKeyed readAnchor
  else if c == '!' then s.fetchKeyed readTag
  else if c == '|' && !s.inFlow then s.fetchBlockScalar false
  else if c == '>' && !s.inFlow then s.fetchBlockScalar true
  else if c == '\'' then s.fetchKeyed (readQuoted false)
  else if c == '"' then s.fetchKeyed (readQuoted true)
  else if s.atPlain then s.fetchPlain
  else .error ⟨.tokens, some .nextToken, none, .cannotStartToken c, s.mark⟩

/-- Read one more token of the text, with the block ends before it. -/
def fetch (s : TokenStream) : Except Diagnostic TokenStream := do
  let s ← s.skipToToken.dropStaleKeys
  (s.unwind s.mark.column).fetchSign

/-- Whether the first token of the queue may still turn out to be a key. -/
def frontIsOpen (s : TokenStream) : Bool :=
  s.keys.any (·.number == s.taken) && s.keys.all (s.taken ≤ ·.number)

/-- Whether a token has to be fetched before the first one can be handed out. -/
def needsMore (s : TokenStream) : Except Diagnostic (Bool × TokenStream) :=
  if s.done then .ok (false, s)
  else if s.queue.isEmpty then .ok (true, s)
  else do
    let s ← s.dropStaleKeys
    return (s.frontIsOpen, s)

def fillFor : Nat → TokenStream → Except Diagnostic TokenStream
  | 0, s => .error (.plain .tokens .endless s.mark)
  | n + 1, s => do
      let (more, s) ← s.needsMore
      if more then fillFor n (← s.fetch) else return s

/-- Fetch tokens until the first one can be handed out. Each takes at least one character, and the
end of the text takes one more. -/
def fill (s : TokenStream) : Except Diagnostic TokenStream :=
  fillFor (s.reader.rest.length + 2) s

/-- The next token, or none behind the last. -/
def peek (s : TokenStream) : Except Diagnostic (Option Token × TokenStream) := do
  let s ← s.fill
  return (s.queue.head?, s)

/-- Hand out the next token, or none behind the last. -/
def next (s : TokenStream) : Except Diagnostic (Option Token × TokenStream) := do
  let s ← s.fill
  match s.queue with
  | [] => return (none, s)
  | token :: queue => return (some token, { s with queue, taken := s.taken + 1 })

def collect : Nat → TokenStream → Feed Token
  | 0, s => ⟨[], some (.plain .tokens .endless s.mark)⟩
  | n + 1, s =>
      match s.next with
      | .error d => ⟨[], some d⟩
      | .ok (none, _) => ⟨[], none⟩
      | .ok (some token, s) => (collect n s).cons token

end TokenStream

/-- All tokens of a text. A character yields at most four of them: a sign, the start and the end of
a block, and a key put in front. -/
def Token.ofText (text : List Char) : Feed Token :=
  (TokenStream.start text).collect (4 * text.length + 8)

end Playbook
