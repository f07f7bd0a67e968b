import Playbook.Text.Mark
import Playbook.Text.CharClass

/-!
What can be wrong with a text, and how it is told. A diagnostic names the problem and its place,
and often what was being read and where that began. The wording of all of them is `Problem.text`
and `Activity.text`.
-/

namespace Playbook

/-- The step of reading that found the problem. -/
inductive Stage
  | tokens
  | events
  | nodes
  | values
  deriving Repr, DecidableEq, Inhabited

def Stage.label : Stage → String
  | .tokens => "scanner"
  | .events => "parser"
  | .nodes => "composer"
  | .values => "constructor"

/-- The three shapes of a node. -/
inductive Shape
  | scalar
  | sequence
  | mapping
  deriving Repr, DecidableEq, Inhabited

def Shape.label : Shape → String
  | .scalar => "scalar"
  | .sequence => "sequence"
  | .mapping => "mapping"

/-- What was being read when a problem was found. `other` carries the words of a caller. -/
inductive Activity
  | nextToken
  | simpleKey
  | directive
  | aliasName
  | anchorName
  | tag
  | tagUri
  | blockScalar
  | doubleQuoted
  | quoted
  | node
  | blockNode
  | flowNode
  | blockCollection
  | blockMapping
  | flowSequence
  | flowMapping
  | singleDocument
  | firstAnchor (name : String)
  | mapping
  | other (text : String)
  deriving Repr, DecidableEq

/-- A problem by its cause. `found` is the character or the token that stands in the way. -/
inductive Problem
  | cannotStartToken (found : Char)
  | missingColon
  | entryNotAllowed
  | keyNotAllowed
  | valueNotAllowed
  | expectedWord (found : Char)
  | expectedAngle (found : Char)
  | expectedSpace (found : Char)
  | expectedBang (found : Char)
  | expectedUri (found : Char)
  | expectedBlockHeader (found : Char)
  | zeroIndent
  | expectedLineEnd (found : Char)
  | badEscapeCode (digits : Nat) (found : Char)
  | unknownEscape (found : Char)
  | unexpectedEnd
  | unexpectedSeparator
  /-- A NUL inside a scalar is neither content nor the end, and reading cannot get past it. -/
  | endless
  | expectedDocumentStart (found : String)
  | duplicateVersion
  | incompatibleVersion
  | badTagDirective
  | duplicateHandle (handle : String)
  | undefinedHandle (handle : String)
  | expectedNode (found : String)
  | expectedBlockEnd (found : String)
  | expectedSequenceEnd (found : String)
  | expectedMappingEnd (found : String)
  | tokensExhausted
  | eventsExhausted
  | unexpectedEvent (found : String)
  | anotherDocument
  | undefinedAlias (name : String)
  | secondAnchor
  | unknownTag (tag : String)
  | expectedShape (wanted found : Shape)
  | unhashableKey (type : String)
  | expectedMergeSource (found : Shape)
  | expectedMergeItem (found : Shape)
  /-- Computing a number left the 64 bits, which stops the program. -/
  | overflow
  | other (text : String)
  deriving Repr, DecidableEq

structure Diagnostic where
  stage : Stage
  context : Option Activity
  contextMark : Option Mark
  problem : Problem
  problemMark : Mark
  deriving Repr, DecidableEq

/-- Lower-case hexadecimal digits, filled with zeros up to `width`. -/
def hexDigits (width n : Nat) : String :=
  let digits := Nat.toDigits 16 n
  String.ofList (List.replicate (width - digits.length) '0' ++ digits)

/-- A character as a message shows it: in quotes, with what cannot be seen written as an escape. -/
def quoteChar (c : Char) : String :=
  if c == '\'' then "\"'\""
  else if c == '\\' then "'\\\\'"
  else if c == '\t' then "'\\t'"
  else if c == '\n' then "'\\n'"
  else if c == '\r' then "'\\r'"
  else if isControl c then "'\\x" ++ hexDigits 2 c.toNat ++ "'"
  else if c == '\u2028' || c == '\u2029' || c == '\ufeff' then
    "'\\u" ++ hexDigits 4 c.toNat ++ "'"
  else "'" ++ c.toString ++ "'"

def Activity.text : Activity → String
  | .nextToken => "while scanning for the next token"
  | .simpleKey => "while scanning a simple key"
  | .directive => "while scanning a directive"
  | .aliasName => "while scanning an alias"
  | .anchorName => "while scanning an anchor"
  | .tag => "while scanning a tag"
  | .tagUri => "while parsing a tag"
  | .blockScalar => "while scanning a block scalar"
  | .doubleQuoted => "while scanning a double-quoted scalar"
  | .quoted => "while scanning a quoted scalar"
  | .node => "while parsing a node"
  | .blockNode => "while parsing a block node"
  | .flowNode => "while parsing a flow node"
  | .blockCollection => "while parsing a block collection"
  | .blockMapping => "while parsing a block mapping"
  | .flowSequence => "while parsing a flow sequence"
  | .flowMapping => "while parsing a flow mapping"
  | .singleDocument => "expected a single document in the stream"
  | .firstAnchor name => "found duplicate anchor '" ++ name ++ "'; first occurrence"
  | .mapping => "while constructing a mapping"
  | .other text => text

def Problem.text : Problem → String
  | .cannotStartToken c => "found character " ++ quoteChar c ++ " that cannot start any token"
  | .missingColon => "could not find expected ':'"
  | .entryNotAllowed => "sequence entries are not allowed here"
  | .keyNotAllowed => "mapping keys are not allowed here"
  | .valueNotAllowed => "mapping values are not allowed here"
  | .expectedWord c => "expected alphabetic or numeric character, but found " ++ quoteChar c
  | .expectedAngle c => "expected '>', but found " ++ quoteChar c
  | .expectedSpace c => "expected ' ', but found " ++ quoteChar c
  | .expectedBang c => "expected '!', but found " ++ quoteChar c
  | .expectedUri c => "expected URI, but found " ++ quoteChar c
  | .expectedBlockHeader c =>
      "expected chomping or indentation indicators, but found " ++ quoteChar c
  | .zeroIndent => "expected indentation indicator in the range 1-9, but found 0"
  | .expectedLineEnd c => "expected a comment or a line break, but found " ++ quoteChar c
  | .badEscapeCode digits c =>
      "expected escape sequence of " ++ digits.repr ++ " hexdecimal numbers, but found " ++
        quoteChar c
  | .unknownEscape c => "found unknown escape character " ++ quoteChar c
  | .unexpectedEnd => "found unexpected end of stream"
  | .unexpectedSeparator => "found unexpected document separator"
  | .endless => "found a scalar without end"
  | .expectedDocumentStart found => "expected '<document start>', but found '" ++ found ++ "'"
  | .duplicateVersion => "found duplicate YAML directive"
  | .incompatibleVersion => "found incompatible YAML document (version 1.* is required)"
  | .badTagDirective => "expected a tag handle and a tag prefix"
  | .duplicateHandle handle => "duplicate tag handle '" ++ handle ++ "'"
  | .undefinedHandle handle => "found undefined tag handle '" ++ handle ++ "'"
  | .expectedNode found => "expected the node content, but found '" ++ found ++ "'"
  | .expectedBlockEnd found => "expected <block end>, but found '" ++ found ++ "'"
  | .expectedSequenceEnd found => "expected ',' or ']', but got '" ++ found ++ "'"
  | .expectedMappingEnd found => "expected ',' or '\x7d', but got '" ++ found ++ "'"
  | .tokensExhausted => "unexpected end of the token stream"
  | .eventsExhausted => "unexpected end of event stream"
  | .unexpectedEvent found => "unexpected event " ++ found
  | .anotherDocument => "but found another document"
  | .undefinedAlias name => "found undefined alias '" ++ name ++ "'"
  | .secondAnchor => "second occurrence"
  | .unknownTag tag => "could not determine a constructor for the tag '" ++ tag ++ "'"
  | .expectedShape wanted found =>
      "expected a " ++ wanted.label ++ " node, but found " ++ found.label
  | .unhashableKey type => "found unacceptable key (unhashable type: '" ++ type ++ "')"
  | .expectedMergeSource found =>
      "expected a mapping or list of mappings for merging, but found " ++ found.label
  | .expectedMergeItem found => "expected a mapping for merging, but found " ++ found.label
  | .overflow => "attempt to negate with overflow"
  | .other text => text

/-- Lines and columns are shown from one. -/
def Mark.text (m : Mark) : String :=
  "  in line " ++ (m.line + 1).repr ++ ", column " ++ (m.column + 1).repr

namespace Diagnostic

/-- A problem on its own. -/
def plain (stage : Stage) (problem : Problem) (mark : Mark) : Diagnostic :=
  ⟨stage, none, none, problem, mark⟩

/-- A problem found while reading something that began at `contextMark`. -/
def within (stage : Stage) (context : Activity) (contextMark : Mark) (problem : Problem)
    (mark : Mark) : Diagnostic :=
  ⟨stage, some context, some contextMark, problem, mark⟩

/-- Nothing is told about the text: the program stops. -/
def isCrash (d : Diagnostic) : Bool := d.problem == .overflow

/-- The place of the context is shown only where it differs from that of the problem. -/
def contextPlace (d : Diagnostic) : Option Mark :=
  d.contextMark.filter (fun m => m.cursor != d.problemMark.cursor)

def message (d : Diagnostic) : String :=
  "\n".intercalate
    ((d.context.map Activity.text).toList ++ (d.contextPlace.map Mark.text).toList ++
      [d.problem.text, d.problemMark.text])

end Diagnostic

end Playbook
