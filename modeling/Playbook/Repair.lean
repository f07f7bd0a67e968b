import Playbook.Document
import Playbook.Text.Search
import Playbook.Text.WhiteSpace

/-!
Repairing a text that is still being typed. Three problems are typical of it: a key without its
colon, an open quote, and a key below a bare item. Each is mended by one more character, and then
the text is read again.
-/

namespace Playbook

namespace Problem

/-- The colon of a key is missing. -/
def isMissingColon : Problem → Bool
  | missingColon => true
  | other text => hasPart text missingColon.text
  | _ => false

/-- The text ends where it must not. -/
def isUnexpectedEnd : Problem → Bool
  | unexpectedEnd => true
  | other text => text == unexpectedEnd.text
  | _ => false

/-- A key stands where none may. -/
def isMisplacedKey : Problem → Bool
  | valueNotAllowed => true
  | other text =>
      text == valueNotAllowed.text || text == "mapping values are not allowed in this context"
  | _ => false

end Problem

/-- A quoted scalar was being read. -/
def Activity.isQuoted : Activity → Bool
  | quoted => true
  | other text => text == quoted.text
  | _ => false

/-- A character to be inserted before the character number `index`. -/
structure Patch where
  index : Nat
  insert : Char
  deriving Repr, DecidableEq

namespace Patch

def apply (patch : Patch) (text : List Char) : List Char :=
  text.take patch.index ++ patch.insert :: text.drop patch.index

/-- How many characters stand before line number `line`, lines being ended by line feeds. Past the
last line it is all of them. -/
def lineOffset : List Char → Nat → Nat
  | _, 0 => 0
  | [], _ + 1 => 0
  | c :: rest, line + 1 => lineOffset rest (if c == '\n' then line else line + 1) + 1

/-- A colon behind the key: at the first white space in it, or where the problem lies. -/
def closeKey (text : List Char) (context problem : Nat) : Patch :=
  let key := (text.take problem).drop context
  let word := key.takeWhile fun c => !isWhiteSpace c
  ⟨if word.length < key.length then context + word.length else problem, ':'⟩

/-- The opening quote again, at the end of the last line. -/
def closeQuote? (text : List Char) (context problem : Nat) : Option Patch :=
  text[context]?.map fun quote =>
    let behindBreak := context < problem && text[problem - 1]? == some '\n'
    ⟨if behindBreak then problem - 1 else problem, quote⟩

/-- A colon at the end of the line before the misplaced key, or at the key if it is on the first. -/
def closeItem (text : List Char) (line problem : Nat) : Patch :=
  let first := lineOffset text (line - 1)
  let last := max problem first
  let item := ((text.take last).drop first).takeWhile (· != '\n')
  ⟨first + item.length, ':'⟩

/-- The repair for a diagnostic, if there is one. Marks outside of the text count as its end. -/
def of? (text : List Char) (d : Diagnostic) : Option Patch :=
  let problem := min d.problemMark.index text.length
  let context := min ((d.contextMark.map Mark.index).getD 0) text.length
  if d.stage != .tokens then none
  else if d.problem.isMissingColon then some (closeKey text context problem)
  else if d.context.any Activity.isQuoted && d.problem.isUnexpectedEnd then
    closeQuote? text context problem
  else if d.problem.isMisplacedKey then some (closeItem text d.problemMark.line problem)
  else none

end Patch

/-- Why a text could not be loaded. -/
inductive LoadError
  | unrepairable (diagnostic : Diagnostic)
  | limitExceeded (attempts : Nat) (last : Diagnostic)
  | deadlineExceeded (attempts : Nat) (last : Diagnostic)
  deriving Repr, DecidableEq

namespace LoadError

/-- The diagnostic that ended the load. -/
def diagnostic : LoadError → Diagnostic
  | unrepairable d => d
  | limitExceeded _ d => d
  | deadlineExceeded _ d => d

def attempts : LoadError → Option Nat
  | unrepairable _ => none
  | limitExceeded n _ => some n
  | deadlineExceeded n _ => some n

def message : LoadError → String
  | unrepairable d => d.message
  | limitExceeded n d =>
      "gave up repairing the document after " ++ n.repr ++ " attempts\n" ++ d.message
  | deadlineExceeded n d =>
      "ran out of time repairing the document after " ++ n.repr ++ " attempts\n" ++ d.message

end LoadError

/-- Repeat a step until it yields a result. A step that never does is repeated for ever. -/
def repeatUntil {σ ρ : Type} [Nonempty ρ] (step : σ → σ ⊕ ρ) (s : σ) : ρ :=
  Id.run (repeatM (fun s => pure (step s)) s)

namespace Document

instance : Nonempty (Except LoadError Document) := ⟨.ok default⟩

/-- What follows from reading a text that has been repaired a number of times: a result, or the text
with one more repair. A cap of zero admits any number of repairs. `late n` says whether the time is
up after `n` of them. -/
def afterReading (cap : Nat) (late : Nat → Bool) (attempts : Nat) (text : List Char) :
    Except Diagnostic Document → (Nat × List Char) ⊕ Except LoadError Document
  | .ok document => .inr (.ok document)
  | .error d =>
      match Patch.of? text d with
      | none => .inr (.error (.unrepairable d))
      | some patch =>
          if cap != 0 && cap ≤ attempts then .inr (.error (.limitExceeded attempts d))
          else if late attempts then .inr (.error (.deadlineExceeded attempts d))
          else .inl (attempts + 1, patch.apply text)

def loadStep (cursor : Cursor) (cap : Nat) (late : Nat → Bool) :
    Nat × List Char → (Nat × List Char) ⊕ Except LoadError Document
  | (attempts, text) => afterReading cap late attempts text (ofText text cursor)

/-- Read a text with at most `cap` repairs, as long as there is time. -/
def loadUntil (text : List Char) (cursor : Cursor) (cap : Nat) (late : Nat → Bool) :
    Except LoadError Document :=
  repeatUntil (loadStep cursor cap late) (0, text)

/-- Read a text with at most `cap` repairs. -/
def load (text : List Char) (cursor : Cursor) (cap : Nat) : Except LoadError Document :=
  loadUntil text cursor cap fun _ => false

/-- One round of reading and repairing. -/
inductive Round
  | loaded (document : Document)
  | failed (diagnostic : Diagnostic) (patch : Option Patch)

/-- Up to `n` rounds, and the text after them. -/
def rounds (cursor : Cursor) : Nat → List Char → List Round × List Char
  | 0, text => ([], text)
  | n + 1, text =>
      match ofText text cursor with
      | .ok document => ([.loaded document], text)
      | .error d =>
          match Patch.of? text d with
          | none => ([.failed d none], text)
          | some patch =>
              let (later, last) := rounds cursor n (patch.apply text)
              (.failed d (some patch) :: later, last)

end Document

end Playbook
