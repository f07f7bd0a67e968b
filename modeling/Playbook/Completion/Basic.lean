import Playbook.Completion.Candidate
import Playbook.Repair
import Playbook.Text.Lines

/-!
Completion: from a text and a cursor to candidates.
-/

namespace Playbook

structure Completion where
  document : Document
  context : Context
  candidates : List Candidate
  /-- What stopped the program while it was looking for candidates. -/
  crash : Option Diagnostic
  deriving Repr, Inhabited

namespace Completion

/-- Load a text, judge the cursor and collect what to offer. The catalogs come back with what they
have learnt. -/
def run (catalogs : Catalogs) (disk : Disk) (text : List Char) (cursor : Cursor) (cap : Nat) :
    Except LoadError (Completion × Catalogs) := do
  let document ← Document.load text cursor cap
  let context := Context.classify document.trail catalogs.directives catalogs.modules
  let crash := context.argumentsOf.bind (catalogs.parameters.crash? disk)
  let (candidates, catalogs) :=
    Candidate.collect context catalogs disk (Context.typed document.trail)
  return (⟨document, context, candidates, crash⟩, catalogs)

/-- The candidates, unless the program was stopped. -/
def offer (completion : Completion) : Except LoadError (List Candidate) :=
  match completion.crash with
  | some d => .error (.unrepairable d)
  | none => .ok completion.candidates

end Completion

/-- What an editor asks. Without a cursor the end of the text is meant. -/
structure CompletionRequest where
  source : List Char
  cursor : Option Cursor
  label : Option String
  deriving Repr, Inhabited

def CompletionRequest.place (request : CompletionRequest) : Cursor :=
  request.cursor.getD (.endOf request.source)

/-- The candidates that answer a request, in the order in which they are shown. -/
def CompletionRequest.answer (request : CompletionRequest) (catalogs : Catalogs) (disk : Disk)
    (cap : Nat) : Except LoadError (List Candidate) := do
  let (completion, _) ← Completion.run catalogs disk request.source request.place cap
  completion.offer

end Playbook
