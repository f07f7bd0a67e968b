/-!
Positions in a text, counted in characters, and the stretch of text between two of them.
-/

namespace Playbook

/-- A position in a text: how many characters stand before it, on which line and in which column
it lies. All three count from zero. -/
structure Mark where
  index : Nat
  line : Nat
  column : Nat
  deriving Repr, DecidableEq, Inhabited

/-- The start of every text. -/
def Mark.origin : Mark := ⟨0, 0, 0⟩

/-- The place at which an editor asks for completion. -/
structure Cursor where
  line : Nat
  column : Nat
  deriving Repr, DecidableEq, Inhabited

def Cursor.origin : Cursor := ⟨0, 0⟩

/-- A cursor stands where a mark stands if line and column agree. -/
def Mark.cursor (m : Mark) : Cursor := ⟨m.line, m.column⟩

/-- The stretch of text that a node covers. -/
structure Span where
  start : Mark
  stop : Mark
  deriving Repr, DecidableEq, Inhabited

/-- A span over several lines holds every column of them; a span within one line holds the columns
from its start to its stop, both included. -/
def Span.contains (s : Span) (c : Cursor) : Bool :=
  s.start.line ≤ c.line && c.line ≤ s.stop.line &&
    (s.start.line != s.stop.line ||
      (s.start.column ≤ c.column && c.column ≤ s.stop.column))

end Playbook
