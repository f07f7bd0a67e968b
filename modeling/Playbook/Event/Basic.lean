import Playbook.Token.Basic

/-!
Events: the structure of a text as a flat sequence. A document is a node between its start and its
end; a node is a scalar, an alias, or a collection between its start and its end.
-/

namespace Playbook

/-- What may stand before a node: a name to refer to it by, and its type. -/
structure Properties where
  anchor : Option String
  tag : Option String
  deriving Repr, DecidableEq, Inhabited

def Properties.none : Properties := ⟨.none, .none⟩

inductive EventKind
  | streamStart
  | streamEnd
  | documentStart (explicit : Bool)
  | documentEnd
  | aliasOf (name : String)
  /-- `implicit` says whether the type may be guessed from the text. -/
  | scalar (props : Properties) (implicit : Bool) (text : String) (style : Style)
  | sequenceStart (props : Properties) (flow : Bool)
  | sequenceEnd
  | mappingStart (props : Properties) (flow : Bool)
  | mappingEnd
  deriving Repr, DecidableEq, Inhabited

structure Event where
  kind : EventKind
  start : Mark
  stop : Mark
  deriving Repr, DecidableEq, Inhabited

/-- The scalar that stands where a node is left out. -/
def Event.empty (mark : Mark) : Event :=
  ⟨.scalar .none true "" .plain, mark, mark⟩

/-- The name of an event that cannot start a node, as messages show it. -/
def EventKind.label : EventKind → String
  | .streamStart => "StreamStart"
  | .streamEnd => "StreamEnd"
  | .documentStart explicit =>
      "DocumentStart \x7b explicit: " ++ (if explicit then "true" else "false") ++ " \x7d"
  | .documentEnd => "DocumentEnd"
  | .aliasOf _ => "Alias"
  | .scalar .. => "Scalar"
  | .sequenceStart .. => "SequenceStart"
  | .sequenceEnd => "SequenceEnd"
  | .mappingStart .. => "MappingStart"
  | .mappingEnd => "MappingEnd"

end Playbook
