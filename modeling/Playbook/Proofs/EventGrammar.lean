import Playbook.Proofs.Outcome
import Playbook.Node.Compose

/-!
The grammar of events. A stream is made of documents, a document holds one node, and a node is a
scalar, an alias or a collection of nodes between its start and its end. Whatever belongs to the
grammar can be composed: the composer stops at it only for the sake of an anchor.
-/

namespace Playbook

/-- The syntactic categories of event sequences. -/
inductive Phrase
  | node
  | items
  | pairs
  | documents
  | stream
  deriving DecidableEq, Repr

/-- The event sequences of each category. -/
inductive Phrase.Derives : Phrase → List Event → Prop
  | scalar (props : Properties) (implicit : Bool) (text : String) (style : Style)
      (start stop : Mark) : node.Derives [⟨.scalar props implicit text style, start, stop⟩]
  | aliasOf (name : String) (start stop : Mark) :
      node.Derives [⟨.aliasOf name, start, stop⟩]
  | sequence (props : Properties) (flow : Bool) (start stop start' stop' : Mark)
      {body : List Event} (hbody : items.Derives body) :
      node.Derives
        (⟨.sequenceStart props flow, start, stop⟩ :: (body ++ [⟨.sequenceEnd, start', stop'⟩]))
  | mapping (props : Properties) (flow : Bool) (start stop start' stop' : Mark)
      {body : List Event} (hbody : pairs.Derives body) :
      node.Derives
        (⟨.mappingStart props flow, start, stop⟩ :: (body ++ [⟨.mappingEnd, start', stop'⟩]))
  | noItems : items.Derives []
  | item {head tail : List Event} (hhead : node.Derives head) (htail : items.Derives tail) :
      items.Derives (head ++ tail)
  | noPairs : pairs.Derives []
  | pair {key value tail : List Event} (hkey : node.Derives key) (hvalue : node.Derives value)
      (htail : pairs.Derives tail) : pairs.Derives (key ++ (value ++ tail))
  | noDocuments : documents.Derives []
  | document (explicit : Bool) (start stop start' stop' : Mark) {root tail : List Event}
      (hroot : node.Derives root) (htail : documents.Derives tail) :
      documents.Derives
        (⟨.documentStart explicit, start, stop⟩ ::
          (root ++ ⟨.documentEnd, start', stop'⟩ :: tail))
  | stream (start stop start' stop' : Mark) {body : List Event}
      (hbody : documents.Derives body) :
      Phrase.stream.Derives
        (⟨.streamStart, start, stop⟩ :: (body ++ [⟨.streamEnd, start', stop'⟩]))

namespace EventGrammar

/-- What follows the start of a sequence: more items, then its end. -/
def SequenceRest (w : List Event) : Prop :=
  ∃ body start stop, Phrase.items.Derives body ∧ w = body ++ [⟨.sequenceEnd, start, stop⟩]

/-- What follows the start of a mapping: more pairs, then its end. -/
def MappingRest (w : List Event) : Prop :=
  ∃ body start stop, Phrase.pairs.Derives body ∧ w = body ++ [⟨.mappingEnd, start, stop⟩]

/-- What follows the start of a stream: more documents, then its end. -/
def StreamRest (w : List Event) : Prop :=
  ∃ body start stop, Phrase.documents.Derives body ∧ w = body ++ [⟨.streamEnd, start, stop⟩]

/-- What follows a complete node inside a document: the end of the document, and more documents. -/
def DocumentRest (w : List Event) : Prop :=
  ∃ start stop tail, StreamRest tail ∧ w = ⟨.documentEnd, start, stop⟩ :: tail

/-- A node and then something else. -/
def NodeThen (rest : List Event → Prop) (w : List Event) : Prop :=
  ∃ head tail, Phrase.node.Derives head ∧ rest tail ∧ w = head ++ tail

/-- The end of a mapping and then something else. -/
def MappingEndThen (rest : List Event → Prop) (w : List Event) : Prop :=
  ∃ start stop tail, rest tail ∧ w = ⟨.mappingEnd, start, stop⟩ :: tail

theorem sequenceRest_stop (start stop : Mark) :
    SequenceRest [⟨.sequenceEnd, start, stop⟩] :=
  ⟨[], start, stop, .noItems, rfl⟩

theorem mappingRest_stop (start stop : Mark) : MappingRest [⟨.mappingEnd, start, stop⟩] :=
  ⟨[], start, stop, .noPairs, rfl⟩

theorem streamRest_stop (start stop : Mark) : StreamRest [⟨.streamEnd, start, stop⟩] :=
  ⟨[], start, stop, .noDocuments, rfl⟩

theorem sequenceRest_of_item {w : List Event} (h : NodeThen SequenceRest w) :
    SequenceRest w := by
  obtain ⟨head, tail, hhead, ⟨body, start, stop, hbody, rfl⟩, rfl⟩ := h
  exact ⟨head ++ body, start, stop, .item hhead hbody, by simp⟩

theorem mappingRest_of_pair {w : List Event} (h : NodeThen (NodeThen MappingRest) w) :
    MappingRest w := by
  obtain ⟨key, tail, hkey, ⟨value, rest, hvalue, ⟨body, start, stop, hbody, rfl⟩, rfl⟩, rfl⟩ := h
  exact ⟨key ++ (value ++ body), start, stop, .pair hkey hvalue hbody, by simp⟩

/-- A pair inside a flow sequence is a mapping of its own. -/
theorem sequenceRest_of_singlePair {props : Properties} {flow : Bool} {start stop : Mark}
    {w : List Event} (h : NodeThen (NodeThen (MappingEndThen SequenceRest)) w) :
    SequenceRest (⟨.mappingStart props flow, start, stop⟩ :: w) := by
  obtain ⟨key, tail, hkey, ⟨value, rest, hvalue, ⟨a, b, w', hrest, rfl⟩, rfl⟩, rfl⟩ := h
  apply sequenceRest_of_item
  refine ⟨_, w', .mapping props flow start stop a b (.pair hkey hvalue .noPairs), hrest, ?_⟩
  simp

theorem streamRest_of_document {explicit : Bool} {start stop : Mark} {w : List Event}
    (h : NodeThen DocumentRest w) :
    StreamRest (⟨.documentStart explicit, start, stop⟩ :: w) := by
  obtain ⟨root, tail, hroot, ⟨a, b, rest, ⟨body, c, d, hbody, rfl⟩, rfl⟩, rfl⟩ := h
  refine ⟨_, c, d, .document explicit start stop a b hroot hbody, ?_⟩
  simp

theorem nodeThen_sequence {props : Properties} {flow : Bool} {start stop : Mark}
    {rest : List Event → Prop} {body tail : List Event} (hbody : SequenceRest body)
    (htail : rest tail) :
    NodeThen rest (⟨.sequenceStart props flow, start, stop⟩ :: (body ++ tail)) := by
  obtain ⟨items, a, b, hitems, rfl⟩ := hbody
  exact ⟨_, tail, .sequence props flow start stop a b hitems, htail, rfl⟩

theorem nodeThen_mapping {props : Properties} {flow : Bool} {start stop : Mark}
    {rest : List Event → Prop} {body tail : List Event} (hbody : MappingRest body)
    (htail : rest tail) :
    NodeThen rest (⟨.mappingStart props flow, start, stop⟩ :: (body ++ tail)) := by
  obtain ⟨pairs, a, b, hpairs, rfl⟩ := hbody
  exact ⟨_, tail, .mapping props flow start stop a b hpairs, htail, rfl⟩

end EventGrammar

end Playbook
