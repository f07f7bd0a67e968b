import Playbook.Event.Basic
import Playbook.Feed
import Playbook.Node.Basic

/-!
From events to the node of a document. Open collections wait on a stack of frames; a node that is
complete goes to the innermost of them.
-/

namespace Playbook

/-- A collection whose end has not come yet, with its children last first. -/
inductive Frame
  | sequence (props : Properties) (start : Mark) (items : List Node)
  /-- `key` is the key of a pair whose value has not come yet. -/
  | mapping (props : Properties) (start : Mark) (pairs : List (Node × Node)) (key : Option Node)
  deriving Repr, Inhabited

structure Composition where
  /-- How many nodes are complete. -/
  count : Nat
  frames : List Frame
  /-- Complete nodes by their anchors. -/
  anchors : List (String × Node)
  /-- Where the open collections with anchors start. -/
  openAnchors : List (String × Mark)
  deriving Repr, Inhabited

namespace Composition

def empty : Composition := ⟨0, [], [], []⟩

/-- After an event a document is either complete or still open. -/
inductive Progress
  | complete (root : Node)
  | pending (composition : Composition)

/-- Give a node to the innermost open collection. -/
def attach (c : Composition) (node : Node) : Progress :=
  match c.frames with
  | [] => .complete node
  | .sequence props start items :: frames =>
      .pending { c with frames := .sequence props start (node :: items) :: frames }
  | .mapping props start pairs none :: frames =>
      .pending { c with frames := .mapping props start pairs (some node) :: frames }
  | .mapping props start pairs (some key) :: frames =>
      .pending { c with frames := .mapping props start ((key, node) :: pairs) none :: frames }

/-- Where an anchor was given first, if it was. -/
def anchorMark? (c : Composition) (name : String) : Option Mark :=
  match c.anchors.lookup name with
  | some node => some node.start
  | none => c.openAnchors.lookup name

/-- An anchor must not be given twice. -/
def checkAnchor (c : Composition) (anchor : Option String) (start : Mark) :
    Except Diagnostic Unit :=
  match anchor with
  | none => .ok ()
  | some name =>
      match c.anchorMark? name with
      | none => .ok ()
      | some first => .error (.within .nodes (.firstAnchor name) first .secondAnchor start)

/-- The tag that was given, or `default` if none was. A lone exclamation mark gives none. -/
def tagOr (props : Properties) (default : Tag) : Tag :=
  match props.tag with
  | some "!" => default
  | some uri => .ofUri uri
  | none => default

/-- A node is complete: its anchor can be referred to from now on. -/
def finish (c : Composition) (props : Properties) (node : Node) : Progress :=
  match props.anchor with
  | none => { c with count := c.count + 1 }.attach node
  | some name =>
      { c with
        count := c.count + 1
        anchors := (name, node) :: c.anchors
        openAnchors := c.openAnchors.filter (·.1 != name) }.attach node

/-- Open a collection. -/
def enter (c : Composition) (props : Properties) (start : Mark) (frame : Frame) :
    Except Diagnostic Progress := do
  c.checkAnchor props.anchor start
  return .pending { c with
    frames := frame :: c.frames
    openAnchors := (props.anchor.map fun name => (name, start)).toList ++ c.openAnchors }

def step (c : Composition) (event : Event) : Except Diagnostic Progress :=
  match event.kind, c.frames with
  | .aliasOf name, _ =>
      match c.anchors.lookup name with
      | some node => .ok (c.attach node)
      | none => .error (.plain .nodes (.undefinedAlias name) event.start)
  | .scalar props implicit text style, _ => do
      c.checkAnchor props.anchor event.start
      let tag := tagOr props (.ofScalar text implicit)
      return c.finish props (.scalar ⟨c.count, tag, event.start, event.stop⟩ text style)
  | .sequenceStart props _, _ => c.enter props event.start (.sequence props event.start [])
  | .mappingStart props _, _ => c.enter props event.start (.mapping props event.start [] none)
  | .sequenceEnd, .sequence props start items :: frames =>
      .ok ({ c with frames }.finish props
        (.sequence ⟨c.count, tagOr props .seq, start, event.stop⟩ items.reverse))
  | .mappingEnd, .mapping props start pairs none :: frames =>
      .ok ({ c with frames }.finish props
        (.mapping ⟨c.count, tagOr props .map, start, event.stop⟩ pairs.reverse))
  | kind, _ => .error (.plain .nodes (.unexpectedEvent kind.label) event.start)

end Composition

/-- What ends a feed of events too early. -/
def Feed.endedEarly (feed : Feed Event) : Diagnostic :=
  feed.fault.getD (.plain .nodes .eventsExhausted .origin)

namespace Node

/-- Read one node, and leave the events behind it. -/
def compose (c : Composition) (events : Feed Event) :
    List Event → Except Diagnostic (Node × List Event)
  | [] => .error events.endedEarly
  | event :: rest => do
      match ← c.step event with
      | .complete node => return (node, rest)
      | .pending c => compose c events rest

/-- Whether a stream ends here. -/
def atStreamEnd (events : Feed Event) : List Event → Except Diagnostic Bool
  | [] => match events.fault with
      | some d => .error d
      | none => .ok true
  | event :: _ => .ok (event.kind == .streamEnd)

/-- The node of the only document of a stream, if it has one. The first event of a stream and of a
document, and the last of a document, are passed over. -/
def ofEvents (events : Feed Event) : Except Diagnostic (Option Node) :=
  match events.items with
  | [] => .error events.endedEarly
  | _ :: rest => do
      if ← atStreamEnd events rest then return none
      let (node, rest) ← compose .empty events rest.tail
      match rest with
      | [] => .error events.endedEarly
      | _ :: rest =>
          if ← atStreamEnd events rest then return some node
          let next := (rest.head?.map Event.start).getD .origin
          .error (.within .nodes .singleDocument node.start .anotherDocument next)

end Node

end Playbook
