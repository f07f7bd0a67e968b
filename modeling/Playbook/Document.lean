import Playbook.Event.Stream
import Playbook.Node.Compose
import Playbook.Node.Merge
import Playbook.Number.Text
import Playbook.Value

/-!
Documents: the value of a text and the trail of values under a cursor. Nodes are visited from the
outside in. A node under the cursor leaves one entry on the trail: a scalar its text, a collection
its value. A key leaves an entry before that of its value. A node that is met again leaves none.
-/

namespace Playbook

/-- The state of a walk over the nodes of a document. -/
structure Walk where
  /-- Entries so far, outermost first. -/
  trail : List Value
  /-- Values of the nodes that are complete, by number. -/
  built : List (Nat × Value)
  /-- The numbers of the nodes that have left their entry. -/
  seen : List Nat
  deriving Repr, Inhabited

namespace Walk

def start : Walk := ⟨[], [], []⟩

/-- Whether a node is under the cursor and has left no entry yet. -/
def isNew (cursor : Cursor) (node : Node) (w : Walk) : Bool :=
  node.span.contains cursor && !w.seen.contains node.id

def enter (entry : Value) (w : Walk) : Walk :=
  { w with trail := w.trail ++ [entry] }

/-- Leave the entry of a node that has left none yet. -/
def leave (cursor : Cursor) (node : Node) (entry : Value) (w : Walk) : Walk :=
  if w.isNew cursor node then { w.enter entry with seen := node.id :: w.seen } else w

/-- Replace the entry that stands at `place`. -/
def settle (place : Option Nat) (value : Value) (w : Walk) : Walk :=
  match place with
  | some i => { w with trail := w.trail.set i value }
  | none => w

/-- Where the entry of a node will stand, if it leaves one. -/
def place? (cursor : Cursor) (node : Node) (w : Walk) : Option Nat :=
  if w.isNew cursor node then some w.trail.length else none

@[simp] theorem enter_built (entry : Value) (w : Walk) : (w.enter entry).built = w.built := rfl

@[simp] theorem leave_built (cursor : Cursor) (node : Node) (entry : Value) (w : Walk) :
    (w.leave cursor node entry).built = w.built := by
  unfold leave
  split <;> rfl

@[simp] theorem settle_built (place : Option Nat) (value : Value) (w : Walk) :
    (w.settle place value).built = w.built := by
  cases place <;> rfl

end Walk

/-- A step of a walk that yields a result. -/
abbrev WalkM (α : Type) := Walk → Except Diagnostic (α × Walk)

/-- A problem with a node. -/
def Node.problem (node : Node) (problem : Problem) : Diagnostic :=
  .plain .values problem node.start

namespace Document

/-- Tags that playbooks add to the core set; all of them stand for text. -/
def textTags : List String := ["!unsafe", "!vault", "!vault-encrypted"]

/-- The text of a scalar. -/
def walkText (cursor : Cursor) (node : Node) : WalkM String := fun w =>
  match node with
  | .scalar _ text _ => .ok (text, w.leave cursor node (.str text))
  | _ => .error (node.problem (.expectedShape .scalar node.shape))

def boolOf? (text : String) : Option Bool :=
  let word := String.ofList (text.toList.map Char.toLower)
  if ["yes", "true", "on"].contains word then some true
  else if ["no", "false", "off"].contains word then some false
  else none

/-- The value of a scalar by its tag. A text that does not fit the tag stays a text. -/
def scalarValue (tag : Tag) (text : String) : Except Number.Overflow Value :=
  match tag with
  | .null => .ok .null
  | .bool => .ok (((boolOf? text).map Value.bool).getD (.str text))
  | .int => (fun n => (n.map Value.int).getD (.str text)) <$> Number.toInt? text.toList
  | .float => .ok (((Number.toFloat? text.toList).map Value.float).getD (.str text))
  | _ => .ok (.str text)

/-- Visit nodes in order. -/
def walkItems (visit : Node → WalkM Value) : List Node → WalkM (List Value)
  | [], w => .ok ([], w)
  | item :: rest, w => do
      let (value, w) ← visit item w
      let (values, w) ← walkItems visit rest w
      return (value :: values, w)

/-- Visit the pairs of the mapping that starts at `start`. -/
def walkPairs (cursor : Cursor) (start : Mark) (visit : Node → WalkM Value) :
    List (Node × Node) → Mapping → WalkM Mapping
  | [], m, w => .ok (m, w)
  | (keyNode, valueNode) :: rest, m, w => do
      let (keyValue, w) ← visit keyNode w
      match keyValue.key? with
      | none =>
          .error (.within .values .mapping start (.unhashableKey keyValue.typeName) keyNode.start)
      | some key =>
          let w := if w.isNew cursor valueNode then w.enter key.toValue else w
          let (value, w) ← visit valueNode w
          walkPairs cursor start visit rest (m.insert key value) w

def walkSequence (cursor : Cursor) (visit : Node → WalkM Value) (node : Node) : WalkM Value :=
  fun w =>
    match node with
    | .sequence _ items => do
        let place := w.place? cursor node
        let (values, w) ← walkItems visit items (w.leave cursor node .null)
        return (.seq values, w.settle place (.seq values))
    | _ => .error (node.problem (.expectedShape .sequence node.shape))

def walkMapping (cursor : Cursor) (visit : Node → WalkM Value) (node : Node) : WalkM Value :=
  fun w =>
    match node with
    | .mapping head pairs => do
        let flat ← Node.flatPairs (.mapping head pairs)
        let place := w.place? cursor node
        let (m, w) ← walkPairs cursor node.start visit flat [] (w.leave cursor node .null)
        return (.map m, w.settle place (.map m))
    | _ => .error (node.problem (.expectedShape .mapping node.shape))

/-- Visit a node for the first time. -/
def walkFresh (cursor : Cursor) (visit : Node → WalkM Value) (node : Node) : WalkM Value :=
  fun w =>
    match node.tag with
    | .seq => walkSequence cursor visit node w
    | .map => walkMapping cursor visit node w
    | .merge => .error (node.problem (.unknownTag Tag.merge.uri))
    | .other uri =>
        if textTags.contains uri then do
          let (text, w) ← walkText cursor node w
          return (.str text, w)
        else .error (node.problem (.unknownTag uri))
    | tag => do
        let (text, w) ← walkText cursor node w
        let value ← (scalarValue tag text).mapError fun _ => node.problem .overflow
        return (value, w)

/-- Visit a node. One that was visited before has its value already. The values of all nodes are
kept, though only one that several others hold, or merge into themselves, is ever met again: for
any other the lookup finds nothing, since what is built has been visited, and its own value is never
asked for. The first argument bounds the depth of the visit. -/
def walkNode (cursor : Cursor) : Nat → Node → WalkM Value
  | 0, node, _ => .error (node.problem .endless)
  | n + 1, node, w =>
      match w.built.lookup node.id with
      | some value => .ok (value, w)
      | none => do
          let (value, w) ← walkFresh cursor (walkNode cursor n) node w
          return (value, { w with built := (node.id, value) :: w.built })

end Document

structure Document where
  root : Value
  trail : List Value
  deriving Repr, Inhabited

namespace Document

/-- A cursor inside a collection and on none of its entries waits for a new one. -/
def closeTrail (trail : List Value) : List Value :=
  if trail.getLast?.any Value.isCollection then trail ++ [.null] else trail

/-- The document of a node. Children have smaller numbers than their parents, so the number of the
root bounds the depth. -/
def ofNode (cursor : Cursor) (node : Node) : Except Diagnostic Document := do
  let (root, w) ← walkNode cursor (node.id + 1) node .start
  return ⟨root, closeTrail w.trail⟩

/-- The document of a text, as seen from a cursor. A text without a document has the value null. -/
def ofText (text : List Char) (cursor : Cursor) : Except Diagnostic Document := do
  match ← Node.ofEvents (Event.ofText text) with
  | none => return ⟨.null, []⟩
  | some node => ofNode cursor node

end Document

end Playbook
