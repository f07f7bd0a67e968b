import Playbook.Proofs.BareEvents
import Playbook.Document

/-!
Nodes and documents do not depend on indices. The node of bare events is the bare node, and the
document of a bare node is that of the node: whether a cursor stands in a node is a matter of lines
and columns.
-/

namespace Playbook

def NodeHead.bare (head : NodeHead) : NodeHead := ⟨head.id, head.tag, head.span.bare⟩

namespace Node

mutual

def bare : Node → Node
  | scalar head text style => scalar head.bare text style
  | sequence head items => sequence head.bare (bareItems items)
  | mapping head pairs => mapping head.bare (barePairs pairs)

def bareItems : List Node → List Node
  | [] => []
  | item :: rest => item.bare :: bareItems rest

def barePairs : Pairs → Pairs
  | [] => []
  | (key, value) :: rest => (key.bare, value.bare) :: barePairs rest

end

theorem bareItems_eq (items : List Node) : bareItems items = items.map bare := by
  induction items with
  | nil => rfl
  | cons item rest ih => rw [bareItems, ih, List.map_cons]

/-- A pair of bare nodes. -/
def barePair (pair : Node × Node) : Node × Node := (pair.1.bare, pair.2.bare)

theorem barePairs_eq (pairs : Pairs) : barePairs pairs = pairs.map barePair := by
  induction pairs with
  | nil => rfl
  | cons pair rest ih =>
      rw [barePairs, ih, List.map_cons]
      rfl

theorem bare_sequence (head : NodeHead) (items : List Node) :
    (sequence head items).bare = sequence head.bare (items.map bare) := by
  rw [bare, bareItems_eq]

theorem bare_mapping (head : NodeHead) (pairs : Pairs) :
    (mapping head pairs).bare = mapping head.bare (pairs.map barePair) := by
  rw [bare, barePairs_eq]

theorem bare_head (node : Node) : node.bare.head = node.head.bare := by
  cases node <;> rfl

@[simp] theorem bare_id (node : Node) : node.bare.id = node.id := by
  rw [id, bare_head]
  rfl

@[simp] theorem bare_tag (node : Node) : node.bare.tag = node.tag := by
  rw [tag, bare_head]
  rfl

@[simp] theorem bare_span (node : Node) : node.bare.span = node.span.bare := by
  rw [span, bare_head]
  rfl

@[simp] theorem bare_start (node : Node) : node.bare.start = node.start.bare := by
  rw [start, bare_span]
  rfl

@[simp] theorem bare_shape (node : Node) : node.bare.shape = node.shape := by
  cases node <;> rfl

end Node

/-! ### Composing -/

def Frame.bare : Frame → Frame
  | .sequence props start items => .sequence props start.bare (items.map Node.bare)
  | .mapping props start pairs key =>
      .mapping props start.bare (pairs.map Node.barePair) (key.map Node.bare)

theorem lookup_map {α β : Type} (f : α → β) (entries : List (String × α)) (name : String) :
    (entries.map fun entry => (entry.1, f entry.2)).lookup name = (entries.lookup name).map f := by
  induction entries with
  | nil => rfl
  | cons entry entries ih =>
      obtain ⟨other, a⟩ := entry
      rw [List.map_cons, List.lookup_cons, List.lookup_cons, ih]
      cases name == other <;> rfl

namespace Composition

def bare (c : Composition) : Composition where
  count := c.count
  frames := c.frames.map Frame.bare
  anchors := c.anchors.map fun entry => (entry.1, entry.2.bare)
  openAnchors := c.openAnchors.map fun entry => (entry.1, entry.2.bare)

def Progress.bare : Progress → Progress
  | .complete root => .complete root.bare
  | .pending c => .pending c.bare

variable (c : Composition)

theorem attach_bare (node : Node) : c.bare.attach node.bare = (c.attach node).bare := by
  obtain ⟨count, frames, anchors, openAnchors⟩ := c
  cases frames with
  | nil => rfl
  | cons frame frames =>
      cases frame with
      | sequence props start items => rfl
      | mapping props start pairs key => cases key <;> rfl

theorem anchorMark?_bare (name : String) :
    c.bare.anchorMark? name = (c.anchorMark? name).map Mark.bare := by
  unfold anchorMark? bare
  dsimp only
  rw [lookup_map, lookup_map]
  cases c.anchors.lookup name with
  | none => rfl
  | some node => simp

theorem checkAnchor_bare (anchor : Option String) (start : Mark) :
    c.bare.checkAnchor anchor start.bare = bareOutcome id (c.checkAnchor anchor start) := by
  cases anchor with
  | none => rfl
  | some name =>
      unfold checkAnchor
      dsimp only
      rw [anchorMark?_bare]
      cases c.anchorMark? name <;> rfl

theorem finish_bare (props : Properties) (node : Node) :
    c.bare.finish props node.bare = (c.finish props node).bare := by
  unfold finish
  cases props.anchor with
  | none => exact attach_bare { c with count := c.count + 1 } node
  | some name =>
      dsimp only
      rw [← attach_bare]
      simp [bare, List.filter_map, Function.comp_def]

theorem enter_bare (props : Properties) (start : Mark) (frame : Frame) :
    c.bare.enter props start.bare frame.bare =
      bareOutcome Progress.bare (c.enter props start frame) := by
  unfold enter
  refine bareOutcome_bind (c.checkAnchor_bare props.anchor start) fun _ => ?_
  cases props.anchor <;> rfl

theorem step_bare (event : Event) :
    c.bare.step event.bare = bareOutcome Progress.bare (c.step event) := by
  obtain ⟨kind, start, stop⟩ := event
  obtain ⟨count, frames, anchors, openAnchors⟩ := c
  cases kind with
  | aliasOf name =>
      unfold step bare
      dsimp only [Event.bare]
      rw [lookup_map]
      cases anchors.lookup name with
      | none => rfl
      | some node =>
          exact congrArg Except.ok (attach_bare ⟨count, frames, anchors, openAnchors⟩ node)
  | scalar props implicit text style =>
      refine bareOutcome_bind (checkAnchor_bare _ props.anchor start) fun _ => ?_
      exact congrArg Except.ok (finish_bare ⟨count, frames, anchors, openAnchors⟩ props
        (.scalar ⟨count, tagOr props (.ofScalar text implicit), start, stop⟩ text style))
  | sequenceStart props flow => exact enter_bare _ props start (.sequence props start [])
  | mappingStart props flow => exact enter_bare _ props start (.mapping props start [] none)
  | sequenceEnd =>
      cases frames with
      | nil => rfl
      | cons frame frames =>
          cases frame with
          | mapping props first pairs key => rfl
          | sequence props first items =>
              have hfinish := finish_bare ⟨count, frames, anchors, openAnchors⟩ props
                (.sequence ⟨count, tagOr props .seq, first, stop⟩ items.reverse)
              rw [Node.bare_sequence, List.map_reverse] at hfinish
              exact congrArg Except.ok hfinish
  | mappingEnd =>
      cases frames with
      | nil => rfl
      | cons frame frames =>
          cases frame with
          | sequence props first items => rfl
          | mapping props first pairs key =>
              cases key with
              | some key => rfl
              | none =>
                  have hfinish := finish_bare ⟨count, frames, anchors, openAnchors⟩ props
                    (.mapping ⟨count, tagOr props .map, first, stop⟩ pairs.reverse)
                  rw [Node.bare_mapping, List.map_reverse] at hfinish
                  exact congrArg Except.ok hfinish
  | _ => rfl

end Composition

theorem Feed.endedEarly_bare (events : Feed Event) :
    (events.bare Event.bare).endedEarly = events.endedEarly.bare := by
  obtain ⟨items, fault⟩ := events
  cases fault <;> rfl

namespace Node

theorem compose_bare (c : Composition) (events : Feed Event) (rest : List Event) :
    compose c.bare (events.bare Event.bare) (rest.map Event.bare) =
      bareOutcome (fun found => (found.1.bare, found.2.map Event.bare))
        (compose c events rest) := by
  induction rest generalizing c with
  | nil => exact congrArg Except.error events.endedEarly_bare
  | cons event rest ih =>
      rw [List.map_cons, compose, compose]
      refine bareOutcome_bind (c.step_bare event) fun progress => ?_
      cases progress with
      | complete node => rfl
      | pending c => exact ih c

theorem atStreamEnd_bare (events : Feed Event) (rest : List Event) :
    atStreamEnd (events.bare Event.bare) (rest.map Event.bare) =
      bareOutcome (fun done => done) (atStreamEnd events rest) := by
  cases rest with
  | cons event rest => rfl
  | nil =>
      obtain ⟨items, fault⟩ := events
      cases fault <;> rfl

/-- The node of bare events is the bare node. -/
theorem ofEvents_bare (events : Feed Event) :
    ofEvents (events.bare Event.bare) = bareOutcome (Option.map bare) (ofEvents events) := by
  obtain ⟨items, fault⟩ := events
  cases items with
  | nil => exact congrArg Except.error (Feed.endedEarly_bare ⟨[], fault⟩)
  | cons first rest =>
      refine bareOutcome_bind (atStreamEnd_bare ⟨first :: rest, fault⟩ rest) fun done => ?_
      split_ifs
      · rfl
      · have hcompose := compose_bare .empty ⟨first :: rest, fault⟩ rest.tail
        rw [List.map_tail] at hcompose
        refine bareOutcome_bind hcompose ?_
        rintro ⟨node, behind⟩
        cases behind with
        | nil => exact congrArg Except.error (Feed.endedEarly_bare ⟨first :: rest, fault⟩)
        | cons last behind =>
            refine bareOutcome_bind (atStreamEnd_bare ⟨first :: rest, fault⟩ behind) fun done => ?_
            split_ifs
            · rfl
            · cases behind <;>
                simp [Diagnostic.within, Diagnostic.bare, Problem.bare, Event.bare, Mark.origin,
                  Mark.bare]

end Node

/-! ### Merging -/

namespace Node

theorem cannotMerge_bare (start : Mark) (found : Node) {problem : Shape → Problem}
    (hproblem : ∀ shape, (problem shape).bare = problem shape) :
    cannotMerge start.bare found.bare problem = (cannotMerge start found problem).bare := by
  simp [cannotMerge, Diagnostic.within, Diagnostic.bare, hproblem]

mutual

theorem flatPairs_bare : ∀ node : Node,
    node.bare.flatPairs = bareOutcome (List.map barePair) node.flatPairs
  | .scalar .. => rfl
  | .sequence .. => rfl
  | .mapping head pairs => by
      rw [bare, flatPairs, flatPairs]
      refine bareOutcome_bind (mergedPairs_bare head.span.start pairs) fun merged => ?_
      rw [barePairs_eq, List.filter_map]
      simp [Function.comp_def, barePair]

theorem mergedPairs_bare (start : Mark) : ∀ pairs : Pairs,
    mergedPairs start.bare (barePairs pairs) =
      bareOutcome (List.map barePair) (mergedPairs start pairs)
  | [] => rfl
  | (key, value) :: rest => by
      rw [barePairs, mergedPairs, mergedPairs, bare_tag]
      split_ifs
      · have hrest : ∀ merged : Pairs,
            (do
              let rest ← mergedPairs start.bare (barePairs rest)
              pure (merged.map barePair ++ rest)) =
            bareOutcome (List.map barePair) (do
              let rest ← mergedPairs start rest
              pure (merged ++ rest)) :=
          fun merged => bareOutcome_bind (mergedPairs_bare start rest) fun _ => by simp
        match value with
        | .mapping head pairs => exact bareOutcome_bind (flatPairs_bare (.mapping head pairs)) hrest
        | .sequence head items =>
            refine bareOutcome_bind (mergedItems_bare start items) fun groups => ?_
            have hgroups := hrest groups.reverse.flatten
            rw [List.map_flatten, List.map_reverse] at hgroups
            exact hgroups
        | .scalar head text style =>
            exact congrArg Except.error
              (cannotMerge_bare start (.scalar head text style) fun _ => rfl)
      · exact mergedPairs_bare start rest

theorem mergedItems_bare (start : Mark) : ∀ items : List Node,
    mergedItems start.bare (bareItems items) =
      bareOutcome (List.map (List.map barePair)) (mergedItems start items)
  | [] => rfl
  | item :: rest => by
      rw [bareItems, mergedItems, mergedItems, bare_shape]
      split
      · refine bareOutcome_bind (flatPairs_bare item) fun pairs => ?_
        exact bareOutcome_bind (mergedItems_bare start rest) fun _ => rfl
      · exact congrArg Except.error (cannotMerge_bare start item fun _ => rfl)

end

end Node

/-! ### Walking -/

theorem Node.problem_bare (node : Node) {problem : Problem} (hproblem : problem.bare = problem) :
    node.bare.problem problem = (node.problem problem).bare := by
  simp [Node.problem, Diagnostic.plain, Diagnostic.bare, hproblem]

namespace Walk

theorem isNew_bare (cursor : Cursor) (node : Node) (w : Walk) :
    w.isNew cursor node.bare = w.isNew cursor node := by
  rw [isNew, isNew, Node.bare_span, Node.bare_id]
  rfl

theorem leave_bare (cursor : Cursor) (node : Node) (entry : Value) (w : Walk) :
    w.leave cursor node.bare entry = w.leave cursor node entry := by
  rw [leave, leave, isNew_bare, Node.bare_id]

theorem place?_bare (cursor : Cursor) (node : Node) (w : Walk) :
    w.place? cursor node.bare = w.place? cursor node := by
  rw [place?, place?, isNew_bare]

end Walk

namespace Document

variable {cursor : Cursor} {visit : Node → WalkM Value}

theorem walkText_bare (node : Node) (w : Walk) :
    walkText cursor node.bare w = bareOutcome id (walkText cursor node w) := by
  cases node with
  | scalar head text style =>
      exact congrArg (fun w => Except.ok (text, w))
        (Walk.leave_bare cursor (.scalar head text style) (.str text) w)
  | sequence head items =>
      exact congrArg Except.error (Node.problem_bare (.sequence head items) rfl)
  | mapping head pairs =>
      exact congrArg Except.error (Node.problem_bare (.mapping head pairs) rfl)

theorem walkItems_bare (hvisit : ∀ node w, visit node.bare w = bareOutcome id (visit node w))
    (items : List Node) (w : Walk) :
    walkItems visit (items.map Node.bare) w = bareOutcome id (walkItems visit items w) := by
  induction items generalizing w with
  | nil => rfl
  | cons item rest ih =>
      rw [List.map_cons, walkItems, walkItems]
      refine bareOutcome_bind (hvisit item w) ?_
      rintro ⟨value, w₁⟩
      exact bareOutcome_bind (ih w₁) fun _ => rfl

theorem walkPairs_bare (hvisit : ∀ node w, visit node.bare w = bareOutcome id (visit node w))
    (start : Mark) (pairs : List (Node × Node)) (m : Mapping) (w : Walk) :
    walkPairs cursor start.bare visit (pairs.map Node.barePair) m w =
      bareOutcome id (walkPairs cursor start visit pairs m w) := by
  induction pairs generalizing m w with
  | nil => rfl
  | cons pair rest ih =>
      obtain ⟨keyNode, valueNode⟩ := pair
      rw [List.map_cons, Node.barePair, walkPairs, walkPairs]
      refine bareOutcome_bind (hvisit keyNode w) ?_
      rintro ⟨keyValue, w₁⟩
      dsimp only [id]
      cases keyValue.key? with
      | none => simp [Diagnostic.within, Diagnostic.bare, Problem.bare]
      | some key =>
          dsimp only
          rw [Walk.isNew_bare]
          refine bareOutcome_bind (hvisit valueNode _) ?_
          rintro ⟨value, w₂⟩
          exact ih _ w₂

theorem walkSequence_bare (hvisit : ∀ node w, visit node.bare w = bareOutcome id (visit node w))
    (node : Node) (w : Walk) :
    walkSequence cursor visit node.bare w = bareOutcome id (walkSequence cursor visit node w) := by
  cases node with
  | scalar head text style =>
      exact congrArg Except.error (Node.problem_bare (.scalar head text style) rfl)
  | mapping head pairs =>
      exact congrArg Except.error (Node.problem_bare (.mapping head pairs) rfl)
  | sequence head items =>
      unfold walkSequence
      rw [Node.bare_sequence]
      dsimp only
      rw [← Node.bare_sequence, Walk.place?_bare, Walk.leave_bare]
      exact bareOutcome_bind (walkItems_bare hvisit items _) fun _ => rfl

theorem walkMapping_bare (hvisit : ∀ node w, visit node.bare w = bareOutcome id (visit node w))
    (node : Node) (w : Walk) :
    walkMapping cursor visit node.bare w = bareOutcome id (walkMapping cursor visit node w) := by
  cases node with
  | scalar head text style =>
      exact congrArg Except.error (Node.problem_bare (.scalar head text style) rfl)
  | sequence head items =>
      exact congrArg Except.error (Node.problem_bare (.sequence head items) rfl)
  | mapping head pairs =>
      unfold walkMapping
      rw [Node.bare_mapping]
      dsimp only
      rw [← Node.bare_mapping, Walk.place?_bare, Walk.leave_bare, Node.bare_start]
      refine bareOutcome_bind (Node.flatPairs_bare (.mapping head pairs)) fun flat => ?_
      exact bareOutcome_bind (walkPairs_bare hvisit _ flat [] _) fun _ => rfl

theorem walkFresh_bare (hvisit : ∀ node w, visit node.bare w = bareOutcome id (visit node w))
    (node : Node) (w : Walk) :
    walkFresh cursor visit node.bare w = bareOutcome id (walkFresh cursor visit node w) := by
  unfold walkFresh
  dsimp only
  rw [Node.bare_tag]
  split
  · exact walkSequence_bare hvisit node w
  · exact walkMapping_bare hvisit node w
  · exact congrArg Except.error (node.problem_bare rfl)
  · split_ifs
    · exact bareOutcome_bind (walkText_bare node w) fun _ => rfl
    · exact congrArg Except.error (node.problem_bare rfl)
  · refine bareOutcome_bind (walkText_bare node w) fun ⟨text, w₁⟩ => ?_
    dsimp only [id]
    cases scalarValue node.tag text with
    | error overflow => exact congrArg Except.error (node.problem_bare rfl)
    | ok value => rfl

theorem walkNode_bare (n : Nat) (node : Node) (w : Walk) :
    walkNode cursor n node.bare w = bareOutcome id (walkNode cursor n node w) := by
  induction n generalizing node w with
  | zero => exact congrArg Except.error (node.problem_bare rfl)
  | succ n ih =>
      unfold walkNode
      rw [Node.bare_id]
      cases w.built.lookup node.id with
      | some value => rfl
      | none => exact bareOutcome_bind (walkFresh_bare ih node w) fun _ => rfl

/-- The document of a bare node is that of the node. -/
theorem ofNode_bare (cursor : Cursor) (node : Node) :
    ofNode cursor node.bare = bareOutcome id (ofNode cursor node) := by
  unfold ofNode
  rw [Node.bare_id]
  exact bareOutcome_bind (walkNode_bare _ node .start) fun _ => rfl

end Document

end Playbook
