import Playbook.Proofs.EventOrder
import Playbook.Proofs.NodeGraph

/-!
Where the nodes of a document are written. A node may stand in several places, and is written in one
of them: the others refer to it. The places of a document form a tree whose leaves and brackets are
the events of the document in their order.
-/

namespace Playbook

/-- A place of a document, with the events that make it up and the node that stands there. -/
inductive Place
  /-- The node was written before, and is referred to here. -/
  | reference (event : Event) (node : Node)
  | leaf (event : Event) (node : Node)
  | collection (opening : Event) (inside : List Place) (closing : Event) (node : Node)

namespace Place

/-- The node that stands in a place. -/
def node : Place → Node
  | reference _ node => node
  | leaf _ node => node
  | collection _ _ _ node => node

/-- The places directly inside a place. -/
def inside : Place → List Place
  | collection _ inside _ _ => inside
  | _ => []

/-- Whether the node of a place is written there. -/
def isWritten : Place → Bool
  | reference .. => false
  | _ => true

mutual

/-- The events of a place, in order. -/
def events : Place → List Event
  | reference event _ => [event]
  | leaf event _ => [event]
  | collection opening inside closing _ => opening :: (eventsOf inside ++ [closing])

def eventsOf : List Place → List Event
  | [] => []
  | place :: rest => place.events ++ eventsOf rest

end

mutual

/-- The nodes that are written in a place or inside it, in the order in which they are complete. -/
def written : Place → List Node
  | reference .. => []
  | leaf _ node => [node]
  | collection _ inside _ node => writtenIn inside ++ [node]

def writtenIn : List Place → List Node
  | [] => []
  | place :: rest => place.written ++ writtenIn rest

end

theorem eventsOf_eq (places : List Place) : eventsOf places = places.flatMap events := by
  induction places with
  | nil => rfl
  | cons place rest ih => rw [eventsOf, ih, List.flatMap_cons]

theorem writtenIn_eq (places : List Place) : writtenIn places = places.flatMap written := by
  induction places with
  | nil => rfl
  | cons place rest ih => rw [writtenIn, ih, List.flatMap_cons]

theorem events_collection (opening : Event) (inside : List Place) (closing : Event) (node : Node) :
    (collection opening inside closing node).events =
      opening :: (inside.flatMap events ++ [closing]) := by
  rw [events, eventsOf_eq]

theorem written_collection (opening : Event) (inside : List Place) (closing : Event)
    (node : Node) :
    (collection opening inside closing node).written = inside.flatMap written ++ [node] := by
  rw [written, writtenIn_eq]

/-- The node of a place belongs to its events. It covers them from the start of the first to the
stop of the last, and its children stand inside; or it is one of `nodes` and only referred to. -/
inductive Valid (nodes : List Node) : Place → Prop
  | reference {event : Event} {node : Node} {name : String} (hkind : event.kind = .aliasOf name)
      (hnode : node ∈ nodes) : Valid nodes (reference event node)
  | leaf {event : Event} {node : Node} (hopens : event.kind.opens = false)
      (hspan : node.span = ⟨event.start, event.stop⟩) (hchildren : node.children = []) :
      Valid nodes (leaf event node)
  | collection {opening closing : Event} {inside : List Place} {node : Node}
      (hopens : opening.kind.opens = true) (hcloses : closing.kind.opens = false)
      (hspan : node.span = ⟨opening.start, closing.stop⟩)
      (hchildren : inside.map Place.node = node.children)
      (hinside : ∀ place ∈ inside, Valid nodes place) :
      Valid nodes (collection opening inside closing node)

theorem Valid.mono {nodes nodes' : List Node} {place : Place} (h : place.Valid nodes)
    (hnodes : nodes ⊆ nodes') : place.Valid nodes' := by
  induction h with
  | reference hkind hnode => exact .reference hkind (hnodes hnode)
  | leaf hopens hspan hchildren => exact .leaf hopens hspan hchildren
  | collection hopens hcloses hspan hchildren _ ih =>
      exact .collection hopens hcloses hspan hchildren ih

theorem node_mem_written {place : Place} (h : place.isWritten = true) :
    place.node ∈ place.written := by
  cases place with
  | reference event node => cases h
  | leaf event node => exact List.mem_singleton_self node
  | collection opening inside closing node =>
      rw [written_collection]
      exact List.mem_append_right _ (List.mem_singleton_self node)

end Place

/-! ### Places of a composition -/

def Frame.start : Frame → Mark
  | .sequence _ start _ => start
  | .mapping _ start _ _ => start

/-- The children of an open collection, in order. -/
def Frame.children : Frame → List Node
  | .sequence _ _ items => items.reverse
  | .mapping _ _ pairs key => pairs.reverse.flatMap (fun pair => [pair.1, pair.2]) ++ key.toList

/-- A collection that is still open: its opening, and the places inside so far. -/
structure Draft where
  opening : Event
  inside : List Place

namespace Draft

def events (draft : Draft) : List Event := draft.opening :: draft.inside.flatMap Place.events

def written (draft : Draft) : List Node := draft.inside.flatMap Place.written

/-- The draft of an open collection. -/
structure Of (nodes : List Node) (draft : Draft) (frame : Frame) : Prop where
  opens : draft.opening.kind.opens = true
  start : draft.opening.start = frame.start
  children : draft.inside.map Place.node = frame.children
  valid : ∀ place ∈ draft.inside, place.Valid nodes

def add (draft : Draft) (place : Place) : Draft :=
  { draft with inside := draft.inside ++ [place] }

variable {nodes nodes' : List Node} {draft : Draft} {frame frame' : Frame}

theorem Of.mono (h : draft.Of nodes frame) (hnodes : nodes ⊆ nodes') : draft.Of nodes' frame :=
  ⟨h.opens, h.start, h.children, fun place hmem => (h.valid place hmem).mono hnodes⟩

theorem Of.add {place : Place} (h : draft.Of nodes frame) (hplace : place.Valid nodes)
    (hstart : frame'.start = frame.start)
    (hchildren : frame'.children = frame.children ++ [place.node]) :
    (draft.add place).Of nodes frame' := by
  refine ⟨h.opens, h.start.trans hstart.symm, ?_, fun place' hmem => ?_⟩
  · rw [hchildren, ← h.children]
    simp [Draft.add]
  · rcases List.mem_append.mp hmem with hmem | hmem
    · exact h.valid place' hmem
    · cases List.mem_singleton.mp hmem
      exact hplace

/-- The place of a collection that is complete. -/
theorem Of.close {closing : Event} {node : Node} (h : draft.Of nodes frame)
    (hcloses : closing.kind.opens = false) (hspan : node.span = ⟨frame.start, closing.stop⟩)
    (hchildren : node.children = frame.children) :
    (Place.collection draft.opening draft.inside closing node).Valid nodes := by
  refine .collection h.opens hcloses ?_ (h.children.trans hchildren.symm) h.valid
  rw [hspan, h.start]

end Draft

namespace Composition

/-- The events so far, outermost collection first. -/
def wordOf (drafts : List Draft) : List Event := drafts.reverse.flatMap Draft.events

/-- The nodes that are complete so far. -/
def writtenOf (drafts : List Draft) : List Node := drafts.reverse.flatMap Draft.written

@[simp] theorem wordOf_cons (draft : Draft) (drafts : List Draft) :
    wordOf (draft :: drafts) = wordOf drafts ++ draft.events := by
  simp [wordOf]

@[simp] theorem writtenOf_cons (draft : Draft) (drafts : List Draft) :
    writtenOf (draft :: drafts) = writtenOf drafts ++ draft.written := by
  simp [writtenOf]

/-- The composition has read `word`: each open collection has its draft, the nodes that are
complete are numbered from zero on, and anchors belong to them. -/
structure Drafted (word : List Event) (c : Composition) : Prop where
  exists_drafts : ∃ drafts, List.Forall₂ (Draft.Of (writtenOf drafts)) drafts c.frames ∧
    word = wordOf drafts ∧ (writtenOf drafts).map Node.id = List.range c.count ∧
    ∀ entry ∈ c.anchors, entry.2 ∈ writtenOf drafts

/-- What a step comes to after it has read `word`. -/
def Progress.Drafted (word : List Event) : Progress → Prop
  | .complete root => ∃ place : Place, place.Valid place.written ∧ place.node = root ∧
      place.events = word ∧ place.written.map Node.id = List.range place.written.length
  | .pending c => Composition.Drafted word c

variable {c : Composition} {drafts : List Draft} {word : List Event} {event : Event}

theorem attach_drafted (place : Place)
    (hdrafts : List.Forall₂ (Draft.Of (writtenOf drafts ++ place.written)) drafts c.frames)
    (hplace : place.Valid (writtenOf drafts ++ place.written))
    (hwritten : (writtenOf drafts ++ place.written).map Node.id = List.range c.count)
    (hanchors : ∀ entry ∈ c.anchors, entry.2 ∈ writtenOf drafts ++ place.written) :
    (c.attach place.node).Drafted (wordOf drafts ++ place.events) := by
  unfold attach
  cases hframes : c.frames with
  | nil =>
      rw [hframes] at hdrafts
      cases hdrafts
      have hwritten : place.written.map Node.id = List.range c.count := hwritten
      have hlength : place.written.length = c.count := by simpa using congrArg List.length hwritten
      exact ⟨place, hplace, rfl, rfl, by rw [hwritten, hlength]⟩
  | cons frame frames =>
      rw [hframes] at hdrafts
      cases hdrafts with
      | @cons draft _ drafts _ hdraft hrest =>
          -- The draft of the innermost collection gets the place.
          have hadded : writtenOf (draft.add place :: drafts) =
              writtenOf (draft :: drafts) ++ place.written := by
            simp [Draft.written, Draft.add]
          have hadd : ∀ {frame' : Frame}, frame'.start = frame.start →
              frame'.children = frame.children ++ [place.node] →
              Drafted (wordOf (draft :: drafts) ++ place.events)
                { c with frames := frame' :: frames } := by
            intro frame' hstart hchildren
            refine ⟨draft.add place :: drafts, ?_, ?_, ?_, ?_⟩
            · rw [hadded]
              exact .cons (hdraft.add hplace hstart hchildren) hrest
            · simp [Draft.events, Draft.add]
            · rw [hadded, hwritten]
            · rw [hadded]
              exact hanchors
          cases frame with
          | sequence props start items => exact hadd rfl (by simp [Frame.children])
          | mapping props start pairs key =>
              cases key with
              | none => exact hadd rfl (by simp [Frame.children])
              | some key => exact hadd rfl (by simp [Frame.children])

/-- A node that is finished gets the next number, and its anchor refers to it from now on. -/
theorem finish_drafted (place : Place) (props : Properties) {nodes : List Node}
    (hsubset : nodes ⊆ writtenOf drafts ++ place.written)
    (hdrafts : List.Forall₂ (Draft.Of nodes) drafts c.frames)
    (hplace : place.Valid nodes) (hnode : place.isWritten = true)
    (hwritten : (writtenOf drafts ++ place.written).map Node.id = List.range (c.count + 1))
    (hanchors : ∀ entry ∈ c.anchors, entry.2 ∈ nodes) :
    (c.finish props place.node).Drafted (wordOf drafts ++ place.events) := by
  replace hdrafts := hdrafts.imp fun _ _ h => Draft.Of.mono h hsubset
  have hold : ∀ entry ∈ c.anchors, entry.2 ∈ writtenOf drafts ++ place.written :=
    fun entry hentry => hsubset (hanchors entry hentry)
  unfold finish
  split
  · exact attach_drafted place hdrafts (hplace.mono hsubset) hwritten hold
  · refine attach_drafted place hdrafts (hplace.mono hsubset) hwritten ?_
    refine List.forall_mem_cons.mpr ⟨?_, hold⟩
    exact List.mem_append_right _ (Place.node_mem_written hnode)

theorem Drafted.enter (h : c.Drafted word) {props : Properties} {frame : Frame}
    {progress : Progress} (hopens : event.kind.opens = true) (hstart : frame.start = event.start)
    (hchildren : frame.children = []) (hok : c.enter props event.start frame = .ok progress) :
    progress.Drafted (word ++ [event]) := by
  obtain ⟨drafts, hdrafts, rfl, hwritten, hanchors⟩ := h.exists_drafts
  obtain ⟨_, -, hok⟩ := bind_eq_ok_iff.mp hok
  cases hok
  have hsame : writtenOf (⟨event, []⟩ :: drafts) = writtenOf drafts := by simp [Draft.written]
  refine ⟨⟨event, []⟩ :: drafts, ?_, ?_, ?_, ?_⟩
  · rw [hsame]
    exact .cons ⟨hopens, hstart.symm, by simp [hchildren], by simp⟩ hdrafts
  · simp [Draft.events]
  · rw [hsame]
    exact hwritten
  · rw [hsame]
    exact hanchors

/-- The innermost collection is complete. -/
theorem Drafted.leave (h : c.Drafted word) {props : Properties} {frame : Frame}
    {frames : List Frame} {node : Node} (hframes : c.frames = frame :: frames)
    (hcloses : event.kind.opens = false) (hid : node.id = c.count)
    (hspan : node.span = ⟨frame.start, event.stop⟩) (hchildren : node.children = frame.children) :
    ({ c with frames }.finish props node).Drafted (word ++ [event]) := by
  obtain ⟨drafts, hdrafts, rfl, hwritten, hanchors⟩ := h.exists_drafts
  rw [hframes] at hdrafts
  cases hdrafts with
  | @cons draft _ drafts _ hdraft hrest =>
      have hplace := hdraft.close hcloses hspan hchildren
      have hword : wordOf (draft :: drafts) ++ [event] = wordOf drafts ++
          (Place.collection draft.opening draft.inside event node).events := by
        simp [Place.events_collection, Draft.events]
      have hnodes : writtenOf drafts ++
          (Place.collection draft.opening draft.inside event node).written =
            writtenOf (draft :: drafts) ++ [node] := by
        simp [Place.written_collection, Draft.written]
      rw [hword]
      refine finish_drafted (c := { c with frames }) _ props ?_ hrest hplace rfl ?_ hanchors
      · rw [hnodes]
        exact List.subset_append_left _ _
      · rw [hnodes, List.range_succ, ← hwritten, ← hid, List.map_append, List.map_singleton]

/-- A step reads one event more. -/
theorem Drafted.step (h : c.Drafted word) {progress : Progress}
    (hok : c.step event = .ok progress) : progress.Drafted (word ++ [event]) := by
  unfold Composition.step at hok
  split at hok
  · rename_i name hkind
    split at hok
    · rename_i node hlookup
      cases hok
      obtain ⟨drafts, hdrafts, rfl, hwritten, hanchors⟩ := h.exists_drafts
      have hnode : node ∈ writtenOf drafts := hanchors _ (mem_of_lookup hlookup)
      -- A reference adds nothing to the nodes that are written.
      have hsame : writtenOf drafts ++ (Place.reference event node).written = writtenOf drafts := by
        simp [Place.written]
      refine attach_drafted (.reference event node) ?_ ?_ ?_ ?_
      · rwa [hsame]
      · rw [hsame]
        exact .reference hkind hnode
      · rwa [hsame]
      · rwa [hsame]
    · cases hok
  · rename_i hkind
    obtain ⟨_, -, hok⟩ := bind_eq_ok_iff.mp hok
    cases hok
    obtain ⟨drafts, hdrafts, rfl, hwritten, hanchors⟩ := h.exists_drafts
    refine finish_drafted (.leaf event _) _ (List.subset_append_left _ _) hdrafts
      (.leaf ?_ rfl rfl) rfl ?_ hanchors
    · rw [hkind]
      rfl
    · rw [List.range_succ, ← hwritten]
      simp [Place.written, Node.id, Node.head]
  · rename_i hkind
    exact h.enter (by rw [hkind]; rfl) rfl rfl hok
  · rename_i hkind
    exact h.enter (by rw [hkind]; rfl) rfl rfl hok
  · rename_i hkind hframes
    cases hok
    exact h.leave hframes (by rw [hkind]; rfl) rfl rfl rfl
  · rename_i hkind hframes
    cases hok
    exact h.leave hframes (by rw [hkind]; rfl) rfl rfl (by simp [Node.children, Frame.children])
  · cases hok

end Composition

namespace Node

/-- Composing reads the events of one place. -/
theorem compose_place {c : Composition} {word : List Event} (h : c.Drafted word)
    {feed : Feed Event} {events rest : List Event} {root : Node}
    (hok : compose c feed events = .ok (root, rest)) :
    ∃ place : Place, place.Valid place.written ∧ place.node = root ∧
      word ++ events = place.events ++ rest ∧
      place.written.map Node.id = List.range place.written.length := by
  induction events generalizing c word with
  | nil => cases hok
  | cons event events ih =>
      obtain ⟨progress, hstep, hok⟩ := bind_eq_ok_iff.mp hok
      have hdrafted := h.step hstep
      cases progress with
      | complete node =>
          cases hok
          obtain ⟨place, hvalid, hnode, hevents, hwritten⟩ := hdrafted
          exact ⟨place, hvalid, hnode, by rw [hevents, List.append_cons], hwritten⟩
      | pending c' =>
          obtain ⟨place, hvalid, hnode, hevents, hwritten⟩ := ih hdrafted hok
          exact ⟨place, hvalid, hnode, by rw [← hevents, List.append_cons], hwritten⟩

/-- The node of a document stands in a place that takes up all events between the start and the end
of the document, and the nodes that are written there are numbered from zero on. -/
theorem ofEvents_place {feed : Feed Event} {root : Node}
    (hok : ofEvents feed = .ok (some root)) :
    ∃ (place : Place) (first opening closing : Event) (rest : List Event),
      place.Valid place.written ∧ place.node = root ∧
      feed.items = first :: opening :: (place.events ++ closing :: rest) ∧
      place.written.map Node.id = List.range place.written.length := by
  unfold ofEvents at hok
  split at hok
  · cases hok
  · rename_i first events hitems
    obtain ⟨ends, -, hok⟩ := bind_eq_ok_iff.mp hok
    split at hok
    · cases hok
    · obtain ⟨⟨node, left⟩, hcompose, hok⟩ := bind_eq_ok_iff.mp hok
      have hempty : Composition.empty.Drafted [] :=
        ⟨[], .nil, rfl, rfl, by simp [Composition.empty]⟩
      obtain ⟨place, hvalid, hnode, hevents, hwritten⟩ := compose_place hempty hcompose
      cases events with
      | nil => cases hcompose
      | cons opening events =>
          cases left with
          | nil => cases hok
          | cons closing rest =>
              obtain ⟨ends, -, hok⟩ := bind_eq_ok_iff.mp hok
              cases ends with
              | true =>
                  cases hok
                  have hevents : events = place.events ++ closing :: rest := hevents
                  exact ⟨place, first, opening, closing, rest, hvalid, hnode,
                    by rw [hitems, hevents], hwritten⟩
              | false => cases hok

end Node

end Playbook
