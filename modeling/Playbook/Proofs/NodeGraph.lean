import Playbook.Proofs.Outcome
import Playbook.Node.Compose
import Playbook.Node.Merge

/-!
The nodes of a document as a graph. Below a node stand its children and theirs, and whatever a
mapping takes over through its merge keys is among them. The composer numbers its nodes so that no
number is used twice and children come before their parents.
-/

namespace Playbook

namespace Node

def children : Node → List Node
  | scalar .. => []
  | sequence _ items => items
  | mapping _ pairs => pairs.flatMap fun pair => [pair.1, pair.2]

/-- The first node is a child of the second, or stands below one. -/
def Below : Node → Node → Prop :=
  Relation.TransGen fun child node => child ∈ node.children

theorem below_child {child node : Node} (h : child ∈ node.children) : child.Below node :=
  Relation.TransGen.single h

theorem below_of_pair {head : NodeHead} {pairs : Pairs} {pair : Node × Node} (h : pair ∈ pairs) :
    pair.1.Below (mapping head pairs) ∧ pair.2.Below (mapping head pairs) := by
  constructor <;> refine below_child (List.mem_flatMap.mpr ⟨pair, h, ?_⟩) <;> simp

theorem sizeOf_child {child node : Node} (h : child ∈ node.children) :
    sizeOf child < sizeOf node := by
  cases node with
  | scalar head text style => cases h
  | sequence head items =>
      simp only [sequence.sizeOf_spec]
      change child ∈ items at h
      have hlt := List.sizeOf_lt_of_mem h
      omega
  | mapping head pairs =>
      obtain ⟨pair, hpair, hchild⟩ := List.mem_flatMap.mp h
      have hlt := List.sizeOf_lt_of_mem hpair
      have hsize : sizeOf pair = 1 + sizeOf pair.1 + sizeOf pair.2 := rfl
      simp only [mapping.sizeOf_spec]
      simp only [List.mem_cons, List.not_mem_nil, or_false] at hchild
      rcases hchild with rfl | rfl <;> omega

theorem sizeOf_below {m node : Node} (h : m.Below node) : sizeOf m < sizeOf node := by
  induction h with
  | single hchild => exact sizeOf_child hchild
  | tail _ hchild ih => exact ih.trans (sizeOf_child hchild)

/-- Every pair of a list consists of nodes below the given one. -/
def PairsBelow (node : Node) (pairs : Pairs) : Prop :=
  ∀ pair ∈ pairs, pair.1.Below node ∧ pair.2.Below node

theorem PairsBelow.trans {m node : Node} {pairs : Pairs} (h : m.PairsBelow pairs)
    (hm : m.Below node) : node.PairsBelow pairs :=
  fun pair hpair => ⟨(h pair hpair).1.trans hm, (h pair hpair).2.trans hm⟩

theorem PairsBelow.append {node : Node} {pairs pairs' : Pairs} (h : node.PairsBelow pairs)
    (h' : node.PairsBelow pairs') : node.PairsBelow (pairs ++ pairs') := by
  intro pair hpair
  rcases List.mem_append.mp hpair with hpair | hpair
  · exact h pair hpair
  · exact h' pair hpair

mutual

theorem flatPairs_below : ∀ (node : Node) {flat : Pairs}, node.flatPairs = .ok flat →
    node.PairsBelow flat
  | .scalar .., flat, h => by
      cases h
      intro pair hpair
      cases hpair
  | .sequence .., flat, h => by
      cases h
      intro pair hpair
      cases hpair
  | .mapping head pairs, flat, h => by
      rw [flatPairs] at h
      obtain ⟨merged, hmerged, h⟩ := bind_eq_ok_iff.mp h
      cases h
      refine .append (mergedPairs_below (.mapping head pairs) pairs ?_ hmerged) ?_
      · exact fun pair hpair => below_of_pair hpair
      · exact fun pair hpair => below_of_pair (List.mem_of_mem_filter hpair)
termination_by structural node => node

theorem mergedPairs_below (node : Node) {start : Mark} : ∀ (pairs : List (Node × Node))
    {flat : Pairs}, node.PairsBelow pairs → mergedPairs start pairs = .ok flat →
    node.PairsBelow flat
  | [], flat, _, h => by
      cases h
      intro pair hpair
      cases hpair
  | (key, value) :: rest, flat, hbelow, h => by
      obtain ⟨⟨-, hvalue⟩, hrest⟩ := List.forall_mem_cons.mp hbelow
      rw [mergedPairs] at h
      split_ifs at h
      · have happend : ∀ {merged : Pairs}, node.PairsBelow merged →
            (do let more ← mergedPairs start rest; pure (merged ++ more)) = .ok flat →
            node.PairsBelow flat := by
          intro merged hmerged h
          obtain ⟨more, hmore, h⟩ := bind_eq_ok_iff.mp h
          cases h
          exact hmerged.append (mergedPairs_below node rest hrest hmore)
        match value, hvalue, h with
        | .mapping head pairs, hvalue, h =>
            obtain ⟨merged, hmerged, h⟩ := bind_eq_ok_iff.mp h
            exact happend ((flatPairs_below _ hmerged).trans hvalue) h
        | .sequence head items, hvalue, h =>
            obtain ⟨groups, hgroups, h⟩ := bind_eq_ok_iff.mp h
            have hitems : ∀ item ∈ items, item.Below node :=
              fun item hitem => (below_child hitem).trans hvalue
            refine happend ?_ h
            intro pair hpair
            obtain ⟨group, hgroup, hpair⟩ := List.mem_flatten.mp hpair
            exact mergedItems_below node items hitems hgroups group
              (List.mem_reverse.mp hgroup) pair hpair
        | .scalar head text style, hvalue, h => cases h
      · exact mergedPairs_below node rest hrest h
termination_by structural pairs => pairs

theorem mergedItems_below (node : Node) {start : Mark} : ∀ (items : List Node)
    {groups : List Pairs}, (∀ item ∈ items, item.Below node) →
    mergedItems start items = .ok groups → ∀ group ∈ groups, node.PairsBelow group
  | [], groups, _, h => by
      cases h
      intro group hgroup
      cases hgroup
  | item :: rest, groups, hbelow, h => by
      obtain ⟨hitem, hrest⟩ := List.forall_mem_cons.mp hbelow
      rw [mergedItems] at h
      split at h
      · obtain ⟨pairs, hpairs, h⟩ := bind_eq_ok_iff.mp h
        obtain ⟨more, hmore, h⟩ := bind_eq_ok_iff.mp h
        cases h
        exact List.forall_mem_cons.mpr ⟨(flatPairs_below item hpairs).trans hitem,
          mergedItems_below node rest hrest hmore⟩
      · cases h
termination_by structural items => items

end

/-- A set of nodes without dangling children, in which numbers tell nodes apart and grow from
children to parents. -/
structure Graph (nodes : Set Node) : Prop where
  closed : ∀ node ∈ nodes, ∀ child ∈ node.children, child ∈ nodes
  smaller : ∀ node ∈ nodes, ∀ child ∈ node.children, child.id < node.id
  unique : ∀ node ∈ nodes, ∀ other ∈ nodes, node.id = other.id → node = other

theorem Graph.below {nodes : Set Node} (hgraph : Graph nodes) {m node : Node}
    (h : m.Below node) (hnode : node ∈ nodes) : m ∈ nodes ∧ m.id < node.id := by
  induction h with
  | single hchild => exact ⟨hgraph.closed _ hnode _ hchild, hgraph.smaller _ hnode _ hchild⟩
  | tail _ hchild ih =>
      obtain ⟨hm, hid⟩ := ih (hgraph.closed _ hnode _ hchild)
      exact ⟨hm, hid.trans (hgraph.smaller _ hnode _ hchild)⟩

theorem graph_empty : Graph ∅ :=
  ⟨fun _ h => h.elim, fun _ h => h.elim, fun _ h => h.elim⟩

/-- A new node whose children are there and whose number is larger than all others. -/
theorem Graph.insert {nodes : Set Node} (hgraph : Graph nodes) {node : Node}
    (hchildren : ∀ child ∈ node.children, child ∈ nodes)
    (hid : ∀ m ∈ nodes, m.id < node.id) : Graph (Set.insert node nodes) where
  closed m hm child hchild := by
    rcases hm with rfl | hm
    · exact Or.inr (hchildren child hchild)
    · exact Or.inr (hgraph.closed m hm child hchild)
  smaller m hm child hchild := by
    rcases hm with rfl | hm
    · exact hid child (hchildren child hchild)
    · exact hgraph.smaller m hm child hchild
  unique m hm m' hm' heq := by
    rcases hm with rfl | hm <;> rcases hm' with rfl | hm'
    · rfl
    · exact absurd (hid m' hm') (by omega)
    · exact absurd (hid m hm) (by omega)
    · exact hgraph.unique m hm m' hm' heq

end Node

def Frame.nodes : Frame → List Node
  | .sequence _ _ items => items
  | .mapping _ _ pairs key => key.toList ++ pairs.flatMap fun pair => [pair.1, pair.2]

namespace Composition

/-- What is found by a name stands under it. -/
theorem mem_of_lookup {α : Type} {entries : List (String × α)} {name : String} {a : α}
    (h : entries.lookup name = some a) : (name, a) ∈ entries := by
  obtain ⟨before, after, hentries, -⟩ := List.lookup_eq_some_iff.mp h
  simp [hentries]

/-- The nodes that a composition has completed form a graph and are numbered below its count. -/
structure Within (nodes : Set Node) (c : Composition) : Prop where
  graph : Node.Graph nodes
  count : ∀ node ∈ nodes, node.id < c.count
  frames : ∀ frame ∈ c.frames, ∀ node ∈ frame.nodes, node ∈ nodes
  anchors : ∀ entry ∈ c.anchors, entry.2 ∈ nodes

/-- What a step comes to: a root among the nodes, or a composition of them. -/
def Progress.Within (nodes : Set Node) : Progress → Prop
  | .complete root => root ∈ nodes ∧ Node.Graph nodes
  | .pending c => Composition.Within nodes c

theorem Within.attach {nodes : Set Node} {c : Composition} (h : c.Within nodes) {node : Node}
    (hnode : node ∈ nodes) : (c.attach node).Within nodes := by
  have hframes := h.frames
  unfold Composition.attach
  split
  · exact ⟨hnode, h.graph⟩
  · rename_i heq
    rw [heq, List.forall_mem_cons] at hframes
    refine ⟨h.graph, h.count, List.forall_mem_cons.mpr ⟨?_, hframes.2⟩, h.anchors⟩
    exact List.forall_mem_cons.mpr ⟨hnode, hframes.1⟩
  · rename_i heq
    rw [heq, List.forall_mem_cons] at hframes
    refine ⟨h.graph, h.count, List.forall_mem_cons.mpr ⟨?_, hframes.2⟩, h.anchors⟩
    exact List.forall_mem_cons.mpr ⟨hnode, hframes.1⟩
  · rename_i heq
    rw [heq, List.forall_mem_cons] at hframes
    refine ⟨h.graph, h.count, List.forall_mem_cons.mpr ⟨?_, hframes.2⟩, h.anchors⟩
    obtain ⟨hkey, hpairs⟩ := List.forall_mem_cons.mp hframes.1
    exact List.forall_mem_cons.mpr ⟨hkey, List.forall_mem_cons.mpr ⟨hnode, hpairs⟩⟩

/-- A node that is finished gets the number of all nodes before it. -/
theorem Within.finish {nodes : Set Node} {c : Composition} (h : c.Within nodes)
    (props : Properties) {node : Node} (hid : node.id = c.count)
    (hchildren : ∀ child ∈ node.children, child ∈ nodes) :
    (c.finish props node).Within (Set.insert node nodes) := by
  have hgraph : Node.Graph (Set.insert node nodes) :=
    h.graph.insert hchildren fun m hm => hid ▸ h.count m hm
  have hcount : ∀ m ∈ Set.insert node nodes, m.id < c.count + 1 := by
    rintro m (rfl | hm)
    · omega
    · exact Nat.lt_succ_of_lt (h.count m hm)
  have hframes : ∀ frame ∈ c.frames, ∀ m ∈ frame.nodes, m ∈ Set.insert node nodes :=
    fun frame hframe m hm => Or.inr (h.frames frame hframe m hm)
  have hanchors : ∀ entry ∈ c.anchors, entry.2 ∈ Set.insert node nodes :=
    fun entry hentry => Or.inr (h.anchors entry hentry)
  have hnode : node ∈ Set.insert node nodes := Or.inl rfl
  unfold Composition.finish
  split
  · refine Within.attach ?_ hnode
    exact ⟨hgraph, hcount, hframes, hanchors⟩
  · refine Within.attach ?_ hnode
    exact ⟨hgraph, hcount, hframes, List.forall_mem_cons.mpr ⟨hnode, hanchors⟩⟩

theorem Within.enter {nodes : Set Node} {c : Composition} (h : c.Within nodes)
    {props : Properties} {start : Mark} {frame : Frame} (hframe : frame.nodes = [])
    {progress : Progress} (hok : c.enter props start frame = .ok progress) :
    progress.Within nodes := by
  obtain ⟨_, -, hok⟩ := bind_eq_ok_iff.mp hok
  cases hok
  refine ⟨h.graph, h.count, List.forall_mem_cons.mpr ⟨?_, h.frames⟩, h.anchors⟩
  rw [hframe]
  exact fun m hm => by cases hm

theorem Within.tail {nodes : Set Node} {c : Composition} (h : c.Within nodes) {frame : Frame}
    {frames : List Frame} (hframes : c.frames = frame :: frames) :
    Within nodes { c with frames } ∧ ∀ m ∈ frame.nodes, m ∈ nodes := by
  have hall := h.frames
  rw [hframes, List.forall_mem_cons] at hall
  exact ⟨⟨h.graph, h.count, hall.2, h.anchors⟩, hall.1⟩

/-- A step keeps the completed nodes and adds at most one. -/
theorem Within.step {nodes : Set Node} {c : Composition} (h : c.Within nodes) {event : Event}
    {progress : Progress} (hok : c.step event = .ok progress) :
    ∃ nodes', progress.Within nodes' := by
  unfold Composition.step at hok
  split at hok
  · rename_i name hkind
    split at hok
    · rename_i node hlookup
      cases hok
      exact ⟨nodes, h.attach (h.anchors _ (mem_of_lookup hlookup))⟩
    · cases hok
  · obtain ⟨_, -, hok⟩ := bind_eq_ok_iff.mp hok
    cases hok
    exact ⟨_, h.finish _ rfl fun child hchild => by cases hchild⟩
  · exact ⟨nodes, h.enter rfl hok⟩
  · exact ⟨nodes, h.enter rfl hok⟩
  · rename_i hframes
    obtain ⟨htail, hitems⟩ := h.tail hframes
    cases hok
    exact ⟨_, htail.finish _ rfl fun child hchild => hitems child (List.mem_reverse.mp hchild)⟩
  · rename_i hframes
    obtain ⟨htail, hpairs⟩ := h.tail hframes
    cases hok
    refine ⟨_, htail.finish _ rfl fun child hchild => hpairs child ?_⟩
    simpa [Node.children, Frame.nodes] using hchild
  · cases hok

end Composition

namespace Node

theorem compose_graph {nodes : Set Node} {c : Composition} (h : c.Within nodes)
    {feed : Feed Event} {events rest : List Event} {root : Node}
    (hok : compose c feed events = .ok (root, rest)) :
    ∃ nodes, Graph nodes ∧ root ∈ nodes := by
  induction events generalizing c nodes with
  | nil => cases hok
  | cons event events ih =>
      obtain ⟨progress, hstep, hok⟩ := bind_eq_ok_iff.mp hok
      obtain ⟨nodes', hwithin⟩ := h.step hstep
      cases progress with
      | complete node =>
          cases hok
          exact ⟨nodes', hwithin.2, hwithin.1⟩
      | pending c' => exact ih hwithin hok

theorem within_empty : Composition.empty.Within ∅ where
  graph := graph_empty
  count _ h := h.elim
  frames _ h := by cases h
  anchors _ h := by cases h

/-- The nodes of every document form a graph. -/
theorem ofEvents_graph {feed : Feed Event} {root : Node}
    (hok : ofEvents feed = .ok (some root)) : ∃ nodes, Graph nodes ∧ root ∈ nodes := by
  unfold ofEvents at hok
  split at hok
  · cases hok
  · obtain ⟨ends, -, hok⟩ := bind_eq_ok_iff.mp hok
    split at hok
    · cases hok
    · obtain ⟨⟨node, left⟩, hcompose, hok⟩ := bind_eq_ok_iff.mp hok
      have hgraph := compose_graph within_empty hcompose
      cases left with
      | nil => cases hok
      | cons stop rest =>
          obtain ⟨ends, -, hok⟩ := bind_eq_ok_iff.mp hok
          cases ends with
          | true =>
              cases hok
              exact hgraph
          | false => cases hok

end Node

end Playbook
