import Playbook.Proofs.Place

/-!
The spans of the nodes of a document are nested like the nodes. What is written inside a collection
lies between its start and its stop, in order; so a cursor on a node is also on every collection
that the node is written in.
-/

namespace Playbook

namespace Place

/-- The marks of the events of a place. -/
def marks (place : Place) : List Mark := place.events.flatMap Event.marks

/-- The first place stands somewhere inside the second. -/
def Inside : Place → Place → Prop :=
  Relation.TransGen fun inner outer => inner ∈ outer.inside

/-- The first place is the second or stands somewhere inside it. -/
def Within : Place → Place → Prop :=
  Relation.ReflTransGen fun inner outer => inner ∈ outer.inside

theorem marks_collection (opening : Event) (inside : List Place) (closing : Event) (node : Node) :
    (collection opening inside closing node).marks =
      opening.marks ++ (inside.flatMap marks ++ closing.marks) := by
  simp only [marks, events_collection, List.flatMap_cons, List.flatMap_append, List.flatMap_nil,
    List.append_nil, List.flatMap_assoc]
  rfl

variable {nodes : List Node}

/-- A written node starts and stops with events of its place. -/
theorem Valid.span_mem {place : Place} (h : place.Valid nodes) (hwritten : place.isWritten = true) :
    place.node.span.start ∈ place.marks ∧ place.node.span.stop ∈ place.marks := by
  cases h with
  | reference hkind => cases hwritten
  | @leaf event node hopens hspan hchildren =>
      change node.span.start ∈ [event].flatMap Event.marks ∧
        node.span.stop ∈ [event].flatMap Event.marks
      rw [hspan, List.flatMap_singleton]
      exact ⟨event.start_mem_marks, Event.stop_mem_marks hopens⟩
  | @collection opening closing inside node hopens hcloses hspan hchildren hinside =>
      rw [marks_collection]
      change node.span.start ∈ _ ∧ node.span.stop ∈ _
      rw [hspan]
      constructor
      · exact List.mem_append_left _ opening.start_mem_marks
      · exact List.mem_append_right _ (List.mem_append_right _ (Event.stop_mem_marks hcloses))

theorem Valid.inside {outer inner : Place} (h : outer.Valid nodes)
    (hmem : inner ∈ outer.inside) : inner.Valid nodes := by
  cases h with
  | reference | leaf => cases hmem
  | collection hopens hcloses hspan hchildren hinside => exact hinside inner hmem

theorem Valid.within {outer inner : Place} (h : outer.Valid nodes) (hwithin : inner.Within outer) :
    inner.Valid nodes := by
  induction hwithin using Relation.ReflTransGen.head_induction_on with
  | refl => exact h
  | head hmem _ ih => exact ih.inside hmem

theorem ordered_inside {outer inner : Place} (h : Mark.Ordered outer.marks)
    (hmem : inner ∈ outer.inside) : Mark.Ordered inner.marks := by
  cases outer with
  | reference | leaf => cases hmem
  | collection opening inside closing node =>
      rw [marks_collection, Mark.ordered_append, Mark.ordered_append] at h
      exact (List.pairwise_flatMap.mp h.2.1.1).1 inner hmem

theorem ordered_within {outer inner : Place} (h : Mark.Ordered outer.marks)
    (hwithin : inner.Within outer) : Mark.Ordered inner.marks := by
  induction hwithin using Relation.ReflTransGen.head_induction_on with
  | refl => exact h
  | head hmem _ ih => exact ordered_inside ih hmem

theorem Valid.start_le_stop {place : Place} (h : place.Valid nodes)
    (hwritten : place.isWritten = true) (hordered : Mark.Ordered place.marks) :
    place.node.span.start ≤ place.node.span.stop := by
  cases h with
  | reference hkind => cases hwritten
  | @leaf event node hopens hspan hchildren =>
      change node.span.start ≤ node.span.stop
      change Mark.Ordered ([event].flatMap Event.marks) at hordered
      rw [List.flatMap_singleton, Event.marks, hopens] at hordered
      rw [hspan]
      exact (Mark.ordered_cons.mp hordered).1 _ (by simp)
  | @collection opening closing inside node hopens hcloses hspan hchildren hinside =>
      change node.span.start ≤ node.span.stop
      rw [marks_collection, Mark.ordered_append] at hordered
      rw [hspan]
      exact hordered.2.2 _ opening.start_mem_marks _
        (List.mem_append_right _ (Event.stop_mem_marks hcloses))

/-- What is written inside a collection lies between its start and its stop. -/
theorem Valid.span_le {outer inner : Place} (h : outer.Valid nodes)
    (hordered : Mark.Ordered outer.marks) (hmem : inner ∈ outer.inside)
    (hwritten : inner.isWritten = true) :
    outer.node.span.start ≤ inner.node.span.start ∧
      inner.node.span.stop ≤ outer.node.span.stop := by
  obtain ⟨hstart, hstop⟩ := (h.inside hmem).span_mem hwritten
  cases h with
  | reference | leaf => cases hmem
  | @collection opening closing inside node hopens hcloses hspan hchildren hinside =>
      have hmarks : ∀ m ∈ inner.marks, m ∈ inside.flatMap marks :=
        fun m hm => List.mem_flatMap.mpr ⟨inner, hmem, hm⟩
      rw [marks_collection, Mark.ordered_append, Mark.ordered_append] at hordered
      obtain ⟨-, ⟨-, -, hclosing⟩, hopening⟩ := hordered
      change node.span.start ≤ _ ∧ _ ≤ node.span.stop
      rw [hspan]
      constructor
      · exact hopening _ opening.start_mem_marks _ (List.mem_append_left _ (hmarks _ hstart))
      · exact hclosing _ (hmarks _ hstop) _ (Event.stop_mem_marks hcloses)

/-- What is written inside a collection is in order. -/
theorem Valid.spans_ordered {outer : Place} (h : outer.Valid nodes)
    (hordered : Mark.Ordered outer.marks) :
    (outer.inside.filter isWritten).Pairwise fun previous next =>
      previous.node.span.stop ≤ next.node.span.start := by
  have hvalid : ∀ place ∈ outer.inside.filter isWritten,
      place.Valid nodes ∧ place.isWritten = true := by
    intro place hplace
    obtain ⟨hmem, hwritten⟩ := List.mem_filter.mp hplace
    exact ⟨h.inside hmem, hwritten⟩
  have hmarks : outer.inside.Pairwise fun previous next =>
      ∀ m ∈ previous.marks, ∀ m' ∈ next.marks, m ≤ m' := by
    cases outer with
    | reference | leaf => exact .nil
    | collection opening inside closing node =>
        rw [marks_collection, Mark.ordered_append, Mark.ordered_append] at hordered
        exact (List.pairwise_flatMap.mp hordered.2.1.1).2
  refine (hmarks.filter isWritten).imp_of_mem fun hprevious hnext hle => ?_
  obtain ⟨hprevious, hwritten⟩ := hvalid _ hprevious
  obtain ⟨hnext, hwritten'⟩ := hvalid _ hnext
  exact hle _ (hprevious.span_mem hwritten).2 _ (hnext.span_mem hwritten').1

theorem isWritten_of_inside {outer inner : Place} (h : inner.Inside outer) :
    outer.isWritten = true := by
  have hmem : ∃ place, place ∈ outer.inside := by
    cases h with
    | single hmem => exact ⟨_, hmem⟩
    | tail _ hmem => exact ⟨_, hmem⟩
  obtain ⟨place, hmem⟩ := hmem
  cases outer with
  | reference => cases hmem
  | leaf | collection => rfl

/-- Everything around a written place reaches at least as far. -/
theorem Valid.span_le_of_inside {outer inner : Place} (h : outer.Valid nodes)
    (hordered : Mark.Ordered outer.marks) (hinside : inner.Inside outer)
    (hwritten : inner.isWritten = true) :
    outer.node.span.start ≤ inner.node.span.start ∧
      inner.node.span.stop ≤ outer.node.span.stop := by
  induction hinside with
  | single hmem => exact h.span_le hordered hmem hwritten
  | @tail middle outer hmiddle hmem ih =>
      have houter := h.span_le hordered hmem (isWritten_of_inside hmiddle)
      have hmiddle := ih (h.inside hmem) (ordered_inside hordered hmem)
      exact ⟨le_trans houter.1 hmiddle.1, le_trans hmiddle.2 houter.2⟩

/-! ### Every node is written somewhere -/

theorem Valid.exists_written {place : Place} (h : place.Valid nodes) {node : Node}
    (hnode : node ∈ place.written) :
    ∃ inner : Place, inner.Within place ∧ inner.isWritten = true ∧ inner.node = node := by
  induction h with
  | reference hkind _ => cases hnode
  | @leaf event node' hopens hspan hchildren =>
      cases List.mem_singleton.mp hnode
      exact ⟨_, .refl, rfl, rfl⟩
  | @collection opening closing inside node' hopens hcloses hspan hchildren hinside ih =>
      rw [written_collection] at hnode
      rcases List.mem_append.mp hnode with hnode | hnode
      · obtain ⟨place, hmem, hnode⟩ := List.mem_flatMap.mp hnode
        obtain ⟨inner, hwithin, hwritten⟩ := ih place hmem hnode
        exact ⟨inner, hwithin.tail hmem, hwritten⟩
      · cases List.mem_singleton.mp hnode
        exact ⟨_, .refl, rfl, rfl⟩

theorem Valid.map_node_inside {place : Place} (h : place.Valid nodes)
    (hwritten : place.isWritten = true) : place.inside.map Place.node = place.node.children := by
  cases h with
  | reference => cases hwritten
  | leaf hopens hspan hchildren => exact hchildren.symm
  | collection hopens hcloses hspan hchildren hinside => exact hchildren

theorem Valid.isWritten {place : Place} (h : place.Valid place.written) :
    place.isWritten = true := by
  cases place with
  | reference event node =>
      cases h with
      | reference hkind hnode => cases hnode
  | leaf | collection => rfl

/-- Every node of a document is written in one of its places. -/
theorem Valid.exists_of_below {place : Place} (h : place.Valid place.written) {node : Node}
    (hbelow : node = place.node ∨ node.Below place.node) :
    ∃ inner : Place, inner.Within place ∧ inner.isWritten = true ∧ inner.node = node := by
  rcases hbelow with rfl | hbelow
  · exact ⟨place, .refl, h.isWritten, rfl⟩
  · -- A child of a written node is written there or, if it is referred to, somewhere else.
    have hstep : ∀ {outer : Place} {child : Node}, outer.Within place →
        outer.isWritten = true → child ∈ outer.node.children →
        ∃ inner : Place, inner.Within place ∧ inner.isWritten = true ∧ inner.node = child := by
      intro outer child hwithin hwritten hchild
      have houter := h.within hwithin
      rw [← houter.map_node_inside hwritten] at hchild
      obtain ⟨inner, hmem, rfl⟩ := List.mem_map.mp hchild
      have hinner := houter.inside hmem
      cases inner with
      | reference event node =>
          cases hinner with
          | reference hkind hnode => exact h.exists_written hnode
      | leaf | collection => exact ⟨_, hwithin.head hmem, rfl, rfl⟩
    induction hbelow using Relation.TransGen.head_induction_on with
    | single hchild => exact hstep .refl h.isWritten hchild
    | head hchild _ ih =>
        obtain ⟨outer, hwithin, hwritten, rfl⟩ := ih
        exact hstep hwithin hwritten hchild

end Place

/-- The place of the root of a text, with marks in order. -/
theorem Node.ofText_place {text : List Char} {root : Node}
    (h : ofEvents (Event.ofText text) = .ok (some root)) :
    ∃ (place : Place) (first opening closing : Event) (rest : List Event),
      place.Valid place.written ∧ place.node = root ∧
      (Event.ofText text).items = first :: opening :: (place.events ++ closing :: rest) ∧
      place.written.map Node.id = List.range place.written.length ∧
      Mark.Ordered place.marks := by
  obtain ⟨place, first, opening, closing, rest, hvalid, hnode, hitems, hids⟩ := ofEvents_place h
  have hordered := Event.ofText_ordered text
  rw [hitems] at hordered
  simp only [List.flatMap_cons, List.flatMap_append, Mark.ordered_append] at hordered
  exact ⟨place, first, opening, closing, rest, hvalid, hnode, hitems, hids, hordered.2.1.2.1.1⟩

/-- The spans of the nodes of every text that can be composed. The root stands in a place that takes
up the events of the document, and every node is written somewhere inside. Whatever is written
inside a collection lies between the start and the stop of that collection, what is written later
starts where the earlier stops or behind that, and a cursor on a node is on all collections that the
node is written in. -/
theorem Node.ofText_nesting {text : List Char} {root : Node}
    (h : ofEvents (Event.ofText text) = .ok (some root)) :
    ∃ (place : Place) (first opening closing : Event) (rest : List Event),
      place.Valid place.written ∧ place.node = root ∧
      (Event.ofText text).items = first :: opening :: (place.events ++ closing :: rest) ∧
      (∀ node, node = root ∨ node.Below root →
        ∃ inner : Place, inner.Within place ∧ inner.isWritten = true ∧ inner.node = node) ∧
      ∀ outer : Place, outer.Within place →
        (∀ inner ∈ outer.inside, inner.isWritten = true →
          outer.node.span.start.index ≤ inner.node.span.start.index ∧
          inner.node.span.start.index ≤ inner.node.span.stop.index ∧
          inner.node.span.stop.index ≤ outer.node.span.stop.index) ∧
        ((outer.inside.filter Place.isWritten).Pairwise fun previous next =>
          previous.node.span.stop.index ≤ next.node.span.start.index) ∧
        ∀ (inner : Place) (cursor : Cursor), inner.Inside outer → inner.isWritten = true →
          inner.node.span.contains cursor = true → outer.node.span.contains cursor = true := by
  obtain ⟨place, first, opening, closing, rest, hvalid, hnode, hitems, -, hordered⟩ :=
    ofText_place h
  refine ⟨place, first, opening, closing, rest, hvalid, hnode, hitems, fun node hbelow => ?_,
    fun outer hwithin => ?_⟩
  · rw [← hnode] at hbelow
    exact hvalid.exists_of_below hbelow
  have houter := hvalid.within hwithin
  have hmarks := Place.ordered_within hordered hwithin
  refine ⟨fun inner hmem hwritten => ?_, ?_, fun inner cursor hinside hwritten hcursor => ?_⟩
  · obtain ⟨hstart, hstop⟩ := houter.span_le hmarks hmem hwritten
    have hle := (houter.inside hmem).start_le_stop hwritten (Place.ordered_inside hmarks hmem)
    exact ⟨hstart.1, hle.1, hstop.1⟩
  · exact (houter.spans_ordered hmarks).imp fun hle => hle.1
  · obtain ⟨hstart, hstop⟩ := houter.span_le_of_inside hmarks hinside hwritten
    exact Span.contains_mono hstart hstop hcursor

/-- An anchored mapping that is referred to behind: the sequence has it in two places. -/
theorem Node.ofText_nesting_alias :
    ∃ (root : Node) (place : Place),
      ofEvents (Event.ofText "[&x {b: c}, *x]".toList) = .ok (some root) ∧ place.node = root ∧
      (∀ inner ∈ place.inside, inner.isWritten = true →
        root.span.start.index ≤ inner.node.span.start.index ∧
        inner.node.span.stop.index ≤ root.span.stop.index) ∧
      ∀ (inner : Place) (cursor : Cursor), inner.Inside place → inner.isWritten = true →
        inner.node.span.contains cursor = true → root.span.contains cursor = true := by
  obtain ⟨root, h, -⟩ := exists_some_of_any
    (x := ofEvents (Event.ofText "[&x {b: c}, *x]".toList)) (p := fun _ => true)
    (by decide +kernel)
  obtain ⟨place, -, -, -, -, -, hnode, -, -, hnested⟩ := ofText_nesting h
  obtain ⟨hspans, -, hcursor⟩ := hnested place .refl
  rw [hnode] at hspans hcursor
  exact ⟨root, place, h, hnode, fun inner hmem hwritten =>
    ⟨(hspans inner hmem hwritten).1, (hspans inner hmem hwritten).2.2⟩, hcursor⟩

end Playbook
