import Playbook.Proofs.AnchorScope
import Playbook.Proofs.ComposedValue
import Playbook.Proofs.Place

/-!
Composing a node whose events belong to the grammar. The composer keeps the nodes that are complete
and the collections that are open, both by their anchors; so it stops at the first event that gives
an anchor again or refers to a node that is not complete, and at no other. If there is none, then
the node has the shape of its events.
-/

namespace Playbook

open Event

theorem Tag.uri_ofUri (uri : String) : (ofUri uri).uri = uri := by
  unfold ofUri
  cases hfound : core.find? (·.uri == uri) with
  | none => rfl
  | some tag => simpa using List.find?_some hfound

/-- The tag is the given one unless that is a lone exclamation mark, and otherwise the default. -/
def Tag.Given (given : Option String) (default tag : Tag) : Prop :=
  if given = none ∨ given = some "!" then tag = default else given = some tag.uri

theorem Composition.tagOr_given (props : Properties) (default : Tag) :
    Tag.Given props.tag default (tagOr props default) := by
  unfold Tag.Given tagOr
  cases htag : props.tag with
  | none => simp
  | some uri =>
      by_cases huri : uri = "!"
      · simp [huri]
      · simp [huri, Tag.uri_ofUri]

namespace Place

mutual

/-- The nodes that are written in a place and have an anchor, in the order in which they are
complete. -/
def anchored : Place → List (String × Node)
  | reference .. => []
  | leaf event node => (event.kind.anchor?.map fun name => (name, node)).toList
  | collection opening inside _ node =>
      anchoredIn inside ++ (opening.kind.anchor?.map fun name => (name, node)).toList

def anchoredIn : List Place → List (String × Node)
  | [] => []
  | place :: rest => place.anchored ++ anchoredIn rest

end

theorem anchoredIn_eq (places : List Place) : anchoredIn places = places.flatMap anchored := by
  induction places with
  | nil => rfl
  | cons place rest ih => rw [anchoredIn, ih, List.flatMap_cons]

theorem anchored_collection (opening : Event) (inside : List Place) (closing : Event)
    (node : Node) :
    (collection opening inside closing node).anchored = inside.flatMap anchored ++
      (opening.kind.anchor?.map fun name => (name, node)).toList := by
  rw [anchored, anchoredIn_eq]

/-- The node of a place is what its events say: it has their text and style, or the nodes inside in
their order, their tag, and the span from the start of the first to the stop of the last. A
reference has the very node that its name is given to by `named`. -/
inductive Composed (named : List (String × Node)) : Place → Prop
  | reference {event : Event} {node : Node} {name : String} (hkind : event.kind = .aliasOf name)
      (hnode : (name, node) ∈ named) : Composed named (reference event node)
  | leaf {event : Event} {node : Node} {props : Properties} {implicit : Bool} {text : String}
      {style : Style} (hkind : event.kind = .scalar props implicit text style)
      (hnode : node = .scalar node.head text style)
      (htag : Tag.Given props.tag (.ofScalar text implicit) node.tag)
      (hspan : node.span = ⟨event.start, event.stop⟩) : Composed named (leaf event node)
  | sequence {opening closing : Event} {inside : List Place} {node : Node} {props : Properties}
      {flow : Bool} (hopening : opening.kind = .sequenceStart props flow)
      (hclosing : closing.kind = .sequenceEnd)
      (hnode : node = .sequence node.head (inside.map Place.node))
      (htag : Tag.Given props.tag .seq node.tag)
      (hspan : node.span = ⟨opening.start, closing.stop⟩)
      (hinside : ∀ place ∈ inside, Composed named place) :
      Composed named (collection opening inside closing node)
  | mapping {opening closing : Event} {inside : List Place} {node : Node} {props : Properties}
      {flow : Bool} {pairs : Node.Pairs} (hopening : opening.kind = .mappingStart props flow)
      (hclosing : closing.kind = .mappingEnd)
      (hnode : node = .mapping node.head pairs)
      (hpairs : pairs.flatMap (fun pair => [pair.1, pair.2]) = inside.map Place.node)
      (htag : Tag.Given props.tag .map node.tag)
      (hspan : node.span = ⟨opening.start, closing.stop⟩)
      (hinside : ∀ place ∈ inside, Composed named place) :
      Composed named (collection opening inside closing node)

theorem Composed.mono {named named' : List (String × Node)} {place : Place}
    (h : place.Composed named) (hnamed : named ⊆ named') : place.Composed named' := by
  induction h with
  | reference hkind hnode => exact .reference hkind (hnamed hnode)
  | leaf hkind hnode htag hspan => exact .leaf hkind hnode htag hspan
  | sequence hopening hclosing hnode htag hspan _ ih =>
      exact .sequence hopening hclosing hnode htag hspan ih
  | mapping hopening hclosing hnode hpairs htag hspan _ ih =>
      exact .mapping hopening hclosing hnode hpairs htag hspan ih

end Place

namespace Composition

/-- What the composer knows of the anchors in the events that it has read. -/
structure Knows (word : List Event) (c : Composition) : Prop where
  marks : ∀ name, c.anchorMark? name = (giver? word name).map Event.start
  complete : ∀ name node, c.anchors.lookup name = some node → HoldsNode word name
  unfinished : ∀ name mark, c.openAnchors.lookup name = some mark → OpenNode word name

variable {c : Composition} {word : List Event} {event : Event} {name : String}

theorem anchorMark?_eq (c : Composition) (name : String) :
    c.anchorMark? name =
      ((c.anchors.lookup name).map Node.start).or (c.openAnchors.lookup name) := by
  unfold anchorMark?
  cases c.anchors.lookup name <;> rfl

theorem Knows.frames (h : c.Knows word) (frames : List Frame) : { c with frames }.Knows word :=
  ⟨h.marks, h.complete, h.unfinished⟩

theorem knows_empty : empty.Knows [] :=
  ⟨fun _ => rfl, nofun, nofun⟩

/-- A node that the composer cannot find by its anchor is not complete. -/
theorem Knows.not_holdsNode (h : c.Knows word) (hlookup : c.anchors.lookup name = none) :
    ¬ HoldsNode word name := by
  intro hnode
  have ⟨before, opening, inside, after, hword, _, hanchor⟩ := hnode
  have hgiven : giver? word name ≠ none := fun hnone =>
    giver?_eq_none.mp hnone opening (by simp [hword]) hanchor
  have hmark := h.marks name
  obtain ⟨giver, hgiver⟩ := Option.ne_none_iff_exists'.mp hgiven
  rw [anchorMark?_eq, hlookup, hgiver, Option.map_none, Option.none_or, Option.map_some] at hmark
  exact (h.unfinished name _ hmark).not_holdsNode hnode

/-- An anchor is checked against all that were given before. -/
theorem Knows.checkAnchor (h : c.Knows word) (event : Event)
    (hkind : ∀ name, event.kind ≠ .aliasOf name) :
    (c.checkAnchor event.kind.anchor? event.start = .ok () ∧ Accepted word [event]) ∨
      ∃ d, c.checkAnchor event.kind.anchor? event.start = .error d ∧ Refused word event d := by
  unfold Composition.checkAnchor
  cases hanchor : event.kind.anchor? with
  | none =>
      refine Or.inl ⟨rfl, accepted_singleton fun d hrefused => ?_⟩
      cases hrefused with
      | undefined halias _ => exact hkind _ halias
      | twice htwice _ => simp [hanchor] at htwice
  | some name =>
      dsimp only
      rw [h.marks name]
      cases hgiver : giver? word name with
      | none =>
          refine Or.inl ⟨rfl, accepted_singleton fun d hrefused => ?_⟩
          cases hrefused with
          | undefined halias _ => exact hkind _ halias
          | twice htwice hfirst =>
              rw [hanchor] at htwice
              cases htwice
              rw [hgiver] at hfirst
              cases hfirst
      | some first => exact Or.inr ⟨_, rfl, .twice hanchor hgiver⟩

/-! ### Opening and completing a node -/

theorem lookup_named (anchor : Option String) (start : Mark) (marks : List (String × Mark))
    (name : String) :
    List.lookup name ((anchor.map fun given => (given, start)).toList ++ marks) =
      if anchor = some name then some start else marks.lookup name := by
  cases anchor with
  | none => rfl
  | some given =>
      by_cases hgiven : given = name
      · simp [hgiven]
      · have hne : (name == given) = false := by simpa using Ne.symm hgiven
        simp [hgiven, List.lookup_cons, hne]

/-- The composition once a collection is open. -/
def opened (c : Composition) (event : Event) (frame : Frame) : Composition :=
  { c with
    frames := frame :: c.frames
    openAnchors :=
      (event.kind.anchor?.map fun name => (name, event.start)).toList ++ c.openAnchors }

theorem Knows.opened (h : c.Knows word) (haccepted : Accepted word [event])
    (hrise : event.kind.rise = 1) (frame : Frame) :
    (c.opened event frame).Knows (word ++ [event]) := by
  have hinner : Inner [event] := by
    intro u v huv
    rcases List.singleton_eq_append_iff.mp huv with ⟨rfl, -⟩ | ⟨rfl, -⟩
    · exact le_refl _
    · simp [hrise]
  have hnew : ∀ name, event.kind.anchor? = some name → giver? word name = none := by
    intro name hanchor
    by_contra hgiven
    exact haccepted.anchor_ne hgiven event (by simp) hanchor
  refine ⟨fun name => ?_, fun name node hlookup => (h.complete name node hlookup).append _,
    fun name mark hlookup => ?_⟩
  · have hmark := h.marks name
    rw [anchorMark?_eq] at hmark ⊢
    rw [Composition.opened, lookup_named, giver?_append, giver?_singleton]
    by_cases hanchor : event.kind.anchor? = some name
    · rw [hnew name hanchor, Option.map_none, Option.or_eq_none_iff] at hmark
      rw [if_pos hanchor, if_pos hanchor, hnew name hanchor, hmark.1]
      rfl
    · rw [if_neg hanchor, if_neg hanchor, Option.or_none]
      exact hmark
  · rw [Composition.opened, lookup_named] at hlookup
    by_cases hanchor : event.kind.anchor? = some name
    · -- Only the last event gives the anchor, and it has just opened its node.
      intro before opening after hsplit hopening
      rcases List.append_eq_append_iff.mp hsplit with ⟨w, -, hw⟩ | ⟨w, hw, hafter⟩
      · rcases List.singleton_eq_append_iff.mp hw with ⟨-, hw⟩ | ⟨-, hw⟩
        · obtain ⟨rfl, rfl⟩ := List.cons.inj hw
          exact ⟨hrise, inner_nil⟩
        · cases hw
      · cases w with
        | nil =>
            obtain ⟨rfl, rfl⟩ := List.cons.inj hafter
            exact ⟨hrise, inner_nil⟩
        | cons first w =>
            obtain ⟨rfl, -⟩ := List.cons.inj hafter
            exact absurd hopening (giver?_eq_none.mp (hnew name hanchor) opening (by simp [hw]))
    · rw [if_neg hanchor] at hlookup
      refine (h.unfinished name mark hlookup).append hinner ?_
      simpa using hanchor

/-- The composition once a node is complete, before the collection around it gets the node. -/
def completed (c : Composition) (props : Properties) (node : Node) : Composition :=
  { c with
    count := c.count + 1
    anchors := (props.anchor.map fun name => (name, node)).toList ++ c.anchors
    openAnchors := c.openAnchors.filter fun entry => props.anchor != some entry.1 }

theorem finish_eq (c : Composition) (props : Properties) (node : Node) :
    c.finish props node = (c.completed props node).attach node := by
  unfold finish completed
  cases props.anchor with
  | none =>
      have hfilter : (c.openAnchors.filter fun entry => none != some entry.1) = c.openAnchors :=
        List.filter_eq_self.mpr fun entry _ => rfl
      rw [hfilter]
      rfl
  | some name =>
      have hfilter : (c.openAnchors.filter fun entry => some name != some entry.1) =
          c.openAnchors.filter (·.1 != name) := by
        refine List.filter_congr fun entry _ => ?_
        simp [bne, eq_comm]
      rw [hfilter]
      rfl

/-- None of the open collections has an anchor that is new. -/
theorem Knows.filter_openAnchors (h : c.Knows word) {anchor : Option String}
    (hnew : ∀ name, anchor = some name → giver? word name = none) :
    (c.openAnchors.filter fun entry => anchor != some entry.1) = c.openAnchors := by
  refine List.filter_eq_self.mpr fun entry hentry => ?_
  by_contra hsame
  have hanchor : anchor = some entry.1 := by simpa using hsame
  have hmark := h.marks entry.1
  rw [hnew _ hanchor, Option.map_none, anchorMark?_eq, Option.or_eq_none_iff] at hmark
  have hne := List.lookup_eq_none_iff.mp hmark.2 entry hentry
  simp at hne

/-- A node is complete whose first event is accepted here. `c₂` is what the composer knew before its
last event. -/
theorem Knows.completed {c₂ : Composition} {opening : Event} {inside : List Event}
    {props : Properties} {node : Node} (h : c.Knows word)
    (hderives : Phrase.node.Derives (opening :: inside))
    (haccepted : Accepted word (opening :: inside)) (hanchor : opening.kind.anchor? = props.anchor)
    (hstart : node.start = opening.start)
    (hcomplete : ∀ name node, c₂.anchors.lookup name = some node →
      HoldsNode (word ++ opening :: inside) name)
    (hopen : (c₂.openAnchors.filter fun entry => props.anchor != some entry.1) = c.openAnchors)
    (hlookup : ∀ name, props.anchor ≠ some name →
      c₂.openAnchors.lookup name = c.openAnchors.lookup name)
    (hmarks : ∀ name, props.anchor ≠ some name →
      c₂.anchorMark? name = (giver? (word ++ opening :: inside) name).map Event.start) :
    (c₂.completed props node).Knows (word ++ opening :: inside) := by
  have hnamed : ∀ name, (c₂.completed props node).anchors.lookup name =
      if props.anchor = some name then some node else c₂.anchors.lookup name := by
    intro name
    change List.lookup name (_ ++ _) = _
    cases props.anchor with
    | none => rfl
    | some given =>
        by_cases hgiven : given = name
        · simp [hgiven]
        · have hne : (name == given) = false := by simpa using Ne.symm hgiven
          simp [hgiven, List.lookup_cons, hne]
  refine ⟨fun name => ?_, fun name node' hfound => ?_, fun name mark hfound => ?_⟩
  · rw [anchorMark?_eq, hnamed]
    by_cases hname : props.anchor = some name
    · have hnew : giver? word name = none := by
        by_contra hgiven
        exact haccepted.anchor_ne hgiven opening (by simp) (hanchor.trans hname)
      have hfirst : giver? (opening :: inside) name = some opening := by
        simp [giver?, hanchor, hname]
      rw [if_pos hname, giver?_append, hnew, Option.none_or, hfirst, Option.map_some,
        Option.map_some, Option.some_or, hstart]
    · rw [if_neg hname, ← hmarks name hname, anchorMark?_eq, hlookup name hname, ← hopen]
      rfl
  · rw [hnamed] at hfound
    split_ifs at hfound with hname
    · exact ⟨word, opening, inside, [], by simp, hderives, hanchor.trans hname⟩
    · exact hcomplete name node' hfound
  · change List.lookup name (c₂.openAnchors.filter _) = some mark at hfound
    rw [hopen] at hfound
    -- Nodes that are still open were begun before this one, which is all inside of them.
    have hgiven : giver? word name ≠ none := by
      intro hnone
      have hmark := h.marks name
      rw [hnone, Option.map_none, anchorMark?_eq, Option.or_eq_none_iff, hfound] at hmark
      cases hmark.2
    refine (h.unfinished name mark hfound).append ?_ (haccepted.anchor_ne hgiven)
    exact (hderives.depth_inner (by simp) (by simp)).2

/-! ### Composing a word of the grammar -/

/-- The events of `word` were composed behind those of `before`, and are those of the places. -/
structure Built (before word : List Event) (c c' : Composition) (places : List Place) : Prop where
  events : places.flatMap Place.events = word
  composed : ∀ place ∈ places, place.Composed c'.anchors
  anchors : c'.anchors = (places.flatMap Place.anchored).reverse ++ c.anchors
  openAnchors : c'.openAnchors = c.openAnchors
  numbers : (places.flatMap Place.written).map Node.id =
    List.range' c.count (places.flatMap Place.written).length
  count : c'.count = c.count + (places.flatMap Place.written).length
  knows : c'.Knows (before ++ word)
  accepted : Accepted before word

theorem built_nil {before : List Event} (h : c.Knows before) : Built before [] c c [] :=
  ⟨rfl, by simp, rfl, rfl, rfl, rfl, by simpa using h, accepted_nil before⟩

theorem Built.append {before word' : List Event} {c₁ c₂ : Composition}
    {places places' : List Place} (h : Built before word c c₁ places)
    (h' : Built (before ++ word) word' c₁ c₂ places') :
    Built before (word ++ word') c c₂ (places ++ places') := by
  refine ⟨?_, fun place hplace => ?_, ?_, h'.openAnchors.trans h.openAnchors, ?_, ?_, ?_,
    h.accepted.append h'.accepted⟩
  · rw [List.flatMap_append, h.events, h'.events]
  · rcases List.mem_append.mp hplace with hplace | hplace
    · refine (h.composed place hplace).mono ?_
      rw [h'.anchors]
      exact List.subset_append_right _ _
    · exact h'.composed place hplace
  · rw [h'.anchors, h.anchors, List.flatMap_append, List.reverse_append, List.append_assoc]
  · rw [List.flatMap_append, List.map_append, h.numbers, h'.numbers, h.count, List.length_append,
      List.range'_append_1]
  · rw [h'.count, h.count, List.flatMap_append, List.length_append, Nat.add_assoc]
  · rw [← List.append_assoc]
    exact h'.knows

/-- What is built does not depend on the open collections. -/
theorem Built.frames {before : List Event} {c' : Composition} {places : List Place}
    (h : Built before word c c' places) (frames frames' : List Frame) :
    Built before word { c with frames } { c' with frames := frames' } places :=
  ⟨h.events, h.composed, h.anchors, h.openAnchors, h.numbers, h.count,
    h.knows.frames frames', h.accepted⟩

theorem built_reference {node : Node} {before : List Event} (start stop : Mark)
    (h : c.Knows before) (hlookup : c.anchors.lookup name = some node) :
    Built before [⟨.aliasOf name, start, stop⟩] c c
      [.reference ⟨.aliasOf name, start, stop⟩ node] := by
  have hderives : Phrase.node.Derives [⟨.aliasOf name, start, stop⟩] := .aliasOf name start stop
  have haccepted : Accepted before [⟨.aliasOf name, start, stop⟩] := by
    refine accepted_singleton fun d hrefused => ?_
    cases hrefused with
    | undefined hkind hnode =>
        cases hkind
        exact hnode (h.complete name node hlookup)
    | twice hanchor _ => cases hanchor
  refine ⟨rfl, ?_, rfl, rfl, rfl, rfl, ⟨fun name' => ?_, fun name' node' hfound => ?_,
    fun name' mark hfound => ?_⟩, haccepted⟩
  · exact List.forall_mem_singleton.mpr (.reference rfl (mem_of_lookup hlookup))
  · rw [h.marks, giver?_append, giver?_singleton]
    simp [EventKind.anchor?]
  · exact (h.complete name' node' hfound).append _
  · refine (h.unfinished name' mark hfound).append ?_ (by simp [EventKind.anchor?])
    exact (hderives.depth_inner (by simp) (by simp)).2

/-- A node that has just been completed, as one place more. `written` are the nodes inside. -/
theorem Built.complete {before : List Event} {c₂ : Composition} {opening : Event}
    {inside : List Event} {props : Properties} {node : Node} {place : Place}
    (hknows : (c₂.completed props node).Knows (before ++ opening :: inside))
    (haccepted : Accepted before (opening :: inside))
    (hevents : place.events = opening :: inside)
    (hcomposed : place.Composed (c₂.completed props node).anchors)
    (named : List (String × Node)) (written : List Node)
    (hnamed : place.anchored = named ++ (props.anchor.map fun name => (name, node)).toList)
    (hanchors : c₂.anchors = named.reverse ++ c.anchors)
    (hopen : (c₂.openAnchors.filter fun entry => props.anchor != some entry.1) = c.openAnchors)
    (hwritten : place.written = written ++ [node])
    (hnumbers : written.map Node.id = List.range' c.count written.length)
    (hcount : c₂.count = c.count + written.length) (hid : node.id = c₂.count) :
    Built before (opening :: inside) c (c₂.completed props node) [place] := by
  refine ⟨by simpa using hevents, List.forall_mem_singleton.mpr hcomposed, ?_, hopen, ?_, ?_,
    hknows, haccepted⟩
  · change _ ++ c₂.anchors = _
    rw [List.flatMap_singleton, hnamed, hanchors, List.reverse_append, List.append_assoc]
    cases props.anchor <;> rfl
  · rw [List.flatMap_singleton, hwritten, List.map_append, hnumbers, List.length_append,
      List.length_singleton, List.range'_1_concat, List.map_singleton, hid, hcount]
  · change c₂.count + 1 = _
    rw [List.flatMap_singleton, hwritten, List.length_append, List.length_singleton, hcount,
      Nat.add_assoc]

/-- The node of a scalar, when it is the next one to be complete. -/
def scalarNode (c : Composition) (props : Properties) (implicit : Bool) (text : String)
    (style : Style) (start stop : Mark) : Node :=
  .scalar ⟨c.count, tagOr props (.ofScalar text implicit), start, stop⟩ text style

theorem built_scalar {before : List Event} (props : Properties) (implicit : Bool) (text : String)
    (style : Style) (start stop : Mark) (h : c.Knows before)
    (haccepted : Accepted before [⟨.scalar props implicit text style, start, stop⟩]) :
    Built before [⟨.scalar props implicit text style, start, stop⟩] c
      (c.completed props (c.scalarNode props implicit text style start stop))
      [.leaf ⟨.scalar props implicit text style, start, stop⟩
        (c.scalarNode props implicit text style start stop)] := by
  have hopen := h.filter_openAnchors haccepted.anchor_new
  have hknows : (c.completed props (c.scalarNode props implicit text style start stop)).Knows
      (before ++ [⟨.scalar props implicit text style, start, stop⟩]) := by
    refine h.completed (.scalar props implicit text style start stop) haccepted rfl rfl
      (fun name node hfound => (h.complete name node hfound).append _) hopen (fun _ _ => rfl) ?_
    intro name hname
    have hother : (EventKind.scalar props implicit text style).anchor? ≠ some name := hname
    rw [h.marks, giver?_append, giver?_singleton, if_neg hother, Option.or_none]
  exact .complete hknows haccepted rfl
    (.leaf rfl rfl (tagOr_given props _) rfl) [] [] rfl rfl hopen rfl rfl rfl rfl

/-- A collection is complete: its opening, what is built behind that, and its closing. -/
theorem Built.close {before body : List Event} {opening closing : Event} {c₂ : Composition}
    {places : List Place} {props : Properties} {node : Node} {frame : Frame}
    (h : c.Knows before) (haccepted : Accepted before [opening])
    (hbody : Built (before ++ [opening]) body (c.opened opening frame) c₂ places)
    (hderives : Phrase.node.Derives (opening :: (body ++ [closing])))
    (hanchor : opening.kind.anchor? = props.anchor)
    (hclosing : closing.kind = .sequenceEnd ∨ closing.kind = .mappingEnd)
    (hid : node.id = c₂.count) (hstart : node.start = opening.start)
    (hcomposed : (Place.collection opening places closing node).Composed
      (c₂.completed props node).anchors) :
    Built before (opening :: (body ++ [closing])) c (c₂.completed props node)
      [.collection opening places closing node] := by
  have hnone : closing.kind.anchor? = none := by
    rcases hclosing with hkind | hkind <;> simp [hkind, EventKind.anchor?]
  have hall : Accepted before (opening :: (body ++ [closing])) := by
    rw [← List.singleton_append, ← List.append_assoc]
    refine (haccepted.append hbody.accepted).append (accepted_singleton fun d hrefused => ?_)
    cases hrefused with
    | undefined hkind _ => rcases hclosing with hkind' | hkind' <;> simp [hkind'] at hkind
    | twice htwice _ => simp [hnone] at htwice
  have hword : before ++ opening :: (body ++ [closing]) =
      (before ++ [opening] ++ body) ++ [closing] := by
    simp
  have hnew : ∀ name, props.anchor = some name → giver? before name = none :=
    fun name hname => hall.anchor_new name (hanchor.trans hname)
  have hopened : c₂.openAnchors =
      (props.anchor.map fun name => (name, opening.start)).toList ++ c.openAnchors := by
    rw [hbody.openAnchors, ← hanchor]
    rfl
  -- The anchor of the collection is no longer open, and no other one has its name.
  have hopen : (c₂.openAnchors.filter fun entry => props.anchor != some entry.1) =
      c.openAnchors := by
    rw [hopened, List.filter_append, h.filter_openAnchors hnew]
    cases props.anchor <;> simp
  have hknows : (c₂.completed props node).Knows (before ++ opening :: (body ++ [closing])) := by
    refine h.completed hderives hall hanchor hstart (fun name node' hfound => ?_) hopen
      (fun name hname => ?_) fun name _ => ?_
    · rw [hword]
      exact (hbody.knows.complete name node' hfound).append _
    · rw [hopened, lookup_named, if_neg hname]
    · rw [hword, giver?_append, giver?_singleton, if_neg (by simp [hnone]), Option.or_none]
      exact hbody.knows.marks name
  refine .complete hknows hall ?_ hcomposed (places.flatMap Place.anchored)
    (places.flatMap Place.written) ?_ hbody.anchors hopen (Place.written_collection ..)
    hbody.numbers hbody.count hid
  · rw [Place.events_collection, hbody.events]
  · rw [Place.anchored_collection, hanchor]

theorem subset_completed (c : Composition) (props : Properties) (node : Node) :
    c.anchors ⊆ (c.completed props node).anchors :=
  List.subset_append_right _ _

/-- Whatever was read before, the composer reads the events of one node and gives the node to the
collection around it, or stops at the first of them that is refused. -/
def ComposesNode (word : List Event) : Prop :=
  ∀ (c : Composition) (before : List Event) (feed : Feed Event), c.Knows before →
    (∃ c' place, Built before word c c' [place] ∧ c'.frames = c.frames ∧
      ∀ rest, Node.compose c feed (word ++ rest) =
        Node.proceed feed rest (c'.attach place.node)) ∨
    ∃ d, RefusedFirst before word d ∧ ∀ rest, Node.compose c feed (word ++ rest) = .error d

/-- The same for items of an open sequence. -/
def ComposesItems (word : List Event) : Prop :=
  ∀ (c : Composition) (before : List Event) (feed : Feed Event) (props : Properties)
    (start : Mark) (items : List Node) (frames : List Frame), c.Knows before →
    c.frames = .sequence props start items :: frames →
    (∃ c' places, Built before word c c' places ∧
      c'.frames = .sequence props start ((places.map Place.node).reverse ++ items) :: frames ∧
      ∀ rest, Node.compose c feed (word ++ rest) = Node.compose c' feed rest) ∨
    ∃ d, RefusedFirst before word d ∧ ∀ rest, Node.compose c feed (word ++ rest) = .error d

/-- The same for pairs of an open mapping. -/
def ComposesPairs (word : List Event) : Prop :=
  ∀ (c : Composition) (before : List Event) (feed : Feed Event) (props : Properties)
    (start : Mark) (pairs : Node.Pairs) (frames : List Frame), c.Knows before →
    c.frames = .mapping props start pairs none :: frames →
    (∃ (c' : Composition) (places : List Place) (pairs' : Node.Pairs),
      Built before word c c' places ∧
      pairs'.flatMap (fun pair => [pair.1, pair.2]) = places.map Place.node ∧
      c'.frames = .mapping props start (pairs'.reverse ++ pairs) none :: frames ∧
      ∀ rest, Node.compose c feed (word ++ rest) = Node.compose c' feed rest) ∨
    ∃ d, RefusedFirst before word d ∧ ∀ rest, Node.compose c feed (word ++ rest) = .error d

def Composes : Phrase → List Event → Prop
  | .node => ComposesNode
  | .items => ComposesItems
  | .pairs => ComposesPairs
  | _ => fun _ => True

theorem compose_of_refusal {feed : Feed Event} {rest : List Event} {d : Diagnostic}
    (hstep : c.step event = .error d) : Node.compose c feed (event :: rest) = .error d := by
  rw [Node.compose, hstep]
  rfl

theorem composes_aliasOf (name : String) (start stop : Mark) :
    ComposesNode [⟨.aliasOf name, start, stop⟩] := by
  intro c before feed h
  cases hlookup : c.anchors.lookup name with
  | some node =>
      have hstep : c.step ⟨.aliasOf name, start, stop⟩ = .ok (c.attach node) := by
        simp only [step, hlookup]
      exact Or.inl ⟨c, _, built_reference start stop h hlookup, rfl, fun rest =>
        Node.compose_of_step hstep⟩
  | none =>
      have hstep : c.step ⟨.aliasOf name, start, stop⟩ =
          .error (.plain .nodes (.undefinedAlias name) start) := by
        simp only [step, hlookup]
      exact Or.inr ⟨_, refusedFirst_singleton (.undefined rfl (h.not_holdsNode hlookup)),
        fun rest => compose_of_refusal hstep⟩

theorem composes_scalar (props : Properties) (implicit : Bool) (text : String) (style : Style)
    (start stop : Mark) : ComposesNode [⟨.scalar props implicit text style, start, stop⟩] := by
  intro c before feed h
  rcases h.checkAnchor ⟨.scalar props implicit text style, start, stop⟩ nofun with
    ⟨hcheck, haccepted⟩ | ⟨d, hcheck, hrefused⟩
  · have hcheck : c.checkAnchor props.anchor start = .ok () := hcheck
    have hstep : c.step ⟨.scalar props implicit text style, start, stop⟩ =
        .ok (c.finish props (c.scalarNode props implicit text style start stop)) := by
      simp only [step, hcheck]
      rfl
    rw [finish_eq] at hstep
    exact Or.inl ⟨_, _, built_scalar props implicit text style start stop h haccepted, rfl,
      fun rest => Node.compose_of_step hstep⟩
  · have hcheck : c.checkAnchor props.anchor start = .error d := hcheck
    have hstep : c.step ⟨.scalar props implicit text style, start, stop⟩ = .error d := by
      simp only [step, hcheck]
      rfl
    exact Or.inr ⟨d, refusedFirst_singleton hrefused, fun rest => compose_of_refusal hstep⟩

theorem composes_noItems : ComposesItems [] := by
  intro c before feed props start items frames h hframes
  exact Or.inl ⟨c, [], built_nil h, hframes, fun _ => rfl⟩

theorem composes_item {head tail : List Event} (hhead : ComposesNode head)
    (htail : ComposesItems tail) : ComposesItems (head ++ tail) := by
  intro c before feed props start items frames h hframes
  rcases hhead c before feed h with ⟨c₁, place, hbuilt, hframes₁, hcompose⟩ |
    ⟨d, hrefused, hcompose⟩
  · let c₁' : Composition :=
      { c₁ with frames := .sequence props start (place.node :: items) :: frames }
    have hattach : c₁.attach place.node = .pending c₁' := attach_sequence (hframes₁.trans hframes)
    rcases htail c₁' (before ++ head) feed props start _ frames (hbuilt.knows.frames _) rfl with
      ⟨c₂, places, hbuilt₂, hframes₂, hcompose₂⟩ | ⟨d, hrefused, hcompose₂⟩
    · refine Or.inl ⟨c₂, place :: places, hbuilt.append (hbuilt₂.frames c₁.frames c₂.frames), ?_,
        fun rest => ?_⟩
      · rw [hframes₂, List.map_cons, List.reverse_cons, List.append_assoc,
          List.singleton_append]
      · rw [List.append_assoc, hcompose, hattach]
        exact hcompose₂ rest
    · refine Or.inr ⟨d, hbuilt.accepted.refusedFirst hrefused, fun rest => ?_⟩
      rw [List.append_assoc, hcompose, hattach]
      exact hcompose₂ rest
  · refine Or.inr ⟨d, hrefused.append_right tail, fun rest => ?_⟩
    rw [List.append_assoc, hcompose]

theorem composes_noPairs : ComposesPairs [] := by
  intro c before feed props start pairs frames h hframes
  exact Or.inl ⟨c, [], [], built_nil h, rfl, hframes, fun _ => rfl⟩

theorem composes_pair {key value tail : List Event} (hkey : ComposesNode key)
    (hvalue : ComposesNode value) (htail : ComposesPairs tail) :
    ComposesPairs (key ++ (value ++ tail)) := by
  intro c before feed props start pairs frames h hframes
  -- Each of the three words may be refused, with all before it composed by then.
  rcases hkey c before feed h with ⟨c₁, place₁, hbuilt₁, hframes₁, hcompose₁⟩ |
    ⟨d, hrefused, hcompose₁⟩
  · let c₁' : Composition :=
      { c₁ with frames := .mapping props start pairs (some place₁.node) :: frames }
    have hattach₁ : c₁.attach place₁.node = .pending c₁' := attach_key (hframes₁.trans hframes)
    rcases hvalue c₁' (before ++ key) feed (hbuilt₁.knows.frames _) with
      ⟨c₂, place₂, hbuilt₂, hframes₂, hcompose₂⟩ | ⟨d, hrefused, hcompose₂⟩
    · let c₂' : Composition :=
        { c₂ with
          frames := .mapping props start ((place₁.node, place₂.node) :: pairs) none :: frames }
      have hattach₂ : c₂.attach place₂.node = .pending c₂' := attach_value hframes₂
      have hboth := hbuilt₁.append (hbuilt₂.frames c₁.frames c₂.frames)
      rcases htail c₂' (before ++ (key ++ value)) feed props start _ frames
          (hboth.knows.frames _) rfl with
        ⟨c₃, places, pairs', hbuilt₃, hpairs, hframes₃, hcompose₃⟩ | ⟨d, hrefused, hcompose₃⟩
      · have hall := hboth.append (hbuilt₃.frames c₂.frames c₃.frames)
        rw [List.append_assoc] at hall
        refine Or.inl ⟨c₃, place₁ :: place₂ :: places, (place₁.node, place₂.node) :: pairs', hall,
          ?_, ?_, fun rest => ?_⟩
        · rw [List.flatMap_cons, hpairs]
          rfl
        · rw [hframes₃, List.reverse_cons, List.append_assoc, List.singleton_append]
        · rw [List.append_assoc, hcompose₁, hattach₁, List.append_assoc]
          refine (hcompose₂ _).trans ?_
          rw [hattach₂]
          exact hcompose₃ rest
      · have hall := hboth.accepted.refusedFirst hrefused
        rw [List.append_assoc] at hall
        refine Or.inr ⟨d, hall, fun rest => ?_⟩
        rw [List.append_assoc, hcompose₁, hattach₁, List.append_assoc]
        refine (hcompose₂ _).trans ?_
        rw [hattach₂]
        exact hcompose₃ rest
    · refine Or.inr ⟨d, hbuilt₁.accepted.refusedFirst (hrefused.append_right tail),
        fun rest => ?_⟩
      rw [List.append_assoc, hcompose₁, hattach₁, List.append_assoc]
      exact hcompose₂ _
  · refine Or.inr ⟨d, hrefused.append_right _, fun rest => ?_⟩
    rw [List.append_assoc, hcompose₁]

/-- The opening of a collection is refused, or the composer goes on inside. -/
theorem opened_or_refused {before : List Event} {props : Properties} (h : c.Knows before)
    (opening : Event) (frame : Frame) (halias : ∀ name, opening.kind ≠ .aliasOf name)
    (hanchor : opening.kind.anchor? = props.anchor)
    (hstep : c.step opening = c.enter props opening.start frame) :
    (Accepted before [opening] ∧ c.step opening = .ok (.pending (c.opened opening frame))) ∨
      ∃ d, Refused before opening d ∧ c.step opening = .error d := by
  rw [hstep, enter, ← hanchor]
  rcases h.checkAnchor opening halias with ⟨hcheck, haccepted⟩ | ⟨d, hcheck, hrefused⟩
  · rw [hcheck]
    exact Or.inl ⟨haccepted, rfl⟩
  · rw [hcheck]
    exact Or.inr ⟨d, hrefused, rfl⟩

/-- A collection around a body. `hbody` says that the body is composed and that the closing event
then makes a node of what is built, or that an event of the body is refused. -/
theorem composes_collection {opening closing : Event} {props : Properties} {frame : Frame}
    {body : List Event} (hderives : Phrase.node.Derives (opening :: (body ++ [closing])))
    (hrise : opening.kind.rise = 1) (hanchor : opening.kind.anchor? = props.anchor)
    (hclosing : closing.kind = .sequenceEnd ∨ closing.kind = .mappingEnd)
    (hopening : ∀ c : Composition, c.step opening = c.enter props opening.start frame)
    (hbody : ∀ (c : Composition) (before : List Event) (feed : Feed Event) (frames : List Frame),
      c.Knows before → c.frames = frame :: frames →
      (∃ c' places node, Built before body c c' places ∧
        c'.step closing = .ok ({ c' with frames }.finish props node) ∧ node.id = c'.count ∧
        node.start = opening.start ∧
        (∀ named, (∀ place ∈ places, place.Composed named) →
          (Place.collection opening places closing node).Composed named) ∧
        ∀ rest, Node.compose c feed (body ++ rest) = Node.compose c' feed rest) ∨
      ∃ d, RefusedFirst before body d ∧ ∀ rest, Node.compose c feed (body ++ rest) = .error d) :
    ComposesNode (opening :: (body ++ [closing])) := by
  intro c before feed h
  have halias : ∀ name, opening.kind ≠ .aliasOf name := by
    intro name hkind
    simp [hkind, EventKind.rise] at hrise
  -- The opening event or the body may be refused, the closing event never is.
  rcases opened_or_refused h opening frame halias hanchor (hopening c) with
    ⟨haccepted, hstep⟩ | ⟨d, hrefused, hstep⟩
  · rcases hbody _ _ feed c.frames (h.opened haccepted hrise frame) rfl with
      ⟨c₂, places, node, hbuilt, hclose, hid, hstart, hplace, hcompose⟩ | ⟨d, hrefused, hcompose⟩
    · let c₃ : Composition := { c₂ with frames := c.frames }
      have hbuilt₃ : Built (before ++ [opening]) body (c.opened opening frame) c₃ places :=
        hbuilt.frames _ _
      have hcomposed : (Place.collection opening places closing node).Composed
          (c₃.completed props node).anchors :=
        hplace _ fun place hmem =>
          (hbuilt.composed place hmem).mono (subset_completed c₃ props node)
      refine Or.inl ⟨c₃.completed props node, _, .close h haccepted hbuilt₃ hderives hanchor
        hclosing hid hstart hcomposed, rfl, fun rest => ?_⟩
      rw [finish_eq] at hclose
      rw [List.cons_append, List.append_assoc, Node.compose_of_step hstep]
      exact (hcompose _).trans (Node.compose_of_step hclose)
    · refine Or.inr ⟨d, (haccepted.refusedFirst hrefused).append_right _, fun rest => ?_⟩
      rw [List.cons_append, List.append_assoc, Node.compose_of_step hstep]
      exact hcompose _
  · exact Or.inr ⟨d, (refusedFirst_singleton hrefused).append_right _, fun rest =>
      compose_of_refusal hstep⟩

theorem composes_sequence (props : Properties) (flow : Bool) (start stop start' stop' : Mark)
    {body : List Event} (hderives : Phrase.items.Derives body) (hbody : ComposesItems body) :
    ComposesNode
      (⟨.sequenceStart props flow, start, stop⟩ :: (body ++ [⟨.sequenceEnd, start', stop'⟩])) := by
  refine composes_collection (.sequence props flow start stop start' stop' hderives) rfl rfl
    (Or.inl rfl) (fun _ => rfl) fun c before feed frames h hframes => ?_
  rcases hbody c before feed props start [] frames h hframes with
    ⟨c', places, hbuilt, hframes', hcompose⟩ | hrefused
  · refine Or.inl ⟨c', places,
      .sequence ⟨c'.count, tagOr props .seq, start, stop'⟩ (places.map Place.node), hbuilt, ?_,
      rfl, rfl, fun named hinside => ?_, hcompose⟩
    · simp [step, hframes']
    · exact .sequence rfl rfl rfl (tagOr_given props .seq) rfl hinside
  · exact Or.inr hrefused

theorem composes_mapping (props : Properties) (flow : Bool) (start stop start' stop' : Mark)
    {body : List Event} (hderives : Phrase.pairs.Derives body) (hbody : ComposesPairs body) :
    ComposesNode
      (⟨.mappingStart props flow, start, stop⟩ :: (body ++ [⟨.mappingEnd, start', stop'⟩])) := by
  refine composes_collection (.mapping props flow start stop start' stop' hderives) rfl rfl
    (Or.inr rfl) (fun _ => rfl) fun c before feed frames h hframes => ?_
  rcases hbody c before feed props start [] frames h hframes with
    ⟨c', places, pairs, hbuilt, hpairs, hframes', hcompose⟩ | hrefused
  · refine Or.inl ⟨c', places, .mapping ⟨c'.count, tagOr props .map, start, stop'⟩ pairs, hbuilt,
      ?_, rfl, rfl, fun named hinside => ?_, hcompose⟩
    · simp [step, hframes']
    · exact .mapping rfl rfl rfl hpairs (tagOr_given props .map) rfl hinside
  · exact Or.inr hrefused

/-- Every word of the grammar of nodes is composed, up to its first refused event. -/
theorem composes_of_derives {phrase : Phrase} (h : phrase.Derives word) :
    Composes phrase word := by
  induction h with
  | scalar props implicit text style start stop =>
      exact composes_scalar props implicit text style start stop
  | aliasOf name start stop => exact composes_aliasOf name start stop
  | sequence props flow start stop start' stop' hbody ih =>
      exact composes_sequence props flow start stop start' stop' hbody ih
  | mapping props flow start stop start' stop' hbody ih =>
      exact composes_mapping props flow start stop start' stop' hbody ih
  | noItems => exact composes_noItems
  | item _ _ ihhead ihtail => exact composes_item ihhead ihtail
  | noPairs => exact composes_noPairs
  | pair _ _ _ ihkey ihvalue ihtail => exact composes_pair ihkey ihvalue ihtail
  | noDocuments | document | stream => trivial

end Composition

namespace Node

variable {feed : Feed Event} {word : List Event} {first opening closing last : Event}

/-- A stream of one document gives what its node is composed to. -/
theorem ofEvents_single (hitems : feed.items = first :: opening :: (word ++ [closing, last]))
    (hopening : opening.kind ≠ .streamEnd) (hlast : last.kind = .streamEnd) :
    (∀ node, compose .empty feed (word ++ [closing, last]) = .ok (node, [closing, last]) →
      ofEvents feed = .ok (some node)) ∧
    ∀ d, compose .empty feed (word ++ [closing, last]) = .error d → ofEvents feed = .error d := by
  have hstart : atStreamEnd feed (opening :: (word ++ [closing, last])) = .ok false := by
    simpa [atStreamEnd] using hopening
  have hstop : atStreamEnd feed [last] = .ok true := by
    simp [atStreamEnd, hlast]
  refine ⟨fun node hcompose => ?_, fun d hcompose => ?_⟩
  · simp only [ofEvents, hitems, hstart, ok_bind, List.tail_cons, hcompose, hstop]
    rfl
  · simp only [ofEvents, hitems, hstart, ok_bind, List.tail_cons, hcompose]
    rfl

/-- The node of a document that is fed as one word of the grammar of nodes. There is one exactly if
no anchor is given twice and every reference stands behind its node; it then has the shape of the
word, with the very nodes of their anchors in place of the references, and its nodes are numbered as
their last events come. Otherwise the first event that breaks a rule is blamed. -/
theorem ofEvents_iff_anchored (hword : Phrase.node.Derives word)
    (hitems : feed.items = first :: opening :: (word ++ [closing, last]))
    (hopening : ∃ explicit, opening.kind = .documentStart explicit)
    (hlast : last.kind = .streamEnd) :
    ((∃ root, ofEvents feed = .ok (some root)) ↔ Event.Anchored word) ∧
    (∀ root?, ofEvents feed = .ok root? → ∃ place : Place, place.events = word ∧
      root? = some place.node ∧ place.Composed place.anchored ∧
      place.written.map Node.id = List.range place.written.length) ∧
    ∀ d, ofEvents feed = .error d ↔ Event.RefusedFirst [] word d := by
  have hopening : opening.kind ≠ .streamEnd := by
    obtain ⟨explicit, hkind⟩ := hopening
    simp [hkind]
  obtain ⟨hsome, herror⟩ := ofEvents_single hitems hopening hlast
  have hcomposes : Composition.ComposesNode word := Composition.composes_of_derives hword
  rcases hcomposes .empty [] feed Composition.knows_empty with
    ⟨c, place, hbuilt, hframes, hcompose⟩ | ⟨d, hrefused, hcompose⟩
  · have hattach : c.attach place.node = .complete place.node := by
      rw [Composition.attach, hframes]
      rfl
    have hok : ofEvents feed = .ok (some place.node) := by
      refine hsome place.node ?_
      rw [hcompose, hattach]
      rfl
    have hanchored := Event.accepted_iff_anchored.mp hbuilt.accepted
    refine ⟨⟨fun _ => hanchored, fun _ => ⟨_, hok⟩⟩, fun root? hroot => ⟨place, ?_, ?_, ?_, ?_⟩,
      fun d => ⟨fun hd => ?_, fun hd => absurd hbuilt.accepted hd.not_accepted⟩⟩
    · simpa using hbuilt.events
    · rw [hok] at hroot
      exact (Except.ok.inj hroot).symm
    · refine (hbuilt.composed place (by simp)).mono ?_
      rw [hbuilt.anchors]
      simp [Composition.empty]
    · simpa [List.range_eq_range', Composition.empty] using hbuilt.numbers
    · rw [hok] at hd
      cases hd
  · have hfail := herror d (hcompose _)
    refine ⟨⟨?_, fun hanchored => ?_⟩, fun root? hroot => ?_,
      fun d' => ⟨fun hd' => ?_, fun hd' => ?_⟩⟩
    · rintro ⟨root, hroot⟩
      rw [hfail] at hroot
      cases hroot
    · exact absurd (Event.accepted_iff_anchored.mpr hanchored) hrefused.not_accepted
    · rw [hfail] at hroot
      cases hroot
    · rw [hfail] at hd'
      cases hd'
      exact hrefused
    · rw [hfail, hd'.unique hrefused]

/-- The events of a stream with one document, all at one mark. -/
def singleDocument (word : List EventKind) : Feed Event :=
  let kinds := .streamStart :: .documentStart false :: (word ++ [.documentEnd, .streamEnd])
  ⟨kinds.map (⟨·, .origin, .origin⟩), none⟩

/-- A sequence can hold a node twice, but it cannot hold itself. -/
theorem ofEvents_iff_anchored_sequence :
    (∃ root, ofEvents (singleDocument [.sequenceStart .none true,
      .scalar ⟨some "a", none⟩ true "1" .plain, .aliasOf "a", .sequenceEnd]) = .ok (some root)) ∧
    ofEvents (singleDocument [.sequenceStart ⟨some "a", none⟩ true, .aliasOf "a", .sequenceEnd]) =
      .error (.plain .nodes (.undefinedAlias "a") .origin) := by
  let item : Event := ⟨.scalar ⟨some "a", none⟩ true "1" .plain, .origin, .origin⟩
  let reference : Event := ⟨.aliasOf "a", .origin, .origin⟩
  have hitem : Phrase.node.Derives [item] := .scalar ..
  have hreference : Phrase.node.Derives [reference] := .aliasOf ..
  constructor
  · have hword := Phrase.Derives.sequence .none true .origin .origin .origin .origin
      (.item hitem (.item hreference .noItems))
    refine (ofEvents_iff_anchored hword rfl ⟨false, rfl⟩ rfl).1.mpr ⟨by decide, ?_⟩
    intro before event after name hsplit hkind
    match before, hsplit with
    | [], hsplit | [_], hsplit | [_, _, _], hsplit =>
        cases hsplit
        cases hkind
    | [_, _], hsplit =>
        cases hsplit
        cases hkind
        exact ⟨[_], item, [], [], rfl, hitem, rfl⟩
    | _ :: _ :: _ :: _ :: _, hsplit => simp at hsplit
  · have hword := Phrase.Derives.sequence ⟨some "a", none⟩ true .origin .origin .origin .origin
      (.item hreference .noItems)
    refine ((ofEvents_iff_anchored hword rfl ⟨false, rfl⟩ rfl).2.2 _).mpr ?_
    refine ⟨[⟨.sequenceStart ⟨some "a", none⟩ true, .origin, .origin⟩], reference, _, rfl, ?_,
      .undefined rfl (Event.OpenNode.not_holdsNode ?_)⟩
    · refine Event.accepted_singleton fun d hrefused => ?_
      cases hrefused with
      | undefined hkind _ => cases hkind
      | twice _ hfirst => cases hfirst
    · intro before opening after hsplit hanchor
      rcases List.singleton_eq_append_iff.mp hsplit with ⟨rfl, hafter⟩ | ⟨-, hafter⟩
      · obtain ⟨rfl, rfl⟩ := List.cons.inj hafter
        exact ⟨rfl, Event.inner_nil⟩
      · cases hafter

end Node

end Playbook
