import Playbook.Proofs.SpanNesting
import Playbook.Proofs.Trail

/-!
When the trail follows one path. Without references and merge keys a document is a tree, and the
nodes on the trail are those under the cursor in document order. Each of them brings all nodes
around it, so they lie on one path from the root unless two children of one node are both under the
cursor, which needs a line that the two share.
-/

namespace Playbook

/-- Whether an event refers to a node instead of writing one. -/
def EventKind.refers : EventKind → Bool
  | .aliasOf _ => true
  | _ => false

namespace Node

/-- Facts about nodes follow from the same facts about their children. -/
@[elab_as_elim]
theorem child_induction {motive : Node → Prop}
    (step : ∀ node, (∀ child ∈ node.children, motive child) → motive node) (node : Node) :
    motive node :=
  step node fun child _ => child_induction step child
termination_by sizeOf node
decreasing_by exact sizeOf_child ‹_›

/-- A node and all nodes below it, in document order. -/
def preorder (node : Node) : List Node :=
  node :: node.children.attach.flatMap
    fun (child : { child // child ∈ node.children }) => child.1.preorder
termination_by sizeOf node
decreasing_by exact sizeOf_child child.2

theorem preorder_eq (node : Node) : node.preorder = node :: node.children.flatMap preorder := by
  rw [preorder, List.flatMap_subtype (fun _ _ => rfl), List.unattach_attach]

theorem below_iff {m node : Node} :
    m.Below node ↔ ∃ child ∈ node.children, m = child ∨ m.Below child := by
  constructor
  · rintro (hchild | ⟨hbelow, hchild⟩)
    · exact ⟨m, hchild, Or.inl rfl⟩
    · exact ⟨_, hchild, Or.inr hbelow⟩
  · rintro ⟨child, hchild, rfl | hbelow⟩
    · exact below_child hchild
    · exact hbelow.trans (below_child hchild)

theorem mem_preorder {m node : Node} : m ∈ node.preorder ↔ m = node ∨ m.Below node := by
  induction node using child_induction with
  | step node ih =>
      rw [preorder_eq, List.mem_cons, List.mem_flatMap, below_iff]
      refine or_congr_right (exists_congr fun child => and_congr_right fun hchild => ?_)
      exact ih child hchild

theorem self_mem_preorder (node : Node) : node ∈ node.preorder := mem_preorder.mpr (Or.inl rfl)

theorem mem_preorder_of_child {m child node : Node} (hchild : child ∈ node.children)
    (hm : m ∈ child.preorder) : m ∈ node.preorder :=
  mem_preorder.mpr (Or.inr (below_iff.mpr ⟨child, hchild, mem_preorder.mp hm⟩))

theorem preorder_sublist {m node : Node} (h : m ∈ node.preorder) :
    m.preorder.Sublist node.preorder := by
  induction node using child_induction with
  | step node ih =>
      rcases mem_preorder.mp h with rfl | hbelow
      · exact .refl _
      · obtain ⟨child, hchild, hm⟩ := below_iff.mp hbelow
        rw [preorder_eq node]
        refine .cons _ ((ih child hchild (mem_preorder.mpr hm)).trans ?_)
        rw [← List.flatMap_singleton preorder child]
        exact (List.singleton_sublist.mpr hchild).flatMap preorder

/-! ### Chosen nodes on one path -/

section Path

variable {p : Node → Bool} {node : Node}

/-- Among a node and those below it, the choice of a child brings its parent. -/
def Inherits (p : Node → Bool) (node : Node) : Prop :=
  ∀ m ∈ node.preorder, ∀ child ∈ m.children, p child = true → p m = true

/-- Among a node and those below it, no two children of one node are chosen. -/
def Separates (p : Node → Bool) (node : Node) : Prop :=
  ∀ m ∈ node.preorder, m.children.Pairwise fun previous next =>
    ¬ (p previous = true ∧ p next = true)

theorem Inherits.child (h : Inherits p node) {child : Node} (hchild : child ∈ node.children) :
    Inherits p child :=
  fun m hm => h m (mem_preorder_of_child hchild hm)

theorem Separates.child (h : Separates p node) {child : Node} (hchild : child ∈ node.children) :
    Separates p child :=
  fun m hm => h m (mem_preorder_of_child hchild hm)

/-- The choice of a node brings all nodes around it. -/
theorem Inherits.of_below (h : Inherits p node) {m : Node} (hbelow : m.Below node)
    (hm : p m = true) : p node = true := by
  induction node using child_induction with
  | step node ih =>
      obtain ⟨child, hchild, rfl | hbelow⟩ := below_iff.mp hbelow
      · exact h node node.self_mem_preorder m hchild hm
      · exact h node node.self_mem_preorder child hchild (ih child hchild (h.child hchild) hbelow)

theorem Inherits.filter_eq_nil (h : Inherits p node) (hnode : p node = false) :
    node.preorder.filter p = [] := by
  refine List.filter_eq_nil_iff.mpr fun m hm hp => ?_
  rcases mem_preorder.mp hm with rfl | hbelow
  · exact Bool.false_ne_true (hnode.symm.trans hp)
  · exact Bool.false_ne_true (hnode.symm.trans (h.of_below hbelow hp))

theorem filter_preorder_of_chosen (hnode : p node = true) :
    node.preorder.filter p =
      node :: node.children.flatMap fun child => child.preorder.filter p := by
  rw [preorder_eq, List.filter_cons_of_pos hnode, List.filter_flatMap]

/-- Of some nodes, at most one of them chosen, only that one brings chosen nodes. -/
theorem flatMap_filter_preorder {nodes : List Node} (hinherits : ∀ m ∈ nodes, Inherits p m)
    (hseparate : nodes.Pairwise fun previous next => ¬ (p previous = true ∧ p next = true)) :
    (nodes.flatMap fun m => m.preorder.filter p) = [] ∨
      ∃ m ∈ nodes, p m = true ∧
        (nodes.flatMap fun m => m.preorder.filter p) = m.preorder.filter p := by
  induction nodes with
  | nil => exact Or.inl rfl
  | cons m rest ih =>
      obtain ⟨hm, hrest⟩ := List.forall_mem_cons.mp hinherits
      obtain ⟨hapart, hpairs⟩ := List.pairwise_cons.mp hseparate
      rw [List.flatMap_cons]
      cases hchosen : p m with
      | true =>
          have hnone : (rest.flatMap fun m => m.preorder.filter p) = [] := by
            refine List.flatMap_eq_nil_iff.mpr fun other hother => ?_
            refine (hrest other hother).filter_eq_nil (Bool.eq_false_iff.mpr fun hp => ?_)
            exact hapart other hother ⟨hchosen, hp⟩
          rw [hnone, List.append_nil]
          exact Or.inr ⟨m, List.mem_cons_self, hchosen, rfl⟩
      | false =>
          rw [hm.filter_eq_nil hchosen, List.nil_append]
          refine (ih hrest hpairs).imp_right ?_
          rintro ⟨other, hother, hp, heq⟩
          exact ⟨other, List.mem_cons_of_mem m hother, hp, heq⟩

/-- Without two chosen children of one node, the chosen nodes go down from parent to child. -/
theorem Separates.isChain (h : Separates p node) (hinherits : Inherits p node) :
    (node.preorder.filter p).IsChain fun outer inner => inner ∈ outer.children := by
  induction node using child_induction with
  | step node ih =>
      cases hnode : p node with
      | false =>
          rw [hinherits.filter_eq_nil hnode]
          exact .nil
      | true =>
          rw [filter_preorder_of_chosen hnode]
          rcases flatMap_filter_preorder (fun child hchild => hinherits.child hchild)
            (h node node.self_mem_preorder) with hnone | ⟨child, hchild, hchosen, hone⟩
          · rw [hnone]
            exact .singleton node
          · have hrest := ih child hchild (h.child hchild) (hinherits.child hchild)
            rw [hone]
            rw [filter_preorder_of_chosen hchosen] at hrest ⊢
            exact List.isChain_cons_cons.mpr ⟨hchild, hrest⟩

/-- Children of one node are not below each other, so two of them are on no path. -/
theorem separates_of_pairwise (hnodup : node.preorder.Nodup)
    (h : (node.preorder.filter p).Pairwise fun outer inner => inner.Below outer) :
    Separates p node := by
  intro m hm
  have hsublist := preorder_sublist hm
  have hm' := hnodup.sublist hsublist
  have hpairs := h.sublist (hsublist.filter p)
  rw [preorder_eq] at hm' hpairs
  have hdisjoint := (List.nodup_flatMap.mp (List.nodup_cons.mp hm').2).2
  have hbelow := hpairs.sublist ((List.sublist_cons_self _ _).filter p)
  rw [List.filter_flatMap] at hbelow
  refine ((List.pairwise_flatMap.mp hbelow).2.and hdisjoint).imp ?_
  rintro previous next ⟨hbelow, hdisjoint⟩ ⟨hprevious, hnext⟩
  have hunder : next.Below previous :=
    hbelow previous (List.mem_filter.mpr ⟨previous.self_mem_preorder, hprevious⟩)
      next (List.mem_filter.mpr ⟨next.self_mem_preorder, hnext⟩)
  exact hdisjoint (mem_preorder.mpr (Or.inr hunder)) next.self_mem_preorder

theorem isChain_below_iff (hnodup : node.preorder.Nodup) (hinherits : Inherits p node) :
    ((node.preorder.filter p).IsChain fun outer inner => inner.Below outer) ↔
      Separates p node := by
  let above : Node → Node → Prop := fun outer inner => inner.Below outer
  have htrans : Trans above above above := ⟨fun h h' => Relation.TransGen.trans h' h⟩
  constructor
  · intro h
    exact separates_of_pairwise hnodup ((List.isChain_iff_pairwise (R := above)).mp h)
  · intro h
    exact (h.isChain hinherits).imp fun outer inner hchild => below_child hchild

end Path

/-! ### Visits of a tree -/

theorem flat_eq_self {head : NodeHead} {pairs : Pairs} (h : ∀ pair ∈ pairs, pair.1.tag ≠ .merge) :
    (mapping head pairs).flat = pairs := by
  rw [flat, flatPairs_eq_self h]
  rfl

/-- Without merge keys the nodes are visited in document order. -/
theorem map_node_visits {node : Node} (hmerge : ∀ m ∈ node.preorder, m.tag ≠ .merge)
    (key : Option Key) : (node.visits key).map Visit.node = node.preorder := by
  induction node using child_induction generalizing key with
  | step node ih =>
      have hchild : ∀ child ∈ node.children, ∀ key,
          (child.visits key).map Visit.node = child.preorder :=
        fun child hchild => ih child hchild fun m hm => hmerge m (mem_preorder_of_child hchild hm)
      rw [visits_eq, List.map_cons, preorder_eq]
      congr 1
      cases node with
      | scalar head text style => rfl
      | sequence head items =>
          rw [innerVisits, List.map_flatMap]
          exact List.flatMap_congr fun item hitem => hchild item hitem none
      | mapping head pairs =>
          have hpairs : ∀ pair ∈ pairs, pair.1 ∈ (mapping head pairs).children ∧
              pair.2 ∈ (mapping head pairs).children := by
            intro pair hpair
            constructor <;> exact List.mem_flatMap.mpr ⟨pair, hpair, by simp⟩
          have hflat : (mapping head pairs).flat = pairs := by
            refine flat_eq_self fun pair hpair => hmerge _ (mem_preorder.mpr (Or.inr ?_))
            exact below_child (hpairs pair hpair).1
          rw [innerVisits, hflat, List.map_flatMap, children, List.flatMap_assoc]
          refine List.flatMap_congr fun pair hpair => ?_
          rw [pairVisits, List.map_append, hchild _ (hpairs pair hpair).1,
            hchild _ (hpairs pair hpair).2]
          simp

end Node

theorem firstVisits_eq_self {met : List Nat} {visits : List Visit}
    (hnodup : (visitIds visits).Nodup) (hmet : ∀ i ∈ visitIds visits, i ∉ met) :
    firstVisits met visits = visits := by
  induction visits generalizing met with
  | nil => rfl
  | cons visit rest ih =>
      obtain ⟨hvisit, hrest⟩ := List.forall_mem_cons.mp hmet
      obtain ⟨hfresh, hnodup⟩ := List.nodup_cons.mp hnodup
      rw [firstVisits, if_neg hvisit, ih hnodup]
      rintro i hi (_ | ⟨_, hmem⟩)
      · exact hfresh hi
      · exact hrest i hi hmem

/-- The nodes on the trail of a tree are those under the cursor in document order. -/
theorem Node.map_node_trailVisits {root : Node} (cursor : Cursor)
    (hids : (root.preorder.map Node.id).Nodup) (hmerge : ∀ m ∈ root.preorder, m.tag ≠ .merge) :
    (root.trailVisits cursor).map Visit.node =
      root.preorder.filter (·.span.contains cursor) := by
  have hnodes := map_node_visits hmerge none
  have hvisits : visitIds (root.visits none) = root.preorder.map Node.id := by
    rw [← hnodes, List.map_map]
    rfl
  rw [trailVisits, firstVisits_eq_self (hvisits ▸ hids) (by simp), ← hnodes, List.filter_map]
  rfl

/-! ### Places without references -/

namespace Place

/-- No event of the place refers to a node. -/
def Plain (place : Place) : Prop := ∀ event ∈ place.events, event.kind.refers = false

variable {nodes : List Node} {place : Place}

theorem Plain.inside (h : place.Plain) {inner : Place} (hmem : inner ∈ place.inside) :
    inner.Plain := by
  cases place with
  | reference | leaf => cases hmem
  | collection opening inside closing node =>
      intro event hevent
      refine h event ?_
      rw [events_collection]
      refine List.mem_cons_of_mem _ (List.mem_append_left _ ?_)
      exact List.mem_flatMap.mpr ⟨inner, hmem, hevent⟩

theorem Plain.within (h : place.Plain) {inner : Place} (hwithin : inner.Within place) :
    inner.Plain := by
  induction hwithin using Relation.ReflTransGen.head_induction_on with
  | refl => exact h
  | head hmem _ ih => exact ih.inside hmem

theorem Valid.isWritten_of_plain (h : place.Valid nodes) (hplain : place.Plain) :
    place.isWritten = true := by
  cases h with
  | @reference event node name hkind hnode =>
      have hrefers := hplain event (List.mem_singleton_self event)
      rw [hkind] at hrefers
      cases hrefers
  | leaf | collection => rfl

/-- Without references every node below is written once. -/
theorem Valid.preorder_perm (h : place.Valid nodes) (hplain : place.Plain) :
    place.node.preorder.Perm place.written := by
  induction h with
  | reference hkind hnode => cases (Valid.reference hkind hnode).isWritten_of_plain hplain
  | @leaf event node hopens hspan hchildren =>
      change node.preorder.Perm [node]
      rw [Node.preorder_eq, hchildren]
      exact .refl _
  | @collection opening closing inside node hopens hcloses hspan hchildren hinside ih =>
      change node.preorder.Perm _
      rw [Node.preorder_eq, ← hchildren, written_collection, List.flatMap_map]
      refine .trans (.cons node ?_) (List.perm_append_singleton node _).symm
      exact List.Perm.flatMap_left _ fun inner hmem => ih inner hmem (hplain.inside hmem)

/-- Without references the spans of all children are nested and in order. -/
theorem Valid.children_spans (h : place.Valid place.written) (hplain : place.Plain)
    (hordered : Mark.Ordered place.marks) {node : Node} (hnode : node ∈ place.node.preorder) :
    (∀ child ∈ node.children,
      node.span.start ≤ child.span.start ∧ child.span.stop ≤ node.span.stop) ∧
    node.children.Pairwise fun previous next => previous.span.stop ≤ next.span.start := by
  obtain ⟨outer, hwithin, hwritten, rfl⟩ := h.exists_of_below (Node.mem_preorder.mp hnode)
  have houter := h.within hwithin
  have hmarks := ordered_within hordered hwithin
  have hinside : ∀ inner ∈ outer.inside, inner.isWritten = true := fun inner hmem =>
    (houter.inside hmem).isWritten_of_plain ((hplain.within hwithin).inside hmem)
  rw [← houter.map_node_inside hwritten]
  constructor
  · intro child hchild
    obtain ⟨inner, hmem, rfl⟩ := List.mem_map.mp hchild
    exact houter.span_le hmarks hmem (hinside inner hmem)
  · have hspans := houter.spans_ordered hmarks
    rw [List.filter_eq_self.mpr hinside] at hspans
    exact List.pairwise_map.mpr hspans

end Place

/-- Two spans in order hold one place only on a line that they share. If neither has a second line,
they touch there. -/
theorem Span.line_of_contains {previous next : Span} {cursor : Cursor}
    (hle : previous.stop ≤ next.start) (hprevious : previous.contains cursor = true)
    (hnext : next.contains cursor = true) :
    previous.stop.line = cursor.line ∧ next.start.line = cursor.line ∧
      (previous.start.line < cursor.line ∨ cursor.line < next.stop.line ∨
        previous.stop.column = cursor.column ∧ next.start.column = cursor.column) := by
  rw [Mark.le_def] at hle
  simp only [contains, Bool.and_eq_true, Bool.or_eq_true, decide_eq_true_eq, bne_iff_ne]
    at hprevious hnext
  omega

/-- The root of a text without references is the root of a tree: numbers tell its nodes apart, and
the spans of children are nested and in order. -/
theorem Node.ofText_tree {text : List Char} {root : Node}
    (h : ofEvents (Event.ofText text) = .ok (some root))
    (hplain : ∀ event ∈ (Event.ofText text).items, event.kind.refers = false) :
    (root.preorder.map Node.id).Nodup ∧
    ∀ node ∈ root.preorder,
      (∀ child ∈ node.children,
        node.span.start ≤ child.span.start ∧ child.span.stop ≤ node.span.stop) ∧
      node.children.Pairwise fun previous next => previous.span.stop ≤ next.span.start := by
  obtain ⟨place, first, opening, closing, rest, hvalid, rfl, hitems, hids, hordered⟩ :=
    ofText_place h
  have hplace : place.Plain := fun event hevent => hplain event (by rw [hitems]; simp [hevent])
  refine ⟨?_, fun node hnode => hvalid.children_spans hplace hordered hnode⟩
  rw [((hvalid.preorder_perm hplace).map Node.id).nodup_iff, hids]
  exact List.nodup_range

/-- With the cursor on a child it is on the parent. -/
theorem Node.ofText_inherits {text : List Char} {root : Node}
    (h : ofEvents (Event.ofText text) = .ok (some root))
    (hplain : ∀ event ∈ (Event.ofText text).items, event.kind.refers = false) (cursor : Cursor) :
    Inherits (·.span.contains cursor) root := by
  intro m hm child hchild hcursor
  obtain ⟨hstart, hstop⟩ := ((ofText_tree h hplain).2 m hm).1 child hchild
  exact Span.contains_mono hstart hstop hcursor

namespace Document

theorem trail_of_root {feed : Feed Event} {cursor : Cursor} {document : Document} {root : Node}
    (h : ofNode cursor root = .ok document) (hroot : Node.ofEvents feed = .ok (some root)) :
    document.trail = closeTrail ((root.trailVisits cursor).flatMap Visit.entries) := by
  obtain ⟨nodes, hgraph, hmem⟩ := Node.ofEvents_graph hroot
  have hdocument := ofNode_eq cursor hgraph hmem
  cases hvalue : root.value? with
  | none =>
      rw [hvalue] at hdocument
      obtain ⟨d, hd⟩ := hdocument
      cases hd.symm.trans h
  | some value =>
      rw [hvalue] at hdocument
      cases hdocument.symm.trans h
      rfl

/-- The trail of a text without references and merge keys. The nodes that leave entries are all
nodes under the cursor, in document order, and with each of them come the nodes around it. They lie
on one path, each below the one before, just if no two children of one node are under the cursor;
and then each is a child of the one before. Two children are both under the cursor only on the line
where the earlier stops and the later starts. -/
theorem ofText_path {text : List Char} {cursor : Cursor} {document : Document}
    (h : ofText text cursor = .ok document)
    (hplain : ∀ event ∈ (Event.ofText text).items, event.kind.refers = false)
    (hmerge : ∀ root, Node.ofEvents (Event.ofText text) = .ok (some root) →
      ∀ node ∈ root.preorder, node.tag ≠ .merge) :
    Node.ofEvents (Event.ofText text) = .ok none ∧ document.trail = [] ∨
    ∃ root nodes, Node.ofEvents (Event.ofText text) = .ok (some root) ∧
      document.trail = closeTrail ((root.trailVisits cursor).flatMap Visit.entries) ∧
      nodes = (root.trailVisits cursor).map Visit.node ∧
      nodes = root.preorder.filter (·.span.contains cursor) ∧
      (∀ node ∈ nodes, ∀ outer ∈ root.preorder, node.Below outer → outer ∈ nodes) ∧
      ((nodes.IsChain fun outer inner => inner.Below outer) ↔
        ∀ node ∈ root.preorder, node.children.Pairwise fun previous next =>
          ¬ (previous.span.contains cursor = true ∧ next.span.contains cursor = true)) ∧
      ((nodes.IsChain fun outer inner => inner.Below outer) →
        nodes.IsChain fun outer inner => inner ∈ outer.children) ∧
      ∀ node ∈ root.preorder, node.children.Pairwise fun previous next =>
        previous.span.contains cursor = true → next.span.contains cursor = true →
          previous.span.stop.line = cursor.line ∧ next.span.start.line = cursor.line ∧
          (previous.span.start.line < cursor.line ∨ cursor.line < next.span.stop.line ∨
            previous.span.stop.column = cursor.column ∧
            next.span.start.column = cursor.column) := by
  obtain ⟨found, hroot, h⟩ := bind_eq_ok_iff.mp h
  cases found with
  | none =>
      cases h
      exact Or.inl ⟨hroot, rfl⟩
  | some root =>
      obtain ⟨hids, hspans⟩ := Node.ofText_tree hroot hplain
      have hnodup : root.preorder.Nodup := .of_map Node.id hids
      have hinherits := Node.ofText_inherits hroot hplain cursor
      have hpath := Node.isChain_below_iff hnodup hinherits
      refine Or.inr ⟨root, root.preorder.filter (·.span.contains cursor), hroot,
        trail_of_root h hroot, (Node.map_node_trailVisits cursor hids (hmerge root hroot)).symm,
        rfl, fun node hnode outer houter hbelow => ?_, hpath,
        fun hchain => (hpath.mp hchain).isChain hinherits, fun node hnode => ?_⟩
      · have houter' : Node.Inherits (·.span.contains cursor) outer :=
          fun m hm => hinherits m ((Node.preorder_sublist houter).subset hm)
        refine List.mem_filter.mpr ⟨houter, houter'.of_below hbelow ?_⟩
        exact (List.mem_filter.mp hnode).2
      · exact (hspans node hnode).2.imp fun hle => Span.line_of_contains hle

/-- A cursor inside nested collections of one line, on a path down to the scalar. -/
theorem ofText_path_nested :
    ∃ (document : Document) (root : Node),
      ofText "a: [b, {c: d}]".toList ⟨0, 8⟩ = .ok document ∧
      Node.ofEvents (Event.ofText "a: [b, {c: d}]".toList) = .ok (some root) ∧
      ((root.trailVisits ⟨0, 8⟩).map Visit.node).IsChain
        fun outer inner => inner ∈ outer.children := by
  obtain ⟨document, h⟩ : ∃ document, ofText "a: [b, {c: d}]".toList ⟨0, 8⟩ = .ok document :=
    exists_ok_of_isOk (by decide +kernel)
  obtain ⟨root, hroot, hfacts⟩ := exists_some_of_any
    (x := Node.ofEvents (Event.ofText "a: [b, {c: d}]".toList))
    (p := fun root => root.preorder.all (·.tag != .merge) && root.preorder.all fun node =>
      node.children.Pairwise fun previous next =>
        ¬ (previous.span.contains ⟨0, 8⟩ = true ∧ next.span.contains ⟨0, 8⟩ = true))
    (by decide +kernel)
  simp only [Bool.and_eq_true, List.all_eq_true, bne_iff_ne, decide_eq_true_eq] at hfacts
  obtain ⟨hmerge, hseparate⟩ := hfacts
  have hpath := ofText_path h (by decide +kernel) fun root' hroot' => by
    cases hroot.symm.trans hroot'
    exact hmerge
  rcases hpath with ⟨hnone, -⟩ | ⟨root', nodes, hroot', -, rfl, -, -, hiff, hchain, -⟩
  · cases hroot.symm.trans hnone
  · cases hroot.symm.trans hroot'
    exact ⟨document, root, h, hroot, hchain (hiff.mpr hseparate)⟩

/-- A mapping stops only where the next item of the sequence around it starts, so that a cursor on
this item is on both. -/
theorem ofText_off_path :
    ∃ (document : Document) (root : Node),
      ofText "- a: 1\n- c\n".toList ⟨1, 2⟩ = .ok document ∧
      Node.ofEvents (Event.ofText "- a: 1\n- c\n".toList) = .ok (some root) ∧
      (∀ event ∈ (Event.ofText "- a: 1\n- c\n".toList).items, event.kind.refers = false) ∧
      (∀ node ∈ root.preorder, node.tag ≠ .merge) ∧
      ¬ ((root.trailVisits ⟨1, 2⟩).map Visit.node).IsChain
        fun outer inner => inner.Below outer := by
  obtain ⟨document, h⟩ : ∃ document, ofText "- a: 1\n- c\n".toList ⟨1, 2⟩ = .ok document :=
    exists_ok_of_isOk (by decide +kernel)
  obtain ⟨root, hroot, hfacts⟩ := exists_some_of_any
    (x := Node.ofEvents (Event.ofText "- a: 1\n- c\n".toList))
    (p := fun root => root.preorder.all (·.tag != .merge) && !root.preorder.all fun node =>
      node.children.Pairwise fun previous next =>
        ¬ (previous.span.contains ⟨1, 2⟩ = true ∧ next.span.contains ⟨1, 2⟩ = true))
    (by decide +kernel)
  simp only [Bool.and_eq_true, List.all_eq_true, bne_iff_ne, Bool.not_eq_true',
    Bool.eq_false_iff, ne_eq, decide_eq_true_eq] at hfacts
  obtain ⟨hmerge, hshared⟩ := hfacts
  have hplain : ∀ event ∈ (Event.ofText "- a: 1\n- c\n".toList).items,
      event.kind.refers = false := by decide +kernel
  obtain ⟨hids, -⟩ := Node.ofText_tree hroot hplain
  refine ⟨document, root, h, hroot, hplain, hmerge, ?_⟩
  rw [Node.map_node_trailVisits _ hids hmerge,
    Node.isChain_below_iff (.of_map Node.id hids) (Node.ofText_inherits hroot hplain _)]
  exact hshared

end Document

end Playbook
