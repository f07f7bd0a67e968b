import Playbook.Proofs.NodeValue

/-!
What a mapping with merge keys holds for a key. A pair of its own prevails over what it takes over,
and among its own pairs the last one does. Of several merge keys the last one prevails, and of
several mappings behind one merge key the first. Each mapping taken over may have merge keys in
turn. Whenever a mapping is visited, its value holds exactly this.
-/

namespace Playbook

namespace Mapping

theorem get?_insert (key : Key) (value : Value) (m : Mapping) (other : Key) :
    (m.insert key value).get? other = if other = key then some value else m.get? other := by
  induction m with
  | nil =>
      rw [insert, get?, List.lookup_cons, get?, List.lookup_nil]
      split_ifs with hother
      · rw [beq_iff_eq.mpr hother]
      · rw [beq_false_of_ne hother]
  | cons entry m ih =>
      obtain ⟨first, content⟩ := entry
      unfold get? at ih ⊢
      rw [insert]
      by_cases hfirst : first = key
      · subst hfirst
        rw [if_pos rfl, List.lookup_cons, List.lookup_cons]
        by_cases hother : other = first
        · simp [hother]
        · simp [hother, beq_false_of_ne hother]
      · rw [if_neg hfirst, List.lookup_cons, List.lookup_cons, ih]
        by_cases hother : other = first
        · simp [hother, hfirst]
        · simp [beq_false_of_ne hother]

/-- The last entry for a key counts. -/
theorem get?_ofEntries (entries : List (Key × Value)) (key : Key) :
    (ofEntries entries).get? key = entries.reverse.lookup key := by
  induction entries using List.reverseRecOn with
  | nil => rfl
  | append_singleton entries entry ih =>
      rw [ofEntries, List.foldl_concat, List.reverse_concat, get?_insert, List.lookup_cons]
      change (if key = entry.1 then _ else (ofEntries entries).get? key) = _
      rw [ih]
      by_cases hkey : key = entry.1
      · simp [hkey]
      · simp [hkey, beq_false_of_ne hkey]

end Mapping

namespace Node

/-! ### What a mapping defines -/

/-- The value that a pair gives to a key. -/
def pairValue? (key : Key) (pair : Node × Node) : Option Value :=
  (keyed? pair).bind fun entry => if entry.1 = key then some entry.2 else none

/-- The value that the last of some pairs to give one gives to a key. -/
def lastValue? (key : Key) (pairs : Pairs) : Option Value :=
  pairs.reverse.findSome? (pairValue? key)

mutual

/-- The value that a mapping defines for a key: that of its own pairs, or else of its merge keys. -/
def defined? (key : Key) : Node → Option Value
  | .scalar .. => none
  | .sequence .. => none
  | .mapping _ pairs =>
      (lastValue? key (pairs.filter (·.1.tag != .merge))).or (mergedValue? key pairs)

/-- The value for a key behind the last merge key that has one. -/
def mergedValue? (key : Key) : List (Node × Node) → Option Value
  | [] => none
  | (name, source) :: rest =>
      (mergedValue? key rest).or
        (if name.tag == .merge then
          match source with
          | .mapping head pairs => defined? key (.mapping head pairs)
          | .sequence _ items => firstValue? key items
          | .scalar .. => none
        else none)

/-- The value for a key of the first mapping in a list that defines one. -/
def firstValue? (key : Key) : List Node → Option Value
  | [] => none
  | item :: rest => (defined? key item).or (firstValue? key rest)

end

/-! ### Flattening keeps it -/

theorem lastValue?_append (key : Key) (pairs pairs' : Pairs) :
    lastValue? key (pairs ++ pairs') = (lastValue? key pairs').or (lastValue? key pairs) := by
  rw [lastValue?, List.reverse_append, List.findSome?_append]
  rfl

variable {key : Key}

mutual

theorem lastValue?_flatPairs : ∀ (node : Node) {flat : Pairs}, node.flatPairs = .ok flat →
    lastValue? key flat = defined? key node
  | .scalar .., flat, h => by
      cases h
      rw [defined?]
      rfl
  | .sequence .., flat, h => by
      cases h
      rw [defined?]
      rfl
  | .mapping head pairs, flat, h => by
      rw [flatPairs] at h
      obtain ⟨merged, hmerged, h⟩ := bind_eq_ok_iff.mp h
      cases h
      rw [lastValue?_append, lastValue?_mergedPairs pairs hmerged, defined?]
termination_by structural node => node

theorem lastValue?_mergedPairs {start : Mark} : ∀ (pairs : List (Node × Node)) {flat : Pairs},
    mergedPairs start pairs = .ok flat → lastValue? key flat = mergedValue? key pairs
  | [], flat, h => by
      rw [mergedPairs] at h
      cases h
      rw [mergedValue?]
      rfl
  | (name, source) :: rest, flat, h => by
      rw [mergedPairs] at h
      split_ifs at h with hmerge
      · have happend : ∀ {merged : Pairs},
            (do let more ← mergedPairs start rest; pure (merged ++ more)) = .ok flat →
            lastValue? key flat = (mergedValue? key rest).or (lastValue? key merged) := by
          intro merged h
          obtain ⟨more, hmore, h⟩ := bind_eq_ok_iff.mp h
          cases h
          rw [lastValue?_append, lastValue?_mergedPairs rest hmore]
        match source, h with
        | .mapping head pairs, h =>
            obtain ⟨merged, hmerged, h⟩ := bind_eq_ok_iff.mp h
            rw [happend h, lastValue?_flatPairs (.mapping head pairs) hmerged, mergedValue?,
              if_pos hmerge]
        | .sequence head items, h =>
            obtain ⟨groups, hgroups, h⟩ := bind_eq_ok_iff.mp h
            rw [happend h, lastValue?_mergedItems items hgroups, mergedValue?, if_pos hmerge]
        | .scalar head text style, h => cases h
      · rw [lastValue?_mergedPairs rest h]
        cases source <;> rw [mergedValue?, if_neg hmerge, Option.or_none]
termination_by structural pairs => pairs

theorem lastValue?_mergedItems {start : Mark} : ∀ (items : List Node) {groups : List Pairs},
    mergedItems start items = .ok groups →
    lastValue? key groups.reverse.flatten = firstValue? key items
  | [], groups, h => by
      rw [mergedItems] at h
      cases h
      rw [firstValue?]
      rfl
  | item :: rest, groups, h => by
      rw [mergedItems] at h
      split at h
      · obtain ⟨pairs, hpairs, h⟩ := bind_eq_ok_iff.mp h
        obtain ⟨more, hmore, h⟩ := bind_eq_ok_iff.mp h
        cases h
        rw [List.reverse_cons, List.flatten_append, List.flatten_singleton, lastValue?_append,
          lastValue?_flatPairs item hpairs, lastValue?_mergedItems rest hmore, firstValue?]
      · cases h
termination_by structural items => items

end

theorem lastValue?_of_entries {pairs : Pairs} {entries : List (Key × Value)}
    (h : List.Forall₂ (fun pair entry => keyed? pair = some entry) pairs entries) :
    lastValue? key pairs = entries.reverse.lookup key := by
  have hrev := List.rel_reverse h
  rw [lastValue?]
  generalize pairs.reverse = pairs at hrev
  generalize entries.reverse = entries at hrev
  induction hrev with
  | nil => rfl
  | @cons pair entry pairs entries hentry _ ih =>
      obtain ⟨name, value⟩ := entry
      rw [List.findSome?_cons, pairValue?, hentry, List.lookup_cons, ih, Option.bind_some]
      by_cases hname : name = key
      · simp [hname]
      · simp [hname, beq_false_of_ne (Ne.symm hname)]

theorem forall₂_of_mapM {α β : Type} {f : α → Option β} {as : List α} {bs : List β}
    (h : as.mapM f = some bs) : List.Forall₂ (fun a b => f a = some b) as bs := by
  induction as generalizing bs with
  | nil =>
      cases h
      exact .nil
  | cons a as ih =>
      rw [List.mapM_cons] at h
      obtain ⟨b, hb, h⟩ := Option.bind_eq_some_iff.mp h
      obtain ⟨rest, hrest, h⟩ := Option.bind_eq_some_iff.mp h
      cases h
      exact .cons hb (ih hrest)

/-- The value of a mapping holds for each key what the mapping defines for it. -/
theorem get?_of_value {head : NodeHead} {pairs : Pairs} {value : Value}
    (h : (mapping head pairs).value? = some value) :
    ∃ m : Mapping, value = .map m ∧ ∀ key, m.get? key = defined? key (mapping head pairs) := by
  rw [value?_mapping] at h
  split_ifs at h with hmap
  obtain ⟨flat, hflat⟩ := exists_ok_of_isOk hmap.2
  have hpairs : (mapping head pairs).flat = flat := by rw [Node.flat, hflat]; rfl
  obtain ⟨entries, hentries, rfl⟩ := Option.map_eq_some_iff.mp h
  rw [hpairs] at hentries
  refine ⟨Mapping.ofEntries entries, rfl, fun key => ?_⟩
  rw [Mapping.get?_ofEntries, ← lastValue?_of_entries (forall₂_of_mapM hentries),
    lastValue?_flatPairs _ hflat]

theorem Graph.mem {nodes : Set Node} (hgraph : Graph nodes) {node root : Node}
    (hroot : root ∈ nodes) (h : node = root ∨ node.Below root) : node ∈ nodes :=
  h.elim (fun heq => heq ▸ hroot) fun hbelow => (hgraph.below hbelow hroot).1

end Node

/-! ### Every visit -/

namespace Walk

/-- What the walk has built are the values of the nodes. -/
def Agrees (nodes : Set Node) (w : Walk) : Prop :=
  ∀ node ∈ nodes, ∀ value, w.built.lookup node.id = some value → node.value? = some value

theorem Agrees.of_built {nodes : Set Node} {w w' : Walk} (h : w.Agrees nodes)
    (hbuilt : w'.built = w.built) : w'.Agrees nodes := by
  unfold Agrees
  rwa [hbuilt]

end Walk

namespace Document

variable {cursor : Cursor} {nodes : Set Node} {visit : Node → WalkM Value} {w w' : Walk}

/-- A visit of the node yields its value, and builds values only. -/
def YieldsValue (nodes : Set Node) (visit : Node → WalkM Value) (node : Node) : Prop :=
  ∀ {w w' : Walk} {value : Value}, w.Agrees nodes → visit node w = .ok (value, w') →
    node.value? = some value ∧ w'.Agrees nodes

theorem walkItems_values {items : List Node} {values : List Value}
    (hvisit : ∀ item ∈ items, YieldsValue nodes visit item) (hw : w.Agrees nodes)
    (h : walkItems visit items w = .ok (values, w')) :
    List.Forall₂ (fun item value => item.value? = some value) items values ∧ w'.Agrees nodes := by
  induction items generalizing w values with
  | nil =>
      cases h
      exact ⟨.nil, hw⟩
  | cons item items ih =>
      obtain ⟨hitem, hitems⟩ := List.forall_mem_cons.mp hvisit
      obtain ⟨⟨value, w₁⟩, hfirst, h⟩ := bind_eq_ok_iff.mp h
      obtain ⟨⟨rest, w₂⟩, hrest, h⟩ := bind_eq_ok_iff.mp h
      cases h
      obtain ⟨hvalue, hw₁⟩ := hitem hw hfirst
      obtain ⟨hvalues, hw₂⟩ := ih hitems hw₁ hrest
      exact ⟨.cons hvalue hvalues, hw₂⟩

theorem walkPairs_values {start : Mark} {pairs : Node.Pairs} {m m' : Mapping}
    (hvisit : ∀ pair ∈ pairs, YieldsValue nodes visit pair.1 ∧ YieldsValue nodes visit pair.2)
    (hw : w.Agrees nodes) (h : walkPairs cursor start visit pairs m w = .ok (m', w')) :
    ∃ entries, pairs.mapM Node.keyed? = some entries ∧
      m' = entries.foldl (fun m entry => m.insert entry.1 entry.2) m ∧ w'.Agrees nodes := by
  induction pairs generalizing m w with
  | nil =>
      cases h
      exact ⟨[], rfl, rfl, hw⟩
  | cons pair pairs ih =>
      obtain ⟨keyNode, valueNode⟩ := pair
      obtain ⟨⟨hkeyNode, hvalueNode⟩, hpairs⟩ := List.forall_mem_cons.mp hvisit
      obtain ⟨⟨keyValue, w₁⟩, hfirst, h⟩ := bind_eq_ok_iff.mp h
      obtain ⟨hkeyValue, hw₁⟩ := hkeyNode hw hfirst
      dsimp only at h
      cases hkey : keyValue.key? with
      | none =>
          rw [hkey] at h
          cases h
      | some key =>
          rw [hkey] at h
          obtain ⟨⟨value, w₂⟩, hsecond, h⟩ := bind_eq_ok_iff.mp h
          have hentered : (if w₁.isNew cursor valueNode then w₁.enter key.toValue
              else w₁).Agrees nodes := by
            split_ifs
            · exact hw₁.of_built rfl
            · exact hw₁
          obtain ⟨hvalue, hw₂⟩ := hvalueNode hentered hsecond
          obtain ⟨entries, hentries, hm, hw'⟩ := ih hpairs hw₂ h
          have hentry : Node.keyed? (keyNode, valueNode) = some (key, value) := by
            simp [Node.keyed?, hkeyValue, hkey, hvalue]
          refine ⟨(key, value) :: entries, ?_, hm, hw'⟩
          rw [List.mapM_cons, hentry, hentries]
          rfl

theorem walkText_eq_ok {node : Node} {text : String} (h : walkText cursor node w = .ok (text, w')) :
    (∃ head style, node = .scalar head text style) ∧ w'.built = w.built := by
  cases node with
  | scalar head text' style =>
      cases h
      exact ⟨⟨head, style, rfl⟩, Walk.leave_built ..⟩
  | sequence head items => cases h
  | mapping head pairs => cases h

theorem walkSequence_values {node : Node} {value : Value} (htag : node.tag = .seq)
    (hvisit : ∀ m : Node, m.Below node → YieldsValue nodes visit m) (hw : w.Agrees nodes)
    (h : walkSequence cursor visit node w = .ok (value, w')) :
    node.value? = some value ∧ w'.Agrees nodes := by
  cases node with
  | scalar head text style => cases h
  | mapping head pairs => cases h
  | sequence head items =>
      obtain ⟨⟨values, w₁⟩, hitems, h⟩ := bind_eq_ok_iff.mp h
      cases h
      obtain ⟨hvalues, hw₁⟩ := walkItems_values
        (fun item hitem => hvisit item (Node.below_child hitem))
        (hw.of_built (Walk.leave_built ..)) hitems
      exact ⟨Node.value?_items htag hvalues, hw₁.of_built (Walk.settle_built ..)⟩

theorem walkMapping_values {node : Node} {value : Value} (htag : node.tag = .map)
    (hvisit : ∀ m : Node, m.Below node → YieldsValue nodes visit m) (hw : w.Agrees nodes)
    (h : walkMapping cursor visit node w = .ok (value, w')) :
    node.value? = some value ∧ w'.Agrees nodes := by
  cases node with
  | scalar head text style => cases h
  | sequence head items => cases h
  | mapping head pairs =>
      obtain ⟨flat, hflat, h⟩ := bind_eq_ok_iff.mp h
      obtain ⟨⟨m, w₁⟩, hpairs, h⟩ := bind_eq_ok_iff.mp h
      cases h
      have hbelow : (Node.mapping head pairs).PairsBelow flat := Node.flatPairs_below _ hflat
      obtain ⟨entries, hentries, rfl, hw₁⟩ := walkPairs_values
        (fun pair hpair => ⟨hvisit _ (hbelow pair hpair).1, hvisit _ (hbelow pair hpair).2⟩)
        (hw.of_built (Walk.leave_built ..)) hpairs
      refine ⟨?_, hw₁.of_built (Walk.settle_built ..)⟩
      have hflat' : (Node.mapping head pairs).flat = flat := by rw [Node.flat, hflat]; rfl
      rw [Node.value?_mapping, if_pos ⟨htag, by rw [hflat]; rfl⟩, hflat', hentries]
      rfl

theorem walkFresh_values {node : Node} {value : Value}
    (hvisit : ∀ m : Node, m.Below node → YieldsValue nodes visit m) (hw : w.Agrees nodes)
    (h : walkFresh cursor visit node w = .ok (value, w')) :
    node.value? = some value ∧ w'.Agrees nodes := by
  unfold walkFresh at h
  split at h
  · exact walkSequence_values ‹_› hvisit hw h
  · exact walkMapping_values ‹_› hvisit hw h
  · cases h
  · rename_i uri htag
    split_ifs at h with huri
    obtain ⟨⟨text, w₁⟩, htext, h⟩ := bind_eq_ok_iff.mp h
    cases h
    obtain ⟨⟨head, style, rfl⟩, hbuilt⟩ := walkText_eq_ok htext
    refine ⟨?_, hw.of_built hbuilt⟩
    rw [Node.value?_scalar, show head.tag = .other uri from htag, Node.scalarValue?, if_pos huri]
  · rename_i tag hseq hmap hmerge hother
    obtain ⟨⟨text, w₁⟩, htext, h⟩ := bind_eq_ok_iff.mp h
    obtain ⟨number, hnumber, h⟩ := bind_eq_ok_iff.mp h
    cases h
    obtain ⟨⟨head, style, rfl⟩, hbuilt⟩ := walkText_eq_ok htext
    refine ⟨?_, hw.of_built hbuilt⟩
    have hvalue : (scalarValue head.tag text).toOption = some value := by
      cases hresult : scalarValue head.tag text with
      | error overflow => simp [Node.tag, Node.head, hresult, Except.mapError] at hnumber
      | ok result =>
          simp only [Node.tag, Node.head, hresult, Except.mapError, Except.ok.injEq] at hnumber
          exact congrArg some hnumber
    rw [Node.value?_scalar, ← hvalue]
    cases htag : head.tag <;> simp_all [Node.scalarValue?, Node.tag, Node.head]

theorem walkNode_values (hgraph : Node.Graph nodes) (n : Nat) {node : Node} (hnode : node ∈ nodes) :
    YieldsValue nodes (walkNode cursor n) node := by
  induction n generalizing node with
  | zero =>
      intro w w' value _ h
      cases h
  | succ n ih =>
      intro w w' value hw h
      unfold walkNode at h
      split at h
      · rename_i hbuilt
        cases h
        exact ⟨hw node hnode _ hbuilt, hw⟩
      · obtain ⟨⟨found, w₁⟩, hfresh, h⟩ := bind_eq_ok_iff.mp h
        cases h
        obtain ⟨hvalue, hw₁⟩ := walkFresh_values
          (fun m hm => ih (hgraph.below hm hnode).1) hw hfresh
        refine ⟨hvalue, fun m hm found hfound => ?_⟩
        rw [List.lookup_cons] at hfound
        split at hfound
        · rename_i hid
          cases hfound
          rw [hgraph.unique m hm node hnode (beq_iff_eq.mp hid), hvalue]
        · exact hw₁ m hm found hfound

/-- The walks that come up in the construction of a root: visits of nodes in any order, with any
trail left between them. -/
inductive Arises (cursor : Cursor) (root : Node) : Walk → Prop
  | start : Arises cursor root .start
  | visit {w w' : Walk} {n : Nat} {node : Node} {value : Value} (h : Arises cursor root w)
      (hnode : node = root ∨ node.Below root)
      (hvisit : walkNode cursor n node w = .ok (value, w')) : Arises cursor root w'
  | trail {w w' : Walk} (h : Arises cursor root w) (hbuilt : w'.built = w.built) :
      Arises cursor root w'

theorem Arises.agrees {root : Node} (hgraph : Node.Graph nodes) (hroot : root ∈ nodes)
    (h : Arises cursor root w) : w.Agrees nodes := by
  induction h with
  | start =>
      intro node _ value h
      cases h
  | visit _ hnode hvisit ih => exact (walkNode_values hgraph _ (hgraph.mem hroot hnode) ih hvisit).2
  | trail _ hbuilt ih => exact ih.of_built hbuilt

/-- Whenever a mapping of a document is visited and a value comes out, that value is a mapping with
just what the node defines for each key, by its own pairs and its merge keys. -/
theorem walkNode_merges {feed : Feed Event} {root : Node}
    (hroot : Node.ofEvents feed = .ok (some root)) (hw : Arises cursor root w) {head : NodeHead}
    {pairs : Node.Pairs}
    (hnode : Node.mapping head pairs = root ∨ (Node.mapping head pairs).Below root) {n : Nat}
    {value : Value} (h : walkNode cursor n (.mapping head pairs) w = .ok (value, w')) :
    (Node.mapping head pairs).value? = some value ∧
    ∃ m : Mapping, value = .map m ∧
      ∀ key, m.get? key = Node.defined? key (.mapping head pairs) := by
  obtain ⟨nodes, hgraph, hmem⟩ := Node.ofEvents_graph hroot
  have hvalue := (walkNode_values hgraph n (hgraph.mem hmem hnode) (hw.agrees hgraph hmem) h).1
  exact ⟨hvalue, Node.get?_of_value hvalue⟩

/-- A mapping with two merge keys, of which one has a list of mappings with a merge key of its own:
`k` is that of the first mapping in the list, `l` that of the last merge key, `m` its own last
one. -/
theorem walkNode_merges_lists :
    ∃ (head : NodeHead) (pairs : Node.Pairs) (m : Mapping) (w : Walk),
      Node.ofEvents (Event.ofText
        "{m: a, <<: [{<<: &x {k: b, l: c}, k: d}, *x], <<: {l: e}, m: f}".toList) =
          .ok (some (.mapping head pairs)) ∧
      walkNode ⟨0, 0⟩ 20 (.mapping head pairs) .start = .ok (.map m, w) ∧
      (∀ key, m.get? key = Node.defined? key (.mapping head pairs)) ∧
      ["k", "l", "m", "n"].map (fun name => (m.get? (.str name)).bind Value.str?) =
        [some "d", some "e", some "f", none] := by
  obtain ⟨root, hroot, hfacts⟩ := exists_some_of_any
    (x := Node.ofEvents (Event.ofText
      "{m: a, <<: [{<<: &x {k: b, l: c}, k: d}, *x], <<: {l: e}, m: f}".toList))
    (p := fun root => root.shape == .mapping && (walkNode ⟨0, 0⟩ 20 root .start).isOk &&
      ["k", "l", "m", "n"].map (fun name => (Node.defined? (.str name) root).bind Value.str?) ==
        [some "d", some "e", some "f", none])
    (by decide +kernel)
  simp only [Bool.and_eq_true, beq_iff_eq] at hfacts
  obtain ⟨⟨hshape, hok⟩, hnames⟩ := hfacts
  cases root with
  | scalar head text style => cases hshape
  | sequence head items => cases hshape
  | mapping head pairs =>
      obtain ⟨⟨value, w⟩, hvisit⟩ := exists_ok_of_isOk hok
      obtain ⟨-, m, rfl, hm⟩ := walkNode_merges hroot .start (Or.inl rfl) hvisit
      refine ⟨head, pairs, m, w, hroot, hvisit, hm, ?_⟩
      simpa only [hm] using hnames

end Document

end Playbook
