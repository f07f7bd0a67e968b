import Playbook.Proofs.NodeValue

/-!
The trail of a document is a function of its root. It is made of the first visits to the nodes under
the cursor, and the walk, which looks up what it has built and fills in the entries of collections
afterwards, leaves just these.
-/

namespace Playbook

/-- The entry of a node itself: the text of a scalar, the value of a collection. -/
def Node.ownEntry : Node → Value
  | .scalar _ text _ => .str text
  | node => node.value?.getD .null

/-- The entries of a visit: its key, if it has one, and the node. -/
def Visit.entries (visit : Visit) : List Value :=
  (visit.key.map Key.toValue).toList ++ [visit.node.ownEntry]

/-- The visits that are the first of their node. Those of the nodes in `met` have been before. -/
def firstVisits (met : List Nat) : List Visit → List Visit
  | [] => []
  | visit :: rest =>
      if visit.node.id ∈ met then firstVisits met rest
      else visit :: firstVisits (visit.node.id :: met) rest

/-- The entries of those visits that are under the cursor. -/
def entriesUnder (cursor : Cursor) (visits : List Visit) : List Value :=
  (visits.filter (·.node.span.contains cursor)).flatMap Visit.entries

/-- The numbers of the nodes of some visits. -/
def visitIds (visits : List Visit) : List Nat := visits.map (·.node.id)

/-- The visits that leave entries on the trail of a document: the first of each node, if it is under
the cursor. -/
def Node.trailVisits (cursor : Cursor) (root : Node) : List Visit :=
  (firstVisits [] (root.visits none)).filter (·.node.span.contains cursor)

section FirstVisits

variable {met met' : List Nat} {visits rest : List Visit}

theorem firstVisits_congr (h : ∀ i, i ∈ met ↔ i ∈ met') :
    firstVisits met visits = firstVisits met' visits := by
  induction visits generalizing met met' with
  | nil => rfl
  | cons visit rest ih =>
      have hcons : ∀ i, i ∈ visit.node.id :: met ↔ i ∈ visit.node.id :: met' := by
        simp [h]
      rw [firstVisits, firstVisits, ih h, ih hcons]
      simp only [h]

theorem firstVisits_append :
    firstVisits met (visits ++ rest) =
      firstVisits met visits ++ firstVisits (visitIds visits ++ met) rest := by
  induction visits generalizing met with
  | nil => rfl
  | cons visit visits ih =>
      rw [List.cons_append, firstVisits, firstVisits]
      split_ifs with hmet
      · rw [ih]
        congr 1
        refine firstVisits_congr fun i => ?_
        simp only [visitIds, List.map_cons, List.cons_append, List.mem_cons, List.mem_append]
        constructor
        · exact Or.inr
        · rintro (rfl | hi)
          · exact Or.inr hmet
          · exact hi
      · rw [ih, List.cons_append]
        congr 2
        refine firstVisits_congr fun i => ?_
        simp only [visitIds, List.map_cons, List.cons_append, List.mem_cons, List.mem_append]
        tauto

theorem firstVisits_eq_nil (h : ∀ visit ∈ visits, visit.node.id ∈ met) :
    firstVisits met visits = [] := by
  induction visits with
  | nil => rfl
  | cons visit rest ih =>
      obtain ⟨hvisit, hrest⟩ := List.forall_mem_cons.mp h
      rw [firstVisits, if_pos hvisit, ih hrest]

theorem firstVisits_nodup :
    (visitIds (firstVisits met visits)).Nodup ∧
      ∀ i ∈ visitIds (firstVisits met visits), i ∉ met := by
  induction visits generalizing met with
  | nil => exact ⟨List.nodup_nil, fun i hi => by cases hi⟩
  | cons visit rest ih =>
      rw [firstVisits]
      split_ifs with hmet
      · exact ih
      · obtain ⟨hnodup, hfresh⟩ := @ih (visit.node.id :: met)
        constructor
        · refine List.nodup_cons.mpr ⟨fun hmem => ?_, hnodup⟩
          exact hfresh _ hmem List.mem_cons_self
        · refine List.forall_mem_cons.mpr ⟨hmet, fun i hi hmem => ?_⟩
          exact hfresh i hi (List.mem_cons_of_mem _ hmem)

theorem entriesUnder_append {cursor : Cursor} :
    entriesUnder cursor (visits ++ rest) =
      entriesUnder cursor visits ++ entriesUnder cursor rest := by
  simp [entriesUnder]

end FirstVisits

namespace Walk

variable {cursor : Cursor} {nodes : Set Node} {met pending : List Nat} {w w₁ w₂ : Walk}
  {visits rest : List Visit} {node : Node}

/-- What a walk knows when it has met the nodes in `met` and is still inside those in `pending`. -/
structure Tracks (cursor : Cursor) (nodes : Set Node) (met pending : List Nat) (w : Walk) :
    Prop where
  seen : ∀ m ∈ nodes, m.id ∈ w.seen ↔ m.id ∈ met ∧ m.span.contains cursor = true
  fresh : ∀ m ∈ nodes, m.id ∉ met → w.built.lookup m.id = none
  built : ∀ m ∈ nodes, m.id ∈ met → m.id ∉ pending →
    ∃ value, m.value? = some value ∧ w.built.lookup m.id = some value ∧
      ∀ visit ∈ m.innerVisits, visit.node.id ∈ met

theorem Tracks.congr {met' : List Nat} (h : Tracks cursor nodes met pending w)
    (hmet : ∀ i, i ∈ met ↔ i ∈ met') : Tracks cursor nodes met' pending w := by
  obtain rfl | _ := eq_or_ne met met'
  · exact h
  · refine ⟨?_, ?_, ?_⟩
    · simpa only [hmet] using h.seen
    · simpa only [hmet] using h.fresh
    · simpa only [hmet] using h.built

theorem tracks_start : Tracks cursor nodes [] [] .start where
  seen _ _ := by simp [start]
  fresh _ _ _ := rfl
  built _ _ h := by cases h

theorem Tracks.isNew_iff (h : Tracks cursor nodes met pending w) (hnode : node ∈ nodes) :
    w.isNew cursor node = true ↔ node.span.contains cursor = true ∧ node.id ∉ met := by
  have hseen := h.seen node hnode
  simp only [isNew, Bool.and_eq_true, Bool.not_eq_true', List.contains_eq_mem,
    decide_eq_false_iff_not, hseen]
  tauto

/-- A walk over some visits: it has met their nodes and left the entries of the first visits. -/
structure Walked (cursor : Cursor) (nodes : Set Node) (met pending : List Nat) (w : Walk)
    (visits : List Visit) (w' : Walk) : Prop where
  tracks : Tracks cursor nodes (visitIds visits ++ met) pending w'
  trail : w'.trail = w.trail ++ entriesUnder cursor (firstVisits met visits)

theorem Tracks.walked (h : Tracks cursor nodes met pending w) :
    Walked cursor nodes met pending w [] w :=
  ⟨h, (List.append_nil _).symm⟩

theorem Walked.append (h : Walked cursor nodes met pending w visits w₁)
    (h' : Walked cursor nodes (visitIds visits ++ met) pending w₁ rest w₂) :
    Walked cursor nodes met pending w (visits ++ rest) w₂ where
  tracks := by
    refine h'.tracks.congr fun i => ?_
    simp only [visitIds, List.map_append, List.mem_append]
    tauto
  trail := by
    rw [h'.trail, h.trail, firstVisits_append, entriesUnder_append, List.append_assoc]

/-- The entry that a node leaves on its first visit, if it is under the cursor. -/
def ownEntries (cursor : Cursor) (node : Node) (entry : Value) : List Value :=
  if node.span.contains cursor then [entry] else []

theorem entriesUnder_cons (node : Node) (visits : List Visit) :
    entriesUnder cursor (⟨none, node⟩ :: visits) =
      ownEntries cursor node node.ownEntry ++ entriesUnder cursor visits := by
  unfold ownEntries
  by_cases hunder : node.span.contains cursor = true
  · simp [entriesUnder, Visit.entries, hunder]
  · simp [entriesUnder, hunder]

theorem Tracks.leave (hgraph : Node.Graph nodes) (hnode : node ∈ nodes) (hmet : node.id ∉ met)
    (h : Tracks cursor nodes met pending w) (entry : Value) :
    Tracks cursor nodes (node.id :: met) (node.id :: pending) (w.leave cursor node entry) := by
  have hnew := h.isNew_iff hnode
  refine ⟨fun m hm => ?_, fun m hm hfresh => ?_, fun m hm hold hdone => ?_⟩
  · have hsame : m.id = node.id → m = node := hgraph.unique m hm node hnode
    have hseen := h.seen m hm
    unfold Walk.leave
    by_cases hunder : node.span.contains cursor = true
    · rw [if_pos (hnew.mpr ⟨hunder, hmet⟩)]
      simp only [List.mem_cons, hseen]
      constructor
      · rintro (heq | ⟨hold, hm⟩)
        · exact ⟨Or.inl heq, hsame heq ▸ hunder⟩
        · exact ⟨Or.inr hold, hm⟩
      · rintro ⟨heq | hold, hm⟩
        · exact Or.inl heq
        · exact Or.inr ⟨hold, hm⟩
    · rw [if_neg (fun hold => hunder (hnew.mp hold).1)]
      simp only [List.mem_cons, hseen]
      constructor
      · exact fun hold => ⟨Or.inr hold.1, hold.2⟩
      · rintro ⟨heq | hold, hm⟩
        · exact absurd (hsame heq ▸ hm) hunder
        · exact ⟨hold, hm⟩
  · have hbuilt : (w.leave cursor node entry).built = w.built := by
      unfold Walk.leave
      split_ifs <;> rfl
    rw [hbuilt]
    exact h.fresh m hm fun hold => hfresh (List.mem_cons_of_mem _ hold)
  · have hbuilt : (w.leave cursor node entry).built = w.built := by
      unfold Walk.leave
      split_ifs <;> rfl
    simp only [List.mem_cons, not_or] at hold hdone
    obtain ⟨value, hvalue, hlookup, hinner⟩ := h.built m hm (hold.resolve_left hdone.1) hdone.2
    rw [hbuilt]
    exact ⟨value, hvalue, hlookup, fun visit hvisit => List.mem_cons_of_mem _ (hinner visit hvisit)⟩

theorem Tracks.leave_trail (hnode : node ∈ nodes) (hmet : node.id ∉ met)
    (h : Tracks cursor nodes met pending w) (entry : Value) :
    (w.leave cursor node entry).trail = w.trail ++ ownEntries cursor node entry := by
  have hnew := h.isNew_iff hnode
  unfold Walk.leave ownEntries
  by_cases hunder : node.span.contains cursor = true
  · rw [if_pos (hnew.mpr ⟨hunder, hmet⟩), if_pos hunder]
    rfl
  · rw [if_neg (fun hold => hunder (hnew.mp hold).1), if_neg hunder, List.append_nil]

/-- The entry of a collection is filled in where it was left. -/
theorem Tracks.settle_trail (hnode : node ∈ nodes) (hmet : node.id ∉ met)
    (h : Tracks cursor nodes met pending w) {placeholder value : Value} {entries : List Value}
    (htrail : w₁.trail = (w.leave cursor node placeholder).trail ++ entries) :
    (w₁.settle (w.place? cursor node) value).trail =
      w.trail ++ ownEntries cursor node value ++ entries := by
  have hnew := h.isNew_iff hnode
  rw [h.leave_trail hnode hmet] at htrail
  unfold settle place? ownEntries
  by_cases hunder : node.span.contains cursor = true
  · rw [if_pos (hnew.mpr ⟨hunder, hmet⟩), if_pos hunder]
    simp [htrail, ownEntries, hunder]
  · rw [if_neg (fun hold => hunder (hnew.mp hold).1), if_neg hunder]
    simp [htrail, ownEntries, hunder]

/-- A node has been visited once what stands below it has, and its value is noted. -/
theorem Tracks.complete (hgraph : Node.Graph nodes) (hnode : node ∈ nodes)
    (h : Tracks cursor nodes (visitIds node.innerVisits ++ node.id :: met) (node.id :: pending) w)
    {value : Value} (hvalue : node.value? = some value) :
    Tracks cursor nodes (visitIds (node.visits none) ++ met) pending
      { w with built := (node.id, value) :: w.built } := by
  have hmet : ∀ i, i ∈ visitIds node.innerVisits ++ node.id :: met ↔
      i ∈ visitIds (node.visits none) ++ met := by
    intro i
    rw [Node.visits_eq]
    simp only [visitIds, List.map_cons, List.mem_append, List.mem_cons]
    tauto
  have h := h.congr hmet
  refine ⟨h.seen, fun m hm hfresh => ?_, fun m hm hold hdone => ?_⟩
  · have hne : m.id ≠ node.id := by
      intro heq
      refine hfresh ((hmet _).mp ?_)
      simp [heq]
    rw [List.lookup_cons, beq_false_of_ne hne]
    exact h.fresh m hm hfresh
  · by_cases heq : m.id = node.id
    · obtain rfl := hgraph.unique m hm node hnode heq
      refine ⟨value, hvalue, by simp, fun visit hvisit => (hmet _).mp ?_⟩
      exact List.mem_append_left _ (List.mem_map_of_mem hvisit)
    · have hdone' : m.id ∉ node.id :: pending := by simp [heq, hdone]
      obtain ⟨value', hvalue', hlookup, hinner⟩ := h.built m hm hold hdone'
      refine ⟨value', hvalue', ?_, hinner⟩
      rw [List.lookup_cons, beq_false_of_ne heq]
      exact hlookup

end Walk

namespace Document

variable {cursor : Cursor} {nodes : Set Node} {met pending : List Nat} {w : Walk}
  {visit : Node → WalkM Value}

/-- The outcome of a walk that has to yield `result` and make the visits in `visits`. -/
def Follows {α : Type} (cursor : Cursor) (nodes : Set Node) (met pending : List Nat) (w : Walk)
    (visits : List Visit) (outcome : Except Diagnostic (α × Walk)) : Option α → Prop
  | none => ∃ d, outcome = .error d
  | some result =>
      ∃ w', outcome = .ok (result, w') ∧ Walk.Walked cursor nodes met pending w visits w'

section Follows

variable {α β : Type} {visits rest : List Visit} {x : Except Diagnostic (α × Walk)}
  {result : Option α}

theorem follows_ok (a : α) (h : Walk.Tracks cursor nodes met pending w) :
    Follows cursor nodes met pending w [] (.ok (a, w)) (some a) :=
  ⟨w, rfl, h.walked⟩

theorem Follows.bind (hx : Follows cursor nodes met pending w visits x result)
    {f : α × Walk → Except Diagnostic (β × Walk)} {g : α → Option β}
    (hf : ∀ a w₁, result = some a → Walk.Walked cursor nodes met pending w visits w₁ →
      Follows cursor nodes (visitIds visits ++ met) pending w₁ rest (f (a, w₁)) (g a)) :
    Follows cursor nodes met pending w (visits ++ rest) (x >>= f) (result.bind g) := by
  cases result with
  | none =>
      obtain ⟨d, rfl⟩ := hx
      exact ⟨d, rfl⟩
  | some a =>
      obtain ⟨w₁, rfl, hwalked⟩ := hx
      have hrest := hf a w₁ rfl hwalked
      rw [ok_bind, Option.bind_some]
      cases hg : g a with
      | none =>
          rw [hg] at hrest
          exact hrest
      | some b =>
          rw [hg] at hrest
          obtain ⟨w₂, hw₂, hwalked'⟩ := hrest
          exact ⟨w₂, hw₂, hwalked.append hwalked'⟩

theorem Follows.map (hx : Follows cursor nodes met pending w visits x result) (f : α → β) :
    Follows cursor nodes met pending w visits (x >>= fun p => .ok (f p.1, p.2))
      (result.bind fun a => some (f a)) := by
  cases result with
  | none =>
      obtain ⟨d, rfl⟩ := hx
      exact ⟨d, rfl⟩
  | some a =>
      obtain ⟨w₁, rfl, hwalked⟩ := hx
      exact ⟨w₁, rfl, hwalked⟩

end Follows

/-- The function visits a node as it should, whatever was met before, from inside nodes with larger
numbers. -/
def Visits (cursor : Cursor) (nodes : Set Node) (visit : Node → WalkM Value) (node : Node) : Prop :=
  ∀ met pending w, Walk.Tracks cursor nodes met pending w → (∀ i ∈ pending, node.id < i) →
    Follows cursor nodes met pending w (node.visits none) (visit node w) node.value?

theorem walkItems_follows {items : List Node}
    (hvisit : ∀ item ∈ items, Visits cursor nodes visit item)
    (hpending : ∀ item ∈ items, ∀ i ∈ pending, item.id < i)
    (h : Walk.Tracks cursor nodes met pending w) :
    Follows cursor nodes met pending w (items.flatMap (Node.visits none))
      (walkItems visit items w) (items.mapM Node.value?) := by
  induction items generalizing met w with
  | nil => exact follows_ok [] h
  | cons item items ih =>
      rw [List.forall_mem_cons] at hvisit hpending
      rw [List.mapM_cons, List.flatMap_cons]
      refine (hvisit.1 met pending w h hpending.1).bind fun value w₁ _ hwalked => ?_
      exact (ih hvisit.2 hpending.2 hwalked.tracks).map (value :: ·)

theorem enter_tracks {entry : Value} (h : Walk.Tracks cursor nodes met pending w) :
    Walk.Tracks cursor nodes met pending (w.enter entry) :=
  ⟨h.seen, h.fresh, h.built⟩

/-- The entry of a key is left just where its value leaves one. -/
theorem Follows.withKey {node : Node} {key : Key} {x : Except Diagnostic (Value × Walk)}
    {result : Option Value} (hnode : node ∈ nodes) (h : Walk.Tracks cursor nodes met pending w)
    (hx : Follows cursor nodes met pending
      (if w.isNew cursor node then w.enter key.toValue else w) (node.visits none) x result) :
    Follows cursor nodes met pending w (node.visits (some key)) x result := by
  cases result with
  | none => exact hx
  | some value =>
      obtain ⟨w', rfl, hwalked⟩ := hx
      rw [Node.visits_eq] at hwalked ⊢
      refine ⟨w', rfl, hwalked.tracks, hwalked.trail.trans ?_⟩
      have hnew := h.isNew_iff hnode
      rw [firstVisits, firstVisits]
      by_cases hmet : node.id ∈ met
      · simp [hnew, hmet]
      · by_cases hunder : node.span.contains cursor = true
        · simp [hnew, hmet, hunder, entriesUnder, Visit.entries, Walk.enter]
        · simp [hnew, hmet, hunder, entriesUnder]

theorem walkPairs_follows {start : Mark} {pairs : Node.Pairs} {m : Mapping}
    (hnodes : ∀ pair ∈ pairs, pair.2 ∈ nodes)
    (hvisit : ∀ pair ∈ pairs, Visits cursor nodes visit pair.1 ∧ Visits cursor nodes visit pair.2)
    (hpending : ∀ pair ∈ pairs, ∀ i ∈ pending, pair.1.id < i ∧ pair.2.id < i)
    (h : Walk.Tracks cursor nodes met pending w) :
    Follows cursor nodes met pending w (pairs.flatMap Node.pairVisits)
      (walkPairs cursor start visit pairs m w)
      ((pairs.mapM Node.keyed?).bind fun entries =>
        some (entries.foldl (fun m entry => m.insert entry.1 entry.2) m)) := by
  induction pairs generalizing met w m with
  | nil => exact follows_ok m h
  | cons pair pairs ih =>
      obtain ⟨keyNode, valueNode⟩ := pair
      rw [List.forall_mem_cons] at hnodes hvisit hpending
      have hresult : ((((keyNode, valueNode) :: pairs).mapM Node.keyed?).bind fun entries =>
            some (entries.foldl (fun m entry => m.insert entry.1 entry.2) m)) =
          keyNode.value?.bind fun keyValue => keyValue.key?.bind fun key =>
            valueNode.value?.bind fun value => (pairs.mapM Node.keyed?).bind fun entries =>
              some (entries.foldl (fun m entry => m.insert entry.1 entry.2)
                (m.insert key value)) := by
        simp [List.mapM_cons, Node.keyed?, Option.bind_assoc]
      rw [hresult, List.flatMap_cons, Node.pairVisits, List.append_assoc]
      have hkeyVisit := hvisit.1.1 met pending w h fun i hi => (hpending.1 i hi).1
      refine hkeyVisit.bind fun keyValue w₁ hkeyValue hwalked => ?_
      simp only [hkeyValue, Option.bind_some]
      cases hkey : keyValue.key? with
      | none => exact ⟨_, rfl⟩
      | some key =>
          simp only [Option.bind_some]
          have hentered : Walk.Tracks cursor nodes (visitIds (keyNode.visits none) ++ met) pending
              (if w₁.isNew cursor valueNode then w₁.enter key.toValue else w₁) := by
            split_ifs
            · exact enter_tracks hwalked.tracks
            · exact hwalked.tracks
          have hvalueVisit := hvisit.1.2 _ pending _ hentered fun i hi => (hpending.1 i hi).2
          refine (hvalueVisit.withKey hnodes.1 hwalked.tracks).bind fun value w₂ _ hwalked₂ => ?_
          exact ih hnodes.2 hvisit.2 hpending.2 hwalked₂.tracks

/-- The outcome of a first visit, before the value of the node is noted. -/
def FollowsFresh (cursor : Cursor) (nodes : Set Node) (met pending : List Nat) (w : Walk)
    (node : Node) (outcome : Except Diagnostic (Value × Walk)) : Option Value → Prop
  | none => ∃ d, outcome = .error d
  | some value => ∃ w', outcome = .ok (value, w') ∧
      Walk.Tracks cursor nodes (visitIds node.innerVisits ++ node.id :: met) (node.id :: pending)
        w' ∧
      w'.trail = w.trail ++ Walk.ownEntries cursor node node.ownEntry ++
        entriesUnder cursor (firstVisits (node.id :: met) node.innerVisits)

theorem settle_tracks {place : Option Nat} {value : Value}
    (h : Walk.Tracks cursor nodes met pending w) :
    Walk.Tracks cursor nodes met pending (w.settle place value) := by
  cases place with
  | none => exact h
  | some i => exact ⟨h.seen, h.fresh, h.built⟩

/-- A collection has no value under any tag but that of its shape. -/
theorem walkFresh_unfit {node : Node} (hscalar : node.shape ≠ .scalar)
    (hsequence : node.shape = .sequence → node.tag ≠ .seq)
    (hmapping : node.shape = .mapping → node.tag ≠ .map) :
    ∃ d, walkFresh cursor visit node w = .error d := by
  have htext : ∀ f : String × Walk → Except Diagnostic (Value × Walk),
      ∃ d, walkText cursor node w >>= f = .error d := by
    intro f
    cases node with
    | scalar head text style => exact absurd rfl hscalar
    | sequence head items => exact ⟨_, rfl⟩
    | mapping head pairs => exact ⟨_, rfl⟩
  unfold walkFresh
  split
  · rename_i htag
    cases node with
    | scalar head text style => exact ⟨_, rfl⟩
    | sequence head items => exact absurd htag (hsequence rfl)
    | mapping head pairs => exact ⟨_, rfl⟩
  · rename_i htag
    cases node with
    | scalar head text style => exact ⟨_, rfl⟩
    | sequence head items => exact ⟨_, rfl⟩
    | mapping head pairs => exact absurd htag (hmapping rfl)
  · exact ⟨_, rfl⟩
  · split_ifs
    · exact htext _
    · exact ⟨_, rfl⟩
  · exact htext _

section Fresh

variable (hgraph : Node.Graph nodes) (h : Walk.Tracks cursor nodes met pending w)

include hgraph h

theorem walkFresh_scalar {head : NodeHead} {text : String} {style : Style}
    (hnode : .scalar head text style ∈ nodes) (hmet : head.id ∉ met) :
    FollowsFresh cursor nodes met pending w (.scalar head text style)
      (walkFresh cursor visit (.scalar head text style) w)
      (Node.scalarValue? head.tag text) := by
  have htext : ∀ value, FollowsFresh cursor nodes met pending w (.scalar head text style)
      (.ok (value, w.leave cursor (.scalar head text style) (.str text))) (some value) :=
    fun value => ⟨_, rfl, h.leave hgraph hnode hmet _, by
      rw [h.leave_trail hnode hmet]
      exact (List.append_nil _).symm⟩
  have hvalue : ∀ result : Except Number.Overflow Value,
      FollowsFresh cursor nodes met pending w (.scalar head text style)
        (result.mapError (fun _ => (Node.scalar head text style).problem .overflow) >>= fun value =>
          .ok (value, w.leave cursor (.scalar head text style) (.str text))) result.toOption := by
    rintro (problem | value)
    · exact ⟨_, rfl⟩
    · exact htext value
  cases htag : head.tag with
  | other uri =>
      simp only [walkFresh, Node.tag, Node.head, htag, Node.scalarValue?]
      split_ifs
      · exact htext _
      · exact ⟨_, rfl⟩
  | seq | map | merge => exact ⟨_, by simp [walkFresh, Node.tag, Node.head, htag]; rfl⟩
  | _ =>
      simp only [walkFresh, Node.tag, Node.head, htag, Node.scalarValue?, walkText, ok_bind]
      exact hvalue (scalarValue _ text)

theorem walkFresh_sequence {head : NodeHead} {items : List Node}
    (hnode : .sequence head items ∈ nodes) (hmet : head.id ∉ met)
    (hpending : ∀ i ∈ pending, head.id < i)
    (hvisit : ∀ item ∈ items, Visits cursor nodes visit item) :
    FollowsFresh cursor nodes met pending w (.sequence head items)
      (walkFresh cursor visit (.sequence head items) w) (Node.sequence head items).value? := by
  rw [Node.value?_sequence]
  by_cases htag : head.tag = .seq
  · rw [if_pos htag]
    have hbelow : ∀ item ∈ items, ∀ i ∈ head.id :: pending, item.id < i := by
      intro item hitem
      have hlt : item.id < head.id := hgraph.smaller _ hnode item hitem
      exact List.forall_mem_cons.mpr ⟨hlt, fun i hi => hlt.trans (hpending i hi)⟩
    have hitems := walkItems_follows hvisit hbelow (h.leave hgraph hnode hmet .null)
    simp only [walkFresh, Node.tag, Node.head, htag, walkSequence]
    cases hvalues : items.mapM Node.value? with
    | none =>
        rw [hvalues] at hitems
        obtain ⟨d, hd⟩ := hitems
        exact ⟨d, by rw [hd]; rfl⟩
    | some values =>
        rw [hvalues] at hitems
        obtain ⟨w₁, hw₁, hwalked⟩ := hitems
        refine ⟨w₁.settle (w.place? cursor _) (.seq values), by rw [hw₁]; rfl, ?_, ?_⟩
        · exact settle_tracks hwalked.tracks
        · rw [h.settle_trail hnode hmet hwalked.trail]
          have hown : (Node.sequence head items).ownEntry = .seq values := by
            simp [Node.ownEntry, Node.value?_sequence, htag, hvalues]
          rw [hown]
          rfl
  · rw [if_neg htag]
    exact walkFresh_unfit (by simp [Node.shape]) (fun _ => htag) (by simp [Node.shape])

theorem walkFresh_mapping {head : NodeHead} {pairs : Node.Pairs}
    (hnode : .mapping head pairs ∈ nodes) (hmet : head.id ∉ met)
    (hpending : ∀ i ∈ pending, head.id < i)
    (hvisit : ∀ m : Node, m.Below (.mapping head pairs) → Visits cursor nodes visit m) :
    FollowsFresh cursor nodes met pending w (.mapping head pairs)
      (walkFresh cursor visit (.mapping head pairs) w) (Node.mapping head pairs).value? := by
  rw [Node.value?_mapping]
  by_cases htag : head.tag = .map
  · simp only [walkFresh, Node.tag, Node.head, htag, walkMapping, true_and]
    cases hflat : (Node.mapping head pairs).flatPairs with
    | error d => exact ⟨d, rfl⟩
    | ok flat =>
        have hflatPairs : (Node.mapping head pairs).flat = flat := by
          simp [Node.flat, hflat, Except.toOption]
        have hpairs := Node.flatPairs_below _ hflat
        have hbelow : ∀ pair ∈ flat, ∀ i ∈ head.id :: pending, pair.1.id < i ∧ pair.2.id < i := by
          intro pair hpair
          have hkey := (hgraph.below (hpairs pair hpair).1 hnode).2
          have hvalue := (hgraph.below (hpairs pair hpair).2 hnode).2
          exact List.forall_mem_cons.mpr ⟨⟨hkey, hvalue⟩,
            fun i hi => ⟨hkey.trans (hpending i hi), hvalue.trans (hpending i hi)⟩⟩
        -- The pairs are walked while a null holds the place of the mapping.
        have hentries : Follows cursor nodes (head.id :: met) (head.id :: pending)
            (w.leave cursor (.mapping head pairs) .null) (flat.flatMap Node.pairVisits)
            (walkPairs cursor head.span.start visit flat []
              (w.leave cursor (.mapping head pairs) .null))
            ((flat.mapM Node.keyed?).bind fun entries => some (Mapping.ofEntries entries)) :=
          walkPairs_follows (fun pair hpair => (hgraph.below (hpairs pair hpair).2 hnode).1)
            (fun pair hpair => ⟨hvisit _ (hpairs pair hpair).1, hvisit _ (hpairs pair hpair).2⟩)
            hbelow (h.leave hgraph hnode hmet .null)
        rw [hflatPairs, if_pos (by rfl)]
        cases hvalues : flat.mapM Node.keyed? with
        | none =>
            rw [hvalues] at hentries
            obtain ⟨d, hd⟩ := hentries
            exact ⟨d, by rw [ok_bind]; exact bind_eq_error_iff.mpr (Or.inl hd)⟩
        | some entries =>
            rw [hvalues] at hentries
            obtain ⟨w₁, hw₁, hwalked⟩ := hentries
            refine ⟨w₁.settle (w.place? cursor _) (.map (Mapping.ofEntries entries)),
              bind_eq_ok_iff.mpr ⟨flat, rfl, bind_eq_ok_iff.mpr ⟨_, hw₁, rfl⟩⟩, ?_, ?_⟩
            · rw [Node.innerVisits, hflatPairs]
              exact settle_tracks hwalked.tracks
            · rw [h.settle_trail hnode hmet hwalked.trail, Node.innerVisits, hflatPairs]
              have hown :
                  (Node.mapping head pairs).ownEntry = .map (Mapping.ofEntries entries) := by
                simp [Node.ownEntry, Node.value?_mapping, htag, hflat, hflatPairs, hvalues,
                  Except.isOk, Except.toBool]
              rw [hown]
              rfl
  · rw [if_neg (fun hif => htag hif.1)]
    exact walkFresh_unfit (by simp [Node.shape]) (by simp [Node.shape]) (fun _ => htag)

end Fresh

/-- A visit of any depth, as long as its bound is larger than the number of the node. -/
theorem walkNode_visits (cursor : Cursor) (hgraph : Node.Graph nodes) (n : Nat) {node : Node}
    (hnode : node ∈ nodes) (hn : node.id < n) : Visits cursor nodes (walkNode cursor n) node := by
  induction n generalizing node with
  | zero => omega
  | succ n ih =>
      intro met pending w h hpending
      rw [walkNode]
      -- A node met before is answered for by what was built then, with all that is below it.
      by_cases hmet : node.id ∈ met
      · have hdone : node.id ∉ pending := fun hmem => absurd (hpending _ hmem) (by omega)
        obtain ⟨value, hvalue, hlookup, hinner⟩ := h.built node hnode hmet hdone
        rw [hvalue, hlookup]
        have hvisits : ∀ visit ∈ node.visits none, visit.node.id ∈ met := by
          rw [Node.visits_eq]
          exact List.forall_mem_cons.mpr ⟨hmet, hinner⟩
        refine ⟨w, rfl, h.congr fun i => ?_, ?_⟩
        · rw [List.mem_append]
          refine ⟨Or.inr, fun hi => hi.elim (fun hi => ?_) id⟩
          obtain ⟨visit, hvisit, rfl⟩ := List.mem_map.mp hi
          exact hvisits visit hvisit
        · rw [firstVisits_eq_nil hvisits]
          exact (List.append_nil _).symm
      · rw [h.fresh node hnode hmet]
        -- Numbers fall towards the leaves, so the bound lasts for the nodes below.
        have hbelow : ∀ m : Node, m.Below node → Visits cursor nodes (walkNode cursor n) m := by
          intro m hm
          obtain ⟨hmem, hlt⟩ := hgraph.below hm hnode
          exact ih hmem (by omega)
        have hfresh : FollowsFresh cursor nodes met pending w node
            (walkFresh cursor (walkNode cursor n) node w) node.value? := by
          cases node with
          | scalar head text style =>
              rw [Node.value?_scalar]
              exact walkFresh_scalar hgraph h hnode hmet
          | sequence head items =>
              exact walkFresh_sequence hgraph h hnode hmet hpending
                fun item hitem => hbelow item (Node.below_child hitem)
          | mapping head pairs =>
              exact walkFresh_mapping hgraph h hnode hmet hpending hbelow
        cases hvalue : node.value? with
        | none =>
            rw [hvalue] at hfresh
            obtain ⟨d, hd⟩ := hfresh
            exact ⟨d, by rw [hd]; rfl⟩
        | some value =>
            rw [hvalue] at hfresh
            obtain ⟨w₁, hw₁, htracks, htrail⟩ := hfresh
            refine ⟨{ w₁ with built := (node.id, value) :: w₁.built }, by rw [hw₁]; rfl,
              htracks.complete hgraph hnode hvalue, htrail.trans ?_⟩
            rw [Node.visits_eq, firstVisits, if_neg hmet, Walk.entriesUnder_cons,
              List.append_assoc]

/-- The document of a root that is part of a graph: it exists just if the root has a value, and then
has that value and the trail of the first visits. -/
theorem ofNode_eq (cursor : Cursor) (hgraph : Node.Graph nodes) {root : Node}
    (hroot : root ∈ nodes) :
    match root.value? with
    | none => ∃ d, ofNode cursor root = .error d
    | some value =>
        ofNode cursor root =
          .ok ⟨value, closeTrail ((root.trailVisits cursor).flatMap Visit.entries)⟩ := by
  have hwalk := walkNode_visits cursor hgraph (root.id + 1) hroot (by omega) [] [] .start
    Walk.tracks_start (by simp)
  cases hvalue : root.value? with
  | none =>
      rw [hvalue] at hwalk
      obtain ⟨d, hd⟩ := hwalk
      exact ⟨d, bind_eq_error_iff.mpr (Or.inl hd)⟩
  | some value =>
      rw [hvalue] at hwalk
      obtain ⟨w, hw, hwalked⟩ := hwalk
      have htrail : w.trail = (root.trailVisits cursor).flatMap Visit.entries := hwalked.trail
      exact bind_eq_ok_iff.mpr ⟨(value, w), hw, by rw [← htrail]; rfl⟩

theorem trailVisits_nodup (cursor : Cursor) (root : Node) :
    (visitIds (root.trailVisits cursor)).Nodup :=
  (firstVisits_nodup.1).sublist (List.filter_sublist.map _)

/-- The trail of every document is that of the first visits under the cursor. Each leaves its key, if
it has one, and right behind it the entry of its node, and no two of them are of one node. Where the
last entry is a collection, one more waits behind it. -/
theorem ofText_trail {text : List Char} {cursor : Cursor} {document : Document}
    (h : ofText text cursor = .ok document) :
    Node.ofEvents (Event.ofText text) = .ok none ∧ document.root = .null ∧ document.trail = [] ∨
    ∃ root entries, Node.ofEvents (Event.ofText text) = .ok (some root) ∧
      root.value? = some document.root ∧
      entries = (root.trailVisits cursor).flatMap Visit.entries ∧
      document.trail =
        entries ++ (if entries.getLast?.any Value.isCollection then [.null] else []) ∧
      (visitIds (root.trailVisits cursor)).Nodup := by
  obtain ⟨root, hroot, h⟩ := bind_eq_ok_iff.mp h
  cases root with
  | none =>
      cases h
      exact Or.inl ⟨hroot, rfl, rfl⟩
  | some root =>
      obtain ⟨nodes, hgraph, hmem⟩ := Node.ofEvents_graph hroot
      have hdocument := ofNode_eq cursor hgraph hmem
      cases hvalue : root.value? with
      | none =>
          rw [hvalue] at hdocument
          obtain ⟨d, hd⟩ := hdocument
          cases hd.symm.trans h
      | some value =>
          rw [hvalue] at hdocument
          cases hdocument.symm.trans h
          refine Or.inr ⟨root, _, hroot, hvalue, rfl, ?_, trailVisits_nodup cursor root⟩
          unfold closeTrail
          split_ifs <;> simp

/-- A mapping that is merged and is also an alias, with the cursor on the key that its places
share. -/
theorem ofText_trail_merged_alias :
    ∃ (document : Document) (root : Node) (entries : List Value),
      ofText "[&x {b: c}, {<<: *x, d: *x}]".toList ⟨0, 5⟩ = .ok document ∧
      root.value? = some document.root ∧
      entries = (root.trailVisits ⟨0, 5⟩).flatMap Visit.entries ∧
      document.trail =
        entries ++ (if entries.getLast?.any Value.isCollection then [.null] else []) := by
  obtain ⟨document, h⟩ : ∃ document,
      ofText "[&x {b: c}, {<<: *x, d: *x}]".toList ⟨0, 5⟩ = .ok document :=
    exists_ok_of_isOk (by decide +kernel)
  have hsome : (Node.ofEvents (Event.ofText "[&x {b: c}, {<<: *x, d: *x}]".toList)).toOption.any
      Option.isSome = true := by decide +kernel
  rcases ofText_trail h with ⟨hnone, -⟩ | ⟨root, entries, -, hvalue, hentries, htrail, -⟩
  · rw [hnone] at hsome
    cases hsome
  · exact ⟨document, root, entries, h, hvalue, hentries, htrail⟩

end Document

end Playbook
