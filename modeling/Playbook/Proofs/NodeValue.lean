import Playbook.Proofs.NodeGraph
import Playbook.Document

/-!
The value of a node and the order in which its document is visited, as functions of the node alone.
Neither knows of a walk: a node that stands in several places has its value, and is visited, in each
of them.
-/

namespace Playbook

/-- A mapping from its entries in order. -/
def Mapping.ofEntries (entries : List (Key × Value)) : Mapping :=
  entries.foldl (fun m entry => m.insert entry.1 entry.2) []

namespace Mapping

theorem insert_of_not_mem {key : Key} {value : Value} {m : Mapping} (h : key ∉ m.map Prod.fst) :
    m.insert key value = m ++ [(key, value)] := by
  induction m with
  | nil => rfl
  | cons entry m ih =>
      rw [List.map_cons, List.mem_cons, not_or] at h
      rw [insert, if_neg (Ne.symm h.1), ih h.2]
      rfl

theorem foldl_insert {entries m : Mapping} (h : ((m ++ entries).map Prod.fst).Nodup) :
    entries.foldl (fun m entry => m.insert entry.1 entry.2) m = m ++ entries := by
  induction entries generalizing m with
  | nil => simp
  | cons entry entries ih =>
      have hnew : entry.1 ∉ m.map Prod.fst := by
        intro hmem
        rw [List.map_append, List.nodup_append] at h
        exact h.2.2 _ hmem _ List.mem_cons_self rfl
      rw [← List.singleton_append, ← List.append_assoc] at h
      rw [List.foldl_cons, insert_of_not_mem hnew, ih h, List.append_assoc, List.singleton_append]

/-- Entries with distinct keys all stay, in their order. -/
theorem ofEntries_eq_self {entries : List (Key × Value)} (h : (entries.map Prod.fst).Nodup) :
    ofEntries entries = entries :=
  foldl_insert (m := []) h

end Mapping

namespace Node

/-- The pairs of a mapping, with those it takes over in front; none if they cannot be merged. -/
def flat (node : Node) : Pairs := (node.flatPairs).toOption.getD []

theorem pairsBelow_flat (node : Node) : node.PairsBelow node.flat := by
  unfold flat
  cases h : node.flatPairs with
  | error d => exact fun pair hpair => by cases hpair
  | ok pairs => exact flatPairs_below node h

/-- The value of a scalar, if its tag is one for scalars and its number can be computed. -/
def scalarValue? (tag : Tag) (text : String) : Option Value :=
  match tag with
  | .seq | .map | .merge => none
  | .other uri => if Document.textTags.contains uri then some (.str text) else none
  | tag => (Document.scalarValue tag text).toOption

/-- The value of a node, if it has one. -/
def value? (node : Node) : Option Value :=
  match node with
  | .scalar head text _ => scalarValue? head.tag text
  | .sequence head items =>
      if head.tag = .seq then
        (items.attach.mapM fun (item : { item // item ∈ items }) => item.1.value?).map .seq
      else none
  | .mapping head pairs =>
      if head.tag = .map ∧ (mapping head pairs).flatPairs.isOk then
        ((mapping head pairs).flat.attach.mapM
          fun (pair : { pair // pair ∈ (mapping head pairs).flat }) => do
            let key ← pair.1.1.value?.bind Value.key?
            let value ← pair.1.2.value?
            return (key, value)).map (.map ∘ Mapping.ofEntries)
      else none
termination_by sizeOf node
decreasing_by
  · exact sizeOf_child item.2
  · exact sizeOf_below (pairsBelow_flat _ _ pair.2).1
  · exact sizeOf_below (pairsBelow_flat _ _ pair.2).2

/-- The entry of a mapping for a pair of nodes, if both have a value and the first can be a key. -/
def keyed? (pair : Node × Node) : Option (Key × Value) := do
  let key ← pair.1.value?.bind Value.key?
  let value ← pair.2.value?
  return (key, value)

theorem value?_scalar (head : NodeHead) (text : String) (style : Style) :
    (scalar head text style).value? = scalarValue? head.tag text := by
  rw [value?]

theorem value?_sequence (head : NodeHead) (items : List Node) :
    (sequence head items).value? =
      if head.tag = .seq then (items.mapM value?).map .seq else none := by
  rw [value?, List.mapM_subtype (fun _ _ => rfl), List.unattach_attach]

theorem value?_mapping (head : NodeHead) (pairs : Pairs) :
    (mapping head pairs).value? =
      if head.tag = .map ∧ (mapping head pairs).flatPairs.isOk then
        ((mapping head pairs).flat.mapM keyed?).map (.map ∘ Mapping.ofEntries)
      else none := by
  rw [value?, List.mapM_subtype (g := keyed?) (fun _ _ => rfl), List.unattach_attach]

/-- A merge key has no value of its own. -/
theorem tag_ne_merge {node : Node} {value : Value} (h : node.value? = some value) :
    node.tag ≠ .merge := by
  intro htag
  cases node with
  | scalar head text style =>
      rw [value?_scalar, show head.tag = .merge from htag] at h
      cases h
  | sequence head items =>
      rw [value?_sequence, show head.tag = .merge from htag] at h
      cases h
  | mapping head pairs =>
      rw [value?_mapping, show head.tag = .merge from htag] at h
      cases h

theorem mergedPairs_eq_nil {start : Mark} {pairs : Pairs}
    (h : ∀ pair ∈ pairs, pair.1.tag ≠ .merge) : mergedPairs start pairs = .ok [] := by
  induction pairs with
  | nil => rw [mergedPairs]
  | cons pair pairs ih =>
      obtain ⟨hpair, hpairs⟩ := List.forall_mem_cons.mp h
      rw [mergedPairs, if_neg (by simpa using hpair)]
      exact ih hpairs

/-- A mapping without merge keys has its own pairs only. -/
theorem flatPairs_eq_self {head : NodeHead} {pairs : Pairs}
    (h : ∀ pair ∈ pairs, pair.1.tag ≠ .merge) : (mapping head pairs).flatPairs = .ok pairs := by
  have hfilter : pairs.filter (·.1.tag != .merge) = pairs :=
    List.filter_eq_self.mpr fun pair hpair => by simpa using h pair hpair
  rw [flatPairs, mergedPairs_eq_nil h, hfilter]
  rfl

theorem keyed?_eq_some {pair : Node × Node} {key : Key} {value : Value}
    (hkey : pair.1.value? = some key.toValue) (hvalue : pair.2.value? = some value) :
    keyed? pair = some (key, value) := by
  rw [keyed?, hkey, hvalue]
  cases key <;> rfl

theorem tag_ne_merge_of_entry {pair : Node × Node} {entry : Key × Value}
    (h : keyed? pair = some entry) : pair.1.tag ≠ .merge := by
  obtain ⟨key, hkey, -⟩ := Option.bind_eq_some_iff.mp h
  obtain ⟨value, hvalue, -⟩ := Option.bind_eq_some_iff.mp hkey
  exact tag_ne_merge hvalue

theorem mapM_eq_some {α β : Type} {f : α → Option β} {as : List α} {bs : List β}
    (h : List.Forall₂ (fun a b => f a = some b) as bs) : as.mapM f = some bs := by
  induction h with
  | nil => rfl
  | cons hab _ ih => rw [List.mapM_cons, hab, ih]; rfl

theorem value?_items {head : NodeHead} {nodes : List Node} {items : List Value}
    (htag : head.tag = .seq)
    (h : List.Forall₂ (fun node item => node.value? = some item) nodes items) :
    (sequence head nodes).value? = some (.seq items) := by
  rw [value?_sequence, if_pos htag, mapM_eq_some h]
  rfl

/-- The value of a mapping whose own pairs are entries. -/
theorem value?_entries {head : NodeHead} {pairs : Pairs} {entries : List (Key × Value)}
    (htag : head.tag = .map)
    (h : List.Forall₂ (fun pair entry => keyed? pair = some entry) pairs entries) :
    (mapping head pairs).value? = some (.map (Mapping.ofEntries entries)) := by
  have hpairs : ∀ pair ∈ pairs, pair.1.tag ≠ .merge := by
    intro pair hpair
    obtain ⟨i, hi, rfl⟩ := List.getElem_of_mem hpair
    exact tag_ne_merge_of_entry (h.get hi (h.length_eq ▸ hi))
  have hflat : (mapping head pairs).flatPairs = .ok pairs := flatPairs_eq_self hpairs
  have hmap : (mapping head pairs).flat = pairs := by rw [flat, hflat]; rfl
  rw [value?_mapping, hmap, hflat, if_pos ⟨htag, rfl⟩, mapM_eq_some h]
  rfl

end Node

/-- A visit of a node, as the value of a key or not. -/
structure Visit where
  key : Option Key
  node : Node

namespace Node

/-- All visits of a node and what stands below it, in order. A collection is visited before what it
holds, and a key before its value. -/
def visits (key : Option Key) (node : Node) : List Visit :=
  ⟨key, node⟩ ::
    match node with
    | .scalar .. => []
    | .sequence _ items =>
        items.attach.flatMap fun (item : { item // item ∈ items }) => item.1.visits none
    | .mapping head pairs =>
        (mapping head pairs).flat.attach.flatMap
          fun (pair : { pair // pair ∈ (mapping head pairs).flat }) =>
            pair.1.1.visits none ++ pair.1.2.visits (pair.1.1.value?.bind Value.key?)
termination_by sizeOf node
decreasing_by
  · exact sizeOf_child item.2
  · exact sizeOf_below (pairsBelow_flat _ _ pair.2).1
  · exact sizeOf_below (pairsBelow_flat _ _ pair.2).2

/-- The visits of the nodes of a pair. -/
def pairVisits (pair : Node × Node) : List Visit :=
  pair.1.visits none ++ pair.2.visits (pair.1.value?.bind Value.key?)

/-- The visits below a node. -/
def innerVisits : Node → List Visit
  | scalar .. => []
  | sequence _ items => items.flatMap (visits none)
  | mapping head pairs => (mapping head pairs).flat.flatMap pairVisits

theorem visits_eq (key : Option Key) (node : Node) :
    node.visits key = ⟨key, node⟩ :: node.innerVisits := by
  cases node with
  | scalar head text style => rw [visits, innerVisits]
  | sequence head items =>
      rw [visits, innerVisits, List.flatMap_subtype (fun _ _ => rfl), List.unattach_attach]
  | mapping head pairs =>
      rw [visits, innerVisits, List.flatMap_subtype (g := pairVisits) (fun _ _ => rfl),
        List.unattach_attach]

end Node

end Playbook
