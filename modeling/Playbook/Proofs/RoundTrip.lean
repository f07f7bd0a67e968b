import Playbook.Proofs.ComposedValue
import Playbook.Proofs.Trail

/-!
Reading gives back what was written: the document of a rendered value has that value for its root,
wherever the cursor stands.
-/

namespace Playbook

namespace Value

/-- A key with an escape, and collections that end two at a time. -/
def nested : Value :=
  .map [(.str "k\n", .seq [.map [(.int (-7), .seq []), (.bool true, .seq [.null])]]),
    (.null, .map [])]

theorem nested_writable : nested.Writable := by
  have hnull : null.Writable := @Writable.scalar .null trivial
  have hentries : (map [(.int (-7), .seq []), (.bool true, .seq [.null])]).Writable :=
    .map (by decide) (by decide +kernel) (by simp [hnull, Writable.seq])
  exact .map (by decide) (by decide +kernel)
    (by simp [hentries, Writable.seq, Writable.map])

end Value

namespace Document

/-- Events that compose a value give a document of that value. -/
theorem ofText_of_composes {text : List Char} {events : List Event} {kinds : List EventKind}
    {value : Value} (hevents : Event.ofText text = ⟨events, none⟩)
    (hkinds : events.map Event.kind = EventStream.streamKinds kinds)
    (hvalue : Node.Composes kinds value) (cursor : Cursor) :
    ∃ document, ofText text cursor = .ok document ∧ document.root = value := by
  obtain ⟨root, hroot, hrootValue⟩ : ∃ root, Node.ofEvents (Event.ofText text) = .ok (some root) ∧
      root.value? = some value := by
    rw [hevents]
    exact Node.ofEvents_of_composes hvalue hkinds
  obtain ⟨nodes, hgraph, hmem⟩ := Node.ofEvents_graph hroot
  have hdocument := ofNode_eq cursor hgraph hmem
  rw [hrootValue] at hdocument
  exact ⟨_, bind_eq_ok_iff.mpr ⟨some root, hroot, hdocument⟩, rfl⟩

/-- Every value that can be written is read back from its block form. -/
theorem blockText_roundTrip {value : Value} (hvalue : value.Writable) (cursor : Cursor) :
    ∃ document, ofText value.blockText cursor = .ok document ∧ document.root = value := by
  obtain ⟨events, hevents, hkinds⟩ := Event.ofText_blockText hvalue
  exact ofText_of_composes hevents hkinds (Node.composes hvalue false) cursor

theorem blockText_roundTrip_nested :
    Value.nested.Writable ∧ ∃ document, ofText ("\"k\\x0a\":\n  -\n    -7: []\n    true:\n" ++
      "      - null\nnull: \x7b\x7d\n").toList ⟨3, 8⟩ = .ok document ∧
        document.root = Value.nested :=
  ⟨Value.nested_writable, blockText_roundTrip Value.nested_writable ⟨3, 8⟩⟩

/-- Every value that can be written is read back from its flow form. -/
theorem flowText_roundTrip {value : Value} (hvalue : value.Writable) (cursor : Cursor) :
    ∃ document, ofText value.flowText cursor = .ok document ∧ document.root = value := by
  obtain ⟨events, hevents, hkinds⟩ := Event.ofText_flowText hvalue
  exact ofText_of_composes hevents hkinds (Node.composes hvalue true) cursor

theorem flowText_roundTrip_nested :
    Value.nested.Writable ∧ ∃ document,
      ofText "\x7b\"k\\x0a\": [\x7b-7: [], true: [null]\x7d], null: \x7b\x7d\x7d".toList ⟨0, 12⟩ =
        .ok document ∧ document.root = Value.nested :=
  ⟨Value.nested_writable, flowText_roundTrip Value.nested_writable ⟨0, 12⟩⟩

end Document

end Playbook
