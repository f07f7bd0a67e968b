import Playbook.Proofs.NodeValue
import Playbook.Proofs.RenderedEvents

/-!
Composing the events of a rendered value gives a node of that value. Whatever is open when its first
event comes is still open behind its last one, and has the node as a new part.
-/

namespace Playbook

namespace Composition

variable {c : Composition} {event : Event} {node : Node} {frames : List Frame}

theorem attach_sequence {props : Properties} {start : Mark} {items : List Node}
    (hframes : c.frames = .sequence props start items :: frames) :
    c.attach node =
      .pending { c with frames := .sequence props start (node :: items) :: frames } := by
  rw [attach, hframes]

theorem attach_key {props : Properties} {start : Mark} {pairs : Node.Pairs}
    (hframes : c.frames = .mapping props start pairs none :: frames) :
    c.attach node =
      .pending { c with frames := .mapping props start pairs (some node) :: frames } := by
  rw [attach, hframes]

theorem attach_value {props : Properties} {start : Mark} {pairs : Node.Pairs} {key : Node}
    (hframes : c.frames = .mapping props start pairs (some key) :: frames) :
    c.attach node =
      .pending { c with frames := .mapping props start ((key, node) :: pairs) none :: frames } := by
  rw [attach, hframes]

theorem step_scalar {implicit : Bool} {text : String} {style : Style}
    (hkind : event.kind = .scalar .none implicit text style) :
    c.step event = .ok ({ c with count := c.count + 1 }.attach
      (.scalar ⟨c.count, .ofScalar text implicit, event.start, event.stop⟩ text style)) := by
  rw [step, hkind]
  rfl

theorem step_sequenceStart {flow : Bool} (hkind : event.kind = .sequenceStart .none flow) :
    c.step event =
      .ok (.pending { c with frames := .sequence .none event.start [] :: c.frames }) := by
  rw [step, hkind]
  rfl

theorem step_sequenceEnd {start : Mark} {items : List Node} (hkind : event.kind = .sequenceEnd)
    (hframes : c.frames = .sequence .none start items :: frames) :
    c.step event = .ok ({ c with count := c.count + 1, frames }.attach
      (.sequence ⟨c.count, .seq, start, event.stop⟩ items.reverse)) := by
  rw [step, hkind, hframes]
  rfl

theorem step_mappingStart {flow : Bool} (hkind : event.kind = .mappingStart .none flow) :
    c.step event =
      .ok (.pending { c with frames := .mapping .none event.start [] none :: c.frames }) := by
  rw [step, hkind]
  rfl

theorem step_mappingEnd {start : Mark} {pairs : Node.Pairs} (hkind : event.kind = .mappingEnd)
    (hframes : c.frames = .mapping .none start pairs none :: frames) :
    c.step event = .ok ({ c with count := c.count + 1, frames }.attach
      (.mapping ⟨c.count, .map, start, event.stop⟩ pairs.reverse)) := by
  rw [step, hkind, hframes]
  rfl

end Composition

namespace Node

open Value

/-- Go on composing from what a step has come to. -/
def proceed (feed : Feed Event) (rest : List Event) :
    Composition.Progress → Except Diagnostic (Node × List Event)
  | .complete node => .ok (node, rest)
  | .pending c => compose c feed rest

variable {feed : Feed Event} {events : List Event} {kinds more : List EventKind} {value : Value}

theorem compose_of_step {c : Composition} {event : Event} {progress : Composition.Progress}
    (hstep : c.step event = .ok progress) :
    compose c feed (event :: events) = proceed feed events progress := by
  rw [compose, hstep, ok_bind]
  cases progress <;> rfl

theorem exists_event {kind : EventKind} (h : events.map Event.kind = kind :: more) :
    ∃ event rest, events = event :: rest ∧ event.kind = kind ∧ rest.map Event.kind = more :=
  List.map_eq_cons_iff.mp h

/-- Events of these kinds are those of one node, and it has the value. -/
def Composes (kinds : List EventKind) (value : Value) : Prop :=
  ∀ (c : Composition) (feed : Feed Event) (events : List Event) (more : List EventKind),
    events.map Event.kind = kinds ++ more →
    ∃ node count rest, node.value? = some value ∧ rest.map Event.kind = more ∧
      compose c feed events = proceed feed rest ({ c with count }.attach node)

theorem composes_scalar {key : Key} (hkey : key.Writable) : Composes [key.event] key.toValue := by
  intro c feed events more hevents
  obtain ⟨event, rest, rfl, hkind, hrest⟩ := exists_event hevents
  refine ⟨_, _, rest, ?_, hrest, compose_of_step (Composition.step_scalar hkind)⟩
  rw [value?_scalar]
  exact Key.scalarValue?_content hkey

/-- The items of an open sequence. -/
theorem compose_items {flow : Bool} {items : List Value}
    (hitems : ∀ item ∈ items, Composes (item.eventKinds flow) item)
    {c : Composition} {start : Mark} {done : List Node} {frames : List Frame}
    (hframes : c.frames = .sequence .none start done :: frames) (feed : Feed Event)
    (hevents : events.map Event.kind = itemEvents flow items ++ more) :
    ∃ nodes count rest, List.Forall₂ (fun node item => node.value? = some item) nodes items ∧
      rest.map Event.kind = more ∧
      compose c feed events = compose { c with
        count
        frames := .sequence .none start (nodes.reverse ++ done) :: frames } feed rest := by
  induction items generalizing c done events with
  | nil =>
      refine ⟨[], c.count, events, .nil, hevents, ?_⟩
      rw [List.reverse_nil, List.nil_append, ← hframes]
  | cons item items ih =>
      obtain ⟨hitem, hitems⟩ := List.forall_mem_cons.mp hitems
      rw [itemEvents, List.append_assoc] at hevents
      obtain ⟨node, count, left, hnode, hleft, hcompose⟩ := hitem c feed events _ hevents
      rw [Composition.attach_sequence (c := { c with count }) hframes] at hcompose
      obtain ⟨nodes, count', rest, hnodes, hrest, hnext⟩ := ih hitems
        (c := { c with count, frames := .sequence .none start (node :: done) :: frames }) rfl hleft
      refine ⟨node :: nodes, count', rest, .cons hnode hnodes, hrest, ?_⟩
      rw [hcompose, proceed, hnext, List.reverse_cons, List.append_assoc]
      rfl

theorem composes_seq {flow : Bool} {items : List Value}
    (hitems : ∀ item ∈ items, Composes (item.eventKinds flow) item) :
    Composes ((seq items).eventKinds flow) (seq items) := by
  intro c feed events more hevents
  rw [eventKinds, List.cons_append, List.append_assoc] at hevents
  obtain ⟨event, body, rfl, hkind, hbody⟩ := exists_event hevents
  obtain ⟨nodes, count, left, hnodes, hleft, hcompose⟩ := compose_items hitems
    (c := { c with frames := .sequence .none event.start [] :: c.frames }) rfl feed hbody
  obtain ⟨stop, rest, rfl, hstop, hrest⟩ := exists_event hleft
  refine ⟨.sequence ⟨count, .seq, event.start, stop.stop⟩ nodes, count + 1, rest,
    value?_items rfl hnodes, hrest, ?_⟩
  rw [compose_of_step (Composition.step_sequenceStart hkind), proceed, hcompose,
    compose_of_step (Composition.step_sequenceEnd hstop rfl), List.append_nil,
    List.reverse_reverse]

/-- The entries of an open mapping. -/
theorem compose_entries {flow : Bool} {entries : List (Key × Value)}
    (hkeys : ∀ entry ∈ entries, entry.1.Writable)
    (hvalues : ∀ entry ∈ entries, Composes (entry.2.eventKinds flow) entry.2)
    {c : Composition} {start : Mark} {done : Pairs} {frames : List Frame}
    (hframes : c.frames = .mapping .none start done none :: frames) (feed : Feed Event)
    (hevents : events.map Event.kind = entryEvents flow entries ++ more) :
    ∃ pairs count rest, List.Forall₂ (fun pair entry => keyed? pair = some entry) pairs entries ∧
      rest.map Event.kind = more ∧
      compose c feed events = compose { c with
        count
        frames := .mapping .none start (pairs.reverse ++ done) none :: frames } feed rest := by
  induction entries generalizing c done events with
  | nil =>
      refine ⟨[], c.count, events, .nil, hevents, ?_⟩
      rw [List.reverse_nil, List.nil_append, ← hframes]
  | cons entry entries ih =>
      obtain ⟨key, value⟩ := entry
      obtain ⟨hkey, hkeys⟩ := List.forall_mem_cons.mp hkeys
      obtain ⟨hvalue, hvalues⟩ := List.forall_mem_cons.mp hvalues
      rw [entryEvents, List.cons_append, List.append_assoc] at hevents
      obtain ⟨keyNode, count, left, hkeyNode, hleft, hfirst⟩ :=
        composes_scalar hkey c feed events _ hevents
      rw [Composition.attach_key (c := { c with count }) hframes] at hfirst
      obtain ⟨node, count', left', hnode, hleft', hsecond⟩ := hvalue
        { c with count, frames := .mapping .none start done (some keyNode) :: frames } feed left _
        hleft
      rw [Composition.attach_value rfl] at hsecond
      obtain ⟨pairs, count'', rest, hpairs, hrest, hnext⟩ := ih hkeys hvalues
        (c := { c with
          count := count'
          frames := .mapping .none start ((keyNode, node) :: done) none :: frames })
        rfl hleft'
      refine ⟨(keyNode, node) :: pairs, count'', rest,
        .cons (keyed?_eq_some hkeyNode hnode) hpairs, hrest, ?_⟩
      rw [hfirst, proceed, hsecond, proceed, hnext, List.reverse_cons, List.append_assoc]
      rfl

theorem composes_map {flow : Bool} {entries : List (Key × Value)}
    (hdistinct : (entries.map Prod.fst).Nodup) (hkeys : ∀ entry ∈ entries, entry.1.Writable)
    (hvalues : ∀ entry ∈ entries, Composes (entry.2.eventKinds flow) entry.2) :
    Composes ((map entries).eventKinds flow) (map entries) := by
  intro c feed events more hevents
  rw [eventKinds, List.cons_append, List.append_assoc] at hevents
  obtain ⟨event, body, rfl, hkind, hbody⟩ := exists_event hevents
  obtain ⟨pairs, count, left, hpairs, hleft, hcompose⟩ := compose_entries hkeys hvalues
    (c := { c with frames := .mapping .none event.start [] none :: c.frames }) rfl feed hbody
  obtain ⟨stop, rest, rfl, hstop, hrest⟩ := exists_event hleft
  refine ⟨.mapping ⟨count, .map, event.start, stop.stop⟩ pairs, count + 1, rest, ?_, hrest, ?_⟩
  · rw [value?_entries rfl hpairs, Mapping.ofEntries_eq_self hdistinct]
  · rw [compose_of_step (Composition.step_mappingStart hkind), proceed, hcompose,
      compose_of_step (Composition.step_mappingEnd hstop rfl), List.append_nil,
      List.reverse_reverse]

theorem composes (hvalue : value.Writable) (flow : Bool) :
    Composes (value.eventKinds flow) value := by
  induction hvalue with
  | scalar hkey =>
      rw [eventKinds_toValue]
      exact composes_scalar hkey
  | seq _ hitems => exact composes_seq hitems
  | map hdistinct hkeys _ hvalues =>
      exact composes_map hdistinct (fun entry hentry => (hkeys entry hentry).1) hvalues

/-- The only document of a stream has the value that its events compose. -/
theorem ofEvents_of_composes (hcomposes : Composes kinds value)
    (hitems : feed.items.map Event.kind = EventStream.streamKinds kinds) :
    ∃ root, ofEvents feed = .ok (some root) ∧ root.value? = some value := by
  obtain ⟨start, items, hfeed, -, hitems⟩ := exists_event hitems
  obtain ⟨document, body, rfl, hdocument, hbody⟩ := exists_event hitems
  obtain ⟨root, count, left, hroot, hleft, hcompose⟩ := hcomposes .empty feed body _ hbody
  obtain ⟨stop, ends, rfl, -, hends⟩ := exists_event hleft
  obtain ⟨last, rest, rfl, hlast, -⟩ := exists_event hends
  refine ⟨root, ?_, hroot⟩
  have hopen : atStreamEnd feed (document :: body) = .ok false := by
    rw [atStreamEnd, hdocument]
    rfl
  have hclosed : atStreamEnd feed (last :: rest) = .ok true := by
    rw [atStreamEnd, hlast]
    rfl
  rw [ofEvents, hfeed]
  simp only [hopen, ok_bind, List.tail_cons, hcompose]
  simp only [proceed, Composition.attach, Composition.empty, ok_bind, hclosed]
  rfl

end Node

end Playbook
