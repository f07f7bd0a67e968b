import Playbook.Proofs.EventGrammar
import Playbook.Document

/-!
Composing the events of a stream. The open collections of a composition say which events they wait
for. A stream of the grammar brings just these, so that the composer stops for the sake of an
anchor, or where a fault has cut the events short, and nowhere else.
-/

namespace Playbook

namespace EventGrammar

/-- Items up to the end of their sequence, and then something else. -/
def ItemsThen (rest : List Event → Prop) (w : List Event) : Prop :=
  ∃ body tail, SequenceRest body ∧ rest tail ∧ w = body ++ tail

/-- Pairs up to the end of their mapping, and then something else. -/
def PairsThen (rest : List Event → Prop) (w : List Event) : Prop :=
  ∃ body tail, MappingRest body ∧ rest tail ∧ w = body ++ tail

/-- The event stands for a whole node. -/
def IsLeaf (event : Event) : Prop :=
  (∃ props implicit text style, event.kind = .scalar props implicit text style) ∨
    ∃ name, event.kind = .aliasOf name

theorem nodeThen_cons {rest : List Event → Prop} {event : Event} {w : List Event}
    (h : NodeThen rest (event :: w)) :
    IsLeaf event ∧ rest w ∨
      (∃ props flow, event.kind = .sequenceStart props flow) ∧ ItemsThen rest w ∨
      (∃ props flow, event.kind = .mappingStart props flow) ∧ PairsThen rest w := by
  obtain ⟨head, tail, hhead, htail, hw⟩ := h
  cases hhead with
  | scalar props implicit text style start stop =>
      cases hw
      exact Or.inl ⟨Or.inl ⟨props, implicit, text, style, rfl⟩, htail⟩
  | aliasOf name start stop =>
      cases hw
      exact Or.inl ⟨Or.inr ⟨name, rfl⟩, htail⟩
  | sequence props flow start stop start' stop' hbody =>
      cases hw
      exact Or.inr (Or.inl
        ⟨⟨props, flow, rfl⟩, _, tail, ⟨_, start', stop', hbody, rfl⟩, htail, rfl⟩)
  | mapping props flow start stop start' stop' hbody =>
      cases hw
      exact Or.inr (Or.inr
        ⟨⟨props, flow, rfl⟩, _, tail, ⟨_, start', stop', hbody, rfl⟩, htail, rfl⟩)

theorem itemsThen_cons {rest : List Event → Prop} {event : Event} {w : List Event}
    (h : ItemsThen rest (event :: w)) :
    event.kind = .sequenceEnd ∧ rest w ∨ NodeThen (ItemsThen rest) (event :: w) := by
  obtain ⟨_, tail, ⟨body, start, stop, hbody, rfl⟩, htail, hw⟩ := h
  cases hbody with
  | noItems =>
      cases hw
      exact Or.inl ⟨rfl, htail⟩
  | item hhead hitems =>
      refine Or.inr ⟨_, _, hhead, ⟨_, tail, ⟨_, start, stop, hitems, rfl⟩, htail, rfl⟩, ?_⟩
      rw [hw]
      simp

theorem pairsThen_cons {rest : List Event → Prop} {event : Event} {w : List Event}
    (h : PairsThen rest (event :: w)) :
    event.kind = .mappingEnd ∧ rest w ∨
      NodeThen (NodeThen (PairsThen rest)) (event :: w) := by
  obtain ⟨_, tail, ⟨body, start, stop, hbody, rfl⟩, htail, hw⟩ := h
  cases hbody with
  | noPairs =>
      cases hw
      exact Or.inl ⟨rfl, htail⟩
  | pair hkey hvalue hpairs =>
      refine Or.inr ⟨_, _, hkey, ⟨_, _, hvalue,
        ⟨_, tail, ⟨_, start, stop, hpairs, rfl⟩, htail, rfl⟩, rfl⟩, ?_⟩
      rw [hw]
      simp

theorem streamRest_cons {event : Event} {w : List Event} (h : StreamRest (event :: w)) :
    event.kind = .streamEnd ∧ w = [] ∨
      (∃ explicit, event.kind = .documentStart explicit) ∧ NodeThen DocumentRest w := by
  obtain ⟨body, start, stop, hbody, hw⟩ := h
  cases hbody with
  | noDocuments =>
      cases hw
      exact Or.inl ⟨rfl, rfl⟩
  | document explicit a b a' b' hroot hdocuments =>
      cases hw
      refine Or.inr ⟨⟨explicit, rfl⟩, _, _, hroot,
        ⟨a', b', _, ⟨_, start, stop, hdocuments, rfl⟩, rfl⟩, ?_⟩
      simp

theorem node_ne_nil {w : List Event} (h : Phrase.node.Derives w) : w ≠ [] := by
  cases h <;> simp

theorem nodeThen_ne_nil {rest : List Event → Prop} {w : List Event} (h : NodeThen rest w) :
    w ≠ [] := by
  obtain ⟨head, tail, hhead, -, rfl⟩ := h
  exact List.append_ne_nil_of_left_ne_nil (node_ne_nil hhead) tail

end EventGrammar

namespace Composition

open EventGrammar

/-- The events that may follow once the innermost open collection has got its next node. -/
def After (rest : List Event → Prop) : List Frame → List Event → Prop
  | [] => rest
  | .sequence .. :: frames => ItemsThen (After rest frames)
  | .mapping _ _ _ none :: frames => NodeThen (PairsThen (After rest frames))
  | .mapping _ _ _ (some _) :: frames => PairsThen (After rest frames)

/-- The events that may come next while collections are open; `rest` may follow the root. -/
def Awaits (rest : List Event → Prop) : List Frame → List Event → Prop
  | [] => NodeThen rest
  | .sequence .. :: frames => ItemsThen (After rest frames)
  | .mapping _ _ _ none :: frames => PairsThen (After rest frames)
  | .mapping _ _ _ (some _) :: frames => NodeThen (PairsThen (After rest frames))

/-- An anchor is given twice or referred to before it is given. -/
def AnchorFault (d : Diagnostic) : Prop :=
  d.stage = .nodes ∧ (d.problem = .secondAnchor ∨ ∃ name, d.problem = .undefinedAlias name)

/-- The outcome of a step after which `w` is still to come. -/
def Goes (rest : List Event → Prop) (w : List Event) : Except Diagnostic Progress → Prop
  | .error d => AnchorFault d
  | .ok (.complete _) => rest w
  | .ok (.pending c) => Awaits rest c.frames w

variable {rest : List Event → Prop} {w : List Event} {c : Composition} {event : Event}

theorem attach_goes (node : Node) (h : After rest c.frames w) :
    Goes rest w (.ok (c.attach node)) := by
  unfold attach
  cases hframes : c.frames with
  | nil =>
      rw [hframes] at h
      exact h
  | cons frame frames =>
      rw [hframes] at h
      cases frame with
      | sequence props start items => exact h
      | mapping props start pairs key =>
          cases key with
          | none => exact h
          | some key => exact h

theorem finish_goes (props : Properties) (node : Node) (h : After rest c.frames w) :
    Goes rest w (.ok (c.finish props node)) := by
  unfold finish
  cases props.anchor with
  | none => exact attach_goes node h
  | some name => exact attach_goes node h

theorem checkAnchor_faults {anchor : Option String} {start : Mark} {d : Diagnostic}
    (h : c.checkAnchor anchor start = .error d) : AnchorFault d := by
  unfold checkAnchor at h
  split at h
  · cases h
  · split at h
    · cases h
    · cases h
      exact ⟨rfl, Or.inl rfl⟩

theorem checkAnchor_goes {anchor : Option String} {start : Mark}
    {f : Unit → Except Diagnostic Progress} (h : Goes rest w (f ())) :
    Goes rest w (c.checkAnchor anchor start >>= f) := by
  cases hcheck : c.checkAnchor anchor start with
  | error d => exact checkAnchor_faults hcheck
  | ok _ => exact h

theorem awaits_cons (h : Awaits rest c.frames (event :: w)) :
    NodeThen (After rest c.frames) (event :: w) ∨
    (∃ props start items frames, c.frames = .sequence props start items :: frames ∧
      event.kind = .sequenceEnd ∧ After rest frames w) ∨
    ∃ props start pairs frames, c.frames = .mapping props start pairs none :: frames ∧
      event.kind = .mappingEnd ∧ After rest frames w := by
  cases hframes : c.frames with
  | nil =>
      rw [hframes] at h
      exact Or.inl h
  | cons frame frames =>
      rw [hframes] at h
      cases frame with
      | sequence props start items =>
          rcases itemsThen_cons h with ⟨hkind, hrest⟩ | hnode
          · exact Or.inr (Or.inl ⟨props, start, items, frames, rfl, hkind, hrest⟩)
          · exact Or.inl hnode
      | mapping props start pairs key =>
          cases key with
          | none =>
              rcases pairsThen_cons h with ⟨hkind, hrest⟩ | hnode
              · exact Or.inr (Or.inr ⟨props, start, pairs, frames, rfl, hkind, hrest⟩)
              · exact Or.inl hnode
          | some key => exact Or.inl h

/-- The composer goes along with each event that may come next. -/
theorem step_goes (h : Awaits rest c.frames (event :: w)) : Goes rest w (c.step event) := by
  rcases awaits_cons h with hnode | hstop | hstop
  · rcases nodeThen_cons hnode with ⟨hleaf, hrest⟩ | ⟨⟨props, flow, hkind⟩, hrest⟩ |
      ⟨⟨props, flow, hkind⟩, hrest⟩
    · rcases hleaf with ⟨props, implicit, text, style, hkind⟩ | ⟨name, hkind⟩
      · simp only [step, hkind]
        exact checkAnchor_goes (finish_goes props _ hrest)
      · simp only [step, hkind]
        cases c.anchors.lookup name with
        | none => exact ⟨rfl, Or.inr ⟨name, rfl⟩⟩
        | some node => exact attach_goes node hrest
    · simp only [step, hkind]
      exact checkAnchor_goes hrest
    · simp only [step, hkind]
      exact checkAnchor_goes hrest
  · obtain ⟨props, start, items, frames, hframes, hkind, hrest⟩ := hstop
    simp only [step, hkind, hframes]
    exact finish_goes props _ hrest
  · obtain ⟨props, start, pairs, frames, hframes, hkind, hrest⟩ := hstop
    simp only [step, hkind, hframes]
    exact finish_goes props _ hrest

theorem awaits_ne_nil {frames : List Frame} (h : Awaits rest frames w) : w ≠ [] := by
  cases frames with
  | nil => exact nodeThen_ne_nil h
  | cons frame frames =>
      cases frame with
      | sequence props start items =>
          obtain ⟨_, tail, ⟨body, a, b, -, rfl⟩, -, rfl⟩ := h
          simp
      | mapping props start pairs key =>
          cases key with
          | none =>
              obtain ⟨_, tail, ⟨body, a, b, -, rfl⟩, -, rfl⟩ := h
              simp
          | some key => exact nodeThen_ne_nil h

/-- The run of the composer over the beginning `events` of what it waits for. -/
theorem compose_goes (feed : Feed Event) {events missing : List Event}
    (h : Awaits rest c.frames (events ++ missing)) :
    match Node.compose c feed events with
    | .error d => AnchorFault d ∨ missing ≠ [] ∧ d = feed.endedEarly
    | .ok (_, left) => rest (left ++ missing) := by
  induction events generalizing c with
  | nil => exact Or.inr ⟨awaits_ne_nil h, rfl⟩
  | cons event events ih =>
      have hstep := step_goes h
      rw [Node.compose]
      cases hresult : c.step event with
      | error d =>
          rw [hresult] at hstep
          exact Or.inl hstep
      | ok progress =>
          rw [hresult] at hstep
          cases progress with
          | complete node => exact hstep
          | pending c' => exact ih hstep

end Composition

namespace Node

open EventGrammar

/-- The stream has a second document. -/
def SecondDocument (d : Diagnostic) : Prop :=
  d.stage = .nodes ∧ d.problem = .anotherDocument

theorem atStreamEnd_eq_error {feed : Feed Event} {events : List Event} {d : Diagnostic}
    (h : atStreamEnd feed events = .error d) : feed.fault = some d := by
  unfold atStreamEnd at h
  split at h
  · split at h
    · rename_i hfault
      cases h
      exact hfault
    · cases h
  · cases h

theorem atStreamEnd_eq_false {feed : Feed Event} {events : List Event}
    (h : atStreamEnd feed events = .ok false) :
    ∃ event rest, events = event :: rest ∧ event.kind ≠ .streamEnd := by
  unfold atStreamEnd at h
  split at h
  · split at h <;> cases h
  · rename_i event rest
    simp only [Except.ok.injEq] at h
    exact ⟨event, rest, rfl, by simpa using h⟩

theorem endedEarly_of_fault {feed : Feed Event} (h : feed.fault ≠ none) :
    feed.fault = some feed.endedEarly := by
  cases hfault : feed.fault with
  | none => exact absurd hfault h
  | some d => simp [Feed.endedEarly, hfault]

theorem stream_cons {first : Event} {w : List Event} (h : Phrase.stream.Derives (first :: w)) :
    StreamRest w := by
  cases h with
  | stream start stop start' stop' hbody => exact ⟨_, start', stop', hbody, rfl⟩

/-- A stream of the grammar, or the part of it that comes before a fault, is refused for an anchor,
for a second document or for the fault. -/
theorem ofEvents_faults {feed : Feed Event} {missing : List Event} {d : Diagnostic}
    (hstream : Phrase.stream.Derives (feed.items ++ missing))
    (hcut : missing ≠ [] → feed.fault ≠ none) (h : ofEvents feed = .error d) :
    feed.fault = some d ∨ Composition.AnchorFault d ∨ SecondDocument d := by
  have hearly : missing ≠ [] → feed.fault = some feed.endedEarly :=
    fun hmissing => endedEarly_of_fault (hcut hmissing)
  unfold ofEvents at h
  -- In the order of reading: the start, the root, its end and whatever stands behind it.
  cases hitems : feed.items with
  | nil =>
      rw [hitems] at h hstream
      cases h
      refine Or.inl (hearly ?_)
      rintro rfl
      cases hstream
  | cons first events =>
      rw [hitems] at h hstream
      have hrest : StreamRest (events ++ missing) := stream_cons hstream
      rcases bind_eq_error_iff.mp h with hend | ⟨ends, hend, h⟩
      · exact Or.inl (atStreamEnd_eq_error hend)
      cases ends with
      | true => cases h
      | false =>
          obtain ⟨event, events, rfl, hkind⟩ := atStreamEnd_eq_false hend
          rcases streamRest_cons hrest with ⟨hstop, -⟩ | ⟨-, hdocument⟩
          · exact absurd hstop hkind
          have hcompose := Composition.compose_goes (c := .empty) feed hdocument
          rcases bind_eq_error_iff.mp h with hroot | ⟨⟨node, left⟩, hroot, h⟩
          · simp only [List.tail_cons] at hroot
            rw [hroot] at hcompose
            rcases hcompose with hanchor | ⟨hmissing, rfl⟩
            · exact Or.inr (Or.inl hanchor)
            · exact Or.inl (hearly hmissing)
          · simp only [List.tail_cons] at hroot
            rw [hroot] at hcompose
            cases left with
            | nil =>
                cases h
                obtain ⟨start, stop, tail, -, htail⟩ := hcompose
                refine Or.inl (hearly ?_)
                rintro rfl
                cases htail
            | cons stop rest =>
                rcases bind_eq_error_iff.mp h with hend | ⟨ends, -, h⟩
                · exact Or.inl (atStreamEnd_eq_error hend)
                · cases ends with
                  | true => cases h
                  | false =>
                      cases h
                      exact Or.inr (Or.inr ⟨rfl, rfl⟩)

end Node

end Playbook
