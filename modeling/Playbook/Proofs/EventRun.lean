import Playbook.Proofs.EventFault

/-!
Whole runs of the event machine. The events of a text form a stream of documents, or the beginning
of one if a fault cuts them short.
-/

namespace Playbook

namespace EventStream

open EventGrammar

theorem expect_self {s : EventStream} {e : Expect} (h : s.state = some e) : s.expect e = s := by
  cases s
  cases h
  rfl

theorem next_of_state_none {s : EventStream} (hready : s.ready = none) (hstate : s.state = none) :
    s.next = .ok (none, s) := by
  cases s
  cases hready
  cases hstate
  rfl

theorem next_of_state_some {s : EventStream} {e : Expect} (hready : s.ready = none)
    (hstate : s.state = some e) :
    s.next = s.step e >>= fun (event, s') => .ok (some event, { s' with ready := none }) := by
  unfold next peek
  rw [hready, hstate]
  dsimp only
  cases s.step e <;> rfl

/-- What is known of the machine between two events. -/
structure Steady (s : EventStream) : Prop where
  sound : s.Sound
  ready : s.ready = none

theorem Steady.sound_expect {s : EventStream} {e : Expect} (h : s.Steady)
    (hstate : s.state = some e) : (s.expect e).Sound := by
  rw [expect_self hstate]
  exact h.sound

theorem Steady.next {s s' : EventStream} {event : Event} (h : s.Steady)
    (hnext : s.next = .ok (some event, s')) :
    s'.Steady ∧ s'.load < s.load ∧ s'.tokens.fault = s.tokens.fault ∧
      ∀ w, StackRest s'.stack w → StackRest s.stack (event :: w) := by
  cases hstate : s.state with
  | none =>
      rw [next_of_state_none h.ready hstate] at hnext
      cases hnext
  | some e =>
      rw [next_of_state_some h.ready hstate] at hnext
      obtain ⟨⟨event', s₁⟩, hstep, hnext⟩ := bind_eq_ok_iff.mp hnext
      cases hnext
      have hyields := step_yields (h.sound_expect hstate) hstep
      have hsound := hyields.sound (h.sound_expect hstate)
      have hstack : s.stack = e :: s.pending := by simp [stack, hstate]
      refine ⟨⟨⟨hsound.supplied, hsound.opening, hsound.outside, hsound.inside,
        hsound.finished⟩, rfl⟩, ?_, hyields.fault, ?_⟩
      · have hload := hyields.load
        unfold load at hload ⊢
        rw [hstack, stackWeight_cons]
        change 4 * s₁.tokens.items.length + stackWeight s₁.stack < _
        omega
      · rw [hstack]
        exact hyields.rest

theorem Steady.state_of_next_none {s s' : EventStream} (h : s.Steady)
    (hnext : s.next = .ok (none, s')) : s.state = none ∧ s' = s := by
  cases hstate : s.state with
  | none =>
      rw [next_of_state_none h.ready hstate] at hnext
      cases hnext
      exact ⟨rfl, rfl⟩
  | some e =>
      rw [next_of_state_some h.ready hstate] at hnext
      obtain ⟨_, _, hnext⟩ := bind_eq_ok_iff.mp hnext
      cases hnext

theorem Steady.next_fair {s : EventStream} (h : s.Steady) : Fair s.tokens s.next := by
  cases hstate : s.state with
  | none =>
      rw [next_of_state_none h.ready hstate]
      exact fair_ok _
  | some e =>
      rw [next_of_state_some h.ready hstate]
      exact fair_bind (step_fair (h.sound_expect hstate)) fun _ _ => fair_ok _

theorem Steady.stack_ne_nil {s : EventStream} {d : Diagnostic} (h : s.Steady)
    (hnext : s.next = .error d) : s.stack ≠ [] := by
  cases hstate : s.state with
  | none =>
      rw [next_of_state_none h.ready hstate] at hnext
      cases hnext
  | some e => simp [stack, hstate]

theorem exists_rest (e : Expect) : ∃ w, w ≠ [] ∧ Rest e w := by
  have hnode : Phrase.node.Derives [Event.empty .origin] := .scalar _ _ _ _ _ _
  have hsequence := sequenceRest_stop .origin .origin
  have hmapping := mappingRest_stop .origin .origin
  have hpair : MappingEndThen SequenceRest _ := ⟨.origin, .origin, _, hsequence, rfl⟩
  have hstream := streamRest_stop .origin .origin
  cases e with
  | streamStart => exact ⟨_, by simp, .stream .origin .origin .origin .origin .noDocuments⟩
  | implicitDocumentStart => exact ⟨_, by simp, hstream⟩
  | documentStart => exact ⟨_, by simp, hstream⟩
  | documentContent => exact ⟨_, by simp, hnode⟩
  | documentEnd => exact ⟨_, by simp, .origin, .origin, _, hstream, rfl⟩
  | blockNode => exact ⟨_, by simp, hnode⟩
  | blockSequenceFirst => exact ⟨_, by simp, hsequence⟩
  | blockSequenceEntry => exact ⟨_, by simp, hsequence⟩
  | indentlessEntry => exact ⟨_, by simp, hsequence⟩
  | blockMappingFirst => exact ⟨_, by simp, hmapping⟩
  | blockMappingKey => exact ⟨_, by simp, hmapping⟩
  | blockMappingValue => exact ⟨_, by simp, nodeThen_empty .origin hmapping⟩
  | flowSequenceFirst => exact ⟨_, by simp, hsequence⟩
  | flowSequenceEntry => exact ⟨_, by simp, hsequence⟩
  | pairKey => exact ⟨_, by simp, nodeThen_empty .origin (nodeThen_empty .origin hpair)⟩
  | pairValue => exact ⟨_, by simp, nodeThen_empty .origin hpair⟩
  | pairEnd => exact ⟨_, by simp, hpair⟩
  | flowMappingFirst => exact ⟨_, by simp, hmapping⟩
  | flowMappingKey => exact ⟨_, by simp, hmapping⟩
  | flowMappingValue => exact ⟨_, by simp, nodeThen_empty .origin hmapping⟩
  | flowMappingNoValue => exact ⟨_, by simp, nodeThen_empty .origin hmapping⟩

/-- Whatever the machine has begun can be brought to its end. -/
theorem exists_stackRest (stack : List Expect) :
    ∃ w, StackRest stack w ∧ (stack ≠ [] → w ≠ []) := by
  induction stack with
  | nil => exact ⟨[], rfl, fun h => absurd rfl h⟩
  | cons e es ih =>
      obtain ⟨u, hne, hu⟩ := exists_rest e
      obtain ⟨v, hv, -⟩ := ih
      exact ⟨u ++ v, ⟨u, v, hu, hv, rfl⟩, fun _ h => hne (List.append_eq_nil_iff.mp h).1⟩

/-- The machine `s` has handed out `events` and become the machine on the right. -/
inductive Reaches (s : EventStream) : List Event → EventStream → Prop
  | start : Reaches s [] s
  | next {events : List Event} {s₁ s₂ : EventStream} {event : Event}
      (h : Reaches s events s₁) (hnext : s₁.next = .ok (some event, s₂)) :
      Reaches s (events ++ [event]) s₂

theorem Reaches.steady {s s' : EventStream} {events : List Event} (h : s.Reaches events s')
    (hsteady : s.Steady) :
    s'.Steady ∧ s'.tokens.fault = s.tokens.fault ∧
      ∀ w, StackRest s'.stack w → StackRest s.stack (events ++ w) := by
  induction h with
  | start => exact ⟨hsteady, rfl, fun w hw => hw⟩
  | next _ hnext ih =>
      obtain ⟨hsteady', hfault, hrest⟩ := ih
      obtain ⟨hsteady'', -, hfault', hrest'⟩ := hsteady'.next hnext
      refine ⟨hsteady'', hfault'.trans hfault, fun w hw => ?_⟩
      rw [List.append_assoc]
      exact hrest _ (hrest' w hw)

/-- With enough fuel the whole run is handed out: behind the events that were collected the machine
has nothing more to hand out, or fails with the fault that was noted. -/
theorem collect_reaches {n : Nat} {s₀ s : EventStream} {events : List Event} (hsteady : s.Steady)
    (hload : s.load < n) (h : s₀.Reaches events s) :
    ∃ s', s₀.Reaches (events ++ (s.collect n).items) s' ∧
      s'.next = (s.collect n).fault.elim (.ok (none, s')) .error := by
  induction n generalizing s events with
  | zero => omega
  | succ n ih =>
      cases hnext : s.next with
      | error d =>
          refine ⟨s, ?_, ?_⟩
          · simpa [collect, hnext] using h
          · simp [collect, hnext]
      | ok result =>
          obtain ⟨_ | event, s'⟩ := result
          · obtain ⟨-, rfl⟩ := hsteady.state_of_next_none hnext
            refine ⟨s', ?_, ?_⟩
            · simpa [collect, hnext] using h
            · simp [collect, hnext]
          · obtain ⟨hsteady', hload', -⟩ := hsteady.next hnext
            obtain ⟨s'', hreaches, hlast⟩ := ih hsteady' (by omega) (h.next hnext)
            refine ⟨s'', ?_, ?_⟩
            · simpa [collect, hnext, Feed.cons] using hreaches
            · simpa [collect, hnext, Feed.cons] using hlast

end EventStream

end Playbook
