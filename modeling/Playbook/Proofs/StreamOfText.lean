import Playbook.Proofs.Composing
import Playbook.Proofs.DocumentFault
import Playbook.Proofs.EventRun

/-!
The events of a text. The tokens of every text bring the event machine into its invariant, so its
events form a stream of the grammar, or the beginning of one if a fault cuts them short; and what
the machine yields the composer accepts.
-/

namespace Playbook

/-- The end of the stream is no part of a document. -/
theorem Phrase.Derives.ne_streamEnd {phrase : Phrase} {w : List Event} (h : phrase.Derives w)
    (hphrase : phrase ≠ .stream) : ∀ event ∈ w, event.kind ≠ .streamEnd := by
  induction h with
  | scalar | aliasOf => simp
  | sequence _ _ _ _ _ _ _ ih | mapping _ _ _ _ _ _ _ ih =>
      have hbody := ih (by simp)
      simpa [or_imp, forall_and] using hbody
  | noItems | noPairs | noDocuments => simp
  | item _ _ ihhead ihtail =>
      intro event hevent
      rcases List.mem_append.mp hevent with hhead | htail
      · exact ihhead (by simp) event hhead
      · exact ihtail (by simp) event htail
  | pair _ _ _ ihkey ihvalue ihtail =>
      intro event hevent
      simp only [List.mem_append] at hevent
      rcases hevent with hkey | hvalue | htail
      · exact ihkey (by simp) event hkey
      · exact ihvalue (by simp) event hvalue
      · exact ihtail (by simp) event htail
  | document _ _ _ _ _ _ _ ihroot ihtail =>
      have hroot := ihroot (by simp)
      have htail := ihtail (by simp)
      simp only [List.mem_cons, List.mem_append]
      rintro event (rfl | hevent | rfl | hevent)
      · simp
      · exact hroot event hevent
      · simp
      · exact htail event hevent
  | stream => exact absurd rfl hphrase

/-- The events so far end with the end of the stream. -/
def Event.Ended (events : List Event) : Prop :=
  ∃ event, events.getLast? = some event ∧ event.kind = .streamEnd

/-- A stream goes on to its end and not beyond. -/
theorem Phrase.Derives.ended_iff {events w : List Event}
    (h : Phrase.stream.Derives (events ++ w)) : Event.Ended events ↔ w = [] := by
  generalize hword : events ++ w = word at h
  cases h with
  | stream start stop start' stop' hbody =>
      rename_i body
      have hinner := hbody.ne_streamEnd (by simp)
      constructor
      · rintro ⟨event, hlast, hkind⟩
        by_contra hw
        obtain ⟨init, last, rfl⟩ := (List.eq_nil_or_concat w).resolve_left hw
        rw [List.concat_eq_append, ← List.append_assoc, ← List.cons_append] at hword
        have hinit := (List.append_inj' hword rfl).1
        have hevent : event ∈ (⟨.streamStart, start, stop⟩ :: body : List Event) := by
          rw [← hinit]
          exact List.mem_append_left init (List.mem_of_getLast? hlast)
        rcases List.mem_cons.mp hevent with rfl | hevent
        · cases hkind
        · exact hinner event hevent hkind
      · rintro rfl
        rw [List.append_nil] at hword
        refine ⟨⟨.streamEnd, start', stop'⟩, ?_, rfl⟩
        rw [hword, ← List.cons_append, List.getLast?_concat]

namespace EventStream

open EventGrammar

theorem stackRest_start {w : List Event} (h : StackRest [.streamStart] w) :
    Phrase.stream.Derives w := by
  obtain ⟨u, v, hu, hv, rfl⟩ := h
  rw [hv, List.append_nil]
  exact hu

/-- The machine at the start of a text. -/
def ofText (text : List Char) : EventStream := start (Token.ofText text)

theorem ofText_steady (text : List Char) : (ofText text).Steady := by
  refine ⟨⟨fun _ => Token.ofText_closed, ?_, fun _ _ _ => rfl, ?_, fun h => by cases h⟩, rfl⟩
  · intro e _ _
    obtain ⟨rest, hitems⟩ := Token.ofText_first text
    exact ⟨_, rest, hitems, by simp⟩
  · intro e he houter
    cases he
    exact absurd (by decide) houter

theorem ofText_load (text : List Char) :
    (ofText text).load < 4 * (Token.ofText text).items.length + 8 := by
  simp [load, ofText, start, stack, stackWeight, weight]

variable {text : List Char} {events : List Event} {s : EventStream}

theorem Reaches.stream (h : (ofText text).Reaches events s) {w : List Event}
    (hw : StackRest s.stack w) : Phrase.stream.Derives (events ++ w) :=
  stackRest_start ((h.steady (ofText_steady text)).2.2 w hw)

theorem Reaches.ended_iff (h : (ofText text).Reaches events s) :
    s.state = none ↔ Event.Ended events := by
  obtain ⟨w, hw, hne⟩ := exists_stackRest s.stack
  rw [(h.stream hw).ended_iff]
  constructor
  · intro hstate
    have hpending := (h.steady (ofText_steady text)).1.sound.finished hstate
    have hstack : s.stack = [] := by simp [stack, hstate, hpending]
    rw [hstack] at hw
    exact hw
  · intro hnil
    by_contra hstate
    refine hne ?_ hnil
    simp [stack, hstate]

theorem Reaches.pending_ne_nil (h : (ofText text).Reaches events s) {e : Expect}
    (hstate : s.state = some e) (houter : e ∉ outer) : s.pending ≠ [] := by
  have hnested := (h.steady (ofText_steady text)).1.sound.inside e hstate houter
  obtain ⟨f, tail, hpending⟩ := hnested.exists_cons
  simp [hpending]

end EventStream

/-- The diagnostics of a machine or a composer that has lost its way: the tokens or the events are
at an end, or an event is none that can come next. -/
def Diagnostic.IsLost (d : Diagnostic) : Prop :=
  d.stage = .events ∧ d.problem = .tokensExhausted ∨
    d.stage = .nodes ∧ (d.problem = .eventsExhausted ∨ ∃ found, d.problem = .unexpectedEvent found)

namespace Event

/-- The events of a text are all that the machine hands out before it comes to its end or fails. -/
theorem ofText_reaches (text : List Char) :
    ∃ s, (EventStream.ofText text).Reaches (ofText text).items s ∧
      s.next = (ofText text).fault.elim (.ok (none, s)) .error :=
  EventStream.collect_reaches (EventStream.ofText_steady text) (EventStream.ofText_load text)
    .start

theorem ofText_stream {text : List Char} (hfault : (ofText text).fault = none) :
    Phrase.stream.Derives (ofText text).items := by
  obtain ⟨s, hreaches, hnext⟩ := ofText_reaches text
  rw [hfault] at hnext
  have hsteady := (hreaches.steady (EventStream.ofText_steady text)).1
  obtain ⟨hstate, -⟩ := hsteady.state_of_next_none hnext
  have hstack : s.stack = [] := by simp [EventStream.stack, hstate, hsteady.sound.finished hstate]
  have hstream := hreaches.stream (w := []) (by rw [hstack]; rfl)
  rwa [List.append_nil] at hstream

theorem ofText_cut {text : List Char} {d : Diagnostic} (hfault : (ofText text).fault = some d) :
    ∃ missing, missing ≠ [] ∧ Phrase.stream.Derives ((ofText text).items ++ missing) := by
  obtain ⟨s, hreaches, hnext⟩ := ofText_reaches text
  rw [hfault] at hnext
  have hsteady := (hreaches.steady (EventStream.ofText_steady text)).1
  obtain ⟨missing, hmissing, hne⟩ := EventStream.exists_stackRest s.stack
  exact ⟨missing, hne (hsteady.stack_ne_nil hnext), hreaches.stream hmissing⟩

/-- What cuts the events of a text short is what cuts its tokens short, or a problem of their
order. -/
theorem ofText_faults {text : List Char} {d : Diagnostic} (hfault : (ofText text).fault = some d) :
    (Token.ofText text).fault = some d ∨ d.stage = .events ∧ d.problem ≠ .tokensExhausted := by
  obtain ⟨s, hreaches, hnext⟩ := ofText_reaches text
  rw [hfault] at hnext
  obtain ⟨hsteady, htokens, -⟩ := hreaches.steady (EventStream.ofText_steady text)
  rcases hsteady.next_fair d hnext with hscan | ⟨hstage, hproblem, -⟩
  · rw [htokens] at hscan
    exact Or.inl hscan
  · exact Or.inr ⟨hstage, hproblem⟩

theorem ofText_fault_not_lost {text : List Char} {d : Diagnostic}
    (hfault : (ofText text).fault = some d) : ¬ d.IsLost := by
  rcases ofText_faults hfault with hscan | ⟨hstage, hproblem⟩
  · simp [Diagnostic.IsLost, (Token.ofText_faults hscan).stage]
  · simp [Diagnostic.IsLost, hstage, hproblem]

end Event

namespace Document

/-- What is wrong with a text is a fault of its events, of its anchors, of the number of its
documents or of its values. -/
theorem ofText_faults {text : List Char} {cursor : Cursor} {d : Diagnostic}
    (h : ofText text cursor = .error d) :
    (Event.ofText text).fault = some d ∨ Composition.AnchorFault d ∨ Node.SecondDocument d ∨
      d.stage = .values := by
  rcases bind_eq_error_iff.mp h with hnodes | ⟨root, -, h⟩
  · have hrefused : (Event.ofText text).fault = some d ∨ Composition.AnchorFault d ∨
        Node.SecondDocument d := by
      cases hfault : (Event.ofText text).fault with
      | none =>
          have hstream := Event.ofText_stream hfault
          rw [← List.append_nil (Event.ofText text).items] at hstream
          exact hfault ▸ Node.ofEvents_faults hstream (by simp) hnodes
      | some d' =>
          obtain ⟨missing, -, hstream⟩ := Event.ofText_cut hfault
          exact hfault ▸ Node.ofEvents_faults hstream (by simp [hfault]) hnodes
    rcases hrefused with hfault | hanchor | hsecond
    · exact Or.inl hfault
    · exact Or.inr (Or.inl hanchor)
    · exact Or.inr (Or.inr (Or.inl hsecond))
  · cases root with
    | none => cases h
    | some node => exact Or.inr (Or.inr (Or.inr (ofNode_faults cursor node d h).stage))

theorem ofText_not_lost {text : List Char} {cursor : Cursor} {d : Diagnostic}
    (h : ofText text cursor = .error d) : ¬ d.IsLost := by
  rcases ofText_faults h with hfault | ⟨hstage, hproblem⟩ | ⟨hstage, hproblem⟩ | hstage
  · exact Event.ofText_fault_not_lost hfault
  · rcases hproblem with hproblem | ⟨name, hproblem⟩ <;>
      simp [Diagnostic.IsLost, hstage, hproblem]
  · simp [Diagnostic.IsLost, hstage, hproblem]
  · simp [Diagnostic.IsLost, hstage]

end Document

/-- The events of every text. The machine hands them out one by one until it has no more or fails.
Unless it fails they form a stream of documents, and otherwise the beginning of one. The machine has
no more to hand out only behind the end of the stream, never runs out of states to go back to inside
a document, and neither it nor the composer ever loses its way. -/
theorem Event.ofText_grammar (text : List Char) :
    (∃ last, (EventStream.ofText text).Reaches (ofText text).items last ∧
      last.next = (ofText text).fault.elim (.ok (none, last)) .error) ∧
    ((ofText text).fault = none → Phrase.stream.Derives (ofText text).items) ∧
    (∀ d, (ofText text).fault = some d → ∃ missing, missing ≠ [] ∧
      Phrase.stream.Derives ((ofText text).items ++ missing)) ∧
    (∀ events s, (EventStream.ofText text).Reaches events s →
      (s.state = none ↔ Ended events) ∧ (∀ s', s.next = .ok (none, s') → Ended events) ∧
      ∀ e, s.state = some e → e ∉ EventStream.outer → s.pending ≠ []) ∧
    (∀ d, (ofText text).fault = some d → ¬ d.IsLost) ∧
    ∀ cursor d, Document.ofText text cursor = .error d → ¬ d.IsLost := by
  refine ⟨ofText_reaches text, ofText_stream, fun d => ofText_cut, fun events s h => ?_,
    fun d => ofText_fault_not_lost, fun cursor d => Document.ofText_not_lost⟩
  refine ⟨h.ended_iff, fun s' hnext => ?_, fun e => h.pending_ne_nil⟩
  have hsteady := (h.steady (EventStream.ofText_steady text)).1
  exact h.ended_iff.mp (hsteady.state_of_next_none hnext).1

end Playbook
