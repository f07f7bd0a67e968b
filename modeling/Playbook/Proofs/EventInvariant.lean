import Playbook.Proofs.EventGrammar
import Playbook.Proofs.TokenRun
import Playbook.Event.Stream

/-!
The invariant of the event machine. Each state stands for the events it still has to yield, and the
stack of states for those of the collections that are open; a bound on the number of events falls
with each step.
-/

namespace Playbook

namespace EventStream

open EventGrammar

/-- The machine with other tokens to come. -/
def readTo (s : EventStream) (items : List Token) : EventStream :=
  { s with tokens := { s.tokens with items } }

@[simp] theorem readTo_readTo (s : EventStream) (items items' : List Token) :
    (s.readTo items).readTo items' = s.readTo items' := rfl

@[simp] theorem readTo_items (s : EventStream) (items : List Token) :
    (s.readTo items).tokens.items = items := rfl

theorem readTo_self {s : EventStream} {items : List Token} (h : s.tokens.items = items) :
    s.readTo items = s := by
  subst h
  rfl

theorem skip_eq_readTo {s : EventStream} {t : Token} {rest : List Token}
    (h : s.tokens.items = t :: rest) : s.skip = s.readTo rest := by
  simp [skip, readTo, h]

theorem token_eq_ok_iff {s : EventStream} {t : Token} :
    s.token = .ok t ↔ ∃ rest, s.tokens.items = t :: rest := by
  unfold token
  split <;> simp_all

theorem kind_eq_ok_iff {s : EventStream} {kind : TokenKind} :
    s.kind = .ok kind ↔ ∃ t rest, s.tokens.items = t :: rest ∧ t.kind = kind := by
  unfold EventStream.kind
  rw [map_eq_ok_iff]
  simp only [token_eq_ok_iff]
  constructor
  · rintro ⟨t, ⟨rest, hitems⟩, rfl⟩
    exact ⟨t, rest, hitems, rfl⟩
  · rintro ⟨t, rest, hitems, rfl⟩
    exact ⟨t, ⟨rest, hitems⟩, rfl⟩

/-- Tokens that the machine has read on its way: none of them ends the stream. -/
structure Passed (s : EventStream) (used rest : List Token) : Prop where
  items : s.tokens.items = used ++ rest
  noEnd : ∀ t ∈ used, t.kind ≠ .streamEnd

theorem Passed.still {s : EventStream} {items : List Token} (h : s.tokens.items = items) :
    s.Passed [] items :=
  ⟨h, by simp⟩

theorem Passed.one {s : EventStream} {t : Token} {rest : List Token}
    (hitems : s.tokens.items = t :: rest) (hkind : t.kind ≠ .streamEnd) :
    s.Passed [t] rest :=
  ⟨hitems, by simpa using hkind⟩

theorem Passed.trans {s : EventStream} {used used' middle rest : List Token}
    (h : s.Passed used middle) (h' : (s.readTo middle).Passed used' rest) :
    s.Passed (used ++ used') rest := by
  constructor
  · rw [h.items, List.append_assoc]
    exact congrArg _ h'.items
  · intro t ht
    rcases List.mem_append.mp ht with hmem | hmem
    · exact h.noEnd t hmem
    · exact h'.noEnd t hmem

theorem property_outcome {run run' : PropertyRun} {s s' : EventStream}
    (h : property run s = .ok (run', s')) :
    ∃ used rest, s.Passed used rest ∧ s' = s.readTo rest ∧ (used = [] → run' = run) := by
  unfold property at h
  obtain ⟨t, ht, h⟩ := bind_eq_ok_iff.mp h
  obtain ⟨rest, hitems⟩ := token_eq_ok_iff.mp ht
  dsimp only at h
  split at h
  · rename_i hkind _
    cases h
    exact ⟨[t], rest, .one hitems (by simp [hkind]), skip_eq_readTo hitems, by simp⟩
  · rename_i hkind _
    cases h
    exact ⟨[t], rest, .one hitems (by simp [hkind]), skip_eq_readTo hitems, by simp⟩
  · cases h
    exact ⟨[], s.tokens.items, .still rfl, rfl, fun _ => rfl⟩

/-- What reading a node can come to: a leaf, or the start of a collection, whose opening token is
left for the next step. -/
inductive NodeOutcome (s : EventStream) : Event → EventStream → Prop
  | leaf {used rest : List Token} {event : Event} (hpassed : s.Passed used rest)
      (hused : used ≠ []) (hleaf : Phrase.node.Derives [event]) :
      NodeOutcome s event (s.readTo rest).pop
  | sequence {used rest : List Token} {t : Token} (hpassed : s.Passed used (t :: rest))
      (hkind : t.kind ≠ .streamEnd) (props : Properties) (flow : Bool) (start stop : Mark)
      {next : Expect}
      (hnext : next ∈ [.flowSequenceFirst, .indentlessEntry, .blockSequenceFirst]) :
      NodeOutcome s ⟨.sequenceStart props flow, start, stop⟩
        ((s.readTo (t :: rest)).expect next)
  | mapping {used rest : List Token} {t : Token} (hpassed : s.Passed used (t :: rest))
      (hkind : t.kind ≠ .streamEnd) (props : Properties) (flow : Bool) (start stop : Mark)
      {next : Expect} (hnext : next ∈ [.flowMappingFirst, .blockMappingFirst]) :
      NodeOutcome s ⟨.mappingStart props flow, start, stop⟩
        ((s.readTo (t :: rest)).expect next)

theorem node_outcome {s s' : EventStream} {block indentless : Bool} {event : Event}
    (h : s.node block indentless = .ok (event, s')) : NodeOutcome s event s' := by
  unfold node content at h
  obtain ⟨t, ht, h⟩ := bind_eq_ok_iff.mp h
  split at h
  · obtain ⟨rest, hitems⟩ := token_eq_ok_iff.mp ht
    cases h
    rw [skip_eq_readTo hitems]
    exact .leaf (.one hitems (by simp)) (by simp) (.aliasOf _ _ _)
  · obtain ⟨⟨run₁, s₁⟩, h₁, h⟩ := bind_eq_ok_iff.mp h
    obtain ⟨⟨run₂, s₂⟩, h₂, h⟩ := bind_eq_ok_iff.mp h
    obtain ⟨tag, htag, h⟩ := bind_eq_ok_iff.mp h
    obtain ⟨token, htoken, h⟩ := bind_eq_ok_iff.mp h
    obtain ⟨used₁, rest₁, hpassed₁, rfl, hrun₁⟩ := property_outcome h₁
    obtain ⟨used₂, rest₂, hpassed₂, rfl, hrun₂⟩ := property_outcome h₂
    obtain ⟨rest, hitems⟩ := token_eq_ok_iff.mp htoken
    have hpassed := hpassed₁.trans hpassed₂
    have hbare : used₁ ++ used₂ = [] → run₂.anchor = none ∧ tag = none := by
      intro hnil
      obtain ⟨hnil₁, hnil₂⟩ := List.append_eq_nil_iff.mp hnil
      rw [hrun₂ hnil₂, hrun₁ hnil₁] at htag ⊢
      cases htag
      exact ⟨rfl, rfl⟩
    simp only [readTo_readTo, readTo_items] at hitems h
    subst hitems
    split at h
    · rename_i text style hkind
      cases h
      rw [skip_eq_readTo rfl]
      refine .leaf (hpassed.trans (.one rfl ?_)) (by simp) (.scalar _ _ _ _ _ _)
      simp [hkind]
    · rename_i hkind
      cases h
      exact .sequence hpassed (by simp [hkind]) _ _ _ _ (by simp)
    · rename_i hkind
      cases h
      exact .mapping hpassed (by simp [hkind]) _ _ _ _ (by simp)
    · split_ifs at h with hentry hsequence hmapping hprops
      · cases h
        refine .sequence hpassed ?_ _ _ _ _ (by simp)
        intro hend
        simp [hend] at hentry
      · cases h
        refine .sequence hpassed ?_ _ _ _ _ (by simp)
        intro hend
        simp [hend] at hsequence
      · cases h
        refine .mapping hpassed ?_ _ _ _ _ (by simp)
        intro hend
        simp [hend] at hmapping
      · cases h
        refine .leaf hpassed ?_ (.scalar _ _ _ _ _ _)
        -- An empty scalar stands there only behind an anchor or a tag.
        intro hnil
        obtain ⟨hanchor, htag⟩ := hbare hnil
        simp [hanchor, htag] at hprops

/-- The states that stand between documents; all others belong to a node that is being read. -/
def outer : List Expect := [.streamStart, .implicitDocumentStart, .documentStart, .documentEnd]

/-- The states that read one token without looking at its kind. -/
def blind : List Expect :=
  [.streamStart, .blockSequenceFirst, .blockMappingFirst, .flowSequenceFirst, .flowMappingFirst,
    .pairKey]

/-- The events that a state leads to, up to the end of what it has begun. -/
def Rest : Expect → List Event → Prop
  | .streamStart => Phrase.stream.Derives
  | .implicitDocumentStart => StreamRest
  | .documentStart => StreamRest
  | .documentContent => Phrase.node.Derives
  | .documentEnd => DocumentRest
  | .blockNode => Phrase.node.Derives
  | .blockSequenceFirst => SequenceRest
  | .blockSequenceEntry => SequenceRest
  | .indentlessEntry => SequenceRest
  | .blockMappingFirst => MappingRest
  | .blockMappingKey => MappingRest
  | .blockMappingValue => NodeThen MappingRest
  | .flowSequenceFirst => SequenceRest
  | .flowSequenceEntry => SequenceRest
  | .pairKey => NodeThen (NodeThen (MappingEndThen SequenceRest))
  | .pairValue => NodeThen (MappingEndThen SequenceRest)
  | .pairEnd => MappingEndThen SequenceRest
  | .flowMappingFirst => MappingRest
  | .flowMappingKey => MappingRest
  | .flowMappingValue => NodeThen MappingRest
  | .flowMappingNoValue => NodeThen MappingRest

/-- How many events a state may still yield without reading a token. -/
def weight : Expect → Nat
  | .streamStart => 1
  | .implicitDocumentStart => 4
  | .documentStart => 0
  | .documentContent => 2
  | .documentEnd => 1
  | .blockNode => 2
  | .blockSequenceFirst => 1
  | .blockSequenceEntry => 0
  | .indentlessEntry => 1
  | .blockMappingFirst => 1
  | .blockMappingKey => 0
  | .blockMappingValue => 1
  | .flowSequenceFirst => 1
  | .flowSequenceEntry => 0
  | .pairKey => 0
  | .pairValue => 2
  | .pairEnd => 1
  | .flowMappingFirst => 1
  | .flowMappingKey => 0
  | .flowMappingValue => 1
  | .flowMappingNoValue => 1

/-- The events that a stack of states leads to. -/
def StackRest : List Expect → List Event → Prop
  | [], w => w = []
  | e :: es, w => ∃ u v, Rest e u ∧ StackRest es v ∧ w = u ++ v

/-- What can be put off inside a document: nodes that are being read, above its end. -/
def Nested : List Expect → Prop
  | [] => False
  | [e] => e = .documentEnd
  | e :: es => e ∉ outer ∧ e ∉ blind ∧ Nested es

def stack (s : EventStream) : List Expect := s.state.toList ++ s.pending

def stackWeight (stack : List Expect) : Nat := (stack.map weight).sum

/-- A bound on the number of events to come. -/
def load (s : EventStream) : Nat := 4 * s.tokens.items.length + stackWeight s.stack

/-- Tokens that are not cut short by a fault go on to the end of the stream. -/
def Supplied (feed : Feed Token) : Prop :=
  feed.fault = none → TokenStream.Closed feed.items

/-- The invariant of the machine. Between documents nothing is put off, and inside a document its
end always is, so that there is something to go on with after each node. A state that skips a token
unseen does not skip the end of the stream. -/
structure Sound (s : EventStream) : Prop where
  supplied : s.state ≠ none → Supplied s.tokens
  opening : ∀ e, s.state = some e → e ∈ blind →
    ∃ t rest, s.tokens.items = t :: rest ∧ t.kind ≠ .streamEnd
  outside : ∀ e, s.state = some e → e ∈ outer → s.pending = []
  inside : ∀ e, s.state = some e → e ∉ outer → Nested s.pending
  finished : s.state = none → s.pending = []

theorem Nested.push {e : Expect} {es : List Expect} (houter : e ∉ outer) (hblind : e ∉ blind)
    (hes : Nested es) : Nested (e :: es) := by
  cases es with
  | nil => exact hes.elim
  | cons f es => exact ⟨houter, hblind, hes⟩

theorem Nested.exists_cons {es : List Expect} (h : Nested es) : ∃ e tail, es = e :: tail := by
  cases es with
  | nil => exact h.elim
  | cons e tail => exact ⟨e, tail, rfl⟩

theorem Supplied.passed {s : EventStream} {used rest : List Token} (h : Supplied s.tokens)
    (hpassed : s.Passed used rest) : Supplied (s.readTo rest).tokens := by
  intro hfault
  obtain ⟨t, ht, hkind⟩ := h hfault
  rw [hpassed.items] at ht
  cases rest with
  | nil =>
      rw [List.append_nil] at ht
      exact absurd hkind (hpassed.noEnd t (List.mem_of_getLast? ht))
  | cons u rest =>
      rw [List.getLast?_append_of_ne_nil _ (by simp)] at ht
      exact ⟨t, ht, hkind⟩

@[simp] theorem stack_pop (s : EventStream) : s.pop.stack = s.pending := by
  cases hpending : s.pending <;> simp [stack, pop, hpending]

theorem Sound.expect {s : EventStream} {e : Expect} (hsupplied : Supplied s.tokens)
    (houter : e ∉ outer) (hopening : e ∈ blind →
      ∃ t rest, s.tokens.items = t :: rest ∧ t.kind ≠ .streamEnd)
    (hnested : Nested s.pending) : (s.expect e).Sound where
  supplied _ := hsupplied
  opening f hf hblind := by
    cases hf
    exact hopening hblind
  outside f hf hmem := by
    cases hf
    exact absurd hmem houter
  inside f hf _ := hnested
  finished h := by cases h

theorem Sound.pop {s : EventStream} (hsupplied : Supplied s.tokens) (hnested : Nested s.pending) :
    s.pop.Sound := by
  obtain ⟨e, tail, hpending⟩ := hnested.exists_cons
  have hstate : s.pop.state = some e := by simp [EventStream.pop, hpending]
  have htail : s.pop.pending = tail := by simp [EventStream.pop, hpending]
  rw [hpending] at hnested
  constructor
  · exact fun _ => hsupplied
  · intro f hf hblind
    rw [hstate] at hf
    cases hf
    cases tail with
    | nil =>
        cases hnested
        simp [blind] at hblind
    | cons g tail => exact absurd hblind hnested.2.1
  · intro f hf hmem
    rw [hstate] at hf
    cases hf
    rw [htail]
    cases tail with
    | nil => rfl
    | cons g tail => exact absurd hmem hnested.1
  · intro f hf hmem
    rw [hstate] at hf
    cases hf
    rw [htail]
    cases tail with
    | nil =>
        cases hnested
        simp [outer] at hmem
    | cons g tail => exact hnested.2.2
  · intro h
    rw [hstate] at h
    cases h

end EventStream

end Playbook
